/-
This file proves that the bloom filters reject no selector chain that matches.
-/

import Neosurf.Construction.Libcss.Select
import Neosurf.Proof.Libcss.Match

namespace Neosurf.Libcss

open Walks

variable {Node M V : Type} {handler : SelectHandler Node} {node other : Node} {data : Compound}
  {chain : List (Combinator × Compound)} {a b : Bloom} {hash : UInt32}

section Words

variable {x y mask : UInt32}

/-- The bits of one word are all set in the other. -/
theorem and_eq_left_iff :
    x &&& y = x ↔ ∀ k, x.toBitVec.getLsbD k = true → y.toBitVec.getLsbD k = true := by
  rw [← UInt32.toBitVec_inj, UInt32.toBitVec_and]
  constructor
  · intro same k set
    rw [← same, BitVec.getLsbD_and, Bool.and_eq_true] at set
    exact set.2
  · intro within
    apply BitVec.eq_of_getLsbD_eq
    intro k _
    rw [BitVec.getLsbD_and]
    cases set : x.toBitVec.getLsbD k with
    | false => rfl
    | true => rw [within k set, Bool.and_self]

theorem or_and_eq_left_iff : (x ||| mask) &&& y = x ||| mask ↔ x &&& y = x ∧ mask &&& y = mask := by
  simp only [and_eq_left_iff, UInt32.toBitVec_or, BitVec.getLsbD_or, Bool.or_eq_true]
  constructor
  · intro within
    exact ⟨fun k set => within k (.inl set), fun k set => within k (.inr set)⟩
  · rintro ⟨first, second⟩ k (set | set)
    · exact first k set
    · exact second k set

theorem and_or_eq_left (within : mask &&& x = mask) (y : UInt32) : mask &&& (x ||| y) = mask := by
  rw [and_eq_left_iff] at within ⊢
  intro k set
  rw [UInt32.toBitVec_or, BitVec.getLsbD_or, within k set, Bool.true_or]

end Words

theorem bloomInBloom_iff (a b : Bloom) :
    bloomInBloom a b = true ↔ ∀ i : Fin 4, a[i] &&& b[i] = a[i] := by
  simp only [bloomInBloom, Bool.and_eq_true, beq_iff_eq]
  constructor
  · rintro ⟨⟨⟨zero, one⟩, two⟩, three⟩ i
    match i with
    | 0 => exact zero
    | 1 => exact one
    | 2 => exact two
    | 3 => exact three
  · intro all
    exact ⟨⟨⟨all 0, all 1⟩, all 2⟩, all 3⟩

theorem getElem_bloomAddHash (bloom : Bloom) (hash : UInt32) (i : Fin 4) :
    (bloomAddHash bloom hash)[i] =
      if i = bloomIndex hash then bloom[i] ||| 1 <<< (hash &&& 0x1f) else bloom[i] := by
  rw [bloomAddHash, Fin.getElem_fin, Vector.getElem_set]
  by_cases same : i = bloomIndex hash
  · rw [if_pos (congrArg Fin.val same.symm), if_pos same, same]
  · rw [if_neg fun equal => same (Fin.ext equal.symm), if_neg same]
    rfl

/-- A filter with one more hash is part of those that have the hash as well. -/
theorem bloomInBloom_addHash :
    bloomInBloom (bloomAddHash a hash) b = true ↔ bloomInBloom a b = true ∧ HasHash b hash := by
  simp only [bloomInBloom_iff, getElem_bloomAddHash]
  constructor
  · intro all
    have own := all (bloomIndex hash)
    rw [if_pos rfl, or_and_eq_left_iff] at own
    refine ⟨?_, own.2⟩
    intro i
    by_cases same : i = bloomIndex hash
    · rw [same]
      exact own.1
    · have rest := all i
      rwa [if_neg same] at rest
  · rintro ⟨all, has⟩ i
    by_cases same : i = bloomIndex hash
    · rw [if_pos same, or_and_eq_left_iff, same]
      exact ⟨all _, has⟩
    · rw [if_neg same]
      exact all i

theorem bloomInBloom_init (b : Bloom) : bloomInBloom bloomInit b = true := by
  rw [bloomInBloom_iff]
  intro i
  rw [bloomInit, Fin.getElem_fin, Vector.getElem_replicate]
  exact UInt32.zero_and

theorem hasHash_saturated (hash : UInt32) : HasHash bloomSaturated hash := by
  rw [HasHash, bloomSaturated, Fin.getElem_fin, Vector.getElem_replicate]
  exact UInt32.and_neg_one

theorem hasHash_merge_left (has : HasHash a hash) (b : Bloom) : HasHash (bloomMerge a b) hash := by
  rw [HasHash, bloomMerge, Fin.getElem_fin, Vector.getElem_zipWith, UInt32.or_comm]
  exact and_or_eq_left has _

theorem hasHash_merge_right (has : HasHash b hash) (a : Bloom) : HasHash (bloomMerge a b) hash := by
  rw [HasHash, bloomMerge, Fin.getElem_fin, Vector.getElem_zipWith]
  exact and_or_eq_left has _

theorem hasHash_addHash_self (a : Bloom) (hash : UInt32) : HasHash (bloomAddHash a hash) hash :=
  (bloomInBloom_addHash.mp ((bloomInBloom_iff _ _).mpr fun _ => UInt32.and_self)).2

theorem hasHash_addHash (has : HasHash a hash) (added : UInt32) :
    HasHash (bloomAddHash a added) hash := by
  rw [HasHash, getElem_bloomAddHash]
  split
  · exact and_or_eq_left has _
  · exact has

/-- The names of a node: its element, its id and its classes. -/
def nodeNames (handler : SelectHandler Node) (node : Node) : List LwcString :=
  (handler.nodeName node).name :: ((handler.nodeId node).toList ++ handler.nodeClasses node)

/-- A filter has the names of a node. -/
def HasNames (handler : SelectHandler Node) (bloom : Bloom) (node : Node) : Prop :=
  ∀ name ∈ nodeNames handler node, HasHash bloom (hashName name)

/-- A filter has the names of all ancestors of a node. -/
def Covers (handler : SelectHandler Node) (bloom : Bloom) (node : Node) : Prop :=
  ∀ other ∈ ancestors handler node, HasNames handler bloom other

theorem hasHash_foldl_addHash {names : List LwcString} {hash : UInt32} {bloom : Bloom}
    (has : HasHash bloom hash ∨ ∃ name ∈ names, hashName name = hash) :
    HasHash (names.foldl (fun bloom name => bloomAddHash bloom (hashName name)) bloom) hash := by
  induction names generalizing bloom with
  | nil =>
      rcases has with has | ⟨name, inside, -⟩
      · exact has
      · cases inside
  | cons name names ih =>
      rw [List.foldl_cons]
      apply ih
      rcases has with has | ⟨other, inside, same⟩
      · exact .inl (hasHash_addHash has _)
      · rcases List.mem_cons.mp inside with rfl | later
        · left
          rw [← same]
          exact hasHash_addHash_self _ _
        · exact .inr ⟨other, later, same⟩

/-- The filter of a node has its own names and all that its parent's filter has. -/
theorem hasNames_createNodeBloom (parentBloom : Bloom) :
    HasNames handler (createNodeBloom handler parentBloom node) node := by
  intro name inside
  rw [createNodeBloom]
  apply hasHash_merge_right
  apply hasHash_foldl_addHash
  rcases List.mem_cons.mp inside with rfl | inside
  · left
    cases handler.nodeId node with
    | none => exact hasHash_addHash_self _ _
    | some id => exact hasHash_addHash (hasHash_addHash_self _ _) _
  · rcases List.mem_append.mp inside with own | own
    · left
      rw [Option.mem_toList.mp own]
      exact hasHash_addHash_self _ _
    · exact .inr ⟨name, own, rfl⟩

theorem hashName_congr {name other : LwcString} (same : caselessEqual name other = true) :
    hashName name = hashName other := by
  rw [hashName, hashName, folded, folded, beq_iff_eq.mp same]

/-- Elements are named again inside negations only, and what the reject cache takes is not
negated. -/
def Compound.Plain (data : Compound) : Prop :=
  Cacheable data ∧ ∀ detail ∈ data.details, detail.type = .element → detail.negate = true

instance (data : Compound) : Decidable data.Plain := by
  unfold Compound.Plain
  infer_instance

section Chains

variable (lawful : Lawful handler) {bloom : Bloom}
include lawful

/-- The name of a detail that a node passes is one of its own names. -/
theorem bloomInBloom_detail {detail : SelectorDetail} (has : HasNames handler bloom node)
    (inside : bloomInBloom a bloom = true) (passed : matchDetail handler node detail = true)
    (positive : detail.negate = false) (other : detail.type ≠ .element) :
    bloomInBloom (chainBloomAddDetail detail a) bloom = true := by
  rw [matchDetail, positive, Bool.bne_false] at passed
  rw [chainBloomAddDetail]
  rw [matchPlainDetail] at passed
  split
  · rename_i element
    exact absurd element other
  · rename_i isClass
    rw [isClass] at passed
    obtain ⟨own, given, same⟩ := lawful.className node _ passed
    rw [bloomInBloom_addHash, ← hashName_congr same]
    exact ⟨inside, has own (List.mem_cons_of_mem _ (List.mem_append_right _ given))⟩
  · rename_i isId
    rw [isId] at passed
    obtain ⟨own, given, same⟩ := lawful.idName node _ passed
    rw [bloomInBloom_addHash, ← hashName_congr same]
    exact ⟨inside, has own (List.mem_cons_of_mem _ (List.mem_append_left _
      (Option.mem_toList.mpr given)))⟩
  · exact inside

/-- The filter of one selector is part of those that have the names of a node that fits. -/
theorem bloomInBloom_chainBloomAdd (plain : data.Plain) (has : HasNames handler bloom node)
    (good : fits handler data node = true) (inside : bloomInBloom a bloom = true) :
    bloomInBloom (chainBloomAdd data a) bloom = true := by
  rw [fits, Bool.and_eq_true, Bool.or_eq_true, beq_iff_eq, matchDetails, List.all_eq_true] at good
  obtain ⟨element, details⟩ := good
  have start : bloomInBloom (chainBloomAddDetail { type := .element, qname := data.qname } a) bloom =
      true := by
    rw [chainBloomAddDetail]
    dsimp only
    split
    · exact inside
    · rename_i named
      have same := element.resolve_left named
      rw [bloomInBloom_addHash, ← hashName_congr same]
      exact ⟨inside, has _ List.mem_cons_self⟩
  have rest {passed : List SelectorDetail} (given : ∀ detail ∈ passed, detail ∈ data.details)
      {b : Bloom} (inside : bloomInBloom b bloom = true) : bloomInBloom (passed.foldl
        (fun bloom detail => if detail.negate then bloom else chainBloomAddDetail detail bloom) b)
        bloom = true := by
    induction passed generalizing b with
    | nil => exact inside
    | cons detail passed ih =>
        rw [List.foldl_cons]
        apply ih fun other later => given other (List.mem_cons_of_mem _ later)
        have own := given detail List.mem_cons_self
        split
        · exact inside
        · rename_i positive
          exact bloomInBloom_detail lawful has inside (details detail own)
            (Bool.eq_false_iff.mpr positive) fun element => positive (plain.2 detail own element)
  exact rest (fun _ given => given) start

theorem ancestors_of_nearest {comb : Combinator} {next : Node} (level : comb.climbs = false)
    (found : nearest handler comb data node = some next) :
    ancestors handler next = ancestors handler node := by
  have adjacent (x y : Node) (step : handler.siblingNode x = some y) :
      ancestors handler y = ancestors handler x := by
    have same := lawful.siblingParent x y step
    cases parent : handler.parentNode x with
    | none =>
        rw [parent] at same
        rw [ancestors, ancestors, walk_of_none parent, walk_of_none same]
    | some up =>
        rw [parent] at same
        rw [ancestors, ancestors, walk_of_some lawful.parents parent,
          walk_of_some lawful.parents same]
  cases comb with
  | ancestor => cases level
  | parent => cases level
  | sibling => exact adjacent node next (Option.filter_eq_some_iff.mp found).1
  | genericSibling => exact eq_of_mem_walk lawful.siblings adjacent (List.mem_of_find?_eq_some found)

/-- The rounds of `_chain_bloom_generate`. -/
def addLink (bloom : Bloom) (link : Combinator × Compound) : Bloom :=
  match link.1 with
  | .ancestor | .parent => chainBloomAdd link.2 bloom
  | .sibling | .genericSibling => bloom

/-- The filter of a chain that matches a node is part of those that cover the node. -/
theorem bloomInBloom_of_plainMatch (plain : ∀ link ∈ chain, link.2.Plain)
    (covers : Covers handler bloom node) (matched : plainMatch handler chain node = true) :
    bloomInBloom (chainBloomGenerate chain) bloom = true := by
  have along {a : Bloom} (inside : bloomInBloom a bloom = true) :
      bloomInBloom (chain.foldl addLink a) bloom = true := by
    induction chain generalizing node a with
    | nil => exact inside
    | cons link chain ih =>
        obtain ⟨comb, data⟩ := link
        rw [plainMatch] at matched
        cases found : nearest handler comb data node with
        | none =>
            rw [found] at matched
            cases matched
        | some next =>
            rw [found] at matched
            rw [List.foldl_cons]
            have own : data.Plain := plain _ List.mem_cons_self
            have rest := fun link later => plain link (List.mem_cons_of_mem _ later)
            cases level : comb.climbs with
            | true =>
                obtain ⟨above, good⟩ := mem_ancestors_of_nearest lawful level found
                apply ih rest (fun other inside => covers other (walk_trans lawful.parents above inside))
                  matched
                have added := bloomInBloom_chainBloomAdd lawful own (covers next above) good inside
                cases comb with
                | ancestor => exact added
                | parent => exact added
                | sibling => cases level
                | genericSibling => cases level
            | false =>
                apply ih rest (by rw [Covers, ancestors_of_nearest lawful level found]; exact covers)
                  matched
                cases comb with
                | ancestor => cases level
                | parent => cases level
                | sibling => exact inside
                | genericSibling => exact inside
  exact along (bloomInBloom_init bloom)

end Chains

end Neosurf.Libcss
