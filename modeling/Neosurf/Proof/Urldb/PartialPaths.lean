/-
This file proves which nodes the search for the path of a prefix comes by.
-/

import Mathlib.Data.List.TakeWhile
import Mathlib.Data.List.Flatten
import Neosurf.Proof.Urldb.IterateEntries

namespace Neosurf.Urldb

section PartialHosts

variable {env : Environment} {db : Database} {σ : Type} {callback : UrlCallback σ}

theorem strncasecmp_eq_iff {a b : Bytes} : strncasecmp a b = .eq ↔ folded b <+: folded a := by
  rw [strncasecmp, strcasecmp_eq_iff, List.prefix_iff_eq_take, folded, folded, folded,
    List.length_map, ← List.map_take, eq_comm]

/-- The beginnings of labels in order are in order. -/
theorem isLE_take {a b : Bytes} (n : Nat) (le : (strcasecmp a b).isLE = true) :
    (strcasecmp (a.take n) (b.take n)).isLE = true :=
  List.isLE_compareLex_take n le

theorem strncasecmp_gt {a b text : Bytes} (le : (strcasecmp a b).isLE = true)
    (greater : strncasecmp a text = .gt) : strncasecmp b text = .gt := by
  rw [strncasecmp, Std.OrientedCmp.gt_iff_lt] at greater ⊢
  exact Std.TransCmp.lt_of_lt_of_isLE greater (isLE_take _ le)

theorem strncasecmp_lt {a b text : Bytes} (le : (strcasecmp a b).isLE = true)
    (smaller : strncasecmp b text = .lt) : strncasecmp a text = .lt := by
  rw [strncasecmp] at smaller ⊢
  exact Std.TransCmp.lt_of_isLE_of_lt (isLE_take _ le) smaller

/-- The first labels of chains in order are in order, and so are the rest when those agree. -/
theorem isLE_cons {part part' : Bytes} {above above' : Chain}
    (le : (searchMatchHost (part :: above) (part' :: above')).isLE = true) :
    strcasecmp part part' = .lt ∨
      strcasecmp part part' = .eq ∧ (searchMatchHost above above').isLE = true := by
  rw [searchMatchHost, List.compareLex_cons_cons] at le
  cases first : strcasecmp part part' with
  | lt => exact Or.inl rfl
  | eq =>
      rw [first, Ordering.eq_then] at le
      exact Or.inr ⟨rfl, le⟩
  | gt =>
      rw [first] at le
      cases le

theorem isLE_of_isLE_cons {part part' : Bytes} {above above' : Chain}
    (le : (searchMatchHost (part :: above) (part' :: above')).isLE = true) :
    (strcasecmp part part').isLE = true := by
  rcases isLE_cons le with less | ⟨same, _⟩
  · rw [less]
    rfl
  · rw [same]
    rfl

theorem searchMatchLabels_gt {labels : List Bytes} {a b : Chain}
    (le : (searchMatchHost a b).isLE = true) (greater : searchMatchLabels a labels = .gt) :
    searchMatchLabels b labels = .gt := by
  induction a, labels using searchMatchLabels.induct generalizing b with
  | case1 labels => cases greater
  | case2 part above => cases greater
  | case3 part above label =>
      cases b with
      | nil => cases le
      | cons part' above' =>
          rw [searchMatchLabels] at greater ⊢
          exact strncasecmp_gt (isLE_of_isLE_cons le) greater
  | case4 part above label next labels ih =>
      cases b with
      | nil => cases le
      | cons part' above' =>
          rw [searchMatchLabels, Ordering.then_eq_gt] at greater ⊢
          rcases greater with greater | ⟨same, greater⟩
          · rw [Std.OrientedCmp.gt_iff_lt] at greater ⊢
            exact Or.inl (Std.TransCmp.lt_of_lt_of_isLE greater (isLE_of_isLE_cons le))
          · rcases isLE_cons le with less | ⟨first, rest⟩
            · rw [Std.TransCmp.congr_left same, ← Std.OrientedCmp.gt_iff_lt] at less
              exact Or.inl less
            · rw [Std.TransCmp.congr_left first] at same
              exact Or.inr ⟨same, ih rest greater⟩

theorem searchMatchLabels_lt {labels : List Bytes} {a b : Chain}
    (le : (searchMatchHost a b).isLE = true) (smaller : searchMatchLabels b labels = .lt) :
    searchMatchLabels a labels = .lt := by
  induction a, labels using searchMatchLabels.induct generalizing b with
  | case1 labels => rfl
  | case2 part above =>
      cases b with
      | nil => cases le
      | cons part' above' => cases smaller
  | case3 part above label =>
      cases b with
      | nil => cases le
      | cons part' above' =>
          rw [searchMatchLabels] at smaller ⊢
          exact strncasecmp_lt (isLE_of_isLE_cons le) smaller
  | case4 part above label next labels ih =>
      cases b with
      | nil => cases le
      | cons part' above' =>
          rw [searchMatchLabels, Ordering.then_eq_lt] at smaller ⊢
          rcases smaller with smaller | ⟨same, smaller⟩
          · exact Or.inl (Std.TransCmp.lt_of_isLE_of_lt (isLE_of_isLE_cons le) smaller)
          · rcases isLE_cons le with less | ⟨first, rest⟩
            · rw [Std.TransCmp.congr_right same] at less
              exact Or.inl less
            · rw [← Std.TransCmp.congr_left first] at same
              exact Or.inr ⟨same, ih rest smaller⟩

/-- The search for a prefix respects the order of the tree. -/
theorem cut_searchMatchPrefix (text : Bytes) :
    AATree.Cut searchMatchHost (searchMatchPrefix env text) := by
  have weaker {a b : Chain} (less : searchMatchHost a b = .lt) :
      (searchMatchHost a b).isLE = true := by
    rw [less]
    rfl
  by_cases address : hostIsIpAddress env text = true
  · constructor
    · intro a b less greater
      rw [searchMatchPrefix, if_pos address] at *
      exact strncasecmp_gt (headD_isLE less) greater
    · intro a b less smaller
      rw [searchMatchPrefix, if_pos address] at *
      exact strncasecmp_lt (headD_isLE less) smaller
  · constructor
    · intro a b less greater
      rw [searchMatchPrefix, if_neg address] at *
      exact searchMatchLabels_gt (weaker less) greater
    · intro a b less smaller
      rw [searchMatchPrefix, if_neg address] at *
      exact searchMatchLabels_lt (weaker less) smaller

/-- Labels without dots match a chain when their text begins the name of its host. -/
theorem searchMatchLabels_eq_iff {labels : List Bytes} {chain : Chain} (some_label : labels ≠ [])
    (filled : chain ≠ []) (plain : ∀ label ∈ labels, chr '.' ∉ folded label)
    (dotless : ∀ part ∈ chain, chr '.' ∉ folded part) :
    searchMatchLabels chain labels = .eq ↔
      [chr '.'].intercalate (labels.map folded) <+: [chr '.'].intercalate (chain.map folded) := by
  induction chain, labels using searchMatchLabels.induct with
  | case1 labels => exact absurd rfl filled
  | case2 part above => exact absurd rfl some_label
  | case3 part above label =>
      rw [searchMatchLabels, strncasecmp_eq_iff, List.map_singleton, List.intercalate_singleton]
      cases above with
      | nil => rw [List.map_singleton, List.intercalate_singleton]
      | cons part' above =>
          rw [List.map_cons, List.map_cons, List.intercalate_cons_cons, List.append_assoc,
            List.singleton_append, List.prefix_append_cons_iff (plain label (by simp))]
  | case4 part above label next labels ih =>
      rw [searchMatchLabels, Ordering.then_eq_eq, strcasecmp_eq_iff, List.map_cons, List.map_cons,
        List.intercalate_cons_cons, List.append_assoc, List.singleton_append]
      cases above with
      | nil =>
          rw [List.map_singleton, List.intercalate_singleton]
          constructor
          · rintro ⟨_, impossible⟩
            cases impossible
          · intro start
            exact absurd (start.subset (by simp)) (dotless part (by simp))
      | cons part' above =>
          rw [List.map_cons, List.map_cons, List.intercalate_cons_cons, List.append_assoc,
            List.singleton_append, List.append_cons_prefix_append_cons_iff (plain label (by simp))
              (dotless part (by simp)), eq_comm]
          apply and_congr_right
          intro _
          have rest := ih (List.cons_ne_nil _ _) (List.cons_ne_nil _ _)
            (fun label inside => plain label (List.mem_cons_of_mem _ inside))
            (fun part inside => dotless part (List.mem_cons_of_mem _ inside))
          rwa [List.map_cons, List.map_cons] at rest

/-- A chain spells a host of its tree. -/
theorem exists_name {i : Nat} {chain : Chain} (blind : CaseBlind env) (listed : Listed env db)
    (stored : chain ∈ (db.searchTrees i).toList) : ∃ host, Findable env host ∧
      searchTreeOf env host = i ∧ chain.reverse.map folded = (lookedParts env host).map folded := by
  obtain ⟨host, findable, same⟩ := listed.names i chain stored
  refine ⟨host, findable, ?_, same⟩
  rw [← searchTreeOf_first findable, hostParts_eq findable,
    ← searchTreeOf_congr blind (folded_headD same)]
  exact listed.trees i chain stored

theorem not_dot_of_mem_splitOn {label text : Bytes} (inside : label ∈ text.splitOn (chr '.')) :
    chr '.' ∉ folded label := by
  intro found
  obtain ⟨c, stored, dot⟩ := List.mem_map.mp found
  rw [toLower_eq_dot] at dot
  rw [dot] at stored
  exact List.not_mem_of_mem_splitOn inside stored

/-- In its own tree, a prefix matches the hosts whose names it begins. -/
theorem searchMatchPrefix_eq_iff {chain : Chain} {text : Bytes} (blind : CaseBlind env)
    (indexed : Indexed db) (listed : Listed env db)
    (stored : chain ∈ (db.searchTrees (searchTreeOf env text)).toList) :
    searchMatchPrefix env text chain = .eq ↔
      folded text <+: folded ([chr '.'].intercalate chain) := by
  obtain ⟨host, findable, tree, parts⟩ := exists_name blind listed stored
  rw [searchMatchPrefix]
  by_cases address : hostIsIpAddress env text = true
  · rw [searchTreeOf_eq_ip_iff.mpr address] at stored
    obtain ⟨part, rfl⟩ := indexed.single chain stored
    rw [if_pos address, strncasecmp_eq_iff, List.intercalate_singleton]
    rfl
  · have named : ¬ hostIsIpAddress env host = true := by
      rw [← searchTreeOf_eq_ip_iff, tree, searchTreeOf_eq_ip_iff]
      exact address
    rw [lookedParts, if_neg named, List.map_reverse, List.map_reverse,
      List.reverse_inj] at parts
    have filled : chain ≠ [] := by
      rintro rfl
      exact List.splitOn_ne_nil _ _ (List.map_eq_nil_iff.mp parts.symm)
    have dotless : ∀ part ∈ chain, chr '.' ∉ folded part := by
      intro part inside
      have found := List.mem_map_of_mem (f := folded) inside
      rw [parts] at found
      obtain ⟨label, stored, same⟩ := List.mem_map.mp found
      rw [← same]
      exact not_dot_of_mem_splitOn stored
    rw [if_neg address, searchMatchLabels_eq_iff (List.splitOn_ne_nil _ _) filled
      (fun label => not_dot_of_mem_splitOn) dotless, ← folded_intercalate, ← folded_intercalate,
      List.intercalate_splitOn]

/-- A search accepts the chain that spells the host. -/
theorem searchMatchString_eq_iff {i : Nat} {chain : Chain} {host : Bytes} (blind : CaseBlind env)
    (listed : Listed env db) (stored : chain ∈ (db.searchTrees i).toList) :
    searchMatchString env host chain = .eq ↔
      folded ([chr '.'].intercalate chain) = folded host := by
  obtain ⟨name, findable, -, parts⟩ := exists_name blind listed stored
  rw [folded_chain_text parts]
  constructor
  · exact name_of_find blind findable parts
  · intro same
    rw [lookedParts_congr blind same] at parts
    rw [searchMatchString]
    rw [lookedParts] at parts
    split
    · rename_i address
      rw [if_pos address] at parts
      exact strcasecmp_eq_iff.mpr (folded_headD parts)
    · rename_i name
      rw [if_neg name, List.map_reverse, List.map_reverse] at parts
      exact searchMatchHost_eq_iff.mpr (List.reverse_injective parts)

/-- Chains that spell one host have the same parts. -/
theorem parts_of_name {i j : Nat} {chain other : Chain} (blind : CaseBlind env)
    (listed : Listed env db) (stored : chain ∈ (db.searchTrees i).toList)
    (stored' : other ∈ (db.searchTrees j).toList)
    (same : folded ([chr '.'].intercalate chain) = folded ([chr '.'].intercalate other)) :
    chain.reverse.map folded = other.reverse.map folded := by
  obtain ⟨host, -, -, parts⟩ := exists_name blind listed stored
  obtain ⟨host', -, -, parts'⟩ := exists_name blind listed stored'
  rw [folded_chain_text parts, folded_chain_text parts'] at same
  rw [parts, parts', lookedParts_congr blind same]

/-- The entries of the hosts that a prefix matches in its own tree. -/
def matchedEntries (env : Environment) (db : Database) (text : Bytes) : List Entry :=
  ((db.searchTrees (searchTreeOf env text)).matching (searchMatchPrefix env text)).flatMap
    (chainEntries db)

theorem iteratePartialHost_eq (steady : callback.Steady) {text : Bytes} {t : AATree Chain}
    (urls : ∀ chain ∈ t.toList, (hostAt db chain).paths.Tips fun d => d.url.isSome = true) (s : σ) :
    iteratePartialHost callback env db text t s =
      some (callback.run ((t.matching (searchMatchPrefix env text)).flatMap (chainEntries db)) s,
        true) := by
  induction t generalizing s with
  | empty => rfl
  | node level chain left right left_ih right_ih =>
      have before := left_ih fun chain stored => urls chain (List.mem_append_left _ stored)
      have after := right_ih fun chain stored =>
        urls chain (List.mem_append_right _ (List.mem_cons_of_mem _ stored))
      rw [iteratePartialHost, AATree.matching]
      cases searchMatchPrefix env text chain with
      | gt => exact before s
      | lt => exact after s
      | eq =>
          dsimp only
          rw [before, List.flatMap_append, List.flatMap_cons, UrlCallback.run_append,
            UrlCallback.run_append]
          dsimp only
          rw [Paths.iterate_eq steady (urls chain (List.mem_append_right _ List.mem_cons_self))]
          exact after _

theorem mem_matchedEntries {text : Bytes} {e : Entry} (blind : CaseBlind env)
    (indexed : Indexed db) (listed : Listed env db) :
    e ∈ matchedEntries env db text ↔
      ∃ chain ∈ (db.searchTrees (searchTreeOf env text)).toList,
        folded text <+: folded ([chr '.'].intercalate chain) ∧ e ∈ chainEntries db chain := by
  rw [matchedEntries, AATree.matching_eq_filter (cut_searchMatchPrefix text) (indexed.sorted _),
    List.mem_flatMap]
  constructor
  · rintro ⟨chain, matched, inside⟩
    obtain ⟨stored, accepted⟩ := List.mem_filter.mp matched
    rw [decide_eq_true_eq, searchMatchPrefix_eq_iff blind indexed listed stored] at accepted
    exact ⟨chain, stored, accepted, inside⟩
  · rintro ⟨chain, stored, start, inside⟩
    rw [← searchMatchPrefix_eq_iff blind indexed listed stored] at start
    exact ⟨chain, List.mem_filter.mpr ⟨stored, decide_eq_true start⟩, inside⟩

theorem nodup_matchedEntries {text : Bytes} (indexed : Indexed db) (listed : Listed env db) :
    (matchedEntries env db text).Nodup := by
  rw [matchedEntries, AATree.matching_eq_filter (cut_searchMatchPrefix text) (indexed.sorted _)]
  exact (nodup_treeEntries indexed listed _).sublist (List.filter_sublist.flatMap _)

end PartialHosts

section PartialPaths

open SiblingTree

variable {σ : Type} {callback : UrlCallback σ}

/-- The search reads all segments of a path but the empty ones before the last. -/
def steps (path : Bytes) : List Bytes :=
  (path.splitOn (chr '/')).dropLast.filter (· ≠ []) ++ [(path.splitOn (chr '/')).getLastD []]

/-- The segment of a node begins with this text. -/
def PathData.begins (segment : Bytes) (d : PathData) : Bool := strncasecmp d.segment segment == .eq

/-- The segments lead to a node: down to the last of them, the node is below the first sibling that
begins with the segment, and the last segment begins its own or that of a node above. -/
def Paths.Leads : List Bytes → List (LwcString × Nat × Bytes) → Paths → Prop
  | [segment], key :: _, _ => folded segment <+: folded key.2.2
  | segment :: next :: rest, key :: keys, t =>
      ∃ d children, t.first (PathData.begins segment) = some (d, children) ∧ d.key = key ∧
        Leads (next :: rest) keys children
  | _, _, _ => False

/-- The nodes without children that the search comes by. -/
def Paths.partialLeaves : List (LwcString × Nat × Bytes) → Bytes → Paths →
    List (List (LwcString × Nat × Bytes) × PathData)
  | _, _, .nil => []
  | above, text, .cons d children next =>
      let text := text.dropWhile (· == chr '/')
      let segment := text.takeWhile (· != chr '/')
      if strncasecmp d.segment segment = .eq then
        if segment.length = text.length then
          SiblingTree.leavesAt PathData.key above (.cons d children .nil) ++
            partialLeaves above text next
        else partialLeaves (above ++ [d.key]) (text.drop (segment.length + 1)) children
      else partialLeaves above text next

theorem steps_plain {text : Bytes} (plain : chr '/' ∉ text) : steps text = [text] := by
  rw [steps, List.splitOn_eq_singleton plain]
  rfl

theorem steps_append {segment : Bytes} (plain : chr '/' ∉ segment) (rest : Bytes) :
    steps (segment ++ chr '/' :: rest) =
      if segment = [] then steps rest else segment :: steps rest := by
  rw [steps, List.splitOn_append_cons_self_of_not_mem plain, steps]
  cases parts : rest.splitOn (chr '/') with
  | nil => exact absurd parts (List.splitOn_ne_nil _ _)
  | cons first others =>
      rw [List.dropLast_cons_of_ne_nil (List.cons_ne_nil _ _), List.filter_cons, List.getLastD_cons,
        List.getLastD_cons, List.getLastD_cons]
      by_cases empty : segment = []
      · simp [empty]
      · simp [empty]

theorem steps_dropWhile (text : Bytes) : steps (text.dropWhile (· == chr '/')) = steps text := by
  induction text with
  | nil => rfl
  | cons c text ih =>
      rw [List.dropWhile_cons]
      split
      · rename_i slash
        rw [ih, eq_of_beq slash]
        exact (steps_append List.not_mem_nil text).symm
      · rfl

/-- One turn of the search reads one segment. -/
theorem steps_eq (text : Bytes) :
    let text' := text.dropWhile (· == chr '/')
    let segment := text'.takeWhile (· != chr '/')
    steps text = if segment.length = text'.length then [segment]
      else segment :: steps (text'.drop (segment.length + 1)) := by
  dsimp only
  rw [← steps_dropWhile text]
  have start := List.head?_dropWhile_not (· == chr '/') text
  generalize text.dropWhile (· == chr '/') = text' at start ⊢
  have plain : chr '/' ∉ text'.takeWhile (· != chr '/') := by
    intro inside
    simpa using List.mem_takeWhile_imp inside
  have whole := List.takeWhile_append_dropWhile (p := (· != chr '/')) (l := text')
  have stop := List.head?_dropWhile_not (· != chr '/') text'
  generalize text'.takeWhile (· != chr '/') = segment at plain whole ⊢
  generalize text'.dropWhile (· != chr '/') = others at whole stop
  subst whole
  cases others with
  | nil =>
      rw [List.append_nil, if_pos rfl]
      exact steps_plain plain
  | cons c rest =>
      have slash : c = chr '/' := by simpa using stop
      subst slash
      have filled : segment ≠ [] := by
        rintro rfl
        simp at start
      have longer : ¬ segment.length = (segment ++ chr '/' :: rest).length := by
        rw [List.length_append, List.length_cons]
        omega
      have after : (segment ++ chr '/' :: rest).drop (segment.length + 1) = rest := by
        rw [List.drop_append, List.drop_of_length_le (by omega)]
        simp
      rw [steps_append plain, if_neg filled, if_neg longer, after]

theorem steps_ne_nil (text : Bytes) : steps text ≠ [] := by
  rw [steps]
  exact List.append_ne_nil_of_right_ne_nil _ (List.cons_ne_nil _ _)

namespace Paths

variable {parts : List Bytes} {above : List (LwcString × Nat × Bytes)} {t : Paths}

theorem iteratePartialPath_eq (steady : callback.Steady) (urls : t.Tips fun d => d.url.isSome = true)
    (text : Bytes) (s : σ) : t.iteratePartialPath callback parts above text s =
      some (callback.run (entriesOf parts (t.partialLeaves above text)) s, true) := by
  induction t generalizing above text s with
  | nil => rfl
  | cons d children next children_ih next_ih =>
      obtain ⟨own, below, after⟩ := urls
      rw [iteratePartialPath, partialLeaves]
      split
      · split
        · have single : (SiblingTree.cons d children .nil).Tips fun d => d.url.isSome = true :=
            ⟨own, below, trivial⟩
          rw [iterate_eq steady single, entriesOf_append, UrlCallback.run_append]
          exact next_ih after _ _
        · exact children_ih below _ s
      · exact next_ih after _ s

/-- The leaves below the first sibling come first. -/
theorem leavesAt_cons (d : PathData) (children next : Paths) :
    SiblingTree.leavesAt PathData.key above (.cons d children next) =
      SiblingTree.leavesAt PathData.key above (.cons d children .nil) ++
        next.leavesAt PathData.key above := by
  cases children with
  | nil => rfl
  | cons e below after => rw [leavesAt, leavesAt, leavesAt, List.append_nil]

theorem mem_leavesAt_single {d : PathData} {children : Paths}
    {x : List (LwcString × Nat × Bytes) × PathData}
    (leaf : x ∈ SiblingTree.leavesAt PathData.key above (.cons d children .nil)) :
    ∃ keys, x.1 = above ++ d.key :: keys := by
  obtain ⟨e, stored, ⟨keys, same⟩⟩ := start_of_mem_nodesAt (leavesAt_sublist.subset leaf)
  rw [toList, toList, List.mem_singleton] at stored
  rw [stored] at same
  exact ⟨keys, by rw [← same, List.append_assoc, List.singleton_append]⟩

theorem mem_leavesAt_of_below {d : PathData} {children : Paths}
    {x : List (LwcString × Nat × Bytes) × PathData}
    (leaf : x ∈ children.leavesAt PathData.key (above ++ [d.key])) :
    x ∈ SiblingTree.leavesAt PathData.key above (.cons d children .nil) := by
  cases children with
  | nil => cases leaf
  | cons e below after => exact List.mem_append_left _ leaf

/-- A leaf with a longer way is below the sibling. -/
theorem below_of_mem_leavesAt {d e : PathData} {children : Paths}
    {keys : List (LwcString × Nat × Bytes)} (longer : keys ≠ [])
    (leaf : (above ++ [d.key] ++ keys, e) ∈
      SiblingTree.leavesAt PathData.key above (.cons d children .nil)) :
    (above ++ [d.key] ++ keys, e) ∈ children.leavesAt PathData.key (above ++ [d.key]) := by
  cases children with
  | nil =>
      rw [leavesAt, leavesAt, List.mem_singleton, Prod.mk.injEq, List.append_right_eq_self] at leaf
      exact absurd leaf.1 longer
  | cons c below after => rwa [leavesAt, leavesAt, List.append_nil] at leaf

/-- The search comes by each leaf once. -/
theorem partialLeaves_sublist {text : Bytes} :
    (t.partialLeaves above text).Sublist (t.leavesAt PathData.key above) := by
  induction t generalizing above text with
  | nil => exact List.Sublist.refl []
  | cons d children next children_ih next_ih =>
      rw [leavesAt_cons, partialLeaves]
      split
      · split
        · exact (List.Sublist.refl _).append next_ih
        · cases children with
          | nil => exact List.nil_sublist _
          | cons e below after =>
              rw [leavesAt, leavesAt, List.append_nil]
              exact children_ih.trans (List.sublist_append_left _ _)
      · exact next_ih.trans (List.sublist_append_right _ _)

theorem begins_iff {segment : Bytes} {d : PathData} :
    d.begins segment = true ↔ folded segment <+: folded d.segment := by
  rw [PathData.begins, beq_iff_eq, strncasecmp_eq_iff]

/-- The first key on the way begins with the first segment. -/
theorem begins_of_leads {segment : Bytes} {rest : List Bytes} {key : LwcString × Nat × Bytes}
    {keys : List (LwcString × Nat × Bytes)} (leads : Leads (segment :: rest) (key :: keys) t) :
    folded segment <+: folded key.2.2 := by
  cases rest with
  | nil => exact leads
  | cons next rest =>
      obtain ⟨d, children, found, rfl, -⟩ := leads
      exact begins_iff.mp (first_passes found)

/-- A sibling that does not begin with the segment is passed over. -/
theorem leads_skip {segment : Bytes} {rest : List Bytes} {keys : List (LwcString × Nat × Bytes)}
    {d : PathData} {children next : Paths} (missed : ¬ d.begins segment = true) :
    Leads (segment :: rest) keys (.cons d children next) ↔ Leads (segment :: rest) keys next := by
  cases rest with
  | nil => cases keys <;> exact Iff.rfl
  | cons after rest =>
      cases keys with
      | nil => exact Iff.rfl
      | cons key keys => rw [Leads, Leads, first, if_neg missed]

theorem mem_partialLeaves {text : Bytes} {keys : List (LwcString × Nat × Bytes)} {d : PathData}
    (distinct : t.Ascending PathData.key (· ≠ ·)) :
    (above ++ keys, d) ∈ t.partialLeaves above text ↔
      (above ++ keys, d) ∈ t.leavesAt PathData.key above ∧ Leads (steps text) keys t := by
  induction t generalizing above text keys with
  | nil =>
      constructor
      · intro impossible
        cases impossible
      · rintro ⟨impossible, -⟩
        cases impossible
  | cons e children next children_ih next_ih =>
      obtain ⟨own, inside, after⟩ := distinct
      have below (leaf : (above ++ keys, d) ∈
          SiblingTree.leavesAt PathData.key above (.cons e children .nil)) :
          ∃ keys', keys = e.key :: keys' := by
        obtain ⟨keys', same⟩ := mem_leavesAt_single leaf
        exact ⟨keys', List.append_cancel_left same⟩
      have other := @next_ih above (text.dropWhile (· == chr '/')) keys after
      have turn := steps_eq text
      dsimp only at turn
      rw [steps_dropWhile] at other
      rw [leavesAt_cons, partialLeaves, List.mem_append]
      generalize text.dropWhile (· == chr '/') = text' at other turn ⊢
      generalize text'.takeWhile (· != chr '/') = segment at turn ⊢
      split
      · rename_i accepted
        rw [strncasecmp_eq_iff] at accepted
        split
        · rename_i last
          rw [if_pos last] at turn
          rw [turn] at other ⊢
          have same : Leads [segment] keys (.cons e children next) ↔ Leads [segment] keys next := by
            cases keys <;> exact Iff.rfl
          rw [List.mem_append, other, same, or_and_right]
          apply or_congr_left
          constructor
          · intro leaf
            refine ⟨leaf, ?_⟩
            obtain ⟨keys', rfl⟩ := below leaf
            exact accepted
          · exact And.left
        · rename_i more
          rw [if_neg more] at turn
          obtain ⟨segment', rest, later⟩ := List.exists_cons_of_ne_nil
            (steps_ne_nil (text'.drop (segment.length + 1)))
          have found : SiblingTree.first (PathData.begins segment) (.cons e children next) =
              some (e, children) := if_pos (begins_iff.mpr accepted)
          rw [turn, later]
          constructor
          · intro leaf
            have inner := partialLeaves_sublist.subset leaf
            obtain ⟨c, -, ⟨keys', same⟩⟩ := start_of_mem_nodesAt (leavesAt_sublist.subset inner)
            dsimp only at same
            rw [List.append_assoc, List.append_assoc, List.append_cancel_left_eq] at same
            rw [← same, List.singleton_append, List.singleton_append,
              List.append_cons above e.key (c.key :: keys')] at leaf inner ⊢
            have known := (children_ih inside).mp leaf
            rw [later] at known
            exact ⟨Or.inl (mem_leavesAt_of_below inner), e, children, found, rfl, known.2⟩
          · rintro ⟨leaf, leads⟩
            cases keys with
            | nil => exact leads.elim
            | cons key keys' =>
                obtain ⟨e', children', found', rfl, leads⟩ := leads
                rw [found, Option.some.injEq, Prod.mk.injEq] at found'
                obtain ⟨rfl, rfl⟩ := found'
                rcases leaf with leaf | leaf
                · rw [List.append_cons above e.key keys'] at leaf ⊢
                  apply (children_ih inside).mpr
                  rw [later]
                  refine ⟨below_of_mem_leavesAt ?_ leaf, leads⟩
                  rintro rfl
                  cases rest <;> exact leads
                · obtain ⟨other, stored, ⟨keys, same⟩⟩ :=
                    start_of_mem_nodesAt (leavesAt_sublist.subset leaf)
                  dsimp only at same
                  rw [List.append_assoc, List.append_cancel_left_eq, List.singleton_append,
                    List.cons.injEq] at same
                  exact absurd same.1.symm (own other stored)
      · rename_i missed
        rw [strncasecmp_eq_iff, ← begins_iff] at missed
        obtain ⟨rest, cut⟩ : ∃ rest, steps text = segment :: rest := by
          split at turn
          · exact ⟨[], turn⟩
          · exact ⟨_, turn⟩
        rw [cut] at other ⊢
        rw [other, leads_skip missed, or_and_right, iff_or_self]
        rintro ⟨leaf, leads⟩
        obtain ⟨keys', rfl⟩ := below leaf
        exact absurd (begins_iff.mpr (begins_of_leads leads)) missed

/-- The search comes by the leaves that the segments lead to. -/
theorem partialLeaves_iff {text : Bytes} {keys : List (LwcString × Nat × Bytes)} {d : PathData}
    (distinct : t.Ascending PathData.key (· ≠ ·)) : (keys, d) ∈ t.partialLeaves [] text ↔
      (keys, d) ∈ t.leavesAt PathData.key [] ∧ Leads (steps text) keys t := by
  have known := @mem_partialLeaves [] t text keys d distinct
  rwa [List.nil_append] at known

end Paths

end PartialPaths

end Neosurf.Urldb
