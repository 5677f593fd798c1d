/-
This file proves what the matching of selector chains finds, and that the reject cache changes
nothing when no negation reaches it.
-/

import Neosurf.Construction.Libcss.Match

namespace Neosurf.Libcss

open Walks

variable {Node M V : Type} {handler : SelectHandler Node} {node other : Node} {data : Compound}
  {comb : Combinator} {chain : List (Combinator × Compound)} {cache : List RejectItem}
  {next : Node → Option Node}

/-- The ancestors of a node, its parent first. -/
def ancestors (handler : SelectHandler Node) (node : Node) : List Node :=
  walk handler.parentNode handler.walkBound node

/-- The siblings before a node, the adjacent one first. -/
def siblings (handler : SelectHandler Node) (node : Node) : List Node :=
  walk handler.siblingNode handler.walkBound node

/-- Element names are compared without their case. -/
def named (handler : SelectHandler Node) (qname : Qname) (node : Node) : Bool :=
  caselessEqual (handler.nodeName node).name qname.name

/-- The handlers of one finite tree agree with each other. -/
structure Lawful (handler : SelectHandler Node) : Prop where
  parents : Descends handler.parentNode handler.walkBound
  siblings : Descends handler.siblingNode handler.walkBound
  siblingParent : ∀ node other, handler.siblingNode node = some other →
    handler.parentNode other = handler.parentNode node
  namedAncestor : ∀ node qname, handler.namedAncestorNode node qname =
    (ancestors handler node).find? (named handler qname)
  namedParent : ∀ node qname, handler.namedParentNode node qname =
    (handler.parentNode node).filter (named handler qname)
  namedSibling : ∀ node qname, handler.namedSiblingNode node qname =
    (handler.siblingNode node).filter (named handler qname)
  namedGenericSibling : ∀ node qname, handler.namedGenericSiblingNode node qname =
    (Libcss.siblings handler node).find? (named handler qname)
  className : ∀ node name, handler.nodeHasClass node name = true →
    ∃ own ∈ handler.nodeClasses node, caselessEqual own name = true
  idName : ∀ node name, handler.nodeHasId node name = true →
    ∃ own, handler.nodeId node = some own ∧ caselessEqual own name = true

/-- The handlers of NetSurf find what a document holds. -/
theorem lawful_domHandler (tree : DomTree Node) (others : SelectHandler Node) :
    Lawful (domHandler tree others) where
  parents := descends_find? tree.parentFirst tree.isElement
  siblings := descends_find? tree.previousFirst tree.isElement
  siblingParent := by
    intro node other found
    have same := eq_of_mem_walk tree.previousFirst tree.sameParent
      (List.mem_of_find?_eq_some found)
    change (walk tree.parent tree.order other).find? _ = (walk tree.parent tree.order node).find? _
    cases parent : tree.parent node with
    | none => rw [walk_of_none parent, walk_of_none (same.trans parent)]
    | some up =>
        rw [walk_of_some tree.parentFirst parent, walk_of_some tree.parentFirst (same.trans parent)]
  namedAncestor := by
    intro node qname
    refine Eq.trans ?_ (congrArg (List.find? _) (walk_find? tree.parentFirst tree.isElement node)).symm
    rw [List.find?_filter]
    simp only [Bool.decide_and, Bool.decide_eq_true]
    rfl
  namedParent _ _ := rfl
  namedSibling _ _ := rfl
  namedGenericSibling := by
    intro node qname
    refine Eq.trans ?_ (congrArg (List.find? _) (walk_find? tree.previousFirst tree.isElement node)).symm
    rw [List.find?_filter]
    simp only [Bool.decide_and, Bool.decide_eq_true]
    rfl
  className := by
    intro node name has
    obtain ⟨own, given, same⟩ := List.any_eq_true.mp has
    refine ⟨own, given, ?_⟩
    split at same
    · rw [caselessEqual, Bool.beq_comm]
      exact same
    · rw [beq_iff_eq.mp same, caselessEqual, beq_self_eq_true]
  idName := by
    intro node name has
    exact ⟨name, beq_iff_eq.mp has, by rw [caselessEqual, beq_self_eq_true]⟩

/-- The node has the name and the details of a selector. -/
def fits (handler : SelectHandler Node) (data : Compound) (node : Node) : Bool :=
  (data.qname.name == universal || named handler data.qname node) && matchDetails handler node data

/-- The node that a combinator leads to: the nearest one that fits. -/
def nearest (handler : SelectHandler Node) (comb : Combinator) (data : Compound) (node : Node) :
    Option Node :=
  match comb with
  | .ancestor => (ancestors handler node).find? (fits handler data)
  | .parent => (handler.parentNode node).filter (fits handler data)
  | .sibling => (handler.siblingNode node).filter (fits handler data)
  | .genericSibling => (siblings handler node).find? (fits handler data)

/-- The matching of a chain without a reject cache. -/
def plainMatch (handler : SelectHandler Node) : List (Combinator × Compound) → Node → Bool
  | [], _ => true
  | (comb, data) :: chain, node =>
      match nearest handler comb data node with
      | none => false
      | some next => plainMatch handler chain next

theorem searchNode_eq (next : Node → Option Node) (data : Compound) (rounds : Nat) (node : Node) :
    searchNode handler next false data rounds node =
      search next (fun node => matchDetails handler node data) rounds node := by
  induction rounds generalizing node with
  | zero => rfl
  | succ rounds ih =>
      rw [searchNode, search]
      cases next node with
      | none => rfl
      | some candidate =>
          dsimp only
          rw [ih]
          simp

theorem searchNode_adjacent (next : Node → Option Node) (data : Compound) {rounds : Nat}
    (enough : ∀ other, next node = some other → 0 < rounds) :
    searchNode handler next true data rounds node =
      (next node).filter fun other => matchDetails handler other data := by
  cases here : next node with
  | none =>
      cases rounds with
      | zero => rfl
      | succ rounds => rw [searchNode, here, Option.filter_none]
  | some other =>
      obtain ⟨rounds, rfl⟩ := Nat.exists_eq_succ_of_ne_zero (enough other here).ne'
      rw [searchNode, here, Option.filter_some]
      simp

section Steps

variable (lawful : Lawful handler)
include lawful

/-- A combinator with an element name leads to the nearest node that fits. -/
theorem matchNamedCombinator_eq (named : data.qname.name ≠ universal) :
    matchNamedCombinator handler comb data node = nearest handler comb data node := by
  have fitsBoth (other : Node) : (Libcss.named handler data.qname other &&
      matchDetails handler other data) = fits handler data other := by
    rw [fits, beq_eq_false_iff_ne.mpr named, Bool.false_or]
  cases comb with
  | ancestor =>
      have jumps (node : Node) : namedCandidate handler .ancestor data.qname node =
          (ancestors handler node).find? (Libcss.named handler data.qname) :=
        lawful.namedAncestor node data.qname
      rw [matchNamedCombinator, nearest, Combinator.adjacent, searchNode_eq,
        search_eq_find? lawful.parents _ jumps _ (le_refl _)]
      simp only [fitsBoth]
      rfl
  | genericSibling =>
      have jumps (node : Node) : namedCandidate handler .genericSibling data.qname node =
          (siblings handler node).find? (Libcss.named handler data.qname) :=
        lawful.namedGenericSibling node data.qname
      rw [matchNamedCombinator, nearest, Combinator.adjacent, searchNode_eq,
        search_eq_find? lawful.siblings _ jumps _ (le_refl _)]
      simp only [fitsBoth]
      rfl
  | parent =>
      rw [matchNamedCombinator, nearest, Combinator.adjacent, searchNode_adjacent, namedCandidate,
        lawful.namedParent, Option.filter_filter]
      · simp only [fitsBoth]
      · intro other found
        rw [namedCandidate, lawful.namedParent, Option.filter_eq_some_iff] at found
        exact Nat.zero_lt_of_lt (lawful.parents node other found.1)
  | sibling =>
      rw [matchNamedCombinator, nearest, Combinator.adjacent, searchNode_adjacent, namedCandidate,
        lawful.namedSibling, Option.filter_filter]
      · simp only [fitsBoth]
      · intro other found
        rw [namedCandidate, lawful.namedSibling, Option.filter_eq_some_iff] at found
        exact Nat.zero_lt_of_lt (lawful.siblings node other found.1)

/-- So does one with the universal name. -/
theorem searchUniversal_eq (unnamed : data.qname.name = universal) :
    searchUniversal handler comb data node = nearest handler comb data node := by
  have fitsDetails (other : Node) : matchDetails handler other data = fits handler data other := by
    rw [fits, beq_iff_eq.mpr unnamed, Bool.true_or, Bool.true_and]
  have first {next : Node → Option Node} (descends : Descends next handler.walkBound) (node : Node) :
      next node = (walk next handler.walkBound node).find? fun _ => true := by
    cases here : next node with
    | none => rw [walk_of_none here, List.find?_nil]
    | some other => rw [walk_of_some descends here, List.find?_cons_of_pos rfl]
  cases comb with
  | ancestor =>
      rw [searchUniversal, nearest, Combinator.adjacent, searchNode_eq,
        search_eq_find? lawful.parents (universalCandidate handler .ancestor)
          (first lawful.parents) _ (le_refl _)]
      simp only [fitsDetails, Bool.true_and]
      rfl
  | genericSibling =>
      rw [searchUniversal, nearest, Combinator.adjacent, searchNode_eq,
        search_eq_find? lawful.siblings (universalCandidate handler .genericSibling)
          (first lawful.siblings) _ (le_refl _)]
      simp only [fitsDetails, Bool.true_and]
      rfl
  | parent =>
      rw [searchUniversal, nearest, Combinator.adjacent, searchNode_adjacent]
      · simp only [fitsDetails]
        rfl
      · intro other found
        exact Nat.zero_lt_of_lt (lawful.parents node other found)
  | sibling =>
      rw [searchUniversal, nearest, Combinator.adjacent, searchNode_adjacent]
      · simp only [fitsDetails]
        rfl
      · intro other found
        exact Nat.zero_lt_of_lt (lawful.siblings node other found)

theorem mem_ancestors_of_nearest {next : Node} (climbs : comb.climbs = true)
    (found : nearest handler comb data node = some next) :
    next ∈ ancestors handler node ∧ fits handler data next = true := by
  cases comb with
  | ancestor => exact ⟨List.mem_of_find?_eq_some found, List.find?_some found⟩
  | parent =>
      obtain ⟨parent, good⟩ := Option.filter_eq_some_iff.mp found
      rw [ancestors, walk_of_some lawful.parents parent]
      exact ⟨List.mem_cons_self, good⟩
  | sibling => cases climbs
  | genericSibling => cases climbs

end Steps

section Cache

/-- The node has the class or the id of an item. -/
def hasItem (handler : SelectHandler Node) (node : Node) (item : RejectItem) : Bool :=
  matchPlainDetail handler node { type := item.type, qname := { name := item.value } }

/-- No ancestor of the node has an item of the cache. -/
def CacheSound (handler : SelectHandler Node) (cache : List RejectItem) (node : Node) : Prop :=
  ∀ item ∈ cache, ∀ other ∈ ancestors handler node, hasItem handler other item = false

/-- The class or the id that the cache would take from a selector is not negated. -/
def Cacheable (data : Compound) : Prop :=
  data.qname.name = universal → ∀ detail ∈ data.details.head?,
    detail.type = .class ∨ detail.type = .id → detail.negate = false

instance (data : Compound) : Decidable (Cacheable data) := by
  unfold Cacheable
  infer_instance

/-- The cached item is the class or the id that a node must have. -/
theorem hasItem_eq (handler : SelectHandler Node) {item : RejectItem} (cacheable : Cacheable data)
    (unnamed : data.qname.name = universal) (cached : cachedItem data = some item) :
    ∃ detail rest, data.details = detail :: rest ∧
      ∀ node, matchDetail handler node detail = hasItem handler node item := by
  rw [cachedItem] at cached
  cases details : data.details with
  | nil =>
      rw [details] at cached
      cases cached
  | cons detail rest =>
      rw [details] at cached
      dsimp only at cached
      split at cached
      · rename_i type
        cases cached
        have positive := cacheable unnamed detail (by rw [details]; rfl) type
        refine ⟨detail, rest, rfl, ?_⟩
        intro node
        rw [matchDetail, positive, Bool.bne_false]
        rcases type with own | own
        · rw [matchPlainDetail, hasItem, matchPlainDetail, own]
        · rw [matchPlainDetail, hasItem, matchPlainDetail, own]
      · cases cached

theorem hasItem_of_fits {item : RejectItem} (cacheable : Cacheable data)
    (unnamed : data.qname.name = universal) (cached : cachedItem data = some item)
    (good : fits handler data node = true) : hasItem handler node item = true := by
  obtain ⟨detail, rest, details, same⟩ := hasItem_eq handler cacheable unnamed cached
  rw [fits, Bool.and_eq_true, matchDetails, details, List.all_cons, Bool.and_eq_true] at good
  rw [← same]
  exact good.2.1

/-- The item of a selector that fits no ancestor may be kept. -/
theorem cacheSound_update (cacheable : Cacheable data) (unnamed : data.qname.name = universal)
    (sound : CacheSound handler cache node) (missing : nearest handler comb data node = none) :
    CacheSound handler (updateRejectCache cache comb data) node := by
  rw [updateRejectCache]
  split
  · exact sound
  · rename_i fresh
    push Not at fresh
    obtain ⟨-, ancestor, single⟩ := fresh
    split
    · rename_i item cached
      obtain ⟨detail, rest, details, same⟩ := hasItem_eq handler cacheable unnamed cached
      intro other inside above member
      rcases List.mem_cons.mp inside with rfl | old
      · rw [ancestor, nearest, List.find?_eq_none] at missing
        have unfit := missing above member
        rw [details, List.length_cons, Nat.add_eq_right, List.length_eq_zero_iff] at single
        rw [fits, beq_iff_eq.mpr unnamed, Bool.true_or, Bool.true_and, matchDetails, details, single,
          List.all_cons, List.all_nil, Bool.and_true, same] at unfit
        exact Bool.eq_false_iff.mpr unfit
      · exact sound other old above member
    · exact sound

/-- The reject cache changes no answer, and no ancestor has what it holds. -/
theorem matchChain_eq (lawful : Lawful handler) {start : Node} {mayOptimise first : Bool}
    (cacheable : ∀ link ∈ chain, Cacheable link.2) (sound : CacheSound handler cache start)
    (below : mayOptimise = true → ∀ other ∈ ancestors handler node, other ∈ ancestors handler start)
    (atStart : first = true → node = start) :
    (matchChain handler chain mayOptimise first cache node).1 = plainMatch handler chain node ∧
      CacheSound handler (matchChain handler chain mayOptimise first cache node).2 start := by
  induction chain generalizing node mayOptimise first with
  | nil => exact ⟨rfl, sound⟩
  | cons link chain ih =>
      obtain ⟨comb, data⟩ := link
      have own : Cacheable data := cacheable _ List.mem_cons_self
      have later (next : Node) (found : nearest handler comb data node = some next) :=
        @ih next (mayOptimise && comb.climbs) false
          (fun link inside => cacheable link (List.mem_cons_of_mem _ inside))
          (by
            intro both other inside
            rw [Bool.and_eq_true] at both
            have above := (mem_ancestors_of_nearest lawful both.2 found).1
            exact below both.1 other (walk_trans lawful.parents above inside))
          (by intro impossible; cases impossible)
      rw [matchChain, plainMatch]
      by_cases unnamed : data.qname.name = universal
      · rw [if_neg (not_not_intro unnamed), searchUniversal_eq lawful unnamed]
        split
        · rename_i rejected
          rw [rejectedByCache, Bool.and_eq_true, Bool.and_eq_true, Bool.and_eq_true] at rejected
          obtain ⟨⟨⟨optimise, climbs⟩, -⟩, cached⟩ := rejected
          cases found : nearest handler comb data node with
          | none => exact ⟨rfl, sound⟩
          | some next =>
              obtain ⟨above, good⟩ := mem_ancestors_of_nearest lawful climbs found
              cases stored : cachedItem data with
              | none =>
                  rw [stored] at cached
                  cases cached
              | some item =>
                  rw [stored] at cached
                  have has := hasItem_of_fits own unnamed stored good
                  rw [sound item (List.contains_iff_mem.mp cached) next (below optimise next above)]
                    at has
                  cases has
        · cases found : nearest handler comb data node with
          | none =>
              refine ⟨rfl, ?_⟩
              dsimp only
              split
              · rename_i both
                rw [Bool.and_eq_true] at both
                have same := atStart both.2
                subst same
                exact cacheSound_update own unnamed sound found
              · exact sound
          | some next => exact later next found
      · rw [if_pos unnamed, matchNamedCombinator_eq lawful unnamed]
        cases found : nearest handler comb data node with
        | none => exact ⟨rfl, sound⟩
        | some next => exact later next found

/-- A selector chain is matched as without the cache. -/
theorem matchSelectorChain_eq (lawful : Lawful handler) {selector : Selector M V}
    (cacheable : ∀ link ∈ selector.chain, Cacheable link.2) (sound : CacheSound handler cache node) :
    (matchSelectorChain handler node selector cache).1 =
        (matchDetails handler node selector.data && plainMatch handler selector.chain node) ∧
      CacheSound handler (matchSelectorChain handler node selector cache).2 node := by
  rw [matchSelectorChain]
  cases details : matchDetails handler node selector.data with
  | true => exact matchChain_eq lawful cacheable sound (fun _ _ inside => inside) fun _ => rfl
  | false => exact ⟨rfl, sound⟩

end Cache

section Meaning

/-- The nodes that a combinator relates to a node. -/
def related (handler : SelectHandler Node) (comb : Combinator) (node : Node) : List Node :=
  match comb with
  | .ancestor => ancestors handler node
  | .parent => (handler.parentNode node).toList
  | .sibling => (handler.siblingNode node).toList
  | .genericSibling => siblings handler node

/-- A chain means that some related node fits its first selector and has the rest of it. -/
def Matches (handler : SelectHandler Node) : List (Combinator × Compound) → Node → Prop
  | [], _ => True
  | (comb, data) :: chain, node =>
      ∃ other ∈ related handler comb node, fits handler data other = true ∧
        Matches handler chain other

/-- The nearest node that fits is as good as any other for what comes next in the chain. -/
def Combinator.allows : Combinator → List (Combinator × Compound) → Bool
  | .ancestor, (next, _) :: _ => next == .ancestor
  | .genericSibling, (next, _) :: _ => next != .sibling
  | _, _ => true

/-- An ancestor is followed by ancestors only, and an earlier sibling by no adjacent one. -/
def Unambiguous : List (Combinator × Compound) → Bool
  | [] => true
  | (comb, _) :: chain => comb.allows chain && Unambiguous chain

theorem nearest_eq_some {next : Node} (found : nearest handler comb data node = some next) :
    next ∈ related handler comb node ∧ fits handler data next = true := by
  cases comb with
  | ancestor => exact ⟨List.mem_of_find?_eq_some found, List.find?_some found⟩
  | genericSibling => exact ⟨List.mem_of_find?_eq_some found, List.find?_some found⟩
  | parent =>
      obtain ⟨there, good⟩ := Option.filter_eq_some_iff.mp found
      exact ⟨Option.mem_toList.mpr there, good⟩
  | sibling =>
      obtain ⟨there, good⟩ := Option.filter_eq_some_iff.mp found
      exact ⟨Option.mem_toList.mpr there, good⟩

/-- What the matching finds is what the chain means. -/
theorem matches_of_plainMatch (matched : plainMatch handler chain node = true) :
    Matches handler chain node := by
  induction chain generalizing node with
  | nil => trivial
  | cons link chain ih =>
      rw [plainMatch] at matched
      cases found : nearest handler link.1 link.2 node with
      | none =>
          rw [found] at matched
          cases matched
      | some next =>
          rw [found] at matched
          obtain ⟨inside, good⟩ := nearest_eq_some found
          exact ⟨next, inside, good, ih matched⟩

/-- The nearest ancestor or sibling that fits is passed on the way to any other one. -/
theorem exists_nearest {walked : List Node} (descends : Descends next handler.walkBound)
    (way : walked = walk next handler.walkBound node) (inside : other ∈ walked)
    (good : fits handler data other = true) :
    ∃ first, walked.find? (fits handler data) = some first ∧
      (first = other ∨ other ∈ walk next handler.walkBound first) := by
  subst way
  induction node using descends.induction with
  | stop x here =>
      rw [walk_of_none here] at inside
      cases inside
  | step x y here ih =>
      rw [walk_of_some descends here] at inside ⊢
      cases fit : fits handler data y with
      | true =>
          refine ⟨y, List.find?_cons_of_pos fit, ?_⟩
          rcases List.mem_cons.mp inside with same | later
          · exact .inl same.symm
          · exact .inr later
      | false =>
          rw [List.find?_cons_of_neg (by simp [fit])]
          rcases List.mem_cons.mp inside with rfl | later
          · rw [fit] at good
            cases good
          · exact ih later

variable (lawful : Lawful handler)
include lawful

theorem parentNode_of_mem_siblings (inside : other ∈ siblings handler node) :
    handler.parentNode other = handler.parentNode node :=
  eq_of_mem_walk lawful.siblings lawful.siblingParent inside

/-- A chain that matches an ancestor matches below it when it goes on to an ancestor. -/
theorem matches_below (unambiguous : Unambiguous ((.ancestor, data) :: chain) = true)
    (above : other ∈ ancestors handler node) (matched : Matches handler chain other) :
    Matches handler chain node := by
  cases chain with
  | nil => trivial
  | cons link chain =>
      obtain ⟨comb, rest⟩ := link
      rw [Unambiguous, Bool.and_eq_true] at unambiguous
      have next : comb = .ancestor := beq_iff_eq.mp unambiguous.1
      subst next
      obtain ⟨last, inside, good, chained⟩ := matched
      exact ⟨last, walk_trans lawful.parents above inside, good, chained⟩

/-- A chain that matches an earlier sibling matches after it when it does not go on to the adjacent
one. -/
theorem matches_after (unambiguous : Unambiguous ((.genericSibling, data) :: chain) = true)
    (before : other ∈ siblings handler node) (matched : Matches handler chain other) :
    Matches handler chain node := by
  cases chain with
  | nil => trivial
  | cons link chain =>
      obtain ⟨comb, rest⟩ := link
      obtain ⟨last, inside, good, chained⟩ := matched
      refine ⟨last, ?_, good, chained⟩
      have same := parentNode_of_mem_siblings lawful before
      cases comb with
      | sibling => cases unambiguous
      | genericSibling => exact walk_trans lawful.siblings before inside
      | parent =>
          rw [related, ← same]
          exact inside
      | ancestor =>
          rw [related, ancestors] at inside ⊢
          cases parent : handler.parentNode node with
          | none =>
              rw [walk_of_none (same.trans parent)] at inside
              cases inside
          | some up =>
              rw [walk_of_some lawful.parents (same.trans parent)] at inside
              rwa [walk_of_some lawful.parents parent]

/-- The matching finds all that an unambiguous chain means. -/
theorem plainMatch_of_matches (unambiguous : Unambiguous chain = true)
    (matched : Matches handler chain node) : plainMatch handler chain node = true := by
  induction chain generalizing node with
  | nil => rfl
  | cons link chain ih =>
      obtain ⟨comb, data⟩ := link
      obtain ⟨other, inside, good, chained⟩ := matched
      have rest : Unambiguous chain = true := by
        rw [Unambiguous, Bool.and_eq_true] at unambiguous
        exact unambiguous.2
      rw [plainMatch]
      cases comb with
      | parent =>
          have found : nearest handler .parent data node = some other :=
            Option.filter_eq_some_iff.mpr ⟨Option.mem_toList.mp inside, good⟩
          rw [found]
          exact ih rest chained
      | sibling =>
          have found : nearest handler .sibling data node = some other :=
            Option.filter_eq_some_iff.mpr ⟨Option.mem_toList.mp inside, good⟩
          rw [found]
          exact ih rest chained
      | ancestor =>
          obtain ⟨first, found, same | later⟩ := exists_nearest lawful.parents rfl inside good
          · rw [show nearest handler .ancestor data node = _ from found]
            exact ih rest (same ▸ chained)
          · rw [show nearest handler .ancestor data node = _ from found]
            exact ih rest (matches_below lawful unambiguous later chained)
      | genericSibling =>
          obtain ⟨first, found, same | later⟩ := exists_nearest lawful.siblings rfl inside good
          · rw [show nearest handler .genericSibling data node = _ from found]
            exact ih rest (same ▸ chained)
          · rw [show nearest handler .genericSibling data node = _ from found]
            exact ih rest (matches_after lawful unambiguous later chained)

omit lawful in
/-- In a document, the matching of a selector finds nothing but what the selector means, and all of
that when its chain is unambiguous. -/
theorem matchSelectorChain_meaning (tree : DomTree Node) (others : SelectHandler Node)
    {selector : Selector M V} (cacheable : ∀ link ∈ selector.chain, Cacheable link.2)
    (sound : CacheSound (domHandler tree others) cache node) :
    let matched := (matchSelectorChain (domHandler tree others) node selector cache).1 = true
    let meant := matchDetails (domHandler tree others) node selector.data = true ∧
      Matches (domHandler tree others) selector.chain node
    (matched → meant) ∧ (Unambiguous selector.chain = true → meant → matched) := by
  have lawful := lawful_domHandler tree others
  obtain ⟨same, -⟩ := matchSelectorChain_eq lawful cacheable sound
  dsimp only
  rw [same, Bool.and_eq_true]
  constructor
  · rintro ⟨details, matched⟩
    exact ⟨details, matches_of_plainMatch matched⟩
  · rintro unambiguous ⟨details, meant⟩
    exact ⟨details, plainMatch_of_matches lawful unambiguous meant⟩

/-- A selector of paragraphs in the body. -/
def bodyParagraph : Selector Unit Unit where
  data := { qname := { name := str "p" } }
  chain := [(.ancestor, { qname := { name := str "body" } })]
  specificity := 2
  rule := { index := 0, style := some [] }

omit lawful in
theorem matchSelectorChain_meaning_body :
    let matched := (matchSelectorChain (domHandler paragraph default) true bodyParagraph []).1 = true
    let meant := matchDetails (domHandler paragraph default) true bodyParagraph.data = true ∧
      Matches (domHandler paragraph default) bodyParagraph.chain true
    (matched → meant) ∧ (Unambiguous bodyParagraph.chain = true → meant → matched) :=
  matchSelectorChain_meaning paragraph default (by decide)
    (by intro item inside; cases inside)

end Meaning

end Neosurf.Libcss
