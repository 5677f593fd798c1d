/-
This file proves which declarations a node gets: those of all selectors that match it, of which the
last one with the greatest weight and specificity is left for each property.
-/

import Neosurf.Proof.Libcss.Bloom
import Neosurf.Proof.Libcss.Order

namespace Neosurf.Libcss

open Walks

variable {Node M V : Type} {handler : SelectHandler Node} {node : Node} {op : Nat}
  {pseudo : PseudoElement} {selector : Selector M V} {state : SelectState V}

section Cascade

/-- The user's important declarations have the greatest weight. A style of the user agent gains
nothing from being important. -/
def weight : Origin → Bool → Nat
  | .ua, _ => 0
  | .user, false => 1
  | .author, false => 2
  | .author, true => 3
  | .user, true => 4

/-- Declarations are ordered by their weight, and then by their specificity. -/
def PropState.rank (prop : PropState V) : Nat ×ₗ Nat :=
  toLex (weight prop.origin prop.important, prop.specificity)

theorem outranksExisting_iff (existing new : PropState V) :
    outranksExisting (some existing) new.origin new.specificity new.important = true ↔
      existing.rank ≤ new.rank := by
  obtain ⟨specificity, origin, important, -, -⟩ := existing
  obtain ⟨specificity', origin', important', -, -⟩ := new
  rw [PropState.rank, PropState.rank, Prod.Lex.toLex_le_toLex]
  cases origin <;> cases origin' <;> cases important <;> cases important' <;>
    simp [outranksExisting, Origin.rank, weight]

/-- A declaration meets the one that is there. -/
def settle (existing : Option (PropState V)) (new : PropState V) : Option (PropState V) :=
  if outranksExisting existing new.origin new.specificity new.important then some new else existing

/-- The last declaration of the greatest rank is left. -/
def Wins (declared : List (PropState V)) : Option (PropState V) → Prop
  | none => declared = []
  | some winner => ∃ before after, declared = before ++ winner :: after ∧
      (∀ prop ∈ before, prop.rank ≤ winner.rank) ∧ ∀ prop ∈ after, prop.rank < winner.rank

theorem wins_foldl_settle (declared : List (PropState V)) :
    Wins declared (declared.foldl settle none) := by
  have along (first : PropState V) (rest : List (PropState V)) :
      rest.foldl settle (some first) = some (List.champion (fun a b =>
        outranksExisting (some a) b.origin b.specificity b.important) first rest) := by
    induction rest generalizing first with
    | nil => rfl
    | cons next rest ih =>
        rw [List.foldl_cons, List.champion_cons, settle, ← ih]
        split
        · rfl
        · rfl
  cases declared with
  | nil => rfl
  | cons first rest =>
      have settled : settle none first = some first := if_pos rfl
      rw [List.foldl_cons, settled, along]
      exact List.champion_latest outranksExisting_iff first rest

/-- A declaration of a style, as it is compared with others. -/
def declaredState (origin : Origin) (specificity : Nat) (declaration : Declaration V) : PropState V :=
  { specificity
    origin
    important := declaration.important
    explicitDefault := declaration.explicitDefault
    value := declaration.value }

/-- The declarations of a property in the style of a selector, when it is for a pseudo element. -/
def declaredStates (origin : Origin) (op : Nat) (pseudo : PseudoElement)
    (selector : Selector M V) : List (PropState V) :=
  if pseudoOf selector.data = pseudo then
    ((selector.rule.style.getD []).filter (·.op = op)).map
      (declaredState origin selector.specificity)
  else []

/-- The style of a selector that matches is cascaded. -/
def cascadeSelector (state : SelectState V) (selector : Selector M V) : SelectState V :=
  cascadeStyle (selector.rule.style.getD [])
    { state with
      currentSpecificity := selector.specificity
      styles := Function.update state.styles (pseudoOf selector.data) true
      currentPseudo := pseudoOf selector.data }

/-- What stays as it is while a style is cascaded. -/
structure SameTarget (state after : SelectState V) : Prop where
  origin : after.currentOrigin = state.currentOrigin
  specificity : after.currentSpecificity = state.currentSpecificity
  pseudo : after.currentPseudo = state.currentPseudo
  rejectCache : after.rejectCache = state.rejectCache

theorem sameTarget_cascadeDeclaration (state : SelectState V) (declaration : Declaration V) :
    SameTarget state (cascadeDeclaration state declaration) := by
  rw [cascadeDeclaration]
  split
  · exact ⟨rfl, rfl, rfl, rfl⟩
  · exact ⟨rfl, rfl, rfl, rfl⟩

theorem sameTarget_cascadeStyle (style : List (Declaration V)) (state : SelectState V) :
    SameTarget state (cascadeStyle style state) := by
  induction style generalizing state with
  | nil => exact ⟨rfl, rfl, rfl, rfl⟩
  | cons declaration style ih =>
      have first := sameTarget_cascadeDeclaration state declaration
      have later := ih (cascadeDeclaration state declaration)
      exact ⟨later.origin.trans first.origin, later.specificity.trans first.specificity,
        later.pseudo.trans first.pseudo, later.rejectCache.trans first.rejectCache⟩

/-- A declaration settles one property of the current pseudo element only. -/
theorem props_cascadeDeclaration (state : SelectState V) (declaration : Declaration V) :
    (cascadeDeclaration state declaration).props op pseudo =
      if declaration.op = op ∧ state.currentPseudo = pseudo then
        settle (state.props op pseudo)
          (declaredState state.currentOrigin state.currentSpecificity declaration)
      else state.props op pseudo := by
  rw [cascadeDeclaration]
  by_cases here : declaration.op = op ∧ state.currentPseudo = pseudo
  · obtain ⟨rfl, rfl⟩ := here
    rw [if_pos (And.intro rfl rfl), settle, declaredState]
    dsimp only
    split
    · dsimp only
      rw [Function.update_self, Function.update_self]
    · rfl
  · rw [if_neg here]
    split
    · dsimp only
      by_cases same : declaration.op = op
      · rw [same, Function.update_self, Function.update_of_ne fun equal => here ⟨same, equal.symm⟩]
      · rw [Function.update_of_ne fun equal => same equal.symm]
    · rfl

theorem props_cascadeStyle (style : List (Declaration V)) (state : SelectState V) :
    (cascadeStyle style state).props op pseudo =
      (if state.currentPseudo = pseudo then
        (style.filter (·.op = op)).map (declaredState state.currentOrigin state.currentSpecificity)
      else []).foldl settle (state.props op pseudo) := by
  induction style generalizing state with
  | nil =>
      split
      · rfl
      · rfl
  | cons declaration style ih =>
      have same := sameTarget_cascadeDeclaration state declaration
      rw [cascadeStyle, List.foldl_cons]
      refine (ih (cascadeDeclaration state declaration)).trans ?_
      rw [same.origin, same.specificity, same.pseudo, props_cascadeDeclaration, List.filter_cons]
      by_cases current : state.currentPseudo = pseudo
      · by_cases own : declaration.op = op
        · rw [if_pos current, if_pos current, if_pos (And.intro own current),
            if_pos (decide_eq_true own)]
          rfl
        · rw [if_pos current, if_pos current, if_neg fun both => own both.1,
            if_neg (by simpa using own)]
      · rw [if_neg current, if_neg current, if_neg fun both => current both.2]

/-- The styles of several selectors settle one property. -/
theorem props_foldl_cascadeSelector (visited : List (Selector M V)) (state : SelectState V) :
    (visited.foldl cascadeSelector state).props op pseudo =
      (visited.flatMap (declaredStates state.currentOrigin op pseudo)).foldl settle
        (state.props op pseudo) := by
  induction visited generalizing state with
  | nil => rfl
  | cons selector visited ih =>
      have origin : (cascadeSelector state selector).currentOrigin = state.currentOrigin :=
        (sameTarget_cascadeStyle _ _).origin
      rw [List.foldl_cons, ih, origin, List.flatMap_cons, List.foldl_append]
      congr 1
      exact props_cascadeStyle _ _

end Cascade

section Visits

/-- The state without its reject cache. -/
def SelectState.uncached (state : SelectState V) : SelectState V := { state with rejectCache := [] }

theorem uncached_cascadeStyle (style : List (Declaration V)) (state : SelectState V) :
    (cascadeStyle style state).uncached = cascadeStyle style state.uncached := by
  induction style generalizing state with
  | nil => rfl
  | cons declaration style ih =>
      have first : (cascadeDeclaration state declaration).uncached =
          cascadeDeclaration state.uncached declaration := by
        rw [cascadeDeclaration, apply_ite SelectState.uncached]
        rfl
      rw [cascadeStyle, List.foldl_cons]
      refine (ih _).trans ?_
      rw [first]
      rfl

/-- The chain of a selector matches, whatever the name of its element is. -/
def chainMatches (handler : SelectHandler Node) (node : Node) (selector : Selector M V) : Bool :=
  matchDetails handler node selector.data && plainMatch handler selector.chain node

/-- The visit of a selector cascades its style when its chain matches. -/
theorem uncached_matchSelectorAndCascade (lawful : Lawful handler)
    (cacheable : ∀ link ∈ selector.chain, Cacheable link.2)
    (sound : CacheSound handler state.rejectCache node) :
    CacheSound handler (matchSelectorAndCascade handler node selector state).rejectCache node ∧
      (matchSelectorAndCascade handler node selector state).uncached =
        if chainMatches handler node selector then cascadeSelector state.uncached selector
        else state.uncached := by
  obtain ⟨matched, kept⟩ := matchSelectorChain_eq lawful cacheable sound
  rw [matchSelectorAndCascade, chainMatches, ← matched]
  dsimp only
  split
  · rw [(sameTarget_cascadeStyle _ _).rejectCache, uncached_cascadeStyle]
    exact ⟨kept, rfl⟩
  · exact ⟨kept, rfl⟩

theorem uncached_foldl_matchSelectorAndCascade (lawful : Lawful handler)
    {visited : List (HashEntry M V)}
    (cacheable : ∀ entry ∈ visited, ∀ link ∈ entry.sel.chain, Cacheable link.2)
    (sound : CacheSound handler state.rejectCache node) :
    let after := visited.foldl (fun state entry =>
      matchSelectorAndCascade handler node entry.sel state) state
    CacheSound handler after.rejectCache node ∧
      after.uncached = ((visited.map (·.sel)).filter (chainMatches handler node)).foldl
        cascadeSelector state.uncached := by
  induction visited generalizing state with
  | nil => exact ⟨sound, rfl⟩
  | cons entry visited ih =>
      obtain ⟨kept, same⟩ := uncached_matchSelectorAndCascade lawful
        (cacheable entry List.mem_cons_self) sound
      have later := ih (fun entry inside => cacheable entry (List.mem_cons_of_mem _ inside)) kept
      rw [List.map_cons, List.filter_cons]
      refine ⟨later.1, later.2.trans ?_⟩
      rw [same]
      split
      · rfl
      · rfl

end Visits

section Sheet

variable {selectors : List (Selector M V)} {place : HashPlace} {entry : HashEntry M V}
  {listMatch : M → Bool} {bloom : Bloom}

/-- The hash of a stylesheet with these selectors. -/
def hashOf (selectors : List (Selector M V)) : SelectorHash M V :=
  selectors.foldl selectorHashInsert selectorHashCreate

/-- An inserted entry has the bloom filter of its own selector. -/
theorem eq_hashEntry_of_mem (inside : entry ∈ (hashOf selectors).chain place) :
    entry = hashEntry entry.sel := by
  induction selectors using List.reverseRecOn with
  | nil =>
      rw [hashOf, List.foldl_nil, chain_selectorHashCreate] at inside
      cases inside
  | append_singleton selectors selector ih =>
      rw [hashOf, List.foldl_append, List.foldl_cons, List.foldl_nil, selectorHashInsert] at inside
      by_cases own : place = hashPlace selector.data
      · rw [own, chain_setChain, (perm_insertIntoChain selector _).mem_iff] at inside
        rcases List.mem_cons.mp inside with rfl | old
        · rfl
        · exact ih (own ▸ old)
      · rw [chain_setChain_of_ne own] at inside
        exact ih inside

/-- The chains of a stylesheet are sorted and hold its selectors, each with its own bloom filter. -/
theorem chain_hashOf (selectors : List (Selector M V)) (place : HashPlace) :
    Sorted ((hashOf selectors).chain place) ∧
      ∀ entry, entry ∈ (hashOf selectors).chain place ↔
        entry = hashEntry entry.sel ∧ entry.sel ∈ selectors ∧ hashPlace entry.sel.data = place := by
  classical
  have holds := holds_foldl (holds_create (M := M) (V := V)) (selectors.map .insert)
  rw [List.foldl_map, List.foldl_map] at holds
  refine ⟨holds.sorted place, ?_⟩
  intro entry
  have listed (selector : Selector M V) :
      selector ∈ ((hashOf selectors).chain place).map (·.sel) ↔
        selector ∈ selectors ∧ hashPlace selector.data = place := by
    refine (holds.selectors place).mem_iff.trans ?_
    simp [HashCall.account]
  constructor
  · intro inside
    exact ⟨eq_hashEntry_of_mem inside, (listed _).mp (List.mem_map_of_mem inside)⟩
  · rintro ⟨whole, known⟩
    obtain ⟨other, inside, same⟩ := List.mem_map.mp ((listed _).mpr known)
    rwa [whole, ← same, ← eq_hashEntry_of_mem inside]

theorem caselessEqual_comm (a b : LwcString) : caselessEqual a b = caselessEqual b a := by
  rw [caselessEqual, caselessEqual, Bool.beq_comm]

theorem slotOf_congr {name other : LwcString} (same : caselessEqual name other = true) :
    slotOf name = slotOf other := by
  rw [slotOf, slotOf]
  simp only [hashName_congr same]

/-- The first detail of a type is one that the node passes. -/
theorem matchPlainDetail_of_firstName {type : SelectorType} {data : Compound} {name : LwcString}
    (found : firstName type data = some name) (passed : matchDetails handler node data = true) :
    ∃ detail, detail.type = type ∧ detail.qname.name = name ∧
      matchPlainDetail handler node detail = true := by
  obtain ⟨detail, first, named⟩ := Option.map_eq_some_iff.mp found
  have good := List.find?_some first
  rw [Bool.and_eq_true, beq_iff_eq, Bool.not_eq_true'] at good
  have own := List.all_eq_true.mp passed detail (List.mem_of_find?_eq_some first)
  rw [matchDetail, good.2, Bool.bne_false] at own
  exact ⟨detail, good.1, named, own⟩

theorem elementNamed_of_hashPlace {data : Compound} (place : hashPlace data = .universal) :
    data.qname.name = universal := by
  rw [hashPlace] at place
  split at place
  · cases place
  · split at place
    · cases place
    · split at place
      · cases place
      · rename_i unnamed
        exact not_not.mp unnamed

/-- The entries that apply are selectors of the sheet with the element name of the node. -/
theorem of_mem_applicable (inside : entry ∈ (applicable (hashOf selectors)
      (requirements handler listMatch bloom node) (handler.nodeClasses node)
      (handler.nodeId node)).flatten) :
    entry.sel ∈ selectors ∧ entryGood (requirements handler listMatch bloom node) entry = true ∧
      (entry.sel.data.qname.name == universal || named handler entry.sel.data.qname node) = true := by
  have held (place : HashPlace) (there : entry ∈ (hashOf selectors).chain place) :=
    ((chain_hashOf selectors place).2 entry).mp there
  have byName {name : Compound → Option LwcString} {wanted : LwcString}
      (good : namedGood (requirements handler listMatch bloom node) name wanted entry = true) :
      entryGood (requirements handler listMatch bloom node) entry = true ∧
        (entry.sel.data.qname.name == universal || named handler entry.sel.data.qname node) =
          true := by
    rw [namedGood, Bool.and_eq_true, Bool.and_eq_true, chainGoodForElementName,
      caselessEqual_comm] at good
    exact ⟨good.2, good.1.2⟩
  obtain ⟨chain, listed, inside⟩ := List.mem_flatten.mp inside
  simp only [applicable, List.mem_append, List.mem_cons, List.not_mem_nil, or_false,
    List.mem_map] at listed
  rcases listed with (rfl | rfl | rfl) | ⟨name, -, rfl⟩
  · obtain ⟨there, good⟩ := List.mem_filter.mp inside
    rw [elementGood, Bool.and_eq_true] at good
    refine ⟨(held (.element _) there).2.1, good.2, ?_⟩
    rw [Bool.or_eq_true]
    exact .inr good.1
  · cases own : handler.nodeId node with
    | none =>
        rw [own] at inside
        cases inside
    | some name =>
        rw [own] at inside
        obtain ⟨there, good⟩ := List.mem_filter.mp inside
        exact ⟨(held (.id _) there).2.1, byName good⟩
  · obtain ⟨there, good⟩ := List.mem_filter.mp inside
    obtain ⟨-, listed, place⟩ := held .universal there
    rw [beq_iff_eq.mpr (elementNamed_of_hashPlace place), Bool.true_or]
    exact ⟨listed, good, rfl⟩
  · obtain ⟨there, good⟩ := List.mem_filter.mp inside
    exact ⟨(held (.class _) there).2.1, byName good⟩

/-- A selector that fits the node applies when its rule does and its chain has no other names. -/
theorem mem_applicable (lawful : Lawful handler) (inside : selector ∈ selectors)
    (good : entryGood (requirements handler listMatch bloom node) (hashEntry selector) = true)
    (fit : fits handler selector.data node = true) :
    hashEntry selector ∈ (applicable (hashOf selectors) (requirements handler listMatch bloom node)
      (handler.nodeClasses node) (handler.nodeId node)).flatten := by
  have there := ((chain_hashOf selectors (hashPlace selector.data)).2 (hashEntry selector)).mpr
    ⟨rfl, inside, rfl⟩
  rw [fits, Bool.and_eq_true] at fit
  have elementName : chainGoodForElementName (requirements handler listMatch bloom node) selector =
      true := by
    rw [chainGoodForElementName, caselessEqual_comm]
    exact fit.1
  have byName {name : Compound → Option LwcString} {wanted own : LwcString}
      (first : name selector.data = some wanted) (same : caselessEqual own wanted = true) :
      namedGood (requirements handler listMatch bloom node) name own (hashEntry selector) = true := by
    rw [namedGood, hashEntry, first, Option.any_some, same, elementName, Bool.true_and,
      Bool.true_and]
    exact good
  rw [hashPlace] at there
  rw [List.mem_flatten]
  split at there
  · rename_i name first
    obtain ⟨detail, type, rfl, passed⟩ := matchPlainDetail_of_firstName first fit.2
    rw [matchPlainDetail, type] at passed
    obtain ⟨own, given, same⟩ := lawful.idName node _ passed
    refine ⟨((hashOf selectors).ids (slotOf own)).filter
      (namedGood (requirements handler listMatch bloom node) idName own), ?_, ?_⟩
    · rw [given]
      exact List.mem_append_left _ (List.mem_cons_of_mem _ List.mem_cons_self)
    · rw [slotOf_congr same]
      exact List.mem_filter.mpr ⟨there, byName first same⟩
  · split at there
    · rename_i name first
      obtain ⟨detail, type, rfl, passed⟩ := matchPlainDetail_of_firstName first fit.2
      rw [matchPlainDetail, type] at passed
      obtain ⟨own, given, same⟩ := lawful.className node _ passed
      refine ⟨((hashOf selectors).classes (slotOf own)).filter
        (namedGood (requirements handler listMatch bloom node) className own), ?_, ?_⟩
      · exact List.mem_append_right _ (List.mem_map_of_mem given)
      · rw [slotOf_congr same]
        exact List.mem_filter.mpr ⟨there, byName first same⟩
    · split at there
      · rename_i unnamed
        have same : named handler selector.data.qname node = true := by
          have either := fit.1
          rwa [beq_eq_false_iff_ne.mpr unnamed, Bool.false_or] at either
        refine ⟨((hashOf selectors).elements (slotOf (handler.nodeName node).name)).filter
          (elementGood (requirements handler listMatch bloom node)), ?_, ?_⟩
        · exact List.mem_append_left _ List.mem_cons_self
        · rw [slotOf_congr same]
          refine List.mem_filter.mpr ⟨there, ?_⟩
          rw [elementGood, Bool.and_eq_true]
          exact ⟨same, good⟩
      · refine ⟨(hashOf selectors).universal.filter
          (entryGood (requirements handler listMatch bloom node)), ?_,
          List.mem_filter.mpr ⟨there, good⟩⟩
        exact List.mem_append_left _ (List.mem_cons_of_mem _ (List.mem_cons_of_mem _
          List.mem_cons_self))

/-- A selector applies to a node when its rule has a style and is for the medium, and when the
selector matches the node. -/
def applies (handler : SelectHandler Node) (listMatch : M → Bool) (node : Node)
    (selector : Selector M V) : Bool :=
  ruleHasBytecode selector.rule && selector.rule.media.all listMatch &&
    fits handler selector.data node && plainMatch handler selector.chain node

/-- A stylesheet cascades the styles of the selectors that apply, in ascending order of specificity
and rule index, whatever its chains, bloom filters and the reject cache leave out. -/
theorem uncached_matchSelectorsInSheet (lawful : Lawful handler) (listMatch : M → Bool)
    (state : SelectState V)
    (plain : ∀ selector ∈ selectors, ∀ link ∈ selector.chain, link.2.Plain)
    (covers : Covers handler bloom node) (sound : CacheSound handler state.rejectCache node) :
    let after := matchSelectorsInSheet handler listMatch bloom node (hashOf selectors) state
    CacheSound handler after.rejectCache node ∧ ∃ visited : List (Selector M V),
      visited.Pairwise (·.key ≤ ·.key) ∧
      (∀ selector, selector ∈ visited ↔
        selector ∈ selectors ∧ applies handler listMatch node selector = true) ∧
      after.uncached = visited.foldl cascadeSelector state.uncached := by
  obtain ⟨out, sorted, perm, visits⟩ := matchLoop_findCursors
    (fun place => (chain_hashOf selectors place).1) (requirements handler listMatch bloom node)
    (handler.nodeClasses node) (handler.nodeId node)
  have held (entry : HashEntry M V) (inside : entry ∈ out) :=
    of_mem_applicable (perm.mem_iff.mp inside)
  obtain ⟨kept, same⟩ := uncached_foldl_matchSelectorAndCascade lawful
    (fun entry (inside : entry ∈ out) link step => (plain entry.sel (held entry inside).1 link step).1) sound
  have whole : matchSelectorsInSheet handler listMatch bloom node (hashOf selectors) state =
      out.foldl (fun state entry => matchSelectorAndCascade handler node entry.sel state) state :=
    visits _ (matchSelectorAndCascade handler node) state
  rw [whole]
  refine ⟨kept, _, (sorted_iff_map.mp sorted).filter _, ?_, same⟩
  intro selector
  rw [List.mem_filter, List.mem_map, chainMatches, applies, fits]
  simp only [Bool.and_eq_true]
  constructor
  · rintro ⟨⟨entry, inside, rfl⟩, details, chain⟩
    obtain ⟨listed, good, element⟩ := held entry inside
    rw [entryGood, Bool.and_eq_true, Bool.and_eq_true] at good
    exact ⟨listed, ⟨⟨good.1.1, good.2⟩, element, details⟩, chain⟩
  · rintro ⟨listed, ⟨⟨bytecode, media⟩, element, details⟩, chain⟩
    refine ⟨⟨hashEntry selector, ?_, rfl⟩, details, chain⟩
    apply perm.mem_iff.mpr
    apply mem_applicable lawful listed
    · rw [entryGood, Bool.and_eq_true, Bool.and_eq_true]
      exact ⟨⟨bytecode, bloomInBloom_of_plainMatch lawful (plain selector listed) covers chain⟩, media⟩
    · rw [fits, Bool.and_eq_true]
      exact ⟨element, details⟩

/-- The selectors of a stylesheet that apply, in the order in which their styles are cascaded. -/
def Visits (handler : SelectHandler Node) (listMatch : M → Bool) (node : Node)
    (sheet visited : Origin × List (Selector M V)) : Prop :=
  visited.1 = sheet.1 ∧ visited.2.Pairwise (·.key ≤ ·.key) ∧ ∀ selector,
    selector ∈ visited.2 ↔ selector ∈ sheet.2 ∧ applies handler listMatch node selector = true

theorem props_foldl_matchSelectorsInSheet (lawful : Lawful handler) (listMatch : M → Bool)
    (state : SelectState V)
    {sheets : List (Origin × List (Selector M V))}
    (plain : ∀ sheet ∈ sheets, ∀ selector ∈ sheet.2, ∀ link ∈ selector.chain, link.2.Plain)
    (covers : Covers handler bloom node) (sound : CacheSound handler state.rejectCache node) :
    ∃ visited, List.Forall₂ (Visits handler listMatch node) sheets visited ∧ ∀ op pseudo,
      ((sheets.map fun sheet => (sheet.1, hashOf sheet.2)).foldl (fun state sheet =>
        matchSelectorsInSheet handler listMatch bloom node sheet.2
          { state with currentOrigin := sheet.1 }) state).props op pseudo =
        (visited.flatMap fun own => own.2.flatMap (declaredStates own.1 op pseudo)).foldl settle
          (state.props op pseudo) := by
  induction sheets generalizing state with
  | nil => exact ⟨[], .nil, fun _ _ => rfl⟩
  | cons sheet sheets ih =>
      obtain ⟨kept, first, sorted, members, same⟩ := uncached_matchSelectorsInSheet lawful
        listMatch { state with currentOrigin := sheet.1 }
        (plain sheet List.mem_cons_self) covers sound
      obtain ⟨visited, later, left⟩ :=
        ih _ (fun other inside => plain other (List.mem_cons_of_mem _ inside)) kept
      refine ⟨(sheet.1, first) :: visited, .cons ⟨rfl, sorted, members⟩ later, ?_⟩
      intro op pseudo
      rw [List.map_cons, List.foldl_cons, left op pseudo, List.flatMap_cons, List.foldl_append]
      congr 1
      exact (congrArg (fun after : SelectState V => after.props op pseudo) same).trans
        (props_foldl_cascadeSelector first _)

end Sheet

section Runs

variable [DecidableEq Node] {blooms : NodeBlooms Node}

/-- Every filter that is stored has the names of its node and covers it. -/
def Stored (handler : SelectHandler Node) (blooms : NodeBlooms Node) : Prop :=
  ∀ node bloom, blooms node = some bloom → HasNames handler bloom node ∧ Covers handler bloom node

theorem stored_update {own : Option Bloom} (stored : Stored handler blooms)
    (good : ∀ bloom, own = some bloom → HasNames handler bloom node ∧ Covers handler bloom node) :
    Stored handler (Function.update blooms node own) := by
  intro other bloom there
  by_cases same : other = node
  · rw [same, Function.update_self] at there
    rw [same]
    exact good bloom there
  · rw [Function.update_of_ne same] at there
    exact stored other bloom there

/-- The filter of the parent covers the node, and a new one may be stored. -/
theorem covers_getParentBloom (lawful : Lawful handler) (stored : Stored handler blooms)
    (node : Node) : Covers handler (getParentBloom handler blooms node).1 node ∧
      Stored handler (getParentBloom handler blooms node).2 := by
  rw [getParentBloom]
  cases parent : handler.parentNode node with
  | none =>
      refine ⟨?_, stored⟩
      intro other above
      rw [ancestors, walk_of_none parent] at above
      cases above
  | some up =>
      cases there : blooms up with
      | some bloom =>
          simp only [there]
          refine ⟨?_, stored⟩
          obtain ⟨own, covers⟩ := stored up bloom there
          intro other above
          rw [ancestors, walk_of_some lawful.parents parent] at above
          rcases List.mem_cons.mp above with rfl | above
          · exact own
          · exact covers other above
      | none =>
          simp only [there]
          refine ⟨fun _ _ name _ => hasHash_saturated (hashName name), ?_⟩
          apply stored_update stored
          intro bloom same
          cases same
          exact ⟨fun name _ => hasHash_saturated (hashName name),
            fun _ _ name _ => hasHash_saturated (hashName name)⟩

theorem stored_run (lawful : Lawful handler) (stored : Stored handler blooms)
    (call : NodeCall Node) : Stored handler (call.run handler blooms) := by
  cases call with
  | select node =>
      obtain ⟨covers, kept⟩ := covers_getParentBloom lawful stored node
      apply stored_update kept
      intro bloom same
      cases same
      refine ⟨hasNames_createNodeBloom _, ?_⟩
      intro other above name inside
      exact hasHash_merge_left (covers other above name inside) _
  | drop node =>
      apply stored_update stored
      intro bloom same
      cases same

theorem stored_runs (lawful : Lawful handler) (calls : List (NodeCall Node)) :
    Stored handler (calls.foldl (NodeCall.run handler) fun _ => none) := by
  have along {blooms : NodeBlooms Node} (stored : Stored handler blooms) :
      Stored handler (calls.foldl (NodeCall.run handler) blooms) := by
    induction calls generalizing blooms with
    | nil => exact stored
    | cons call calls ih => exact ih (stored_run lawful stored call)
  apply along
  intro node bloom there
  cases there

end Runs

end Neosurf.Libcss
