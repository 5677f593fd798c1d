/-
This file proves in which order the selectors of a stylesheet are matched against a node.
-/

import Mathlib.Order.WithBot
import Neosurf.Proof.Libcss.Chains
import Neosurf.ToMathlib.Comparing

namespace Neosurf.Libcss

variable {M V S : Type} {req : Requirements M} {classes : List LwcString} {id : Option LwcString}
  {cursors : Cursors M V}

/-- All chains of the cursors, in the order of `_selector_next`. -/
def Cursors.list (cursors : Cursors M V) : List (List (HashEntry M V)) :=
  [cursors.node, cursors.id, cursors.univ] ++ cursors.classes

/-- The source of a chain in this order. -/
def sourceAt : Nat → RuleSource
  | 0 => .element
  | 1 => .id
  | 2 => .universal
  | i + 3 => .class i

/-- The test of a chain in this order. -/
def goodAt (req : Requirements M) (classes : List LwcString) (id : Option LwcString) :
    Nat → HashEntry M V → Bool
  | 0 => elementGood req
  | 1 => namedGood req idName (id.getD [])
  | 2 => entryGood req
  | i + 3 => namedGood req className (classes.getD i [])

/-- The entries that apply are left of each chain. -/
def views (req : Requirements M) (classes : List LwcString) (id : Option LwcString)
    (chains : List (List (HashEntry M V))) : List (List (HashEntry M V)) :=
  chains.mapIdx fun i chain => chain.filter (goodAt req classes id i)

/-- Each chain is empty or starts with an entry that applies. -/
def Ready (req : Requirements M) (classes : List LwcString) (id : Option LwcString)
    (chains : List (List (HashEntry M V))) : Prop :=
  ∀ (i : Nat) (chain : List (HashEntry M V)), chains[i]? = some chain →
    ∀ entry ∈ chain.head?, goodAt req classes id i entry = true

section Skip

variable {good : HashEntry M V → Bool} {chain : List (HashEntry M V)}

theorem filter_skipTo (good : HashEntry M V → Bool) (chain : List (HashEntry M V)) :
    (skipTo good chain).filter good = chain.filter good := by
  induction chain with
  | nil => rfl
  | cons entry rest ih =>
      rw [skipTo, List.dropWhile_cons]
      cases fits : good entry with
      | true => simp
      | false => simpa [fits, skipTo] using ih

theorem head_skipTo {entry : HashEntry M V} (first : entry ∈ (skipTo good chain).head?) :
    good entry = true := by
  have stopped := List.head?_dropWhile_not (fun entry => !good entry) chain
  rw [skipTo] at first
  rw [Option.mem_def] at first
  rw [first] at stopped
  simpa using stopped

theorem length_skipTo_le (good : HashEntry M V → Bool) (chain : List (HashEntry M V)) :
    (skipTo good chain).length ≤ chain.length := (List.dropWhile_sublist _).length_le

end Skip

/-- An iterator goes on behind the head of its chain. -/
theorem list_advance (i : Nat) :
    (advance req classes id cursors (sourceAt i)).list =
      cursors.list.modify i fun chain => skipTo (goodAt req classes id i) chain.tail := by
  match i with
  | 0 => rfl
  | 1 => rfl
  | 2 => rfl
  | i + 3 => simp [advance, sourceAt, Cursors.list, goodAt]

theorem candidates_eq (cursors : Cursors M V) :
    candidates cursors = cursors.list.mapIdx fun i chain => (cursorHead chain, sourceAt i) := by
  rw [candidates, Cursors.list, List.mapIdx_append]
  rfl

theorem selectorsPending_iff :
    selectorsPending cursors = true ↔ ∃ chain ∈ cursors.list, chain ≠ [] := by
  have filled (chain : List (HashEntry M V)) : (cursorHead chain).isSome = true ↔ chain ≠ [] := by
    cases chain <;> simp [cursorHead]
  simp only [selectorsPending, Bool.or_eq_true, List.any_eq_true, filled, Cursors.list,
    List.mem_append, List.mem_cons, List.not_mem_nil, or_false]
  constructor
  · rintro (((node | id) | univ) | ⟨chain, inside, rest⟩)
    · exact ⟨_, .inl (.inl rfl), node⟩
    · exact ⟨_, .inl (.inr (.inl rfl)), id⟩
    · exact ⟨_, .inl (.inr (.inr rfl)), univ⟩
    · exact ⟨chain, .inr inside, rest⟩
  · rintro ⟨chain, (rfl | rfl | rfl) | inside, rest⟩
    · exact .inl (.inl (.inl rest))
    · exact .inl (.inl (.inr rest))
    · exact .inl (.inr rest)
    · exact .inr ⟨chain, inside, rest⟩

theorem size_eq (cursors : Cursors M V) : cursors.size = (cursors.list.map List.length).sum := by
  simp [Cursors.size, Cursors.list, Nat.add_assoc]

section Next

/-- An empty chain comes after all selectors. -/
def headKey : Option (Selector M V) → WithTop (Nat ×ₗ Nat)
  | none => ⊤
  | some selector => selector.key

theorem selectorLessSpecific_iff (ref cand : Option (Selector M V)) :
    selectorLessSpecific ref cand = true ↔ headKey cand < headKey ref := by
  cases cand with
  | none => cases ref <;> simp [selectorLessSpecific, headKey]
  | some c =>
      cases ref with
      | none => simp [selectorLessSpecific, headKey]
      | some r =>
          simp only [selectorLessSpecific, headKey, WithTop.coe_lt_coe, Selector.key,
            Prod.Lex.toLex_lt_toLex]
          split
          · rename_i less
            simp [less]
          · split
            · rename_i notLess greater
              simp only [Bool.false_eq_true, false_iff]
              omega
            · rename_i notLess notGreater
              rw [decide_eq_true_iff]
              omega

/-- A candidate gives way to those with less specific selectors. -/
theorem compares_consider : List.Compares
    (fun best cand : Option (Selector M V) × RuleSource => selectorLessSpecific best.1 cand.1)
    (fun cand => OrderDual.toDual (headKey cand.1)) where
  up best cand less := ((selectorLessSpecific_iff best.1 cand.1).mp less).le
  down best cand notLess := by
    rw [← Bool.not_eq_true, selectorLessSpecific_iff, not_lt] at notLess
    exact notLess

/-- No head of a chain comes before the next selector. -/
theorem key_selectorNext_le {chain : List (HashEntry M V)} {other : HashEntry M V}
    (inside : chain ∈ cursors.list) (first : other ∈ chain.head?) :
    ∃ x, (selectorNext cursors).1 = some x ∧ x.key ≤ other.sel.key := by
  obtain ⟨i, bound, same⟩ := List.getElem_of_mem inside
  have listed : (cursorHead chain, sourceAt i) ∈ (none, .element) :: candidates cursors := by
    rw [candidates_eq]
    apply List.mem_cons_of_mem
    rw [List.mem_mapIdx]
    exact ⟨i, bound, by rw [same]⟩
  have below : headKey (selectorNext cursors).1 ≤ headKey (cursorHead chain) :=
    compares_consider.le_champion listed
  rw [cursorHead, Option.mem_def.mp first] at below
  cases next : (selectorNext cursors).1 with
  | none =>
      rw [next] at below
      exact absurd below (WithTop.coe_lt_top _).not_ge
  | some x =>
      rw [next] at below
      exact ⟨x, rfl, WithTop.coe_le_coe.mp below⟩

/-- While selectors are pending, the next one is the head of a chain and least of all heads. -/
theorem selectorNext_eq (pending : selectorsPending cursors = true) :
    ∃ i entry rest, cursors.list[i]? = some (entry :: rest) ∧
      selectorNext cursors = (some entry.sel, sourceAt i) ∧
      ∀ chain ∈ cursors.list, ∀ other ∈ chain.head?, entry.sel.key ≤ other.sel.key := by
  have chosen : selectorNext cursors ∈ (none, .element) :: candidates cursors :=
    List.champion_mem
      (fun best cand : Option (Selector M V) × RuleSource => selectorLessSpecific best.1 cand.1) _ _
  obtain ⟨chain, inside, filled⟩ := selectorsPending_iff.mp pending
  obtain ⟨x, found⟩ : ∃ x, (selectorNext cursors).1 = some x := by
    cases chain with
    | nil => exact absurd rfl filled
    | cons entry rest =>
        obtain ⟨x, found, -⟩ := key_selectorNext_le inside List.head?_cons
        exact ⟨x, found⟩
  rcases List.mem_cons.mp chosen with first | later
  · rw [first] at found
    cases found
  · rw [candidates_eq, List.mem_mapIdx] at later
    obtain ⟨i, bound, same⟩ := later
    rw [← same] at found
    cases here : cursors.list[i] with
    | nil =>
        rw [here] at found
        cases found
    | cons entry rest =>
        refine ⟨i, entry, rest, ?_, ?_, ?_⟩
        · rw [List.getElem?_eq_getElem bound, here]
        · rw [← same, here]
          rfl
        · intro chain inside other first
          obtain ⟨y, stored, below⟩ := key_selectorNext_le inside first
          rw [← same, here] at stored
          have own : entry.sel = y := Option.some.inj stored
          rw [own]
          exact below

end Next

theorem ready_modify {i : Nat} {entry : HashEntry M V} {rest : List (HashEntry M V)}
    {chains : List (List (HashEntry M V))} (ready : Ready req classes id chains)
    (here : chains[i]? = some (entry :: rest)) :
    Ready req classes id (chains.modify i fun chain => skipTo (goodAt req classes id i) chain.tail) := by
  intro j chain stored first inside
  rw [List.getElem?_modify] at stored
  split at stored
  · rename_i same
    rw [← same, here] at stored
    cases stored
    rw [← same]
    exact head_skipTo inside
  · obtain ⟨chain', stored', rfl⟩ := Option.map_eq_some_iff.mp stored
    exact ready j _ stored' first inside

/-- The views of the chains lose the entry that an iterator leaves behind. -/
theorem views_modify {i : Nat} {entry : HashEntry M V} {rest : List (HashEntry M V)}
    {chains : List (List (HashEntry M V))} (here : chains[i]? = some (entry :: rest)) :
    views req classes id (chains.modify i fun chain => skipTo (goodAt req classes id i) chain.tail) =
      (views req classes id chains).set i (rest.filter (goodAt req classes id i)) := by
  apply List.ext_getElem?
  intro j
  rw [views, views, List.getElem?_mapIdx, List.getElem?_modify, List.getElem?_set,
    List.getElem?_mapIdx, List.length_mapIdx]
  split
  · rename_i same
    subst same
    obtain ⟨bound, -⟩ := List.getElem?_eq_some_iff.mp here
    rw [here, if_pos bound]
    simp [filter_skipTo]
  · simp

theorem sum_modify_lt {i : Nat} {entry : HashEntry M V} {rest : List (HashEntry M V)}
    {chains : List (List (HashEntry M V))} (good : HashEntry M V → Bool)
    (here : chains[i]? = some (entry :: rest)) :
    ((chains.modify i fun chain => skipTo good chain.tail).map List.length).sum <
      (chains.map List.length).sum := by
  have shorter := length_skipTo_le good rest
  induction chains generalizing i with
  | nil => simp at here
  | cons chain chains ih =>
      cases i with
      | zero =>
          rw [List.getElem?_cons_zero, Option.some.injEq] at here
          subst here
          simp only [List.modify_zero_cons, List.map_cons, List.sum_cons, List.tail_cons,
            List.length_cons]
          omega
      | succ i =>
          rw [List.getElem?_cons_succ] at here
          have later := ih here
          simp only [List.modify_succ_cons, List.map_cons, List.sum_cons]
          omega

/-- The loop visits the entries that apply, merged from all chains. -/
theorem matchLoop_eq {rounds : Nat} (ready : Ready req classes id cursors.list)
    (enough : cursors.size ≤ rounds) :
    ∃ out, List.Merges (fun entry => entry.sel.key) (views req classes id cursors.list) out ∧
      ∀ (S : Type) (visit : Selector M V → S → S) (state : S),
        matchLoop req classes id visit rounds cursors state =
          out.foldl (fun state entry => visit entry.sel state) state := by
  induction rounds generalizing cursors with
  | zero =>
      refine ⟨[], .done ?_, fun _ _ _ => rfl⟩
      have none : (cursors.list.map List.length).sum = 0 := by
        rw [← size_eq]
        omega
      intro chain inside
      rw [views, List.mem_mapIdx] at inside
      obtain ⟨i, bound, rfl⟩ := inside
      have empty := List.sum_eq_zero_iff_forall_eq_nat.mp none _
        (List.mem_map_of_mem (List.getElem_mem bound))
      rw [List.length_eq_zero_iff.mp empty, List.filter_nil]
  | succ rounds ih =>
      by_cases pending : selectorsPending cursors = true
      · obtain ⟨i, entry, rest, here, next, least⟩ := selectorNext_eq pending
        have moved : (advance req classes id cursors (sourceAt i)).list = _ := list_advance i
        have readied : Ready req classes id (advance req classes id cursors (sourceAt i)).list := by
          rw [moved]
          exact ready_modify ready here
        obtain ⟨out, merges, visits⟩ := ih readied
          (by
            have less := sum_modify_lt (goodAt req classes id i) here
            rw [size_eq] at enough ⊢
            rw [moved]
            omega)
        rw [moved, views_modify here] at merges
        refine ⟨entry :: out, .next_at (i := i) ?_ ?_ merges, ?_⟩
        · have good := ready i _ here entry rfl
          rw [views, List.getElem?_mapIdx, here, Option.map_some, List.filter_cons_of_pos good]
        · intro chain inside other first
          rw [views, List.mem_mapIdx] at inside
          obtain ⟨j, bound, rfl⟩ := inside
          have start := ready j _ (List.getElem?_eq_getElem bound)
          cases content : cursors.list[j] with
          | nil =>
              rw [content] at first
              cases first
          | cons head tail =>
              rw [content] at start first
              rw [List.filter_cons_of_pos (start head rfl)] at first
              cases first
              apply least _ (List.getElem_mem bound)
              rw [content]
              rfl
        · intro S visit state
          rw [matchLoop, if_pos pending, next]
          exact visits S visit (visit entry.sel state)
      · refine ⟨[], .done ?_, ?_⟩
        · intro chain inside
          rw [views, List.mem_mapIdx] at inside
          obtain ⟨i, bound, rfl⟩ := inside
          have empty : cursors.list[i] = [] := by
            by_contra filled
            exact pending (selectorsPending_iff.mpr ⟨_, List.getElem_mem bound, filled⟩)
          rw [empty, List.filter_nil]
        · intro S visit state
          rw [matchLoop, if_neg pending]
          rfl

theorem ready_findCursors (hash : SelectorHash M V) :
    Ready req classes id (findCursors hash req classes id).list := by
  intro i chain stored entry first
  match i with
  | 0 =>
      cases stored
      exact head_skipTo first
  | 1 =>
      cases id with
      | none =>
          cases stored
          cases first
      | some name =>
          cases stored
          exact head_skipTo first
  | 2 =>
      cases stored
      exact head_skipTo first
  | i + 3 =>
      change (classes.map _)[i]? = some chain at stored
      rw [List.getElem?_map, Option.map_eq_some_iff] at stored
      obtain ⟨name, here, rfl⟩ := stored
      have same : classes.getD i [] = name := by
        rw [List.getD_eq_getElem?_getD, here, Option.getD_some]
      rw [goodAt, same]
      exact head_skipTo first

/-- The chains that apply to a node, without the entries that do not. -/
def applicable (hash : SelectorHash M V) (req : Requirements M) (classes : List LwcString)
    (id : Option LwcString) : List (List (HashEntry M V)) :=
  [(hash.elements (slotOf req.qname.name)).filter (elementGood req),
    match id with
    | some name => (hash.ids (slotOf name)).filter (namedGood req idName name)
    | none => [],
    hash.universal.filter (entryGood req)] ++
    classes.map fun name => (hash.classes (slotOf name)).filter (namedGood req className name)

theorem views_findCursors (hash : SelectorHash M V) :
    views req classes id (findCursors hash req classes id).list = applicable hash req classes id := by
  have later : (findCursors hash req classes id).classes.mapIdx
      (fun i chain => chain.filter (goodAt req classes id (i + 3))) =
        classes.map fun name => (hash.classes (slotOf name)).filter (namedGood req className name) := by
    apply List.ext_getElem?
    intro i
    change ((classes.map fun name =>
      skipTo (namedGood req className name) (hash.classes (slotOf name))).mapIdx _)[i]? = _
    rw [List.getElem?_mapIdx, List.getElem?_map, List.getElem?_map]
    cases here : classes[i]? with
    | none => rfl
    | some name =>
        have same : classes.getD i [] = name := by
          rw [List.getD_eq_getElem?_getD, here, Option.getD_some]
        rw [Option.map_some, Option.map_some, Option.map_some, goodAt, same, filter_skipTo]
  rw [views, Cursors.list, List.mapIdx_append]
  change _ ++ (findCursors hash req classes id).classes.mapIdx
    (fun i chain => chain.filter (goodAt req classes id (i + 3))) = _
  rw [later]
  unfold applicable
  congr 1
  cases id with
  | none => simp [findCursors, goodAt, filter_skipTo]
  | some name => simp [findCursors, goodAt, filter_skipTo]

/-- The selectors are visited in ascending order of specificity and rule index, as sorted chains
give them. -/
theorem matchLoop_findCursors {hash : SelectorHash M V}
    (sorted : ∀ place, Sorted (hash.chain place)) (req : Requirements M) (classes : List LwcString)
    (id : Option LwcString) :
    ∃ out, Sorted out ∧ out.Perm (applicable hash req classes id).flatten ∧
      ∀ (S : Type) (visit : Selector M V → S → S) (state : S),
        matchLoop req classes id visit (findCursors hash req classes id).size
            (findCursors hash req classes id) state =
          out.foldl (fun state entry => visit entry.sel state) state := by
  have ready : Ready req classes id (findCursors hash req classes id).list := ready_findCursors hash
  obtain ⟨out, merges, visits⟩ := matchLoop_eq ready (le_refl _)
  rw [views_findCursors] at merges
  refine ⟨out, merges.sorted ?_, merges.perm, visits⟩
  intro chain inside
  simp only [applicable, List.mem_append, List.mem_cons, List.not_mem_nil, or_false,
    List.mem_map] at inside
  rcases inside with (rfl | rfl | rfl) | ⟨name, -, rfl⟩
  · exact (sorted (.element _)).filter _
  · cases id with
    | none => exact List.Pairwise.nil
    | some name => exact (sorted (.id _)).filter _
  · exact (sorted .universal).filter _
  · exact (sorted (.class _)).filter _

end Neosurf.Libcss
