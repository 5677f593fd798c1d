/-
This file is about doubly linked lists: cells at addresses that point to the cells before and
after them.
-/

import Mathlib.Data.List.Induction
import Mathlib.Data.List.Nodup
import Mathlib.Logic.Function.Basic

/-- A cell points to the cells beside it. -/
structure LinkedCell (α : Type*) where
  prev : Option Nat
  next : Option Nat
  data : α

/-- The first and the last cell of a list. Both are missing when it is empty. -/
structure LinkedEnds where
  first : Option Nat := none
  last : Option Nat := none

/-- The ends of a list without the cell between two others. -/
def LinkedEnds.without (ends : LinkedEnds) (prev next : Option Nat) : LinkedEnds where
  first := if prev.isSome then ends.first else next
  last := if next.isSome then ends.last else prev

/-- The ends of a list where a cell takes the place of the one between two others. -/
def LinkedEnds.replaced (ends : LinkedEnds) (prev next : Option Nat) (c : Nat) : LinkedEnds where
  first := if prev.isSome then ends.first else some c
  last := if next.isSome then ends.last else some c

/-- The ends of a list that gets one more cell after its last one. -/
def LinkedEnds.extended (ends : LinkedEnds) (c : Nat) : LinkedEnds where
  first := if ends.last.isSome then ends.first else some c
  last := some c

/-- The memory holds a cell at every address that is in use. -/
abbrev CellMemory (α : Type*) := Nat → Option (LinkedCell α)

namespace CellMemory

variable {α : Type*} {m m' : CellMemory α} {before after : Option Nat} {xs ys : List (Nat × α)}

/-- The cell behind a pointer is changed, unless the pointer is missing. -/
def modify (m : CellMemory α) (pointer : Option Nat) (change : LinkedCell α → LinkedCell α) :
    CellMemory α :=
  match pointer with
  | none => m
  | some a => Function.update m a ((m a).map change)

def setPrev (m : CellMemory α) (pointer prev : Option Nat) : CellMemory α :=
  m.modify pointer fun cell => { cell with prev }

def setNext (m : CellMemory α) (pointer next : Option Nat) : CellMemory α :=
  m.modify pointer fun cell => { cell with next }

/-- The cell at an address is freed. -/
def free (m : CellMemory α) (a : Nat) : CellMemory α := Function.update m a none

/-- The first cell from a pointer on whose data passes the test. The rounds bound the length of
the list. -/
def find (m : CellMemory α) (test : α → Bool) : Nat → Option Nat → Option (Nat × LinkedCell α)
  | _, none => none
  | 0, some _ => none
  | rounds + 1, some a =>
      match m a with
      | none => none
      | some cell => if test cell.data then some (a, cell) else find m test rounds cell.next

/-- The data of the cells from a pointer on is changed. -/
def mapFrom (change : Nat → α → α) : Nat → Option Nat → CellMemory α → CellMemory α
  | 0, _, m => m
  | _, none, m => m
  | rounds + 1, some a, m =>
      match m a with
      | none => m
      | some cell => mapFrom change rounds cell.next
          (Function.update m a (some { cell with data := change a cell.data }))

/-- The cells from a pointer on are freed. -/
def freeFrom : Nat → Option Nat → CellMemory α → CellMemory α
  | 0, _, m => m
  | _, none, m => m
  | rounds + 1, some a, m =>
      match m a with
      | none => m
      | some cell => freeFrom rounds cell.next (m.free a)

/-- The address of the first cell. -/
def headOf (xs : List (Nat × α)) : Option Nat := xs.head?.map Prod.fst

/-- The address of the last cell. -/
def lastOf (xs : List (Nat × α)) : Option Nat := xs.getLast?.map Prod.fst

/-- The cells stand in this order between a cell before them and one after them. -/
def Linked (m : CellMemory α) : Option Nat → List (Nat × α) → Option Nat → Prop
  | _, [], _ => True
  | before, (a, x) :: rest, after =>
      m a = some ⟨before, (headOf rest).or after, x⟩ ∧ Linked m (some a) rest after

/-- The ends and the cells of a list are well linked. -/
structure IsList (m : CellMemory α) (ends : LinkedEnds) (xs : List (Nat × α)) : Prop where
  nodup : (xs.map Prod.fst).Nodup
  linked : m.Linked none xs none
  first : ends.first = headOf xs
  last : ends.last = lastOf xs

@[simp] theorem headOf_nil : headOf ([] : List (Nat × α)) = none := rfl

@[simp] theorem headOf_cons (a : Nat) (x : α) (xs : List (Nat × α)) :
    headOf ((a, x) :: xs) = some a := rfl

@[simp] theorem lastOf_nil : lastOf ([] : List (Nat × α)) = none := rfl

@[simp] theorem headOf_append : headOf (xs ++ ys) = (headOf xs).or (headOf ys) := by
  cases xs with
  | nil => rfl
  | cons pair rest => rfl

@[simp] theorem lastOf_append : lastOf (xs ++ ys) = (lastOf ys).or (lastOf xs) := by
  simp only [lastOf, List.getLast?_append]
  cases ys.getLast? <;> rfl

theorem lastOf_cons (a : Nat) (x : α) (xs : List (Nat × α)) :
    lastOf ((a, x) :: xs) = (lastOf xs).or (some a) :=
  (lastOf_append : lastOf ([(a, x)] ++ xs) = (lastOf xs).or (some a))

/-- The addresses at the ends are among those of the cells. -/
theorem headOf_mem {a : Nat} (first : headOf xs = some a) : a ∈ xs.map Prod.fst := by
  obtain ⟨pair, here, rfl⟩ := Option.map_eq_some_iff.mp first
  exact List.mem_map_of_mem (List.mem_of_head? here)

theorem lastOf_mem {a : Nat} (last : lastOf xs = some a) : a ∈ xs.map Prod.fst := by
  obtain ⟨pair, here, rfl⟩ := Option.map_eq_some_iff.mp last
  exact List.mem_map_of_mem (List.mem_of_getLast? here)

theorem linked_append : m.Linked before (xs ++ ys) after ↔
    m.Linked before xs ((headOf ys).or after) ∧ m.Linked ((lastOf xs).or before) ys after := by
  induction xs generalizing before with
  | nil => simp [Linked]
  | cons pair rest ih =>
      obtain ⟨a, x⟩ := pair
      rw [List.cons_append, Linked, Linked, ih, headOf_append, Option.or_assoc, lastOf_cons,
        Option.or_assoc, Option.some_or, and_assoc]

theorem modify_other {pointer : Option Nat} {change : LinkedCell α → LinkedCell α} {a : Nat}
    (other : pointer ≠ some a) : m.modify pointer change a = m a := by
  cases pointer with
  | none => rfl
  | some b =>
      apply Function.update_of_ne
      rintro rfl
      exact other rfl

/-- A change at one end of a list leaves other addresses alone. -/
theorem setPrev_headOf {a : Nat} (prev : Option Nat) (other : a ∉ xs.map Prod.fst) :
    m.setPrev (headOf xs) prev a = m a :=
  modify_other fun first => other (headOf_mem first)

theorem setNext_lastOf {a : Nat} (next : Option Nat) (other : a ∉ xs.map Prod.fst) :
    m.setNext (lastOf xs) next a = m a :=
  modify_other fun last => other (lastOf_mem last)

/-- A list does not depend on the memory elsewhere. -/
theorem linked_congr (same : ∀ a ∈ xs.map Prod.fst, m' a = m a) (linked : m.Linked before xs after) :
    m'.Linked before xs after := by
  induction xs generalizing before with
  | nil => trivial
  | cons pair rest ih =>
      obtain ⟨a, x⟩ := pair
      refine ⟨?_, ih (fun b inside => same b (List.mem_cons_of_mem _ inside)) linked.2⟩
      rw [same a List.mem_cons_self]
      exact linked.1

/-- The first cell gets another one before it. -/
theorem linked_setPrev (before' : Option Nat) (nodup : (xs.map Prod.fst).Nodup)
    (linked : m.Linked before xs after) :
    (m.setPrev (headOf xs) before').Linked before' xs after := by
  cases xs with
  | nil => trivial
  | cons pair rest =>
      obtain ⟨a, x⟩ := pair
      rw [List.map_cons, List.nodup_cons] at nodup
      constructor
      · simp [setPrev, modify, linked.1]
      · apply linked_congr _ linked.2
        intro b inside
        apply modify_other
        rintro same
        cases same
        exact nodup.1 inside

/-- The last cell gets another one after it. -/
theorem linked_setNext (after' : Option Nat) (nodup : (xs.map Prod.fst).Nodup)
    (linked : m.Linked before xs after) :
    (m.setNext (lastOf xs) after').Linked before xs after' := by
  induction xs using List.reverseRecOn with
  | nil => trivial
  | append_singleton rest pair ih =>
      obtain ⟨a, x⟩ := pair
      rw [List.map_append, List.nodup_append] at nodup
      rw [linked_append] at linked ⊢
      rw [lastOf_append]
      constructor
      · apply linked_congr _ linked.1
        intro b inside
        apply modify_other
        rintro same
        cases same
        exact nodup.2.2 a inside a List.mem_cons_self rfl
      · refine ⟨?_, trivial⟩
        have here := linked.2.1
        simp [setNext, modify, lastOf, here]

/-- A missing pointer ends a search. -/
theorem find_linked (test : α → Bool) {rounds : Nat} (linked : m.Linked before xs none)
    (enough : xs.length ≤ rounds) :
    m.find test rounds (headOf xs) = none ∧ (∀ pair ∈ xs, test pair.2 = false) ∨
      ∃ ys a x zs, xs = ys ++ (a, x) :: zs ∧ (∀ pair ∈ ys, test pair.2 = false) ∧ test x = true ∧
        m.find test rounds (headOf xs) =
          some (a, ⟨(lastOf ys).or before, headOf zs, x⟩) := by
  induction xs generalizing before rounds with
  | nil =>
      left
      refine ⟨?_, by simp⟩
      cases rounds <;> rfl
  | cons pair rest ih =>
      obtain ⟨a, x⟩ := pair
      cases rounds with
      | zero => exact absurd enough (by simp)
      | succ rounds =>
          have here := linked.1
          rw [Option.or_none] at here
          have step : m.find test (rounds + 1) (headOf ((a, x) :: rest)) =
              if test x then some (a, ⟨before, headOf rest, x⟩)
              else m.find test rounds (headOf rest) := by
            rw [headOf_cons, find, here]
          rw [step]
          by_cases passed : test x = true
          · rw [if_pos passed]
            exact Or.inr ⟨[], a, x, rest, rfl, by simp, passed, rfl⟩
          · rw [if_neg passed]
            rw [List.length_cons, Nat.add_le_add_iff_right] at enough
            rw [Bool.not_eq_true] at passed
            rcases ih linked.2 enough with ⟨absent, none_passes⟩ | ⟨ys, b, y, zs, rfl, early, here, found⟩
            · refine Or.inl ⟨absent, ?_⟩
              rintro pair (_ | ⟨_, inside⟩)
              · exact passed
              · exact none_passes pair inside
            · refine Or.inr ⟨(a, x) :: ys, b, y, zs, rfl, ?_, here, ?_⟩
              · rintro pair (_ | ⟨_, inside⟩)
                · exact passed
                · exact early pair inside
              · rw [found, lastOf_cons, Option.or_assoc, Option.some_or]

/-- A change at one end of a list leaves the other cells alone. -/
theorem linked_modify_other {pointer : Option Nat} {change : LinkedCell α → LinkedCell α}
    (other : ∀ a ∈ xs.map Prod.fst, pointer ≠ some a) (linked : m.Linked before xs after) :
    (m.modify pointer change).Linked before xs after :=
  linked_congr (fun a inside => modify_other (other a inside)) linked

theorem linked_update {a : Nat} {cell : Option (LinkedCell α)} (other : a ∉ xs.map Prod.fst)
    (linked : m.Linked before xs after) : Linked (Function.update m a cell) before xs after := by
  apply linked_congr _ linked
  intro b inside
  apply Function.update_of_ne
  rintro rfl
  exact other inside

theorem disjoint_of_nodup (nodup : ((xs ++ ys).map Prod.fst).Nodup) {a : Nat}
    (left : a ∈ xs.map Prod.fst) : a ∉ ys.map Prod.fst := by
  rw [List.map_append, List.nodup_append] at nodup
  intro right
  exact nodup.2.2 a left a right rfl

/-- Two lists are joined, or the cell between them is changed, when the first cell of the second
list is changed before the last one of the first list. -/
theorem linked_setPrev_setNext {next prev : Option Nat} (next' prev' : Option Nat)
    (nodup : ((xs ++ ys).map Prod.fst).Nodup) (left : m.Linked before xs next)
    (right : m.Linked prev ys after) :
    ((m.setPrev (headOf ys) prev').setNext (lastOf xs) next').Linked before xs next' ∧
      ((m.setPrev (headOf ys) prev').setNext (lastOf xs) next').Linked prev' ys after := by
  have apart := nodup
  rw [List.map_append, List.nodup_append] at apart
  constructor
  · apply linked_setNext _ apart.1
    apply linked_modify_other _ left
    intro a inside first
    exact disjoint_of_nodup nodup inside (headOf_mem first)
  · apply linked_modify_other
    · intro a inside last
      exact disjoint_of_nodup nodup (lastOf_mem last) inside
    · exact linked_setPrev _ apart.2.1 right

/-- The order of the two changes does not matter. -/
theorem linked_setNext_setPrev {next prev : Option Nat} (next' prev' : Option Nat)
    (nodup : ((xs ++ ys).map Prod.fst).Nodup) (left : m.Linked before xs next)
    (right : m.Linked prev ys after) :
    ((m.setNext (lastOf xs) next').setPrev (headOf ys) prev').Linked before xs next' ∧
      ((m.setNext (lastOf xs) next').setPrev (headOf ys) prev').Linked prev' ys after := by
  have apart := nodup
  rw [List.map_append, List.nodup_append] at apart
  constructor
  · apply linked_modify_other
    · intro a inside first
      exact disjoint_of_nodup nodup inside (headOf_mem first)
    · exact linked_setNext _ apart.1 left
  · apply linked_setPrev _ apart.2.1
    apply linked_modify_other _ right
    intro a inside last
    exact disjoint_of_nodup nodup (lastOf_mem last) inside

/-- What a list says about its cell in the middle. -/
theorem IsList.split {ends : LinkedEnds} {a : Nat} {x : α} (list : m.IsList ends (xs ++ (a, x) :: ys)) :
    ((xs ++ ys).map Prod.fst).Nodup ∧ a ∉ (xs ++ ys).map Prod.fst ∧ m.Linked none xs (some a) ∧
      m a = some ⟨lastOf xs, headOf ys, x⟩ ∧ m.Linked (some a) ys none := by
  obtain ⟨left, here, right⟩ := linked_append.mp list.linked
  have nodup := list.nodup
  rw [List.map_append, List.map_cons, List.nodup_middle, ← List.map_append, List.nodup_cons] at nodup
  rw [Option.or_none, Option.or_none] at here
  exact ⟨nodup.2, nodup.1, left, here, right⟩

variable {ends : LinkedEnds} {a : Nat} {x y : α}

theorem isList_of_linked {m' : CellMemory α} (list : m.IsList ends (xs ++ (a, x) :: ys))
    (left : m'.Linked none xs (headOf ys)) (right : m'.Linked (lastOf xs) ys none) :
    m'.IsList (ends.without (lastOf xs) (headOf ys)) (xs ++ ys) where
  nodup := list.split.1
  linked := by
    rw [linked_append, Option.or_none, Option.or_none]
    exact ⟨left, right⟩
  first := by
    rw [LinkedEnds.without, headOf_append, list.first, headOf_append]
    cases xs with
    | nil => rfl
    | cons pair rest =>
        have some_last : (lastOf (pair :: rest)).isSome = true := by simp [lastOf]
        rw [if_pos some_last]
        rfl
  last := by
    rw [LinkedEnds.without, lastOf_append, list.last, lastOf_append, lastOf_cons]
    cases ys with
    | nil => rfl
    | cons pair rest =>
        obtain ⟨b, y⟩ := pair
        rw [lastOf_cons]
        cases lastOf rest <;> rfl

/-- A cell is unlinked and freed. -/
theorem isList_unlink (list : m.IsList ends (xs ++ (a, x) :: ys)) :
    IsList (((m.setPrev (headOf ys) (lastOf xs)).setNext (lastOf xs) (headOf ys)).free a)
      (ends.without (lastOf xs) (headOf ys)) (xs ++ ys) := by
  obtain ⟨nodup, fresh, left, _, right⟩ := list.split
  rw [List.map_append, List.mem_append, not_or] at fresh
  obtain ⟨first, second⟩ := linked_setPrev_setNext (headOf ys) (lastOf xs) nodup left right
  exact isList_of_linked list (linked_update fresh.1 first) (linked_update fresh.2 second)

/-- The two links may be changed in the other order. -/
theorem isList_unlink' (list : m.IsList ends (xs ++ (a, x) :: ys)) :
    IsList (((m.setNext (lastOf xs) (headOf ys)).setPrev (headOf ys) (lastOf xs)).free a)
      (ends.without (lastOf xs) (headOf ys)) (xs ++ ys) := by
  obtain ⟨nodup, fresh, left, _, right⟩ := list.split
  rw [List.map_append, List.mem_append, not_or] at fresh
  obtain ⟨first, second⟩ := linked_setNext_setPrev (headOf ys) (lastOf xs) nodup left right
  exact isList_of_linked list (linked_update fresh.1 first) (linked_update fresh.2 second)

/-- A new cell takes the place of one that is freed. -/
theorem isList_replace {c : Nat} (list : m.IsList ends (xs ++ (a, x) :: ys))
    (fresh : c ∉ (xs ++ (a, x) :: ys).map Prod.fst) :
    IsList (free ((setPrev (Function.update m c (some ⟨lastOf xs, headOf ys, y⟩)) (headOf ys)
        (some c)).setNext (lastOf xs) (some c)) a)
      (ends.replaced (lastOf xs) (headOf ys) c) (xs ++ (c, y) :: ys) := by
  obtain ⟨nodup, gone, left, _, right⟩ := list.split
  rw [List.map_append, List.mem_append, not_or] at gone
  rw [List.map_append, List.map_cons, List.mem_append, List.mem_cons, not_or, not_or] at fresh
  obtain ⟨new_left, different, new_right⟩ := fresh
  have left' : Linked (Function.update m c (some ⟨lastOf xs, headOf ys, y⟩)) none xs (some a) :=
    linked_update new_left left
  have right' : Linked (Function.update m c (some ⟨lastOf xs, headOf ys, y⟩)) (some a) ys none :=
    linked_update new_right right
  obtain ⟨first, second⟩ := linked_setPrev_setNext (some c) (some c) nodup left' right'
  constructor
  · rw [List.map_append, List.map_cons, List.nodup_middle, ← List.map_append, List.nodup_cons]
    refine ⟨?_, nodup⟩
    rw [List.map_append, List.mem_append, not_or]
    exact ⟨new_left, new_right⟩
  · simp only [linked_append, Linked, Option.or_none, headOf_cons]
    refine ⟨linked_update gone.1 first, ?_, linked_update gone.2 second⟩
    rw [free, Function.update_of_ne different, setNext, modify_other, setPrev, modify_other,
      Function.update_self]
    · intro same
      exact new_right (headOf_mem same)
    · intro same
      exact new_left (lastOf_mem same)
  · rw [LinkedEnds.replaced, headOf_append, list.first, headOf_append]
    cases xs with
    | nil => rfl
    | cons pair rest =>
        have some_last : (lastOf (pair :: rest)).isSome = true := by simp [lastOf]
        rw [if_pos some_last]
        rfl
  · rw [LinkedEnds.replaced, lastOf_append, list.last, lastOf_append, lastOf_cons, lastOf_cons]
    cases ys with
    | nil => rfl
    | cons pair rest =>
        obtain ⟨b, z⟩ := pair
        rw [lastOf_cons]
        cases lastOf rest <;> rfl

/-- A new cell is linked after the last one. -/
theorem isList_append {c : Nat} (list : m.IsList ends xs) (fresh : c ∉ xs.map Prod.fst) :
    IsList (setNext (Function.update m c (some ⟨ends.last, none, y⟩)) ends.last (some c))
      (ends.extended c) (xs ++ [(c, y)]) := by
  constructor
  · rw [List.map_append, List.nodup_append]
    refine ⟨list.nodup, List.nodup_singleton c, ?_⟩
    intro a inside b new
    rw [List.mem_singleton.mp new]
    rintro rfl
    exact fresh inside
  · rw [linked_append, list.last]
    refine ⟨linked_setNext _ list.nodup (linked_update fresh list.linked), ?_, trivial⟩
    rw [setNext, modify_other, Function.update_self, Option.or_none]
    · rfl
    · intro same
      exact fresh (lastOf_mem same)
  · rw [LinkedEnds.extended, list.last, list.first, headOf_append]
    cases xs with
    | nil => rfl
    | cons pair rest =>
        have some_last : (lastOf (pair :: rest)).isSome = true := by simp [lastOf]
        rw [if_pos some_last]
        rfl
  · rw [lastOf_append]
    rfl

/-- A new cell is linked before the first one. -/
theorem isList_cons {c : Nat} (list : m.IsList ends xs) (fresh : c ∉ xs.map Prod.fst) :
    IsList (setPrev (Function.update m c (some ⟨none, ends.first, y⟩)) ends.first (some c))
      ⟨some c, ends.last.or (some c)⟩ ((c, y) :: xs) := by
  rw [list.first, list.last]
  constructor
  · exact List.nodup_cons.mpr ⟨fresh, list.nodup⟩
  · refine ⟨?_, linked_setPrev _ list.nodup (linked_update fresh list.linked)⟩
    rw [setPrev_headOf _ fresh, Function.update_self, Option.or_none]
  · rfl
  · rw [lastOf_cons]

/-- The data of one cell is changed. -/
theorem isList_modify (change : α → α) (list : m.IsList ends (xs ++ (a, x) :: ys)) :
    IsList (m.modify (some a) fun cell => { cell with data := change cell.data }) ends
      (xs ++ (a, change x) :: ys) := by
  obtain ⟨nodup, apart, left, here, right⟩ := list.split
  rw [List.map_append, List.mem_append, not_or] at apart
  constructor
  · rw [List.map_append, List.map_cons, List.nodup_middle, ← List.map_append, List.nodup_cons]
    exact ⟨by simpa using apart, nodup⟩
  · rw [linked_append, Linked, headOf_cons, Option.some_or, Option.or_none, Option.or_none]
    refine ⟨linked_update apart.1 left, ?_, linked_update apart.2 right⟩
    rw [modify, Function.update_self, here]
    rfl
  · rw [list.first, headOf_append, headOf_append]
    rfl
  · rw [list.last, lastOf_append, lastOf_append, lastOf_cons, lastOf_cons]

/-- A change of the data leaves the links as they are. -/
theorem linked_mapFrom {change : Nat → α → α} {rounds : Nat} (nodup : (xs.map Prod.fst).Nodup)
    (enough : xs.length ≤ rounds) (linked : m.Linked before xs none) :
    (mapFrom change rounds (headOf xs) m).Linked before
      (xs.map fun pair => (pair.1, change pair.1 pair.2)) none ∧
      ∀ a ∉ xs.map Prod.fst, mapFrom change rounds (headOf xs) m a = m a := by
  induction xs generalizing m before rounds with
  | nil =>
      have same : mapFrom change rounds none m = m := by cases rounds <;> rfl
      exact ⟨trivial, fun a _ => congrFun same a⟩
  | cons pair rest ih =>
      obtain ⟨a, x⟩ := pair
      obtain ⟨here, linked⟩ := linked
      rw [List.map_cons, List.nodup_cons] at nodup
      rw [List.length_cons] at enough
      obtain ⟨rounds, rfl⟩ : ∃ later, rounds = later + 1 := ⟨rounds - 1, by omega⟩
      rw [Option.or_none] at here
      have step : mapFrom change (rounds + 1) (headOf ((a, x) :: rest)) m =
          mapFrom change rounds (headOf rest)
            (Function.update m a (some ⟨before, headOf rest, change a x⟩)) := by
        rw [headOf_cons, mapFrom, here]
      have less : rest.length ≤ rounds := by omega
      obtain ⟨later, others⟩ := ih nodup.2 less (linked_update nodup.1 linked)
      rw [step]
      refine ⟨⟨?_, later⟩, fun b other => ?_⟩
      · rw [others a nodup.1, Function.update_self, Option.or_none, headOf, headOf, List.head?_map,
          Option.map_map]
        rfl
      · rw [List.map_cons, List.mem_cons, not_or] at other
        rw [others b other.2, Function.update_of_ne other.1]

theorem isList_mapFrom {change : Nat → α → α} {rounds : Nat} (list : m.IsList ends xs)
    (enough : xs.length ≤ rounds) :
    (mapFrom change rounds ends.first m).IsList ends
      (xs.map fun pair => (pair.1, change pair.1 pair.2)) where
  nodup := by
    rw [List.map_map]
    exact list.nodup
  linked := by
    rw [list.first]
    exact (linked_mapFrom list.nodup enough list.linked).1
  first := by
    rw [list.first, headOf, headOf, List.head?_map, Option.map_map]
    rfl
  last := by
    rw [list.last, lastOf, lastOf, List.getLast?_map, Option.map_map]
    rfl

/-- The pointers of a list agree: only its ends miss a neighbour, and each cell that points to
another one is pointed back to. -/
structure Agrees (m : CellMemory α) (ends : LinkedEnds) (addresses : List Nat) : Prop where
  first : ends.first = none ↔ addresses = []
  last : ends.last = none ↔ addresses = []
  cells : ∀ a ∈ addresses, ∃ cell, m a = some cell ∧ (cell.prev = none ↔ ends.first = some a) ∧
    (cell.next = none ↔ ends.last = some a) ∧
    ∀ b, cell.next = some b ↔ b ∈ addresses ∧ ∃ cell', m b = some cell' ∧ cell'.prev = some a

theorem headOf_eq_none : headOf xs = none ↔ xs = [] := by
  rw [headOf, Option.map_eq_none_iff, List.head?_eq_none_iff]

theorem lastOf_eq_none : lastOf xs = none ↔ xs = [] := by
  rw [lastOf, Option.map_eq_none_iff, List.getLast?_eq_none_iff]

theorem lastOf_eq_some {a : Nat} (last : lastOf xs = some a) : ∃ ys x, xs = ys ++ [(a, x)] := by
  obtain ⟨⟨b, x⟩, here, rfl⟩ := Option.map_eq_some_iff.mp last
  obtain ⟨ys, rfl⟩ := List.getLast?_eq_some_iff.mp here
  exact ⟨ys, x, rfl⟩

/-- A list splits at each of its addresses. -/
theorem exists_split {a : Nat} (inside : a ∈ xs.map Prod.fst) : ∃ l x r, xs = l ++ (a, x) :: r := by
  obtain ⟨⟨b, x⟩, here, rfl⟩ := List.mem_map.mp inside
  obtain ⟨l, r, rfl⟩ := List.append_of_mem here
  exact ⟨l, x, r, rfl⟩

theorem IsList.agrees (list : m.IsList ends xs) : m.Agrees ends (xs.map Prod.fst) where
  first := by rw [list.first, headOf_eq_none, List.map_eq_nil_iff]
  last := by rw [list.last, lastOf_eq_none, List.map_eq_nil_iff]
  cells a inside := by
    obtain ⟨l, x, r, rfl⟩ := exists_split inside
    obtain ⟨_, apart, _, here, right⟩ := list.split
    rw [List.map_append, List.mem_append, not_or] at apart
    refine ⟨_, here, ?_, ?_, fun b => ⟨?_, ?_⟩⟩
    · rw [list.first, headOf_append, lastOf_eq_none]
      cases l with
      | nil => simp
      | cons pair rest =>
          obtain ⟨b, y⟩ := pair
          simp only [List.map_cons, List.mem_cons, not_or] at apart
          simp [Ne.symm apart.1.1]
    · rw [list.last, lastOf_append, lastOf_cons, headOf_eq_none]
      cases last : lastOf r with
      | none => simp [lastOf_eq_none.mp last]
      | some b =>
          have different : b ≠ a := by
            rintro rfl
            exact apart.2 (lastOf_mem last)
          have filled : r ≠ [] := by
            rintro rfl
            cases last
          simp [different, filled]
    · intro next
      cases r with
      | nil => cases next
      | cons pair rest =>
          obtain ⟨c, y⟩ := pair
          cases next
          exact ⟨by simp, _, right.1, rfl⟩
    · rintro ⟨other, cell, there, back⟩
      obtain ⟨l', y, r', same⟩ := exists_split other
      have list' := list
      rw [same] at list'
      obtain ⟨_, _, _, there', _⟩ := list'.split
      rw [there, Option.some.injEq] at there'
      subst there'
      obtain ⟨l'', z, rfl⟩ := lastOf_eq_some back
      rw [List.append_assoc, List.singleton_append] at list'
      obtain ⟨_, _, _, here', _⟩ := list'.split
      rw [here, Option.some.injEq, LinkedCell.mk.injEq] at here'
      exact here'.2.1

end CellMemory
