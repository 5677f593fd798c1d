/-
This file is about the first element of a list that passes a test.
-/

import Mathlib.Data.List.Basic

namespace List

variable {α : Type*} {test other : α → Bool} {change : α → α}

/-- The first element that passes the test is changed. -/
def changeFirst (test : α → Bool) (change : α → α) : List α → List α
  | [] => []
  | a :: rest => if test a then change a :: rest else a :: rest.changeFirst test change

/-- The first element that passes the test stands after some that fail it. -/
theorem changeFirst_split {l r : List α} {a : α} (early : ∀ b ∈ l, test b = false)
    (passed : test a = true) :
    (l ++ a :: r).changeFirst test change = l ++ change a :: r := by
  induction l with
  | nil => rw [nil_append, nil_append, changeFirst, if_pos passed]
  | cons b rest ih =>
      rw [cons_append, changeFirst, if_neg (by simp [early b]), ih fun c inside =>
        early c (mem_cons_of_mem b inside), cons_append]

/-- A change does not show when it is mapped to the same. -/
theorem map_changeFirst {β : Type*} {f : α → β} (kept : ∀ a, f (change a) = f a) (l : List α) :
    (l.changeFirst test change).map f = l.map f := by
  induction l with
  | nil => rfl
  | cons a rest ih =>
      rw [changeFirst]
      split
      · rw [map_cons, map_cons, kept]
      · rw [map_cons, map_cons, ih]

theorem mem_changeFirst {a : α} {l : List α} (inside : a ∈ l.changeFirst test change) :
    a ∈ l ∨ ∃ b ∈ l, test b = true ∧ a = change b := by
  induction l with
  | nil => cases inside
  | cons b rest ih =>
      rw [changeFirst] at inside
      split at inside
      · rename_i passed
        rcases mem_cons.mp inside with rfl | inside
        · exact Or.inr ⟨b, mem_cons_self, passed, rfl⟩
        · exact Or.inl (mem_cons_of_mem b inside)
      · rcases mem_cons.mp inside with rfl | inside
        · exact Or.inl mem_cons_self
        · rcases ih inside with old | ⟨c, old, passed, same⟩
          · exact Or.inl (mem_cons_of_mem b old)
          · exact Or.inr ⟨c, mem_cons_of_mem b old, passed, same⟩

/-- A change under one test shows in the search for another one, when the elements under the
first test agree on it. -/
theorem find?_changeFirst {l : List α}
    (agree : ∀ a b, test a = true → test b = true → other a = other b)
    (kept : ∀ a, test a = true → other (change a) = other a) :
    (l.changeFirst test change).find? other =
      (l.find? other).map fun a => if test a then change a else a := by
  induction l with
  | nil => rfl
  | cons a rest ih =>
      rw [changeFirst]
      by_cases passed : test a = true
      · rw [if_pos passed, find?_cons, find?_cons, kept a passed]
        by_cases looked : other a = true
        · simp [looked, passed]
        · have apart (b : α) (found : rest.find? other = some b) : ¬ test b = true := by
            intro same
            rw [agree a b passed same] at looked
            exact looked (find?_some found)
          cases later : rest.find? other with
          | none => simp [looked]
          | some b => simp [looked, apart b later]
      · rw [if_neg passed, find?_cons, find?_cons, ih]
        by_cases looked : other a = true
        · simp [looked, passed]
        · simp [looked]

/-- A relation between two elements survives a change that keeps it. -/
theorem pairwise_changeFirst {R : α → α → Prop} {l : List α}
    (before : ∀ a b, test a = true → R a b → R (change a) b)
    (after : ∀ a b, test b = true → R a b → R a (change b)) (apart : l.Pairwise R) :
    (l.changeFirst test change).Pairwise R := by
  induction l with
  | nil => exact .nil
  | cons a rest ih =>
      obtain ⟨first, later⟩ := pairwise_cons.mp apart
      rw [changeFirst]
      split
      · rename_i passed
        exact pairwise_cons.mpr ⟨fun b inside => before a b passed (first b inside), later⟩
      · refine pairwise_cons.mpr ⟨fun b inside => ?_, ih later⟩
        rcases mem_changeFirst inside with old | ⟨c, old, passed, rfl⟩
        · exact first b old
        · exact after a c passed (first c old)

/-- An element that passes another test is found after an erasure, unless it was erased. -/
theorem find?_eraseP {l : List α}
    (same : ∀ a b, test a = true → other a = true → test b = other b)
    (single : l.Pairwise fun a b => test a = true → test b = false) :
    (l.eraseP test).find? other = (l.find? other).filter fun a => !test a := by
  induction l with
  | nil => rfl
  | cons a rest ih =>
      obtain ⟨first, later⟩ := pairwise_cons.mp single
      by_cases passed : test a = true
      · rw [eraseP_cons_of_pos passed, find?_cons]
        have none_left : ∀ b ∈ rest, test b = false := fun b inside => first b inside passed
        by_cases looked : other a = true
        · have absent : rest.find? other = none := by
            apply find?_eq_none.mpr
            intro b inside
            rw [← same a b passed looked, none_left b inside]
            exact Bool.false_ne_true
          simp [looked, passed, absent, Option.filter_some]
        · cases found : rest.find? other with
          | none => simp [looked]
          | some b => simp [looked, none_left b (mem_of_find?_eq_some found), Option.filter_some]
      · rw [eraseP_cons_of_neg passed, find?_cons, find?_cons, ih later]
        by_cases looked : other a = true
        · simp [looked, passed, Option.filter_some]
        · simp [looked]

/-- A search finds the first element that passes the test. -/
theorem find?_split {l r : List α} {a : α} (early : ∀ b ∈ l, test b = false)
    (passed : test a = true) : (l ++ a :: r).find? test = some a := by
  have missing : l.find? test = none := find?_eq_none.mpr fun b inside => by simp [early b inside]
  rw [find?_append, missing, Option.none_or, find?_cons, passed]

/-- An erasure takes the first element that passes the test. -/
theorem eraseP_split {l r : List α} {a : α} (early : ∀ b ∈ l, test b = false)
    (passed : test a = true) : (l ++ a :: r).eraseP test = l ++ r := by
  rw [eraseP_append_right _ fun b inside => by simp [early b inside], eraseP_cons_of_pos passed]

end List
