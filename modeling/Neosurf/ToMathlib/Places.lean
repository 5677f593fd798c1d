/-
This file finds the first and the last place of an element behind the head of a list, as a
scan from left to right does.
-/

import Mathlib.Data.List.TakeWhile
import Mathlib.Data.List.Induction

namespace List

variable {α : Type} [DecidableEq α] {c x : α} {s before after : List α}

/-- The first place of an element behind the head, or zero. -/
def firstPlace (c : α) (s : List α) : Nat :=
  if c ∈ s.tail then (s.tail.takeWhile (· ≠ c)).length + 1 else 0

/-- The last place of an element that stands twice behind the head, or zero. -/
def lastPlace (c : α) (s : List α) : Nat :=
  if 2 ≤ s.tail.count c then (s.reverse.dropWhile (· ≠ c)).length - 1 else 0

theorem firstPlace_eq_zero_iff : firstPlace c s = 0 ↔ c ∉ s.tail := by
  rw [firstPlace]
  split
  · simp_all
  · simp_all

/-- The first place divides the list there. -/
theorem firstPlace_append (some : before ≠ []) (clean : c ∉ before.tail) :
    firstPlace c (before ++ c :: after) = before.length := by
  obtain ⟨d, rest, rfl⟩ := exists_cons_of_ne_nil some
  have all : ∀ e ∈ rest, decide (e ≠ c) = true := by
    intro e inside
    rw [decide_eq_true_eq]
    rintro rfl
    exact clean inside
  rw [firstPlace, cons_append, tail_cons, if_pos (by simp), takeWhile_append_of_pos all]
  simp

/-- A list with the element behind its head divides at the first place. -/
theorem exists_firstPlace (inside : c ∈ s.tail) : ∃ before after, s = before ++ c :: after ∧
    before ≠ [] ∧ c ∉ before.tail ∧ firstPlace c s = before.length := by
  cases s with
  | nil => cases inside
  | cons d rest =>
      obtain ⟨before, after, rfl, clean⟩ := eq_append_cons_of_mem inside
      have clean : c ∉ (d :: before).tail := clean
      exact ⟨d :: before, after, rfl, cons_ne_nil d before, clean,
        firstPlace_append (cons_ne_nil d before) clean⟩

/-- The last place divides the list there. -/
theorem lastPlace_append (inside : c ∈ before.tail) (clean : c ∉ after) :
    lastPlace c (before ++ c :: after) = before.length := by
  have some : before ≠ [] := by
    rintro rfl
    cases inside
  have twice : 2 ≤ (before ++ c :: after).tail.count c := by
    have once := one_le_count_iff.mpr inside
    rw [tail_append_of_ne_nil some, count_append, count_cons_self]
    omega
  have all : ∀ e ∈ after.reverse, decide (e ≠ c) = true := by
    intro e member
    rw [decide_eq_true_eq]
    rintro rfl
    exact clean (mem_reverse.mp member)
  rw [lastPlace, if_pos twice, reverse_append, reverse_cons, append_assoc,
    dropWhile_append_of_pos all]
  simp

/-- A list with the element twice behind its head divides at the last place. -/
theorem exists_lastPlace (twice : 2 ≤ s.tail.count c) : ∃ before after, s = before ++ c :: after ∧
    c ∈ before.tail ∧ c ∉ after ∧ lastPlace c s = before.length := by
  have inside : c ∈ s.reverse := by
    have member := one_le_count_iff.mp (Nat.le_of_succ_le twice)
    exact mem_reverse.mpr (mem_of_mem_tail member)
  obtain ⟨after, before, shape, clean⟩ := eq_append_cons_of_mem inside
  have whole : s = before.reverse ++ c :: after.reverse := by
    rw [← reverse_reverse s, shape]
    simp
  have absent : c ∉ after.reverse := by rwa [mem_reverse]
  have member : c ∈ before.reverse.tail := by
    rw [whole] at twice
    cases divided : before.reverse with
    | nil =>
        rw [divided, nil_append, tail_cons, count_eq_zero.mpr absent] at twice
        omega
    | cons d rest =>
        rw [divided, cons_append, tail_cons, count_append, count_cons_self,
          count_eq_zero.mpr absent] at twice
        have once : 1 ≤ rest.count c := by omega
        exact one_le_count_iff.mp once
  refine ⟨before.reverse, after.reverse, whole, member, absent, ?_⟩
  rw [whole]
  exact lastPlace_append member absent

/-- One more element is a first place when there is none yet. -/
theorem firstPlace_append_singleton (c x : α) (s : List α) :
    firstPlace c (s ++ [x]) =
      if firstPlace c s ≠ 0 then firstPlace c s else if x = c then s.length else 0 := by
  by_cases inside : c ∈ s.tail
  · obtain ⟨before, after, rfl, some, clean, place⟩ := exists_firstPlace inside
    have positive := length_pos_iff.mpr some
    rw [place, if_pos (by omega), append_assoc, cons_append, firstPlace_append some clean]
  · rw [firstPlace_eq_zero_iff.mpr inside, if_neg (fun some => some rfl)]
    by_cases same : x = c
    · subst same
      rw [if_pos rfl]
      cases s with
      | nil => rfl
      | cons d rest => exact firstPlace_append (cons_ne_nil d rest) inside
    · rw [if_neg same, firstPlace_eq_zero_iff]
      cases s with
      | nil => exact not_mem_nil
      | cons d rest =>
          rw [cons_append, tail_cons, mem_append, mem_singleton, not_or]
          exact ⟨inside, fun here => same here.symm⟩

/-- One more element is a last place when there is a first one already. -/
theorem lastPlace_append_singleton (c x : α) (s : List α) :
    lastPlace c (s ++ [x]) =
      if x = c ∧ firstPlace c s ≠ 0 then s.length else lastPlace c s := by
  split
  · rename_i here
    obtain ⟨rfl, some⟩ := here
    have inside : x ∈ s.tail := by_contra fun absent => some (firstPlace_eq_zero_iff.mpr absent)
    exact lastPlace_append inside not_mem_nil
  · rename_i other
    by_cases same : x = c
    · subst same
      have absent : x ∉ s.tail := firstPlace_eq_zero_iff.mp (by_contra fun some => other ⟨rfl, some⟩)
      have none : s.tail.count x = 0 := count_eq_zero.mpr absent
      have once : (s ++ [x]).tail.count x ≤ 1 := by
        cases s with
        | nil => simp
        | cons d rest =>
            rw [tail_cons] at none
            rw [cons_append, tail_cons, count_append, none]
            simp
      rw [lastPlace, lastPlace, if_neg (by omega), if_neg (by omega)]
    · cases s with
      | nil => simp [lastPlace]
      | cons d rest =>
          have count : ((d :: rest) ++ [x]).tail.count c = rest.count c := by
            rw [cons_append, tail_cons, count_append, count_singleton]
            simp [same]
          rw [lastPlace, lastPlace, count, reverse_append, reverse_singleton, singleton_append,
            dropWhile_cons_of_pos (by simpa using same)]
          rfl

theorem firstPlace_le (c : α) (s : List α) : firstPlace c s ≤ s.length := by
  by_cases inside : c ∈ s.tail
  · obtain ⟨before, after, rfl, -, -, place⟩ := exists_firstPlace inside
    rw [place, length_append]
    exact Nat.le_add_right _ _
  · rw [firstPlace_eq_zero_iff.mpr inside]
    exact Nat.zero_le _

theorem lastPlace_le (c : α) (s : List α) : lastPlace c s ≤ s.length := by
  by_cases twice : 2 ≤ s.tail.count c
  · obtain ⟨before, after, rfl, -, -, place⟩ := exists_lastPlace twice
    rw [place, length_append]
    exact Nat.le_add_right _ _
  · rw [lastPlace, if_neg twice]
    exact Nat.zero_le _

/-- Other elements behind the list do not move the places. -/
theorem firstPlace_append_of_notMem (absent : c ∉ after) (s : List α) :
    firstPlace c (s ++ after) = firstPlace c s := by
  induction after using List.reverseRecOn with
  | nil => rw [append_nil]
  | append_singleton rest x ih =>
      rw [mem_append, mem_singleton, not_or] at absent
      rw [← append_assoc, firstPlace_append_singleton, ih absent.1]
      by_cases none : firstPlace c s = 0
      · rw [if_neg (fun some => some none), if_neg (fun same => absent.2 same.symm), none]
      · rw [if_pos none]

theorem lastPlace_append_of_notMem (absent : c ∉ after) (s : List α) :
    lastPlace c (s ++ after) = lastPlace c s := by
  induction after using List.reverseRecOn with
  | nil => rw [append_nil]
  | append_singleton rest x ih =>
      rw [mem_append, mem_singleton, not_or] at absent
      rw [← append_assoc, lastPlace_append_singleton, if_neg (fun both => absent.2 both.1.symm),
        ih absent.1]

end List
