/-
This file adds facts about splitting a list at a separator, and about the elements that a list starts
or ends with.
-/

import Mathlib.Data.List.Basic
import Mathlib.Data.List.DropRight
import Mathlib.Data.List.TakeWhile

namespace List

variable {α : Type*} {p : α → Bool} {s : List α}

/-- Dropping the length of a prefix run leaves what follows the run. -/
theorem drop_length_takeWhile (p : α → Bool) (s : List α) :
    s.drop (s.takeWhile p).length = s.dropWhile p := by
  induction s with
  | nil => rfl
  | cons c rest ih =>
      by_cases keep : p c
      · simp [keep, ih]
      · simp [keep]

/-- A prefix run is at least as long as any prefix of accepted elements. -/
theorem le_length_takeWhile_iff {n : Nat} (within : n ≤ s.length) :
    n ≤ (s.takeWhile p).length ↔ ∀ c ∈ s.take n, p c = true := by
  induction s generalizing n with
  | nil => simp_all
  | cons c rest ih =>
      cases n with
      | zero => simp
      | succ n =>
          by_cases keep : p c
          · simp [keep, ih (Nat.le_of_succ_le_succ within)]
          · simp [keep]

/-- The elements of a prefix run are accepted. -/
theorem of_lt_length_takeWhile {k : Nat} {x : α} (within : k < (s.takeWhile p).length)
    (here : s[k]? = some x) : p x = true := by
  have same := (List.takeWhile_prefix p).getElem within
  rw [getElem?_eq_getElem (within.trans_le (List.takeWhile_prefix p).length_le)] at here
  rw [← Option.some.inj here, ← same]
  exact mem_takeWhile_imp (getElem_mem within)

/-- The element that follows a prefix run is not accepted. -/
theorem not_of_length_takeWhile {x : α} (here : s[(s.takeWhile p).length]? = some x) :
    p x = false := by
  induction s with
  | nil => cases here
  | cons c rest ih =>
      by_cases keep : p c
      · rw [takeWhile_cons_of_pos keep] at here
        exact ih here
      · rw [takeWhile_cons_of_neg keep] at here
        cases here
        simpa using keep

/-- The part before the final run ends early exactly when only the run follows. -/
theorem length_sub_takeWhile_reverse_le_iff {n : Nat} :
    s.length - (s.reverse.takeWhile p).length ≤ n ↔ ∀ c ∈ s.drop n, p c = true := by
  have size : (s.reverse.takeWhile p).length ≤ s.length := by
    simpa using (takeWhile_sublist (l := s.reverse) p).length_le
  have run := le_length_takeWhile_iff (p := p) (s := s.reverse) (n := s.length - n) (by simp)
  have same : s.reverse.take (s.length - n) = (s.drop n).reverse := by
    rw [take_reverse]
    by_cases inside : n ≤ s.length
    · rw [Nat.sub_sub_self inside]
    · rw [drop_of_length_le (by omega : s.length ≤ n), drop_of_length_le (by omega)]
  rw [same] at run
  simp only [mem_reverse] at run
  rw [← run]
  omega

/-- Only the last part loses elements from its end, if it keeps any. -/
theorem rdropWhile_append_of_ne_nil {l : List α} (some : s.rdropWhile p ≠ []) :
    (l ++ s).rdropWhile p = l ++ s.rdropWhile p := by
  have kept : s.reverse.dropWhile p ≠ [] := fun empty => some (by rw [rdropWhile, empty]; rfl)
  rw [rdropWhile, rdropWhile, reverse_append, dropWhile_append]
  split_ifs with gone
  · exact absurd (List.isEmpty_iff.mp gone) kept
  · rw [reverse_append, reverse_reverse]

section Reached

variable {good : α → Prop} {x y : α} {xs : List α}

/-- Only good elements come before an element. -/
def Reached (good : α → Prop) (xs : List α) (x : α) : Prop :=
  ∃ before after, xs = before ++ x :: after ∧ ∀ y ∈ before, good y

@[simp] theorem not_reached_nil : ¬ Reached good [] x := by
  rintro ⟨before, after, split, -⟩
  simp at split

@[simp] theorem reached_cons : Reached good (y :: xs) x ↔ x = y ∨ good y ∧ Reached good xs x := by
  constructor
  · rintro ⟨before, after, split, all⟩
    cases before with
    | nil =>
        rw [nil_append, cons.injEq] at split
        exact .inl split.1.symm
    | cons first before =>
        rw [cons_append, cons.injEq] at split
        rw [forall_mem_cons] at all
        refine .inr ⟨split.1 ▸ all.1, before, after, split.2, all.2⟩
  · rintro (rfl | ⟨here, before, after, rfl, all⟩)
    · exact ⟨[], xs, rfl, by simp⟩
    · exact ⟨y :: before, after, rfl, forall_mem_cons.2 ⟨here, all⟩⟩

end Reached

end List

namespace List

/-- Joined parts have the elements of each part. -/
theorem mem_intercalate_of_mem {α : Type*} {x : α} {sep part : List α} {parts : List (List α)}
    (inside : part ∈ parts) (found : x ∈ part) : x ∈ sep.intercalate parts := by
  induction parts with
  | nil => cases inside
  | cons first rest ih =>
      cases rest with
      | nil =>
          rw [mem_singleton] at inside
          rw [intercalate_singleton, ← inside]
          exact found
      | cons second rest =>
          rw [intercalate_cons_cons, mem_append, mem_append]
          rcases mem_cons.mp inside with rfl | later
          · exact .inl (.inl found)
          · exact .inr (ih later)

/-- A separator before joined parts stands before each part. -/
theorem cons_intercalate_singleton {α : Type*} {c : α} {parts : List (List α)} (filled : parts ≠ []) :
    c :: [c].intercalate parts = parts.flatMap (c :: ·) := by
  induction parts with
  | nil => exact absurd rfl filled
  | cons first rest ih =>
      cases rest with
      | nil => simp
      | cons second rest =>
          rw [intercalate_cons_cons, flatMap_cons, ← ih (cons_ne_nil _ _)]
          simp

section Prefix

variable {α : Type*} {c : α} {a b x y : List α}

/-- Only the first part of a text has a prefix without the separator. -/
theorem prefix_append_cons_iff (plain : c ∉ a) : a <+: b ++ c :: y ↔ a <+: b := by
  induction a generalizing b with
  | nil => exact ⟨fun _ => nil_prefix, fun _ => nil_prefix⟩
  | cons first a ih =>
      rw [mem_cons, not_or] at plain
      cases b with
      | nil =>
          rw [nil_append, cons_prefix_cons]
          constructor
          · rintro ⟨same, _⟩
            exact absurd same.symm plain.1
          · intro impossible
            cases prefix_nil.mp impossible
      | cons second b => rw [cons_append, cons_prefix_cons, cons_prefix_cons, ih plain.2]

/-- A prefix with separators agrees with the first part of a text. -/
theorem append_cons_prefix_append_cons_iff (plain : c ∉ a) (plain' : c ∉ b) :
    a ++ c :: x <+: b ++ c :: y ↔ a = b ∧ x <+: y := by
  induction a generalizing b with
  | nil =>
      cases b with
      | nil => simp
      | cons second b =>
          rw [mem_cons, not_or] at plain'
          rw [nil_append, cons_append, cons_prefix_cons]
          constructor
          · rintro ⟨same, _⟩
            exact absurd same plain'.1
          · rintro ⟨same, _⟩
            cases same
  | cons first a ih =>
      rw [mem_cons, not_or] at plain
      cases b with
      | nil =>
          rw [nil_append, cons_append, cons_prefix_cons]
          constructor
          · rintro ⟨same, _⟩
            exact absurd same.symm plain.1
          · rintro ⟨same, _⟩
            cases same
      | cons second b =>
          rw [mem_cons, not_or] at plain'
          rw [cons_append, cons_append, cons_prefix_cons, ih plain.2 plain'.2, cons.injEq, and_assoc]

end Prefix

variable {α : Type*} [BEq α]

/-- The first part is the text before the first separator. -/
theorem headD_splitOn (c : α) (text : List α) :
    (text.splitOn c).headD [] = text.takeWhile (· != c) := by
  induction text with
  | nil => rfl
  | cons x text ih =>
      rw [splitOn_cons_eq_if_modifyHead, takeWhile_cons]
      by_cases same : (x == c) = true
      · simp [same, bne]
      · have nonempty := splitOn_ne_nil c text
        rw [if_neg same]
        cases parts : text.splitOn c with
        | nil => exact absurd parts nonempty
        | cons first rest =>
            rw [parts] at ih
            simpa [same, bne] using ih

/-- The parts do not have the separator. -/
theorem not_mem_of_mem_splitOn [LawfulBEq α] {c : α} {part text : List α}
    (inside : part ∈ text.splitOn c) : c ∉ part := by
  induction text generalizing part with
  | nil =>
      rw [splitOn_nil, mem_singleton] at inside
      rw [inside]
      exact not_mem_nil
  | cons x text ih =>
      rw [splitOn_cons_eq_if_modifyHead] at inside
      split at inside
      · rcases mem_cons.mp inside with rfl | inside
        · exact not_mem_nil
        · exact ih inside
      · rename_i other
        have nonempty := splitOn_ne_nil c text
        cases parts : text.splitOn c with
        | nil => exact absurd parts nonempty
        | cons first rest =>
            rw [parts] at ih inside
            rw [modifyHead_cons] at inside
            rcases mem_cons.mp inside with rfl | inside
            · rw [mem_cons]
              rintro (rfl | later)
              · exact other BEq.rfl
              · exact ih mem_cons_self later
            · exact ih (mem_cons_of_mem _ inside)

/-- The parts have elements of the text. -/
theorem mem_of_mem_splitOn [LawfulBEq α] {c x : α} {part text : List α}
    (inside : part ∈ text.splitOn c) (found : x ∈ part) : x ∈ text := by
  have joined : [c].intercalate (text.splitOn c) = text := intercalate_splitOn c
  rw [← joined]
  exact mem_intercalate_of_mem inside found

section Lines

variable {c : α} {line rest text : List α}

/-- These are the parts that end with a separator. -/
def terminated (c : α) (text : List α) : List (List α) := (text.splitOn c).dropLast

/-- This is the part behind the last separator. -/
def unfinished (c : α) (text : List α) : List α := (text.splitOn c).getLast (splitOn_ne_nil c text)

theorem splitOn_eq_terminated (c : α) (text : List α) :
    text.splitOn c = terminated c text ++ [unfinished c text] :=
  (dropLast_append_getLast (splitOn_ne_nil c text)).symm

variable [LawfulBEq α]

@[simp] theorem terminated_of_not_mem (plain : c ∉ text) : terminated c text = [] := by
  simp [terminated, splitOn_eq_singleton plain]

@[simp] theorem unfinished_of_not_mem (plain : c ∉ text) : unfinished c text = text := by
  simp [unfinished, splitOn_eq_singleton plain]

@[simp] theorem terminated_append_cons (plain : c ∉ line) (rest : List α) :
    terminated c (line ++ c :: rest) = line :: terminated c rest := by
  rw [terminated, splitOn_append_cons_self_of_not_mem plain,
    dropLast_cons_of_ne_nil (splitOn_ne_nil c rest), terminated]

@[simp] theorem unfinished_append_cons (plain : c ∉ line) (rest : List α) :
    unfinished c (line ++ c :: rest) = unfinished c rest := by
  simp only [unfinished, splitOn_append_cons_self_of_not_mem plain,
    getLast_cons (splitOn_ne_nil c rest)]

/-- The first part of a text goes on with its start. -/
theorem exists_splitOn_append (plain : c ∉ line) (rest : List α) :
    ∃ more parts, (line ++ rest).splitOn c = (line ++ more) :: parts := by
  by_cases inside : c ∈ rest
  · obtain ⟨before, after, rfl, clear⟩ := eq_append_cons_of_mem inside
    refine ⟨before, after.splitOn c, ?_⟩
    rw [← append_assoc, splitOn_append_cons_self_of_not_mem (by simp [plain, clear])]
  · exact ⟨rest, [], splitOn_eq_singleton (by simp [plain, inside])⟩

/-- A text is its unfinished part, or a line before a shorter text. -/
theorem line_induction (c : α) {motive : List α → Prop}
    (unfinished : ∀ text, c ∉ text → motive text)
    (line : ∀ line rest, c ∉ line → motive rest → motive (line ++ c :: rest)) (text : List α) :
    motive text := by
  by_cases inside : c ∈ text
  · obtain ⟨before, rest, rfl, plain⟩ := eq_append_cons_of_mem inside
    exact line before rest plain (line_induction c unfinished line rest)
  · exact unfinished text inside
termination_by text.length

/-- The unfinished part of a text goes on with what follows. -/
theorem terminated_append (c : α) (a b : List α) :
    terminated c (a ++ b) = terminated c a ++ terminated c (unfinished c a ++ b) := by
  induction a using line_induction c with
  | unfinished text plain => simp [plain]
  | line line rest plain inductionHypothesis => simp [plain, inductionHypothesis]

theorem unfinished_append (c : α) (a b : List α) :
    unfinished c (a ++ b) = unfinished c (unfinished c a ++ b) := by
  induction a using line_induction c with
  | unfinished text plain => simp [plain]
  | line line rest plain inductionHypothesis => simp [plain, inductionHypothesis]

theorem not_mem_unfinished (c : α) (text : List α) : c ∉ unfinished c text :=
  not_mem_of_mem_splitOn (getLast_mem (splitOn_ne_nil c text))

end Lines

end List
