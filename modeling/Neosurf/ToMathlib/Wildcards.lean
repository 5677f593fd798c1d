/-
This file is about patterns where some elements stand for runs of any length.
-/

import Mathlib.Data.List.Infix
import Mathlib.Data.List.TakeWhile

namespace Wildcard

variable {α β : Type*} (isRun : α → Bool) (fits : α → β → Bool)

/-- A run takes any number of elements, and every other part of a pattern takes one that fits. -/
inductive Matches : List α → List β → Prop
  | nil : Matches [] []
  | skip {a pattern text} : isRun a = true → Matches pattern text → Matches (a :: pattern) text
  | take {a pattern c text} : isRun a = true → Matches (a :: pattern) text →
      Matches (a :: pattern) (c :: text)
  | one {a pattern c text} : isRun a = false → fits a c = true → Matches pattern text →
      Matches (a :: pattern) (c :: text)

/-- A decision of the matches. -/
def accepts : List α → List β → Bool
  | [], text => text.isEmpty
  | a :: pattern, text =>
      if isRun a then text.tails.any fun rest => accepts pattern rest
      else text.head?.any (fits a) && accepts pattern text.tail

/-- A pattern matches the elements between two positions. -/
structure Spans (pattern : List α) (text : List β) (start stop : Nat) : Prop where
  le : start ≤ stop
  within : stop ≤ text.length
  matched : Matches isRun fits pattern (text.extract start stop)

/-- The number of runs that another element follows. -/
def innerRuns : List α → Nat
  | [] => 0
  | [_] => 0
  | a :: b :: pattern =>
      innerRuns (b :: pattern) + if isRun a && !isRun b then 1 else 0

/-- The pattern after its leading runs. -/
def stripped (pattern : List α) : List α := pattern.dropWhile isRun

variable {isRun fits} {pattern : List α} {text : List β} {a : α} {start stop : Nat}

@[simp] theorem matches_nil_iff : Matches isRun fits [] text ↔ text = [] := by
  constructor
  · intro matched
    cases matched
    rfl
  · rintro rfl
    exact .nil

theorem matches_one_iff (single : isRun a = false) :
    Matches isRun fits (a :: pattern) text ↔
      ∃ c rest, text = c :: rest ∧ fits a c = true ∧ Matches isRun fits pattern rest := by
  constructor
  · intro matched
    cases matched with
    | skip run => exact absurd run (by simp [single])
    | take run => exact absurd run (by simp [single])
    | one _ fit rest => exact ⟨_, _, rfl, fit, rest⟩
  · rintro ⟨c, rest, rfl, fit, matched⟩
    exact .one single fit matched

/-- What follows a run matches from some position on. -/
theorem matches_run_iff (run : isRun a = true) :
    Matches isRun fits (a :: pattern) text ↔
      ∃ k ≤ text.length, Matches isRun fits pattern (text.drop k) := by
  induction text with
  | nil =>
      constructor
      · intro matched
        cases matched with
        | skip _ rest => exact ⟨0, Nat.le_refl 0, rest⟩
      · rintro ⟨k, -, matched⟩
        exact .skip run (by simpa using matched)
  | cons c text ih =>
      constructor
      · intro matched
        cases matched with
        | skip _ rest => exact ⟨0, Nat.zero_le _, rest⟩
        | take _ rest =>
            obtain ⟨k, within, matched⟩ := ih.mp rest
            exact ⟨k + 1, Nat.succ_le_succ within, matched⟩
        | one single => exact absurd run (by simp [single])
      · rintro ⟨k, within, matched⟩
        cases k with
        | zero => exact .skip run matched
        | succ k => exact .take run (ih.mpr ⟨k, Nat.le_of_succ_le_succ within, matched⟩)

theorem accepts_iff : accepts isRun fits pattern text = true ↔ Matches isRun fits pattern text := by
  induction pattern generalizing text with
  | nil => simp [accepts]
  | cons a pattern ih =>
      rw [accepts]
      split
      · rename_i run
        simp only [List.any_eq_true, List.mem_tails, ih]
        rw [matches_run_iff run]
        constructor
        · rintro ⟨rest, suffix, matched⟩
          rw [List.suffix_iff_eq_drop.mp suffix] at matched
          exact ⟨_, Nat.sub_le .., matched⟩
        · rintro ⟨k, -, matched⟩
          exact ⟨text.drop k, List.drop_suffix k text, matched⟩
      · rename_i single
        rw [matches_one_iff (by simpa using single)]
        cases text with
        | nil => simp
        | cons c rest => simp [ih]

instance : Decidable (Matches isRun fits pattern text) := decidable_of_iff _ accepts_iff

instance : Decidable (Spans isRun fits pattern text start stop) :=
  decidable_of_iff (start ≤ stop ∧ stop ≤ text.length ∧
    Matches isRun fits pattern (text.extract start stop))
    ⟨fun spans => ⟨spans.1, spans.2.1, spans.2.2⟩, fun spans => ⟨spans.1, spans.2, spans.3⟩⟩

theorem spans_nil_iff :
    Spans isRun fits [] text start stop ↔ start = stop ∧ stop ≤ text.length := by
  constructor
  · rintro ⟨le, within, matched⟩
    have empty : (text.extract start stop).length = 0 := by
      rw [matches_nil_iff.mp matched]
      rfl
    rw [List.extract_eq_take_drop, List.length_take, List.length_drop] at empty
    omega
  · rintro ⟨rfl, within⟩
    refine ⟨Nat.le_refl _, within, matches_nil_iff.mpr ?_⟩
    simp [List.extract_eq_take_drop]

theorem spans_one_iff (single : isRun a = false) :
    Spans isRun fits (a :: pattern) text start stop ↔
      ∃ c, text[start]? = some c ∧ fits a c = true ∧
        Spans isRun fits pattern text (start + 1) stop := by
  have parts {c : β} {rest : List β} (left : text.drop start = c :: rest) (less : start < stop) :
      text.extract start stop = c :: text.extract (start + 1) stop := by
    have after : text.drop (start + 1) = rest := by
      rw [← List.drop_drop, left]
      rfl
    rw [List.extract_eq_take_drop, List.extract_eq_take_drop, left, after,
      show stop - start = (stop - (start + 1)) + 1 by omega, List.take_succ_cons]
  have first {c : β} {rest : List β} (left : text.drop start = c :: rest) :
      text[start]? = some c := by
    rw [← Nat.add_zero start, ← List.getElem?_drop, left]
    rfl
  cases left : text.drop start with
  | nil =>
      have ended := List.drop_eq_nil_iff.mp left
      constructor
      · rintro ⟨le, within, matched⟩
        obtain ⟨c, rest, taken, -, -⟩ := (matches_one_iff single).mp matched
        rw [List.extract_eq_take_drop, left, List.take_nil] at taken
        cases taken
      · rintro ⟨c, here, -⟩
        rw [List.getElem?_eq_none ended] at here
        cases here
  | cons c rest =>
      constructor
      · rintro ⟨le, within, matched⟩
        obtain ⟨d, after, taken, fit, matched⟩ := (matches_one_iff single).mp matched
        have less : start < stop := by
          have some : (text.extract start stop).length = after.length + 1 := by rw [taken]; rfl
          rw [List.extract_eq_take_drop, List.length_take] at some
          omega
        rw [parts left less] at taken
        cases taken
        exact ⟨c, first left, fit, less, within, matched⟩
      · rintro ⟨d, here, fit, less, within, matched⟩
        rw [first left] at here
        cases here
        refine ⟨Nat.le_of_succ_le less, within, ?_⟩
        rw [parts left less]
        exact .one single fit matched

theorem spans_run_iff (run : isRun a = true) :
    Spans isRun fits (a :: pattern) text start stop ↔
      ∃ k, start ≤ k ∧ Spans isRun fits pattern text k stop := by
  have shifted {k : Nat} : (text.extract start stop).drop k = text.extract (start + k) stop := by
    rw [List.extract_eq_take_drop, List.extract_eq_take_drop, List.drop_take, List.drop_drop,
      Nat.sub_sub]
  constructor
  · rintro ⟨le, within, matched⟩
    obtain ⟨k, inside, matched⟩ := (matches_run_iff run).mp matched
    rw [List.extract_eq_take_drop, List.length_take, List.length_drop] at inside
    rw [shifted] at matched
    exact ⟨start + k, Nat.le_add_right .., by omega, within, matched⟩
  · rintro ⟨k, le, less, within, matched⟩
    refine ⟨Nat.le_trans le less, within, (matches_run_iff run).mpr ⟨k - start, ?_, ?_⟩⟩
    · rw [List.extract_eq_take_drop, List.length_take, List.length_drop]
      omega
    · rw [shifted, Nat.add_sub_cancel' le]
      exact matched

theorem stripped_one (single : isRun a = false) :
    stripped isRun (a :: pattern) = a :: pattern :=
  List.dropWhile_cons_of_neg (by simp [single])

theorem stripped_run (run : isRun a = true) :
    stripped isRun (a :: pattern) = stripped isRun pattern := List.dropWhile_cons_of_pos run

/-- The rest after the leading runs does not start with a run. -/
theorem single_of_stripped {rest : List α} (left : stripped isRun pattern = a :: rest) :
    isRun a = false := by
  induction pattern with
  | nil => cases left
  | cons b pattern ih =>
      cases more : isRun b with
      | false =>
          rw [stripped_one more] at left
          cases left
          exact more
      | true =>
          rw [stripped_run more] at left
          exact ih left

/-- Several runs in a row are as good as one. -/
theorem spans_stripped_iff (run : isRun a = true) :
    Spans isRun fits (a :: stripped isRun pattern) text start stop ↔
      Spans isRun fits (a :: pattern) text start stop := by
  induction pattern with
  | nil => rfl
  | cons b pattern ih =>
      cases more : isRun b with
      | false => rw [stripped_one more]
      | true =>
          rw [stripped_run more, ih, spans_run_iff run,
            spans_run_iff run]
          simp only [spans_run_iff more]
          constructor
          · rintro ⟨k, le, spans⟩
            exact ⟨k, le, k, Nat.le_refl k, spans⟩
          · rintro ⟨k, le, l, le', spans⟩
            exact ⟨l, Nat.le_trans le le', spans⟩

/-- A pattern matches what it matches without its leading runs. -/
theorem Spans.of_stripped (spans : Spans isRun fits (stripped isRun pattern) text start stop) :
    Spans isRun fits pattern text start stop := by
  induction pattern with
  | nil => exact spans
  | cons b pattern ih =>
      cases more : isRun b with
      | false =>
          rw [stripped_one more] at spans
          exact spans
      | true =>
          rw [stripped_run more] at spans
          exact (spans_run_iff more).mpr ⟨start, Nat.le_refl _, ih spans⟩

/-- A match of the pattern without its leading runs ends where a match of the pattern does. -/
theorem Spans.exists_stripped (spans : Spans isRun fits pattern text start stop) :
    ∃ k, start ≤ k ∧ Spans isRun fits (stripped isRun pattern) text k stop := by
  induction pattern generalizing start with
  | nil => exact ⟨start, Nat.le_refl _, spans⟩
  | cons b pattern ih =>
      cases more : isRun b with
      | false =>
          rw [stripped_one more]
          exact ⟨start, Nat.le_refl _, spans⟩
      | true =>
          rw [stripped_run more]
          obtain ⟨k, le, spans⟩ := (spans_run_iff more).mp spans
          obtain ⟨l, le', spans⟩ := ih spans
          exact ⟨l, Nat.le_trans le le', spans⟩


theorem innerRuns_one (single : isRun a = false) :
    innerRuns isRun (a :: pattern) = innerRuns isRun pattern := by
  cases pattern with
  | nil => rfl
  | cons b pattern => simp [innerRuns, single]

/-- A run is followed by another element when not only runs come after it. -/
theorem innerRuns_run {b : α} {rest : List α} (run : isRun a = true)
    (left : stripped isRun pattern = b :: rest) :
    innerRuns isRun (a :: pattern) = innerRuns isRun rest + 1 := by
  induction pattern with
  | nil => cases left
  | cons c pattern ih =>
      cases more : isRun c with
      | false =>
          rw [stripped_one more] at left
          cases left
          rw [innerRuns, innerRuns_one more]
          simp [run, more]
      | true =>
          rw [stripped_run more] at left
          rw [← ih left]
          cases pattern <;> simp [innerRuns, run, more]

end Wildcard
