/-
This file proves when the lines of a text hold all of it.
-/

import Mathlib.Data.List.Chain
import Mathlib.Data.List.GetD
import Mathlib.Tactic.SplitIfs
import Neosurf.Construction.Textplain

namespace Neosurf.Textplain

/-- The byte is not the first one of a character. -/
def IsContinuation (c : Byte) : Prop := c &&& 0xC0 = 0x80

instance (c : Byte) : Decidable (IsContinuation c) := inferInstanceAs (Decidable (_ = _))

section Decoder

variable {s rest : Bytes} {c chr least : UInt32} {first t : Byte} {n : Nat}

set_option maxRecDepth 4000 in
/-- A first byte tells the length of its character, and is below 128 only if there is no other. -/
theorem leadByte_spec (lead : leadByte first = some (c, n, least)) :
    0 < n ∧ ¬ IsContinuation first ∧ (n = 1 → first < 0x80 ∧ c = first.toUInt32) ∧
      (n ≠ 1 → ¬ first < 0x80 ∧ 0x80 ≤ least) := by
  have all : ∀ first : Byte, (leadByte first).all (fun r => decide (0 < r.2.1 ∧
      ¬ IsContinuation first ∧ (r.2.1 = 1 → first < 0x80 ∧ r.1 = first.toUInt32) ∧
      (r.2.1 ≠ 1 → ¬ first < 0x80 ∧ 0x80 ≤ r.2.2))) = true := by
    apply byte_cases
    decide
  have own := all first
  rw [lead, Option.all_some, decide_eq_true_iff] at own
  exact own

set_option maxRecDepth 4000 in
theorem continuation_spec (middle : IsContinuation t) : ¬ t < 0x80 := by
  revert t
  apply byte_cases
  decide

theorem of_continuations {c chr : UInt32} (read : continuations c rest = some chr) :
    ∀ t ∈ rest, IsContinuation t := by
  induction rest generalizing c with
  | nil => simp
  | cons t rest ih =>
      rw [continuations] at read
      split_ifs at read with other
      intro u inside
      rcases List.mem_cons.mp inside with rfl | later
      · exact not_not.mp other
      · exact ih read u later

/-- These are the bytes of a decoded character. -/
structure IsChar (text : Bytes) (i : Nat) (chr : UInt32) (n : Nat) : Prop where
  positive : 0 < n
  fits : i + n ≤ text.length
  first : ¬ IsContinuation (byteAt text i)
  middle : ∀ p, i < p → p < i + n → IsContinuation (byteAt text p)
  single : n = 1 → byteAt text i < 0x80 ∧ chr = (byteAt text i).toUInt32
  wide : n ≠ 1 → ¬ byteAt text i < 0x80 ∧ 0x80 ≤ chr

theorem byteAt_drop (text : Bytes) (i k : Nat) : byteAt (text.drop i) k = byteAt text (i + k) := by
  rw [byteAt, byteAt, List.getD_eq_getElem?_getD, List.getD_eq_getElem?_getD, List.getElem?_drop]

/-- What the decoder reads at an offset is a character. -/
theorem isChar_of_utf8ToUcs4 {text : Bytes} {i : Nat}
    (read : utf8ToUcs4 (text.drop i) = some (chr, n)) : IsChar text i chr n := by
  unfold utf8ToUcs4 at read
  split at read
  · cases read
  · rename_i first rest split
    split at read
    · cases read
    · rename_i c n' least lead
      split_ifs at read with short
      split at read
      · cases read
      · rename_i c' value
        split_ifs at read with wrong
        cases read
        obtain ⟨positive, own, single, wide⟩ := leadByte_spec lead
        have size : (text.drop i).length = rest.length + 1 := by rw [split, List.length_cons]
        rw [List.length_drop] at size
        rw [List.length_drop] at short
        have here : byteAt text i = first := by
          rw [← Nat.add_zero i, ← byteAt_drop, split]
          rfl
        refine ⟨positive, by omega, here ▸ own, ?_, ?_, ?_⟩
        · intro p after before
          obtain ⟨k, rfl⟩ : ∃ k, p = i + (k + 1) := ⟨p - i - 1, by omega⟩
          have inside : k < (rest.take (n - 1)).length := by
            rw [List.length_take]
            omega
          have own : k + 1 < (first :: rest).length := by
            rw [List.length_cons]
            omega
          have next : byteAt text (i + (k + 1)) = (rest.take (n - 1))[k] := by
            rw [← byteAt_drop, split, List.getElem_take]
            exact List.getD_eq_getElem _ _ own
          rw [next]
          exact of_continuations value _ (List.getElem_mem inside)
        · intro one
          subst one
          rw [Nat.sub_self, List.take_zero, continuations] at value
          cases value
          exact here ▸ single rfl
        · intro more
          have bounds := wide more
          have above := UInt32.not_lt.mp fun low => wrong (Or.inl low)
          exact ⟨here ▸ bounds.1, UInt32.le_trans bounds.2 above⟩

set_option maxRecDepth 8000 in
/-- A byte below 128 is a character. -/
theorem utf8ToUcs4_ascii (low : first < 0x80) :
    utf8ToUcs4 (first :: rest) = some (first.toUInt32, 1) := by
  have plain : ∀ c : Byte, c < 0x80 → ¬ (c.toUInt32 < 0 ∨ (0xD800 ≤ c.toUInt32 ∧
      c.toUInt32 ≤ 0xDFFF) ∨ c.toUInt32 = 0xFFFE ∨ c.toUInt32 = 0xFFFF) := by
    apply byte_cases
    decide
  have lead : leadByte first = some (first.toUInt32, 1, 0) := by rw [leadByte, if_pos low]
  simp only [utf8ToUcs4, lead, List.length_cons, Nat.sub_self, List.take_zero, continuations]
  rw [if_neg (by omega), if_neg (plain first low)]

end Decoder

/-- The place is the start of a character, or the end of the text, when the characters are read one
after the other. -/
inductive Boundary (text : Bytes) : Nat → Prop where
  | start : Boundary text 0
  | next {i n : Nat} {chr : UInt32} : Boundary text i →
      utf8ToUcs4 (text.drop i) = some (chr, n) → Boundary text (i + n)

/-- The byte is one of a line terminator. -/
def IsBreak (c : Byte) : Prop := c = LF ∨ c = CR

instance (c : Byte) : Decidable (IsBreak c) := inferInstanceAs (Decidable (_ ∨ _))

section Boundaries

variable {text : Bytes} {i p n : Nat} {chr : UInt32}

theorem Boundary.le (here : Boundary text p) : p ≤ text.length := by
  cases here with
  | start => exact Nat.zero_le _
  | next _ read => exact (isChar_of_utf8ToUcs4 read).fits

/-- A place before a boundary where a character can be read is a boundary. -/
theorem Boundary.of_lt (here : Boundary text p) (before : i < p)
    (read : utf8ToUcs4 (text.drop i) = some (chr, n)) : Boundary text i := by
  induction here with
  | start => exact absurd before (Nat.not_lt_zero i)
  | @next j m _ earlier own ih =>
      rcases Nat.lt_trichotomy i j with less | rfl | more
      · exact ih less
      · exact earlier
      · have middle := (isChar_of_utf8ToUcs4 own).middle i more before
        exact absurd middle (isChar_of_utf8ToUcs4 read).first

/-- Only a terminator has the byte of one. -/
theorem IsChar.plain (char : IsChar text i chr n) (other : isTerminator chr = false)
    (from_i : i ≤ p) (before : p < i + n) : ¬ IsBreak (byteAt text p) := by
  have high {c : Byte} (upper : ¬ c < 0x80) : ¬ IsBreak c := by
    rintro (rfl | rfl) <;> exact upper (by decide)
  by_cases one : n = 1
  · obtain ⟨_, value⟩ := char.single one
    have here : p = i := by omega
    rw [here]
    rintro (line | line) <;> rw [line] at value <;> rw [value] at other <;>
      exact absurd other (by decide)
  · rcases Nat.eq_or_lt_of_le from_i with rfl | more
    · exact high (char.wide one).1
    · exact high (continuation_spec (char.middle p more before))

/-- A terminator is one byte. -/
theorem IsChar.terminator (char : IsChar text i chr n) (term : isTerminator chr = true) :
    n = 1 ∧ IsBreak (byteAt text i) := by
  have code : chr = 10 ∨ chr = 13 := by simpa [isTerminator] using term
  have one : n = 1 := by
    by_contra more
    have high := (char.wide more).2
    rcases code with rfl | rfl <;> exact absurd high (by decide)
  obtain ⟨_, value⟩ := char.single one
  refine ⟨one, code.imp (fun line => ?_) fun line => ?_⟩ <;>
  · rw [value] at line
    have size := congrArg UInt32.toNat line
    rw [UInt8.toNat_toUInt32] at size
    exact UInt8.toNat_inj.mp size

/-- A space is one byte. -/
theorem IsChar.space (char : IsChar text i chr n) (blank : chr = 32) : n = 1 := by
  by_contra more
  have high := (char.wide more).2
  rw [blank] at high
  exact absurd high (by decide)

/-- A byte of a terminator is a character. -/
theorem utf8ToUcs4_break (inside : i < text.length) (line : IsBreak (byteAt text i)) :
    utf8ToUcs4 (text.drop i) = some ((byteAt text i).toUInt32, 1) := by
  have here : byteAt text i = text[i] := List.getD_eq_getElem text 0 inside
  have low : byteAt text i < 0x80 := by
    rcases line with own | own <;> rw [own] <;> decide
  rw [List.drop_eq_getElem_cons inside, ← here, utf8ToUcs4_ascii low]

end Boundaries

/-- Where the line ends. -/
def TextplainLine.stop (l : TextplainLine) : Nat := l.start + l.length

/-- A line starts and ends between characters and holds no terminator. -/
structure Whole (text : Bytes) (l : TextplainLine) : Prop where
  start : Boundary text l.start
  stop : Boundary text l.stop
  plain : ∀ p, l.start ≤ p → p < l.stop → ¬ IsBreak (byteAt text p)

/-- Between a line and the next one there are terminators only. -/
structure Follows (text : Bytes) (l l' : TextplainLine) : Prop where
  start : l.start < l'.start
  stop : l.stop ≤ l'.start
  between : ∀ p, l.stop ≤ p → p < l'.start → IsBreak (byteAt text p)

/-- The lines hold the whole text without its terminators. -/
structure Covers (text : Bytes) (lines : List TextplainLine) : Prop where
  first : lines.head?.map TextplainLine.start = some 0
  whole : ∀ l ∈ lines, Whole text l
  follow : lines.IsChain (Follows text)
  last : lines.getLast?.map TextplainLine.stop = some text.length

/-- The line that the loop has not closed yet, at its start. -/
def Layout.opened (s : Layout) : TextplainLine := ⟨s.lineStart, 0⟩

/-- This is what the loop keeps while it breaks lines at terminators and spaces. -/
structure Sound (text : Bytes) (s : Layout) : Prop where
  start : Boundary text s.lineStart
  order : s.lineStart ≤ s.i
  place : Boundary text s.i ∨ ∃ p, Boundary text p ∧ s.i < p
  plain : ∀ p, s.lineStart ≤ p → p < s.i → ¬ IsBreak (byteAt text p)
  space : s.space ≠ 0 → s.lineStart ≤ s.space ∧ s.space < s.i ∧ Boundary text (s.space + 1)
  first : (s.lines ++ [s.opened]).head?.map TextplainLine.start = some 0
  whole : ∀ l ∈ s.lines, Whole text l
  follow : (s.lines ++ [s.opened]).IsChain (Follows text)

/-- There is a character to read, and a line that it would overflow has a space to break at. -/
def Breakable (text : Bytes) (columns : Nat) (s : Layout) : Prop :=
  s.i < text.length → ∃ chr csize, utf8ToUcs4 (text.drop s.i) = some (chr, csize) ∧
    (isTerminator chr = true ∨ nextColumn chr s.col < columns ∨ s.space ≠ 0)

section Rounds

variable {text : Bytes} {columns length i lineStart n : Nat} {chr : UInt32} {s s' : Layout}
  {l l' : TextplainLine} {lines : List TextplainLine}

/-- The place of a terminator, or of the other one of its pair. -/
def terminatorEnd (text : Bytes) (i : Nat) : Nat := if isPair text i then i + 1 else i

/-- This is what a turn does that is not the last one. -/
theorem turn_cases (step : turn text columns s = .inl s') :
    s.i < text.length ∧ ∃ chr csize, utf8ToUcs4 (text.drop s.i) = some (chr, csize) ∧
      (isTerminator chr = true ∧ s' = s.breakLine (s.i - s.lineStart)
          (terminatorEnd text s.i + csize) (terminatorEnd text s.i + 1) ∨
        isTerminator chr = false ∧ columns ≤ nextColumn chr s.col ∧ s.space ≠ 0 ∧
          s' = s.breakLine (s.space + 1 - s.lineStart) (s.space + csize) (s.space + 1) ∨
        isTerminator chr = false ∧ columns ≤ nextColumn chr s.col ∧ s.space = 0 ∧
          s' = s.breakLine (s.i - s.lineStart) (s.i + csize) (s.i + 1) ∨
        isTerminator chr = false ∧ nextColumn chr s.col < columns ∧
          s' = ⟨s.i + csize, s.lineStart, if chr = 32 then s.i else s.space, s.col + 1,
            s.lines⟩) := by
  rw [turn] at step
  by_cases inside : s.i < text.length
  · rw [if_pos inside] at step
    cases read : utf8ToUcs4 (text.drop s.i) with
    | none =>
        rw [read] at step
        cases step
    | some r =>
        obtain ⟨chr, csize⟩ := r
        refine ⟨inside, chr, csize, rfl, ?_⟩
        rw [read] at step
        by_cases term : isTerminator chr = true
        · simp only [if_pos term, Sum.inl.injEq] at step
          exact Or.inl ⟨term, step.symm⟩
        · simp only [if_neg term] at step
          rw [Bool.not_eq_true] at term
          refine Or.inr ?_
          by_cases full : columns ≤ nextColumn chr s.col
          · rw [if_pos full] at step
            by_cases blank : s.space ≠ 0
            · rw [if_pos blank, Sum.inl.injEq] at step
              exact Or.inl ⟨term, full, blank, step.symm⟩
            · rw [if_neg blank, Sum.inl.injEq] at step
              exact Or.inr (Or.inl ⟨term, full, not_not.mp blank, step.symm⟩)
          · rw [if_neg full, Sum.inl.injEq] at step
            exact Or.inr (Or.inr ⟨term, Nat.lt_of_not_le full, step.symm⟩)
  · rw [if_neg inside] at step
    cases step

/-- This is what the last turn gives. -/
theorem turn_last {result : Option (List TextplainLine)}
    (step : turn text columns s = .inr result) :
    s.i < text.length ∧ utf8ToUcs4 (text.drop s.i) = none ∧ result = none ∨
      text.length ≤ s.i ∧ result = some (s.lines ++ [⟨s.lineStart, s.i - s.lineStart⟩]) := by
  rw [turn] at step
  by_cases inside : s.i < text.length
  · rw [if_pos inside] at step
    cases read : utf8ToUcs4 (text.drop s.i) with
    | none =>
        rw [read, Sum.inr.injEq] at step
        exact Or.inl ⟨inside, rfl, step.symm⟩
    | some r =>
        rw [read] at step
        simp only at step
        split at step
        · cases step
        · split at step
          · split at step <;> cases step
          · cases step
  · rw [if_neg inside, Sum.inr.injEq] at step
    exact Or.inr ⟨Nat.le_of_not_lt inside, step.symm⟩

/-- The last line of a chain may change behind its start. -/
theorem follow_last (chain : (lines ++ [l]).IsChain (Follows text)) (same : l.start = l'.start) :
    (lines ++ [l']).IsChain (Follows text) := by
  rw [List.isChain_append] at chain ⊢
  refine ⟨chain.1, List.isChain_singleton l', fun a last b first => ?_⟩
  have own := chain.2.2 a last l (by simp)
  have here : l' = b := by simpa using first
  subst here
  exact ⟨same ▸ own.start, same ▸ own.stop, same ▸ own.between⟩

/-- A line is closed soundly, where it ends between characters and only terminators are left out. -/
theorem Sound.breakLine (sound : Sound text s) (stop : Boundary text (s.lineStart + length))
    (inside : s.lineStart + length ≤ s.i) (starts : Boundary text lineStart)
    (later : s.lineStart < lineStart) (after : s.lineStart + length ≤ lineStart)
    (between : ∀ p, s.lineStart + length ≤ p → p < lineStart → IsBreak (byteAt text p))
    (order : lineStart ≤ i) (place : Boundary text i ∨ ∃ p, Boundary text p ∧ i < p)
    (plain : ∀ p, lineStart ≤ p → p < i → ¬ IsBreak (byteAt text p)) :
    Sound text (s.breakLine length i lineStart) := by
  have closed : (s.lines ++ [TextplainLine.mk s.lineStart length]).IsChain (Follows text) :=
    follow_last sound.follow rfl
  refine ⟨starts, order, place, plain, fun other => absurd rfl other, ?_, ?_, ?_⟩
  · have first := sound.first
    rw [Layout.breakLine, List.append_assoc]
    cases lines : s.lines with
    | nil =>
        rw [lines] at first
        exact first
    | cons a rest =>
        rw [lines] at first
        exact first
  · intro l own
    rcases List.mem_append.mp own with old | new
    · exact sound.whole l old
    · rw [List.mem_singleton.mp new]
      exact ⟨sound.start, stop, fun p low high => sound.plain p low (lt_of_lt_of_le high inside)⟩
  · rw [List.isChain_append]
    refine ⟨closed, List.isChain_singleton _, fun a last b next => ?_⟩
    have own : ⟨s.lineStart, length⟩ = a := by simpa [Layout.breakLine] using last
    have new : (⟨lineStart, 0⟩ : TextplainLine) = b := by
      simpa [Layout.opened, Layout.breakLine] using next
    subst own new
    exact ⟨later, after, between⟩

/-- What is left of the text behind the start of the line, and then behind the place. -/
def Layout.left (text : Bytes) (s : Layout) : Nat :=
  (text.length - s.lineStart) * (text.length + 1) + (text.length - s.i)

theorem left_breakLine (later : s.lineStart < lineStart) (fits : lineStart ≤ text.length) :
    (s.breakLine length i lineStart).left text < s.left text := by
  have less : text.length - lineStart + 1 ≤ text.length - s.lineStart := by omega
  have rows := Nat.mul_le_mul_right (text.length + 1) less
  rw [Nat.add_mul, Nat.one_mul] at rows
  simp only [Layout.left, Layout.breakLine]
  omega

/-- A turn that finds a space to break at keeps the lines sound, and comes closer to the end. -/
theorem Sound.turn (sound : Sound text s) (breakable : Breakable text columns s)
    (step : turn text columns s = .inl s') : Sound text s' ∧ s'.left text < s.left text := by
  obtain ⟨inside, chr, csize, read, cases⟩ := turn_cases step
  have char := isChar_of_utf8ToUcs4 read
  have positive := char.positive
  have here : Boundary text s.i := by
    rcases sound.place with here | ⟨p, boundary, before⟩
    · exact here
    · exact boundary.of_lt before read
  have after : Boundary text (s.i + csize) := .next here read
  have order := sound.order
  have whole : s.lineStart + (s.i - s.lineStart) = s.i := by omega
  have plain (other : isTerminator chr = false) :
      ∀ p, s.lineStart ≤ p → p < s.i + csize → ¬ IsBreak (byteAt text p) := by
    intro p low high
    rcases Nat.lt_or_ge p s.i with earlier | own
    · exact sound.plain p low earlier
    · exact char.plain other own high
  rcases cases with ⟨term, rfl⟩ | ⟨other, full, blank, rfl⟩ | ⟨other, full, missing, rfl⟩ |
    ⟨other, room, rfl⟩
  · obtain ⟨rfl, line⟩ := char.terminator term
    by_cases pair : isPair text s.i = true
    · rw [terminatorEnd, if_pos pair]
      simp only [isPair, Bool.and_eq_true, decide_eq_true_iff, Bool.or_eq_true,
        beq_iff_eq] at pair
      have second : Boundary text (s.i + 1 + 1) := .next after (utf8ToUcs4_break pair.1.1 pair.2)
      refine ⟨sound.breakLine (whole.symm ▸ here) (by omega) second (by omega) (by omega) ?_
        (le_refl _) (Or.inl second) (by omega), left_breakLine (by omega) second.le⟩
      intro p low high
      rcases Nat.lt_or_ge s.i p with more | less
      · rw [show p = s.i + 1 by omega]
        exact pair.2
      · rw [show p = s.i by omega]
        exact line
    · rw [terminatorEnd, if_neg pair]
      refine ⟨sound.breakLine (whole.symm ▸ here) (by omega) after (by omega) (by omega) ?_
        (le_refl _) (Or.inl after) (by omega), left_breakLine (by omega) after.le⟩
      intro p low high
      rw [show p = s.i by omega]
      exact line
  · obtain ⟨low, high, space⟩ := sound.space blank
    have size : s.lineStart + (s.space + 1 - s.lineStart) = s.space + 1 := by omega
    refine ⟨sound.breakLine (size.symm ▸ space) (by omega) space (by omega) (by omega)
      (by omega) (by omega) (Or.inr ⟨_, after, by omega⟩) ?_, left_breakLine (by omega) space.le⟩
    intro p first last
    exact plain other p (by omega) (by omega)
  · obtain ⟨_, _, again, fine⟩ := breakable inside
    rw [read, Option.some_inj, Prod.mk.injEq] at again
    obtain ⟨rfl, rfl⟩ := again
    rcases fine with term | room | blank
    · exact absurd term (by simp [other])
    · omega
    · exact absurd missing blank
  · refine ⟨⟨sound.start, Nat.le_add_right_of_le order, Or.inl after, plain other, ?_,
      sound.first, sound.whole, sound.follow⟩, ?_⟩
    · intro found
      by_cases blank : chr = 32
      · simp only [if_pos blank] at found ⊢
        have one := char.space blank
        subst one
        exact ⟨order, by omega, after⟩
      · simp only [if_neg blank] at found ⊢
        obtain ⟨low, high, space⟩ := sound.space found
        exact ⟨low, by omega, space⟩
    · simp only [Layout.left]
      omega

/-- At the end of the text the lines cover it. -/
theorem Sound.covers (sound : Sound text s) {result : Option (List TextplainLine)}
    (breakable : Breakable text columns s) (last : Textplain.turn text columns s = .inr result) :
    ∃ lines, result = some lines ∧ Covers text lines := by
  rcases turn_last last with ⟨inside, unread, _⟩ | ⟨outside, closed⟩
  · obtain ⟨chr, csize, read, _⟩ := breakable inside
    rw [unread] at read
    cases read
  · have here : Boundary text s.i := by
      rcases sound.place with here | ⟨p, boundary, before⟩
      · exact here
      · have := boundary.le
        omega
    have order := sound.order
    have stop : s.lineStart + (s.i - s.lineStart) = s.i := by omega
    have size : s.i = text.length := by
      have := here.le
      omega
    refine ⟨_, closed, ?_, ?_, follow_last sound.follow rfl, ?_⟩
    · have first := sound.first
      cases lines : s.lines with
      | nil =>
          rw [lines] at first
          exact first
      | cons a rest =>
          rw [lines] at first
          exact first
    · intro l own
      rcases List.mem_append.mp own with old | new
      · exact sound.whole l old
      · rw [List.mem_singleton.mp new]
        refine ⟨sound.start, ?_, ?_⟩
        · rw [TextplainLine.stop, stop]
          exact here
        · intro p low high
          rw [TextplainLine.stop, stop] at high
          exact sound.plain p low high
    · rw [List.getLast?_concat, Option.map_some, TextplainLine.stop, stop, size]

theorem sound_start : Sound text Layout.start :=
  ⟨.start, le_refl _, Or.inl .start, fun p _ before => absurd before (Nat.not_lt_zero p),
    fun other => absurd rfl other, rfl, by simp [Layout.start], List.isChain_singleton _⟩

/-- A turn closes the open line or leaves it open, and does not start one behind its place. -/
theorem turn_spec (step : turn text columns s = .inl s') :
    (s.lineStart ≤ s.i → s'.lineStart ≤ s'.i) ∧
      (s'.lines = s.lines ∧ s'.lineStart = s.lineStart ∨
        ∃ length, s'.lines = s.lines ++ [⟨s.lineStart, length⟩]) := by
  obtain ⟨_, chr, csize, read, cases⟩ := turn_cases step
  have positive := (isChar_of_utf8ToUcs4 read).positive
  rcases cases with ⟨_, rfl⟩ | ⟨_, _, _, rfl⟩ | ⟨_, _, _, rfl⟩ | ⟨_, _, rfl⟩
  · exact ⟨fun _ => Nat.add_le_add_left positive _, Or.inr ⟨_, rfl⟩⟩
  · exact ⟨fun _ => Nat.add_le_add_left positive _, Or.inr ⟨_, rfl⟩⟩
  · exact ⟨fun _ => Nat.add_le_add_left positive _, Or.inr ⟨_, rfl⟩⟩
  · exact ⟨Nat.le_add_right_of_le, Or.inl ⟨rfl, rfl⟩⟩

theorem order_of_reached (reached : Loop.Reached (turn text columns) Layout.start s) :
    s.lineStart ≤ s.i := by
  induction reached with
  | start => exact le_refl _
  | next _ step ih => exact (turn_spec step).1 ih

/-- Lines that are closed stay as they are, and the open one keeps its start. -/
theorem lines_of_run {turns : Nat}
    (done : Loop.run (turn text columns) turns s = some (some lines)) :
    ∃ length rest, lines = s.lines ++ ⟨s.lineStart, length⟩ :: rest := by
  induction turns generalizing s with
  | zero => cases done
  | succ turns ih =>
      cases step : turn text columns s with
      | inl s' =>
          rw [Loop.run_of_next step] at done
          obtain ⟨length, rest, grown⟩ := ih done
          rcases (turn_spec step).2 with ⟨same, start⟩ | ⟨closed, more⟩
          · exact ⟨length, rest, by rw [grown, same, start]⟩
          · exact ⟨closed, _, by rw [grown, more, List.append_assoc]; rfl⟩
      | inr result =>
          rw [Loop.run_of_result step, Option.some_inj] at done
          rcases turn_last step with ⟨_, _, none⟩ | ⟨_, closed⟩
          · rw [none] at done
            cases done
          · rw [closed, Option.some_inj] at done
            exact ⟨_, [], done.symm⟩

/-- A character that a line is broken at is on no line. -/
theorem not_covers_of_word (order : s.lineStart ≤ s.i)
    (char : ¬ IsBreak (byteAt text s.i)) {rest : List TextplainLine} :
    ¬ Covers text (s.lines ++
      ⟨s.lineStart, s.i - s.lineStart⟩ :: ⟨s.i + 1, length⟩ :: rest) := by
  intro covers
  have next := (List.isChain_append_cons_cons.mp covers.follow).2.1
  have stop : TextplainLine.stop ⟨s.lineStart, s.i - s.lineStart⟩ = s.i := by
    change s.lineStart + (s.i - s.lineStart) = s.i
    omega
  exact char (next.between s.i (le_of_eq stop) (Nat.lt_succ_self _))

end Rounds

/-- The lines hold the whole text exactly when every place that the loop comes to has a character,
and every line that gets too long has a space. -/
theorem textplainReformat_spec (c : TextplainContent) (characterWidth width : Int) :
    (∃ turns c', textplainReformat turns characterWidth c width = some (some c') ∧
        Covers c.utf8Data c'.physicalLine) ↔
      ∀ s, Loop.Reached (turn c.utf8Data (columnsFor width characterWidth)) Layout.start s →
        Breakable c.utf8Data (columnsFor width characterWidth) s := by
  generalize columns_eq : columnsFor width characterWidth = columns
  constructor
  · rintro ⟨turns, c', done, covers⟩ s reached inside
    rw [textplainReformat, columns_eq, Option.map_eq_some_iff] at done
    obtain ⟨result, done, made⟩ := done
    rw [Option.map_eq_some_iff] at made
    obtain ⟨lines, rfl, rfl⟩ := made
    obtain ⟨later, rest⟩ := Loop.run_of_reached reached done
    cases later with
    | zero => cases rest
    | succ later =>
        cases read : utf8ToUcs4 (c.utf8Data.drop s.i) with
        | none =>
            have stuck : turn c.utf8Data columns s = .inr none := by
              rw [turn, if_pos inside, read]
            rw [Loop.run_of_result stuck] at rest
            cases rest
        | some r =>
            obtain ⟨chr, csize⟩ := r
            refine ⟨chr, csize, rfl, ?_⟩
            by_contra bad
            rw [not_or, not_or, not_not, Nat.not_lt] at bad
            obtain ⟨other, full, missing⟩ := bad
            have step : turn c.utf8Data columns s =
                .inl (s.breakLine (s.i - s.lineStart) (s.i + csize) (s.i + 1)) := by
              rw [turn, if_pos inside, read]
              simp only [if_neg other, if_pos full, missing, ne_eq, not_true_eq_false, if_false]
            have char := isChar_of_utf8ToUcs4 read
            have plain := char.plain (p := s.i) (by simpa using other) (le_refl _)
              (by have := char.positive; omega)
            rw [Loop.run_of_next step] at rest
            obtain ⟨length, more, grown⟩ := lines_of_run rest
            rw [Layout.breakLine, List.append_assoc] at grown
            rw [grown] at covers
            exact not_covers_of_word (order_of_reached reached) plain covers
  · intro breakable
    have keeps (s s' : Layout)
        (good : Sound c.utf8Data s ∧ Loop.Reached (turn c.utf8Data columns) Layout.start s)
        (step : turn c.utf8Data columns s = .inl s') :
        (Sound c.utf8Data s' ∧ Loop.Reached (turn c.utf8Data columns) Layout.start s') ∧
          s'.left c.utf8Data < s.left c.utf8Data := by
      obtain ⟨sound, less⟩ := good.1.turn (breakable s good.2) step
      exact ⟨⟨sound, good.2.next step⟩, less⟩
    have ends (s : Layout) (result : Option (List TextplainLine))
        (good : Sound c.utf8Data s ∧ Loop.Reached (turn c.utf8Data columns) Layout.start s)
        (last : turn c.utf8Data columns s = .inr result) :
        ∃ lines, result = some lines ∧ Covers c.utf8Data lines :=
      good.1.covers (breakable s good.2) last
    obtain ⟨result, done, lines, rfl, covers⟩ := Loop.run_total (Layout.left c.utf8Data) keeps ends
      ⟨sound_start, .start⟩ (Nat.lt_succ_self _)
    refine ⟨Layout.start.left c.utf8Data + 1,
      { c with physicalLine := lines, formattedWidth := width }, ?_, covers⟩
    rw [textplainReformat, columns_eq, done]
    rfl

/-- A text of two letters for two columns loses the second one. -/
theorem reformat_loses_letter :
    textplainReformat 4 64 ⟨str "ab", [], 0⟩ 24 = some (some ⟨str "ab", [⟨0, 1⟩, ⟨2, 0⟩], 24⟩) ∧
      ¬ ∃ turns c', textplainReformat turns 64 ⟨str "ab", [], 0⟩ 24 = some (some c') ∧
        Covers (str "ab") c'.physicalLine := by
  have short : textplainReformat 4 64 ⟨str "ab", [], 0⟩ 24 =
      some (some ⟨str "ab", [⟨0, 1⟩, ⟨2, 0⟩], 24⟩) := by decide
  refine ⟨short, ?_⟩
  rintro ⟨turns, c', done, covers⟩
  rw [textplainReformat, Option.map_eq_some_iff] at done short
  obtain ⟨lines, first, made⟩ := short
  obtain ⟨others, second, own⟩ := done
  rw [← Loop.run_unique first second, made, Option.some_inj] at own
  rw [← own] at covers
  have gap := (List.isChain_cons_cons.mp covers.follow).1.between 1 (by decide) (by decide)
  exact absurd gap (by decide)

/-- What is drained is the stream with other bytes for each NUL. -/
theorem drain_eq (offset data : Bytes) (stream : List Bytes) :
    drain offset data stream =
      data ++ offset ++ stream.flatMap fun ch => if ch = [0] then uFffd else ch := by
  induction stream generalizing offset data with
  | nil => simp [drain]
  | cons ch stream ih =>
      rw [drain, List.flatMap_cons]
      by_cases nul : ch = [0]
      · rw [if_pos nul, if_pos nul, ih]
        simp
      · rw [if_neg nul, if_neg nul]
        split <;> rw [ih] <;> simp

end Neosurf.Textplain
