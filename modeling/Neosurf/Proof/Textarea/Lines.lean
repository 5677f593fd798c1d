/-
This file proves that the lines which the layout loop would add cover the text, and what
`textarea_normalise_text` makes of a piece of text.
-/

import Mathlib.Data.List.GetD
import Mathlib.Tactic.Common
import Neosurf.Construction.Textarea

namespace Neosurf.Editing

/-- The rest of the paragraph from a place on. -/
def paragraph (rest : Bytes) : Bytes := rest.takeWhile (· ≠ chr '\n')

/-- This is what the layout relies on: a split is at a space or at the end, and not at the start
unless nothing is given. -/
structure SplitsText (split : Split) : Prop where
  nothing : ∀ width, (split [] width).1 = 0
  inside : ∀ para width, para ≠ [] →
    1 ≤ (split para width).1 ∧ (split para width).1 ≤ para.length
  place : ∀ para width, para ≠ [] →
    (split para width).1 = para.length ∨ byteAt para (split para width).1 = chr ' '

variable {split : Split} {avail : Int} {rest : Bytes} {start : Nat}

theorem length_paragraph_le (rest : Bytes) : (paragraph rest).length ≤ rest.length :=
  (List.takeWhile_sublist _).length_le

/-- The paragraph ends with the text or at a newline. -/
theorem paragraph_end (rest : Bytes) :
    paragraph rest = rest ∨ byteAt rest (paragraph rest).length = chr '\n' := by
  induction rest with
  | nil => exact Or.inl rfl
  | cons c rest ih =>
      by_cases newline : c = chr '\n'
      · refine Or.inr ?_
        rw [paragraph, List.takeWhile_cons_of_neg (by simpa using newline)]
        exact newline
      · rw [paragraph, List.takeWhile_cons_of_pos (by simpa using newline)]
        refine ih.imp (fun whole => ?_) fun found => ?_
        · rw [← paragraph, whole]
        · rw [List.length_cons]
          exact found

/-- A byte of the paragraph is the text's byte and no newline. -/
theorem byteAt_paragraph {i : Nat} (inside : i < (paragraph rest).length) :
    byteAt (paragraph rest) i = byteAt rest i ∧ byteAt rest i ≠ chr '\n' := by
  induction rest generalizing i with
  | nil => cases inside
  | cons c rest ih =>
      by_cases newline : c = chr '\n'
      · rw [paragraph, List.takeWhile_cons_of_neg (by simpa using newline)] at inside
        cases inside
      · have split : paragraph (c :: rest) = c :: paragraph rest :=
          List.takeWhile_cons_of_pos (by simpa using newline)
        rw [split] at inside ⊢
        cases i with
        | zero => exact ⟨rfl, newline⟩
        | succ i => exact ih (Nat.lt_of_succ_lt_succ inside)

/-- A line ends at a newline, behind a space or with the text. -/
inductive LineEnd (split : Split) (avail : Int) (rest : Bytes) (start : Nat) : LaidLine → Prop
  | newline (place : (split (paragraph rest) avail).1 = (paragraph rest).length)
      (found : byteAt rest (paragraph rest).length = chr '\n')
      (more : (paragraph rest).length + 1 < rest.length) :
      LineEnd split avail rest start
        ⟨[⟨start, (paragraph rest).length, (split (paragraph rest) avail).2⟩],
          (paragraph rest).length + 1, (split (paragraph rest) avail).2⟩
  | lastNewline (place : (split (paragraph rest) avail).1 = (paragraph rest).length)
      (found : byteAt rest (paragraph rest).length = chr '\n')
      (last : (paragraph rest).length + 1 = rest.length) :
      LineEnd split avail rest start
        ⟨[⟨start, (paragraph rest).length, (split (paragraph rest) avail).2⟩,
          ⟨start + (paragraph rest).length + 1, 0, (split (paragraph rest) avail).2⟩],
          (paragraph rest).length + 1, (split (paragraph rest) avail).2⟩
  | space (off : Nat) (place : (split (paragraph rest) avail).1 = off) (behind : off ≠ 0)
      (found : byteAt rest off = chr ' ') (inside : off < (paragraph rest).length) :
      LineEnd split avail rest start
        ⟨[⟨start, off + 1, (split (paragraph rest) avail).2⟩], off + 1,
          (split (paragraph rest) avail).2⟩
  | whole (all : paragraph rest = rest) :
      LineEnd split avail rest start
        ⟨[⟨start, rest.length, (split (paragraph rest) avail).2⟩], rest.length,
          (split (paragraph rest) avail).2⟩

theorem byteAt_end (text : Bytes) : byteAt text text.length = 0 := by
  simp [byteAt]

/-- A newline is a byte of the text. -/
theorem lt_length_of_newline {text : Bytes} {i : Nat} (newline : byteAt text i = chr '\n') :
    i < text.length := by
  by_contra outside
  rw [byteAt, List.getD_eq_default _ _ (by omega)] at newline
  exact absurd newline (by decide)

theorem byteAt_lastSpace {text : Bytes} {i : Nat} (found : byteAt text i = chr ' ')
    (behind : i ≠ 0) : lastSpace text i = i := by
  obtain ⟨i, rfl⟩ := Nat.exists_eq_succ_of_ne_zero behind
  exact if_pos found

/-- The split is at the end of the paragraph or at a space of it. -/
theorem split_place (splits : SplitsText split) (avail : Int) (rest : Bytes) :
    (split (paragraph rest) avail).1 = (paragraph rest).length ∨
      (split (paragraph rest) avail).1 ≠ 0 ∧
        (split (paragraph rest) avail).1 < (paragraph rest).length ∧
        byteAt rest (split (paragraph rest) avail).1 = chr ' ' := by
  by_cases empty : paragraph rest = []
  · left
    rw [empty, splits.nothing]
    rfl
  · obtain ⟨low, high⟩ := splits.inside (paragraph rest) avail empty
    rcases Nat.lt_or_eq_of_le high with inside | same
    · right
      refine ⟨Nat.ne_of_gt low, inside, ?_⟩
      rw [← (byteAt_paragraph inside).1]
      exact (splits.place _ avail empty).resolve_left (Nat.ne_of_lt inside)
    · exact Or.inl same

/-- What a round lays out, once it is known where the split is. -/
theorem layLine_end (splits : SplitsText split) (avail : Int) (rest : Bytes) (start : Nat) :
    LineEnd split avail rest start (layLine split avail rest start) := by
  have para : rest.takeWhile (· ≠ chr '\n') = paragraph rest := rfl
  rw [layLine, para]
  rcases split_place splits avail rest with atEnd | ⟨behind, inside, space⟩
  · rcases paragraph_end rest with whole | newline
    · have last : byteAt rest (paragraph rest).length ≠ chr '\n' := by
        rw [whole, byteAt_end]
        decide
      simp only [atEnd, last, and_false, if_false]
      have all : LineEnd split avail rest start ⟨[⟨start, rest.length,
          (split (paragraph rest) avail).2⟩], rest.length, (split (paragraph rest) avail).2⟩ :=
        LineEnd.whole whole
      rw [if_pos (Or.inl (by rw [whole])), whole]
      rwa [whole] at all
    · simp only [atEnd, newline, and_self, if_true]
      split_ifs with last
      · exact LineEnd.lastNewline atEnd newline last.symm
      · have := lt_length_of_newline newline
        exact LineEnd.newline atEnd newline (by omega)
  · have noEnd : ¬ ((split (paragraph rest) avail).1 = (paragraph rest).length ∧
        byteAt rest (split (paragraph rest) avail).1 = chr '\n') := by omega
    have soft : ¬ (rest.length = (split (paragraph rest) avail).1 ∨
        lastSpace rest (split (paragraph rest) avail).1 = 0) := by
      rw [byteAt_lastSpace space behind]
      have := length_paragraph_le rest
      omega
    simp only [noEnd, soft, if_false]
    rw [byteAt_lastSpace space behind]
    exact LineEnd.space _ rfl behind space inside

/-- Every round takes some of the text, and no more than there is. -/
theorem LineEnd.bOff {laid : LaidLine} (ends : LineEnd split avail rest start laid)
    (some : rest ≠ []) : 0 < laid.bOff ∧ laid.bOff ≤ rest.length := by
  have := length_paragraph_le rest
  cases ends with
  | newline place found more => exact ⟨Nat.succ_pos _, Nat.le_of_lt more⟩
  | lastNewline place found last => exact ⟨Nat.succ_pos _, Nat.le_of_eq last⟩
  | space off place behind found inside => exact ⟨Nat.succ_pos _, by show off + 1 ≤ _; omega⟩
  | whole all => exact ⟨List.length_pos_of_ne_nil some, le_refl _⟩

/-- A round's lines start where the round does and have its width. -/
theorem LineEnd.lines {laid : LaidLine} (ends : LineEnd split avail rest start laid) :
    ∃ line more, laid.lines = line :: more ∧ line.bStart = start ∧ line.width = laid.width ∧
      ∀ last ∈ more, last.width = laid.width ∧ last.bStart = start + laid.bOff ∧
        rest.length = laid.bOff := by
  cases ends with
  | newline place found more => exact ⟨_, [], rfl, rfl, rfl, fun _ inside => by cases inside⟩
  | lastNewline place found last =>
      refine ⟨_, _, rfl, rfl, rfl, fun line inside => ?_⟩
      obtain rfl := List.mem_singleton.mp inside
      exact ⟨rfl, Nat.add_assoc _ _ _, last.symm⟩
  | space off place behind found inside =>
      exact ⟨_, [], rfl, rfl, rfl, fun _ inside => by cases inside⟩
  | whole all => exact ⟨_, [], rfl, rfl, rfl, fun _ inside => by cases inside⟩

/-- The lines that the loop adds when it is not stopped. -/
def laidLines (split : Split) (avail : Int) : Nat → Bytes → Nat → List LineInfo
  | _, [], _ => []
  | 0, _ :: _, _ => []
  | rounds + 1, rest, start =>
      let laid := layLine split avail rest start
      laid.lines ++ laidLines split avail rounds (rest.drop laid.bOff) (start + laid.bOff)

/-- The lines of a whole text. -/
def textLines (split : Split) (avail : Int) (text : Bytes) : List LineInfo :=
  if text = [] then [⟨0, 0, 0⟩] else laidLines split avail text.length text 0

/-- More rounds than bytes change nothing. -/
theorem laidLines_rounds (splits : SplitsText split) {rounds more : Nat}
    (enough : rest.length ≤ rounds) (also : rest.length ≤ more) :
    laidLines split avail rounds rest start = laidLines split avail more rest start := by
  induction rounds generalizing rest start more with
  | zero =>
      obtain rfl := List.length_eq_zero_iff.mp (Nat.le_zero.mp enough)
      simp [laidLines]
  | succ rounds ih =>
      cases rest with
      | nil => simp [laidLines]
      | cons c rest =>
          obtain ⟨more, rfl⟩ := Nat.exists_eq_succ_of_ne_zero
            (show more ≠ 0 by rintro rfl; cases also)
          obtain ⟨positive, _⟩ := (layLine_end splits avail (c :: rest)
            start).bOff (List.cons_ne_nil c rest)
          simp only [laidLines]
          congr 1
          refine ih ?_ ?_ <;> simp only [List.length_drop, List.length_cons] at * <;> omega

theorem laidLines_nil {rounds : Nat} : laidLines split avail rounds [] start = [] := by
  cases rounds <;> rfl

theorem laidLines_step (splits : SplitsText split) (avail : Int) (start : Nat) (some : rest ≠ [])
    {rounds : Nat} (enough : rest.length ≤ rounds) :
    laidLines split avail rounds rest start =
      (layLine split avail rest start).lines ++
        laidLines split avail rounds (rest.drop (layLine split avail rest start).bOff)
          (start + (layLine split avail rest start).bOff) := by
  have positive := ((layLine_end splits avail rest start).bOff some).1
  cases rounds with
  | zero => exact absurd (List.length_eq_zero_iff.mp (Nat.le_zero.mp enough)) some
  | succ rounds =>
      cases rest with
      | nil => exact absurd rfl some
      | cons c rest =>
          simp only [laidLines]
          congr 1
          refine laidLines_rounds splits ?_ ?_ <;>
            simp only [List.length_drop, List.length_cons] at * <;> omega

/-- The first line starts where the rest of the text does. -/
theorem laidLines_head (splits : SplitsText split) (avail : Int) (start : Nat)
    (some : rest ≠ []) {rounds : Nat} (enough : rest.length ≤ rounds) :
    ∃ line later, laidLines split avail rounds rest start = line :: later ∧
      line.bStart = start := by
  obtain ⟨line, more, lines, first, -⟩ :=
    (layLine_end splits avail rest start).lines
  rw [laidLines_step splits avail start some enough, lines]
  exact ⟨line, _, rfl, first⟩

/-- Lines that start at a place of the text, follow each other with nothing or one newline between
them, and end with the text. -/
def CoversFrom (text : Bytes) : Nat → List LineInfo → Prop
  | _, [] => False
  | start, [line] => line.bStart = start ∧ start + line.bLength = text.length
  | start, line :: next :: lines =>
      line.bStart = start ∧
        (CoversFrom text (start + line.bLength) (next :: lines) ∨
          byteAt text (start + line.bLength) = chr '\n' ∧
            CoversFrom text (start + line.bLength + 1) (next :: lines))

/-- The lines cover the whole text. -/
def Covers (text : Bytes) (lines : List LineInfo) : Prop := CoversFrom text 0 lines

theorem byteAt_drop_text (text : Bytes) (start i : Nat) :
    byteAt (text.drop start) i = byteAt text (start + i) := by
  simp [byteAt]

theorem coversFrom_cons {text : Bytes} {line : LineInfo} {lines : List LineInfo}
    (first : line.bStart = start)
    (later : CoversFrom text (start + line.bLength) lines ∨
      byteAt text (start + line.bLength) = chr '\n' ∧
        CoversFrom text (start + line.bLength + 1) lines) :
    CoversFrom text start (line :: lines) := by
  cases lines with
  | nil => exact (later.elim id And.right).elim
  | cons next lines => exact ⟨first, later⟩

/-- The induction is on the rounds; every line's end is where the next one starts, or a newline
is between them. -/
theorem coversFrom_laidLines (splits : SplitsText split) {text : Bytes} {rounds : Nat}
    (inside : start < text.length) (enough : text.length - start ≤ rounds) :
    CoversFrom text start (laidLines split avail rounds (text.drop start) start) := by
  induction rounds generalizing start with
  | zero => omega
  | succ rounds ih =>
      have some : text.drop start ≠ [] := by simpa using inside
      have length : (text.drop start).length = text.length - start := List.length_drop
      have next : ∀ off, 0 < off → start + off < text.length →
          CoversFrom text (start + off)
            (laidLines split avail (rounds + 1) ((text.drop start).drop off) (start + off)) := by
        intro off positive more
        have same : laidLines split avail (rounds + 1) (text.drop (start + off)) (start + off) =
            laidLines split avail rounds (text.drop (start + off)) (start + off) :=
          laidLines_rounds splits (by rw [List.length_drop]; omega)
            (by rw [List.length_drop]; omega)
        rw [List.drop_drop, same]
        exact ih more (by omega)
      rw [laidLines_step splits avail start some (by omega)]
      have ends := layLine_end splits avail (text.drop start) start
      generalize layLine split avail (text.drop start) start = laid at ends
      cases ends with
      | newline place found more =>
          rw [byteAt_drop_text] at found
          have later := next ((paragraph (text.drop start)).length + 1) (Nat.succ_pos _) (by omega)
          exact coversFrom_cons rfl (Or.inr ⟨found, later⟩)
      | lastNewline place found last =>
          rw [byteAt_drop_text] at found
          rw [List.drop_eq_nil_of_le (Nat.le_of_eq last.symm), laidLines_nil]
          refine coversFrom_cons rfl (Or.inr ⟨found, rfl, ?_⟩)
          show start + (paragraph (text.drop start)).length + 1 + 0 = text.length
          omega
      | space off place behind found within =>
          have := length_paragraph_le (text.drop start)
          rcases Nat.lt_or_eq_of_le (show start + (off + 1) ≤ text.length by omega) with
            more | last
          · exact coversFrom_cons rfl (Or.inl (next _ (Nat.succ_pos _) more))
          · have none : (text.drop start).drop (off + 1) = [] :=
              List.drop_eq_nil_of_le (by omega)
            rw [none, laidLines_nil]
            exact ⟨rfl, last⟩
      | whole all =>
          rw [List.drop_length, laidLines_nil]
          refine ⟨rfl, ?_⟩
          show start + (text.drop start).length = text.length
          omega

theorem covers_textLines (splits : SplitsText split) (text : Bytes) :
    Covers text (textLines split avail text) := by
  rw [Covers, textLines]
  split_ifs with empty
  · subst empty
    exact ⟨rfl, rfl⟩
  · exact coversFrom_laidLines splits (List.length_pos_of_ne_nil empty) (Nat.sub_le _ _)

end Neosurf.Editing

namespace Neosurf.Editing

variable (multi : Bool)

/-- A byte that the normalisation keeps. -/
def Plain (c : Byte) : Prop := c ≠ chr '\r' ∧ (multi = true ∨ c ≠ chr '\n')

/-- A text without carriage returns, and without newlines in a textarea of one line. -/
def Clean (text : Bytes) : Prop := ∀ c ∈ text, Plain multi c

/-- This is what a line break becomes. -/
def lineBreak : Byte := if multi then chr '\n' else chr ' '

variable {multi} {text front tail : Bytes} {c : Byte}

theorem plain_lineBreak : Plain multi (lineBreak multi) := by
  cases multi
  · exact ⟨by decide, Or.inr (by decide)⟩
  · exact ⟨by decide, Or.inl rfl⟩

theorem Clean.append (l : Clean multi text) (r : Clean multi tail) : Clean multi (text ++ tail) :=
  fun c inside => (List.mem_append.mp inside).elim (l c) (r c)

theorem clean_append : Clean multi (text ++ tail) ↔ Clean multi text ∧ Clean multi tail :=
  List.forall_mem_append

theorem clean_cons : Clean multi (c :: text) ↔ Plain multi c ∧ Clean multi text :=
  List.forall_mem_cons

theorem clean_nil : Clean multi [] := fun _ inside => by cases inside

/-- The terminator is plain too. -/
theorem Clean.plain_byteAt (clean : Clean multi text) (index : Nat) :
    Plain multi (byteAt text index) := by
  by_cases inside : index < text.length
  · rw [byteAt, List.getD_eq_getElem _ _ inside]
    exact clean _ (List.getElem_mem inside)
  · rw [byteAt, List.getD_eq_default _ _ (by omega)]
    exact ⟨by decide, Or.inr (by decide)⟩

theorem byteAt_front : byteAt (front ++ tail) front.length = byteAt tail 0 := by
  rw [byteAt, List.getD_append_right _ _ _ _ (le_refl _), Nat.sub_self, byteAt]

theorem byteAt_after : byteAt (front ++ c :: tail) (front.length + 1) = byteAt tail 0 := by
  rw [byteAt, List.getD_append_right _ _ _ _ (by omega)]
  simp [byteAt]

theorem normaliseByte_plain {index : Nat} (plain : Plain multi (byteAt text index)) :
    normaliseByte multi text index = text := by
  obtain ⟨noReturn, kept⟩ := plain
  simp only [normaliseByte, if_neg noReturn]
  cases multi with
  | true => rfl
  | false => simp [show byteAt text index ≠ chr '\n' by simpa using kept]

theorem set_front : (front ++ c :: tail).set front.length b = front ++ b :: tail := by
  rw [List.set_append_right _ _ (le_refl _), Nat.sub_self, List.set_cons_zero]

/-- Once the carriage return is gone, a newline is left at its place. -/
theorem normaliseByte_newline (newline : byteAt text front.length = chr '\r')
    (left : (if byteAt text (front.length + 1) = chr '\n' then text.eraseIdx front.length
      else text.set front.length (chr '\n')) = front ++ chr '\n' :: tail) :
    normaliseByte multi text front.length = front ++ lineBreak multi :: tail := by
  simp only [normaliseByte, if_pos newline, left, byteAt_front]
  cases multi with
  | true => rfl
  | false => simp [byteAt, lineBreak]

variable (multi front tail) in
theorem normaliseByte_pair :
    normaliseByte multi (front ++ chr '\r' :: chr '\n' :: tail) front.length =
      front ++ lineBreak multi :: tail := by
  refine normaliseByte_newline (by simp [byteAt]) ?_
  rw [byteAt_after, if_pos (by simp [byteAt]), List.eraseIdx_append_of_length_le (le_refl _),
    Nat.sub_self, List.eraseIdx_cons_zero]

variable (front) in
theorem normaliseByte_return (alone : byteAt tail 0 ≠ chr '\n') :
    normaliseByte multi (front ++ chr '\r' :: tail) front.length =
      front ++ lineBreak multi :: tail := by
  refine normaliseByte_newline (by simp [byteAt]) ?_
  rw [byteAt_after, if_neg alone, set_front]

variable (front tail) in
theorem normaliseByte_single :
    normaliseByte false (front ++ chr '\n' :: tail) front.length =
      front ++ lineBreak false :: tail := by
  have here : byteAt (front ++ chr '\n' :: tail) front.length = chr '\n' := by
    simp [byteAt]
  have noReturn : chr '\n' ≠ chr '\r' := by decide
  simp only [normaliseByte, here, if_neg noReturn]
  simp [lineBreak]

/-- Plain text is kept. -/
theorem normaliseText_kept (n start : Nat)
    (plain : ∀ index, start ≤ index → Plain multi (byteAt text index)) :
    normaliseText multi text start n = text := by
  induction n generalizing start with
  | zero => rfl
  | succ n ih =>
      rw [normaliseText, normaliseByte_plain (plain start (le_refl _))]
      exact ih (start + 1) fun index later => plain index (by omega)

/-- What becomes of a piece of text. -/
structure Normalised (multi : Bool) (rep found : Bytes) : Prop where
  clean : Clean multi found
  length_le : found.length ≤ rep.length
  kept : Clean multi rep → found = rep

/-- The piece at the front's end is normalised, and the text around it stays. -/
def Normalises (multi : Bool) (front rest tail : Bytes) (rounds : Nat) : Prop :=
  ∃ found, normaliseText multi (front ++ rest ++ tail) front.length rounds =
    front ++ found ++ tail ∧ Normalised multi rest found

/-- Only the text around the piece is left. -/
theorem normalises_nil (clean : Clean multi tail) (n : Nat) :
    Normalises multi front [] tail n := by
  refine ⟨[], ?_, clean_nil, le_refl _, fun _ => rfl⟩
  refine normaliseText_kept _ _ fun index later => ?_
  rw [List.append_nil, byteAt, List.getD_append_right _ _ _ _ later]
  exact clean.plain_byteAt _

/-- What one round leaves at the place is plain, and the next round starts behind it. -/
theorem Normalises.behind {b : Byte} {rest left : Bytes} {n : Nat}
    (later : Normalises multi (front ++ [b]) left tail n)
    (round : normaliseByte multi (front ++ c :: rest ++ tail) front.length =
      front ++ b :: left ++ tail)
    (plain : Plain multi b) (fewer : left.length ≤ rest.length)
    (same : Clean multi (c :: rest) → b = c ∧ left = rest) :
    Normalises multi front (c :: rest) tail (n + 1) := by
  obtain ⟨found, run, spec⟩ := later
  refine ⟨b :: found, ?_, clean_cons.mpr ⟨plain, spec.clean⟩, ?_, fun kept => ?_⟩
  · rw [normaliseText, round]
    simpa using run
  · simpa using le_trans spec.length_le fewer
  · obtain ⟨rfl, rfl⟩ := same kept
    rw [spec.kept (clean_cons.mp kept).2]

/-- A carriage return in front of a newline of the text goes. -/
theorem normalises_return (clean : Clean multi tail) (pair : byteAt tail 0 = chr '\n') (n : Nat) :
    Normalises multi front [chr '\r'] tail (n + 1) := by
  cases tail with
  | nil => exact absurd pair (by decide)
  | cons c tail =>
      obtain rfl : c = chr '\n' := pair
      have kept : multi = true := (clean_cons.mp clean).1.2.resolve_right fun other => other rfl
      have newline : lineBreak multi = chr '\n' := by rw [lineBreak, if_pos kept]
      refine ⟨[], ?_, clean_nil, Nat.zero_le _, fun dirty => ?_⟩
      · have round := normaliseByte_pair multi front tail
        rw [normaliseText]
        simp only [List.append_assoc, List.singleton_append, List.nil_append]
        rw [round, newline]
        refine normaliseText_kept _ _ fun index later => ?_
        rw [byteAt, List.getD_append_right _ _ _ _ (by omega)]
        exact clean.plain_byteAt _
      · exact ((clean_cons.mp dirty).1.1 rfl).elim

/-- The induction is on the number of rounds, which may go on in the text after the piece. -/
theorem normalises_piece {n : Nat} (front : Bytes) {rest : Bytes} (clean : Clean multi tail)
    (enough : rest.length ≤ n) : Normalises multi front rest tail n := by
  induction n generalizing front rest with
  | zero =>
      obtain rfl := List.length_eq_zero_iff.mp (Nat.le_zero.mp enough)
      exact normalises_nil clean 0
  | succ n ih =>
      cases rest with
      | nil => exact normalises_nil clean (n + 1)
      | cons c rest =>
          have short : rest.length ≤ n := Nat.le_of_succ_le_succ enough
          by_cases plain : Plain multi c
          · refine (ih _ short).behind (normaliseByte_plain ?_) plain (le_refl _) fun _ =>
              ⟨rfl, rfl⟩
            simpa [byteAt] using plain
          have dirty : ∀ {P : Prop}, Clean multi (c :: rest) → P := fun kept =>
            (plain (clean_cons.mp kept).1).elim
          by_cases newline : c = chr '\r'
          · subst newline
            by_cases pair : byteAt (rest ++ tail) 0 = chr '\n'
            · cases rest with
              | nil => exact normalises_return clean pair n
              | cons d rest =>
                  obtain rfl : d = chr '\n' := by simpa [byteAt] using pair
                  refine (ih _ (Nat.le_of_succ_le short)).behind ?_ plain_lineBreak
                    (Nat.le_succ _) dirty
                  simpa using normaliseByte_pair multi front (rest ++ tail)
            · refine (ih _ short).behind ?_ plain_lineBreak (le_refl _) dirty
              simpa using normaliseByte_return front pair
          · obtain ⟨rfl, rfl⟩ : multi = false ∧ c = chr '\n' := by
              simpa [Plain, newline] using plain
            refine (ih _ short).behind ?_ plain_lineBreak (le_refl _) dirty
            simpa using normaliseByte_single front (rest ++ tail)

end Neosurf.Editing
