/-
This file proves that a reflow from the line before an edit does what a reflow from the first line
does, and that the lines of a multiline textarea cover its text after every edit.
-/

import Neosurf.Proof.Textarea.Bars

namespace Neosurf.Editing

open TextLayout

variable {split : Split} {s : TextLayout} {avail : Int} {text old rest : Bytes} {start b : Nat}

/-- A newline ends the paragraph of every text that has the same bytes before it. -/
theorem paragraph_agree {rest other : Bytes} {n : Nat} (length : (paragraph rest).length = n)
    (newline : byteAt rest n = chr '\n') (same : other.take (n + 1) = rest.take (n + 1)) :
    paragraph other = paragraph rest := by
  induction rest generalizing other n with
  | nil =>
      obtain rfl : 0 = n := length
      exact absurd newline (by decide)
  | cons c rest ih =>
      cases other with
      | nil => cases same
      | cons d other =>
          obtain ⟨rfl, tails⟩ := List.cons.inj same
          by_cases isNewline : d = chr '\n'
          · rw [paragraph, paragraph, List.takeWhile_cons_of_neg (by simpa using isNewline),
              List.takeWhile_cons_of_neg (by simpa using isNewline)]
          · have parts : ∀ l, paragraph (d :: l) = d :: paragraph l := fun l =>
              List.takeWhile_cons_of_pos (by simpa using isNewline)
            rw [parts] at length ⊢
            rw [parts]
            cases n with
            | zero => cases length
            | succ n => rw [ih (Nat.succ.inj length) newline tails]

theorem byteAt_agree (agree : text.take b = old.take b) {i : Nat} (before : i < b) :
    byteAt text i = byteAt old i := by
  have := congrArg (fun l => l.getD i 0) agree
  simpa [byteAt, List.getD_eq_getElem?_getD, List.getElem?_take, before] using this

theorem length_agree (agree : text.take b = old.take b) (inside : b ≤ old.length) :
    b ≤ text.length := by
  have := congrArg List.length agree
  rw [List.length_take, List.length_take] at this
  omega

/-- A round that ends before the edit is the same in the old and in the new text. -/
theorem layLine_agree (splits : SplitsText split) (agree : text.take b = old.take b)
    (inside : b ≤ old.length)
    (before : start + (layLine split avail (old.drop start) start).bOff < b)
    (same : split (paragraph (text.drop start)) avail = split (paragraph (old.drop start)) avail) :
    layLine split avail (text.drop start) start = layLine split avail (old.drop start) start ∧
      ∃ line, (layLine split avail (old.drop start) start).lines = [line] ∧
        line.bStart = start := by
  have long := length_agree agree inside
  have para : (text.drop start).takeWhile (· ≠ chr '\n') = paragraph (text.drop start) := rfl
  have bytes : ∀ i, start + i < b → byteAt (text.drop start) i = byteAt (old.drop start) i := by
    intro i low
    rw [byteAt_drop_text, byteAt_drop_text, byteAt_agree agree low]
  have ends := layLine_end splits avail (old.drop start) start
  generalize layLine split avail (old.drop start) start = laid at ends before
  cases ends with
  | newline place found more =>
      have low : start + (paragraph (old.drop start)).length + 1 < b := before
      refine ⟨?_, _, rfl, rfl⟩
      have taken : (text.drop start).take ((paragraph (old.drop start)).length + 1) =
          (old.drop start).take ((paragraph (old.drop start)).length + 1) := by
        rw [List.take_drop, List.take_drop, ← Nat.min_eq_left (by omega :
          start + ((paragraph (old.drop start)).length + 1) ≤ b), ← List.take_take,
          ← List.take_take, agree]
      have paras := paragraph_agree rfl found taken
      have noLast : ¬ (text.drop start).length = (paragraph (old.drop start)).length + 1 := by
        rw [List.length_drop]
        omega
      have here := bytes (paragraph (old.drop start)).length (by omega)
      simp only [layLine, para, paras, place, here, found, and_self, if_true, noLast, if_false]
  | lastNewline place found last =>
      have low : start + ((paragraph (old.drop start)).length + 1) < b := before
      rw [last, List.length_drop] at low
      omega
  | space off place behind found within =>
      have low : start + (off + 1) < b := before
      refine ⟨?_, _, rfl, rfl⟩
      have here := bytes off (by omega)
      rw [found] at here
      rw [layLine, para, same, place, if_neg, if_neg, byteAt_lastSpace here behind]
      · rw [byteAt_lastSpace here behind, List.length_drop]
        omega
      · rw [here]
        exact fun both => absurd both.2 (by decide)
  | whole all =>
      have low : start + (old.drop start).length < b := before
      rw [List.length_drop] at low
      omega

/-- More rounds than bytes change nothing. -/
theorem layLines_rounds (splits : SplitsText split) {rounds more : Nat}
    (enough : rest.length ≤ rounds) (also : rest.length ≤ more) :
    layLines split rounds s rest start = layLines split more s rest start := by
  induction rounds generalizing s rest start more with
  | zero =>
      obtain rfl := List.length_eq_zero_iff.mp (Nat.le_zero.mp enough)
      simp [layLines]
  | succ rounds ih =>
      by_cases empty : rest = []
      · subst empty
        simp [layLines]
      · have length := List.length_pos_of_ne_nil empty
        obtain ⟨more, rfl⟩ := Nat.exists_eq_succ_of_ne_zero (show more ≠ 0 by omega)
        have positive := ((layLine_end splits s.availWidth rest start).bOff empty).1
        rw [layLines_step empty, layLines_step empty]
        split_ifs with stop
        · rfl
        · refine ih ?_ ?_ <;> rw [List.length_drop] <;> omega

/-- The lines of the table start one behind the other. -/
theorem laidLines_sorted (splits : SplitsText split) (avail : Int) (start : Nat) {rounds : Nat}
    (enough : rest.length ≤ rounds) :
    (∀ line ∈ laidLines split avail rounds rest start, start ≤ line.bStart) ∧
      (laidLines split avail rounds rest start).Pairwise (·.bStart < ·.bStart) := by
  induction rounds generalizing rest start with
  | zero =>
      obtain rfl := List.length_eq_zero_iff.mp (Nat.le_zero.mp enough)
      simp [laidLines]
  | succ rounds ih =>
      by_cases empty : rest = []
      · subst empty
        simp [laidLines]
      have ends := layLine_end splits avail rest start
      have positive := (ends.bOff empty).1
      have left : (rest.drop (layLine split avail rest start).bOff).length ≤ rounds := by
        rw [List.length_drop]
        omega
      obtain ⟨low, sorted⟩ := ih (start + (layLine split avail rest start).bOff) left
      rw [laidLines_step splits avail start empty enough,
        laidLines_rounds splits (le_trans left (Nat.le_succ _)) left]
      generalize layLine split avail rest start = laid at ends positive low sorted
      have one : ∀ line : LineInfo, line.bStart = start → ∀ next ∈ laidLines split avail rounds
          (rest.drop laid.bOff) (start + laid.bOff), line.bStart < next.bStart := by
        intro line first next inside
        have := low next inside
        omega
      have behind : ∀ line : LineInfo, line.bStart = start →
          (∀ next ∈ line :: laidLines split avail rounds (rest.drop laid.bOff)
            (start + laid.bOff), start ≤ next.bStart) ∧
          (line :: laidLines split avail rounds (rest.drop laid.bOff)
            (start + laid.bOff)).Pairwise (·.bStart < ·.bStart) := by
        intro line first
        refine ⟨fun next inside => ?_, List.pairwise_cons.mpr ⟨one line first, sorted⟩⟩
        rcases List.mem_cons.mp inside with rfl | inside
        · exact Nat.le_of_eq first.symm
        · have := low next inside
          omega
      cases ends with
      | newline place found more => exact behind _ rfl
      | lastNewline place found last =>
          rw [List.drop_eq_nil_of_le (Nat.le_of_eq last.symm), laidLines_nil]
          refine ⟨fun line among => ?_, List.pairwise_pair.mpr (by dsimp only; omega)⟩
          rcases List.mem_cons.mp among with rfl | among
          · exact le_refl _
          · obtain rfl := List.mem_singleton.mp among
            exact Nat.le_add_right start ((paragraph rest).length + 1)
      | space off place behindStart found inside => exact behind _ rfl
      | whole all => exact behind _ rfl

/-- The loop that starts with a number of lines laid out is the loop that lays them out first. The
induction is on these lines: none of them is one where the loop stops. -/
theorem layLines_skip (splits : SplitsText split) (agree : text.take b = old.take b)
    (inside : b ≤ old.length) (s : TextLayout) (start more : Nat) {m rounds : Nat}
    {table : List LineInfo}
    (isTable : laidLines split s.availWidth rounds (old.drop start) start = table)
    (enough : (old.drop start).length ≤ rounds) (also : (text.drop start).length ≤ more)
    {first next : LineInfo} (here : table[m]? = some first) (behind : table[m + 1]? = some next)
    (before : next.bStart ≤ b)
    (same : ∀ line ∈ table.take m, split (paragraph (text.drop line.bStart)) s.availWidth =
      split (paragraph (old.drop line.bStart)) s.availWidth)
    (narrow : s.barX = false → TooWide s.availWidth (table.take m) = false)
    (room : s.barY = false → s.lines.length + m ≤ s.scrollLines) :
    layLines split more s (text.drop start) start =
      layLines split more { s with
        lines := s.lines ++ table.take m
        hExtent := widest s.hExtent (table.take m) } (text.drop first.bStart) first.bStart := by
  subst isTable
  have some : old.drop start ≠ [] := by
    rintro empty
    rw [empty, laidLines_nil] at here
    cases here
  induction m generalizing s start rounds more with
  | zero =>
      obtain ⟨line, later, lines, starts⟩ := laidLines_head splits s.availWidth start
        some enough
      rw [lines] at here
      cases here
      rw [starts]
      simp [widest]
  | succ m ih =>
      have ends := layLine_end splits s.availWidth (old.drop start) start
      obtain ⟨line, extra, lines, starts, width, others⟩ := ends.lines
      have positive := (ends.bOff some).1
      have left : ((old.drop start).drop
          (layLine split s.availWidth (old.drop start) start).bOff).length ≤ rounds := by
        rw [List.length_drop]
        omega
      have later := laidLines_sorted splits s.availWidth
        (start + (layLine split s.availWidth (old.drop start) start).bOff) left
      have sorted := (laidLines_sorted splits s.availWidth start enough).2
      have step := laidLines_step splits s.availWidth start some enough
      rw [lines, List.cons_append] at step
      -- The second line of the table starts behind the round, and before the edit.
      have low : start + (layLine split s.availWidth (old.drop start) start).bOff < b := by
        rw [step] at behind sorted
        have sorted := (List.pairwise_cons.mp sorted).2
        rw [List.getElem?_cons_succ] at behind
        obtain ⟨within, same⟩ := List.getElem?_eq_some_iff.mp behind
        have second := List.pairwise_iff_getElem.mp sorted 0 (m + 1) (by omega) within (by omega)
        rw [same] at second
        have from_ : ∀ l ∈ extra ++ _, _ ≤ l.bStart := fun l inside =>
          (List.mem_append.mp inside).elim (fun old => Nat.le_of_eq (others l old).2.1.symm)
            (later.1 l)
        have := from_ _ (List.getElem_mem (by omega : 0 < _))
        omega
      have long := length_agree agree inside
      -- The second line is the first one of the rest.
      have kept : split (paragraph (text.drop start)) s.availWidth =
          split (paragraph (old.drop start)) s.availWidth := by
        rw [step, List.take_succ_cons] at same
        have := same line List.mem_cons_self
        rwa [starts] at this
      obtain ⟨sameRound, only, single, -⟩ := layLine_agree splits agree inside low kept
      rw [lines] at single
      obtain ⟨rfl, rfl⟩ := List.cons.inj single
      rw [List.nil_append] at step
      rw [step] at here behind same narrow ⊢
      rw [List.getElem?_cons_succ] at here behind
      rw [List.take_succ_cons] at same narrow ⊢
      generalize layLine split s.availWidth (old.drop start) start = laid at *
      have nonempty : text.drop start ≠ [] := by
        rw [ne_eq, List.drop_eq_nil_iff]
        omega
      have first_narrow : s.barX = false → ¬ s.availWidth < line.width := fun absent => by
        have := tooWide_eq_false.mp (narrow absent) line List.mem_cons_self
        omega
      have round : roundEnd s laid =
          { s with lines := s.lines ++ [line], hExtent := max s.hExtent line.width } := by
        rw [roundEnd, widen, if_neg fun wide => first_narrow (by simpa using wide.2)
          (by rw [width]; exact wide.1), lines, width]
      have length := List.length_pos_of_ne_nil nonempty
      obtain ⟨more, rfl⟩ := Nat.exists_eq_succ_of_ne_zero (show more ≠ 0 by omega)
      rw [List.length_drop] at also length
      rw [List.drop_drop] at here behind same narrow left ⊢
      have goes : ¬ ((roundEnd s laid).lines.length > (roundEnd s laid).scrollLines ∧
          ¬ (roundEnd s laid).barY) := by
        rw [round]
        rintro ⟨many, absent⟩
        have few := room (by simpa using absent)
        rw [List.length_append] at many
        have : s.scrollLines < s.lines.length + 1 := many
        omega
      have followed := List.mem_of_getElem? here
      have ahead := later.1 first (by rwa [List.drop_drop])
      rw [layLines_step nonempty, sameRound, if_neg goes, round, List.drop_drop]
      have more_rows : s.barY = false → (s.lines ++ [line]).length + m ≤ s.scrollLines := by
        intro absent
        have few := room absent
        rw [List.length_append, List.length_singleton]
        omega
      have more_narrow : s.barX = false → TooWide s.availWidth
          ((laidLines split s.availWidth rounds (old.drop (start + laid.bOff))
            (start + laid.bOff)).take m) = false := fun absent =>
        tooWide_eq_false.mpr fun l among =>
          tooWide_eq_false.mp (narrow absent) l (List.mem_cons_of_mem _ among)
      have more_text : old.drop (start + laid.bOff) ≠ [] := by
        rintro nothing
        rw [nothing, laidLines_nil] at here
        cases here
      have goes_on := ih
        { s with lines := s.lines ++ [line], hExtent := max s.hExtent line.width }
        (start + laid.bOff) more left (show (text.drop (start + laid.bOff)).length ≤ more by
          rw [List.length_drop]; omega)
        more_rows here behind (fun l among => same l (List.mem_cons_of_mem _ among)) more_narrow
        more_text
      rw [goes_on]
      rw [List.append_assoc, List.singleton_append]
      exact layLines_rounds splits (by rw [List.length_drop]; omega)
        (by rw [List.length_drop]; omega)

/-- The line of a place starts at or before it. -/
theorem lineOf_start : ∀ lines : List LineInfo, lineOf b lines ≠ 0 →
    ∃ line, lines[lineOf b lines]? = some line ∧ line.bStart ≤ b
  | [], later => absurd rfl later
  | [_], later => absurd rfl later
  | line :: next :: rest, later => by
      rw [lineOf] at later ⊢
      split_ifs at later ⊢ with behind
      · exact absurd rfl later
      by_cases first : lineOf b (next :: rest) = 0
      · rw [first]
        exact ⟨next, rfl, Nat.not_lt.mp behind⟩
      · exact lineOf_start (next :: rest) first

/-- The lines of a text start one behind the other. -/
theorem textLines_sorted (splits : SplitsText split) (avail : Int) (text : Bytes) :
    (textLines split avail text).Pairwise (·.bStart < ·.bStart) := by
  rw [textLines]
  split_ifs
  · exact List.pairwise_singleton _ _
  · exact (laidLines_sorted splits avail 0 (le_refl _)).2

/-- What an edit leaves alone: the text before it, and how the font layer splits the lines that a
reflow from the line before the edit keeps. -/
structure EditsFrom (split : Split) (s : TextLayout) (old text : Bytes) (b : Nat) : Prop where
  agree : text.take b = old.take b
  inside : b ≤ old.length
  same : ∀ line ∈ s.lines.take (lineOf b s.lines - 1),
    split (paragraph (text.drop line.bStart)) s.availWidth =
      split (paragraph (old.drop line.bStart)) s.availWidth

/-- A pass that keeps the lines above the start does what a pass over all lines does. -/
theorem reflowPass_first (splits : SplitsText split) (settled : Settled split s old)
    (edit : EditsFrom split s old text b) :
    s.reflowPass split text (lineOf b s.lines - 1) = s.reflowPass split text 0 := by
  have same := edit.same
  generalize starts : lineOf b s.lines - 1 = m at same
  rcases Nat.eq_zero_or_pos m with rfl | positive
  · rfl
  have line : lineOf b s.lines = m + 1 := by omega
  obtain ⟨next, behind, before⟩ := lineOf_start (b := b) s.lines (by omega)
  rw [line] at behind
  have within := (List.getElem?_eq_some_iff.mp behind).1
  have old_some : old ≠ [] := by
    rintro rfl
    rw [settled.lines] at within
    simp [textLines] at within
  have table : laidLines split s.availWidth old.length old 0 = s.lines := by
    rw [settled.lines, textLines, if_neg old_some]
  obtain ⟨first, here⟩ : ∃ first, s.lines[m]? = some first :=
    ⟨_, List.getElem?_eq_getElem (Nat.lt_of_succ_lt within)⟩
  have sorted := textLines_sorted splits s.availWidth old
  rw [← settled.lines] at sorted
  have text_some : text ≠ [] := by
    have long := length_agree edit.agree edit.inside
    have ordered := List.pairwise_iff_getElem.mp sorted m (m + 1) (by omega) within (by omega)
    rw [(List.getElem?_eq_some_iff.mp behind).2] at ordered
    rintro rfl
    simp at long
    omega
  have start : s.lineStart m = first.bStart := by
    rw [lineStart, if_neg (by omega), here]
    rfl
  have kept : s.keepLines text m = { s with
      lines := s.lines.take m, hExtent := widest s.availWidth (s.lines.take m) } := by
    rw [keepLines, if_neg text_some]
    rfl
  have none_kept : s.keepLines text 0 = { s with lines := [], hExtent := s.availWidth } := by
    rw [keepLines, if_neg text_some]
    rfl
  have skip : layLines split text.length { s with lines := [], hExtent := s.availWidth }
      (text.drop 0) 0 = layLines split text.length { s with
        lines := [] ++ s.lines.take m
        hExtent := widest s.availWidth (s.lines.take m) } (text.drop first.bStart) first.bStart :=
    layLines_skip splits edit.agree edit.inside { s with lines := [], hExtent := s.availWidth }
    0 text.length table (le_refl _) (le_refl _) here behind before same
    (fun absent => by
      have narrow : TooWide s.availWidth s.lines = false := settled.barX.symm.trans absent
      exact tooWide_eq_false.mpr fun l among =>
        tooWide_eq_false.mp narrow l (List.mem_of_mem_take among))
    (fun absent => by
      have rows := settled.barY.symm.trans absent
      rw [decide_eq_false_iff_not] at rows
      show 0 + m ≤ s.scrollLines
      omega)
  rw [List.drop_zero, List.nil_append] at skip
  have rounds : layLines split (text.drop first.bStart).length { s with
      lines := s.lines.take m, hExtent := widest s.availWidth (s.lines.take m) }
        (text.drop first.bStart) first.bStart =
      layLines split text.length { s with
        lines := s.lines.take m, hExtent := widest s.availWidth (s.lines.take m) }
        (text.drop first.bStart) first.bStart :=
    layLines_rounds splits (le_refl _) (by rw [List.length_drop]; omega)
  have zero : s.lineStart 0 = 0 := rfl
  simp only [reflowPass, kept, none_kept, start, zero, List.drop_zero, rounds, skip]

/-- The start of the text is on the first line. -/
theorem lineOf_top (splits : SplitsText split) (settled : Settled split s text) :
    lineOf 0 s.lines = 0 := by
  by_contra later
  obtain ⟨line, here, low⟩ := lineOf_start s.lines later
  obtain ⟨within, same⟩ := List.getElem?_eq_some_iff.mp here
  have sorted := textLines_sorted splits s.availWidth text
  rw [← settled.lines] at sorted
  have := List.pairwise_iff_getElem.mp sorted 0 (lineOf 0 s.lines) (by omega) within (by omega)
  rw [same] at this
  omega

/-- A reflow from the line before an edit does what a reflow from the first line does. -/
theorem reflowMultiline_first (splits : SplitsText split) (settled : Settled split s old)
    (edit : EditsFrom split s old text b) (rounds : Nat) :
    s.reflowMultiline split text rounds b = s.reflowMultiline split text rounds 0 := by
  rw [reflowMultiline, reflowMultiline, lineOf_top splits settled]
  cases rounds with
  | zero => rfl
  | succ rounds => rw [reflowPasses, reflowPasses, reflowPass_first splits settled edit]

/-- A reflow from the first line of a settled layout keeps its lines. -/
theorem reflowMultiline_settled (splits : SplitsText split) (settled : Settled split s text)
    (rounds : Nat) :
    (s.reflowMultiline split text (rounds + 1) 0).map (·.lines) = some s.lines := by
  obtain ⟨t, run, laid⟩ := layLines_first splits s text
  obtain ⟨lines, frame, barY, barX, -⟩ := settleBarX_cases laid
  have found : t.barX = (s.barX || TooWide s.availWidth t.lines) := laid.barX
  have whole : t.lines = s.lines := by
    rw [settled.lines]
    refine laid.stops.resolve_right ?_
    rintro ⟨absent, stopped, line, later, same, -⟩
    rw [← settled.lines] at same
    have hidden : s.barY = false := absent
    have rows := settled.barY.symm.trans hidden
    rw [decide_eq_false_iff_not] at rows
    have bar : t.barX = s.barX := by
      rw [found, settled.barX, same, tooWide_append]
      cases TooWide s.availWidth t.lines <;> simp
    have visible : t.scrollLines = s.scrollLines := scrollLines_congr laid.frame bar
    rw [same, List.length_append] at rows
    omega
  have visible : (t.settleBarX s.availWidth).scrollLines = s.scrollLines :=
    scrollLines_congr frame (by rw [barX, whole, ← settled.barX])
  have rest : (t.settleBarX s.availWidth).settleBarY = (t.settleBarX s.availWidth, false) := by
    have bar := settled.barY
    rw [settleBarY, visible, lines, whole, barY]
    split_ifs with more fewer
    · rw [bar] at more
      exact absurd more.1 (by simpa using more.2)
    · rw [bar, decide_eq_true_eq] at fewer
      omega
    · rfl
  rw [reflowMultiline, lineOf_top splits settled, reflowPasses, run, rest]
  exact congrArg some (lines.trans whole)

end Neosurf.Editing

namespace Neosurf.Editing

open TextLayout

/-- The text in front of a place is the same when nothing was done before the place. -/
theorem take_normaliseByte {multi : Bool} {text : Bytes} {m index : Nat} (before : m ≤ index) :
    (normaliseByte multi text index).take m = text.take m := by
  have erased : (text.eraseIdx index).take m = text.take m := by
    by_cases inside : index < text.length
    · rw [List.eraseIdx_eq_take_drop_succ, List.take_append_of_le_length (by simp; omega),
        List.take_take, Nat.min_eq_left before]
    · rw [List.eraseIdx_of_length_le (Nat.not_lt.mp inside)]
  simp only [normaliseByte]
  split_ifs <;> simp [List.take_set_of_le before, erased]

theorem take_normaliseText {multi : Bool} {m n : Nat} {text : Bytes} {start : Nat}
    (before : m ≤ start) : (normaliseText multi text start n).take m = text.take m := by
  induction n generalizing text start with
  | zero => rfl
  | succ n ih => rw [normaliseText, ih (Nat.le_succ_of_le before), take_normaliseByte before]

/-- A reflow is asked for when the text changes, and from a place before which it is as it was. -/
structure ReflowsFrom (ta : Textarea) (changed : Changed) : Prop where
  unchanged : changed.reflow = none → changed.textarea.text = ta.text
  before : ∀ b, changed.reflow = some b →
    b ≤ ta.text.length ∧ changed.textarea.text.take b = ta.text.take b

variable {ta : Textarea} {changed : Changed}

theorem reflowsFrom_unchanged (ok : Bool) : ReflowsFrom ta (ta.unchanged ok) :=
  ⟨fun _ => rfl, nofun⟩

theorem reflowsFrom_splice {bStart : Nat} (inside : bStart ≤ ta.text.length) (bEnd : Nat)
    (rep : Bytes) : ReflowsFrom ta (ta.splice bStart bEnd rep) := by
  refine ⟨nofun, fun b same => ?_⟩
  cases same
  refine ⟨inside, ?_⟩
  show (spliceText _ _ _ _ _).take _ = _
  rw [spliceText, take_normaliseText (le_refl _), List.append_assoc,
    List.take_append_of_le_length (by rw [List.length_take]; omega), List.take_take, Nat.min_self]

theorem reflowsFrom_replaceTextInternal (ta : Textarea) (bStart bEnd : Nat) (rep : Option Bytes)
    (addToClipboard : Bool) :
    ReflowsFrom ta (ta.replaceTextInternal bStart bEnd rep addToClipboard) := by
  cases rep with
  | none =>
      rw [Textarea.replaceTextInternal]
      split_ifs <;> exact reflowsFrom_unchanged _
  | some rep =>
      simp only [Textarea.replaceTextInternal, Textarea.insertText]
      split_ifs
      · exact reflowsFrom_unchanged _
      · exact reflowsFrom_unchanged _
      · exact reflowsFrom_splice (Nat.min_le_right _ _) _ _
      · exact reflowsFrom_unchanged _
      · exact reflowsFrom_splice (Nat.min_le_right _ _) _ _

theorem reflowsFrom_swapDetail {n nextDetail : Nat}
    (run : ta.swapDetail n nextDetail = some changed) : ReflowsFrom ta changed := by
  simp only [Textarea.swapDetail, Option.bind_eq_bind, Option.bind_eq_some_iff] at run
  obtain ⟨detail, -, temp, -, same⟩ := run
  rw [← Option.some.inj same]
  have replaced := reflowsFrom_replaceTextInternal ta detail.bTextStart detail.bTextEnd
    (some (readBytes ta.undo.text detail.bStart (detail.bEnd - detail.bStart))) false
  exact ⟨replaced.unchanged, replaced.before⟩

theorem text_copyToUndoBuffer {bStart bEnd repLen : Nat} {copied : Textarea}
    (run : ta.copyToUndoBuffer bStart bEnd repLen = some copied) : copied.text = ta.text := by
  simp only [Textarea.copyToUndoBuffer, Option.bind_eq_bind, Option.bind_eq_some_iff] at run
  obtain ⟨offset, -, removed, -, same⟩ := run
  rw [← Option.some.inj same]

theorem reflowsFrom_replaceText {bStart bEnd : Nat} {rep : Option Bytes} {addToClipboard : Bool}
    (run : ta.replaceText bStart bEnd rep addToClipboard = some changed) :
    ReflowsFrom ta changed := by
  rw [Textarea.replaceText] at run
  split_ifs at run
  · simp only [Option.bind_eq_bind, Option.bind_eq_some_iff] at run
    obtain ⟨copied, copy, same⟩ := run
    have text := text_copyToUndoBuffer copy
    have replaced := reflowsFrom_replaceTextInternal copied bStart bEnd rep addToClipboard
    have unchanged := replaced.unchanged
    have before := replaced.before
    rw [text] at unchanged before
    split_ifs at same <;> rw [← Option.some.inj same] <;> exact ⟨unchanged, before⟩
  · rw [← Option.some.inj run]
    exact reflowsFrom_replaceTextInternal _ _ _ _ _

theorem reflowsFrom_undoText {forward : Bool} (run : ta.undoText forward = some changed) :
    ReflowsFrom ta changed := by
  rw [Textarea.undoText] at run
  split_ifs at run
  · exact Option.some.inj run ▸ reflowsFrom_unchanged _
  · exact Option.some.inj run ▸ reflowsFrom_unchanged _
  · exact reflowsFrom_swapDetail run
  · exact Option.some.inj run ▸ reflowsFrom_unchanged _
  · exact reflowsFrom_swapDetail run

theorem reflowsFrom_call {call : EditCall} (run : ta.call call = some changed) :
    ReflowsFrom ta changed := by
  cases call with
  | replace bStart bEnd rep addToClipboard => exact reflowsFrom_replaceText run
  | undo => exact reflowsFrom_undoText run
  | redo => exact reflowsFrom_undoText run
  | setText text =>
      rw [Textarea.call] at run
      rw [← Option.some.inj run]
      refine ⟨nofun, fun b same => ?_⟩
      cases same
      exact ⟨Nat.zero_le _, by simp⟩

/-- What the reflow after an edit needs: the lines above the line before the edit are split as they
were, and where a horizontal scrollbar hides a line that fits without it while more text follows,
the vertical scrollbar is there too. -/
def KeepsText (split : Split) (s : TextLayout) (old text : Bytes) (b : Nat) : Prop :=
  (∀ line ∈ s.lines.take (lineOf b s.lines - 1),
    split (paragraph (text.drop line.bStart)) s.availWidth =
      split (paragraph (old.drop line.bStart)) s.availWidth) ∧
  (Cuts split s text →
    (textLines split (s.withBars false false).availWidth text).length ≤
      (textLines split (s.withBars false true).availWidth text).length ∧
    (s.barX = true → s.barY = true))

instance (split : Split) (s : TextLayout) (old text : Bytes) (b : Nat) :
    Decidable (KeepsText split s old text b) := by
  unfold KeepsText
  infer_instance

/-- A multiline textarea that edits reach. -/
inductive EditsReach (split : Split) (rounds : Nat) : MultilineTextarea → Prop
  | create {s : MultilineTextarea} (readonly : Bool) (visWidth visHeight borderWidth padTop padRight
      padBottom padLeft lineHeight : Int)
      (created : MultilineTextarea.create split rounds readonly (TextLayout.create visWidth
        visHeight borderWidth padTop padRight padBottom padLeft lineHeight) = some s) :
      EditsReach split rounds s
  | call {s t : MultilineTextarea} {call : EditCall} (before : EditsReach split rounds s)
      (run : s.call split rounds call = some t)
      (keeps : ∀ changed b, s.textarea.call call = some changed → changed.reflow = some b →
        KeepsText split s.layout s.textarea.text changed.textarea.text b) :
      EditsReach split rounds t

variable {split : Split}

theorem settled_setExtents {s : TextLayout} {text : Bytes} (settled : Settled split s text) :
    Settled split s.setExtents text :=
  ⟨settled.lines, settled.barX, settled.barY⟩

/-- A text of one line is not cut. -/
theorem not_cuts_nil (s : TextLayout) : ¬ Cuts split s [] := by
  rintro ⟨count, inside, above, -⟩
  rw [textLines, if_pos rfl, List.length_singleton] at inside
  omega

theorem settled_create {rounds : Nat} {s : MultilineTextarea} {readonly : Bool} {layout : TextLayout}
    (splits : SplitsText split) (fresh : layout.lines = [])
    (created : MultilineTextarea.create split rounds readonly layout = some s) :
    Settled split s.layout s.textarea.text := by
  have top : lineOf 0 layout.lines - 1 = 0 := by rw [fresh]; rfl
  simp only [MultilineTextarea.create, reflowMultiline, top, Option.map_map,
    Option.map_eq_some_iff] at created
  obtain ⟨t, run, rfl⟩ := created
  exact settled_setExtents (reflowPasses_settled splits (fun cuts => (not_cuts_nil _ cuts).elim)
    (fun cuts => (not_cuts_nil _ cuts).elim) run).1

/-- An edit that meets the condition leaves a settled layout. -/
theorem settled_call {rounds : Nat} {s t : MultilineTextarea} {call : EditCall}
    (splits : SplitsText split) (settled : Settled split s.layout s.textarea.text)
    (run : s.call split rounds call = some t)
    (keeps : ∀ changed b, s.textarea.call call = some changed → changed.reflow = some b →
      KeepsText split s.layout s.textarea.text changed.textarea.text b) :
    Settled split t.layout t.textarea.text := by
  simp only [MultilineTextarea.call, Option.bind_eq_bind, Option.bind_eq_some_iff] at run
  obtain ⟨changed, edit, after⟩ := run
  have reflows := reflowsFrom_call edit
  cases asked : changed.reflow with
  | none =>
      rw [asked] at after
      cases after
      rw [reflows.unchanged asked]
      exact settled
  | some b =>
      simp only [asked, Option.bind_eq_some_iff] at after
      obtain ⟨layout, reflowed, same⟩ := after
      cases same
      obtain ⟨inside, agree⟩ := reflows.before b asked
      obtain ⟨same, uncut⟩ := keeps changed b edit asked
      rw [reflowMultiline_first splits settled ⟨agree, inside, same⟩ rounds, reflowMultiline,
        lineOf_top splits settled, Option.map_eq_some_iff] at reflowed
      obtain ⟨u, passes, rfl⟩ := reflowed
      exact settled_setExtents (reflowPasses_settled splits (fun cuts => (uncut cuts).1)
        (fun cuts => (uncut cuts).2) passes).1

/-- In every run of edits that meet the condition, the lines cover the text after each of them, and
are those that a reflow from the first line gives. -/
theorem editsReach_covers {rounds : Nat} {s : MultilineTextarea} (splits : SplitsText split)
    (reached : EditsReach split rounds s) :
    Covers s.textarea.text s.layout.lines ∧
      ∀ more, (s.layout.reflowMultiline split s.textarea.text (more + 1) 0).map (·.lines) =
        some s.layout.lines := by
  have settled : Settled split s.layout s.textarea.text := by
    induction reached with
    | create _ _ _ _ _ _ _ _ _ created => exact settled_create splits rfl created
    | call before run keeps ih => exact settled_call splits ih run keeps
  refine ⟨?_, reflowMultiline_settled splits settled⟩
  rw [settled.lines]
  exact covers_textLines splits _

/-- A font whose characters are all as wide, which wraps at the last space that fits or at the
first one. -/
def fixedSplit (advance : Int) (text : Bytes) (width : Int) : Nat × Int :=
  let spaces := (List.range text.length).filter fun i => i ≠ 0 ∧ byteAt text i = chr ' '
  let off :=
    if text.length * advance ≤ width then text.length
    else ((spaces.reverse.find? fun i : Nat => (i : Int) * advance ≤ width).or spaces.head?).getD text.length
  (off, off * advance)

theorem splitsText_fixedSplit (advance : Int) : SplitsText (fixedSplit advance) := by
  have place : ∀ text width, text ≠ [] → (fixedSplit advance text width).1 = text.length ∨
      (fixedSplit advance text width).1 ∈ (List.range text.length).filter fun i =>
        i ≠ 0 ∧ byteAt text i = chr ' ' := by
    intro text width _
    simp only [fixedSplit]
    split_ifs
    · exact Or.inl rfl
    generalize (List.range text.length).filter _ = spaces
    cases found : spaces.reverse.find? fun i : Nat => decide ((i : Int) * advance ≤ width) with
    | some i => exact Or.inr (List.mem_reverse.mp (List.mem_of_find?_eq_some found))
    | none =>
        cases spaces with
        | nil => exact Or.inl rfl
        | cons i spaces => exact Or.inr List.mem_cons_self
  constructor
  · intro width
    simp [fixedSplit]
  · intro para width some
    have length := List.length_pos_of_ne_nil some
    rcases place para width some with last | space
    · omega
    · simp only [List.mem_filter, List.mem_range, decide_eq_true_eq] at space
      omega
  · intro para width some
    refine (place para width some).imp_right fun space => ?_
    simp only [List.mem_filter, decide_eq_true_eq] at space
    exact space.2.2

instance instDecidableCoversFrom (text : Bytes) : ∀ start lines, Decidable (CoversFrom text start lines)
  | _, [] => isFalse id
  | start, [line] =>
      inferInstanceAs (Decidable (line.bStart = start ∧ start + line.bLength = text.length))
  | start, line :: next :: lines =>
      have := instDecidableCoversFrom text (start + line.bLength) (next :: lines)
      have := instDecidableCoversFrom text (start + line.bLength + 1) (next :: lines)
      inferInstanceAs (Decidable (line.bStart = start ∧ (CoversFrom text (start + line.bLength)
        (next :: lines) ∨ byteAt text (start + line.bLength) = chr '\n' ∧
          CoversFrom text (start + line.bLength + 1) (next :: lines))))

/-- A textarea of five characters and three lines. -/
def smallTextarea : Option MultilineTextarea :=
  MultilineTextarea.create (fixedSplit 10) 9 false (TextLayout.create 50 48 0 0 0 0 0 16)

theorem isSome_smallTextarea : smallTextarea.isSome := by decide

/-- The same textarea with a text that wraps. -/
def wrappedTextarea : Option MultilineTextarea :=
  (smallTextarea.get isSome_smallTextarea).call (fixedSplit 10) 9 (.setText (str "aa bbb\n"))

theorem isSome_wrappedTextarea : wrappedTextarea.isSome := by decide

/-- The text that wraps is laid out after the empty one. -/
theorem editsReach_covers_wrapped :
    Covers (wrappedTextarea.get isSome_wrappedTextarea).textarea.text
        (wrappedTextarea.get isSome_wrappedTextarea).layout.lines ∧
      (wrappedTextarea.get isSome_wrappedTextarea).layout.lines =
        [⟨0, 3, 20⟩, ⟨3, 3, 30⟩, ⟨7, 0, 30⟩] := by
  have first : EditsReach (fixedSplit 10) 9 (smallTextarea.get isSome_smallTextarea) :=
    EditsReach.create false 50 48 0 0 0 0 0 16 (Option.some_get isSome_smallTextarea).symm
  have second := first.call (Option.some_get isSome_wrappedTextarea).symm
    fun changed b edit asked => by
      rw [Textarea.call] at edit
      cases edit
      cases asked
      decide
  exact ⟨(editsReach_covers (splitsText_fixedSplit 10) second).1, by decide⟩

/-- Two lines are visible above the horizontal scrollbar of a long word. The reflow of the next
text stops at its third line, removes that scrollbar and finds room for the three lines. -/
theorem reflow_truncated :
    (do
      let s ← smallTextarea
      let s ← s.call (fixedSplit 10) 9 (.setText (str "aaaaaaaaaa"))
      let s ← s.call (fixedSplit 10) 9 (.setText (str "a\nb\nc\nd\ne"))
      some (s.textarea.text, s.layout.lines)) =
      some (str "a\nb\nc\nd\ne", [⟨0, 1, 10⟩, ⟨2, 1, 10⟩, ⟨4, 1, 10⟩]) ∧
    ¬ Covers (str "a\nb\nc\nd\ne") [⟨0, 1, 10⟩, ⟨2, 1, 10⟩, ⟨4, 1, 10⟩] := by
  refine ⟨by decide, ?_⟩
  rw [Covers]
  decide

end Neosurf.Editing
