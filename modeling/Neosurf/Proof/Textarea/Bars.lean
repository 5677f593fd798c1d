/-
This file proves what one pass of `textarea_reflow_multiline` from the first line leaves.
-/

import Neosurf.Proof.Textarea.Lines

namespace Neosurf.Editing

namespace TextLayout

/-- This is the room that a scrollbar takes. -/
def barRoom (bar : Bool) : Int := if bar then SCROLLBAR_WIDTH else 0

theorem barRoom_true : barRoom true = SCROLLBAR_WIDTH := rfl

theorem barRoom_false : barRoom false = 0 := rfl

/-- The same textarea with the given scrollbars. -/
def withBars (s : TextLayout) (barX barY : Bool) : TextLayout :=
  { s with
    barX := barX
    barY := barY
    padBottom := s.padBottom - barRoom s.barX + barRoom barX
    padRight := s.padRight - barRoom s.barY + barRoom barY }

/-- What a reflow does not change. -/
def frame (s : TextLayout) : TextLayout :=
  { s.withBars false false with hExtent := 0, vExtent := 0, lines := [] }

variable {s t : TextLayout}

theorem frame_withBars (barX barY : Bool) : (s.withBars barX barY).frame = s.frame := by
  simp [frame, withBars]

theorem frame_addBarX (absent : s.barX = false) : s.addBarX.frame = s.frame := by
  simp [frame, withBars, addBarX, absent, barRoom_true, barRoom_false]

theorem frame_removeBarX (present : s.barX = true) : s.removeBarX.frame = s.frame := by
  simp [frame, withBars, removeBarX, present, barRoom_true, barRoom_false]

theorem frame_addBarY (absent : s.barY = false) : s.addBarY.frame = s.frame := by
  simp [frame, withBars, addBarY, absent, barRoom_true, barRoom_false]

theorem frame_removeBarY (present : s.barY = true) : s.removeBarY.frame = s.frame := by
  simp [frame, withBars, removeBarY, present, barRoom_true, barRoom_false]

/-- The width depends on the vertical scrollbar alone. -/
theorem availWidth_congr (frames : t.frame = s.frame) (barY : t.barY = s.barY) :
    t.availWidth = s.availWidth := by
  simp only [frame, withBars, mk.injEq] at frames
  obtain ⟨width, -, border, -, right, -, left, -⟩ := frames
  rw [availWidth, availWidth, width, border, left]
  rw [barY] at right
  congr 2
  omega

/-- The number of visible lines depends on the horizontal scrollbar alone. -/
theorem scrollLines_congr (frames : t.frame = s.frame) (barX : t.barX = s.barX) :
    t.scrollLines = s.scrollLines := by
  simp only [frame, withBars, mk.injEq] at frames
  obtain ⟨-, height, border, top, -, bottom, -, line, -⟩ := frames
  rw [scrollLines, scrollLines, height, border, top, line]
  rw [barX] at bottom
  congr 4
  omega

end TextLayout

/-- The extent that the lines need. -/
def widest (extent : Int) (lines : List LineInfo) : Int :=
  lines.foldl (fun extent line => max extent line.width) extent

theorem widest_append (extent : Int) (l r : List LineInfo) :
    widest extent (l ++ r) = widest (widest extent l) r := List.foldl_append

theorem widest_le {extent avail : Int} {lines : List LineInfo} :
    widest extent lines ≤ avail ↔ extent ≤ avail ∧ ∀ line ∈ lines, line.width ≤ avail := by
  induction lines generalizing extent with
  | nil => simp [widest]
  | cons line lines ih =>
      show widest (max extent line.width) lines ≤ avail ↔ _
      rw [ih]
      simp only [Int.max_le, List.forall_mem_cons, and_assoc]

/-- A line needs the horizontal scrollbar. -/
def TooWide (avail : Int) (lines : List LineInfo) : Bool :=
  lines.any fun line => decide (avail < line.width)

theorem tooWide_append (avail : Int) (l r : List LineInfo) :
    TooWide avail (l ++ r) = (TooWide avail l || TooWide avail r) := List.any_append

theorem tooWide_eq_false {avail : Int} {lines : List LineInfo} :
    TooWide avail lines = false ↔ ∀ line ∈ lines, line.width ≤ avail := by
  simp [TooWide]

/-- Lines of one width need its extent. -/
theorem widest_same {extent x : Int} {line : LineInfo} {more : List LineInfo}
    (same : ∀ last ∈ line :: more, last.width = x) :
    widest extent (line :: more) = max extent x := by
  induction more generalizing extent line with
  | nil =>
      rw [← same line List.mem_cons_self]
      rfl
  | cons next more ih =>
      have first := same line List.mem_cons_self
      show widest (max extent line.width) (next :: more) = max extent x
      rw [ih fun last inside => same last (List.mem_cons_of_mem _ inside), first, max_assoc,
        max_self]

theorem tooWide_same {avail x : Int} {line : LineInfo} {more : List LineInfo}
    (same : ∀ last ∈ line :: more, last.width = x) :
    TooWide avail (line :: more) = decide (avail < x) := by
  rw [Bool.eq_iff_iff, decide_eq_true_eq, TooWide, List.any_eq_true]
  constructor
  · rintro ⟨last, inside, wide⟩
    rw [same last inside] at wide
    exact of_decide_eq_true wide
  · intro wide
    refine ⟨line, List.mem_cons_self, ?_⟩
    rw [same line List.mem_cons_self]
    exact decide_eq_true wide

/-- What the loop over the lines leaves, where it began and where it was to stop. -/
structure LaysOut (s t : TextLayout) (added all : List LineInfo) (finish : Nat) : Prop where
  lines : t.lines = s.lines ++ added
  frame : t.frame = s.frame
  barY : t.barY = s.barY
  hExtent : t.hExtent = widest s.hExtent added
  barX : t.barX = (s.barX || TooWide s.availWidth added)
  stops : added = all ∨ s.barY = false ∧ t.scrollLines < t.lines.length ∧
    ∃ line later, all = added ++ line :: later ∧ line.bStart < finish

variable {split : Split} {s : TextLayout} {rest : Bytes} {start : Nat}

open TextLayout

/-- The layout behind a round. -/
def roundEnd (s : TextLayout) (laid : LaidLine) : TextLayout :=
  { s.widen laid.width with lines := (s.widen laid.width).lines ++ laid.lines }

/-- One round widens the layout for its line. -/
theorem laysOut_round {laid : LaidLine}
    (ends : LineEnd split s.availWidth rest start laid) :
    (roundEnd s laid).lines = s.lines ++ laid.lines ∧ (roundEnd s laid).frame = s.frame ∧
      (roundEnd s laid).barY = s.barY ∧
      (roundEnd s laid).hExtent = widest s.hExtent laid.lines ∧
      (roundEnd s laid).barX = (s.barX || TooWide s.availWidth laid.lines) := by
  obtain ⟨line, more, lines, -, width, others⟩ := ends.lines
  have widths : ∀ last ∈ line :: more, last.width = laid.width :=
    List.forall_mem_cons.mpr ⟨width, fun last inside => (others last inside).1⟩
  have extent : widest s.hExtent laid.lines = max s.hExtent laid.width := by
    rw [lines, widest_same widths]
  have wide : TooWide s.availWidth laid.lines = decide (s.availWidth < laid.width) := by
    rw [lines, tooWide_same widths]
  rw [extent, wide, roundEnd]
  by_cases needs : laid.width > s.availWidth ∧ ¬ s.barX
  · have absent : s.barX = false := by simpa using needs.2
    have round : s.widen laid.width = { s with hExtent := max s.hExtent laid.width }.addBarX :=
      if_pos needs
    rw [round]
    refine ⟨rfl, ?_, rfl, rfl, ?_⟩
    · exact frame_addBarX (s := { s with hExtent := max s.hExtent laid.width, lines := _ }) absent
    · simpa [addBarX, absent] using needs.1
  · have round : s.widen laid.width = { s with hExtent := max s.hExtent laid.width } :=
      if_neg needs
    rw [round]
    refine ⟨rfl, rfl, rfl, rfl, ?_⟩
    cases present : s.barX with
    | true => simp
    | false => simpa [present] using needs

/-- A loop that goes on lays out the rest behind its first round. -/
theorem LaysOut.behind {s t u : TextLayout} {first added all : List LineInfo} {finish : Nat}
    (later : LaysOut s t added all finish) (lines : s.lines = u.lines ++ first)
    (frame : s.frame = u.frame) (barY : s.barY = u.barY)
    (hExtent : s.hExtent = widest u.hExtent first)
    (barX : s.barX = (u.barX || TooWide u.availWidth first)) :
    LaysOut u t (first ++ added) (first ++ all) finish where
  lines := by rw [later.lines, lines, List.append_assoc]
  frame := later.frame.trans frame
  barY := later.barY.trans barY
  hExtent := by rw [later.hExtent, hExtent, widest_append]
  barX := by
    rw [later.barX, barX, tooWide_append, availWidth_congr frame barY, Bool.or_assoc]
  stops := later.stops.imp (congrArg _) fun ⟨open_, more, line, rest, same, early⟩ =>
    ⟨barY ▸ open_, more, line, rest, by rw [same, List.append_assoc], early⟩

theorem layLines_step (some : rest ≠ []) (rounds : Nat) :
    layLines split (rounds + 1) s rest start =
      if (roundEnd s (layLine split s.availWidth rest start)).lines.length >
          (roundEnd s (layLine split s.availWidth rest start)).scrollLines ∧
        ¬ (roundEnd s (layLine split s.availWidth rest start)).barY then
        Option.some (roundEnd s (layLine split s.availWidth rest start))
      else
        layLines split rounds (roundEnd s (layLine split s.availWidth rest start))
          (rest.drop (layLine split s.availWidth rest start).bOff)
          (start + (layLine split s.availWidth rest start).bOff) := by
  cases rest with
  | nil => exact absurd rfl some
  | cons c rest => rfl

/-- The induction is on the rounds: each takes a line, and the loop stops at one that needs the
vertical scrollbar. -/
theorem layLines_run (splits : SplitsText split) (s : TextLayout) (start : Nat) {rounds : Nat}
    (enough : rest.length ≤ rounds) :
    ∃ t added, layLines split rounds s rest start = some t ∧
      LaysOut s t added (laidLines split s.availWidth rounds rest start)
        (start + rest.length) := by
  induction rounds generalizing s rest start with
  | zero =>
      obtain rfl := List.length_eq_zero_iff.mp (Nat.le_zero.mp enough)
      exact ⟨s, [], rfl, by simp, rfl, rfl, rfl, by simp [TooWide], Or.inl rfl⟩
  | succ rounds ih =>
      by_cases empty : rest = []
      · subst empty
        exact ⟨s, [], rfl, by simp, rfl, rfl, rfl, by simp [TooWide], Or.inl rfl⟩
      have ends := layLine_end splits s.availWidth rest start
      obtain ⟨positive, most⟩ := ends.bOff empty
      obtain ⟨lines, frame, barY, hExtent, barX⟩ := laysOut_round ends
      have left : (rest.drop (layLine split s.availWidth rest start).bOff).length ≤ rounds := by
        rw [List.length_drop]
        omega
      have avail := availWidth_congr frame barY
      rw [layLines_step empty, laidLines_step splits s.availWidth start empty enough,
        laidLines_rounds splits (le_trans left (Nat.le_succ _)) left]
      by_cases stop : (roundEnd s (layLine split s.availWidth rest start)).lines.length >
          (roundEnd s (layLine split s.availWidth rest start)).scrollLines ∧
        ¬ (roundEnd s (layLine split s.availWidth rest start)).barY
      · rw [if_pos stop]
        refine ⟨_, _, rfl, lines, frame, barY, hExtent, barX, ?_⟩
        by_cases last : rest.drop (layLine split s.availWidth rest start).bOff = []
        · left
          rw [last, laidLines_nil, List.append_nil]
        · right
          obtain ⟨line, later, same, first⟩ := laidLines_head splits s.availWidth
            (start + (layLine split s.availWidth rest start).bOff) last left
          refine ⟨by simpa [barY] using stop.2, stop.1, line, later, by rw [same], ?_⟩
          have := List.length_pos_of_ne_nil last
          rw [List.length_drop] at this
          omega
      · rw [if_neg stop]
        obtain ⟨t, added, run, later⟩ := ih (roundEnd s (layLine split s.availWidth rest start))
          (start + (layLine split s.availWidth rest start).bOff) left
        rw [avail, List.length_drop, Nat.add_assoc, Nat.add_sub_cancel' most] at later
        exact ⟨t, _, run, later.behind lines frame barY hExtent barX⟩

/-- The lines are those of the text at the width that the scrollbars leave, and each scrollbar is
there when it is needed. -/
structure Settled (split : Split) (s : TextLayout) (text : Bytes) : Prop where
  lines : s.lines = textLines split s.availWidth text
  barX : s.barX = TooWide s.availWidth s.lines
  barY : s.barY = decide (s.scrollLines < s.lines.length)

/-- More lines than fit above the horizontal scrollbar fit without it, none of them needs it, and
some of the text is behind them. -/
def Cuts (split : Split) (s : TextLayout) (text : Bytes) : Prop :=
  let lines := textLines split (s.withBars true false).availWidth text
  ∃ count < lines.length, (s.withBars true false).scrollLines < count ∧
    count ≤ (s.withBars false false).scrollLines ∧
    TooWide (s.withBars true false).availWidth (lines.take count) = false ∧
    (lines.getD count ⟨0, 0, 0⟩).bStart < text.length

instance (split : Split) (s : TextLayout) (text : Bytes) : Decidable (Cuts split s text) := by
  unfold Cuts
  infer_instance

variable {t : TextLayout} {text : Bytes}

theorem cuts_congr (frames : t.frame = s.frame) : Cuts split t text ↔ Cuts split s text := by
  have same : ∀ barX barY, (t.withBars barX barY).frame = (s.withBars barX barY).frame :=
    fun barX barY => by rw [frame_withBars, frame_withBars, frames]
  rw [Cuts, Cuts, availWidth_congr (same true false) rfl, scrollLines_congr (same true false) rfl,
    scrollLines_congr (same false false) rfl]

theorem avail_nonneg : 0 ≤ s.availWidth := Int.le_max_left _ _

/-- The loop of a pass from the first line lays out the text as far as it goes. -/
theorem layLines_first (splits : SplitsText split) (s : TextLayout) (text : Bytes) :
    ∃ t, s.reflowPass split text 0 = some ((t.settleBarX s.availWidth).settleBarY) ∧
      LaysOut { s with lines := [], hExtent := s.availWidth } t t.lines
        (textLines split s.availWidth text) text.length := by
  by_cases empty : text = []
  · subst empty
    refine ⟨s.keepLines [] 0, rfl, ?_, rfl, rfl, ?_, ?_, Or.inl rfl⟩
    · simp [keepLines]
    · simp [keepLines, widest, avail_nonneg]
    · have := avail_nonneg (s := s)
      simp [keepLines, TooWide, availWidth] at this ⊢
  · obtain ⟨t, added, run, laid⟩ := layLines_run splits (s.keepLines text 0) 0
      (le_refl text.length)
    have kept : s.keepLines text 0 = { s with lines := [], hExtent := s.availWidth } := by
      simp [keepLines, empty]
    have lines : added = t.lines := by
      rw [laid.lines, kept]
      rfl
    rw [kept, lines, Nat.zero_add] at laid
    refine ⟨t, ?_, ?_⟩
    · rw [reflowPass]
      show (layLines split text.length (s.keepLines text 0) text 0).map _ = _
      rw [run]
      rfl
    · rw [textLines, if_neg empty]
      exact laid

/-- The horizontal scrollbar is there afterwards when it is needed. -/
theorem settleBarX_cases {all : List LineInfo} {finish : Nat}
    (laid : LaysOut { s with lines := [], hExtent := s.availWidth } t t.lines all finish) :
    (t.settleBarX s.availWidth).lines = t.lines ∧
      (t.settleBarX s.availWidth).frame = s.frame ∧
      (t.settleBarX s.availWidth).barY = s.barY ∧
      (t.settleBarX s.availWidth).barX = TooWide s.availWidth t.lines ∧
      (t.settleBarX s.availWidth = t ∨
        s.barX = true ∧ TooWide s.availWidth t.lines = false) := by
  have fits : t.hExtent ≤ s.availWidth ↔ TooWide s.availWidth t.lines = false := by
    rw [laid.hExtent, widest_le, tooWide_eq_false]
    exact and_iff_right (le_refl _)
  have barX : t.barX = (s.barX || TooWide s.availWidth t.lines) := laid.barX
  rw [settleBarX]
  split_ifs with goes
  · have narrow := fits.mp goes.1
    refine ⟨rfl, (frame_removeBarX goes.2).trans laid.frame, laid.barY, narrow.symm, Or.inr ⟨?_, narrow⟩⟩
    simpa [barX, narrow] using goes.2
  · refine ⟨rfl, laid.frame, laid.barY, ?_, Or.inl rfl⟩
    cases wide : TooWide s.availWidth t.lines with
    | true => simp [barX, wide]
    | false => simpa [fits, wide] using goes

/-- A pass that is the last one leaves a settled layout or a cut text. One that removes the
vertical scrollbar found room for all lines. -/
theorem reflowPass_cases (splits : SplitsText split) (s : TextLayout) (text : Bytes) :
    ∃ u again, s.reflowPass split text 0 = some (u, again) ∧ u.frame = s.frame ∧
      (again = false → Settled split u text ∨
        s.barX = true ∧ s.barY = false ∧ Cuts split s text) ∧
      (again = true → u.barY = true ∨ s.barY = true ∧ u.barY = false ∧
        (textLines split s.availWidth text).length ≤ u.scrollLines) := by
  obtain ⟨t, run, laid⟩ := layLines_first splits s text
  obtain ⟨lines, frame, barY, barX, kept⟩ := settleBarX_cases laid
  have whole : s.barY = true → t.lines = textLines split s.availWidth text := fun shown =>
    laid.stops.resolve_right fun stop => Bool.noConfusion (shown.symm.trans stop.1)
  generalize t.settleBarX s.availWidth = v at run lines frame barY barX kept
  have avail := availWidth_congr frame barY
  rw [run, settleBarY]
  split_ifs with more fewer
  · refine ⟨_, _, rfl, ?_, nofun, fun _ => Or.inl rfl⟩
    exact (frame_addBarY (by simpa using more.2)).trans frame
  · refine ⟨_, _, rfl, (frame_removeBarY fewer.2).trans frame, nofun,
      fun _ => Or.inr ⟨barY ▸ fewer.2, rfl, ?_⟩⟩
    rw [← whole (barY ▸ fewer.2), ← lines]
    exact fewer.1
  · refine ⟨_, _, rfl, frame, fun _ => ?_, nofun⟩
    rcases laid.stops with all | ⟨absent, stopped, line, later, same, early⟩
    · left
      refine ⟨by rw [lines, all, avail], by rw [barX, lines, avail], ?_⟩
      rw [Bool.eq_iff_iff, decide_eq_true_eq]
      constructor
      · intro shown
        by_contra room
        exact fewer ⟨Nat.not_lt.mp room, shown⟩
      · intro room
        by_contra hidden
        exact more ⟨room, hidden⟩
    · right
      have hidden : s.barY = false := absent
      have room : t.lines.length ≤ v.scrollLines := by
        by_contra few
        exact more ⟨by rw [lines]; omega, by simp [barY, hidden]⟩
      rcases kept with rfl | ⟨shown, narrow⟩
      · omega
      · have width : (s.withBars true false).availWidth = s.availWidth :=
          availWidth_congr (frame_withBars true false) hidden.symm
        have barXHere : t.barX = true := by
          rw [laid.barX]
          simp [shown]
        have above : (s.withBars true false).scrollLines = t.scrollLines :=
          scrollLines_congr ((frame_withBars true false).trans laid.frame.symm) barXHere.symm
        have behind : (s.withBars false false).scrollLines = v.scrollLines :=
          scrollLines_congr ((frame_withBars false false).trans frame.symm)
            (by rw [barX, narrow]; rfl)
        rw [Cuts, width, above, behind, same]
        refine ⟨shown, hidden, t.lines.length, ?_, stopped, room, ?_, ?_⟩
        · simp
        · rw [List.take_left]
          exact narrow
        · simpa using early

/-- The induction is on the passes: none of them cuts the text, because one without the vertical
scrollbar starts with room for all lines. -/
theorem reflowPasses_settled (splits : SplitsText split) {rounds : Nat}
    (fewer : Cuts split s text → (textLines split (s.withBars false false).availWidth text).length ≤
      (textLines split (s.withBars false true).availWidth text).length)
    (shown : Cuts split s text → s.barX = true → s.barY = true)
    (run : s.reflowPasses split text rounds 0 = some t) :
    Settled split t text ∧ t.frame = s.frame := by
  induction rounds generalizing s with
  | zero => cases run
  | succ rounds ih =>
      obtain ⟨u, again, pass, frame, last, another⟩ := reflowPass_cases splits s text
      rw [reflowPasses, pass, Option.bind_eq_bind, Option.bind_some] at run
      cases again with
      | false =>
          cases run
          refine ⟨(last rfl).resolve_right fun ⟨barX, barY, cuts⟩ => ?_, frame⟩
          rw [shown cuts barX] at barY
          cases barY
      | true =>
          have same : ∀ barX barY, (u.withBars barX barY).availWidth =
              (s.withBars barX barY).availWidth := fun barX barY =>
            availWidth_congr (by rw [frame_withBars, frame_withBars, frame]) rfl
          obtain ⟨settled, frames⟩ := ih (s := u)
            (fun cuts => by
              rw [same, same]
              exact fewer ((cuts_congr frame).mp cuts))
            (fun cuts barX => by
              rcases another rfl with barY | ⟨barY, gone, room⟩
              · exact barY
              · exfalso
                have wide : s.availWidth = (s.withBars false true).availWidth :=
                  availWidth_congr (frame_withBars false true).symm barY
                have rows : u.scrollLines = (u.withBars true false).scrollLines :=
                  scrollLines_congr (frame_withBars true false).symm barX
                have open_ : (u.withBars true false).availWidth =
                    (s.withBars false false).availWidth :=
                  availWidth_congr (by rw [frame_withBars, frame_withBars, frame]) rfl
                have less := fewer ((cuts_congr frame).mp cuts)
                obtain ⟨count, inside, above, -⟩ := cuts
                rw [open_] at inside
                rw [wide, rows] at room
                omega)
            run
          exact ⟨settled, frames.trans frame⟩

end Neosurf.Editing
