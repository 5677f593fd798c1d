/-
This file proves when the automatic margins of a flex line get exactly the free space, and when the
lines of a flex container fill its cross size one beside the other.
-/

import Mathlib.Algebra.BigOperators.Group.List.Basic
import Mathlib.Algebra.Order.BigOperators.Group.List
import Mathlib.Tactic.Ring
import Neosurf.Construction.LayoutFlex

namespace Neosurf.LayoutFlex

variable {ctx : FlexCtx} {itemLayout : ItemLayout} {line line' : FlexLineData}
  {items : List FlexItemData} {placements : List Placement}

/-- The automatic margins of a box along the main axis. -/
def autoMargins (ctx : FlexCtx) (b : Box) : Int :=
  if b.absolute then 0
  else
    (if b.margin.get (mainStartSide ctx) = AUTO then 1 else 0) +
      (if b.margin.get (mainEndSide ctx) = AUTO then 1 else 0)

/-- The automatic margins of the items of a line. -/
def lineMargins (ctx : FlexCtx) (items : List FlexItemData) : Int :=
  (items.map fun item => autoMargins ctx item.box).sum

/-- The layout of an item keeps its automatic margins. -/
theorem sizeItem_margins {item : FlexItemData} {b : Box}
    (sized : sizeItem itemLayout ctx item = some b) :
    autoMargins ctx b = autoMargins ctx item.box := by
  rw [sizeItem] at sized
  split at sized
  next row =>
      have absolute := itemLayout.absolute _ _ _ sized
      have left := itemLayout.left _ _ _ sized
      have right := itemLayout.right _ _ _ sized
      rw [autoMargins, autoMargins, absolute, mainStartSide, mainEndSide, if_pos row, if_pos row]
      cases ctx.mainReversed
      · simp only [left, right, Bool.false_eq_true, if_false]
      · simp only [left, right, if_true]
  next => rw [Option.some.inj sized]

/-- Each automatic margin of an item gets the extra space. -/
theorem autoExtra_add (extra : Int) (b : Box) :
    autoExtra extra b (if ctx.horizontal then .left else .top) +
        autoExtra extra b (if ctx.horizontal then .right else .bottom) =
      extra * autoMargins ctx b := by
  rw [autoExtra, autoExtra, autoMargins, mainStartSide, mainEndSide]
  cases b.absolute
  · cases ctx.horizontal <;> cases ctx.mainReversed <;> simp <;> split_ifs <;> omega
  · simp

/-- The extra space of an item, before and after it. -/
def Placement.extra (placement : Placement) : Int := placement.extraPre + placement.extraPost

/-- All automatic margins of the line get the extra space. -/
theorem placeLoop_extra {extra mainPos crossSize mainPos' crossSize' : Int}
    (placed : placeLoop itemLayout ctx extra mainPos crossSize items =
      some (placements, mainPos', crossSize')) :
    (placements.map Placement.extra).sum = extra * lineMargins ctx items := by
  induction items generalizing mainPos crossSize placements mainPos' crossSize' with
  | nil =>
      rw [placeLoop, Option.some.injEq, Prod.mk.injEq] at placed
      simp [← placed.1, lineMargins]
  | cons item rest inductionHypothesis =>
      rw [placeLoop, Option.bind_eq_bind, Option.bind_eq_some_iff] at placed
      obtain ⟨b, sized, placed⟩ := placed
      rw [Option.bind_eq_bind, Option.bind_eq_some_iff] at placed
      obtain ⟨later, placedLater, placed⟩ := placed
      obtain ⟨laterPlacements, laterPos, laterCross⟩ := later
      rw [Option.pure_def, Option.some.injEq, Prod.mk.injEq] at placed
      rw [← placed.1, List.map_cons, List.sum_cons, inductionHypothesis placedLater,
        Placement.extra, autoExtra_add, sizeItem_margins sized, lineMargins, lineMargins,
        List.map_cons, List.sum_cons, Int.mul_add]

/-- What is handed out is the quotient and the remainder for each margin. -/
theorem placeLineItemsMain_extra
    (placed : placeLineItemsMain itemLayout ctx line items = some (line', placements)) :
    (placements.map Placement.extra).sum =
      ((mainExtra ctx line).1 + (mainExtra ctx line).2) * lineMargins ctx items := by
  rw [placeLineItemsMain] at placed
  dsimp only at placed
  rw [Option.bind_eq_bind, Option.bind_eq_some_iff] at placed
  obtain ⟨result, loop, placed⟩ := placed
  obtain ⟨placements', mainPos, crossSize⟩ := result
  rw [Option.pure_def, Option.some.injEq, Prod.mk.injEq] at placed
  rw [← placed.2, placeLoop_extra loop]

/-- The remainder is added for each margin, so that the free space is handed out exactly when the
available size is known and there is no remainder or just one margin. -/
theorem placeLineItemsMain_extra_iff (counted : line.mainAutoMarginCount = lineMargins ctx items)
    (some_auto : 0 < line.mainAutoMarginCount) (room : line.usedMainSize < ctx.availableMain)
    (placed : placeLineItemsMain itemLayout ctx line items = some (line', placements)) :
    (placements.map Placement.extra).sum = ctx.availableMain - line.usedMainSize ↔
      (ctx.availableMain ≠ AUTO ∧ ctx.availableMain ≠ UNKNOWN_WIDTH) ∧
        ((ctx.availableMain - line.usedMainSize) % line.mainAutoMarginCount = 0 ∨
          line.mainAutoMarginCount = 1) := by
  rw [placeLineItemsMain_extra placed, ← counted, mainExtra]
  set count := line.mainAutoMarginCount
  by_cases known : ctx.availableMain ≠ AUTO ∧ ctx.availableMain ≠ UNKNOWN_WIDTH
  · rw [if_pos ⟨known.1, known.2, room, some_auto⟩]
    dsimp only
    have free : 0 ≤ ctx.availableMain - line.usedMainSize := by omega
    rw [Int.tdiv_eq_ediv_of_nonneg free, Int.tmod_eq_emod_of_nonneg free, and_iff_right known]
    have whole := Int.mul_ediv_add_emod (ctx.availableMain - line.usedMainSize) count
    have remains := Int.emod_nonneg (ctx.availableMain - line.usedMainSize) some_auto.ne'
    set remainder := (ctx.availableMain - line.usedMainSize) % count
    set quotient := (ctx.availableMain - line.usedMainSize) / count
    have each : (quotient + remainder) * count = count * quotient + remainder * count := by ring
    rw [each, ← whole, Int.add_right_inj]
    constructor
    · intro same
      by_cases none_left : remainder = 0
      · exact .inl none_left
      · refine .inr (Int.eq_of_mul_eq_mul_left none_left ?_)
        rw [same, Int.mul_one]
    · rintro (none_left | one)
      · rw [none_left, Int.zero_mul]
      · rw [one, Int.mul_one]
  · rw [if_neg fun all => known ⟨all.1, all.2.1⟩]
    refine iff_of_false ?_ fun all => known all.1
    dsimp only
    omega

/-- This layout leaves the box of an item as it is. -/
def ItemLayout.same : ItemLayout where
  layout b _ := some b
  absolute _ _ _ laid := by rw [Option.some.inj laid]
  left _ _ _ laid := by rw [Option.some.inj laid]
  right _ _ _ laid := by rw [Option.some.inj laid]

/-- An item of 50 pixels in the middle of a row. -/
def centred : FlexItemData where
  box := { margin := { left := AUTO, right := AUTO } }
  shrink := 0
  grow := 0
  targetMainSize := 50
  baseSize := 50
  mainSize := 50

def row (availableMain : Int) : FlexCtx where
  flex := {}
  availableMain
  horizontal := true
  wrap := .nowrap

/-- The line of the item. -/
def centredLine : FlexLineData where
  mainSize := 50
  usedMainSize := 50
  mainAutoMarginCount := 2
  first := 0
  count := 1
  frozen := 1

/-- An even space is handed out exactly. -/
theorem even_space_exact :
    ∃ line placements, placeLineItemsMain .same (row 100) centredLine [centred] =
      some (line, placements) ∧ (placements.map Placement.extra).sum = 100 - 50 := by
  have placed : placeLineItemsMain .same (row 100) centredLine [centred] = some (_, _) := rfl
  have exactly := placeLineItemsMain_extra_iff (by decide) (by decide) (by decide) placed
  exact ⟨_, _, placed, exactly.2 (by decide)⟩

/-- Of an odd space both margins get the remainder. -/
theorem odd_space_exceeded :
    centredLine.mainAutoMarginCount = lineMargins (row 101) [centred] ∧
      ∃ line placements, placeLineItemsMain .same (row 101) centredLine [centred] =
        some (line, placements) ∧ (placements.map Placement.extra).sum ≠ 101 - 50 :=
  ⟨by decide, _, _, rfl, by decide⟩

end Neosurf.LayoutFlex

namespace Neosurf.LayoutFlex

variable {ctx : FlexCtx} {line : FlexLineData} {lines : List FlexLineData}

namespace PlacedLine

/-- The cross size of a line with its extra space. -/
def size (placed : PlacedLine) : Int := placed.line.crossSize + placed.extra

/-- The line ends here. -/
def stop (placed : PlacedLine) : Int := placed.line.pos + placed.size

end PlacedLine

/-- The next line begins where this one ends, or the other way round. -/
def Adjacent (ctx : FlexCtx) (a b : PlacedLine) : Prop :=
  if ctx.wrap = .wrapReverse then b.stop = a.line.pos else a.stop = b.line.pos

/-- The lines fill the container, each beside the one before, and no two of them overlap. -/
structure FillsCross (ctx : FlexCtx) : Prop where
  whole : ((placeLines ctx).map PlacedLine.size).sum = ctx.availableCross
  adjacent : (placeLines ctx).IsChain (Adjacent ctx)
  apart : (placeLines ctx).Pairwise fun a b => a.stop ≤ b.line.pos ∨ b.stop ≤ a.line.pos
  inside : ∀ placed ∈ placeLines ctx, 0 ≤ placed.line.pos ∧ placed.stop ≤ ctx.availableCross

/-- This is what a remainder comes to, one less for each line. -/
def handedOut : Int → Nat → Int
  | _, 0 => 0
  | remainder, n + 1 =>
      remainder + handedOut (if 0 < remainder then remainder - 1 else remainder) n

theorem handedOut_zero (n : Nat) : handedOut 0 n = 0 := by
  induction n with
  | zero => rfl
  | succ n inductionHypothesis => rw [handedOut, if_neg (lt_irrefl 0), inductionHypothesis, add_zero]

theorem handedOut_nonneg {remainder : Int} (nonneg : 0 ≤ remainder) (n : Nat) :
    0 ≤ handedOut remainder n := by
  induction n generalizing remainder with
  | zero => exact le_rfl
  | succ n inductionHypothesis =>
      rw [handedOut]
      split
      next positive => exact add_nonneg nonneg (inductionHypothesis (by omega))
      next => exact add_nonneg nonneg (inductionHypothesis nonneg)

/-- A remainder of lines is handed out exactly when it is at most one. -/
theorem handedOut_eq_iff {remainder : Int} {n : Nat} (nonneg : 0 ≤ remainder)
    (small : remainder < n) : handedOut remainder n = remainder ↔ remainder ≤ 1 := by
  cases n with
  | zero => omega
  | succ n =>
      rw [handedOut, add_eq_left]
      split
      next positive =>
          by_cases one : remainder = 1
          · rw [one]
            exact iff_of_true (handedOut_zero n) le_rfl
          · cases n with
            | zero => omega
            | succ n =>
                refine iff_of_false ?_ (by omega)
                rw [handedOut]
                split
                next =>
                    have fewer : 0 ≤ remainder - 1 - 1 := by omega
                    have later := handedOut_nonneg fewer n
                    omega
                next => omega
      next none_left =>
          have zero : remainder = 0 := by omega
          rw [zero]
          exact iff_of_true (handedOut_zero n) (by decide)

/-- The sizes of the lines with their extra space. -/
theorem placeLinesLoop_sum (ctx : FlexCtx) (extra linePos extraRemainder : Int) (lines : List FlexLineData) :
    ((placeLinesLoop ctx extra linePos extraRemainder lines).map PlacedLine.size).sum =
      (lines.map FlexLineData.crossSize).sum + lines.length * extra +
        handedOut extraRemainder lines.length := by
  induction lines generalizing linePos extraRemainder with
  | nil => simp [placeLinesLoop, handedOut]
  | cons line lines inductionHypothesis =>
      rw [placeLinesLoop, List.map_cons, List.sum_cons, inductionHypothesis, List.map_cons,
        List.sum_cons, List.length_cons, handedOut, PlacedLine.size, Nat.cast_add, Nat.cast_one,
        add_mul, one_mul]
      dsimp only
      omega

section Forward

variable (forward : ctx.wrap ≠ .wrapReverse)

include forward

/-- A line begins where the one before it ends. -/
theorem placeLinesLoop_cons (extra linePos extraRemainder : Int) (line : FlexLineData)
    (lines : List FlexLineData) :
    placeLinesLoop ctx extra linePos extraRemainder (line :: lines) =
      ⟨{ line with pos := linePos }, extra + extraRemainder⟩ ::
        placeLinesLoop ctx extra (linePos + line.crossSize + (extra + extraRemainder))
          (if 0 < extraRemainder then extraRemainder - 1 else extraRemainder) lines := by
  rw [placeLinesLoop, if_neg forward, if_neg forward, add_assoc _ extra]

theorem placeLinesLoop_adjacent (extra linePos extraRemainder : Int) (lines : List FlexLineData) :
    (placeLinesLoop ctx extra linePos extraRemainder lines).IsChain (Adjacent ctx) := by
  induction lines generalizing linePos extraRemainder with
  | nil => exact .nil
  | cons line lines inductionHypothesis =>
      cases lines with
      | nil => exact .singleton _
      | cons next lines =>
          have later := inductionHypothesis (linePos + line.crossSize + (extra + extraRemainder))
            (if 0 < extraRemainder then extraRemainder - 1 else extraRemainder)
          rw [placeLinesLoop_cons forward] at later ⊢
          rw [placeLinesLoop_cons forward]
          refine .cons_cons ?_ later
          rw [Adjacent, if_neg forward, PlacedLine.stop, PlacedLine.size, ← add_assoc]

end Forward

section Sizes

variable {extra extraRemainder : Int}

theorem placeLinesLoop_sum_nonneg (ctx : FlexCtx) (nonneg : ∀ line ∈ lines, 0 ≤ line.crossSize)
    (spare : 0 ≤ extra) (remains : 0 ≤ extraRemainder) (linePos : Int) :
    0 ≤ ((placeLinesLoop ctx extra linePos extraRemainder lines).map PlacedLine.size).sum := by
  have sizes : 0 ≤ (lines.map FlexLineData.crossSize).sum := by
    apply List.sum_nonneg
    intro size inside
    obtain ⟨line, here, rfl⟩ := List.mem_map.1 inside
    exact nonneg line here
  have shares : 0 ≤ (lines.length : Int) * extra :=
    Int.mul_nonneg (Int.natCast_nonneg _) spare
  have rest := handedOut_nonneg remains lines.length
  rw [placeLinesLoop_sum]
  omega

/-- The lines stay between the start of the first and the end of the last. -/
theorem placeLinesLoop_inside (forward : ctx.wrap ≠ .wrapReverse)
    (nonneg : ∀ line ∈ lines, 0 ≤ line.crossSize) (spare : 0 ≤ extra) (remains : 0 ≤ extraRemainder)
    {linePos : Int} {placed : PlacedLine}
    (inside : placed ∈ placeLinesLoop ctx extra linePos extraRemainder lines) :
    linePos ≤ placed.line.pos ∧ placed.stop ≤ linePos +
      ((placeLinesLoop ctx extra linePos extraRemainder lines).map PlacedLine.size).sum := by
  induction lines generalizing linePos extraRemainder with
  | nil => cases inside
  | cons line lines inductionHypothesis =>
      obtain ⟨here, later⟩ := List.forall_mem_cons.1 nonneg
      have fewer : 0 ≤ if 0 < extraRemainder then extraRemainder - 1 else extraRemainder := by
        split <;> omega
      rw [placeLinesLoop_cons forward] at inside ⊢
      rw [List.map_cons, List.sum_cons]
      rcases List.mem_cons.1 inside with rfl | inside
      · have rest := placeLinesLoop_sum_nonneg ctx later spare fewer
          (linePos + line.crossSize + (extra + extraRemainder))
        refine ⟨le_rfl, ?_⟩
        rw [PlacedLine.stop]
        dsimp only
        omega
      · have between := inductionHypothesis later fewer inside
        rw [PlacedLine.size]
        dsimp only
        omega

/-- A line ends before the lines behind it begin. -/
theorem placeLinesLoop_apart (forward : ctx.wrap ≠ .wrapReverse)
    (nonneg : ∀ line ∈ lines, 0 ≤ line.crossSize) (spare : 0 ≤ extra) (remains : 0 ≤ extraRemainder)
    (linePos : Int) :
    (placeLinesLoop ctx extra linePos extraRemainder lines).Pairwise fun a b =>
      a.stop ≤ b.line.pos ∨ b.stop ≤ a.line.pos := by
  induction lines generalizing linePos extraRemainder with
  | nil => exact .nil
  | cons line lines inductionHypothesis =>
      obtain ⟨here, later⟩ := List.forall_mem_cons.1 nonneg
      have fewer : 0 ≤ if 0 < extraRemainder then extraRemainder - 1 else extraRemainder := by
        split <;> omega
      rw [placeLinesLoop_cons forward]
      refine .cons ?_ (inductionHypothesis later fewer _)
      intro placed inside
      have behind := (placeLinesLoop_inside forward later spare fewer inside).1
      refine .inl ?_
      rw [PlacedLine.stop, PlacedLine.size]
      dsimp only
      omega

end Sizes

/-- Of two lines in reverse order, the second one is not moved behind the extra space of the
first. -/
theorem not_adjacent_reversed (reversed : ctx.wrap = .wrapReverse) {extra extraRemainder : Int}
    (some_extra : 0 < extra + extraRemainder) (linePos : Int) (first second : FlexLineData) (rest : List FlexLineData) :
    ¬ (placeLinesLoop ctx extra linePos extraRemainder (first :: second :: rest)).IsChain
      (Adjacent ctx) := by
  intro chain
  rw [placeLinesLoop, placeLinesLoop] at chain
  have adjacent := (List.isChain_cons_cons.1 chain).1
  rw [Adjacent, if_pos reversed, PlacedLine.stop, PlacedLine.size] at adjacent
  dsimp only at adjacent
  rw [if_pos reversed, if_pos reversed, if_pos reversed] at adjacent
  split at adjacent <;> omega

/-- What the collection of the lines leaves: the cross size is the sum of those of the lines. -/
structure Summed (ctx : FlexCtx) : Prop where
  sum : ctx.crossSize = (ctx.lines.map FlexLineData.crossSize).sum
  nonneg : ∀ line ∈ ctx.lines, 0 ≤ line.crossSize

/-- The division of the extra space over the lines. -/
theorem placeLines_eq (definite : ctx.availableCross ≠ AUTO)
    (larger : ctx.crossSize < ctx.availableCross) (some_line : ctx.lines ≠ []) :
    placeLines ctx = placeLinesLoop ctx ((ctx.availableCross - ctx.crossSize) / ctx.lines.length)
      (if ctx.wrap = .wrapReverse then ctx.crossSize else 0)
      ((ctx.availableCross - ctx.crossSize) % ctx.lines.length) ctx.lines := by
  have free : 0 ≤ ctx.availableCross - ctx.crossSize := by omega
  rw [placeLines, if_pos ⟨definite, larger, List.length_pos_iff.2 some_line⟩,
    ← Int.tdiv_eq_ediv_of_nonneg free, ← Int.tmod_eq_emod_of_nonneg free]

/-- The lines fill a larger container exactly when the division leaves at most one pixel, and there
is one line, or several in normal order. -/
theorem fillsCross_iff (summed : Summed ctx) (definite : ctx.availableCross ≠ AUTO)
    (larger : ctx.crossSize < ctx.availableCross) :
    FillsCross ctx ↔ ctx.lines ≠ [] ∧
      (ctx.availableCross - ctx.crossSize) % ctx.lines.length ≤ 1 ∧
        (ctx.lines.length = 1 ∨ ctx.wrap ≠ .wrapReverse) := by
  obtain ⟨sum, nonneg⟩ := summed
  by_cases some_line : ctx.lines = []
  · refine iff_of_false ?_ fun condition => condition.1 some_line
    intro fills
    have whole := fills.whole
    rw [some_line, List.map_nil, List.sum_nil] at sum
    rw [placeLines, if_neg (by simp [some_line]), some_line, placeLinesLoop, List.map_nil,
      List.sum_nil] at whole
    omega
  have places := placeLines_eq definite larger some_line
  have positive : 0 < (ctx.lines.length : Int) :=
    Int.natCast_pos.2 (List.length_pos_iff.2 some_line)
  have divided := Int.mul_ediv_add_emod (ctx.availableCross - ctx.crossSize) ctx.lines.length
  have remains := Int.emod_nonneg (ctx.availableCross - ctx.crossSize) positive.ne'
  have small := Int.emod_lt_of_pos (ctx.availableCross - ctx.crossSize) positive
  have spare : 0 ≤ (ctx.availableCross - ctx.crossSize) / ctx.lines.length :=
    Int.ediv_nonneg (by omega) positive.le
  have total := placeLinesLoop_sum ctx
    ((ctx.availableCross - ctx.crossSize) / ctx.lines.length)
    (if ctx.wrap = .wrapReverse then ctx.crossSize else 0)
    ((ctx.availableCross - ctx.crossSize) % ctx.lines.length) ctx.lines
  rw [← places, ← sum] at total
  have exactly := handedOut_eq_iff remains small
  constructor
  · intro fills
    have whole := fills.whole
    refine ⟨some_line, exactly.1 (by omega), ?_⟩
    by_contra several
    rw [not_or, not_not] at several
    have adjacent := fills.adjacent
    rw [places] at adjacent
    have some_extra : 0 < (ctx.availableCross - ctx.crossSize) / ctx.lines.length +
        (ctx.availableCross - ctx.crossSize) % ctx.lines.length := by
      by_contra none_extra
      have quotient : (ctx.availableCross - ctx.crossSize) / ctx.lines.length = 0 := by omega
      rw [quotient, mul_zero] at divided
      omega
    cases shape : ctx.lines with
    | nil => exact some_line shape
    | cons first rest =>
        cases rest with
        | nil => exact several.1 (by rw [shape]; rfl)
        | cons second rest =>
            rw [shape] at adjacent some_extra
            exact not_adjacent_reversed several.2 some_extra _ first second rest adjacent
  · rintro ⟨-, few, order⟩
    have whole : ((placeLines ctx).map PlacedLine.size).sum = ctx.availableCross := by
      have handed := exactly.2 few
      omega
    by_cases reversed : ctx.wrap = .wrapReverse
    · obtain ⟨line, shape⟩ := List.length_eq_one_iff.1 (order.resolve_right (not_not.2 reversed))
      have only := places
      rw [shape, if_pos reversed, placeLinesLoop, placeLinesLoop, if_pos reversed] at only
      rw [shape, List.map_cons, List.sum_cons, List.map_nil, List.sum_nil, add_zero] at sum
      refine ⟨whole, ?_, ?_, ?_⟩
      · rw [only]
        exact .singleton _
      · rw [only]
        exact List.pairwise_singleton _ _
      · rw [only, List.map_singleton, List.sum_singleton] at whole
        intro placed inside
        rw [only, List.mem_singleton] at inside
        rw [inside, PlacedLine.stop, whole]
        dsimp only
        omega
    · rw [if_neg reversed] at places
      refine ⟨whole, ?_, ?_, ?_⟩
      · rw [places]
        exact placeLinesLoop_adjacent reversed _ _ _ _
      · rw [places]
        exact placeLinesLoop_apart reversed nonneg spare remains _
      · rw [← whole, places]
        intro placed inside
        have between := placeLinesLoop_inside reversed nonneg spare remains inside
        rw [zero_add] at between
        exact between

/-- A container of 10 pixels for each of its lines and some more. -/
def wrapped (lines : List FlexLineData) (more : Int) : FlexCtx where
  flex := {}
  crossSize := 10 * lines.length
  availableMain := 0
  availableCross := 10 * lines.length + more
  horizontal := true
  wrap := .wrap
  lines

/-- A line of 10 pixels. -/
def tenPixels : FlexLineData where
  crossSize := 10
  first := 0
  count := 1

/-- Two lines share an odd space exactly. -/
theorem two_lines_fill : FillsCross (wrapped [tenPixels, tenPixels] 5) :=
  (fillsCross_iff ⟨by decide, by decide⟩ (by decide) (by decide)).2 (by decide)

/-- Three lines exceed a container with two pixels left over, by one pixel. -/
theorem three_lines_exceed :
    Summed (wrapped [tenPixels, tenPixels, tenPixels] 5) ∧
      ((placeLines (wrapped [tenPixels, tenPixels, tenPixels] 5)).map PlacedLine.size).sum = 36 ∧
        ¬ FillsCross (wrapped [tenPixels, tenPixels, tenPixels] 5) := by
  refine ⟨⟨by decide, by decide⟩, by decide, ?_⟩
  intro fills
  exact absurd fills.whole (by decide)

end Neosurf.LayoutFlex
