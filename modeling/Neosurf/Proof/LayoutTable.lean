/-
This file proves when the columns of a table fill its width. Between their minima and maxima, the
widths are rounded one by one, so that they may miss it.
-/

import Mathlib.Algebra.Order.BigOperators.Group.List
import Mathlib.Data.List.Forall2
import Neosurf.Construction.LayoutTable
import Neosurf.ToMathlib.Shares

namespace Neosurf.LayoutTable

/-- No column is narrower than its minimum, and the columns and the spacing fill the table. -/
structure Filled (borderSpacingH : Int) (cols : List Column) (laid : List Column × Int) : Prop where
  least : List.Forall₂ (fun col col' : Column => col.min ≤ col'.width) cols laid.1
  filled : (laid.1.map Column.width).sum + (cols.length + 1) * borderSpacingH = laid.2

/-- The width is neither below the sum of the minima nor above that of the maxima. -/
def Bounds.Between (b : Bounds) : Prop := b.minWidth < b.autoWidth ∧ b.autoWidth < b.maxWidth

instance (b : Bounds) : Decidable b.Between := inferInstanceAs (Decidable (_ ∧ _))

/-- What the columns can grow. -/
def Bounds.growths (b : Bounds) : List Int := b.cols.map fun col => col.max - col.min

/-- The parts of a pixel that the columns should get beyond whole pixels make up as many pixels as
there are columns that are rounded up. -/
def Bounds.RoundsEven (b : Bounds) : Prop :=
  (b.growths.map fun growth =>
    growth * (b.autoWidth - b.minWidth) % (b.maxWidth - b.minWidth)).sum =
    (b.maxWidth - b.minWidth) *
      b.growths.countP (Shares.roundsUp (b.autoWidth - b.minWidth) (b.maxWidth - b.minWidth))

instance (b : Bounds) : Decidable b.RoundsEven := inferInstanceAs (Decidable (_ = _))

section Columns

variable {col : Column} {cols : List Column} {autoWidth borderSpacingH : Int}

/-- This is a column whose width was distributed by its type. -/
def Column.bounded (narrow : Bool) (autoWidth : Int) (col : Column) : Column :=
  col.settle.bound narrow autoWidth

/-- The bounds only grow, stay in order, and a column that is fixed then is as wide as its
maximum. -/
structure Bounded (col col' : Column) : Prop where
  least : col.min ≤ col'.min
  ordered : col'.min ≤ col'.max
  fixed : col'.type = .fixed → col'.width = col'.max
  flexible : col'.type ≠ .relative

theorem bounded_spec (narrow : Bool) (autoWidth : Int) (placed : col.positioned = false)
    (bounds : col.min ≤ col.max) (type : col.type ≠ .relative) :
    Bounded col (col.bounded narrow autoWidth) := by
  cases kind : col.type with
  | relative => exact absurd kind type
  | fixed =>
      rw [Column.bounded, Column.settle, if_neg (by simp [placed]), if_pos kind]
      split <;> rw [Column.bound, if_neg (by simp [kind])] <;> constructor <;> simp <;> omega
  | percent =>
      rw [Column.bounded, Column.settle, if_neg (by simp [placed]), if_neg (by simp [kind]),
        Column.bound, if_pos kind]
      cases narrow <;> constructor <;> simp [kind] <;> omega
  | unknown =>
      rw [Column.bounded, Column.settle, if_neg (by simp [placed]), if_neg (by simp [kind]),
        Column.bound, if_neg (by simp [kind])]
      exact ⟨le_rfl, bounds, fun fixed => by simp [kind] at fixed, type⟩
  | auto =>
      rw [Column.bounded, Column.settle, if_neg (by simp [placed]), if_neg (by simp [kind]),
        Column.bound, if_neg (by simp [kind])]
      exact ⟨le_rfl, bounds, fun fixed => by simp [kind] at fixed, type⟩

/-- Without positioned and relative columns, the bounds are those of the columns one by one. -/
theorem boundColumns_eq (autoWidth borderSpacingH : Int)
    (placed : ∀ col ∈ cols, col.positioned = false) (bounds : ∀ col ∈ cols, col.min ≤ col.max)
    (types : ∀ col ∈ cols, col.type ≠ .relative) :
    ∃ cols', List.Forall₂ Bounded cols cols' ∧
      boundColumns autoWidth borderSpacingH cols =
        ⟨cols', (cols'.map Column.min).sum + (cols.length + 1) * borderSpacingH,
          (cols'.map Column.max).sum + (cols.length + 1) * borderSpacingH, autoWidth⟩ := by
  unfold boundColumns
  dsimp only
  generalize decide (autoWidth < _) = narrow
  have each : ∀ col ∈ cols, Bounded col (col.bounded narrow autoWidth) := fun col member =>
    bounded_spec narrow autoWidth (placed col member) (bounds col member) (types col member)
  have mapped : (cols.map Column.settle).map (Column.bound narrow autoWidth) =
      cols.map (Column.bounded narrow autoWidth) := List.map_map
  have no_relative : ∀ col ∈ cols.map (Column.bounded narrow autoWidth), col.type ≠ .relative := by
    intro col' member
    obtain ⟨col, here, rfl⟩ := List.mem_map.mp member
    exact (each col here).flexible
  have none_filtered : (cols.map (Column.bounded narrow autoWidth)).filter
      (fun col => col.type = .relative) = [] := by
    rw [List.filter_eq_nil_iff]
    intro col member
    simpa using no_relative col member
  have all_filtered : (cols.map (Column.bounded narrow autoWidth)).filter
      (fun col => col.type ≠ .relative) = cols.map (Column.bounded narrow autoWidth) := by
    rw [List.filter_eq_self]
    intro col member
    simpa using no_relative col member
  refine ⟨cols.map (Column.bounded narrow autoWidth), ?_, ?_⟩
  · rw [List.forall₂_map_right_iff, List.forall₂_same]
    exact each
  · rw [mapped, none_filtered]
    simp only [List.map_nil, List.sum_nil, ne_eq, not_true_eq_false, if_false]
    rw [all_filtered, List.length_map]

theorem forall₂_bounded {cols' : List Column} (bounded : List.Forall₂ Bounded cols cols') :
    ∀ col ∈ cols', col.min ≤ col.max ∧ (col.type = .fixed → col.width = col.max) := by
  induction bounded with
  | nil => simp
  | cons first _ ih =>
      intro col member
      rcases List.mem_cons.mp member with rfl | member
      · exact ⟨first.ordered, first.fixed⟩
      · exact ih col member

/-- The minima of the bounds are no smaller than those of the columns. -/
theorem forall₂_least {cols' laid : List Column} (bounded : List.Forall₂ Bounded cols cols')
    (grown : List.Forall₂ (fun col col' : Column => col.min ≤ col'.width) cols' laid) :
    List.Forall₂ (fun col col' : Column => col.min ≤ col'.width) cols laid := by
  induction bounded generalizing laid with
  | nil => exact grown
  | cons first _ ih =>
      cases grown with
      | cons wide rest => exact .cons (first.least.trans wide) (ih rest)

end Columns

section Spread

variable {chosen : Column → Bool} {extra remainder among count : Int} {cols : List Column}

/-- The pixels of the remainder are handed out one after another. -/
theorem sum_spread (extra : Int) (cols : List Column) (whole : 0 ≤ remainder ∧ remainder < among)
    (inside : 0 ≤ count ∧ count < among) :
    ∃ left, (0 ≤ left ∧ left < among) ∧
      among * ((spread chosen extra remainder among count cols).map Column.width).sum =
        among * (cols.map fun col => if chosen col then col.max + extra else col.width).sum +
          left - count + remainder * cols.countP chosen := by
  induction cols generalizing count with
  | nil => exact ⟨count, inside, by simp [spread]⟩
  | cons col rest ih =>
      rw [spread]
      cases this : chosen col with
      | false =>
          obtain ⟨left, within, sum⟩ := ih inside
          refine ⟨left, within, ?_⟩
          simp [this, mul_add, sum]
          ring
      | true =>
          by_cases out : count - remainder < 0
          · have wrapped : 0 ≤ count - remainder + among ∧ count - remainder + among < among :=
              ⟨by omega, by omega⟩
            obtain ⟨left, within, sum⟩ := ih wrapped
            refine ⟨left, within, ?_⟩
            simp [this, out, mul_add, sum]
            ring
          · have lowered : 0 ≤ count - remainder ∧ count - remainder < among :=
              ⟨by omega, by omega⟩
            obtain ⟨left, within, sum⟩ := ih lowered
            refine ⟨left, within, ?_⟩
            simp [this, out, mul_add, sum]
            ring

theorem spread_least (positive : 0 ≤ extra) (bounds : ∀ col ∈ cols, col.min ≤ col.max)
    (others : ∀ col ∈ cols, chosen col = false → col.min ≤ col.width) :
    List.Forall₂ (fun col col' : Column => col.min ≤ col'.width) cols
      (spread chosen extra remainder among count cols) := by
  induction cols generalizing count with
  | nil => exact .nil
  | cons col rest ih =>
      have bound := bounds col List.mem_cons_self
      have later : ∀ count, List.Forall₂ (fun col col' : Column => col.min ≤ col'.width) rest
          (spread chosen extra remainder among count rest) := fun count =>
        ih (fun other member => bounds other (List.mem_cons_of_mem _ member))
          fun other member => others other (List.mem_cons_of_mem _ member)
      rw [spread]
      split
      · dsimp only
        split
        · exact .cons (by dsimp only; omega) (later _)
        · exact .cons (by dsimp only; omega) (later _)
      · rename_i not_chosen
        exact .cons (others col List.mem_cons_self (by simpa using not_chosen)) (later _)

/-- All pixels are handed out when as many columns are chosen as the space is divided by. -/
theorem sum_spread_all {space : Int} (positive : 0 < among) (all : (cols.countP chosen : Int) = among)
    (others : ∀ col ∈ cols, chosen col = false → col.width = col.max) :
    ((spread chosen (space / among) (space - space / among * among) among 0 cols).map
      Column.width).sum = (cols.map Column.max).sum + space := by
  have split := Int.mul_ediv_add_emod space among
  have low := Int.emod_nonneg space positive.ne'
  have high := Int.emod_lt_of_pos space positive
  have left_over : space - space / among * among = space % among := by
    rw [mul_comm]
    omega
  have base : ∀ extra, (cols.map fun col => if chosen col then col.max + extra else col.width).sum =
      (cols.map Column.max).sum + extra * cols.countP chosen := by
    intro extra
    clear all
    induction cols with
    | nil => simp
    | cons col rest ih =>
        have later := ih fun other member => others other (List.mem_cons_of_mem _ member)
        have here := others col List.mem_cons_self
        rw [List.map_cons, List.map_cons, List.sum_cons, List.sum_cons, later, List.countP_cons]
        cases this : chosen col with
        | true =>
            simp
            ring
        | false =>
            simp [here this]
            ring
  obtain ⟨left, within, sum⟩ :=
    @sum_spread chosen _ _ 0 (space / among) cols ⟨low, high⟩ ⟨le_rfl, positive⟩
  rw [base, all] at sum
  rw [left_over]
  generalize ((spread chosen (space / among) (space % among) among 0 cols).map
    Column.width).sum = widths at sum ⊢
  have more : widths - ((cols.map Column.max).sum + space / among * among) = space % among := by
    apply Shares.eq_of_wraps within
    rw [mul_sub, sum]
    ring
  rw [mul_comm] at split
  omega

/-- The space beyond the maxima is handed out completely. -/
theorem shareOut_spec {space : Int} (nonempty : cols ≠ []) (beyond : 0 ≤ space)
    (bounds : ∀ col ∈ cols, col.min ≤ col.max)
    (fixed : ∀ col ∈ cols, col.type = .fixed → col.width = col.max) :
    List.Forall₂ (fun col col' : Column => col.min ≤ col'.width) cols (shareOut space cols) ∧
      ((shareOut space cols).map Column.width).sum = (cols.map Column.max).sum + space := by
  unfold shareOut
  dsimp only
  by_cases none_flexible : (cols.filter fun col => col.type ≠ .fixed) = []
  · simp only [none_flexible, if_true, decide_true, Bool.true_or]
    have positive : 0 < (cols.length : Int) := by
      have := List.length_pos_of_ne_nil nonempty
      omega
    refine ⟨spread_least (Int.ediv_nonneg beyond positive.le) bounds (by simp), ?_⟩
    exact sum_spread_all positive (by simp) (by simp)
  · simp only [none_flexible, if_false, decide_false, Bool.false_or]
    have positive : 0 < ((cols.filter fun col => col.type ≠ .fixed).length : Int) := by
      have := List.length_pos_of_ne_nil none_flexible
      omega
    have unchosen : ∀ col ∈ cols, decide (col.type ≠ .fixed) = false → col.width = col.max :=
      fun col member not_chosen => fixed col member (by simpa using not_chosen)
    refine ⟨spread_least (Int.ediv_nonneg beyond positive.le) bounds fun col member not_chosen => ?_,
      sum_spread_all positive ?_ unchosen⟩
    · rw [unchosen col member not_chosen]
      exact bounds col member
    · rw [List.countP_eq_length_filter]

end Spread

section Distribute

variable {b : Bounds} {cols cols' : List Column} {borderSpacingH : Int}

/-- The widths between the minima and the maxima are rounded shares. -/
theorem between_width (between : b.Between) {col : Column} (bounds : col.min ≤ col.max) :
    b.widthOf col = col.min +
      Shares.rounded (b.autoWidth - b.minWidth) (b.maxWidth - b.minWidth) (col.max - col.min) := by
  obtain ⟨above, below⟩ := between
  have growth : (0 : ℚ) ≤ ((col.max - col.min : Int) : ℚ) := by
    exact_mod_cast (by omega : 0 ≤ col.max - col.min)
  have part : (0 : ℚ) ≤ ((b.autoWidth - b.minWidth : Int) : ℚ) := by
    exact_mod_cast (by omega : 0 ≤ b.autoWidth - b.minWidth)
  have whole : (0 : ℚ) ≤ ((b.maxWidth - b.minWidth : Int) : ℚ) := by
    exact_mod_cast (by omega : 0 ≤ b.maxWidth - b.minWidth)
  have natural : ¬ (1 / 2 + ((col.max - col.min : Int) : ℚ) * b.scale < 0) := by
    have share := mul_nonneg growth (div_nonneg part whole)
    rw [Bounds.scale]
    linarith
  rw [Bounds.widthOf, truncate, if_neg natural, Bounds.scale]
  exact congrArg (col.min + ·) (Shares.floor_half_add (by omega) _)

theorem rounded_nonneg {part whole growth : Int} (positive : 0 < whole) (some_part : 0 ≤ part)
    (grows : 0 ≤ growth) : 0 ≤ Shares.rounded part whole growth := by
  have share := Int.ediv_nonneg (mul_nonneg grows some_part) positive.le
  rw [Shares.rounded]
  split <;> omega

theorem sum_growths (b : Bounds) :
    b.growths.sum = (b.cols.map Column.max).sum - (b.cols.map Column.min).sum := by
  rw [Bounds.growths]
  induction b.cols with
  | nil => rfl
  | cons col rest ih =>
      simp only [List.map_cons, List.sum_cons, ih]
      omega

/-- Between the bounds, the table is filled exactly when the rounding is even. -/
theorem between_filled (between : b.Between) (bounds : ∀ col ∈ b.cols, col.min ≤ col.max)
    (least : List.Forall₂ Bounded cols b.cols)
    (min_width : b.minWidth = (b.cols.map Column.min).sum + (cols.length + 1) * borderSpacingH)
    (max_width : b.maxWidth = (b.cols.map Column.max).sum + (cols.length + 1) * borderSpacingH)
    (tableWidth : Option Int) :
    Filled borderSpacingH cols (b.distribute tableWidth) ↔ b.RoundsEven := by
  have positive : 0 < b.maxWidth - b.minWidth := by
    have := between.1
    have := between.2
    omega
  have whole : b.growths.sum = b.maxWidth - b.minWidth := by
    rw [sum_growths, max_width, min_width]
    omega
  have total : (b.cols.map b.widthOf).sum = (b.cols.map Column.min).sum +
        (b.growths.map (Shares.rounded (b.autoWidth - b.minWidth) (b.maxWidth - b.minWidth))).sum := by
    have widths : b.cols.map b.widthOf = b.cols.map fun col => col.min + Shares.rounded
        (b.autoWidth - b.minWidth) (b.maxWidth - b.minWidth) (col.max - col.min) :=
      List.map_congr_left fun col member => between_width between (bounds col member)
    rw [widths, List.sum_map_add, Bounds.growths, List.map_map]
    rfl
  have laid : b.distribute tableWidth =
      (b.cols.map fun col => { col with width := b.widthOf col }, b.autoWidth) := by
    unfold Bounds.distribute
    rw [if_neg (by have := between.1; omega), if_neg (by have := between.2; omega)]
  have widths : (b.cols.map fun col => { col with width := b.widthOf col }).map Column.width =
      b.cols.map b.widthOf := List.map_map
  rw [laid, Bounds.RoundsEven, ← Shares.sum_rounded_eq_iff positive whole]
  constructor
  · intro filled
    have sum := filled.filled
    rw [widths, total] at sum
    omega
  · intro even
    constructor
    · apply forall₂_least least
      rw [List.forall₂_map_right_iff, List.forall₂_same]
      intro col member
      have grows := rounded_nonneg positive
        (sub_nonneg.mpr between.1.le) (sub_nonneg.mpr (bounds col member))
      dsimp only
      rw [between_width between (bounds col member)]
      omega
    · rw [widths, total, even]
      omega

/-- Elsewhere, the table is filled. -/
theorem not_between_filled (elsewhere : ¬ b.Between) (nonempty : b.cols ≠ [])
    (bounds : ∀ col ∈ b.cols, col.min ≤ col.max)
    (fixed : ∀ col ∈ b.cols, col.type = .fixed → col.width = col.max)
    (least : List.Forall₂ Bounded cols b.cols)
    (min_width : b.minWidth = (b.cols.map Column.min).sum + (cols.length + 1) * borderSpacingH)
    (max_width : b.maxWidth = (b.cols.map Column.max).sum + (cols.length + 1) * borderSpacingH)
    {tableWidth : Option Int} (same : ∀ width ∈ tableWidth, width = b.autoWidth) :
    Filled borderSpacingH cols (b.distribute tableWidth) := by
  unfold Bounds.distribute
  split
  · constructor
    · apply forall₂_least least
      rw [List.forall₂_map_right_iff, List.forall₂_same]
      exact fun col _ => le_rfl
    · rw [List.map_map, min_width]
      rfl
  · split
    · cases tableWidth with
      | none =>
          constructor
          · apply forall₂_least least
            rw [List.forall₂_map_right_iff, List.forall₂_same]
            exact bounds
          · rw [List.map_map, max_width]
            rfl
      | some width =>
          have wide := same width rfl
          have beyond : 0 ≤ width - b.maxWidth := by
            omega
          obtain ⟨grown, sum⟩ := shareOut_spec nonempty beyond bounds fixed
          refine ⟨forall₂_least least grown, ?_⟩
          dsimp only
          rw [sum]
          omega
    · rename_i above below
      exact absurd ⟨not_le.mp above, not_le.mp below⟩ elsewhere

end Distribute

end Neosurf.LayoutTable
