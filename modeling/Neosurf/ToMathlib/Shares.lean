/-
This file is about shares of a number that are rounded to the nearest integer, and about parts of a
whole in proportion, which a truncated division computes.
-/

import Mathlib.Algebra.BigOperators.Group.List.Basic
import Mathlib.Algebra.Order.Ring.Int
import Mathlib.Data.Rat.Floor
import Mathlib.Tactic.FieldSimp
import Mathlib.Tactic.Linarith
import Mathlib.Tactic.Ring

namespace Shares

variable {part whole : Int}

/-- A remainder of at least one half is rounded up. -/
def roundsUp (part whole size : Int) : Bool := whole ≤ 2 * (size * part % whole)

/-- This share is rounded to the nearest integer. -/
def rounded (part whole size : Int) : Int :=
  size * part / whole + if roundsUp part whole size then 1 else 0

theorem rounded_eq_div (positive : 0 < whole) (size : Int) :
    rounded part whole size = (2 * (size * part) + whole) / (2 * whole) := by
  have split := Int.mul_ediv_add_emod (size * part) whole
  have low := Int.emod_nonneg (size * part) positive.ne'
  have high := Int.emod_lt_of_pos (size * part) positive
  simp only [rounded, roundsUp, decide_eq_true_eq]
  generalize size * part / whole = quotient at split ⊢
  generalize size * part % whole = remainder at split low high ⊢
  rw [← split]
  have regroup : 2 * (whole * quotient + remainder) + whole =
      2 * remainder + whole + 2 * whole * quotient := by ring
  rw [regroup, Int.add_mul_ediv_left _ _ (by omega)]
  split
  · have one : (2 * remainder + whole) / (2 * whole) = 1 := by
      rw [Int.ediv_eq_iff_of_pos (by omega)]
      omega
    omega
  · have none : (2 * remainder + whole) / (2 * whole) = 0 := by
      apply Int.ediv_eq_zero_of_lt <;> omega
    omega

/-- The half that is added to a share before it is cut off rounds it. -/
theorem floor_half_add (positive : 0 < whole) (size : Int) :
    ⌊(1 / 2 + (size : ℚ) * (part / whole) : ℚ)⌋ = rounded part whole size := by
  obtain ⟨n, rfl⟩ := Int.eq_ofNat_of_zero_le positive.le
  have fraction : (1 / 2 + (size : ℚ) * (part / (n : Int)) : ℚ) =
      ((2 * (size * part) + n : Int) : ℚ) / ((2 * n : Nat) : ℚ) := by
    have nonzero : (n : ℚ) ≠ 0 := by
      exact_mod_cast positive.ne'
    push_cast
    field_simp
    ring
  rw [rounded_eq_div positive, fraction, Rat.floor_intCast_div_natCast]
  push_cast
  rfl

/-- The rounded shares and the remainders. -/
theorem sum_rounded (part whole : Int) (sizes : List Int) :
    whole * (sizes.map (rounded part whole)).sum +
        (sizes.map fun size => size * part % whole).sum =
      sizes.sum * part + whole * sizes.countP (roundsUp part whole) := by
  induction sizes with
  | nil => simp
  | cons size rest ih =>
      have split := Int.mul_ediv_add_emod (size * part) whole
      simp only [List.map_cons, List.sum_cons, List.countP_cons, rounded]
      push_cast
      split
      · linarith
      · linarith

/-- Shares of the whole, rounded, make up the part exactly when the remainders make up the shares
that are rounded up. -/
theorem sum_rounded_eq_iff (positive : 0 < whole) {sizes : List Int} (sum : sizes.sum = whole) :
    (sizes.map (rounded part whole)).sum = part ↔
      (sizes.map fun size => size * part % whole).sum =
        whole * sizes.countP (roundsUp part whole) := by
  have all := sum_rounded part whole sizes
  rw [sum] at all
  constructor
  · intro filled
    rw [filled] at all
    linarith
  · intro even
    rw [even] at all
    have same : whole * (sizes.map (rounded part whole)).sum = whole * part := by linarith
    exact Int.eq_of_mul_eq_mul_left positive.ne' same

/-- A count that comes back below the whole has run out once for each unit of the remainder. -/
theorem eq_of_wraps {among remainder more count : Int} (inside : 0 ≤ count ∧ count < among)
    (wraps : among * more = count + remainder * among) : more = remainder := by
  have multiple : among * (more - remainder) = count := by linarith
  have positive : 0 < among := by omega
  have zero : more - remainder = 0 := by
    by_contra nonzero
    rcases Int.lt_or_gt_of_ne nonzero with less | more_than
    · nlinarith
    · nlinarith
  omega

end Shares

namespace Portions

variable {whole part other full : Int}

theorem tdiv_nonneg_of_nonneg (inside : 0 ≤ whole) (positive : 0 ≤ part) (some : 0 < full) :
    0 ≤ (whole * part).tdiv full :=
  Int.tdiv_nonneg (mul_nonneg inside positive) some.le

/-- A quotient is in range exactly when its dividend is between two multiples. -/
theorem tdiv_mem_iff {dividend limit : Int} (positive : 0 < full) (room : 0 ≤ limit) :
    0 ≤ dividend.tdiv full ∧ dividend.tdiv full ≤ limit ↔
      -full < dividend ∧ dividend < (limit + 1) * full := by
  rcases le_or_gt 0 dividend with up | down
  · have below : dividend / full < limit + 1 ↔ dividend < (limit + 1) * full :=
      Int.ediv_lt_iff_lt_mul positive
    have := Int.ediv_nonneg up positive.le
    rw [Int.tdiv_eq_ediv_of_nonneg up, ← below]
    omega
  · obtain ⟨size, rfl⟩ : ∃ size, dividend = -size := ⟨-dividend, by omega⟩
    have above : 0 ≤ size.tdiv full := Int.tdiv_nonneg (by omega) positive.le
    have below : -size < (limit + 1) * full :=
      down.trans_le (mul_nonneg (by omega) positive.le)
    rw [Int.tdiv_eq_ediv_of_nonneg (by omega)] at above
    rw [Int.neg_tdiv, Int.tdiv_eq_ediv_of_nonneg (by omega)]
    have small : size / full < 1 ↔ size < 1 * full := Int.ediv_lt_iff_lt_mul positive
    rw [one_mul] at small
    constructor
    · exact fun bounds => ⟨by omega, below⟩
    · exact fun bounds => by omega

theorem tdiv_le_of_part_le (inside : 0 ≤ whole) (some : 0 < full) (fits : part ≤ full)
    (positive : 0 ≤ part) : (whole * part).tdiv full ≤ whole := by
  refine ((tdiv_mem_iff some inside).mpr ⟨?_, ?_⟩).2
  · have := mul_nonneg inside positive
    omega
  · nlinarith

/-- Two parts that fit together into the full size fit together into the whole. -/
theorem tdiv_add_tdiv_le (inside : 0 ≤ whole) (some : 0 < full) (positive : 0 ≤ part)
    (fits : part + other ≤ full) :
    (whole * part).tdiv full + (whole * other).tdiv full ≤ whole := by
  have division (dividend : Int) := Int.mul_tdiv_add_tmod dividend full
  have first := Int.tmod_nonneg full (mul_nonneg inside positive)
  have second := Int.lt_tmod_of_pos (whole * other) some
  have together : whole * (part + other) ≤ whole * full := mul_le_mul_of_nonneg_left fits inside
  -- The first quotient rounds down. The second misses its dividend by less than one full size.
  have scaled : full * ((whole * part).tdiv full + (whole * other).tdiv full) <
      full * (whole + 1) := by
    linarith [division (whole * part), division (whole * other)]
  exact Int.lt_add_one_iff.mp (lt_of_mul_lt_mul_left scaled some.le)

end Portions
