/-
This file proves when the items of a flex line get sizes within their bounds that fill the line.
-/

import Mathlib.Algebra.Order.BigOperators.Group.List
import Mathlib.Algebra.Order.Group.Abs
import Mathlib.Algebra.Order.Ring.Int
import Neosurf.Proof.LayoutFlex.Passes

namespace Neosurf.LayoutFlex

open Css

variable {ctx : FlexCtx} {line line' : FlexLineData} {items items' : List FlexItemData}
  {item item' : FlexItemData} {initialFreeMain availableMain : Int} {grow : Bool}

/-- The largest of the lower bounds of an item. -/
def lowerBound (item : FlexItemData) : Int := max (max item.minMain item.box.minWidth) 0

/-- A maximum of zero is none. -/
def InBounds (item : FlexItemData) (size : Int) : Prop :=
  lowerBound item ≤ size ∧ (0 < item.maxMain → size ≤ item.maxMain)

def AtBound (item : FlexItemData) (size : Int) : Prop :=
  size = lowerBound item ∨ 0 < item.maxMain ∧ size = item.maxMain

/-- These are the items that step 3 does not freeze. -/
def Flexible (grow : Bool) (item : FlexItemData) : Prop :=
  if grow then item.grow ≠ 0 ∧ item.baseSize ≤ item.mainSize
  else item.shrink ≠ 0 ∧ item.mainSize ≤ item.baseSize

def inFlow (items : List FlexItemData) : List FlexItemData :=
  items.filter fun item => !item.box.absolute

def targetSum (items : List FlexItemData) : Int :=
  (items.map FlexItemData.targetMainSize).sum

/-- The items are within their bounds, and they fill the line to a pixel for each or the bounds
decide all sizes. -/
structure Sized (availableMain : Int) (grow : Bool) (items : List FlexItemData) : Prop where
  inBounds : ∀ item ∈ items, InBounds item item.targetMainSize
  filled :
    |targetSum (inFlow items) - availableMain| ≤ (inFlow items).length ∧
        (grow = true → targetSum (inFlow items) ≤ availableMain) ∨
      ∀ item ∈ items, Flexible grow item → AtBound item item.targetMainSize

section Clamp

/-- This is an item without what the passes change. -/
def bare (item : FlexItemData) : FlexItemData :=
  { item with targetMainSize := 0, freeze := false, minViolation := false, maxViolation := false }

theorem raiseTo_eq (bound : Int) (item : FlexItemData) :
    raiseTo bound item =
      { item with
        targetMainSize := max item.targetMainSize bound
        minViolation := item.minViolation || decide (item.targetMainSize < bound) } := by
  rw [raiseTo]
  split
  next below => rw [max_eq_right below.le, decide_eq_true below, Bool.or_true]
  next above => rw [max_eq_left (not_lt.1 above), decide_eq_false above, Bool.or_false]

theorem bare_lowerToMax (item : FlexItemData) : bare (lowerToMax item) = bare item := by
  rw [lowerToMax]
  split <;> rfl

theorem bare_clamp (item : FlexItemData) : bare (clamp item) = bare item := by
  rw [clamp]
  split
  next => rfl
  next =>
      rw [raiseTo_eq, raiseTo_eq, raiseTo_eq]
      exact bare_lowerToMax item

theorem clamp_target (unfrozen : item.freeze = false) :
    (clamp item).targetMainSize = max (lowerToMax item).targetMainSize (lowerBound item) := by
  rw [clamp, if_neg (Bool.eq_false_iff.1 unfrozen), raiseTo_eq, raiseTo_eq, raiseTo_eq,
    lowerBound]
  dsimp only
  rw [max_assoc, max_assoc, max_assoc]

theorem lowerToMax_inBounds (item : FlexItemData) (some_max : 0 < item.maxMain) :
    (lowerToMax item).targetMainSize ≤ item.maxMain := by
  rw [lowerToMax]
  split
  next => exact le_rfl
  next below => exact not_lt.1 fun above => below ⟨some_max, above⟩

/-- The size of an item is within its bounds once it is clamped. -/
theorem clamp_inBounds (unfrozen : item.freeze = false) (main : InBounds item item.mainSize) :
    InBounds item (clamp item).targetMainSize := by
  rw [clamp_target unfrozen]
  refine ⟨le_max_right _ _, fun some_max => max_le (lowerToMax_inBounds item some_max) ?_⟩
  exact main.1.trans (main.2 some_max)

/-- A flag for a lower bound is old or right. -/
theorem minViolation_clamp (unfrozen : item.freeze = false)
    (flagged : (clamp item).minViolation = true) :
    item.minViolation = true ∨ (lowerToMax item).targetMainSize < lowerBound item := by
  have old : (lowerToMax item).minViolation = item.minViolation := by
    rw [lowerToMax]
    split <;> rfl
  rw [clamp, if_neg (Bool.eq_false_iff.1 unfrozen), raiseTo_eq, raiseTo_eq, raiseTo_eq] at flagged
  simp only [Bool.or_eq_true, decide_eq_true_eq, old] at flagged
  rw [lowerBound]
  rcases flagged with ((old | below) | below) | below
  · exact .inl old
  · exact .inr (by omega)
  · exact .inr (by omega)
  · exact .inr (by omega)

/-- So is a flag for an upper bound. -/
theorem maxViolation_clamp (unfrozen : item.freeze = false)
    (flagged : (clamp item).maxViolation = true) :
    item.maxViolation = true ∨ 0 < item.maxMain ∧ item.maxMain < item.targetMainSize := by
  rw [clamp, if_neg (Bool.eq_false_iff.1 unfrozen), raiseTo_maxViolation, raiseTo_maxViolation,
    raiseTo_maxViolation, lowerToMax] at flagged
  split at flagged
  next above => exact .inr above
  next => exact .inl flagged

end Clamp

section Shares

/-- The size with which an item takes part in the free space. -/
def currentSize (item : FlexItemData) : Int :=
  if item.freeze then item.targetMainSize else item.baseSize

/-- The factor of an unfrozen item in the shares. -/
def factor (grow : Bool) (item : FlexItemData) : Int :=
  if grow then item.grow else scaledShrinkFactor item

def factorSum (grow : Bool) (items : List FlexItemData) : Int :=
  (items.map fun item => if item.freeze then 0 else factor grow item).sum

/-- The quotients are cut off to 1024ths. -/
def quotientSum (grow : Bool) (sum : Int) (items : List FlexItemData) : Int :=
  (items.map fun item => if item.freeze then 0 else FDIV (factor grow item) sum).sum

theorem freeMain_eq (availableMain : Int) (items : List FlexItemData) :
    freeMain availableMain items = availableMain - (items.map currentSize).sum := by
  rw [freeMain]
  induction items generalizing availableMain with
  | nil => rw [List.foldl_nil, List.map_nil, List.sum_nil, sub_zero]
  | cons item rest inductionHypothesis =>
      rw [List.foldl_cons, inductionHypothesis, List.map_cons, List.sum_cons, currentSize, sub_sub]

theorem saturate_eq {x : Int} (low : -2 ^ 31 ≤ x) (high : x < 2 ^ 31) : saturate x = x := by
  unfold saturate
  split_ifs <;> omega

/-- A saturated number stays above a bound that fits. -/
theorem le_saturate {a x : Int} (le : a ≤ x) (fits : a < 2 ^ 31) : a ≤ saturate x := by
  unfold saturate
  split_ifs <;> omega

/-- A quotient of a part is at most one, and it is cut off. -/
theorem FDIV_part {p sum : Int} (nonneg : 0 ≤ p) (part : p ≤ sum) (positive : 0 < sum) :
    0 ≤ FDIV p sum ∧ FDIV p sum ≤ 1024 ∧ FDIV p sum * sum ≤ 1024 * p := by
  have low : 0 ≤ p * 2 ^ RADIX_POINT / sum :=
    Int.ediv_nonneg (mul_nonneg nonneg (by decide)) positive.le
  have high : p * 2 ^ RADIX_POINT / sum ≤ 1024 := by
    refine Int.ediv_le_of_le_mul positive ?_
    rw [mul_comm]
    exact mul_le_mul_of_nonneg_left part (by decide)
  have exactly : FDIV p sum = p * 2 ^ RADIX_POINT / sum := by
    rw [FDIV, Int.tdiv_eq_ediv_of_nonneg (mul_nonneg nonneg (by decide))]
    exact saturate_eq (by omega) (by omega)
  rw [exactly]
  refine ⟨low, high, (Int.ediv_mul_le _ positive.ne').trans ?_⟩
  rw [mul_comm]
  exact le_rfl

/-- A share of the space is exact, as far as its quotient is. -/
theorem share_eq {space quotient remainder : Int} (space_nonneg : 0 ≤ space)
    (small : space < 2 ^ 21) (nonneg : 0 ≤ quotient) (part : quotient ≤ 1024)
    (fraction_nonneg : 0 ≤ remainder) (fraction : remainder < 1024) :
    toInt32 (FMUL (INTTOFIX space) quotient + remainder) = space * quotient + remainder := by
  have fixed : INTTOFIX space = space * 2 ^ RADIX_POINT :=
    saturate_eq (by rw [RADIX_POINT]; omega) (by rw [RADIX_POINT]; omega)
  have product_nonneg : 0 ≤ space * quotient := mul_nonneg space_nonneg nonneg
  have product_le : space * quotient ≤ space * 1024 := mul_le_mul_of_nonneg_left part space_nonneg
  have shifted : (space * 2 ^ RADIX_POINT * quotient) >>> RADIX_POINT = space * quotient := by
    rw [Int.shiftRight_eq_div_pow, mul_right_comm]
    exact Int.mul_ediv_cancel _ (by decide)
  rw [FMUL, fixed, shifted, saturate_eq (by omega) (by omega), toInt32]
  omega

theorem FIXFRAC_bounds (a : Int) : 0 ≤ FIXFRAC a ∧ FIXFRAC a < 1024 :=
  ⟨Int.emod_nonneg _ (by decide), Int.emod_lt_of_pos _ (by decide)⟩

theorem targetSum_cons (item : FlexItemData) (items : List FlexItemData) :
    targetSum (item :: items) = item.targetMainSize + targetSum items := List.sum_cons

theorem factorSum_cons (grow : Bool) (item : FlexItemData) (items : List FlexItemData) :
    factorSum grow (item :: items) =
      (if item.freeze then 0 else factor grow item) + factorSum grow items := List.sum_cons

theorem quotientSum_cons (grow : Bool) (sum : Int) (item : FlexItemData)
    (items : List FlexItemData) :
    quotientSum grow sum (item :: items) =
      (if item.freeze then 0 else FDIV (factor grow item) sum) + quotientSum grow sum items :=
  List.sum_cons

theorem factor_parts_nonneg
    (nonneg : ∀ item ∈ items, item.freeze = false → 0 ≤ factor grow item) :
    ∀ part ∈ items.map fun item => if item.freeze then 0 else factor grow item, 0 ≤ part := by
  intro part here
  obtain ⟨item, inside, rfl⟩ := List.mem_map.1 here
  split
  next => exact le_rfl
  next free => exact nonneg item inside (Bool.eq_false_of_not_eq_true free)

/-- The factor of each unfrozen item is a part of the sum. -/
theorem factor_le_factorSum
    (nonneg : ∀ item ∈ items, item.freeze = false → 0 ≤ factor grow item)
    (inside : item ∈ items) (unfrozen : item.freeze = false) :
    factor grow item ≤ factorSum grow items := by
  have part : (if item.freeze then 0 else factor grow item) ≤ factorSum grow items :=
    List.single_le_sum (factor_parts_nonneg nonneg) _ (List.mem_map_of_mem inside)
  rw [if_neg (Bool.eq_false_iff.1 unfrozen)] at part
  exact part

/-- The quotients sum to one at most. -/
theorem quotientSum_le (nonneg : ∀ item ∈ items, item.freeze = false → 0 ≤ factor grow item)
    (positive : 0 < factorSum grow items) :
    quotientSum grow (factorSum grow items) items ≤ 1024 := by
  have products {some_items : List FlexItemData} (among : ∀ item ∈ some_items, item ∈ items) :
      quotientSum grow (factorSum grow items) some_items * factorSum grow items ≤
        1024 * factorSum grow some_items := by
    induction some_items with
    | nil => simp [quotientSum, factorSum]
    | cons item rest inductionHypothesis =>
        obtain ⟨inside, later⟩ := List.forall_mem_cons.1 among
        have sums := inductionHypothesis later
        rw [quotientSum_cons, factorSum_cons grow item rest, add_mul, mul_add]
        refine add_le_add ?_ sums
        split
        next => rw [zero_mul, mul_zero]
        next free =>
            have unfrozen := Bool.eq_false_of_not_eq_true free
            exact (FDIV_part (nonneg item inside unfrozen)
              (factor_le_factorSum nonneg inside unfrozen) positive).2.2
  exact le_of_mul_le_mul_right (products fun item inside => inside) positive

/-- The shares give unfrozen items new sizes, and nothing else changes. -/
structure Resized (items items' : List FlexItemData) : Prop where
  length : items'.length = items.length
  each : ∀ item' ∈ items', ∃ item ∈ items, ∃ size,
    item' = { item with targetMainSize := size } ∧ (item.freeze = true → item' = item)

theorem Resized.same (items : List FlexItemData) : Resized items items :=
  ⟨rfl, fun item inside => ⟨item, inside, item.targetMainSize, rfl, fun _ => rfl⟩⟩

theorem Resized.cons (later : Resized items items') {size : Int}
    (frozen : item.freeze = true → { item with targetMainSize := size } = item) :
    Resized (item :: items) ({ item with targetMainSize := size } :: items') := by
  refine ⟨congrArg (· + 1) later.length, List.forall_mem_cons.2 ⟨?_, ?_⟩⟩
  · exact ⟨item, List.mem_cons_self, size, rfl, frozen⟩
  · intro item' inside
    obtain ⟨other, here, resized⟩ := later.each item' inside
    exact ⟨other, List.mem_cons_of_mem item here, resized⟩

theorem Resized.keep (later : Resized items items') (item : FlexItemData) :
    Resized (item :: items) (item :: items') :=
  later.cons fun _ => rfl

/-- The quotients of the unfrozen items are parts. -/
def Parts (grow : Bool) (sum : Int) (items : List FlexItemData) : Prop :=
  ∀ item ∈ items, item.freeze = false →
    0 ≤ FDIV (factor grow item) sum ∧ FDIV (factor grow item) sum ≤ 1024

variable {sum space remainder : Int}

/-- The shares of growing items add up to the space times the quotients. The fraction that is left
is carried to the end. -/
theorem growLoop_shares (parts : Parts true sum items) (space_nonneg : 0 ≤ space)
    (small : space < 2 ^ 21) (fraction_nonneg : 0 ≤ remainder) (fraction : remainder < 1024)
    (grown : growLoop sum space remainder items = some items') :
    Resized items items' ∧ targetSum items' =
      (items.map currentSize).sum + (space * quotientSum true sum items + remainder) / 1024 := by
  induction items generalizing remainder items' with
  | nil =>
      obtain rfl := Option.some.inj grown
      refine ⟨.same [], ?_⟩
      simp [targetSum, quotientSum]
      omega
  | cons item rest inductionHypothesis =>
      obtain ⟨part, later⟩ := List.forall_mem_cons.1 parts
      rw [growLoop] at grown
      split at grown
      next frozen =>
          obtain ⟨rest', grownRest, done⟩ := Option.bind_eq_some_iff.1 grown
          obtain rfl := Option.some.inj done
          obtain ⟨resized, total⟩ :=
            inductionHypothesis later fraction_nonneg fraction grownRest
          refine ⟨resized.keep item, ?_⟩
          rw [targetSum_cons, total, List.map_cons, List.sum_cons, quotientSum_cons,
            if_pos frozen, zero_add, currentSize, if_pos frozen, add_assoc]
      next free =>
          split at grown
          next => exact absurd grown (Option.some_ne_none _).symm
          next =>
              have unfrozen := Bool.eq_false_of_not_eq_true free
              obtain ⟨nonneg, most⟩ := part unfrozen
              have share : toInt32 (FMUL (INTTOFIX space) (FDIV item.grow sum) + remainder) =
                  space * FDIV (factor true item) sum + remainder :=
                share_eq space_nonneg small nonneg most fraction_nonneg fraction
              obtain ⟨rest', grownRest, done⟩ := Option.bind_eq_some_iff.1 grown
              obtain rfl := Option.some.inj done
              rw [share] at grownRest ⊢
              obtain ⟨resized, total⟩ := inductionHypothesis later (FIXFRAC_bounds _).1
                (FIXFRAC_bounds _).2 grownRest
              refine ⟨resized.cons fun frozen => absurd frozen free, ?_⟩
              rw [targetSum_cons, total, List.map_cons, List.sum_cons, quotientSum_cons,
                if_neg free, currentSize, if_neg free, mul_add, FIXTOINT, FIXFRAC,
                Int.shiftRight_eq_div_pow]
              dsimp only [RADIX_POINT]
              omega

/-- The shares of shrinking items are taken away in the same way. -/
theorem shrinkLoop_shares (parts : Parts false sum items) (nonzero : sum ≠ 0)
    (small : |space| < 2 ^ 21) (fraction_nonneg : 0 ≤ remainder) (fraction : remainder < 1024)
    (line : FlexLineData) :
    Resized items (shrinkLoop sum space remainder line items).2 ∧
      targetSum (shrinkLoop sum space remainder line items).2 =
        (items.map currentSize).sum - (|space| * quotientSum false sum items + remainder) / 1024 := by
  induction items generalizing remainder line with
  | nil =>
      refine ⟨.same [], ?_⟩
      simp [shrinkLoop, targetSum, quotientSum]
      omega
  | cons item rest inductionHypothesis =>
      obtain ⟨part, later⟩ := List.forall_mem_cons.1 parts
      rw [shrinkLoop]
      split
      next frozen =>
          obtain ⟨resized, total⟩ := inductionHypothesis later fraction_nonneg fraction line
          refine ⟨resized.keep item, ?_⟩
          rw [targetSum_cons, total, List.map_cons, List.sum_cons, quotientSum_cons,
            if_pos frozen, zero_add, currentSize, if_pos frozen, add_sub_assoc]
      next free =>
          have unfrozen := Bool.eq_false_of_not_eq_true free
          obtain ⟨nonneg, most⟩ := part unfrozen
          have share : toInt32
              (FMUL (INTTOFIX |space|) (FDIV (scaledShrinkFactor item) sum) + remainder) =
                |space| * FDIV (factor false item) sum + remainder :=
            share_eq (abs_nonneg space) small nonneg most fraction_nonneg fraction
          dsimp only
          rw [share]
          obtain ⟨resized, total⟩ := inductionHypothesis later (FIXFRAC_bounds _).1
            (FIXFRAC_bounds _).2 line
          refine ⟨resized.cons fun frozen => absurd frozen free, ?_⟩
          rw [targetSum_cons, total, List.map_cons, List.sum_cons, quotientSum_cons,
            if_neg free, currentSize, if_neg free, mul_add, FIXTOINT, FIXFRAC,
            Int.shiftRight_eq_div_pow]
          dsimp only [RADIX_POINT]
          omega

/-- When the factors sum to zero every item is frozen at its main size. -/
theorem shrinkLoop_zero (space remainder : Int) (line : FlexLineData) (items : List FlexItemData) :
    (shrinkLoop 0 space remainder line items).2 = items.map fun item =>
      if item.freeze then item
      else { item with targetMainSize := item.mainSize, freeze := true } := by
  induction items generalizing line with
  | nil => rfl
  | cons item rest inductionHypothesis =>
      rw [shrinkLoop, List.map_cons]
      split
      next => exact congrArg (item :: ·) (inductionHypothesis line)
      next =>
          rw [if_pos rfl]
          exact congrArg ({ item with targetMainSize := item.mainSize, freeze := true } :: ·)
            (inductionHypothesis _)

end Shares

section Pass

/-- This holds of each item before every pass but for the last. -/
structure Fair (grow : Bool) (item : FlexItemData) : Prop where
  inFlow : item.box.absolute = false
  main : InBounds item item.mainSize
  flexible : item.freeze = false → Flexible grow item
  settled : item.freeze = true → InBounds item item.targetMainSize ∧
    (Flexible grow item → AtBound item item.targetMainSize)

/-- A pass is exact when the sum of its factors is at least one and fits, the free space has the
right sign and fits, its shares lose no more than a pixel for each item, no size and no flag is
left of another pass, and what the bounds add fits. -/
structure PassExact (s : Resolving) (line : FlexLineData) (items : List FlexItemData) : Prop where
  one_le : F_1 ≤ unfrozenFactorSum s.grow items
  fits : factorSum s.grow items < 2 ^ 31
  small : |freeMain s.availableMain items| < 2 ^ 21
  growing : s.grow = true → 0 ≤ freeMain s.availableMain items
  shrinking : s.grow = false → freeMain s.availableMain items ≤ 0
  shares : factorSum s.grow items ≠ 0 → |freeMain s.availableMain items| *
    (1024 - quotientSum s.grow (factorSum s.grow items) items) ≤ 1024 * items.length
  kept : freeMain s.availableMain items = 0 → ∀ item ∈ items, item.freeze = false →
    item.targetMainSize = item.baseSize
  flags : ∀ line' items', distributeRemaining s.initialFreeMain s.availableMain s.grow line items =
    some (line', items') → ∀ item ∈ items', item.freeze = false →
      (item.minViolation = true → (lowerToMax item).targetMainSize < lowerBound item) ∧
      (item.maxViolation = true → 0 < item.maxMain ∧ item.maxMain < item.targetMainSize)
  violation : ∀ line' items', distributeRemaining s.initialFreeMain s.availableMain s.grow line
    items = some (line', items') → -2 ^ 31 ≤ violationSum items' ∧ violationSum items' < 2 ^ 31

variable {s : Resolving}

theorem PassExact.passFits (exact_pass : PassExact s line items) :
    PassFits s.initialFreeMain s.availableMain s.grow line items := by
  refine ⟨fun growing large => ?_, exact_pass.violation⟩
  have fits := exact_pass.fits
  rw [growing] at fits
  have less : growSum items < 2 ^ 31 := fits
  omega

/-- The sizes fill the line to a pixel for each item. -/
def Fills (s : Resolving) (items : List FlexItemData) : Prop :=
  |targetSum items - s.availableMain| ≤ items.length ∧
    (s.grow = true → targetSum items ≤ s.availableMain)

theorem scaledShrinkFactor_nonneg {item : FlexItemData} (base : 0 ≤ item.baseSize) :
    0 ≤ scaledShrinkFactor item := by
  have fixed : 0 ≤ INTTOFIX item.baseSize :=
    le_saturate (mul_nonneg base (by decide)) (by decide)
  refine le_saturate ?_ (by decide)
  rw [Int.shiftRight_eq_div_pow]
  exact Int.ediv_nonneg (mul_nonneg item.shrinkNonneg fixed) (by decide)

/-- A factor for shrinking is zero for an item of no size only. -/
theorem baseSize_of_scaledShrinkFactor {item : FlexItemData} (base : 0 ≤ item.baseSize)
    (shrinks : item.shrink ≠ 0) (zero : scaledShrinkFactor item = 0) : item.baseSize = 0 := by
  by_contra nonzero
  have positive : 1 ≤ item.shrink := lt_of_le_of_ne item.shrinkNonneg shrinks.symm
  have fixed : 1024 ≤ INTTOFIX item.baseSize :=
    le_saturate (by rw [RADIX_POINT]; omega) (by decide)
  have product : 1 * 1024 ≤ item.shrink * INTTOFIX item.baseSize :=
    mul_le_mul positive fixed (by decide) item.shrinkNonneg
  have scaled : 1 ≤ scaledShrinkFactor item := by
    refine le_saturate ?_ (by decide)
    rw [Int.shiftRight_eq_div_pow, RADIX_POINT]
    omega
  omega

theorem baseSize_nonneg (fair : Fair false item) (unfrozen : item.freeze = false) :
    0 ≤ item.baseSize :=
  (((le_max_right _ _).trans fair.main.1).trans (fair.flexible unfrozen).2)

/-- An item without a factor for shrinking has its lower bound as its main size. -/
theorem fair_unshrunk (fair : Fair false item) (unfrozen : item.freeze = false)
    (zero : factor false item = 0) :
    Fair false { item with targetMainSize := item.mainSize, freeze := true } := by
  have flexible : item.shrink ≠ 0 ∧ item.mainSize ≤ item.baseSize := fair.flexible unfrozen
  have base := baseSize_of_scaledShrinkFactor (baseSize_nonneg fair unfrozen) flexible.1 zero
  have low : lowerBound item ≤ item.mainSize := fair.main.1
  have low_nonneg : 0 ≤ lowerBound item := le_max_right _ _
  have bound : item.mainSize = lowerBound item := by omega
  exact ⟨fair.inFlow, fair.main, fun free => absurd free Bool.true_eq_false.mp,
    fun _ => ⟨fair.main, fun _ => .inl bound⟩⟩

theorem factor_nonneg (fair : ∀ item ∈ items, Fair grow item) :
    ∀ item ∈ items, item.freeze = false → 0 ≤ factor grow item := by
  intro item inside unfrozen
  cases grow with
  | true => exact item.growNonneg
  | false => exact scaledShrinkFactor_nonneg (baseSize_nonneg (fair item inside) unfrozen)

theorem parts_of_nonneg (factors : ∀ item ∈ items, item.freeze = false → 0 ≤ factor grow item)
    (positive : 0 < factorSum grow items) : Parts grow (factorSum grow items) items := by
  intro item inside unfrozen
  obtain ⟨nonneg, most, -⟩ := FDIV_part (factors item inside unfrozen)
    (factor_le_factorSum factors inside unfrozen) positive
  exact ⟨nonneg, most⟩

/-- The space that the shares lose is cut off by the quotients. -/
theorem lost_bounds {space quotients : Int} {n : Nat} (space_nonneg : 0 ≤ space)
    (most : quotients ≤ 1024) (loses : space * (1024 - quotients) ≤ 1024 * n) :
    (space * quotients + 0) / 1024 ≤ space ∧ space ≤ (space * quotients + 0) / 1024 + n := by
  have product : space * quotients ≤ space * 1024 := mul_le_mul_of_nonneg_left most space_nonneg
  rw [mul_sub] at loses
  omega

theorem freeMain_remaining (exact_pass : PassExact s line items) :
    remainingFreeMain s.initialFreeMain s.availableMain s.grow items =
      freeMain s.availableMain items := by
  rw [remainingFreeMain]
  exact if_neg (not_lt.2 exact_pass.one_le)

/-- Steps b and c give all items their shares, or they freeze all of them. -/
theorem shared_cases (fair : ∀ item ∈ items, Fair s.grow item)
    (exact_pass : PassExact s line items)
    (distributed : distributeRemaining s.initialFreeMain s.availableMain s.grow line items =
      some (line', items')) :
    Resized items items' ∧ Fills s items' ∨
      ∀ item ∈ items', Fair s.grow item ∧ item.freeze = true := by
  have factors := factor_nonneg fair
  have current := freeMain_eq s.availableMain items
  have small := exact_pass.small
  rw [distributeRemaining, freeMain_remaining exact_pass] at distributed
  split at distributed
  case isFalse no_space =>
      obtain ⟨rfl, rfl⟩ := Prod.mk.inj (Option.some.inj distributed)
      have none_left := not_not.1 no_space
      have sizes : (items.map currentSize).sum = targetSum items := by
        rw [targetSum]
        refine congrArg List.sum (List.map_congr_left fun item inside => ?_)
        rw [currentSize]
        split
        next => rfl
        next free =>
            exact (exact_pass.kept none_left item inside (Bool.eq_false_of_not_eq_true free)).symm
      rw [none_left, sizes] at current
      refine .inl ⟨.same items, ?_, fun _ => by omega⟩
      rw [← sub_eq_zero.1 current.symm, sub_self, abs_zero]
      exact Int.natCast_nonneg _
  case isTrue space =>
      rw [distributeFreeMain] at distributed
      split at distributed
      next growing =>
          obtain ⟨grown, shares, done⟩ := Option.bind_eq_some_iff.1 distributed
          obtain ⟨-, rfl⟩ := Prod.mk.inj (Option.some.inj done)
          have fits := exact_pass.fits
          have one_le := exact_pass.one_le
          have loses := exact_pass.shares
          have nonneg := exact_pass.growing growing
          rw [growing] at fits one_le loses factors shares
          have sum_nonneg : 0 ≤ factorSum true items := List.sum_nonneg (factor_parts_nonneg factors)
          have whole : unfrozenFactorSum true items = factorSum true items := by
            rw [unfrozenFactorSum_grow]
            change toInt32 (factorSum true items) = factorSum true items
            rw [toInt32]
            omega
          rw [whole] at one_le shares
          have positive : 0 < factorSum true items := lt_of_lt_of_le (by decide) one_le
          rw [abs_of_nonneg nonneg] at loses small
          obtain ⟨resized, total⟩ := growLoop_shares (parts_of_nonneg factors positive) nonneg small
            le_rfl (by decide) shares
          have lost := lost_bounds nonneg (quotientSum_le factors positive) (loses positive.ne')
          refine .inl ⟨resized, ?_, fun _ => ?_⟩
          · rw [resized.length, abs_le]
            omega
          · omega
      next shrinking =>
          obtain rfl := congrArg Prod.snd (Option.some.inj distributed)
          have shrinks := Bool.eq_false_of_not_eq_true shrinking
          have fits := exact_pass.fits
          have loses := exact_pass.shares
          have nonpos := exact_pass.shrinking shrinks
          rw [shrinks] at fits loses factors
          have sum_nonneg : 0 ≤ factorSum false items :=
            List.sum_nonneg (factor_parts_nonneg factors)
          have whole : scaledShrinkFactorSum items = factorSum false items := by
            have folded := foldl_toInt32 FlexItemData.freeze scaledShrinkFactor 0 items
            rw [zero_add] at folded
            refine Eq.trans folded ?_
            change toInt32 (factorSum false items) = factorSum false items
            rw [toInt32]
            omega
          rw [whole]
          by_cases zero : factorSum false items = 0
          · refine .inr fun item' inside => ?_
            rw [zero, shrinkLoop_zero] at inside
            obtain ⟨item, here, rfl⟩ := List.mem_map.1 inside
            have fair_item := fair item here
            rw [shrinks] at fair_item ⊢
            split
            next frozen => exact ⟨fair_item, frozen⟩
            next free =>
                have unfrozen := Bool.eq_false_of_not_eq_true free
                exact ⟨fair_unshrunk fair_item unfrozen (le_antisymm
                  ((factor_le_factorSum factors here unfrozen).trans zero.le)
                  (factors item here unfrozen)), rfl⟩
          · have positive : 0 < factorSum false items := lt_of_le_of_ne sum_nonneg (Ne.symm zero)
            obtain ⟨resized, total⟩ :=
              shrinkLoop_shares (parts_of_nonneg factors positive) zero small le_rfl (by decide) line
            have lost := lost_bounds (abs_nonneg _) (quotientSum_le factors positive) (loses zero)
            rw [abs_of_nonpos nonpos] at lost total
            refine .inl ⟨resized, ?_, fun growing => absurd growing shrinking⟩
            rw [resized.length, abs_le]
            omega

/-- The bare part of an item decides whether it is fair, once it is settled. -/
theorem fair_of_bare {grow : Bool} {item item' : FlexItemData} (fair : Fair grow item)
    (unfrozen : item.freeze = false) (same : bare item' = bare item)
    (settled : item'.freeze = true → InBounds item item'.targetMainSize ∧
      AtBound item item'.targetMainSize) : Fair grow item' := by
  have transfer (P : FlexItemData → Prop) (holds : P (bare item)) : P (bare item') := by
    rw [same]
    exact holds
  refine ⟨transfer (fun item => item.box.absolute = false) fair.inFlow,
    transfer (fun item => InBounds item item.mainSize) fair.main,
    fun _ => transfer (Flexible grow) (fair.flexible unfrozen), fun frozen => ?_⟩
  obtain ⟨inBounds, atBound⟩ := settled frozen
  exact ⟨transfer (fun item => InBounds item item'.targetMainSize) inBounds,
    fun _ => transfer (fun item => AtBound item item'.targetMainSize) atBound⟩

/-- A flag that is right means that the item is at its bound. -/
theorem clamp_atBound {total : Int} (unfrozen : item.freeze = false)
    (main : InBounds item item.mainSize)
    (low : item.minViolation = true → (lowerToMax item).targetMainSize < lowerBound item)
    (high : item.maxViolation = true → 0 < item.maxMain ∧ item.maxMain < item.targetMainSize)
    (nonzero : total ≠ 0)
    (hits : total = 0 ∨ 0 < total ∧ (clamp item).minViolation ∨
      total < 0 ∧ (clamp item).maxViolation) : AtBound item (clamp item).targetMainSize := by
  rw [clamp_target unfrozen]
  rcases hits with zero | ⟨-, flagged⟩ | ⟨-, flagged⟩
  · exact absurd zero nonzero
  · have below : (lowerToMax item).targetMainSize < lowerBound item :=
      (minViolation_clamp unfrozen flagged).elim low id
    exact .inl (max_eq_right below.le)
  · have above : 0 < item.maxMain ∧ item.maxMain < item.targetMainSize :=
      (maxViolation_clamp unfrozen flagged).elim high id
    have lowered : (lowerToMax item).targetMainSize = item.maxMain := by rw [lowerToMax, if_pos above]
    rw [lowered, max_eq_left (main.1.trans (main.2 above.1))]
    exact .inr ⟨above.1, rfl⟩

/-- The items after a pass that is the last one because no bound changes the sum. -/
structure Finished (s : Resolving) (items : List FlexItemData) : Prop where
  frozen : ∀ item ∈ items, item.freeze = true
  inFlow : ∀ item ∈ items, item.box.absolute = false
  inBounds : ∀ item ∈ items, InBounds item item.targetMainSize
  fills : Fills s items

theorem targetSum_clamp (items : List FlexItemData) :
    targetSum (items.map clamp) = targetSum items + violationSum items := by
  rw [violationSum, targetSum, targetSum, List.map_map]
  induction items with
  | nil => rfl
  | cons item rest inductionHypothesis =>
      simp only [List.map_cons, List.sum_cons, Function.comp_apply] at inductionHypothesis ⊢
      omega

/-- Without a violation every item is frozen as it is. -/
theorem marked_zero (item : FlexItemData) :
    (if item.freeze then item else marked 0 item) = { item with freeze := true } := by
  split
  next frozen => rw [← frozen]
  next => rw [marked, if_pos (.inl rfl)]

/-- The last pass leaves the sum of the sizes as the shares make it. -/
theorem finished_of_fills {shared : List FlexItemData} (fair : ∀ item ∈ items, Fair s.grow item)
    (resized : Resized items shared) (fills : Fills s shared) (zero : violationSum shared = 0) :
    Finished s (shared.map fun item => { clamp item with freeze := true }) := by
  have sizes : targetSum (shared.map fun item => { clamp item with freeze := true }) =
      targetSum shared := by
    have clamped := targetSum_clamp shared
    rw [zero, add_zero, targetSum, List.map_map] at clamped
    rw [targetSum, List.map_map]
    exact clamped
  refine ⟨?_, ?_, ?_, ?_⟩
  · exact List.forall_mem_map.2 fun item _ => rfl
  · refine List.forall_mem_map.2 fun item here => ?_
    obtain ⟨original, among, size, rfl, -⟩ := resized.each item here
    have box : (bare (clamp { original with targetMainSize := size })).box =
        (bare { original with targetMainSize := size }).box := by rw [bare_clamp]
    change (bare (clamp { original with targetMainSize := size })).box.absolute = false
    rw [box]
    exact (fair original among).inFlow
  · refine List.forall_mem_map.2 fun item here => ?_
    obtain ⟨original, among, size, rfl, frozenSame⟩ := resized.each item here
    have fairOriginal := fair original among
    by_cases frozen : original.freeze = true
    · rw [frozenSame frozen, clamp, if_pos frozen]
      exact (fairOriginal.settled frozen).1
    · have unfrozen := Bool.eq_false_of_not_eq_true frozen
      let item : FlexItemData := { original with targetMainSize := size }
      have inBounds : InBounds item (clamp item).targetMainSize :=
        clamp_inBounds unfrozen fairOriginal.main
      have same : InBounds (bare (clamp item)) (clamp item).targetMainSize =
          InBounds (bare item) (clamp item).targetMainSize := by rw [bare_clamp]
      exact same.mpr inBounds
  · refine ⟨?_, fun growing => ?_⟩
    · rw [sizes, List.length_map]
      exact fills.1
    · rw [sizes]
      exact fills.2 growing

/-- A pass leaves fair items or ends the loop. -/
theorem resolvePass_fair (fair : ∀ item ∈ items, Fair s.grow item)
    (exact_pass : PassExact s line items)
    (passed : resolvePass s.initialFreeMain s.availableMain s.grow line items =
      some (line', items')) :
    (∀ item ∈ items', Fair s.grow item) ∨ Finished s items' := by
  obtain ⟨⟨between, shared⟩, distributed, done⟩ := Option.bind_eq_some_iff.1 passed
  have marks := overItems_freezeViolating (totalViolation shared) between (shared.map clamp)
  rw [Option.some.inj done, List.map_map] at marks
  change items' = _ at marks
  have exactly : totalViolation shared = violationSum shared := by
    have fits := exact_pass.violation between shared distributed
    rw [totalViolation_eq, toInt32]
    omega
  have flags := exact_pass.flags between shared distributed
  rcases shared_cases fair exact_pass distributed with ⟨resized, fills⟩ | settled
  · by_cases zero : totalViolation shared = 0
    · have marked_all : items' = shared.map fun item => { clamp item with freeze := true } := by
        rw [marks, zero]
        exact List.map_congr_left fun item _ => marked_zero (clamp item)
      rw [marked_all]
      exact .inr (finished_of_fills fair resized fills (exactly.symm.trans zero))
    · refine .inl fun item' inside => ?_
      rw [marks] at inside
      obtain ⟨item, here, rfl⟩ := List.mem_map.1 inside
      obtain ⟨original, among, size, resizedItem, frozenSame⟩ := resized.each item here
      obtain rfl := resizedItem
      have fairOriginal := fair original among
      rw [Function.comp_apply, clamp_freeze]
      by_cases frozen : original.freeze = true
      · rw [if_pos frozen, clamp, if_pos frozen, frozenSame frozen]
        exact fairOriginal
      · have unfrozen := Bool.eq_false_of_not_eq_true frozen
        rw [if_neg frozen, marked]
        split
        next hits =>
            obtain ⟨low, high⟩ := flags _ here unfrozen
            refine fair_of_bare fairOriginal unfrozen (bare_clamp _) fun _ => ⟨?_, ?_⟩
            · exact clamp_inBounds unfrozen fairOriginal.main
            · exact clamp_atBound unfrozen fairOriginal.main low high zero hits
        next =>
            refine fair_of_bare fairOriginal unfrozen (bare_clamp _) fun now_frozen => ?_
            rw [clamp_freeze] at now_frozen
            exact absurd now_frozen frozen
  · refine .inl fun item' inside => ?_
    rw [marks] at inside
    obtain ⟨item, here, rfl⟩ := List.mem_map.1 inside
    obtain ⟨fairItem, frozen⟩ := settled item here
    rw [Function.comp_apply, clamp_freeze, if_pos frozen, clamp, if_pos frozen]
    exact fairItem

end Pass

section Run

variable {s : Resolving} {passes : Nat}

theorem sized_of_finished (finished : Finished s items) : Sized s.availableMain s.grow items := by
  have all_in_flow : inFlow items = items :=
    List.filter_eq_self.2 fun item inside => by rw [finished.inFlow item inside]; rfl
  refine ⟨finished.inBounds, .inl ?_⟩
  rw [all_in_flow]
  exact finished.fills

theorem sized_of_settled (frozen : ∀ item ∈ items, item.freeze = true)
    (fair : ∀ item ∈ items, Fair s.grow item) : Sized s.availableMain s.grow items :=
  ⟨fun item inside => ((fair item inside).settled (frozen item inside)).1,
    .inr fun item inside => ((fair item inside).settled (frozen item inside)).2⟩

theorem all_frozen (flexing : Flexing grow line items) (ended : ¬ line.frozen < line.count) :
    ∀ item ∈ items, item.freeze = true := by
  rw [flexing.frozen, flexing.count, not_lt] at ended
  exact List.countP_eq_length.1 (le_antisymm List.countP_le_length ended)

theorem not_lt_of_frozen (flexing : Flexing grow line items)
    (frozen : ∀ item ∈ items, item.freeze = true) : ¬ line.frozen < line.count := by
  rw [flexing.frozen, flexing.count, frozenCount, List.countP_eq_length.2 frozen]
  exact lt_irrefl _

theorem resolveLoop_ended (ended : ¬ line.frozen < line.count) (passes : Nat) :
    resolveLoop initialFreeMain availableMain grow passes line items = some (line, items) := by
  cases passes with
  | zero => rw [resolveLoop, if_neg ended]
  | succ passes => rw [resolveLoop, if_neg ended]

/-- The loop leaves sizes within their bounds that fill the line, when every pass is exact. -/
theorem resolveLoop_sized (start : Flexing s.grow s.line s.items)
    (run : ∀ line items, Passes s line items → line.frozen < line.count → PassExact s line items)
    (reached : Passes s line items) (fair : ∀ item ∈ items, Fair s.grow item)
    (resolved : resolveLoop s.initialFreeMain s.availableMain s.grow passes line items =
      some (line', items')) : Sized s.availableMain s.grow items' := by
  have fits : RunFits s := fun line items passes more => (run line items passes more).passFits
  induction passes generalizing line items with
  | zero =>
      by_cases more : line.frozen < line.count
      · exact absurd (resolved.symm.trans (if_pos more)) (Option.some_ne_none _)
      · rw [resolveLoop_ended more] at resolved
        obtain ⟨rfl, rfl⟩ := Prod.mk.inj (Option.some.inj resolved)
        exact sized_of_settled (all_frozen (flexing_passes start fits reached) more) fair
  | succ passes inductionHypothesis =>
      by_cases more : line.frozen < line.count
      · rw [resolveLoop, if_pos more] at resolved
        obtain ⟨⟨between, passedItems⟩, passed, rest⟩ := Option.bind_eq_some_iff.1 resolved
        have later : Passes s between passedItems := .pass line items _ _ reached more passed
        rcases resolvePass_fair fair (run line items reached more) passed with fairAfter | finished
        · exact inductionHypothesis later fairAfter rest
        · have at_end := not_lt_of_frozen (flexing_passes start fits later) finished.frozen
          dsimp only at rest
          rw [resolveLoop_ended at_end] at rest
          obtain ⟨rfl, rfl⟩ := Prod.mk.inj (Option.some.inj rest)
          exact sized_of_finished finished
      · rw [resolveLoop_ended more] at resolved
        obtain ⟨rfl, rfl⟩ := Prod.mk.inj (Option.some.inj resolved)
        exact sized_of_settled (all_frozen (flexing_passes start fits reached) more) fair

theorem sizeInflexible_of_flexible (flexible : Flexible grow item) :
    sizeInflexible grow line item = (line, item) := by
  cases grow with
  | true => exact if_neg (not_or.2 ⟨flexible.1, not_lt.2 flexible.2⟩)
  | false => exact if_neg (not_or.2 ⟨flexible.1, not_lt.2 flexible.2⟩)

theorem sizeInflexible_of_not_flexible (inflexible : ¬ Flexible grow item) :
    sizeInflexible grow line item =
      itemFreeze line { item with targetMainSize := item.mainSize } := by
  cases grow with
  | true =>
      refine if_pos (or_iff_not_imp_left.2 fun grows => ?_)
      exact not_le.1 fun le => inflexible ⟨grows, le⟩
  | false =>
      refine if_pos (or_iff_not_imp_left.2 fun shrinks => ?_)
      exact not_le.1 fun le => inflexible ⟨shrinks, le⟩

/-- Step 3 leaves fair items. -/
theorem fair_sizeInflexible (line : FlexLineData) (unfrozen : ∀ item ∈ items, item.freeze = false)
    (flow : ∀ item ∈ items, item.box.absolute = false)
    (main : ∀ item ∈ items, InBounds item item.mainSize) :
    ∀ item ∈ (overItems (sizeInflexible grow) line items).2, Fair grow item := by
  induction items generalizing line with
  | nil => exact fun item inside => absurd inside List.not_mem_nil
  | cons item rest inductionHypothesis =>
      obtain ⟨unfrozenHere, unfrozenLater⟩ := List.forall_mem_cons.1 unfrozen
      obtain ⟨flowHere, flowLater⟩ := List.forall_mem_cons.1 flow
      obtain ⟨mainHere, mainLater⟩ := List.forall_mem_cons.1 main
      have here : Fair grow (sizeInflexible grow line item).2 := by
        by_cases flexible : Flexible grow item
        · rw [sizeInflexible_of_flexible flexible]
          exact ⟨flowHere, mainHere, fun _ => flexible,
            fun frozen => absurd frozen (Bool.eq_false_iff.1 unfrozenHere)⟩
        · rw [sizeInflexible_of_not_flexible flexible]
          exact ⟨flowHere, mainHere, fun free => absurd free Bool.true_eq_false.mp,
            fun _ => ⟨mainHere, fun flexes => absurd flexes flexible⟩⟩
      exact List.forall_mem_cons.2 ⟨here, inductionHypothesis (sizeInflexible grow line item).1
        unfrozenLater flowLater mainLater⟩

/-- A row of 4000 pixels. -/
def wideRow : FlexCtx where
  flex := {}
  availableMain := 4000
  horizontal := true
  wrap := .nowrap

/-- Three equal items share it. -/
def thirds : List FlexItemData := List.replicate 3 (growing 1024 wholeFactor_nonneg)

end Run

end Neosurf.LayoutFlex
