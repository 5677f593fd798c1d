/-
This file proves when the loop that sizes the items of a flex line freezes an item in each pass.
-/

import Mathlib.Algebra.Order.BigOperators.Group.List
import Mathlib.Algebra.Order.Group.Int
import Neosurf.Construction.LayoutFlex

namespace Neosurf.LayoutFlex

variable {initialFreeMain availableMain total : Int} {grow : Bool}
  {line line' : FlexLineData} {items items' : List FlexItemData} {item : FlexItemData}

section Wrapping

theorem toInt32_toInt32_add (a b : Int) : toInt32 (toInt32 a + b) = toInt32 (a + b) := by
  unfold toInt32
  omega

/-- A sum that wraps at each step is the wrapped sum. -/
theorem foldl_toInt32 {α : Type} (skip : α → Bool) (f : α → Int) (start : Int) (xs : List α) :
    xs.foldl (fun sum x => if skip x then sum else toInt32 (sum + f x)) (toInt32 start) =
      toInt32 (start + (xs.map fun x => if skip x then 0 else f x).sum) := by
  induction xs generalizing start with
  | nil => simp
  | cons x xs inductionHypothesis =>
      rw [List.foldl_cons, List.map_cons, List.sum_cons, ← add_assoc]
      split
      next => rw [inductionHypothesis, add_zero]
      next => rw [toInt32_toInt32_add, inductionHypothesis]

end Wrapping

/-- The factors that the unfrozen items grow by, as a whole number of 1024ths. -/
def growSum (items : List FlexItemData) : Int :=
  (items.map fun item => if item.freeze then 0 else item.grow).sum

/-- What the bounds add to the sizes of the items. -/
def violationSum (items : List FlexItemData) : Int :=
  (items.map fun item => (clamp item).targetMainSize - item.targetMainSize).sum

theorem unfrozenFactorSum_grow (items : List FlexItemData) :
    unfrozenFactorSum true items = toInt32 (growSum items) := by
  have folded := foldl_toInt32 FlexItemData.freeze FlexItemData.grow 0 items
  rw [zero_add] at folded
  exact folded

theorem totalViolation_eq (items : List FlexItemData) :
    totalViolation items = toInt32 (violationSum items) := by
  have folded := foldl_toInt32 (fun _ => false)
    (fun item : FlexItemData => (clamp item).targetMainSize - item.targetMainSize) 0 items
  simp only [Bool.false_eq_true, if_false, zero_add] at folded
  exact folded

section Clamp

/-- The bounds leave all but the size and the flags. -/
@[simp] theorem raiseTo_freeze (bound : Int) (item : FlexItemData) :
    (raiseTo bound item).freeze = item.freeze := by
  rw [raiseTo]
  split <;> rfl

@[simp] theorem raiseTo_grow (bound : Int) (item : FlexItemData) :
    (raiseTo bound item).grow = item.grow := by
  rw [raiseTo]
  split <;> rfl

@[simp] theorem raiseTo_maxViolation (bound : Int) (item : FlexItemData) :
    (raiseTo bound item).maxViolation = item.maxViolation := by
  rw [raiseTo]
  split <;> rfl

theorem le_raiseTo (bound : Int) (item : FlexItemData) :
    item.targetMainSize ≤ (raiseTo bound item).targetMainSize := by
  rw [raiseTo]
  split
  next below => exact below.le
  next => exact le_rfl

/-- An item that was flagged stays flagged, and one that is raised gets the flag. -/
theorem raiseTo_flagged {old : FlexItemData} (before : item = old ∨ item.minViolation = true)
    (bound : Int) : raiseTo bound item = old ∨ (raiseTo bound item).minViolation = true := by
  rw [raiseTo]
  split
  next => exact .inr rfl
  next => exact before

theorem lowerToMax_freeze (item : FlexItemData) : (lowerToMax item).freeze = item.freeze := by
  rw [lowerToMax]
  split <;> rfl

theorem lowerToMax_grow (item : FlexItemData) : (lowerToMax item).grow = item.grow := by
  rw [lowerToMax]
  split <;> rfl

theorem lowerToMax_le (item : FlexItemData) :
    (lowerToMax item).targetMainSize ≤ item.targetMainSize := by
  rw [lowerToMax]
  split
  next above => exact above.2.le
  next => exact le_rfl

@[simp] theorem clamp_freeze (item : FlexItemData) : (clamp item).freeze = item.freeze := by
  rw [clamp]
  split
  next => rfl
  next => rw [raiseTo_freeze, raiseTo_freeze, raiseTo_freeze, lowerToMax_freeze]

@[simp] theorem clamp_grow (item : FlexItemData) : (clamp item).grow = item.grow := by
  rw [clamp]
  split
  next => rfl
  next => rw [raiseTo_grow, raiseTo_grow, raiseTo_grow, lowerToMax_grow]

/-- An item that the bounds enlarge is flagged. -/
theorem minViolation_of_lt (larger : item.targetMainSize < (clamp item).targetMainSize) :
    (clamp item).minViolation = true := by
  rw [clamp] at larger ⊢
  split at larger
  next => exact absurd larger (lt_irrefl _)
  next unfrozen =>
      rw [if_neg unfrozen]
      have flagged := raiseTo_flagged (raiseTo_flagged (raiseTo_flagged
        (.inl (Eq.refl (lowerToMax item))) item.minMain) item.box.minWidth) 0
      refine flagged.resolve_left ?_
      intro same
      rw [same] at larger
      exact absurd larger (not_lt_of_ge (lowerToMax_le item))

/-- An item that they make smaller is flagged, too. -/
theorem maxViolation_of_lt (smaller : (clamp item).targetMainSize < item.targetMainSize) :
    (clamp item).maxViolation = true := by
  rw [clamp] at smaller ⊢
  split at smaller
  next => exact absurd smaller (lt_irrefl _)
  next unfrozen =>
      rw [if_neg unfrozen, raiseTo_maxViolation, raiseTo_maxViolation, raiseTo_maxViolation]
      have raised := ((le_raiseTo item.minMain (lowerToMax item)).trans
        (le_raiseTo item.box.minWidth _)).trans (le_raiseTo 0 _)
      have lowered := raised.trans_lt smaller
      rw [lowerToMax] at lowered ⊢
      split at lowered
      next above => rw [if_pos above]
      next => exact absurd lowered (lt_irrefl _)

end Clamp

section Counting

/-- The frozen items of a list. -/
def frozenCount (items : List FlexItemData) : Nat := items.countP FlexItemData.freeze

theorem frozenCount_cons (item : FlexItemData) (items : List FlexItemData) :
    frozenCount (item :: items) = frozenCount [item] + frozenCount items := by
  rw [← List.singleton_append, frozenCount, List.countP_append]
  rfl

/-- A step over a line leaves the numbers of its items, and counts each item that it freezes. -/
structure Counts (line : FlexLineData) (items : List FlexItemData) (line' : FlexLineData)
    (items' : List FlexItemData) : Prop where
  count : line'.count = line.count
  length : items'.length = items.length
  frozen : line'.frozen + frozenCount items = line.frozen + frozenCount items'

theorem Counts.same (line : FlexLineData) (items : List FlexItemData) :
    Counts line items line items := ⟨rfl, rfl, rfl⟩

/-- One item is changed after the other. -/
theorem Counts.cons {item item' : FlexItemData} {between : FlexLineData}
    (here : Counts line [item] between [item']) (later : Counts between items line' items') :
    Counts line (item :: items) line' (item' :: items') := by
  refine ⟨later.count.trans here.count, congrArg (· + 1) later.length, ?_⟩
  have first := here.frozen
  have rest := later.frozen
  rw [frozenCount_cons, frozenCount_cons item']
  omega

theorem counts_itemFreeze (line : FlexLineData) {item : FlexItemData} (unfrozen : ¬ item.freeze)
    (size : Int) :
    Counts line [item] (itemFreeze line { item with targetMainSize := size }).1
      [(itemFreeze line { item with targetMainSize := size }).2] := by
  refine ⟨rfl, rfl, ?_⟩
  simp [frozenCount, itemFreeze, unfrozen]

theorem counts_overItems {change : FlexLineData → FlexItemData → FlexLineData × FlexItemData}
    (counts : ∀ item ∈ items, ∀ line, Counts line [item] (change line item).1 [(change line item).2])
    (line : FlexLineData) :
    Counts line items (overItems change line items).1 (overItems change line items).2 := by
  induction items generalizing line with
  | nil => exact .same line []
  | cons item rest inductionHypothesis =>
      obtain ⟨here, later⟩ := List.forall_mem_cons.1 counts
      exact (here line).cons (inductionHypothesis later (change line item).1)

theorem counts_shrinkLoop (scaledSum remaining remainder : Int) (line : FlexLineData)
    (items : List FlexItemData) :
    Counts line items (shrinkLoop scaledSum remaining remainder line items).1
      (shrinkLoop scaledSum remaining remainder line items).2 := by
  induction items generalizing remainder line with
  | nil => exact .same line []
  | cons item rest inductionHypothesis =>
      rw [shrinkLoop]
      split
      next => exact (Counts.same line [item]).cons (inductionHypothesis remainder line)
      next unfrozen =>
          split
          next => exact (counts_itemFreeze line unfrozen _).cons (inductionHypothesis remainder _)
          next => exact Counts.cons ⟨rfl, rfl, rfl⟩ (inductionHypothesis _ line)

theorem le_frozen_shrinkLoop (scaledSum remaining remainder : Int) (line : FlexLineData)
    (items : List FlexItemData) :
    line.frozen ≤ (shrinkLoop scaledSum remaining remainder line items).1.frozen := by
  induction items generalizing remainder line with
  | nil => exact le_rfl
  | cons item rest inductionHypothesis =>
      rw [shrinkLoop]
      split
      next => exact inductionHypothesis remainder line
      next =>
          split
          next =>
              have later := inductionHypothesis remainder
                (itemFreeze line { item with targetMainSize := item.mainSize }).1
              exact (Nat.le_succ line.frozen).trans later
          next => exact inductionHypothesis _ line

end Counting

section Growing

/-- What a share of the space leaves of an item. -/
def kept (item : FlexItemData) : Bool × Int := (item.freeze, item.grow)

/-- The shares change the sizes only, and there are some when the sum that divides is not zero. -/
theorem growLoop_some {factorSum : Int} (nonzero : factorSum ≠ 0) (remaining remainder : Int)
    (items : List FlexItemData) :
    ∃ items', growLoop factorSum remaining remainder items = some items' ∧
      items'.map kept = items.map kept := by
  induction items generalizing remainder with
  | nil => exact ⟨[], rfl, rfl⟩
  | cons item rest inductionHypothesis =>
      by_cases frozen : item.freeze = true
      · obtain ⟨rest', grown, same⟩ := inductionHypothesis remainder
        rw [growLoop, if_pos frozen, grown]
        exact ⟨_, rfl, by rw [List.map_cons, List.map_cons, same]⟩
      · obtain ⟨rest', grown, same⟩ := inductionHypothesis (Css.FIXFRAC (toInt32
          (Css.FMUL (Css.INTTOFIX remaining) (Css.FDIV item.grow factorSum) + remainder)))
        rw [growLoop, if_neg frozen, if_neg nonzero]
        dsimp only
        rw [grown]
        refine ⟨_, rfl, ?_⟩
        rw [List.map_cons, List.map_cons, same]
        rfl

theorem frozenCount_of_kept (same : items'.map kept = items.map kept) :
    frozenCount items' = frozenCount items := by
  have counted (items : List FlexItemData) : frozenCount items = (items.map kept).countP Prod.fst := by
    rw [List.countP_map]
    rfl
  rw [counted, counted, same]

end Growing

/-- The line counts its items and the frozen ones, and an item that can grow has a factor. -/
structure Flexing (grow : Bool) (line : FlexLineData) (items : List FlexItemData) : Prop where
  count : line.count = items.length
  frozen : line.frozen = frozenCount items
  flexible : grow = true → ∀ factor ∈ items.map kept, factor.1 = false → factor.2 ≠ 0

theorem Flexing.counts (flexing : Flexing grow line items) (counts : Counts line items line' items')
    (flexible : grow = true → ∀ factor ∈ items'.map kept, factor.1 = false → factor.2 ≠ 0) :
    Flexing grow line' items' := by
  refine ⟨?_, ?_, flexible⟩
  · rw [counts.count, counts.length, flexing.count]
  · have frozen := counts.frozen
    rw [flexing.frozen] at frozen
    omega

/-- No sum of a pass overflows where it decides: the factors of the growing items do not wrap to
zero while space is missing, and what the bounds add to the sizes fits into 32 bits. -/
structure PassFits (initialFreeMain availableMain : Int) (grow : Bool) (line : FlexLineData)
    (items : List FlexItemData) : Prop where
  factors : grow = true → 2 ^ 32 ≤ growSum items → 2 ^ 32 ∣ growSum items →
    0 ≤ freeMain availableMain items
  violation : ∀ line' items', distributeRemaining initialFreeMain availableMain grow line items =
    some (line', items') → -2 ^ 31 ≤ violationSum items' ∧ violationSum items' < 2 ^ 31

section Pass

theorem exists_unfrozen (flexing : Flexing grow line items) (more : line.frozen < line.count) :
    ∃ item ∈ items, item.freeze = false := by
  rw [flexing.frozen, flexing.count] at more
  by_contra none_left
  push Not at none_left
  refine absurd (List.countP_eq_length.2 fun item inside => ?_) more.ne
  exact Bool.eq_true_of_not_eq_false (none_left item inside)

theorem growSum_pos (flexing : Flexing true line items) (more : line.frozen < line.count) :
    0 < growSum items := by
  obtain ⟨item, inside, unfrozen⟩ := exists_unfrozen flexing more
  have factor : item.grow ≠ 0 :=
    flexing.flexible rfl (kept item) (List.mem_map_of_mem inside) unfrozen
  have part : (if item.freeze then 0 else item.grow) ≤ growSum items := by
    refine List.single_le_sum ?_ _ (List.mem_map_of_mem inside)
    intro share here
    obtain ⟨other, -, rfl⟩ := List.mem_map.1 here
    split
    next => exact le_rfl
    next => exact other.growNonneg
  rw [if_neg (Bool.eq_false_iff.1 unfrozen)] at part
  exact lt_of_lt_of_le (lt_of_le_of_ne item.growNonneg factor.symm) part

/-- No space is left to distribute over factors that come to zero, unless space is missing. -/
theorem remainingFreeMain_eq_zero (zero : unfrozenFactorSum grow items = 0)
    (enough : 0 ≤ freeMain availableMain items) :
    remainingFreeMain initialFreeMain availableMain grow items = 0 := by
  have none_scaled : Css.FIXTOINT (Css.FMUL (Css.INTTOFIX initialFreeMain) 0) = 0 := by
    rw [Css.FMUL, mul_zero]
    rfl
  rw [remainingFreeMain, zero, if_pos (by decide), none_scaled]
  dsimp only
  split <;> omega

/-- Steps b and c succeed and freeze no fewer items. -/
theorem distributeRemaining_some (initialFreeMain : Int) (flexing : Flexing grow line items)
    (more : line.frozen < line.count)
    (factors : grow = true → 2 ^ 32 ≤ growSum items → 2 ^ 32 ∣ growSum items →
      0 ≤ freeMain availableMain items) :
    ∃ line' items', distributeRemaining initialFreeMain availableMain grow line items =
      some (line', items') ∧ Flexing grow line' items' ∧ line'.count = line.count ∧
        line.frozen ≤ line'.frozen := by
  rw [distributeRemaining]
  split
  case isFalse => exact ⟨line, items, rfl, flexing, rfl, le_rfl⟩
  case isTrue remains =>
      cases grow with
      | false =>
          have counts := counts_shrinkLoop (scaledShrinkFactorSum items)
            (remainingFreeMain initialFreeMain availableMain false items) 0 line items
          exact ⟨_, _, rfl, flexing.counts counts fun growing => absurd growing Bool.false_ne_true,
            counts.count, le_frozen_shrinkLoop _ _ _ _ _⟩
      | true =>
          have nonzero : unfrozenFactorSum true items ≠ 0 := by
            intro zero
            refine remains (remainingFreeMain_eq_zero zero ?_)
            rw [unfrozenFactorSum_grow, toInt32] at zero
            have multiple : 2 ^ 32 ∣ growSum items := by omega
            exact factors rfl (Int.le_of_dvd (growSum_pos flexing more) multiple) multiple
          obtain ⟨items', grown, same⟩ := growLoop_some nonzero
            (remainingFreeMain initialFreeMain availableMain true items) 0 items
          refine ⟨line, items', ?_, ⟨?_, ?_, ?_⟩, rfl, le_rfl⟩
          · rw [distributeFreeMain, if_pos rfl, grown]
            rfl
          · have sizes := congrArg List.length same
            rw [List.length_map, List.length_map] at sizes
            rw [sizes, flexing.count]
          · rw [frozenCount_of_kept same, flexing.frozen]
          · rw [same]
            exact flexing.flexible

/-- An unfrozen item is frozen in step e, when the violations are added without overflow. -/
theorem exists_marked (unfrozen : ∃ item ∈ items, item.freeze = false)
    (fits : -2 ^ 31 ≤ violationSum items ∧ violationSum items < 2 ^ 31) :
    ∃ item ∈ items, item.freeze = false ∧
      (totalViolation items = 0 ∨ 0 < totalViolation items ∧ (clamp item).minViolation ∨
        totalViolation items < 0 ∧ (clamp item).maxViolation) := by
  have exactly : totalViolation items = violationSum items := by
    rw [totalViolation_eq, toInt32]
    omega
  have frozen_same (item : FlexItemData) (changed : (clamp item).targetMainSize ≠
      item.targetMainSize) : item.freeze = false := by
    by_contra frozen
    rw [clamp, if_pos (Bool.eq_true_of_not_eq_false frozen)] at changed
    exact changed rfl
  have zeros : (items.map fun _ => (0 : Int)).sum = 0 := by simp
  rw [exactly]
  rcases lt_trichotomy (violationSum items) 0 with negative | zero | positive
  · rw [violationSum, ← zeros] at negative
    obtain ⟨item, inside, smaller⟩ := List.exists_lt_of_sum_lt _ _ negative
    rw [sub_neg] at smaller
    rw [← violationSum, zeros] at negative
    exact ⟨item, inside, frozen_same item smaller.ne,
      .inr (.inr ⟨negative, maxViolation_of_lt smaller⟩)⟩
  · obtain ⟨item, inside, free⟩ := unfrozen
    exact ⟨item, inside, free, .inl zero⟩
  · rw [violationSum, ← zeros] at positive
    obtain ⟨item, inside, larger⟩ := List.exists_lt_of_sum_lt _ _ positive
    rw [sub_pos] at larger
    rw [← violationSum, zeros] at positive
    exact ⟨item, inside, frozen_same item larger.ne',
      .inr (.inl ⟨positive, minViolation_of_lt larger⟩)⟩

/-- Step e counts what it freezes. -/
theorem counts_freezeViolating (total : Int) (line : FlexLineData) (items : List FlexItemData) :
    Counts line items (overItems (freezeViolating total) line items).1
      (overItems (freezeViolating total) line items).2 := by
  refine counts_overItems (fun item _ line => ?_) line
  rw [freezeViolating]
  split
  next => exact .same line [item]
  next unfrozen =>
      split
      next => exact counts_itemFreeze line unfrozen item.targetMainSize
      next => exact .same line [item]

/-- The flags of the items decide which ones step e freezes. -/
def marked (total : Int) (item : FlexItemData) : FlexItemData :=
  if total = 0 ∨ 0 < total ∧ item.minViolation ∨ total < 0 ∧ item.maxViolation then
    { item with freeze := true }
  else item

theorem freezeViolating_snd (total : Int) (line : FlexLineData) (item : FlexItemData) :
    (freezeViolating total line item).2 = if item.freeze then item else marked total item := by
  rw [freezeViolating]
  split
  next => rfl
  next =>
      rw [marked]
      split <;> rfl

theorem overItems_freezeViolating (total : Int) (line : FlexLineData) (items : List FlexItemData) :
    (overItems (freezeViolating total) line items).2 =
      items.map fun item => if item.freeze then item else marked total item := by
  induction items generalizing line with
  | nil => rfl
  | cons item rest inductionHypothesis =>
      rw [List.map_cons, ← inductionHypothesis (freezeViolating total line item).1,
        ← freezeViolating_snd total line item]
      rfl

theorem marked_grow (total : Int) (item : FlexItemData) : (marked total item).grow = item.grow := by
  rw [marked]
  split <;> rfl

/-- A map that keeps the accepted elements does not lower their number. -/
theorem countP_le_countP_map {α : Type} {p : α → Bool} {f : α → α}
    (keeps : ∀ x, p x = true → p (f x) = true) (xs : List α) :
    xs.countP p ≤ (xs.map f).countP p := by
  rw [List.countP_map]
  exact List.countP_mono_left fun x _ => keeps x

/-- One that makes another element accepted raises it. -/
theorem countP_lt_countP_map {α : Type} {p : α → Bool} {f : α → α} {xs : List α}
    (keeps : ∀ x, p x = true → p (f x) = true) (gains : ∃ x ∈ xs, p x = false ∧ p (f x) = true) :
    xs.countP p < (xs.map f).countP p := by
  obtain ⟨x, inside, before, after⟩ := gains
  obtain ⟨front, back, rfl⟩ := List.append_of_mem inside
  have first := countP_le_countP_map keeps front
  have last := countP_le_countP_map keeps back
  rw [List.map_append, List.map_cons, List.countP_append, List.countP_append,
    List.countP_cons_of_neg (Bool.eq_false_iff.1 before), List.countP_cons_of_pos after]
  omega

/-- An unfrozen item that is left after a pass was unfrozen before. -/
theorem flexible_marked (total : Int)
    (flexible : grow = true → ∀ factor ∈ items.map kept, factor.1 = false → factor.2 ≠ 0) :
    grow = true → ∀ factor ∈ ((items.map clamp).map fun item =>
      if item.freeze then item else marked total item).map kept, factor.1 = false → factor.2 ≠ 0 := by
  intro growing factor inside unfrozen
  rw [List.map_map, List.map_map] at inside
  obtain ⟨item, here, rfl⟩ := List.mem_map.1 inside
  have before := flexible growing (kept item) (List.mem_map_of_mem here)
  simp only [Function.comp_apply, clamp_freeze, kept] at unfrozen before ⊢
  by_cases frozen : item.freeze = true
  · rw [if_pos frozen, clamp_freeze, frozen] at unfrozen
    exact absurd unfrozen Bool.true_eq_false.mp
  · rw [if_neg frozen, marked_grow, clamp_grow]
    exact before (Bool.eq_false_of_not_eq_true frozen)

/-- A pass whose sums fit succeeds and freezes an item. -/
theorem resolvePass_some (flexing : Flexing grow line items) (more : line.frozen < line.count)
    (fits : PassFits initialFreeMain availableMain grow line items) :
    ∃ line' items', resolvePass initialFreeMain availableMain grow line items =
      some (line', items') ∧ Flexing grow line' items' ∧ line'.count = line.count ∧
        line.frozen < line'.frozen := by
  obtain ⟨between, shared, distributed, flexingShared, sameCount, fewer⟩ :=
    distributeRemaining_some initialFreeMain flexing more fits.factors
  have clamped : frozenCount (shared.map clamp) = frozenCount shared := by
    rw [frozenCount, List.countP_map]
    exact List.countP_congr fun item _ => by rw [Function.comp_apply, clamp_freeze]
  have flexingClamped : Flexing grow between (shared.map clamp) := by
    refine ⟨by rw [List.length_map, flexingShared.count], ?_, ?_⟩
    · rw [clamped, flexingShared.frozen]
    · intro growing factor inside
      rw [List.map_map] at inside
      obtain ⟨item, here, rfl⟩ := List.mem_map.1 inside
      simp only [Function.comp_apply, kept, clamp_freeze, clamp_grow]
      exact flexingShared.flexible growing (kept item) (List.mem_map_of_mem here)
  have counts := counts_freezeViolating (totalViolation shared) between (shared.map clamp)
  refine ⟨_, _, by rw [resolvePass, distributed]; rfl, flexingClamped.counts counts ?_,
    counts.count.trans sameCount, ?_⟩
  · rw [overItems_freezeViolating]
    exact flexible_marked (totalViolation shared) flexingShared.flexible
  · have after := counts.frozen
    rw [overItems_freezeViolating] at after
    have keeps (item : FlexItemData) (frozen : item.freeze = true) :
        (if item.freeze then item else marked (totalViolation shared) item).freeze = true := by
      rw [if_pos frozen]
      exact frozen
    rcases fewer.lt_or_eq with already | same
    · have grows := countP_le_countP_map keeps (shared.map clamp)
      rw [← frozenCount, ← frozenCount] at grows
      omega
    · have unfrozen := exists_unfrozen flexingShared (by omega)
      obtain ⟨item, here, free, hits⟩ := exists_marked unfrozen
        (fits.violation between shared distributed)
      have gains : frozenCount (shared.map clamp) < frozenCount ((shared.map clamp).map fun item =>
          if item.freeze then item else marked (totalViolation shared) item) := by
        refine countP_lt_countP_map keeps ⟨clamp item, List.mem_map_of_mem here, by rw [clamp_freeze, free], ?_⟩
        rw [clamp_freeze, free, if_neg Bool.false_ne_true, marked, if_pos hits]
      omega

end Pass

section Start

/-- A line that was just built counts its items, and none of them is frozen. -/
structure Fresh (line : FlexLineData) (items : List FlexItemData) : Prop where
  count : line.count = items.length
  frozen : line.frozen = 0
  unfrozen : ∀ item ∈ items, item.freeze = false

/-- An item is frozen at its main size, or it has a factor to grow by. -/
theorem sizeInflexible_cases (grow : Bool) (line : FlexLineData) (item : FlexItemData) :
    sizeInflexible grow line item = itemFreeze line { item with targetMainSize := item.mainSize } ∨
      sizeInflexible grow line item = (line, item) ∧ (grow = true → item.grow ≠ 0) := by
  cases grow with
  | true =>
      by_cases inflexible : item.grow = 0 ∨ item.mainSize < item.baseSize
      · exact .inl (if_pos inflexible)
      · exact .inr ⟨if_neg inflexible, fun _ zero => inflexible (.inl zero)⟩
  | false =>
      by_cases inflexible : item.shrink = 0 ∨ item.baseSize < item.mainSize
      · exact .inl (if_pos inflexible)
      · exact .inr ⟨if_neg inflexible, fun growing => absurd growing Bool.false_ne_true⟩

theorem counts_sizeInflexible (grow : Bool) (unfrozen : ∀ item ∈ items, item.freeze = false)
    (line : FlexLineData) :
    Counts line items (overItems (sizeInflexible grow) line items).1
      (overItems (sizeInflexible grow) line items).2 := by
  refine counts_overItems (fun item inside line => ?_) line
  rcases sizeInflexible_cases grow line item with frozen | ⟨same, -⟩
  · rw [frozen]
    exact counts_itemFreeze line (Bool.eq_false_iff.1 (unfrozen item inside)) item.mainSize
  · rw [same]
    exact .same line [item]

/-- An item without a factor does not stay unfrozen when the line grows. -/
theorem grow_sizeInflexible (line : FlexLineData) (items : List FlexItemData) :
    ∀ item ∈ (overItems (sizeInflexible true) line items).2, item.freeze = false →
      item.grow ≠ 0 := by
  induction items generalizing line with
  | nil => exact fun item inside => absurd inside List.not_mem_nil
  | cons item rest inductionHypothesis =>
      have here : (sizeInflexible true line item).2.freeze = false →
          (sizeInflexible true line item).2.grow ≠ 0 := by
        rcases sizeInflexible_cases true line item with frozen | ⟨same, flexible⟩
        · rw [frozen]
          exact fun unfrozen => absurd unfrozen Bool.true_eq_false.mp
        · rw [same]
          exact fun _ => flexible rfl
      exact List.forall_mem_cons.2 ⟨here, inductionHypothesis (sizeInflexible true line item).1⟩

theorem flexing_startResolving (ctx : FlexCtx) (fresh : Fresh line items) :
    Flexing (startResolving ctx line items).grow (startResolving ctx line items).line
      (startResolving ctx line items).items := by
  have counts := counts_sizeInflexible (startResolving ctx line items).grow fresh.unfrozen line
  have none_frozen : frozenCount items = 0 :=
    List.countP_eq_zero.2 fun item inside => Bool.eq_false_iff.1 (fresh.unfrozen item inside)
  refine ⟨?_, ?_, ?_⟩
  · exact counts.count.trans (fresh.count.trans counts.length.symm)
  · have frozen := counts.frozen
    rw [none_frozen, fresh.frozen, add_zero, zero_add] at frozen
    exact frozen
  · intro growing factor inside unfrozen
    obtain ⟨item, here, rfl⟩ := List.mem_map.1 inside
    refine grow_sizeInflexible line items item ?_ unfrozen
    rw [← growing]
    exact here

end Start

section Run

/-- The states that the loop comes to after some passes. -/
inductive Passes (s : Resolving) : FlexLineData → List FlexItemData → Prop where
  | start : Passes s s.line s.items
  | pass (line : FlexLineData) (items : List FlexItemData) (line' : FlexLineData)
      (items' : List FlexItemData) (before : Passes s line items)
      (more : line.frozen < line.count)
      (done : resolvePass s.initialFreeMain s.availableMain s.grow line items =
        some (line', items')) : Passes s line' items'

/-- A pass divides by no zero and freezes at least one item. -/
def Progresses (s : Resolving) (line : FlexLineData) (items : List FlexItemData) : Prop :=
  ∃ line' items', resolvePass s.initialFreeMain s.availableMain s.grow line items =
    some (line', items') ∧ line.frozen < line'.frozen

/-- Every pass before the end of the loop has sums that fit. -/
def RunFits (s : Resolving) : Prop :=
  ∀ line items, Passes s line items → line.frozen < line.count →
    PassFits s.initialFreeMain s.availableMain s.grow line items

variable {s : Resolving}

theorem flexing_passes (start : Flexing s.grow s.line s.items) (fits : RunFits s)
    (passes : Passes s line items) : Flexing s.grow line items := by
  induction passes with
  | start => exact start
  | pass line items line' items' before more done inductionHypothesis =>
      obtain ⟨_, _, passed, flexing, -⟩ :=
        resolvePass_some inductionHypothesis more (fits line items before more)
      rw [done] at passed
      obtain ⟨rfl, rfl⟩ := Prod.mk.inj (Option.some.inj passed)
      exact flexing

theorem progresses_of_passes (start : Flexing s.grow s.line s.items) (fits : RunFits s)
    (passes : Passes s line items) (more : line.frozen < line.count) : Progresses s line items := by
  obtain ⟨line', items', passed, -, -, frozen⟩ :=
    resolvePass_some (flexing_passes start fits passes) more (fits line items passes more)
  exact ⟨line', items', passed, frozen⟩

/-- The loop ends after as many passes as there are items left to freeze. -/
theorem resolveLoop_isSome (start : Flexing s.grow s.line s.items) (fits : RunFits s) (passes : Nat)
    (reached : Passes s line items) (enough : line.count ≤ line.frozen + passes) :
    (resolveLoop s.initialFreeMain s.availableMain s.grow passes line items).isSome := by
  induction passes generalizing line items with
  | zero =>
      rw [resolveLoop, if_neg (by omega)]
      rfl
  | succ passes inductionHypothesis =>
      rw [resolveLoop]
      split
      next more =>
          obtain ⟨line', items', passed, -, count, frozen⟩ :=
            resolvePass_some (flexing_passes start fits reached) more (fits line items reached more)
          rw [passed]
          exact inductionHypothesis (.pass line items line' items' reached more passed) (by omega)
      next => rfl

theorem noFactor_nonneg : (0 : Int) ≤ 0 := Int.le_refl 0

theorem wholeFactor_nonneg : (0 : Int) ≤ 1024 := by decide

/-- An item that only grows. -/
def growing (grow : Int) (growNonneg : 0 ≤ grow := by decide) : FlexItemData where
  box := {}
  shrink := 0
  grow
  baseSize := 0
  mainSize := 0
  shrinkNonneg := noFactor_nonneg
  growNonneg

/-- An item of 100 pixels out of the flow. -/
def badge : FlexItemData where
  box := { absolute := true }
  shrink := 0
  grow := 0
  baseSize := 100
  mainSize := 100
  shrinkNonneg := noFactor_nonneg
  growNonneg := noFactor_nonneg

/-- A row of 10 pixels that wraps. -/
def narrow : FlexCtx where
  flex := {}
  availableMain := 10
  horizontal := true
  wrap := .wrap

/-- The line of an item with a factor of one. -/
def single : Resolving := startResolving narrow (buildLine narrow 0 [growing 1024]).1
  (buildLine narrow 0 [growing 1024]).2

/-- Its loop makes one pass. -/
theorem passes_single (passes : Passes single line items) :
    line = single.line ∧ items = single.items ∨ ¬ line.frozen < line.count := by
  induction passes with
  | start => exact .inl ⟨rfl, rfl⟩
  | pass line items line' items' before more done inductionHypothesis =>
      rcases inductionHypothesis with ⟨rfl, rfl⟩ | ended
      · have passed : resolvePass single.initialFreeMain single.availableMain single.grow
            single.line single.items = some (_, _) := rfl
        rw [passed] at done
        obtain ⟨rfl, rfl⟩ := Prod.mk.inj (Option.some.inj done)
        exact .inr (by decide)
      · exact absurd more ended

/-- The factors of these items wrap to zero, and the item out of the flow takes the space. -/
def wrapping : List FlexItemData := List.replicate 4 (growing (2 ^ 30)) ++ [badge]

/-- Their line before the first pass. -/
def wrappedSum : Resolving := startResolving narrow (buildLine narrow 0 wrapping).1
  (buildLine narrow 0 wrapping).2

end Run

end Neosurf.LayoutFlex
