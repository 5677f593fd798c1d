/-
This file proves that floats are put at the first place where they fit, and that the order of the
floats lets `find_sides` stop early.
-/

import Mathlib.Data.List.Sort
import Mathlib.Order.Bounds.Defs
import Neosurf.Construction.LayoutFloats

namespace Neosurf.LayoutFloats

/-- A float stands in a vertical range. The range is closed at its lower end. -/
def FloatBox.InRange (fl : FloatBox) (y0 y1 : Int) : Prop := y0 < fl.bottom ∧ fl.y ≤ y1

instance (fl : FloatBox) (y0 y1 : Int) : Decidable (fl.InRange y0 y1) :=
  inferInstanceAs (Decidable (_ ∧ _))

/-- A float in the vertical range stands out of its side. -/
def FloatBox.Protrudes (fl : FloatBox) (y0 y1 x0 x1 : Int) : Prop :=
  fl.InRange y0 y1 ∧
    match fl.type with
    | .left => x0 < fl.x + fl.width
    | .right => fl.x < x1

instance (fl : FloatBox) (y0 y1 x0 x1 : Int) : Decidable (fl.Protrudes y0 y1 x0 x1) := by
  unfold FloatBox.Protrudes
  cases fl.type <;> infer_instance

/-- This is the scan of all floats of a list. -/
def allSides (floats : List FloatBox) (y0 y1 x0 x1 : Int) : Sides :=
  floats.foldl (Sides.narrow y0 y1) (.start x0 x1)

/-- These are the bounds of a float on its left: the left edge and the floats on the left that are
in the range. -/
def leftBounds (floats : List FloatBox) (y0 y1 x0 : Int) : List Int :=
  x0 :: (floats.filter fun fl => fl.type = .left ∧ fl.InRange y0 y1).map fun fl => fl.x + fl.width

/-- These are the bounds of a float on its right. -/
def rightBounds (floats : List FloatBox) (y0 y1 x1 : Int) : List Int :=
  x1 :: (floats.filter fun fl => fl.type = .right ∧ fl.InRange y0 y1).map fun fl => fl.x

/-- A float fits at a height: no other one protrudes there, or it fits between all bounds. -/
def Fits (floats : List FloatBox) (c : FloatBox) (width cx y : Int) : Prop :=
  (∀ fl ∈ floats, ¬ fl.Protrudes y (y + c.height) cx (cx + width)) ∨
    ∀ left ∈ leftBounds floats y (y + c.height) cx,
      ∀ right ∈ rightBounds floats y (y + c.height) (cx + width), left + c.width ≤ right

/-- The areas of two floats have a point inside in common. -/
def Overlap (a b : FloatBox) : Prop :=
  a.x < b.x + b.width ∧ b.x < a.x + a.width ∧ a.y < b.bottom ∧ b.y < a.bottom

/-- This is the order of descending lower edges. -/
def Descending (floats : List FloatBox) : Prop :=
  floats.Pairwise fun a b => b.bottom ≤ a.bottom

section Scan

variable {floats : List FloatBox} {y0 y1 x0 x1 : Int} {s : Sides} {fl : FloatBox}

theorem narrow_of_not_inRange (outside : ¬ fl.InRange y0 y1) : s.narrow y0 y1 fl = s := by
  simp only [FloatBox.InRange] at outside
  simp [Sides.narrow, outside]

/-- The floats behind one that ends above the range end above it too. -/
theorem findSidesFrom_eq (sorted : Descending floats) (s : Sides) :
    findSidesFrom y0 y1 floats s = floats.foldl (Sides.narrow y0 y1) s := by
  induction floats generalizing s with
  | nil => rfl
  | cons fl rest ih =>
      obtain ⟨above, behind⟩ := List.pairwise_cons.mp sorted
      rw [findSidesFrom]
      split
      · rename_i high
        have unchanged : ∀ other ∈ fl :: rest, ∀ s : Sides, s.narrow y0 y1 other = s := by
          intro other member s
          have bottom : other.bottom ≤ fl.bottom := by
            rcases List.mem_cons.mp member with rfl | member
            · exact le_rfl
            · exact above other member
          apply narrow_of_not_inRange
          simp only [FloatBox.InRange]
          omega
        generalize fl :: rest = whole at unchanged
        induction whole with
        | nil => rfl
        | cons other later ih =>
            rw [List.foldl_cons, unchanged other List.mem_cons_self]
            exact ih fun next member => unchanged next (List.mem_cons_of_mem _ member)
      · rw [List.foldl_cons]
        exact ih behind _

theorem findSides_eq (sorted : Descending floats) :
    findSides floats y0 y1 x0 x1 = allSides floats y0 y1 x0 x1 :=
  findSidesFrom_eq sorted _

/-- What a scan has found: no float in the range stands out further than the sides, which belong to
the floats that are returned. -/
structure Swept (floats : List FloatBox) (y0 y1 x0 x1 : Int) (s : Sides) : Prop where
  left_le : ∀ fl ∈ floats, fl.type = .left → fl.InRange y0 y1 → fl.x + fl.width ≤ s.x0
  le_right : ∀ fl ∈ floats, fl.type = .right → fl.InRange y0 y1 → s.x1 ≤ fl.x
  le_x0 : x0 ≤ s.x0
  x1_le : s.x1 ≤ x1
  no_left : s.left = none → s.x0 = x0
  no_right : s.right = none → s.x1 = x1
  left : ∀ l, s.left = some l →
    l ∈ floats ∧ l.type = .left ∧ l.InRange y0 y1 ∧ l.x + l.width = s.x0 ∧ x0 < s.x0
  right : ∀ r, s.right = some r →
    r ∈ floats ∧ r.type = .right ∧ r.InRange y0 y1 ∧ r.x = s.x1 ∧ s.x1 < x1

theorem Swept.start : Swept [] y0 y1 x0 x1 (.start x0 x1) := by
  constructor <;> simp [Sides.start]

/-- One more float is scanned. -/
theorem Swept.narrow (swept : Swept floats y0 y1 x0 x1 s) (fl : FloatBox) :
    Swept (floats ++ [fl]) y0 y1 x0 x1 (s.narrow y0 y1 fl) := by
  obtain ⟨left_le, le_right, le_x0, x1_le, no_left, no_right, left, right⟩ := swept
  constructor <;> grind [Sides.narrow, FloatBox.InRange]

theorem Swept.foldl (later : List FloatBox) (swept : Swept floats y0 y1 x0 x1 s) :
    Swept (floats ++ later) y0 y1 x0 x1 (later.foldl (Sides.narrow y0 y1) s) := by
  induction later generalizing floats s with
  | nil => simpa using swept
  | cons fl rest ih => simpa using ih (swept.narrow fl)

theorem swept_allSides : Swept floats y0 y1 x0 x1 (allSides floats y0 y1 x0 x1) := by
  have swept : Swept [] y0 y1 x0 x1 (.start x0 x1) := .start
  exact swept.foldl floats

theorem Swept.mem_leftBounds (swept : Swept floats y0 y1 x0 x1 s) :
    s.x0 ∈ leftBounds floats y0 y1 x0 := by
  cases found : s.left with
  | none => simp [leftBounds, swept.no_left found]
  | some l =>
      obtain ⟨member, type, inside, edge, -⟩ := swept.left l found
      exact List.mem_cons_of_mem _ (List.mem_map.mpr ⟨l, by simp [member, type, inside], edge⟩)

theorem Swept.mem_rightBounds (swept : Swept floats y0 y1 x0 x1 s) :
    s.x1 ∈ rightBounds floats y0 y1 x1 := by
  cases found : s.right with
  | none => simp [rightBounds, swept.no_right found]
  | some r =>
      obtain ⟨member, type, inside, edge, -⟩ := swept.right r found
      exact List.mem_cons_of_mem _ (List.mem_map.mpr ⟨r, by simp [member, type, inside], edge⟩)

theorem Swept.leftBounds_le (swept : Swept floats y0 y1 x0 x1 s) :
    ∀ left ∈ leftBounds floats y0 y1 x0, left ≤ s.x0 := by
  intro left member
  rcases List.mem_cons.mp member with rfl | member
  · exact swept.le_x0
  · obtain ⟨l, filtered, rfl⟩ := List.mem_map.mp member
    simp only [List.mem_filter, decide_eq_true_eq] at filtered
    exact swept.left_le l filtered.1 filtered.2.1 filtered.2.2

theorem Swept.le_rightBounds (swept : Swept floats y0 y1 x0 x1 s) :
    ∀ right ∈ rightBounds floats y0 y1 x1, s.x1 ≤ right := by
  intro right member
  rcases List.mem_cons.mp member with rfl | member
  · exact swept.x1_le
  · obtain ⟨r, filtered, rfl⟩ := List.mem_map.mp member
    simp only [List.mem_filter, decide_eq_true_eq] at filtered
    exact swept.le_right r filtered.1 filtered.2.1 filtered.2.2

/-- The scan returns a float if one protrudes. -/
theorem Swept.isSome_iff (swept : Swept floats y0 y1 x0 x1 s) :
    (s.left.isSome ∨ s.right.isSome) ↔ ∃ fl ∈ floats, fl.Protrudes y0 y1 x0 x1 := by
  constructor
  · intro found
    rcases found with found | found
    · obtain ⟨l, found⟩ := Option.isSome_iff_exists.mp found
      obtain ⟨member, type, inside, edge, further⟩ := swept.left l found
      exact ⟨l, member, inside, by simp only [type]; omega⟩
    · obtain ⟨r, found⟩ := Option.isSome_iff_exists.mp found
      obtain ⟨member, type, inside, edge, further⟩ := swept.right r found
      exact ⟨r, member, inside, by simp only [type]; omega⟩
  · intro protruding
    obtain ⟨fl, member, inside, further⟩ := protruding
    by_contra none_found
    simp only [not_or, Option.not_isSome_iff_eq_none] at none_found
    have no_left := swept.no_left none_found.1
    have no_right := swept.no_right none_found.2
    cases type : fl.type with
    | left =>
        have := swept.left_le fl member type inside
        simp only [type] at further
        omega
    | right =>
        have := swept.le_right fl member type inside
        simp only [type] at further
        omega

end Scan

section Place

variable {floats : List FloatBox} {c : FloatBox} {width cx y : Int} {s : Sides}

/-- The loop goes on exactly where the float does not fit. -/
theorem Swept.fits_iff (swept : Swept floats y (y + c.height) cx (cx + width) s) :
    Fits floats c width cx y ↔ ¬ ((s.left.isSome ∨ s.right.isSome) ∧ s.x1 - s.x0 < c.width) := by
  have bounds : (∀ left ∈ leftBounds floats y (y + c.height) cx,
      ∀ right ∈ rightBounds floats y (y + c.height) (cx + width), left + c.width ≤ right) ↔
      s.x0 + c.width ≤ s.x1 := by
    constructor
    · intro between
      exact between _ swept.mem_leftBounds _ swept.mem_rightBounds
    · intro between left left_member right right_member
      have := swept.leftBounds_le left left_member
      have := swept.le_rightBounds right right_member
      omega
  rw [Fits, bounds, swept.isSome_iff, not_and_or]
  constructor
  · intro fits
    rcases fits with none_protrudes | between
    · exact .inl fun ⟨fl, member, protrudes⟩ => none_protrudes fl member protrudes
    · exact .inr (by omega)
  · intro fits
    rcases fits with none_protrudes | between
    · exact .inl fun fl member protrudes => none_protrudes ⟨fl, member, protrudes⟩
    · exact .inr (by omega)

theorem Sides.below_le_left {l : FloatBox} (found : s.left = some l) : s.below y ≤ l.bottom := by
  cases other : s.right with
  | none => simp [Sides.below, found, other]
  | some r =>
      simp only [Sides.below, found, other]
      omega

theorem Sides.below_le_right {r : FloatBox} (found : s.right = some r) : s.below y ≤ r.bottom := by
  cases other : s.left with
  | none => simp [Sides.below, found, other]
  | some l =>
      simp only [Sides.below, found, other]
      omega

/-- The next place is at the lower edge of a float that is in the way. -/
theorem Swept.below_mem {y1 x0 x1 : Int} (swept : Swept floats y y1 x0 x1 s)
    (found : s.left.isSome ∨ s.right.isSome) :
    ∃ fl ∈ floats, fl.bottom = s.below y ∧ y < fl.bottom := by
  cases at_left : s.left with
  | none =>
      cases at_right : s.right with
      | none => simp [at_left, at_right] at found
      | some r =>
          obtain ⟨member, -, inside, -⟩ := swept.right r at_right
          exact ⟨r, member, by simp [Sides.below, at_left, at_right], inside.1⟩
  | some l =>
      obtain ⟨member, -, inside, -⟩ := swept.left l at_left
      cases at_right : s.right with
      | none => exact ⟨l, member, by simp [Sides.below, at_left, at_right], inside.1⟩
      | some r =>
          obtain ⟨other_member, -, other_inside, -⟩ := swept.right r at_right
          simp only [Sides.below, at_left, at_right]
          split
          · exact ⟨l, member, rfl, inside.1⟩
          · exact ⟨r, other_member, rfl, other_inside.1⟩

/-- The floats that are in the way stay in the way until the next place. -/
theorem Swept.not_fits_until (swept : Swept floats y (y + c.height) cx (cx + width) s)
    (no_fit : ¬ Fits floats c width cx y) {y' : Int} (later : y ≤ y') (above : y' < s.below y) :
    ¬ Fits floats c width cx y' := by
  rw [swept.fits_iff, not_not] at no_fit
  obtain ⟨found, narrow⟩ := no_fit
  have stays : ∀ fl : FloatBox, fl.InRange y (y + c.height) → s.below y ≤ fl.bottom →
      fl.InRange y' (y' + c.height) := by
    intro fl inside lower
    exact ⟨by omega, by have := inside.2; omega⟩
  have left_bound : s.x0 ∈ leftBounds floats y' (y' + c.height) cx := by
    cases at_left : s.left with
    | none => simp [leftBounds, swept.no_left at_left]
    | some l =>
        obtain ⟨member, type, inside, edge, -⟩ := swept.left l at_left
        have inside' := stays l inside (Sides.below_le_left at_left)
        exact List.mem_cons_of_mem _ (List.mem_map.mpr ⟨l, by simp [member, type, inside'], edge⟩)
  have right_bound : s.x1 ∈ rightBounds floats y' (y' + c.height) (cx + width) := by
    cases at_right : s.right with
    | none => simp [rightBounds, swept.no_right at_right]
    | some r =>
        obtain ⟨member, type, inside, edge, -⟩ := swept.right r at_right
        have inside' := stays r inside (Sides.below_le_right at_right)
        exact List.mem_cons_of_mem _ (List.mem_map.mpr ⟨r, by simp [member, type, inside'], edge⟩)
  intro fits
  rcases fits with none_protrudes | between
  · rcases found with found | found
    · obtain ⟨l, at_left⟩ := Option.isSome_iff_exists.mp found
      obtain ⟨member, type, inside, edge, further⟩ := swept.left l at_left
      refine none_protrudes l member ⟨stays l inside (Sides.below_le_left at_left), ?_⟩
      simp only [type]
      omega
    · obtain ⟨r, at_right⟩ := Option.isSome_iff_exists.mp found
      obtain ⟨member, type, inside, edge, further⟩ := swept.right r at_right
      refine none_protrudes r member ⟨stays r inside (Sides.below_le_right at_right), ?_⟩
      simp only [type]
      omega
  · have := between _ left_bound _ right_bound
    omega

/-- A float that is put between the sides overlaps no other one. -/
theorem Swept.no_overlap (swept : Swept floats y (y + c.height) cx (cx + width) s)
    (fits : Fits floats c width cx y) (narrow : c.width ≤ width) :
    ∀ fl ∈ floats, ¬ Overlap (c.put y s) fl := by
  have between : s.x0 + c.width ≤ s.x1 := by
    rw [swept.fits_iff, not_and_or] at fits
    rcases fits with none_found | between
    · simp only [not_or, Option.not_isSome_iff_eq_none] at none_found
      rw [swept.no_left none_found.1, swept.no_right none_found.2]
      omega
    · omega
  intro fl member overlap
  obtain ⟨before_right, after_left, above_bottom, below_top⟩ := overlap
  simp only [FloatBox.put, FloatBox.bottom] at before_right after_left above_bottom below_top
  have inside : fl.InRange y (y + c.height) := ⟨above_bottom, by omega⟩
  have put_between : s.x0 ≤ (c.put y s).x ∧ (c.put y s).x + c.width ≤ s.x1 := by
    simp only [FloatBox.put]
    split <;> omega
  simp only [FloatBox.put] at put_between
  cases type : fl.type with
  | left =>
      have := swept.left_le fl member type inside
      omega
  | right =>
      have := swept.le_right fl member type inside
      omega

end Place

section Search

variable {floats : List FloatBox} {c : FloatBox} {width cx start : Int}

/-- Nothing has been passed over: the place is not above the start, and none before it fits. -/
def Searching (floats : List FloatBox) (c : FloatBox) (width cx start y : Int) : Prop :=
  start ≤ y ∧ ∀ y', start ≤ y' → y' < y → ¬ Fits floats c width cx y'

/-- These are the floats that are not passed yet. -/
def remaining (floats : List FloatBox) (y : Int) : Nat :=
  floats.countP fun fl => y < fl.bottom

theorem remaining_lt {y : Int} {fl : FloatBox} (member : fl ∈ floats) (ahead : y < fl.bottom) :
    remaining floats fl.bottom < remaining floats y := by
  induction floats with
  | nil => simp at member
  | cons first rest ih =>
      have monotone : remaining rest fl.bottom ≤ remaining rest y :=
        List.countP_mono_left fun other _ passed => by
          simp only [decide_eq_true_eq] at passed ⊢
          omega
      simp only [remaining, List.countP_cons, decide_eq_true_eq] at ih monotone ⊢
      rcases List.mem_cons.mp member with rfl | member
      · simp only [lt_irrefl, if_false, ahead, if_true]
        omega
      · have := ih member
        split <;> split <;> omega

/-- The search ends at the first place where the float fits. -/
theorem place_run (c : FloatBox) (width cx start : Int) (sorted : Descending floats) {turns : Nat} (enough : floats.length < turns) :
    ∃ found, Loop.run (placeTurn floats c width cx) turns start = some found ∧
      found.2 = allSides floats found.1 (found.1 + c.height) cx (cx + width) ∧
      Searching floats c width cx start found.1 ∧ Fits floats c width cx found.1 := by
  have start_good : Searching floats c width cx start start :=
    ⟨le_rfl, fun y' not_before before => absurd before (by omega)⟩
  refine Loop.run_total (remaining floats) ?_ ?_ start_good ?_
  · intro y y' searching turn
    simp only [placeTurn, findSides_eq sorted] at turn
    split at turn
    · rename_i in_the_way
      obtain rfl := Sum.inl.inj turn
      have swept : Swept floats y (y + c.height) cx (cx + width)
          (allSides floats y (y + c.height) cx (cx + width)) := swept_allSides
      have no_fit : ¬ Fits floats c width cx y := by
        rw [swept.fits_iff, not_not]
        exact in_the_way
      obtain ⟨fl, member, bottom, ahead⟩ := swept.below_mem in_the_way.1
      refine ⟨⟨?_, ?_⟩, ?_⟩
      · have := searching.1
        omega
      · intro earlier not_before before
        by_cases passed : earlier < y
        · exact searching.2 earlier not_before passed
        · exact swept.not_fits_until no_fit (by omega) before
      · rw [← bottom]
        exact remaining_lt member ahead
    · cases turn
  · intro y found searching turn
    simp only [placeTurn, findSides_eq sorted] at turn
    split at turn
    · cases turn
    · rename_i free
      obtain rfl := Sum.inr.inj turn
      refine ⟨rfl, searching, ?_⟩
      rw [swept_allSides.fits_iff]
      exact free
  · exact Nat.lt_of_le_of_lt List.countP_le_length enough

end Search

/-- The float is inserted in order. -/
theorem insertFloat_eq_orderedInsert (b : FloatBox) (floats : List FloatBox) :
    insertFloat b floats =
      floats.orderedInsert (fun first later => later.bottom ≤ first.bottom) b := by
  induction floats with
  | nil => rfl
  | cons box rest ih =>
      rw [insertFloat, List.orderedInsert_cons, ih]
      split <;> split <;> first | rfl | omega

theorem descending_insertFloat (b : FloatBox) {floats : List FloatBox}
    (sorted : Descending floats) : Descending (insertFloat b floats) := by
  have total : Std.Total fun first later : FloatBox => later.bottom ≤ first.bottom :=
    ⟨fun first later => le_total later.bottom first.bottom⟩
  have transitive : IsTrans FloatBox fun first later => later.bottom ≤ first.bottom :=
    ⟨fun _ _ _ upper lower => lower.trans upper⟩
  rw [insertFloat_eq_orderedInsert]
  exact List.Pairwise.orderedInsert b floats sorted

/-- These are the containers after floats have been placed below and added, one after another. -/
inductive Filled : Container → Prop where
  | empty (clearLevel cachedPlaceBelowLevel : Int) : Filled ⟨[], clearLevel, cachedPlaceBelowLevel⟩
  | add {cont cont' : Container} {c placed : FloatBox} {turns : Nat} {width cx y : Int} :
      Filled cont → placeFloatBelow turns c width cx y cont = some (placed, cont') →
      Filled (addFloatToContainer cont' placed)

theorem Filled.descending {cont : Container} (filled : Filled cont) :
    Descending cont.floatChildren := by
  induction filled with
  | empty => exact List.Pairwise.nil
  | add _ placed ih =>
      obtain ⟨found, -, result⟩ := Option.map_eq_some_iff.mp placed
      cases result
      exact descending_insertFloat _ ih

theorem placeStart_eq (cont : Container) (y : Int) :
    cont.placeStart y = max y cont.cachedPlaceBelowLevel := by
  rw [Container.placeStart]
  split <;> omega

end Neosurf.LayoutFloats
