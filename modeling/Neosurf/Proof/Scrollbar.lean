/-
This file proves when the offset of a scrollbar stays in range, and its bar inside its well.
-/

import Neosurf.Construction.Scrollbar
import Neosurf.ToMathlib.Loops
import Neosurf.ToMathlib.Shares

namespace Neosurf

theorem int_value {x y : Int} (h : int x = some y) : y = x := by
  rw [int, Option.ite_none_right_eq_some] at h
  exact (Option.some.inj h.2).symm

namespace Scrollbar

/-- The length of the well, in which the bar moves. -/
abbrev wellLength (s : Scrollbar) : Int := s.length - 2 * scrollbarWidth

/-- The offset is in range, and the bar inside the well. -/
structure WellPlaced (s : Scrollbar) : Prop where
  offset : 0 ≤ s.offset ∧ s.offset ≤ s.fullSize - s.visibleSize
  bar : 0 ≤ s.wellLength → 0 ≤ s.barPos ∧ s.barPos + s.barLen ≤ s.wellLength

/-- The bar of a scrollbar with a full size is in proportion. -/
structure Sound (s : Scrollbar) : Prop extends WellPlaced s where
  barLen : 0 < s.fullSize → s.barLen = (s.wellLength * s.visibleSize).tdiv s.fullSize

theorem portion_value {whole part full value : Int} (h : portion whole part full = some value) :
    value = (whole * part).tdiv full := by
  obtain ⟨product, multiplied, divided⟩ := Option.bind_eq_some_iff.mp h
  rw [int_value divided, int_value multiplied]

variable {s s' : Scrollbar}

theorem barPosAt_value {offset barPos : Int} (h : s.barPosAt offset = some barPos) :
    barPos = if s.fullSize < 1 then 0 else (s.wellLength * offset).tdiv s.fullSize := by
  obtain ⟨well, wide, placed⟩ := Option.bind_eq_some_iff.mp h
  rw [int_value wide] at placed
  split_ifs at placed ⊢ with small
  · exact (Option.some.inj placed).symm
  · exact portion_value placed

/-- The bar is inside the well at every offset in range. -/
theorem bar_inside {offset barPos : Int} (range : 0 ≤ offset ∧ offset ≤ s.fullSize - s.visibleSize)
    (small : s.fullSize < 1 → s.barLen ≤ s.wellLength)
    (exact : 0 < s.fullSize → s.barLen = (s.wellLength * s.visibleSize).tdiv s.fullSize)
    (placed : s.barPosAt offset = some barPos) (inside : 0 ≤ s.wellLength) :
    0 ≤ barPos ∧ barPos + s.barLen ≤ s.wellLength := by
  rw [barPosAt_value placed]
  split_ifs with empty
  · have := small empty
    omega
  · have some : 0 < s.fullSize := by omega
    rw [exact some]
    exact ⟨Portions.tdiv_nonneg_of_nonneg inside range.1 some,
      Portions.tdiv_add_tdiv_le inside some range.1 (by omega)⟩

/-- A scrollbar is moved to an offset in range. -/
theorem Sound.moved (sound : s.Sound) {offset barPos : Int}
    (range : 0 ≤ offset ∧ offset ≤ s.fullSize - s.visibleSize)
    (placed : s.barPosAt offset = some barPos) : { s with offset, barPos }.Sound where
  offset := range
  bar inside := by
    have fits := sound.bar inside
    have small : s.barLen ≤ s.wellLength := by omega
    exact bar_inside range (fun _ => small) sound.barLen placed inside
  barLen := sound.barLen

theorem setBarPos_sound {value : Int} (sound : s.Sound) (positive : 0 ≤ value)
    (done : s.setBarPos value = some s') : s'.Sound := by
  obtain ⟨well, wide, rest⟩ := Option.bind_eq_some_iff.mp done
  obtain ⟨room, free, rest⟩ := Option.bind_eq_some_iff.mp rest
  obtain ⟨offset, scaled, final⟩ := Option.bind_eq_some_iff.mp rest
  have room_eq : room = s.wellLength - s.barLen := by rw [int_value free, int_value wide]
  generalize chosen : (if value > room then room else value) = barPos at scaled final
  have most : barPos ≤ room := by
    rw [← chosen]
    split_ifs <;> omega
  have least : 0 ≤ room → 0 ≤ barPos := by
    rw [← chosen]
    split_ifs <;> omega
  cases final
  refine ⟨⟨?_, fun inside => ?_⟩, sound.barLen⟩
  · have range := sound.offset
    split_ifs at scaled with narrow
    · cases scaled
      exact ⟨le_rfl, range.1.trans range.2⟩
    · obtain ⟨excess, left, scaled⟩ := Option.bind_eq_some_iff.mp scaled
      rw [int_value left] at scaled
      have some : 0 < room := by omega
      rw [portion_value scaled]
      exact ⟨Portions.tdiv_nonneg_of_nonneg (by omega) (least some.le) some,
        Portions.tdiv_le_of_part_le (by omega) some most (least some.le)⟩
  · have fits := sound.bar inside
    change 0 ≤ barPos ∧ barPos + s.barLen ≤ s.wellLength
    omega

theorem setOffset_sound {value : Int} (sound : s.Sound) (positive : 0 ≤ value)
    (done : s.setOffset value = some s') : s'.Sound := by
  obtain ⟨excess, left, rest⟩ := Option.bind_eq_some_iff.mp done
  obtain ⟨barPos, placed, final⟩ := Option.bind_eq_some_iff.mp rest
  cases final
  refine sound.moved ?_ placed
  have range := sound.offset
  rw [int_value left]
  split_ifs <;> omega

/-- `scrollbar_set` keeps a scrollbar well placed. -/
theorem set_sound {value : Int} {barPos : Bool} {sent : List Msg} (sound : s.Sound)
    (done : s.set value barPos = some (s', sent)) : s'.Sound := by
  have positive : 0 ≤ if value < 0 then 0 else value := by split_ifs <;> omega
  rw [set] at done
  generalize (if value < 0 then 0 else value) = value at done positive
  by_cases still : s.fullSize = s.visibleSize
  · rw [if_pos still] at done
    cases done
    exact sound
  · rw [if_neg still] at done
    obtain ⟨moved, placed, final⟩ := Option.bind_eq_some_iff.mp done
    cases final
    cases barPos with
    | true => exact setBarPos_sound sound positive placed
    | false => exact setOffset_sound sound positive placed

/-- `scrollbar_scroll` keeps a scrollbar well placed. -/
theorem scroll_sound {change : Int} {outcome : (Scrollbar × List Msg) × Bool} (sound : s.Sound)
    (done : s.scroll change = some outcome) : outcome.1.1.Sound := by
  rw [scroll] at done
  split_ifs at done with still
  · cases done
    exact sound
  · obtain ⟨pixels, named, rest⟩ := Option.bind_eq_some_iff.mp done
    obtain ⟨excess, left, rest⟩ := Option.bind_eq_some_iff.mp rest
    obtain ⟨target, added, rest⟩ := Option.bind_eq_some_iff.mp rest
    dsimp only at rest
    generalize chosen : (if target > excess then excess else if target < 0 then 0 else target) =
      offset at rest
    split_ifs at rest with same
    · cases rest
      exact sound
    · obtain ⟨barPos, placed, final⟩ := Option.bind_eq_some_iff.mp rest
      cases final
      refine sound.moved ?_ placed
      have range := sound.offset
      rw [← chosen, int_value left]
      split_ifs <;> omega

theorem startDrag_sound (sound : s.Sound) (x y : Int) (contentDrag : Bool) :
    (s.startDrag x y contentDrag).Sound := ⟨⟨sound.offset, sound.bar⟩, sound.barLen⟩

theorem stopDrag_sound (sound : s.Sound) : s.stopDrag.Sound :=
  ⟨⟨sound.offset, sound.bar⟩, sound.barLen⟩

theorem dragTo_sound {x y : Int} {outcome : Scrollbar × List Msg} (sound : s.Sound)
    (done : s.dragTo x y = some outcome) : outcome.1.Sound := by
  obtain ⟨moved, left, rest⟩ := Option.bind_eq_some_iff.mp done
  obtain ⟨val, signed, rest⟩ := Option.bind_eq_some_iff.mp rest
  split_ifs at rest with away
  · obtain ⟨target, added, placed⟩ := Option.bind_eq_some_iff.mp rest
    exact set_sound sound placed
  · cases rest
    exact sound

/-- The bar of a scrollbar that is created fits into the well. There is a full size, or none, or
less than none and the bar is no longer than the well. -/
def FitsWell (length fullSize visibleSize : Int) : Prop :=
  0 ≤ fullSize ∨ length < 2 * scrollbarWidth ∨
    (length - 2 * scrollbarWidth + 1) * fullSize < (length - 2 * scrollbarWidth) * visibleSize

instance {length fullSize visibleSize : Int} : Decidable (FitsWell length fullSize visibleSize) :=
  inferInstanceAs (Decidable (_ ∨ _ ∨ _))

/-- The values of a scrollbar that is created. -/
theorem create_values {horizontal : Bool} {length fullSize visibleSize : Int}
    (done : create horizontal length fullSize visibleSize = some s) :
    s.length = length ∧ s.fullSize = fullSize ∧ s.visibleSize = visibleSize ∧ s.offset = 0 ∧
      s.barPos = 0 ∧ s.barLen = if fullSize = 0 then 0
        else (s.wellLength * visibleSize).tdiv fullSize := by
  obtain ⟨well, wide, rest⟩ := Option.bind_eq_some_iff.mp done
  obtain ⟨barLen, scaled, final⟩ := Option.bind_eq_some_iff.mp rest
  cases final
  refine ⟨rfl, rfl, rfl, rfl, rfl, ?_⟩
  rw [int_value wide] at scaled
  split_ifs at scaled ⊢ with empty
  · exact (Option.some.inj scaled).symm
  · exact portion_value scaled

theorem barLen_le {well visible full : Int} (inside : 0 ≤ well) (fits : visible ≤ full)
    (some : 0 < full) : (well * visible).tdiv full ≤ well := by
  have both : (well * 0).tdiv full + (well * visible).tdiv full ≤ well :=
    Portions.tdiv_add_tdiv_le inside some le_rfl (by omega)
  rwa [mul_zero, Int.zero_tdiv, zero_add] at both

/-- A full size below zero has its own bound for the bar. -/
theorem barLen_le_iff {well visible full : Int} (inside : 0 ≤ well) (fits : visible ≤ full)
    (below : full < 0) :
    (well * visible).tdiv full ≤ well ↔ (well + 1) * full < well * visible := by
  have turned : (well * visible).tdiv full = (well * -visible).tdiv (-full) := by
    rw [mul_neg, Int.neg_tdiv, Int.tdiv_neg, neg_neg]
  have some : 0 < -full := by omega
  have positive : 0 ≤ (well * -visible).tdiv (-full) :=
    Portions.tdiv_nonneg_of_nonneg inside (by omega) some
  have dividend : 0 ≤ well * -visible := mul_nonneg inside (by omega)
  have bounds : 0 ≤ (well * -visible).tdiv (-full) ∧ (well * -visible).tdiv (-full) ≤ well ↔
      - -full < well * -visible ∧ well * -visible < (well + 1) * -full :=
    Portions.tdiv_mem_iff some inside
  rw [turned]
  rw [mul_neg (well + 1)] at bounds
  have swapped : well * -visible < -((well + 1) * full) ↔ (well + 1) * full < well * visible := by
    rw [mul_neg, neg_lt_neg_iff]
  rw [← swapped]
  omega

/-- `scrollbar_create` places the bar well exactly when it fits. -/
theorem create_wellPlaced_iff {horizontal : Bool} {length fullSize visibleSize : Int}
    (fits : visibleSize ≤ fullSize)
    (done : create horizontal length fullSize visibleSize = some s) :
    s.WellPlaced ↔ FitsWell length fullSize visibleSize := by
  obtain ⟨rfl, rfl, rfl, offset, barPos, barLen⟩ := create_values done
  have range : 0 ≤ s.offset ∧ s.offset ≤ s.fullSize - s.visibleSize := by omega
  have shape : s.WellPlaced ↔ (0 ≤ s.wellLength → s.barLen ≤ s.wellLength) := by
    constructor
    · intro placed inside
      have := placed.bar inside
      omega
    · exact fun small => ⟨range, fun inside => ⟨barPos.ge, by have := small inside; omega⟩⟩
  rw [shape, FitsWell]
  rcases lt_trichotomy s.fullSize 0 with below | empty | some
  · rw [barLen, if_neg below.ne]
    constructor
    · intro small
      by_cases inside : 0 ≤ s.wellLength
      · exact .inr (.inr ((barLen_le_iff inside fits below).mp (small inside)))
      · exact .inr (.inl (sub_neg.mp (not_le.mp inside)))
    · intro small inside
      rcases small with full | narrow | short
      · omega
      · exact absurd (sub_nonneg.mp inside) narrow.not_ge
      · exact (barLen_le_iff inside fits below).mpr short
  · rw [barLen, if_pos empty]
    exact ⟨fun _ => .inl empty.ge, fun _ inside => inside⟩
  · rw [barLen, if_neg some.ne']
    exact ⟨fun _ => .inl some.le, fun _ inside => barLen_le inside fits some⟩

theorem create_sound {horizontal : Bool} {length fullSize visibleSize : Int}
    (fits : visibleSize ≤ fullSize) (small : FitsWell length fullSize visibleSize)
    (done : create horizontal length fullSize visibleSize = some s) : s.Sound where
  toWellPlaced := (create_wellPlaced_iff fits done).mpr small
  barLen := by
    obtain ⟨rfl, rfl, rfl, -, -, barLen⟩ := create_values done
    exact fun some => by rw [barLen, if_neg some.ne']

/-- What there will be to scroll, with these sizes given to `scrollbar_set_extents`. -/
def newExcess (s : Scrollbar) (visibleSize fullSize : Int) : Int :=
  max 0 ((if fullSize ≠ -1 then fullSize else s.fullSize) -
    (if visibleSize ≠ -1 then visibleSize else s.visibleSize))

/-- The sizes given scale the offset into the new range. Either nothing changes, or nothing could be
scrolled, or the product with their difference is small enough. -/
def FitsExtents (s : Scrollbar) (length visibleSize fullSize : Int) : Prop :=
  (length = s.length ∧ visibleSize = s.visibleSize ∧ fullSize = s.fullSize) ∨
    s.fullSize ≤ s.visibleSize ∨
    (-(s.fullSize - s.visibleSize) < (fullSize - visibleSize) * s.offset ∧
      (fullSize - visibleSize) * s.offset <
        (s.newExcess visibleSize fullSize + 1) * (s.fullSize - s.visibleSize))

instance {length visibleSize fullSize : Int} :
    Decidable (s.FitsExtents length visibleSize fullSize) :=
  inferInstanceAs (Decidable (_ ∨ _ ∨ _))

theorem resized_excess (visibleSize fullSize length : Int) :
    (s.resized length visibleSize fullSize).fullSize -
      (s.resized length visibleSize fullSize).visibleSize = s.newExcess visibleSize fullSize := by
  rw [newExcess, resized]
  dsimp only
  generalize (if visibleSize ≠ -1 then visibleSize else s.visibleSize) = visible
  generalize (if fullSize ≠ -1 then fullSize else s.fullSize) = full
  split_ifs <;> omega

theorem scaledOffset_value {visibleSize fullSize offset : Int}
    (h : s.scaledOffset visibleSize fullSize = some offset) :
    offset = if s.fullSize ≤ s.visibleSize then 0
      else ((fullSize - visibleSize) * s.offset).tdiv (s.fullSize - s.visibleSize) := by
  obtain ⟨excess, left, rest⟩ := Option.bind_eq_some_iff.mp h
  rw [int_value left] at rest
  split_ifs at rest with still
  · rw [if_pos (by omega)]
    exact (Option.some.inj rest).symm
  · obtain ⟨given, difference, scaled⟩ := Option.bind_eq_some_iff.mp rest
    rw [if_neg (by omega), portion_value scaled, int_value difference]

/-- What `scrollbar_set_extents` leaves when it changes something. -/
theorem setExtents_changed {length visibleSize fullSize : Int} {sent : List Msg}
    (done : s.setExtents length visibleSize fullSize = some (s', sent))
    (changed : ¬(length = s.length ∧ visibleSize = s.visibleSize ∧ fullSize = s.fullSize)) :
    s.scaledOffset visibleSize fullSize = some s'.offset ∧
      s'.fullSize - s'.visibleSize = s.newExcess visibleSize fullSize ∧
      (s'.fullSize < 1 → s'.barLen = s'.wellLength) ∧
      (0 < s'.fullSize → s'.barLen = (s'.wellLength * s'.visibleSize).tdiv s'.fullSize) ∧
      s'.barPosAt s'.offset = some s'.barPos := by
  rw [setExtents, if_neg changed] at done
  obtain ⟨offset, scaled, rest⟩ := Option.bind_eq_some_iff.mp done
  obtain ⟨well, wide, rest⟩ := Option.bind_eq_some_iff.mp rest
  obtain ⟨barLen, shaped, rest⟩ := Option.bind_eq_some_iff.mp rest
  obtain ⟨barPos, placed, final⟩ := Option.bind_eq_some_iff.mp rest
  cases final
  rw [int_value wide] at shaped
  refine ⟨scaled, resized_excess visibleSize fullSize length, fun small => ?_,
    fun positive => ?_, placed⟩
  · rw [if_pos small] at shaped
    exact (Option.some.inj shaped).symm
  · change 0 < (s.resized length visibleSize fullSize).fullSize at positive
    rw [if_neg (by omega)] at shaped
    exact portion_value shaped

/-- `scrollbar_set_extents` leaves a scrollbar well placed exactly when the sizes fit. -/
theorem setExtents_wellPlaced_iff {length visibleSize fullSize : Int} {sent : List Msg}
    (sound : s.Sound) (done : s.setExtents length visibleSize fullSize = some (s', sent)) :
    s'.WellPlaced ↔ s.FitsExtents length visibleSize fullSize := by
  by_cases changed : length = s.length ∧ visibleSize = s.visibleSize ∧ fullSize = s.fullSize
  · rw [setExtents, if_pos changed] at done
    cases done
    exact ⟨fun _ => .inl changed, fun _ => sound.toWellPlaced⟩
  · obtain ⟨scaled, excess, small, shaped, placed⟩ := setExtents_changed done changed
    have room : 0 ≤ s.newExcess visibleSize fullSize := le_max_left ..
    -- The bar follows the offset, so that the offset decides.
    have shape : s'.WellPlaced ↔
        0 ≤ s'.offset ∧ s'.offset ≤ s.newExcess visibleSize fullSize := by
      rw [← excess]
      exact ⟨fun well => well.offset, fun range =>
        ⟨range, bar_inside range (fun less => (small less).le) shaped placed⟩⟩
    rw [shape, FitsExtents, or_iff_right changed, scaledOffset_value scaled]
    split_ifs with still
    · exact ⟨fun _ => .inl still, fun _ => ⟨le_rfl, room⟩⟩
    · rw [or_iff_right still]
      exact Portions.tdiv_mem_iff (by omega) room

theorem setExtents_sound {length visibleSize fullSize : Int} {sent : List Msg} (sound : s.Sound)
    (fits : s.FitsExtents length visibleSize fullSize)
    (done : s.setExtents length visibleSize fullSize = some (s', sent)) : s'.Sound where
  toWellPlaced := (setExtents_wellPlaced_iff sound done).mpr fits
  barLen := by
    by_cases changed : length = s.length ∧ visibleSize = s.visibleSize ∧ fullSize = s.fullSize
    · rw [setExtents, if_pos changed] at done
      cases done
      exact sound.barLen
    · exact (setExtents_changed done changed).2.2.2.1

end Scrollbar

namespace Scrollbars

open Scrollbar (Msg MouseStatus)

/-- Every scrollbar is sound. -/
def AllSound (bars : Scrollbars) : Prop := ∀ a s, bars.memory a = some s → s.Sound

variable {bars bars' : Scrollbars}

@[simp] theorem put_memory (a : Nat) (outcome : Scrollbar × List Msg) :
    (bars.put a outcome).memory = Function.update bars.memory a (some outcome.1) := rfl

theorem allSound_put (all : bars.AllSound) (a : Nat) {outcome : Scrollbar × List Msg}
    (sound : outcome.1.Sound) : (bars.put a outcome).AllSound := by
  intro a' s here
  by_cases same : a' = a
  · subst same
    rw [put_memory, Function.update_self] at here
    exact Option.some.inj here ▸ sound
  · rw [put_memory, Function.update_of_ne same] at here
    exact all a' s here

theorem allSound_unpair (all : bars.AllSound) {p : Nat} (done : bars.unpair p = some bars') :
    bars'.AllSound := by
  obtain ⟨q, here, final⟩ := Option.bind_eq_some_iff.mp done
  cases final
  have sound := all p q here
  exact allSound_put all p ⟨⟨sound.offset, sound.bar⟩, sound.barLen⟩

theorem allSound_destroy (all : bars.AllSound) {a : Nat} (done : bars.destroy a = some bars') :
    bars'.AllSound := by
  obtain ⟨s, here, rest⟩ := Option.bind_eq_some_iff.mp done
  obtain ⟨left, alone, final⟩ := Option.bind_eq_some_iff.mp rest
  cases final
  have others : left.AllSound := by
    cases paired : s.pair with
    | none =>
        rw [paired] at alone
        exact Option.some.inj alone ▸ all
    | some p =>
        rw [paired] at alone
        exact allSound_unpair all alone
  intro a' t here'
  change Function.update left.memory a none a' = some t at here'
  by_cases same : a' = a
  · subst same
    rw [Function.update_self] at here'
    cases here'
  · rw [Function.update_of_ne same] at here'
    exact others a' t here'

theorem allSound_set (all : bars.AllSound) {a : Nat} {value : Int} {barPos : Bool}
    (done : bars.set a value barPos = some bars') : bars'.AllSound := by
  obtain ⟨s, here, rest⟩ := Option.bind_eq_some_iff.mp done
  obtain ⟨outcome, moved, final⟩ := Option.bind_eq_some_iff.mp rest
  cases final
  exact allSound_put all a (Scrollbar.set_sound (all a s here) moved)

theorem allSound_dragTo (all : bars.AllSound) {a : Nat} {x y : Int}
    (done : bars.dragTo a x y = some bars') : bars'.AllSound := by
  obtain ⟨s, here, rest⟩ := Option.bind_eq_some_iff.mp done
  obtain ⟨outcome, moved, final⟩ := Option.bind_eq_some_iff.mp rest
  cases final
  exact allSound_put all a (Scrollbar.dragTo_sound (all a s here) moved)

theorem allSound_dragStartInternal (all : bars.AllSound) {a : Nat} {x y : Int}
    {contentDrag pair : Bool}
    (done : bars.dragStartInternal a x y contentDrag pair = some bars') : bars'.AllSound := by
  obtain ⟨s, here, rest⟩ := Option.bind_eq_some_iff.mp done
  have started := Scrollbar.startDrag_sound (all a s here) x y contentDrag
  dsimp only at rest
  split at rest
  · cases rest
    exact allSound_put all a started
  · obtain ⟨q, other, final⟩ := Option.bind_eq_some_iff.mp rest
    cases final
    have paired : { s.startDrag x y contentDrag with pairDrag := true }.Sound :=
      ⟨⟨started.offset, started.bar⟩, started.barLen⟩
    have alone : (bars.put a ({ s.startDrag x y contentDrag with pairDrag := true }, [])).AllSound :=
      allSound_put all a paired
    exact allSound_put alone _ (Scrollbar.startDrag_sound (alone _ q other) x y contentDrag)

theorem allSound_push (all : bars.AllSound) {a : Nat} {s : Scrollbar} {mouse : Nat} {change : Int}
    (done : bars.push a s mouse change = some bars') : bars'.AllSound := by
  rw [push] at done
  split_ifs at done
  · obtain ⟨target, added, moved⟩ := Option.bind_eq_some_iff.mp done
    exact allSound_set all moved
  · obtain ⟨target, added, moved⟩ := Option.bind_eq_some_iff.mp done
    exact allSound_set all moved
  · exact Option.some.inj done ▸ all

theorem allSound_dragBar (all : bars.AllSound) {a mouse : Nat} {val x y : Int}
    (done : bars.dragBar a mouse val x y = some bars') : bars'.AllSound := by
  obtain ⟨s, here, rest⟩ := Option.bind_eq_some_iff.mp done
  split_ifs at rest
  · obtain ⟨on, inside, rest⟩ := Option.bind_eq_some_iff.mp rest
    split_ifs at rest
    · exact allSound_dragStartInternal all rest
    · exact Option.some.inj rest ▸ all
  · exact Option.some.inj rest ▸ all

/-- `scrollbar_mouse_action` keeps both scrollbars of a pair. The induction is on the depth. -/
theorem allSound_mouseAction (depth : Nat) {bars : Scrollbars} (all : bars.AllSound)
    {a mouse : Nat} {x y : Int} {outcome : Scrollbars × MouseStatus}
    (done : mouseAction depth bars a mouse x y = some outcome) : outcome.1.AllSound := by
  induction depth generalizing bars a outcome with
  | zero => cases done
  | succ depth ih =>
      obtain ⟨s, here, rest⟩ := Option.bind_eq_some_iff.mp done
      by_cases outside : !s.dragging && !s.covers x y
      · rw [if_pos outside] at rest
        exact Option.some.inj rest ▸ all
      rw [if_neg outside] at rest
      by_cases dragging : s.dragging
      · rw [if_pos dragging] at rest
        obtain ⟨dragged, moved, rest⟩ := Option.bind_eq_some_iff.mp rest
        have kept := allSound_dragTo all moved
        by_cases paired : s.pairDrag
        · rw [if_pos paired] at rest
          obtain ⟨p, other, rest⟩ := Option.bind_eq_some_iff.mp rest
          obtain ⟨both, followed, final⟩ := Option.bind_eq_some_iff.mp rest
          cases final
          have both_sound : both.1.AllSound := ih kept followed
          exact both_sound
        · rw [if_neg paired] at rest
          cases rest
          exact kept
      · rw [if_neg dragging] at rest
        obtain ⟨part, found, rest⟩ := Option.bind_eq_some_iff.mp rest
        obtain ⟨pushed, changed, rest⟩ := Option.bind_eq_some_iff.mp rest
        obtain ⟨started, begun, final⟩ := Option.bind_eq_some_iff.mp rest
        cases final
        have kept : pushed.AllSound := by
          cases shift : part.2 with
          | none =>
              rw [shift] at changed
              exact Option.some.inj changed ▸ all
          | some change =>
              rw [shift] at changed
              exact allSound_push all changed
        exact allSound_dragBar kept begun

theorem allSound_endDrag (all : bars.AllSound) {a : Nat} {x y : Int}
    (done : bars.endDrag a x y = some bars') : bars'.AllSound := by
  obtain ⟨dragged, moved, rest⟩ := Option.bind_eq_some_iff.mp done
  obtain ⟨s, here, final⟩ := Option.bind_eq_some_iff.mp rest
  cases final
  have kept := allSound_dragTo all moved
  exact allSound_put kept a (Scrollbar.stopDrag_sound (kept a s here))

theorem allSound_mouseDragEnd (all : bars.AllSound) {a : Nat} {x y : Int}
    (done : bars.mouseDragEnd a x y = some bars') : bars'.AllSound := by
  obtain ⟨s, here, rest⟩ := Option.bind_eq_some_iff.mp done
  by_cases idle : !s.dragging
  · rw [if_pos idle] at rest
    cases rest
  rw [if_neg idle] at rest
  obtain ⟨ended, own, rest⟩ := Option.bind_eq_some_iff.mp rest
  have kept := allSound_endDrag all own
  by_cases paired : s.pairDrag
  · rw [if_pos paired] at rest
    obtain ⟨t, still, rest⟩ := Option.bind_eq_some_iff.mp rest
    obtain ⟨p, other, rest⟩ := Option.bind_eq_some_iff.mp rest
    obtain ⟨both, followed, final⟩ := Option.bind_eq_some_iff.mp rest
    cases final
    have sound := kept a t still
    have alone : (ended.put a ({ t with pairDrag := false }, [])).AllSound :=
      allSound_put kept a ⟨⟨sound.offset, sound.bar⟩, sound.barLen⟩
    have both_sound : both.AllSound := allSound_endDrag alone followed
    exact both_sound
  · rw [if_neg paired] at rest
    cases rest
    exact kept

theorem allSound_makePair (all : bars.AllSound) {horizontal vertical : Nat}
    (done : bars.makePair horizontal vertical = some bars') : bars'.AllSound := by
  obtain ⟨h, across, rest⟩ := Option.bind_eq_some_iff.mp done
  obtain ⟨v, down, rest⟩ := Option.bind_eq_some_iff.mp rest
  split_ifs at rest with turned
  cases rest
  have left := all horizontal h across
  have right := all vertical v down
  exact allSound_put (allSound_put all horizontal ⟨⟨left.offset, left.bar⟩, left.barLen⟩) vertical
    ⟨⟨right.offset, right.bar⟩, right.barLen⟩

/-- A client creates scrollbars that have no less in full than is visible. -/
def Call.proper : Call → Bool
  | .create _ _ _ fullSize visibleSize => visibleSize ≤ fullSize
  | _ => true

/-- The sizes of a call fit the scrollbars there. -/
def Fits (bars : Scrollbars) : Call → Prop
  | .create _ _ length fullSize visibleSize => Scrollbar.FitsWell length fullSize visibleSize
  | .setExtents a length visibleSize fullSize =>
      ∀ s ∈ bars.memory a, s.FitsExtents length visibleSize fullSize
  | _ => True

theorem allSound_call {depth : Nat} {c : Call} (all : bars.AllSound) (proper : c.proper)
    (fits : bars.Fits c) (done : call depth bars c = some bars') : bars'.AllSound := by
  cases c with
  | create a horizontal length fullSize visibleSize =>
      rw [call, create] at done
      split_ifs at done with taken
      obtain ⟨s, made, final⟩ := Option.bind_eq_some_iff.mp done
      cases final
      exact allSound_put all a (Scrollbar.create_sound (of_decide_eq_true proper) fits made)
  | destroy a => exact allSound_destroy all done
  | set a value barPos => exact allSound_set all done
  | scroll a change =>
      obtain ⟨outcome, scrolled, rfl⟩ := Option.map_eq_some_iff.mp done
      obtain ⟨s, here, rest⟩ := Option.bind_eq_some_iff.mp scrolled
      obtain ⟨moved, changed, final⟩ := Option.bind_eq_some_iff.mp rest
      cases final
      exact allSound_put all a (Scrollbar.scroll_sound (all a s here) changed)
  | setExtents a length visibleSize fullSize =>
      obtain ⟨s, here, rest⟩ := Option.bind_eq_some_iff.mp done
      obtain ⟨outcome, changed, final⟩ := Option.bind_eq_some_iff.mp rest
      cases final
      exact allSound_put all a (Scrollbar.setExtents_sound (all a s here) (fits s here) changed)
  | mouseAction a mouse x y =>
      obtain ⟨outcome, acted, rfl⟩ := Option.map_eq_some_iff.mp done
      exact allSound_mouseAction depth all acted
  | mouseDragEnd a x y => exact allSound_mouseDragEnd all done
  | startContentDrag a x y => exact allSound_dragStartInternal all done
  | makePair horizontal vertical => exact allSound_makePair all done

/-- The calls of a run, in order. -/
abbrev run (depth : Nat) : Scrollbars → List Call → Option Scrollbars :=
  GuardedRuns.run (call depth)

theorem allSound_run {depth : Nat} (calls : List Call) {bars : Scrollbars}
    (proper : ∀ c ∈ calls, c.proper) (fits : GuardedRuns.Meets (call depth) Fits initial calls)
    (reached : run depth initial calls = some bars) : bars.AllSound := by
  have first : initial.AllSound := by
    intro a s here
    cases here
  have meets : GuardedRuns.Meets (call depth) (fun s c => c.proper ∧ Fits s c) initial calls :=
    GuardedRuns.meets_and calls (fun c inside _ => proper c inside) fits
  exact GuardedRuns.run_keeps
    (fun _ _ _ all both done => allSound_call all both.1 both.2 done) calls first meets reached

instance (bars : Scrollbars) : ∀ c, Decidable (bars.Fits c)
  | .create _ _ length fullSize visibleSize =>
      inferInstanceAs (Decidable (Scrollbar.FitsWell length fullSize visibleSize))
  | .setExtents a length visibleSize fullSize =>
      inferInstanceAs (Decidable (∀ s ∈ bars.memory a, s.FitsExtents length visibleSize fullSize))
  | .destroy _ => inferInstanceAs (Decidable True)
  | .set _ _ _ => inferInstanceAs (Decidable True)
  | .scroll _ _ => inferInstanceAs (Decidable True)
  | .mouseAction _ _ _ _ => inferInstanceAs (Decidable True)
  | .mouseDragEnd _ _ _ => inferInstanceAs (Decidable True)
  | .startContentDrag _ _ _ => inferInstanceAs (Decidable True)
  | .makePair _ _ => inferInstanceAs (Decidable True)

/-- A pair is scrolled, given new sizes and dragged by its content. -/
def draggedPair : List Call :=
  [.create 0 true 132 200 100, .create 1 false 132 400 100, .makePair 0 1,
    .scroll 1 Scrollbar.scrollPageDown, .setExtents 1 132 100 700, .startContentDrag 0 50 50,
    .mouseAction 0 browserMouseDragOn 20 30, .mouseDragEnd 0 10 30]

end Scrollbars
end Neosurf
