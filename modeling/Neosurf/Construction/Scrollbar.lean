/-
This file models the scrollbars of `desktop/scrollbar.c`. An `int` is an integer whose sums and
products are checked for overflow, which C leaves undefined. Redrawing is left out.
-/

import Mathlib.Logic.Function.Basic

namespace Neosurf

/-- This is the value of an `int` expression. There is none where it overflows. -/
def int (x : Int) : Option Int :=
  if -2147483648 ≤ x ∧ x ≤ 2147483647 then some x else none

/-- This is `struct scrollbar` without its client. -/
structure Scrollbar where
  horizontal : Bool
  length : Int
  fullSize : Int
  visibleSize : Int
  offset : Int
  barPos : Int
  barLen : Int
  dragging : Bool
  dragStartCoord : Int
  dragStartPos : Int
  dragContent : Bool
  pair : Option Nat
  pairDrag : Bool
  deriving DecidableEq, Repr

namespace Scrollbar

/-- This is `SCROLLBAR_WIDTH`. -/
def scrollbarWidth : Int := 16

/-- These are `SCROLL_TOP` and the other named changes. -/
def scrollTop : Int := -2147483648
def scrollPageUp : Int := scrollTop + 1
def scrollBottom : Int := 2147483647
def scrollPageDown : Int := scrollBottom - 1

/-- This is `struct scrollbar_msg_data`, which the client receives. -/
inductive Msg where
  | moved (scrollOffset : Int)
  | scrollStart (x0 y0 x1 y1 : Int)
  | scrollFinished
  deriving DecidableEq, Repr

/-- This is `scrollbar_mouse_status`. -/
inductive MouseStatus where
  | none
  | both
  | up
  | pup
  | vrt
  | pdwn
  | dwn
  | lft
  | plft
  | hrz
  | prgt
  | rgt
  deriving DecidableEq, Repr

/-- A part of a whole, in proportion to a full size, as C divides. -/
def portion (whole part full : Int) : Option Int := do
  let product ← int (whole * part)
  int (product.tdiv full)

/-- This is `scrollbar_create`. The start of a drag is not initialised, and read in drags only. -/
def create (horizontal : Bool) (length fullSize visibleSize : Int) : Option Scrollbar := do
  let wellLength ← int (length - 2 * scrollbarWidth)
  let barLen ← (if fullSize = 0 then some 0 else portion wellLength visibleSize fullSize)
  return {
    horizontal, length, fullSize, visibleSize, barLen
    offset := 0, barPos := 0, pair := none, pairDrag := false
    dragging := false, dragContent := false, dragStartCoord := 0, dragStartPos := 0 }

variable (s : Scrollbar)

/-- The value of `scrollbar_set` is a position of the bar. -/
def setBarPos (value : Int) : Option Scrollbar := do
  let wellLength ← int (s.length - 2 * scrollbarWidth)
  let room ← int (wellLength - s.barLen)
  let barPos := if value > room then room else value
  let offset ←
    (if room < 1 then some 0
    else (int (s.fullSize - s.visibleSize)).bind fun excess => portion excess barPos room)
  return { s with barPos, offset }

/-- The place of the bar for an offset. -/
def barPosAt (offset : Int) : Option Int := do
  let wellLength ← int (s.length - 2 * scrollbarWidth)
  if s.fullSize < 1 then some 0 else portion wellLength offset s.fullSize

/-- The value of `scrollbar_set` is an offset. -/
def setOffset (value : Int) : Option Scrollbar := do
  let excess ← int (s.fullSize - s.visibleSize)
  let offset := if value > excess then excess else value
  let barPos ← s.barPosAt offset
  return { s with offset, barPos }

/-- This is `scrollbar_set`. -/
def set (value : Int) (barPos : Bool) : Option (Scrollbar × List Msg) :=
  let value := if value < 0 then 0 else value
  if s.fullSize = s.visibleSize then some (s, [])
  else do
    let moved ← (if barPos then s.setBarPos value else s.setOffset value)
    return (moved, if moved.offset ≠ s.offset then [.moved moved.offset] else [])

/-- The named values of a change become offsets in pixels. -/
def pixels (change : Int) : Option Int :=
  if change = scrollTop then int (-s.fullSize)
  else if change = scrollPageUp then int (-s.visibleSize)
  else if change = scrollPageDown then some s.visibleSize
  else if change = scrollBottom then some s.fullSize
  else some change

/-- This is `scrollbar_scroll`. -/
def scroll (change : Int) : Option ((Scrollbar × List Msg) × Bool) :=
  if change = 0 ∨ s.fullSize ≤ s.visibleSize then some ((s, []), false)
  else do
    let change ← s.pixels change
    let excess ← int (s.fullSize - s.visibleSize)
    let target ← int (s.offset + change)
    let offset := if target > excess then excess else if target < 0 then 0 else target
    if offset = s.offset then some ((s, []), false)
    else do
      let barPos ← s.barPosAt offset
      return (({ s with offset, barPos }, [.moved offset]), true)

/-- The sizes that `scrollbar_set_extents` leaves. A `-1` keeps the size that is there. -/
def resized (length visibleSize fullSize : Int) : Scrollbar :=
  let visible := if visibleSize ≠ -1 then visibleSize else s.visibleSize
  let full := if fullSize ≠ -1 then fullSize else s.fullSize
  { s with
    length := if length ≠ -1 then length else s.length
    visibleSize := visible
    fullSize := if full < visible then visible else full }

/-- The offset of `scrollbar_set_extents` is scaled by the sizes that it was given. -/
def scaledOffset (visibleSize fullSize : Int) : Option Int := do
  let curExcess ← int (s.fullSize - s.visibleSize)
  if curExcess ≤ 0 then some 0
  else (int (fullSize - visibleSize)).bind fun excess => portion excess s.offset curExcess

/-- This is `scrollbar_set_extents`. -/
def setExtents (length visibleSize fullSize : Int) : Option (Scrollbar × List Msg) :=
  if length = s.length ∧ visibleSize = s.visibleSize ∧ fullSize = s.fullSize then some (s, [])
  else do
    let offset ← s.scaledOffset visibleSize fullSize
    let s := s.resized length visibleSize fullSize
    let wellLength ← int (s.length - 2 * scrollbarWidth)
    let barLen ←
      (if s.fullSize < 1 then some wellLength else portion wellLength s.visibleSize s.fullSize)
    let barPos ← s.barPosAt offset
    return ({ s with offset, barLen, barPos }, [.moved offset])

/-- The coordinate along the scrollbar. -/
def along (x y : Int) : Int := if s.horizontal then x else y

/-- A point is on the widget. -/
def covers (x y : Int) : Bool :=
  let x1 := if s.horizontal then s.length else scrollbarWidth
  let y1 := if s.horizontal then scrollbarWidth else s.length
  decide (0 ≤ x ∧ x ≤ x1 ∧ 0 ≤ y ∧ y ≤ y1)

/-- The part of the widget under the mouse, and how the first button there changes the offset. -/
def partAt (val : Int) : Option (MouseStatus × Option Int) := do
  let h := s.horizontal
  if val < scrollbarWidth then return (if h then .lft else .up, some (-scrollbarWidth))
  let barStart ← int (scrollbarWidth + s.barPos)
  if val < barStart then return (if h then .plft else .pup, some (-s.length))
  let wellEnd ← int (s.length - scrollbarWidth)
  if val > wellEnd then return (if h then .rgt else .dwn, some scrollbarWidth)
  let barEnd ← int (barStart + s.barLen)
  if val > barEnd then return (if h then .prgt else .pdwn, some s.length)
  return (if h then .hrz else .vrt, none)

/-- The mouse is on the bar. -/
def onBar (val : Int) : Option Bool := do
  let barStart ← int (scrollbarWidth + s.barPos)
  if val < barStart then some false
  else do
    let barEnd ← int (barStart + s.barLen)
    return val < barEnd

/-- A drag starts. -/
def startDrag (x y : Int) (contentDrag : Bool) : Scrollbar :=
  { s with
    dragStartCoord := s.along x y
    dragStartPos := if contentDrag then s.offset else s.barPos
    dragging := true
    dragContent := contentDrag }

/-- A drag is over. -/
def stopDrag : Scrollbar := { s with dragging := false, dragContent := false }

/-- What a drag sets the scrollbar to, when the mouse has moved. -/
def dragTo (x y : Int) : Option (Scrollbar × List Msg) := do
  let moved ← int (s.along x y - s.dragStartCoord)
  let val ← (if s.dragContent then int (-moved) else some moved)
  if val ≠ 0 then do
    let target ← int (s.dragStartPos + val)
    s.set target (!s.dragContent)
  else return (s, [])

end Scrollbar

/-- These are the scrollbars by their address, and the messages that their clients have had. -/
structure Scrollbars where
  memory : Nat → Option Scrollbar
  sent : List (Nat × Scrollbar.Msg)

/-- These are the states of the mouse that a scrollbar asks for. -/
def browserMousePress1 : Nat := 1 <<< 0
def browserMousePress2 : Nat := 1 <<< 1
def browserMouseDrag1 : Nat := 1 <<< 6
def browserMouseDrag2 : Nat := 1 <<< 7
def browserMouseDragOn : Nat := 1 <<< 8
def browserMouseHolding1 : Nat := 1 <<< 9
def browserMouseHolding2 : Nat := 1 <<< 10

/-- One of these bits of a mouse state is set. -/
def mouseIs (mouse bits : Nat) : Bool := mouse &&& bits != 0

namespace Scrollbars

open Scrollbar (Msg MouseStatus)

/-- No scrollbar has been created. -/
def initial : Scrollbars := { memory := fun _ => none, sent := [] }

variable (bars : Scrollbars)

/-- A scrollbar is written, and its client called. -/
def put (a : Nat) (outcome : Scrollbar × List Msg) : Scrollbars where
  memory := Function.update bars.memory a (some outcome.1)
  sent := bars.sent ++ outcome.2.map (Prod.mk a)

/-- The client of a scrollbar is called. -/
def tell (a : Nat) (msg : Msg) : Scrollbars := { bars with sent := bars.sent ++ [(a, msg)] }

/-- This is `scrollbar_create`, with memory at a free address. -/
def create (a : Nat) (horizontal : Bool) (length fullSize visibleSize : Int) : Option Scrollbars :=
  if (bars.memory a).isSome then none
  else do
    let s ← Scrollbar.create horizontal length fullSize visibleSize
    return bars.put a (s, [])

/-- The other scrollbar of a pair forgets it. -/
def unpair (p : Nat) : Option Scrollbars := do
  let q ← bars.memory p
  return bars.put p ({ q with pair := none }, [])

/-- This is `scrollbar_destroy`. -/
def destroy (a : Nat) : Option Scrollbars := do
  let s ← bars.memory a
  let left ← s.pair.elim (some bars) bars.unpair
  return { left with memory := Function.update left.memory a none }

/-- This is `scrollbar_set`. -/
def set (a : Nat) (value : Int) (barPos : Bool) : Option Scrollbars := do
  let s ← bars.memory a
  let outcome ← s.set value barPos
  return bars.put a outcome

/-- This is `scrollbar_scroll`. -/
def scroll (a : Nat) (change : Int) : Option (Scrollbars × Bool) := do
  let s ← bars.memory a
  let outcome ← s.scroll change
  return (bars.put a outcome.1, outcome.2)

/-- This is `scrollbar_set_extents`. -/
def setExtents (a : Nat) (length visibleSize fullSize : Int) : Option Scrollbars := do
  let s ← bars.memory a
  let outcome ← s.setExtents length visibleSize fullSize
  return bars.put a outcome

/-- The message of a drag that starts. It names the directions in which the mouse is followed. -/
def startMsg (wide tall : Bool) : Msg :=
  .scrollStart (if wide then -2048 else 0) (if tall then -2048 else 0)
    (if wide then 2048 else 0) (if tall then 2048 else 0)

/-- This is `scrollbar_drag_start_internal`. -/
def dragStartInternal (a : Nat) (x y : Int) (contentDrag pair : Bool) : Option Scrollbars := do
  let s ← bars.memory a
  let started := s.startDrag x y contentDrag
  match if pair then s.pair else none with
  | none =>
      return (bars.put a (started, [])).tell a (startMsg s.horizontal (!s.horizontal))
  | some p =>
      let alone := bars.put a ({ started with pairDrag := true }, [])
      let q ← alone.memory p
      return (alone.put p (q.startDrag x y contentDrag, [])).tell a
        (startMsg (s.horizontal || q.horizontal) (!s.horizontal || !q.horizontal))

/-- The mouse drags a scrollbar. -/
def dragTo (a : Nat) (x y : Int) : Option Scrollbars := do
  let s ← bars.memory a
  let outcome ← s.dragTo x y
  return bars.put a outcome

/-- A button pressed on a part of the widget changes the offset. -/
def push (a : Nat) (s : Scrollbar) (mouse : Nat) (change : Int) : Option Scrollbars := do
  let held := mouseIs mouse browserMouseDragOn && !s.dragging
  let but1 := mouseIs mouse browserMousePress1 || (mouseIs mouse browserMouseHolding1 && held)
  let but2 := mouseIs mouse browserMousePress2 || (mouseIs mouse browserMouseHolding2 && held)
  if but1 then do
    let target ← int (s.offset + change)
    bars.set a target false
  else if but2 then do
    let target ← int (s.offset - change)
    bars.set a target false
  else some bars

/-- A drag starts where the mouse drags the bar. -/
def dragBar (a : Nat) (mouse : Nat) (val x y : Int) : Option Scrollbars := do
  let s ← bars.memory a
  if mouseIs mouse (browserMouseDrag1 ||| browserMouseDrag2) then do
    let on ← s.onBar val
    if on then bars.dragStartInternal a x y false (mouseIs mouse browserMouseDrag2)
    else some bars
  else some bars

/-- This is `scrollbar_mouse_action`. The calls for the other scrollbar of a pair nest no deeper
than the depth. -/
def mouseAction : Nat → Scrollbars → Nat → Nat → Int → Int → Option (Scrollbars × MouseStatus)
  | 0, _, _, _, _, _ => none
  | depth + 1, bars, a, mouse, x, y => do
      let s ← bars.memory a
      if !s.dragging && !s.covers x y then some (bars, .none)
      else if s.dragging then do
        let dragged ← bars.dragTo a x y
        if s.pairDrag then do
          let p ← s.pair
          let both ← mouseAction depth dragged p mouse x y
          return (both.1, .both)
        else return (dragged, if s.horizontal then .hrz else .vrt)
      else do
        let part ← s.partAt (s.along x y)
        let pushed ← part.2.elim (some bars) (bars.push a s mouse)
        let started ← pushed.dragBar a mouse (s.along x y) x y
        return (started, part.1)

/-- The drag of a scrollbar ends. -/
def endDrag (a : Nat) (x y : Int) : Option Scrollbars := do
  let dragged ← bars.dragTo a x y
  let s ← dragged.memory a
  return dragged.put a (s.stopDrag, [])

/-- This is `scrollbar_mouse_drag_end`. -/
def mouseDragEnd (a : Nat) (x y : Int) : Option Scrollbars := do
  let s ← bars.memory a
  if !s.dragging then none
  else do
    let ended ← bars.endDrag a x y
    if s.pairDrag then do
      let t ← ended.memory a
      let p ← s.pair
      let both ← (ended.put a ({ t with pairDrag := false }, [])).endDrag p x y
      return both.tell a .scrollFinished
    else return ended.tell a .scrollFinished

/-- This is `scrollbar_start_content_drag`. -/
def startContentDrag (a : Nat) (x y : Int) : Option Scrollbars :=
  bars.dragStartInternal a x y true true

/-- This is `scrollbar_make_pair`. -/
def makePair (horizontal vertical : Nat) : Option Scrollbars := do
  let h ← bars.memory horizontal
  let v ← bars.memory vertical
  if h.horizontal && !v.horizontal then
    return (bars.put horizontal ({ h with pair := some vertical }, [])).put vertical
      ({ v with pair := some horizontal }, [])
  else none

/-- These are the calls of a client. -/
inductive Call where
  | create (a : Nat) (horizontal : Bool) (length fullSize visibleSize : Int)
  | destroy (a : Nat)
  | set (a : Nat) (value : Int) (barPos : Bool)
  | scroll (a : Nat) (change : Int)
  | setExtents (a : Nat) (length visibleSize fullSize : Int)
  | mouseAction (a : Nat) (mouse : Nat) (x y : Int)
  | mouseDragEnd (a : Nat) (x y : Int)
  | startContentDrag (a : Nat) (x y : Int)
  | makePair (horizontal vertical : Nat)
  deriving DecidableEq, Repr

/-- One call. There is no state after it where C defines no behaviour. -/
def call (depth : Nat) (bars : Scrollbars) : Call → Option Scrollbars
  | .create a horizontal length fullSize visibleSize =>
      bars.create a horizontal length fullSize visibleSize
  | .destroy a => bars.destroy a
  | .set a value barPos => bars.set a value barPos
  | .scroll a change => (bars.scroll a change).map Prod.fst
  | .setExtents a length visibleSize fullSize => bars.setExtents a length visibleSize fullSize
  | .mouseAction a mouse x y => (mouseAction depth bars a mouse x y).map Prod.fst
  | .mouseDragEnd a x y => bars.mouseDragEnd a x y
  | .startContentDrag a x y => bars.startContentDrag a x y
  | .makePair horizontal vertical => bars.makePair horizontal vertical

end Scrollbars
end Neosurf
