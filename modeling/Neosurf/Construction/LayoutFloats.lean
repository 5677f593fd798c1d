/-
This file models how `html/layout.c` keeps the floats of a block formatting context and finds the
space beside them. An `int` is taken as an integer.
-/

import Mathlib.Data.Int.Basic
import Neosurf.ToMathlib.Loops

namespace Neosurf.LayoutFloats

/-- These are `BOX_FLOAT_LEFT` and `BOX_FLOAT_RIGHT`. -/
inductive FloatType where
  | left | right
  deriving DecidableEq, Repr

/-- These are the fields of a floating `struct box` that are read here. -/
structure FloatBox where
  type : FloatType
  x : Int
  y : Int
  width : Int
  height : Int
  deriving DecidableEq, Repr

/-- This is where the box ends below. -/
def FloatBox.bottom (b : FloatBox) : Int := b.y + b.height

/-- These are the fields of the box that contains the floats. -/
structure Container where
  floatChildren : List FloatBox
  clearLevel : Int
  cachedPlaceBelowLevel : Int
  deriving Repr

/-- These are the edges that `find_sides` updates and the floats that it returns. -/
structure Sides where
  x0 : Int
  x1 : Int
  left : Option FloatBox
  right : Option FloatBox
  deriving DecidableEq, Repr

namespace Sides

/-- No float is beside this range yet. -/
def start (x0 x1 : Int) : Sides := ⟨x0, x1, none, none⟩

/-- A float in the vertical range takes width away from the side that it is on. -/
def narrow (y0 y1 : Int) (s : Sides) (fl : FloatBox) : Sides :=
  if y0 < fl.bottom ∧ fl.y ≤ y1 then
    match fl.type with
    | .left =>
        if s.x0 < fl.x + fl.width then { s with x0 := fl.x + fl.width, left := some fl } else s
    | .right => if fl.x < s.x1 then { s with x1 := fl.x, right := some fl } else s
  else s

end Sides

/-- This is the loop of `find_sides`. It stops at a float that is too high, as those behind it are
in its order. -/
def findSidesFrom (y0 y1 : Int) : List FloatBox → Sides → Sides
  | [], s => s
  | fl :: rest, s => if fl.bottom < y0 then s else findSidesFrom y0 y1 rest (s.narrow y0 y1 fl)

/-- This is `find_sides`. -/
def findSides (floats : List FloatBox) (y0 y1 x0 x1 : Int) : Sides :=
  findSidesFrom y0 y1 floats (.start x0 x1)

/-- This inserts a float before the first one that does not end below it. -/
def insertFloat (b : FloatBox) : List FloatBox → List FloatBox
  | [] => [b]
  | box :: rest => if b.bottom < box.bottom then box :: insertFloat b rest else b :: box :: rest

/-- This is `add_float_to_container`. -/
def addFloatToContainer (cont : Container) (b : FloatBox) : Container :=
  { cont with floatChildren := insertFloat b cont.floatChildren }

/-- The next place to try is at the lower edge of a float that is in the way. -/
def Sides.below (s : Sides) (y : Int) : Int :=
  match s.left, s.right with
  | some left, some right => if left.bottom < right.bottom then left.bottom else right.bottom
  | none, some right => right.bottom
  | some left, none => left.bottom
  | none, none => y

/-- This is a turn of the loop of `place_float_below`, which goes on when the float does not fit
beside the floats that are there. -/
def placeTurn (floats : List FloatBox) (c : FloatBox) (width cx y : Int) : Int ⊕ (Int × Sides) :=
  let s := findSides floats y (y + c.height) cx (cx + width)
  if (s.left.isSome ∨ s.right.isSome) ∧ s.x1 - s.x0 < c.width then .inl (s.below y)
  else .inr (y, s)

/-- This is where the search of `place_float_below` starts. -/
def Container.placeStart (cont : Container) (y : Int) : Int :=
  if cont.cachedPlaceBelowLevel < y then y else cont.cachedPlaceBelowLevel

/-- A float gets its place between the sides. -/
def FloatBox.put (c : FloatBox) (y : Int) (s : Sides) : FloatBox :=
  { c with x := if c.type = .left then s.x0 else s.x1 - c.width, y }

/-- This is `place_float_below`, whose loop is given so many turns. The float and the container
are returned with their new fields. -/
def placeFloatBelow (turns : Nat) (c : FloatBox) (width cx y : Int) (cont : Container) :
    Option (FloatBox × Container) :=
  (Loop.run (placeTurn cont.floatChildren c width cx) turns (cont.placeStart y)).map fun found =>
    (c.put found.1 found.2, { cont with cachedPlaceBelowLevel := found.1 })

end Neosurf.LayoutFloats
