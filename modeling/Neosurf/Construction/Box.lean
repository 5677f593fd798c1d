/-
This file models the boxes of `html/box.h`, as far as their text goes.
-/

import Neosurf.Construction.Bytes
import Neosurf.ToMathlib.MarkedForest

namespace Neosurf.Html

/-- This is `box_type`. -/
inductive BoxType where
  | block | inlineContainer | inline | table | tableRow | tableCell | tableRowGroup | floatLeft
  | floatRight | inlineBlock | br | text | inlineEnd | none | flex | inlineFlex
  deriving DecidableEq, Repr

/-- These are the values of the `white-space` property. -/
inductive WhiteSpace where
  | inherit | normal | pre | nowrap | preWrap | preLine
  deriving DecidableEq, Repr

/-- This is `struct box` without its links. The text is a pointer, and there may be more memory
behind the text than its length tells. A missing style has no `white-space`. -/
structure Box where
  type : BoxType
  text : Option (Nat → Byte)
  length : Nat
  space : Int
  style : Option WhiteSpace
  byteOffset : Nat

/-- A box may have a list marker, children and a next sibling. -/
abbrev Boxes := MarkedForest Box

/-- Memory is read from a pointer on. -/
def readMemory (pointer : Nat → Byte) (length : Nat) : Bytes := (List.range length).map pointer

/-- A floating box without a text of its own. -/
def isTextlessFloat (box : Box) : Bool :=
  (box.type == .floatLeft || box.type == .floatRight) && box.text.isNone

end Neosurf.Html
