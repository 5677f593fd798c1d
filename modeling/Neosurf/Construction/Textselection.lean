/-
This file models how `html/textselection.c` labels the boxes of a tree with their offsets in its
text, and copies the text in a range of offsets.
-/

import Neosurf.Construction.SaveText

namespace Neosurf.Textselection

open Html MarkedForest SaveText

/-- This is `SPACE_LEN`. -/
def spaceLen (b : Box) : Nat := if b.space = 0 then 0 else 1

/-- This is `selection_label_subtree` for a box alone, or its loop over siblings, which labels their
list markers too. The marker of a box alone keeps its old offset. -/
def selectionLabelSubtree (siblings : Bool) : Boxes → Nat → Boxes × Nat
  | nil, idx => (nil, idx)
  | cons box listMarker children next, idx =>
      let (listMarker, idx) :=
        if siblings then selectionLabelSubtree false listMarker idx else (listMarker, idx)
      let own := if box.text.isSome then idx + (box.length + spaceLen box) else idx
      let (children, last) := selectionLabelSubtree true children own
      let (next, last) := if siblings then selectionLabelSubtree true next last else (next, last)
      (cons { box with byteOffset := idx } listMarker children next, last)

/-- This is `selected_part`, with the offsets that it stores when it returns true. -/
def selectedPart (box : Box) (startIdx endIdx : Nat) : Option (Nat × Nat) :=
  let boxLength := box.length + spaceLen box
  if 0 < boxLength then
    if startIdx ≤ box.byteOffset ∧ box.byteOffset + boxLength ≤ endIdx then some (0, boxLength)
    else if startIdx < box.byteOffset + boxLength ∧ box.byteOffset < endIdx then
      let offset := if box.byteOffset < startIdx then startIdx - box.byteOffset else 0
      let len :=
        if endIdx < box.byteOffset + boxLength then endIdx - (box.byteOffset + offset)
        else boxLength - offset
      some (offset, offset + len)
    else none
  else none

/-- What is appended at once, and whether it is white space between boxes. -/
structure Piece where
  formatting : Bool
  bytes : Bytes
  deriving DecidableEq, Repr

/-- This is `selection_string` without its styles. Its buffer is the pieces one after the other. -/
structure SelectionString where
  pieces : List Piece
  deriving DecidableEq, Repr

def SelectionString.buffer (sel : SelectionString) : Bytes := sel.pieces.flatMap Piece.bytes

/-- The buffer without the white space between boxes. -/
def SelectionString.copied (sel : SelectionString) : Bytes :=
  (sel.pieces.filter fun p => !p.formatting).flatMap Piece.bytes

/-- This is `selection_string_append`. -/
def SelectionString.append (sel : SelectionString) (formatting : Bool) (text : Bytes)
    (space : Bool) : SelectionString :=
  ⟨sel.pieces ++ [⟨formatting, text ++ if space then str " " else []⟩]⟩

/-- A box without a text has no length to read. -/
def boxBytes (box : Box) (start count : Nat) : Bytes :=
  match box.text with
  | some text => readMemory (fun i => text (start + i)) count
  | none => []

/-- This is `selection_copy_box`. -/
def selectionCopyBox (box : Box) (startOff endOff : Nat) (whitespace : Bytes)
    (sel : SelectionString) : SelectionString :=
  let sel := if whitespace = [] then sel else sel.append true whitespace false
  sel.append false (boxBytes box startOff (min box.length endOff - startOff)) (box.space != 0)

/-- The part of `selection_copy` that is about the box itself. -/
def copyOwn (startIdx endIdx : Nat) (v : Visit Box) (state : Before × SelectionString) :
    Before × SelectionString :=
  let (before, whitespace, _) := solveWhitespace v state.1
  if v.data.type ≠ .br ∧ isTextlessFloat v.data = false then
    match selectedPart v.data startIdx endIdx with
    | some (startOff, endOff) =>
        (⟨false, .none⟩, selectionCopyBox v.data startOff endOff whitespace state.2)
    | none => (before, state.2)
  else (before, state.2)

/-- The first sibling starts before the range. -/
def startsBefore (startIdx : Nat) : Boxes → Bool
  | nil => false
  | cons box _ _ _ => box.byteOffset < startIdx

/-- This is `selection_copy` for a box alone, or for siblings from the first that could lie in the
range. -/
def selectionCopy (startIdx endIdx : Nat) (skipping siblings : Bool) (parent : Option Box)
    (isMarker : Bool) : Boxes → Before × SelectionString → Before × SelectionString
  | nil, state => state
  | cons box listMarker children next, state =>
      if skipping && startsBefore startIdx next then
        selectionCopy startIdx endIdx true siblings parent isMarker next state
      else
        let state := selectionCopy startIdx endIdx false false (some box) true listMarker state
        let state :=
          -- The subtree is after the selection.
          if endIdx ≤ box.byteOffset then state
          else
            selectionCopy startIdx endIdx true true (some box) false children
              (copyOwn startIdx endIdx ⟨box, parent, isMarker, listMarker.isSome⟩ state)
        if siblings then selectionCopy startIdx endIdx false true parent isMarker next state
        else state

/-- This is `html_textselection_copy` into an empty string. -/
def htmlTextselectionCopy (layout : Boxes) (startIdx endIdx : Nat) :
    Except Nserror SelectionString :=
  if layout.isSome then
    .ok (selectionCopy startIdx endIdx false false none false layout (⟨true, .none⟩, ⟨[]⟩)).2
  else .error .invalid

/-- This is `html_textselection_get_end`, with the tree that it labels. -/
def htmlTextselectionGetEnd (layout : Boxes) : Except Nserror (Boxes × Nat) :=
  if layout.isSome then .ok (selectionLabelSubtree false layout 0) else .error .invalid

end Neosurf.Textselection
