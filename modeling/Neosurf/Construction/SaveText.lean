/-
This file models how `desktop/save_text.c` collects the text of a box tree.
-/

import Neosurf.Construction.Box

namespace Neosurf.SaveText

open Html MarkedForest

/-- This is `save_text_whitespace`, in the order of its significance. -/
inductive SaveTextWhitespace where
  | none | tab | oneNewLine | twoNewLines
  deriving DecidableEq, Repr

def SaveTextWhitespace.toNat : SaveTextWhitespace → Nat
  | none => 0
  | tab => 1
  | oneNewLine => 2
  | twoNewLines => 3

/-- What is carried from box to box: whether a text was saved, and the whitespace before the next
one. -/
structure Before where
  first : Bool
  before : SaveTextWhitespace
  deriving DecidableEq, Repr

/-- The box is the list marker of its parent. -/
def isListMarker (v : Visit Box) : Bool := v.parent.isSome && v.isMark

/-- A paragraph is put before a box of these types. -/
def startsParagraph (v : Visit Box) (before : SaveTextWhitespace) : Bool :=
  before.toNat < SaveTextWhitespace.twoNewLines.toNat &&
    (v.data.type == .block || v.data.type == .table || v.data.type == .floatLeft ||
      v.data.type == .floatRight) &&
    !v.hasMark && (!isListMarker v || (isListMarker v && before == .tab))

/-- The text of the parent keeps its line breaks. -/
def isPre (style : WhiteSpace) : Bool := style == .pre || style == .preWrap

def startsLine (v : Visit Box) (before : SaveTextWhitespace) : Bool :=
  before.toNat ≤ SaveTextWhitespace.oneNewLine.toNat &&
    (v.data.type == .tableRow || v.data.type == .br ||
      (v.data.type != .inline && isListMarker v) ||
      ((v.parent.bind Box.style).any isPre && v.data.type == .inlineContainer))

def startsColumn (v : Visit Box) (before : SaveTextWhitespace) : Bool :=
  before.toNat < SaveTextWhitespace.tab.toNat && (v.data.type == .tableCell || v.hasMark)

/-- The whitespace of the box takes the place of a less significant one. -/
def moreSignificant (v : Visit Box) (before : SaveTextWhitespace) : SaveTextWhitespace :=
  if startsParagraph v before then .twoNewLines
  else if startsLine v before then if before = .oneNewLine then .twoNewLines else .oneNewLine
  else if startsColumn v before then .tab
  else before

def whitespaceText : SaveTextWhitespace → Bytes
  | .twoNewLines => str "\n\n"
  | .oneNewLine => str "\n"
  | .tab => str "\t"
  | .none => []

/-- This is `save_text_solve_whitespace`. It returns the text of the whitespace with its length, and
there is none before the first text. -/
def solveWhitespace (v : Visit Box) (s : Before) : Before × Bytes × Nat :=
  let before := moreSignificant v s.before
  let text := if s.first then [] else whitespaceText before
  ({ s with before }, text, text.length)

/-- This is `save_text_state`, with a note of each copy of a text: its length, and how many bytes
were read. -/
structure SaveTextState where
  block : Bytes
  length : Nat
  copies : List (Nat × Nat)

/-- The size of the block is that of its memory. -/
def SaveTextState.alloc (save : SaveTextState) : Nat := save.block.length

/-- The block has this much memory at least. What is behind the old memory is junk. -/
def realloc (junk : Nat → Byte) (size : Nat) (block : Bytes) : Bytes :=
  readMemory (fun i => block.getD i (junk i)) size

/-- Bytes are written to the block. There is no result for a write beyond its end. -/
def write (block : Bytes) (pos : Nat) (bytes : Bytes) : Option Bytes :=
  if pos + bytes.length ≤ block.length then
    some (block.take pos ++ bytes ++ block.drop (pos + bytes.length))
  else none

/-- The block gets a quarter more memory, or as much as is needed. -/
def enlarge (junk : Nat → Byte) (newLength : Nat) (save : SaveTextState) : SaveTextState :=
  if save.alloc ≤ newLength then
    { save with
      block := realloc junk (max newLength (save.alloc + save.alloc / 4)) save.block }
  else save

/-- This is `save_text_add_to_buffer`. -/
def addToBuffer (junk : Nat → Byte) (text : Nat → Byte) (length : Nat) (box : Box)
    (whitespace : Option Bytes) (whitespaceLength : Nat) (save : SaveTextState) :
    Option SaveTextState := do
  let space := if 0 < box.space then 1 else 0
  -- From here on the length is that of the text and the whitespace.
  let textLength := length
  let length := if whitespace.isSome then length + whitespaceLength else length
  let save := enlarge junk (save.length + whitespaceLength + length + space) save
  let block ← match whitespace with
    | some whitespace => write save.block save.length (whitespace.take whitespaceLength)
    | none => some save.block
  let block ← write block (save.length + whitespaceLength) (readMemory text length)
  let copies := (textLength, length) :: save.copies
  if space = 1 then
    let block ← write block (save.length + length) (str " ")
    some { block, length := save.length + length + 1, copies }
  else some { block, length := save.length + length, copies }

/-- The box has a text to save. -/
def textToSave (box : Box) : Option (Nat → Byte) :=
  if box.type ≠ .br ∧ isTextlessFloat box = false ∧ 0 < box.length then box.text else none

/-- One box without its marker and children. -/
def extractBox (junk : Nat → Byte) (v : Visit Box) (state : Before × SaveTextState) :
    Option (Before × SaveTextState) := do
  let (s, whitespace, whitespaceLength) := solveWhitespace v state.1
  match textToSave v.data with
  | some text =>
      let save ← addToBuffer junk text v.data.length v.data (some whitespace) whitespaceLength
        state.2
      some (⟨false, .none⟩, save)
  | none => some (s, state.2)

/-- This is `extract_text`, for a box alone or for its siblings as well. -/
def extractText (junk : Nat → Byte) (siblings : Bool) (parent : Option Box) (isMarker : Bool) :
    Boxes → Before × SaveTextState → Option (Before × SaveTextState)
  | nil, state => some state
  | cons box listMarker children next, state => do
      let state ← extractText junk false (some box) true listMarker state
      let state ← extractBox junk ⟨box, parent, isMarker, listMarker.isSome⟩ state
      let state ← extractText junk true (some box) false children state
      if siblings then extractText junk true parent isMarker next state else some state

/-- This is what `save_as_text` saves of a box tree. -/
def saveAsText (junk : Nat → Byte) (tree : Boxes) : Option SaveTextState :=
  (extractText junk false none false tree (⟨true, .none⟩, ⟨[], 0, []⟩)).map Prod.snd

end Neosurf.SaveText
