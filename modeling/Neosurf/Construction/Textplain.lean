/-
This file models how `content/handlers/text/textplain.c` takes the characters of a text and breaks
it into lines, and the UTF-8 decoder of libparserutils that it uses.
-/

import Neosurf.Construction.Bytes
import Neosurf.ToMathlib.Loops

namespace Neosurf.Textplain

/-- The bits of a first byte, the length of its sequence and the least value that needs it. -/
def leadByte (c : Byte) : Option (UInt32 × Nat × UInt32) :=
  if c < 0x80 then some (c.toUInt32, 1, 0)
  else if c &&& 0xE0 = 0xC0 then some ((c &&& 0x1F).toUInt32, 2, 0x80)
  else if c &&& 0xF0 = 0xE0 then some ((c &&& 0x0F).toUInt32, 3, 0x800)
  else if c &&& 0xF8 = 0xF0 then some ((c &&& 0x07).toUInt32, 4, 0x10000)
  else if c &&& 0xFC = 0xF8 then some ((c &&& 0x03).toUInt32, 5, 0x200000)
  else if c &&& 0xFE = 0xFC then some ((c &&& 0x01).toUInt32, 6, 0x4000000)
  else none

/-- The bits of the bytes behind the first one are appended. -/
def continuations : UInt32 → Bytes → Option UInt32
  | c, [] => some c
  | c, t :: rest =>
      if t &&& 0xC0 ≠ 0x80 then none
      else continuations ((c <<< 6) ||| (t &&& 0x3F).toUInt32) rest

/-- This is `parserutils_charset_utf8_to_ucs4`, with `none` for its errors: they leave both results
unset. -/
def utf8ToUcs4 (s : Bytes) : Option (UInt32 × Nat) :=
  match s with
  | [] => none
  | first :: rest =>
      match leadByte first with
      | none => none
      | some (c, n, least) =>
          if s.length < n then none
          else
            match continuations c (rest.take (n - 1)) with
            | none => none
            | some c =>
                if c < least ∨ (0xD800 ≤ c ∧ c ≤ 0xDFFF) ∨ c = 0xFFFE ∨ c = 0xFFFF then none
                else some (c, n)

structure TextplainLine where
  start : Nat
  length : Nat
  deriving DecidableEq, Repr

/-- This is `textplain_content` as far as the text and its lines go. -/
structure TextplainContent where
  utf8Data : Bytes
  physicalLine : List TextplainLine
  formattedWidth : Int
  deriving DecidableEq, Repr

/-- This is `CHUNK`. -/
def CHUNK : Nat := 32768

/-- The bytes that stand for a NUL. -/
def uFffd : Bytes := [0xef, 0xbf, 0xfd]

/-- This is the loop of `textplain_drain_input` over the characters that the input stream has, with
those before the offset, which are not copied yet. -/
def drain (offset : Bytes) (data : Bytes) : List Bytes → Bytes
  | [] => data ++ offset
  | ch :: stream =>
      if ch = [0] then drain [] (data ++ offset ++ uFffd) stream
      else if CHUNK < (offset ++ ch).length then drain [] (data ++ (offset ++ ch)) stream
      else drain (offset ++ ch) data stream

/-- This is `textplain_drain_input`, while there is memory. -/
def textplainDrainInput (c : TextplainContent) (stream : List Bytes) : TextplainContent :=
  { c with utf8Data := drain [] c.utf8Data stream }

def MARGIN : Int := 4

def TAB_WIDTH : Nat := 8

def CR : Byte := 13

/-- The columns for a width, where eight characters are as wide as this. A negative number becomes
a large `size_t`. -/
def columnsFor (width characterWidth : Int) : Nat :=
  (((width - MARGIN - MARGIN) * 8).tdiv characterWidth % 2 ^ 64).toNat

/-- These are the variables of the loop. The last line is still open, and starts at `lineStart`. -/
structure Layout where
  i : Nat
  lineStart : Nat
  space : Nat
  col : Nat
  lines : List TextplainLine
  deriving DecidableEq, Repr

/-- The variables before the loop. -/
def Layout.start : Layout := ⟨0, 0, 0, 0, []⟩

/-- The open line is closed with this length, and the next one starts there. -/
def Layout.breakLine (s : Layout) (length i lineStart : Nat) : Layout :=
  { i := i, lineStart := lineStart, space := 0, col := 0
    lines := s.lines ++ [⟨s.lineStart, length⟩] }

def isTerminator (chr : UInt32) : Bool := chr == 10 || chr == 13

/-- A tab reaches to the next column that the width of a tab divides. -/
def nextColumn (chr : UInt32) (col : Nat) : Nat :=
  if chr = 9 then (col + 1 + TAB_WIDTH - 1) / TAB_WIDTH * TAB_WIDTH else col + 1

/-- The byte behind a terminator is the other one of its pair. -/
def isPair (text : Bytes) (i : Nat) : Bool :=
  i + 1 < text.length && byteAt text (i + 1) != byteAt text i &&
    (byteAt text (i + 1) == LF || byteAt text (i + 1) == CR)

/-- This is the body of the loop with its end. A character that is not decoded leaves its length
unset, and with it all that follows. -/
def turn (text : Bytes) (columns : Nat) (s : Layout) : Layout ⊕ Option (List TextplainLine) :=
  if s.i < text.length then
    match utf8ToUcs4 (text.drop s.i) with
    | none => .inr none
    | some (chr, csize) =>
        if isTerminator chr then
          let i := if isPair text s.i then s.i + 1 else s.i
          .inl (s.breakLine (s.i - s.lineStart) (i + csize) (i + 1))
        else if columns ≤ nextColumn chr s.col then
          if s.space ≠ 0 then
            .inl (s.breakLine (s.space + 1 - s.lineStart) (s.space + csize) (s.space + 1))
          else .inl (s.breakLine (s.i - s.lineStart) (s.i + csize) (s.i + 1))
        else
          .inl { s with
            i := s.i + csize
            col := s.col + 1
            space := if chr = 32 then s.i else s.space }
  else .inr (some (s.lines ++ [⟨s.lineStart, s.i - s.lineStart⟩]))

/-- This is `textplain_reformat` within a number of turns of its loop, for the width that the
frontend measures for eight characters. -/
def textplainReformat (turns : Nat) (characterWidth : Int) (c : TextplainContent) (width : Int) :
    Option (Option TextplainContent) :=
  let result := Loop.run (turn c.utf8Data (columnsFor width characterWidth)) turns Layout.start
  result.map fun lines? => lines?.map fun lines =>
    { c with physicalLine := lines, formattedWidth := width }

end Neosurf.Textplain
