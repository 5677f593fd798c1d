/-
This file models how `desktop/textarea.c` changes the text of a textarea and its undo buffer, and
`textarea_reflow_multiline`. The textareas here are not password fields, whose shown text is another
one.
-/

import Mathlib.Data.Int.Basic
import Neosurf.Construction.Bytes

namespace Neosurf.Editing

/-- Bytes of a memory area. -/
def readBytes (memory : Nat → Byte) (start length : Nat) : Bytes :=
  (List.range length).map fun i => memory (start + i)

/-- This is `memcpy` into a memory area. -/
def writeBytes (memory : Nat → Byte) (start : Nat) (bytes : Bytes) : Nat → Byte := fun i =>
  if start ≤ i then bytes.getD (i - start) (memory i) else memory i

/-- This is `struct textarea_undo_detail`. -/
structure UndoDetail where
  bStart : Nat
  bEnd : Nat
  bLimit : Nat
  bTextStart : Nat
  bTextEnd : Nat
  deriving DecidableEq

/-- This is `struct textarea_undo`. A detail that was never written is `none`. -/
structure Undo where
  nextDetail : Nat
  lastDetail : Nat
  details : Nat → Option UndoDetail
  text : Nat → Byte

/-- The space of the next detail is behind that of the one before it. -/
def Undo.nextOffset (undo : Undo) : Option Nat :=
  if undo.nextDetail = 0 then some 0
  else (undo.details (undo.nextDetail - 1)).map fun last => last.bStart + last.bLimit

/-- The text is held without its terminator. -/
structure Textarea where
  multiline : Bool
  readonly : Bool
  text : Bytes
  undo : Undo

/-- This is the round of `textarea_normalise_text` for the byte at one place. A place after the
end holds the terminator or a copy of it. -/
def normaliseByte (multi : Bool) (text : Bytes) (index : Nat) : Bytes :=
  let text :=
    if byteAt text index = chr '\r' then
      if byteAt text (index + 1) = chr '\n' then text.eraseIdx index
      else text.set index (chr '\n')
    else text
  if !multi && byteAt text index == chr '\n' then text.set index (chr ' ') else text

/-- This is `textarea_normalise_text`. -/
def normaliseText (multi : Bool) (text : Bytes) (bStart : Nat) : Nat → Bytes
  | 0 => text
  | bLen + 1 => normaliseText multi (normaliseByte multi text bStart) (bStart + 1) bLen

/-- The text between two places is replaced, and what is new is normalised. -/
def spliceText (multi : Bool) (text : Bytes) (bStart bEnd : Nat) (rep : Bytes) : Bytes :=
  normaliseText multi (text.take bStart ++ rep ++ text.drop bEnd) bStart rep.length

/-- What a change of the text answers. `reflow` is the start of the reflow that it asks for, and
`caret` the place that an undo or a redo gives to the caret. -/
structure Changed where
  ok : Bool
  byteDelta : Int
  textarea : Textarea
  reflow : Option Nat
  caret : Option Nat := none

namespace Textarea

variable (ta : Textarea)

/-- This is what `textarea_create` leaves. -/
def create (multiline readonly : Bool) : Textarea :=
  ⟨multiline, readonly, [], ⟨0, 0, fun _ => none, fun _ => 0⟩⟩

/-- Nothing is changed. -/
def unchanged (ok : Bool) : Changed :=
  { ok := ok, byteDelta := 0, textarea := ta, reflow := none }

/-- The text is replaced and reflowed. -/
def splice (bStart bEnd : Nat) (rep : Bytes) : Changed :=
  let text := spliceText ta.multiline ta.text bStart bEnd rep
  { ok := true
    byteDelta := text.length - ta.text.length
    textarea := { ta with text := text }
    reflow := some bStart }

/-- This is `textarea_insert_text`. -/
def insertText (text : Bytes) (bOff : Nat) : Changed :=
  if ta.readonly then ta.unchanged true
  else
    let bOff := min bOff ta.text.length
    ta.splice bOff bOff text

/-- This is `textarea_replace_text_internal`. No replacement is `NULL`. -/
def replaceTextInternal (bStart bEnd : Nat) (rep : Option Bytes) (addToClipboard : Bool) :
    Changed :=
  if ta.readonly && !(rep.isNone && addToClipboard) then ta.unchanged true
  else
    let bStart := min bStart ta.text.length
    let bEnd := min bEnd ta.text.length
    match rep with
    | none => ta.unchanged (bStart ≤ bEnd)
    | some rep =>
        if bStart = bEnd then ta.insertText rep bStart
        else if bStart > bEnd then ta.unchanged false
        else ta.splice bStart bEnd rep

/-- The bytes between two places. It is `none` where they are not places of the text. -/
def textBetween (bStart bEnd : Nat) : Option Bytes :=
  if bStart ≤ bEnd ∧ bEnd ≤ ta.text.length then some ((ta.text.take bEnd).drop bStart) else none

/-- This is `textarea_copy_to_undo_buffer`. -/
def copyToUndoBuffer (bStart bEnd repLen : Nat) : Option Textarea := do
  let bOffset ← ta.undo.nextOffset
  let removed ← ta.textBetween bStart bEnd
  let detail : UndoDetail :=
    { bStart := bOffset
      bEnd := bOffset + bEnd - bStart
      bLimit := max (bEnd - bStart) repLen
      bTextStart := bStart
      bTextEnd := ((ta.undo.details ta.undo.nextDetail).map (·.bTextEnd)).getD 0 }
  some { ta with undo := { ta.undo with
    details := Function.update ta.undo.details ta.undo.nextDetail (some detail)
    text := writeBytes ta.undo.text bOffset removed } }

/-- The detail of the change is completed, and it is the last one. -/
def recordChange (bTextEnd : Nat) : Textarea :=
  { ta with undo := { ta.undo with
    details := Function.update ta.undo.details ta.undo.nextDetail
      ((ta.undo.details ta.undo.nextDetail).map fun detail =>
        { detail with bTextEnd := bTextEnd })
    lastDetail := ta.undo.nextDetail
    nextDetail := ta.undo.nextDetail + 1 } }

/-- This is `textarea_replace_text`. -/
def replaceText (bStart bEnd : Nat) (rep : Option Bytes) (addToClipboard : Bool) :
    Option Changed :=
  -- Not just copying to clipboard.
  if !(bStart != bEnd && rep.isNone && addToClipboard) then do
    let copied ← ta.copyToUndoBuffer bStart bEnd ((rep.map (·.length)).getD 0)
    let changed := copied.replaceTextInternal bStart bEnd rep addToClipboard
    if changed.ok then
      some { changed with
        textarea := changed.textarea.recordChange (bEnd + changed.byteDelta).toNat }
    else some changed
  else some (ta.replaceTextInternal bStart bEnd rep addToClipboard)

/-- The text that a detail's change will remove. -/
def removedText (detail : UndoDetail) : Option Bytes :=
  if detail.bTextEnd > detail.bTextStart then ta.textBetween detail.bTextStart detail.bTextEnd
  else some []

/-- The change of one detail is taken back or made again. -/
def swapDetail (n nextDetail : Nat) : Option Changed := do
  let detail ← ta.undo.details n
  let bLen := detail.bEnd - detail.bStart
  let bTextLen := detail.bTextEnd - detail.bTextStart
  let temp ← ta.removedText detail
  let changed := ta.replaceTextInternal detail.bTextStart detail.bTextEnd
    (some (readBytes ta.undo.text detail.bStart bLen)) false
  let undo : Undo :=
    { ta.undo with
      details := Function.update ta.undo.details n (some { detail with
        bTextEnd := detail.bTextStart + bLen
        bEnd := detail.bStart + bTextLen })
      text := writeBytes ta.undo.text detail.bStart temp
      nextDetail := nextDetail }
  some { changed with
    ok := true
    textarea := { changed.textarea with undo := undo }
    caret := some (detail.bTextStart + bLen) }

/-- This is `textarea_undo`. -/
def undoText (forward : Bool) : Option Changed :=
  if ta.readonly then some (ta.unchanged false)
  else if forward then
    if ta.undo.nextDetail > ta.undo.lastDetail then some (ta.unchanged false)
    else ta.swapDetail ta.undo.nextDetail (ta.undo.nextDetail + 1)
  else
    if ta.undo.nextDetail = 0 then some (ta.unchanged false)
    else ta.swapDetail (ta.undo.nextDetail - 1) (ta.undo.nextDetail - 1)

/-- This is `textarea_set_text`. -/
def setText (text : Bytes) : Changed :=
  let text := cstr text
  { ok := true
    byteDelta := 0
    textarea := { ta with
      text := normaliseText ta.multiline text 0 (text.length + 1)
      undo := { ta.undo with nextDetail := 0, lastDetail := 0 } }
    reflow := some 0 }

end Textarea

/-- A call that edits a textarea. -/
inductive EditCall where
  | replace (bStart bEnd : Nat) (rep : Option Bytes) (addToClipboard : Bool)
  | undo
  | redo
  | setText (text : Bytes)
  deriving DecidableEq

namespace Textarea

def call (ta : Textarea) : EditCall → Option Changed
  | .replace bStart bEnd rep addToClipboard => ta.replaceText bStart bEnd rep addToClipboard
  | .undo => ta.undoText false
  | .redo => ta.undoText true
  | .setText text => some (ta.setText text)

/-- What each of the calls returns, and the text after it. -/
def answers (ta : Textarea) : List EditCall → Option (List (Bool × Bytes))
  | [] => some []
  | call :: calls => do
      let changed ← ta.call call
      let later ← changed.textarea.answers calls
      some ((changed.ok, changed.textarea.text) :: later)

end Textarea

end Neosurf.Editing

namespace Neosurf.Editing

/-- This is `SCROLLBAR_WIDTH`. -/
def SCROLLBAR_WIDTH : Int := 16

/-- This is `struct line_info`. -/
structure LineInfo where
  bStart : Nat
  bLength : Nat
  width : Int
  deriving DecidableEq

/-- The layout of a multiline textarea. Its lines are the first `line_count` ones of the array,
and a bar is present or absent. While a reflow goes on, `lines` and `hExtent` stand for its
variables `line` and `h_extent`. -/
structure TextLayout where
  visWidth : Int
  visHeight : Int
  borderWidth : Int
  padTop : Int
  padRight : Int
  padBottom : Int
  padLeft : Int
  lineHeight : Int
  barX : Bool
  barY : Bool
  hExtent : Int
  vExtent : Int
  lines : List LineInfo
  deriving DecidableEq

/-- The font layer's `split` gives the place in a text where a line of some width ends, and the
width of the text before it. -/
abbrev Split := Bytes → Int → Nat × Int

namespace TextLayout

variable (s : TextLayout)

/-- This is `avail_width`. -/
def availWidth : Int := max 0 (s.visWidth - 2 * s.borderWidth - s.padLeft - s.padRight)

/-- This is `scroll_lines`, which the code computes again whenever `pad_bottom` changes. -/
def scrollLines : Nat :=
  ((s.visHeight - 2 * s.borderWidth - s.padTop - s.padBottom).tdiv s.lineHeight % 2 ^ 32).toNat

def addBarX : TextLayout := { s with barX := true, padBottom := s.padBottom + SCROLLBAR_WIDTH }

def removeBarX : TextLayout := { s with barX := false, padBottom := s.padBottom - SCROLLBAR_WIDTH }

def addBarY : TextLayout := { s with barY := true, padRight := s.padRight + SCROLLBAR_WIDTH }

def removeBarY : TextLayout := { s with barY := false, padRight := s.padRight - SCROLLBAR_WIDTH }

end TextLayout

/-- The search for the last space at or before a place behind the start of the text. -/
def lastSpace (text : Bytes) : Nat → Nat
  | 0 => 0
  | i + 1 => if byteAt text (i + 1) = chr ' ' then i + 1 else lastSpace text i

/-- What one round of the layout adds. The next round starts `bOff` bytes further. -/
structure LaidLine where
  lines : List LineInfo
  bOff : Nat
  width : Int

/-- A round lays out one line of the rest of the text, which starts at `start`. -/
def layLine (split : Split) (avail : Int) (rest : Bytes) (start : Nat) : LaidLine :=
  let para := rest.takeWhile (· ≠ chr '\n')
  let bOff := (split para avail).1
  let x := (split para avail).2
  if bOff = para.length ∧ byteAt rest bOff = chr '\n' then
    let lines := [⟨start, para.length, x⟩]
    { lines := if rest.length = bOff + 1 then lines ++ [⟨start + bOff + 1, 0, x⟩] else lines
      bOff := bOff + 1
      width := x }
  else
    -- A soft wrap is behind the last space.
    let bOff :=
      if rest.length = bOff ∨ lastSpace rest bOff = 0 then bOff else lastSpace rest bOff + 1
    { lines := [⟨start, bOff, x⟩], bOff := bOff, width := x }

namespace TextLayout

variable (split : Split) (s : TextLayout) (text : Bytes)

/-- A line that is too wide needs a horizontal scrollbar. -/
def widen (x : Int) : TextLayout :=
  let wide := { s with hExtent := max s.hExtent x }
  if x > s.availWidth ∧ ¬ s.barX then wide.addBarX else wide

/-- The loop over the lines, which stops when a vertical scrollbar is needed. It has not ended
after so many rounds when it is `none`. -/
def layLines : Nat → TextLayout → Bytes → Nat → Option TextLayout
  | _, s, [], _ => some s
  | 0, _, _ :: _, _ => none
  | rounds + 1, s, rest, start =>
      let laid := layLine split s.availWidth rest start
      let s := s.widen laid.width
      let s := { s with lines := s.lines ++ laid.lines }
      if s.lines.length > s.scrollLines ∧ ¬ s.barY then some s
      else layLines rounds s (rest.drop laid.bOff) (start + laid.bOff)

/-- The start of a line of the table, with the text's start for the first one. -/
def lineStart (line : Nat) : Nat :=
  if line = 0 then 0 else (s.lines[line]?.map (·.bStart)).getD 0

/-- What the loop finds: the lines above the starting line, and the widest of them. -/
def keepLines (start : Nat) : TextLayout :=
  let kept := s.lines.take start
  { s with
    lines := if text = [] then kept ++ [⟨0, 0, 0⟩] else kept
    hExtent := kept.foldl (fun extent line => max extent line.width) s.availWidth }

/-- The horizontal scrollbar goes when no line needs it. -/
def settleBarX (avail : Int) : TextLayout :=
  if s.hExtent ≤ avail ∧ s.barX then s.removeBarX else s

/-- The vertical scrollbar comes or goes, and then the layout starts again. -/
def settleBarY : TextLayout × Bool :=
  if s.lines.length > s.scrollLines ∧ ¬ s.barY then (s.addBarY, true)
  else if s.lines.length ≤ s.scrollLines ∧ s.barY then (s.removeBarY, true)
  else (s, false)

/-- One round of the outer loop, and whether another one follows. -/
def reflowPass (start : Nat) : Option (TextLayout × Bool) :=
  let rest := text.drop (s.lineStart start)
  (layLines split rest.length (s.keepLines text start) rest (s.lineStart start)).map fun laid =>
    (laid.settleBarX s.availWidth).settleBarY

/-- The outer loop. It has not ended after so many rounds when it is `none`. -/
def reflowPasses : Nat → TextLayout → Nat → Option TextLayout
  | 0, _, _ => none
  | rounds + 1, s, start => do
      let (s, restart) ← s.reflowPass split text start
      if restart then reflowPasses rounds s 0 else some s

/-- The extents of what was laid out. -/
def setExtents : TextLayout :=
  { s with
    hExtent := s.hExtent + s.padLeft + s.padRight - (if s.barY then SCROLLBAR_WIDTH else 0)
    vExtent := s.lines.length * s.lineHeight + s.padTop + s.padBottom -
      (if s.barX then SCROLLBAR_WIDTH else 0) }

/-- The line that a place of the text is on. -/
def lineOf (bStart : Nat) : List LineInfo → Nat
  | _ :: next :: rest =>
      if next.bStart > bStart then 0 else lineOf bStart (next :: rest) + 1
  | _ => 0

/-- This is `textarea_reflow_multiline`, from the line before the change on. -/
def reflowMultiline (rounds : Nat) (bStart : Nat) : Option TextLayout :=
  (reflowPasses split text rounds s (lineOf bStart s.lines - 1)).map setExtents

/-- The layout that `textarea_create` starts with. -/
def create (visWidth visHeight borderWidth padTop padRight padBottom padLeft lineHeight : Int) :
    TextLayout :=
  { visWidth, visHeight, borderWidth, padTop, padRight, padBottom, padLeft, lineHeight
    barX := false
    barY := false
    hExtent := visWidth
    vExtent := visHeight
    lines := [] }

end TextLayout

/-- A multiline textarea and its layout. -/
structure MultilineTextarea where
  textarea : Textarea
  layout : TextLayout

/-- This is `textarea_create` for a multiline textarea, whose empty text is laid out. -/
def MultilineTextarea.create (split : Split) (rounds : Nat) (readonly : Bool)
    (layout : TextLayout) : Option MultilineTextarea :=
  (layout.reflowMultiline split [] rounds 0).map fun layout =>
    ⟨Textarea.create true readonly, layout⟩

/-- An edit of a multiline textarea is followed by the reflow that it asks for. -/
def MultilineTextarea.call (split : Split) (rounds : Nat) (s : MultilineTextarea)
    (call : EditCall) : Option MultilineTextarea := do
  let changed ← s.textarea.call call
  match changed.reflow with
  | none => some ⟨changed.textarea, s.layout⟩
  | some bStart => do
      let layout ← s.layout.reflowMultiline split changed.textarea.text rounds bStart
      some ⟨changed.textarea, layout⟩

end Neosurf.Editing
