/-
This file models how `html/layout_flex.c` sizes and places the items of a flex container. Sizes in
pixels are integers. Fixed-point sums and the total violation wrap at 32 bits.
-/

import Neosurf.Construction.Bytes
import Neosurf.Construction.Css

namespace Neosurf.LayoutFlex

open Css

def AUTO : Int := -2 ^ 31

def UNKNOWN_WIDTH : Int := 2 ^ 31 - 1

/-- This is `enum box_side`. -/
inductive BoxSide where
  | top | right | bottom | left
  deriving DecidableEq

/-- A length for each side of a box. -/
structure Sides where
  top : Int := 0
  right : Int := 0
  bottom : Int := 0
  left : Int := 0
  deriving DecidableEq

def Sides.get (sides : Sides) : BoxSide → Int
  | .top => sides.top
  | .right => sides.right
  | .bottom => sides.bottom
  | .left => sides.left

/-- This is `css_align_self_e`, which `css_align_items_e` is a part of. -/
inductive AlignSelf where
  | inherit | stretch | flexStart | flexEnd | center | baseline | auto
  deriving DecidableEq

/-- This is what the flex layout reads and writes of a box. The last four are from its style. -/
structure Box where
  x : Int := 0
  y : Int := 0
  width : Int := 0
  height : Int := 0
  minWidth : Int := 0
  margin : Sides := {}
  padding : Sides := {}
  border : Sides := {}
  absolute : Bool := false
  alignSelf : AlignSelf := .auto
  widthAuto : Bool := true
  heightAuto : Bool := true
  deriving DecidableEq

namespace Box

variable (b : Box)

def nonAutoMargin (side : BoxSide) : Int := if b.margin.get side = AUTO then 0 else b.margin.get side

def deltaOuterHeight : Int :=
  b.padding.top + b.padding.bottom + b.border.top + b.border.bottom + b.nonAutoMargin .top +
    b.nonAutoMargin .bottom

def deltaOuterWidth : Int :=
  b.padding.left + b.padding.right + b.border.left + b.border.right + b.nonAutoMargin .left +
    b.nonAutoMargin .right

def deltaOuterMain (horizontal : Bool) : Int :=
  if horizontal then b.deltaOuterWidth else b.deltaOuterHeight

def deltaOuterCross (horizontal : Bool) : Int :=
  if horizontal then b.deltaOuterHeight else b.deltaOuterWidth

def sizeMain (horizontal : Bool) : Int := if horizontal then b.width else b.height

def sizeCross (horizontal : Bool) : Int := if horizontal then b.height else b.width

end Box

/-- This is `struct flex_item_data` as far as lines are concerned. The style sheet has no negative
factors. -/
structure FlexItemData where
  box : Box
  shrink : Int
  grow : Int
  minMain : Int := 0
  maxMain : Int := 0
  targetMainSize : Int := 0
  baseSize : Int
  mainSize : Int
  line : Nat := 0
  freeze : Bool := false
  minViolation : Bool := false
  maxViolation : Bool := false
  shrinkNonneg : 0 ≤ shrink := by decide
  growNonneg : 0 ≤ grow := by decide
  deriving DecidableEq

/-- This is `struct flex_line_data`. -/
structure FlexLineData where
  mainSize : Int := 0
  crossSize : Int := 0
  usedMainSize : Int := 0
  mainAutoMarginCount : Int := 0
  pos : Int := 0
  first : Nat
  count : Nat := 0
  frozen : Nat := 0
  deriving DecidableEq

/-- This is `css_flex_wrap_e`. -/
inductive FlexWrap where
  | inherit | nowrap | wrap | wrapReverse
  deriving DecidableEq

/-- This is `struct flex_ctx` without its items. -/
structure FlexCtx where
  flex : Box
  mainSize : Int := 0
  crossSize : Int := 0
  availableMain : Int
  availableCross : Int := AUTO
  horizontal : Bool
  mainReversed : Bool := false
  wrap : FlexWrap
  lines : List FlexLineData := []

section BuildLine

variable (ctx : FlexCtx)

def mainStartSide : BoxSide :=
  if ctx.horizontal then if ctx.mainReversed then .right else .left
  else if ctx.mainReversed then .bottom else .top

def mainEndSide : BoxSide :=
  if ctx.horizontal then if ctx.mainReversed then .left else .right
  else if ctx.mainReversed then .top else .bottom

/-- The loop of `layout_flex__build_line` calls this `pos_main`. -/
def posMain (item : FlexItemData) : Int :=
  if ctx.horizontal then item.mainSize
  else item.box.height + item.box.deltaOuterMain ctx.horizontal

/-- These are the reasons to put an item on the line. -/
def fits (line : FlexLineData) (usedMain : Int) (item : FlexItemData) : Bool :=
  ctx.wrap = .nowrap || posMain ctx item + usedMain ≤ ctx.availableMain || item.box.absolute ||
    ctx.availableMain = AUTO || line.count = 0 || posMain ctx item = 0

/-- An item out of the flow only counts. -/
def addItem (line : FlexLineData) (item : FlexItemData) : FlexLineData :=
  if item.box.absolute then { line with count := line.count + 1 }
  else
    { line with
      mainSize := line.mainSize + item.mainSize
      mainAutoMarginCount := line.mainAutoMarginCount +
        (if item.box.margin.get (mainStartSide ctx) = AUTO then 1 else 0) +
        (if item.box.margin.get (mainEndSide ctx) = AUTO then 1 else 0)
      count := line.count + 1 }

/-- The loop of `layout_flex__build_line`, with the items that it has put on the line. -/
def buildLoop : FlexLineData → Int → List FlexItemData → FlexLineData × List FlexItemData
  | line, _, [] => (line, [])
  | line, usedMain, item :: rest =>
      if fits ctx line usedMain item then
        let usedMain := if item.box.absolute then usedMain else usedMain + posMain ctx item
        let (line, items) := buildLoop (addItem ctx line item) usedMain rest
        (line, { item with line := ctx.lines.length } :: items)
      else (line, [])

/-- The items are those from the index on. Space for the line is taken for granted. -/
def buildLine (itemIndex : Nat) (items : List FlexItemData) : FlexLineData × List FlexItemData :=
  buildLoop ctx { first := itemIndex } 0 items

end BuildLine

section ResolveLine

/-- A loop over the items of a line that changes the line, too. -/
def overItems (change : FlexLineData → FlexItemData → FlexLineData × FlexItemData) :
    FlexLineData → List FlexItemData → FlexLineData × List FlexItemData
  | line, [] => (line, [])
  | line, item :: rest =>
      let (line, item) := change line item
      let (line, rest) := overItems change line rest
      (line, item :: rest)

def itemFreeze (line : FlexLineData) (item : FlexItemData) : FlexLineData × FlexItemData :=
  ({ line with
    frozen := line.frozen + 1
    usedMainSize := if item.box.absolute then line.usedMainSize
      else line.usedMainSize + item.targetMainSize },
    { item with freeze := true })

/-- An item that cannot flex is frozen at its main size. -/
def sizeInflexible (grow : Bool) (line : FlexLineData) (item : FlexItemData) :
    FlexLineData × FlexItemData :=
  if (if grow then item.grow = 0 ∨ item.mainSize < item.baseSize
      else item.shrink = 0 ∨ item.baseSize < item.mainSize) then
    itemFreeze line { item with targetMainSize := item.mainSize }
  else (line, item)

/-- This is the space that the items leave at their current sizes. -/
def freeMain (availableMain : Int) (items : List FlexItemData) : Int :=
  items.foldl (fun free item => free - if item.freeze then item.targetMainSize else item.baseSize)
    availableMain

/-- The sum of the factors wraps. -/
def unfrozenFactorSum (grow : Bool) (items : List FlexItemData) : Int :=
  items.foldl (fun sum item =>
    if item.freeze then sum else toInt32 (sum + if grow then item.grow else item.shrink)) 0

def remainingFreeMain (initialFreeMain availableMain : Int) (grow : Bool)
    (items : List FlexItemData) : Int :=
  let remaining := freeMain availableMain items
  let sum := unfrozenFactorSum grow items
  if sum < F_1 then
    let freeSpace := FIXTOINT (FMUL (INTTOFIX initialFreeMain) sum)
    if freeSpace < remaining then freeSpace else remaining
  else remaining

/-- The remainder of one share is carried to the next. There is no result where the sum of the
factors that divides is zero. -/
def growLoop (factorSum remainingFreeMain : Int) :
    Int → List FlexItemData → Option (List FlexItemData)
  | _, [] => some []
  | remainder, item :: rest =>
      if item.freeze then do
        let rest ← growLoop factorSum remainingFreeMain remainder rest
        return item :: rest
      else if factorSum = 0 then none
      else do
        let result := toInt32
          (FMUL (INTTOFIX remainingFreeMain) (FDIV item.grow factorSum) + remainder)
        let rest ← growLoop factorSum remainingFreeMain (FIXFRAC result) rest
        return { item with targetMainSize := item.baseSize + FIXTOINT result } :: rest

def scaledShrinkFactor (item : FlexItemData) : Int := FMUL item.shrink (INTTOFIX item.baseSize)

def scaledShrinkFactorSum (items : List FlexItemData) : Int :=
  items.foldl (fun sum item =>
    if item.freeze then sum else toInt32 (sum + scaledShrinkFactor item)) 0

/-- An item is frozen where the sum of the factors is zero. -/
def shrinkLoop (scaledSum remainingFreeMain : Int) :
    Int → FlexLineData → List FlexItemData → FlexLineData × List FlexItemData
  | _, line, [] => (line, [])
  | remainder, line, item :: rest =>
      if item.freeze then
        let (line, rest) := shrinkLoop scaledSum remainingFreeMain remainder line rest
        (line, item :: rest)
      else if scaledSum = 0 then
        let (line, item) := itemFreeze line { item with targetMainSize := item.mainSize }
        let (line, rest) := shrinkLoop scaledSum remainingFreeMain remainder line rest
        (line, item :: rest)
      else
        let result := toInt32
          (FMUL (INTTOFIX |remainingFreeMain|) (FDIV (scaledShrinkFactor item) scaledSum) +
            remainder)
        let (line, rest) := shrinkLoop scaledSum remainingFreeMain (FIXFRAC result) line rest
        (line, { item with targetMainSize := item.baseSize - FIXTOINT result } :: rest)

def distributeFreeMain (factorSum remainingFreeMain : Int) (grow : Bool) (line : FlexLineData)
    (items : List FlexItemData) : Option (FlexLineData × List FlexItemData) :=
  if grow then do
    let items ← growLoop factorSum remainingFreeMain 0 items
    return (line, items)
  else some (shrinkLoop (scaledShrinkFactorSum items) remainingFreeMain 0 line items)

/-- A maximum of zero is none. -/
def lowerToMax (item : FlexItemData) : FlexItemData :=
  if 0 < item.maxMain ∧ item.maxMain < item.targetMainSize then
    { item with targetMainSize := item.maxMain, maxViolation := true }
  else item

def raiseTo (bound : Int) (item : FlexItemData) : FlexItemData :=
  if item.targetMainSize < bound then
    { item with targetMainSize := bound, minViolation := true }
  else item

/-- The four bounds of an unfrozen item, one after the other. The flags are only ever set. -/
def clamp (item : FlexItemData) : FlexItemData :=
  if item.freeze then item
  else raiseTo 0 (raiseTo item.box.minWidth (raiseTo item.minMain (lowerToMax item)))

/-- This is what the bounds add to the sizes. The sum wraps. -/
def totalViolation (items : List FlexItemData) : Int :=
  items.foldl (fun total item =>
    toInt32 (total + ((clamp item).targetMainSize - item.targetMainSize))) 0

/-- The total violation decides which items are frozen. -/
def freezeViolating (total : Int) (line : FlexLineData) (item : FlexItemData) :
    FlexLineData × FlexItemData :=
  if item.freeze then (line, item)
  else if total = 0 ∨ 0 < total ∧ item.minViolation ∨ total < 0 ∧ item.maxViolation then
    itemFreeze line item
  else (line, item)

/-- These are the steps b and c of a pass of the loop of `layout_flex__resolve_line`. -/
def distributeRemaining (initialFreeMain availableMain : Int) (grow : Bool) (line : FlexLineData)
    (items : List FlexItemData) : Option (FlexLineData × List FlexItemData) :=
  let remaining := remainingFreeMain initialFreeMain availableMain grow items
  if remaining ≠ 0 then
    distributeFreeMain (unfrozenFactorSum grow items) remaining grow line items
  else some (line, items)

/-- This is a whole pass. The steps d and e decide which items are frozen. -/
def resolvePass (initialFreeMain availableMain : Int) (grow : Bool) (line : FlexLineData)
    (items : List FlexItemData) : Option (FlexLineData × List FlexItemData) := do
  let (line, items) ← distributeRemaining initialFreeMain availableMain grow line items
  return overItems (freezeViolating (totalViolation items)) line (items.map clamp)

/-- There is no result where the passes do not end. -/
def resolveLoop (initialFreeMain availableMain : Int) (grow : Bool) :
    Nat → FlexLineData → List FlexItemData → Option (FlexLineData × List FlexItemData)
  | 0, line, items => if line.frozen < line.count then none else some (line, items)
  | passes + 1, line, items =>
      if line.frozen < line.count then do
        let (line, items) ← resolvePass initialFreeMain availableMain grow line items
        resolveLoop initialFreeMain availableMain grow passes line items
      else some (line, items)

/-- The loop starts with these. -/
structure Resolving where
  availableMain : Int
  grow : Bool
  line : FlexLineData
  items : List FlexItemData
  initialFreeMain : Int

/-- This is `layout_flex__resolve_line` up to its loop. -/
def startResolving (ctx : FlexCtx) (line : FlexLineData) (items : List FlexItemData) : Resolving :=
  let availableMain := if ctx.availableMain = AUTO then 2 ^ 31 - 1 else ctx.availableMain
  let grow := decide (line.mainSize < availableMain)
  let (line, items) := overItems (sizeInflexible grow) line items
  { availableMain, grow, line, items, initialFreeMain := freeMain availableMain items }

def resolveLine (ctx : FlexCtx) (passes : Nat) (line : FlexLineData) (items : List FlexItemData) :
    Option (FlexLineData × List FlexItemData) :=
  let s := startResolving ctx line items
  resolveLoop s.initialFreeMain s.availableMain s.grow passes s.line s.items

end ResolveLine

section PlaceItems

/-- This is `layout_flex_item`, which lays out the box of an item for a width and may fail. The
margins of the sides are computed from the style again. -/
structure ItemLayout where
  layout : Box → Int → Option Box
  absolute : ∀ b width b', layout b width = some b' → b'.absolute = b.absolute
  left : ∀ b width b', layout b width = some b' →
    (b'.margin.get .left = AUTO ↔ b.margin.get .left = AUTO)
  right : ∀ b width b', layout b width = some b' →
    (b'.margin.get .right = AUTO ↔ b.margin.get .right = AUTO)

variable (itemLayout : ItemLayout) (ctx : FlexCtx)

/-- An item in its place, with the extra space of its margins. -/
structure Placement where
  item : FlexItemData
  extraPre : Int
  extraPost : Int

/-- In a row the box gets the width of its item and is laid out for it. -/
def sizeItem (item : FlexItemData) : Option Box :=
  if ctx.horizontal then
    let width := item.targetMainSize - item.box.deltaOuterWidth
    itemLayout.layout { item.box with width } width
  else some item.box

/-- An automatic margin of an item in the flow gets the extra space. -/
def autoExtra (extra : Int) (b : Box) (side : BoxSide) : Int :=
  if !b.absolute ∧ b.margin.get side = AUTO then extra else 0

/-- The loop of `layout_flex__place_line_items_main` over the position and the cross size. -/
def placeLoop (extra : Int) :
    Int → Int → List FlexItemData → Option (List Placement × Int × Int)
  | mainPos, crossSize, [] => some ([], mainPos, crossSize)
  | mainPos, crossSize, item :: rest => do
      let mainStart := if ctx.horizontal then BoxSide.left else .top
      let mainEnd := if ctx.horizontal then BoxSide.right else .bottom
      let b ← sizeItem itemLayout ctx item
      let extraPre := autoExtra extra b mainStart
      let extraPost := autoExtra extra b mainEnd
      let step :=
        if b.absolute then 0
        else extraPre + extraPost + b.sizeMain ctx.horizontal + b.deltaOuterMain ctx.horizontal
      let mainPos := if ctx.mainReversed then mainPos - step else mainPos
      let boxPos := mainPos + b.nonAutoMargin mainStart + extraPre + b.border.get mainStart
      let b := if ctx.horizontal then { b with x := boxPos } else { b with y := boxPos }
      let itemCross := b.sizeCross ctx.horizontal + b.deltaOuterCross ctx.horizontal
      let crossSize := if !b.absolute ∧ crossSize < itemCross then itemCross else crossSize
      let mainPos := if ctx.mainReversed then mainPos else mainPos + step
      let (rest, mainPos, crossSize) ← placeLoop extra mainPos crossSize rest
      return ({ item := { item with box := b }, extraPre, extraPost } :: rest, mainPos, crossSize)

/-- The quotient and the remainder of the extra space, over the automatic margins. -/
def mainExtra (line : FlexLineData) : Int × Int :=
  if ctx.availableMain ≠ AUTO ∧ ctx.availableMain ≠ UNKNOWN_WIDTH ∧
      line.usedMainSize < ctx.availableMain ∧ 0 < line.mainAutoMarginCount then
    let extra := ctx.availableMain - line.usedMainSize
    (extra.tdiv line.mainAutoMarginCount, extra.tmod line.mainAutoMarginCount)
  else (0, 0)

/-- The remainder is added to each quotient. -/
def placeLineItemsMain (line : FlexLineData) (items : List FlexItemData) :
    Option (FlexLineData × List Placement) := do
  let padding := ctx.flex.padding.get (mainStartSide ctx)
  let mainPos := if ctx.mainReversed then ctx.flex.sizeMain ctx.horizontal - padding else padding
  let (extra, extraRemainder) := mainExtra ctx line
  let (placements, _, crossSize) ←
    placeLoop itemLayout ctx (extra + extraRemainder) mainPos line.crossSize items
  return ({ line with crossSize }, placements)

end PlaceItems

section CollectLines

variable (itemLayout : ItemLayout)

/-- The loop of `layout_flex__collect_items_into_lines`, with the items before `pos` and from `pos`
on. It answers whether it succeeds. There is no result where it or the loop of a line does not
end. -/
def collectLoop (passes : Nat) :
    Nat → FlexCtx → List FlexItemData → List FlexItemData →
      Option (Bool × FlexCtx × List FlexItemData)
  | 0, ctx, done, rest => if rest = [] then some (true, ctx, done) else none
  | rounds + 1, ctx, done, rest =>
      if rest = [] then some (true, ctx, done)
      else
        let (line, items) := buildLine ctx done.length rest
        let left := rest.drop line.count
        match resolveLine ctx passes line items with
        | none => none
        | some (line, items) =>
            match placeLineItemsMain itemLayout ctx line items with
            | none => some (false, { ctx with lines := ctx.lines ++ [line] }, done ++ items ++ left)
            | some (line, placements) =>
                collectLoop passes rounds
                  { ctx with
                    lines := ctx.lines ++ [line]
                    crossSize := ctx.crossSize + line.crossSize
                    mainSize := if ctx.mainSize < line.mainSize then line.mainSize
                      else ctx.mainSize }
                  (done ++ placements.map Placement.item) left

def collectItemsIntoLines (passes rounds : Nat) (ctx : FlexCtx) (items : List FlexItemData) :
    Option (Bool × FlexCtx × List FlexItemData) :=
  collectLoop itemLayout passes rounds ctx [] items

end CollectLines

section PlaceLines

variable (itemLayout : ItemLayout) (ctx : FlexCtx)

/-- A line in its place, with the extra space that is passed on to its items. -/
structure PlacedLine where
  line : FlexLineData
  extra : Int
  deriving DecidableEq

/-- The loop of `layout_flex__place_lines` over the position and the remainder, before the items
of a line are placed. -/
def placeLinesLoop (extra : Int) : Int → Int → List FlexLineData → List PlacedLine
  | _, _, [] => []
  | linePos, extraRemainder, line :: lines =>
      let reversed := ctx.wrap = .wrapReverse
      let pos := if reversed then linePos - line.crossSize else linePos
      let linePos :=
        (if reversed then pos else pos + line.crossSize) + extra + extraRemainder
      { line := { line with pos }, extra := extra + extraRemainder } ::
        placeLinesLoop extra linePos (if 0 < extraRemainder then extraRemainder - 1
          else extraRemainder) lines

/-- The lines of the container in their places. -/
def placeLines : List PlacedLine :=
  let linePos := if ctx.wrap = .wrapReverse then ctx.crossSize else 0
  if ctx.availableCross ≠ AUTO ∧ ctx.crossSize < ctx.availableCross ∧ 0 < ctx.lines.length then
    let extra := ctx.availableCross - ctx.crossSize
    placeLinesLoop ctx (extra.tdiv ctx.lines.length) linePos (extra.tmod ctx.lines.length) ctx.lines
  else placeLinesLoop ctx 0 linePos 0 ctx.lines

end PlaceLines

end Neosurf.LayoutFlex
