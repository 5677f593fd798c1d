/-
This file models tables: how `html/layout.c` distributes the width of a table over its columns, and
how `html/table.c` chooses between the borders that meet at a cell. Pixels are integers, and a
`float` is an exact rational number.
-/

import Mathlib.Algebra.Order.Floor.Ring
import Mathlib.Data.Rat.Floor
import Neosurf.Construction.Css
import Neosurf.ToMathlib.Comparing

namespace Neosurf.LayoutTable

/-- These are the types of a column. -/
inductive ColumnWidth
  | unknown
  | fixed
  | auto
  | percent
  | relative
  deriving DecidableEq, Repr

/-- This is `struct column`. -/
structure Column where
  type : ColumnWidth
  width : Int
  min : Int
  max : Int
  positioned : Bool
  deriving DecidableEq, Repr

/-- A conversion to an `int` rounds to zero. -/
def truncate (value : ℚ) : Int := if value < 0 then ⌈value⌉ else ⌊value⌋

/-- A column of a fixed width is as wide as it is specified, or as its content needs. -/
def Column.settle (col : Column) : Column :=
  if col.positioned then col
  else if col.type = .fixed then
    if col.width < col.min then { col with width := col.min, max := col.min }
    else { col with min := col.width, max := col.width }
  else col

/-- This is the share of a column in the width that the cells require, once it is settled. -/
def Column.required (autoWidth : Int) (col : Column) : Int :=
  if col.positioned then 0
  else if col.type = .fixed then col.width
  else if col.type = .percent then
    let width := (col.width * autoWidth).tdiv 100
    if col.min < width then width else col.min
  else col.min

/-- A percentage is a maximum for a narrow table, and is taken exactly otherwise. -/
def Column.bound (narrow : Bool) (autoWidth : Int) (col : Column) : Column :=
  if col.type = .percent then
    let width := (autoWidth * col.width).tdiv 100
    let width := if width < col.min then col.min else width
    if narrow then { col with max := width }
    else { col with min := width, width := width, max := width, type := .fixed }
  else col

/-- A relative column gets its part of the width that is left. -/
def Column.relate (spareWidth relativeSum : Int) (col : Column) : Column :=
  if col.type = .relative then
    let width := truncate ((spareWidth : ℚ) * col.width / relativeSum)
    { col with min := width, max := width }
  else col

/-- The columns to the right get a pixel more whenever the count of the remainder runs out. -/
def spread (chosen : Column → Bool) (extra remainder among : Int) :
    Int → List Column → List Column
  | _, [] => []
  | count, col :: rest =>
      if chosen col then
        let count := count - remainder
        if count < 0 then
          { col with width := col.max + extra + 1 } ::
            spread chosen extra remainder among (count + among) rest
        else { col with width := col.max + extra } :: spread chosen extra remainder among count rest
      else col :: spread chosen extra remainder among count rest

/-- The columns that are not fixed get the space beyond the maxima, or all columns if there are
none. -/
def shareOut (space : Int) (cols : List Column) : List Column :=
  let flexible := cols.filter fun col => col.type ≠ .fixed
  let chosen := fun col : Column => flexible = [] || col.type ≠ .fixed
  let among : Int := if flexible = [] then cols.length else flexible.length
  spread chosen (space / among) (space - space / among * among) among 0 cols

/-- The columns, the sums of their bounds and the width that is available. -/
structure Bounds where
  cols : List Column
  minWidth : Int
  maxWidth : Int
  autoWidth : Int
  deriving Repr

/-- The columns get their bounds from the types. -/
def boundColumns (autoWidth borderSpacingH : Int) (cols : List Column) : Bounds :=
  let cols := cols.map Column.settle
  let positioned := cols.countP Column.positioned
  let required := (cols.map (Column.required autoWidth)).sum +
    (cols.length + 1 - positioned) * borderSpacingH
  let cols := cols.map (Column.bound (autoWidth < required) autoWidth)
  let relativeSum := ((cols.filter fun col => col.type = .relative).map Column.width).sum
  let spare := autoWidth -
    ((cols.filter fun col => col.type ≠ .relative).map fun col =>
      if col.type = .fixed then col.width else col.min).sum - (cols.length + 1) * borderSpacingH
  let spare := if spare < 0 then 0 else spare
  let cols := if relativeSum ≠ 0 then cols.map (Column.relate spare relativeSum) else cols
  let counted := if relativeSum ≠ 0 then cols else cols.filter fun col => col.type ≠ .relative
  ⟨cols, (counted.map Column.min).sum + (cols.length + 1) * borderSpacingH,
    (counted.map Column.max).sum + (cols.length + 1) * borderSpacingH, autoWidth⟩

/-- The scale of the space between the minima and the maxima. -/
def Bounds.scale (b : Bounds) : ℚ :=
  ((b.autoWidth - b.minWidth : Int) : ℚ) / ((b.maxWidth - b.minWidth : Int) : ℚ)

/-- A column between its minimum and its maximum. -/
def Bounds.widthOf (b : Bounds) (col : Column) : Int :=
  col.min + truncate (1 / 2 + ((col.max - col.min : Int) : ℚ) * b.scale)

/-- The columns get their widths. The table's own width is missing when it is `AUTO`. -/
def Bounds.distribute (tableWidth : Option Int) (b : Bounds) : List Column × Int :=
  if b.autoWidth ≤ b.minWidth then
    (b.cols.map fun col => { col with width := col.min }, b.minWidth)
  else if b.maxWidth ≤ b.autoWidth then
    match tableWidth with
    | none => (b.cols.map fun col => { col with width := col.max }, b.maxWidth)
    | some tableWidth => (shareOut (tableWidth - b.maxWidth) b.cols, tableWidth)
  else (b.cols.map fun col => { col with width := b.widthOf col }, b.autoWidth)

/-- These are the horizontal margins, borders and paddings of a table. A margin of `AUTO` is
missing. -/
structure Edges where
  marginLeft : Option Int
  marginRight : Option Int
  borderLeft : Int
  borderRight : Int
  paddingLeft : Int
  paddingRight : Int
  deriving Repr

/-- This is `table_width` where the style specifies a width in pixels, which includes the border. -/
def specifiedWidth (edges : Edges) (specified : Option Int) : Option Int :=
  specified.map fun width => max (width - (edges.borderLeft + edges.borderRight)) 0

/-- This is `auto_width`. -/
def autoWidthOf (edges : Edges) (specified : Option Int) (availableWidth : Int) : Int :=
  match specifiedWidth edges specified with
  | some width => width
  | none => availableWidth - (edges.marginLeft.getD 0 + edges.borderLeft + edges.paddingLeft +
      edges.paddingRight + edges.borderRight + edges.marginRight.getD 0)

/-- This is the part of `layout_table` that gives the columns their widths, with the table's. -/
def layoutTableWidths (edges : Edges) (specified : Option Int) (availableWidth borderSpacingH : Int)
    (cols : List Column) : List Column × Int :=
  (boundColumns (autoWidthOf edges specified availableWidth) borderSpacingH cols).distribute
    (specifiedWidth edges specified)

end Neosurf.LayoutTable

namespace Neosurf.TableBorder

open Css (CssUnit UnitCtx len2devicePx)

/-- This is `css_border_style_e`. -/
inductive BorderStyle where
  | inherit | none | hidden | dotted | dashed | solid | double | groove | ridge | inset | outset
  deriving DecidableEq

/-- This is `css_border_color_e`. -/
inductive BorderColor where
  | inherit | color | currentColor
  deriving DecidableEq

/-- This is `box_type`. -/
inductive BoxType where
  | block | inlineContainer | inline | table | tableRow | tableCell | tableRowGroup | floatLeft
  | floatRight | inlineBlock | br | text | inlineEnd | none | flex | inlineFlex
  deriving DecidableEq

/-- This is `struct border`. Its width is absolute, as the code asserts. -/
structure Border where
  style : BorderStyle
  color : BorderColor
  c : UInt32
  width : Int
  unit : CssUnit
  absolute : unit ≠ .em ∧ unit ≠ .ex
  deriving DecidableEq

/-- A border and the kind of box that it comes from. -/
abbrev Candidate := Border × BoxType

/-- These are the cases of the first two switches, each of which falls through to the next. -/
def styleImpact : BorderStyle → Int
  | .double => 8
  | .solid => 7
  | .dashed => 6
  | .dotted => 5
  | .ridge => 4
  | .outset => 3
  | .groove => 2
  | .inset => 1
  | _ => 0

/-- These are the cases of the last two switches. -/
def sourceImpact : BoxType → Int
  | .tableCell => 4
  | .tableRow => 3
  | .tableRowGroup => 2
  | .table => 1
  | _ => 0

/-- The second border is more eyecatching than the first one. -/
def tableBorderIsMoreEyecatching (ctx : UnitCtx) (a b : Candidate) : Bool :=
  if a.1.style = .hidden ∨ b.1.style = .none then false
  else if b.1.style = .hidden ∨ a.1.style = .none then true
  else
    let awidth := len2devicePx ctx none a.1.width a.1.unit
    let bwidth := len2devicePx ctx none b.1.width b.1.unit
    if awidth < bwidth then true
    else if bwidth < awidth then false
    else
      let impact := styleImpact a.1.style - styleImpact b.1.style
      if impact < 0 then true
      else if 0 < impact then false
      else
        let impact := sourceImpact a.2 - sourceImpact b.2
        if impact < 0 then true
        else if 0 < impact then false
        else true

/-- The border in use is replaced by each one that is more eyecatching. -/
def mostEyecatching (ctx : UnitCtx) (first : Candidate) (rest : List Candidate) : Candidate :=
  List.champion (tableBorderIsMoreEyecatching ctx) first rest

end Neosurf.TableBorder
