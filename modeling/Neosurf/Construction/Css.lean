/-
This file models the fixed-point numbers and the lengths of libcss, `fpmath.h` and
`select/unit.c`.
-/

import Mathlib

namespace Neosurf.Css

/-- A number of the type `css_fixed` has ten binary places in 32 bits. -/
def RADIX_POINT : Nat := 10

/-- The results of the operations stay between the bounds of 32 bits. -/
def saturate (xx : Int) : Int :=
  if xx < -2 ^ 31 then -2 ^ 31 else if 2 ^ 31 - 1 < xx then 2 ^ 31 - 1 else xx

/-- A division by zero, which the code must not reach, is zero here. -/
def FDIV (x y : Int) : Int := saturate ((x * 2 ^ RADIX_POINT).tdiv y)

def FMUL (x y : Int) : Int := saturate ((x * y) >>> RADIX_POINT)

def INTTOFIX (a : Int) : Int := saturate (a * 2 ^ RADIX_POINT)

def FIXTOINT (a : Int) : Int := a >>> RADIX_POINT

/-- The mask leaves the fraction. -/
def FIXFRAC (a : Int) : Int := a % 2 ^ RADIX_POINT

def TRUNCATEFIX (a : Int) : Int := a - FIXFRAC a

def F_0_5 : Int := 0x200
def F_1 : Int := 0x400
def F_72 : Int := 0x12000
def F_96 : Int := 0x18000
def F_100 : Int := 0x19000

/-- This is `css_unit`. -/
inductive CssUnit where
  | px | ex | em | inch | cm | mm | pt | pc | ch | rem | lh | vh | vw | vi | vb | vmin | vmax | q
  | pct | deg | grad | rad | ms | s | hz | khz
  deriving DecidableEq

/-- This is what the conversions read of a `css_computed_style`. -/
structure ComputedStyle where
  fontSize : Int
  fontUnit : CssUnit
  horizontalTb : Bool
  deriving DecidableEq

/-- This is `css_unit_ctx`, with the private word of the callback inside the callback. -/
structure UnitCtx where
  viewportWidth : Int
  viewportHeight : Int
  fontSizeDefault : Int
  fontSizeMinimum : Int
  deviceDpi : Int
  rootStyle : Option ComputedStyle
  measure : Option (Option ComputedStyle → CssUnit → Int)

variable (ctx : UnitCtx) (style : Option ComputedStyle)

def mapViewportUnits (unit : CssUnit) : CssUnit :=
  let vertical := style.any fun style => !style.horizontalTb
  match unit with
  | .vi => if vertical then .vh else .vw
  | .vb => if vertical then .vw else .vh
  | .vmin => if ctx.viewportHeight < ctx.viewportWidth then .vh else .vw
  | .vmax => if ctx.viewportWidth < ctx.viewportHeight then .vh else .vw
  | unit => unit

/-- The decimal fractions are the fixed-point numbers that `FLTTOFIX` makes of them. -/
def absoluteLen2pt (length : Int) (unit : CssUnit) : Int :=
  match mapViewportUnits ctx style unit with
  | .px => FDIV (FMUL length F_72) F_96
  | .inch => FMUL length F_72
  | .cm => FMUL length (FDIV F_72 2600)
  | .mm => FMUL length (FDIV F_72 26009)
  | .q => FMUL length (FDIV F_72 104038)
  | .pt => length
  | .pc => FMUL length (INTTOFIX 12)
  | .vh => FDIV (FMUL (FDIV (FMUL length ctx.viewportHeight) F_100) F_72) F_96
  | .vw => FDIV (FMUL (FDIV (FMUL length ctx.viewportWidth) F_100) F_72) F_96
  | _ => 0

def fontSizePx : Int :=
  match style with
  | none => ctx.fontSizeDefault
  | some own =>
      let fontLength :=
        if own.fontUnit = .px then own.fontSize
        else FDIV (FMUL (absoluteLen2pt ctx style own.fontSize own.fontUnit) F_96) F_72
      if fontLength < ctx.fontSizeMinimum then ctx.fontSizeMinimum else fontLength

def pxPerUnit (unit : CssUnit) : Int :=
  match mapViewportUnits ctx style unit with
  | .em => fontSizePx ctx style
  | .ex =>
      match ctx.measure with
      | some measure => measure style .ex
      | none => FMUL (fontSizePx ctx style) 614
  | .ch =>
      match ctx.measure with
      | some measure => measure style .ch
      | none => FMUL (fontSizePx ctx style) 409
  | .px => F_1
  | .inch => F_96
  | .cm => FDIV F_96 2600
  | .mm => FDIV F_96 26009
  | .q => FDIV F_96 104038
  | .pt => FDIV F_96 F_72
  | .pc => FDIV F_96 (INTTOFIX 6)
  | .rem => fontSizePx ctx ctx.rootStyle
  | .vh => FDIV ctx.viewportWidth F_100
  | .vw => FDIV ctx.viewportHeight F_100
  | _ => 0

/-- The pixels of a unit are rounded to a whole number by the addition, which wraps. -/
def len2devicePx (length : Int) (unit : CssUnit) : Int :=
  let perUnit := FDIV (FMUL (pxPerUnit ctx style unit) ctx.deviceDpi) F_96
  FMUL length (TRUNCATEFIX (Int.bmod (perUnit + F_0_5) (2 ^ 32)))

end Neosurf.Css
