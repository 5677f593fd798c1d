/-
This file models C strings, the character tests of `utils/ascii.h`, the strings of libwapcaplet,
the error codes, and what the C library reads from and prints to text files.
-/

import Mathlib.Data.List.Basic
import Mathlib.Data.UInt

namespace Neosurf

/-- This type is the C `char`, read as an unsigned value. -/
abbrev Byte := UInt8

/-- A property of all bytes is one of two hexadecimal digits. -/
theorem byte_cases {P : Byte → Prop} (all : ∀ high low : Fin 16, P (UInt8.ofNat (16 * high + low)))
    (c : Byte) : P c := by
  have here := all ⟨c.toNat / 16, by have := c.toNat_lt; omega⟩ ⟨c.toNat % 16, by omega⟩
  simpa [Nat.div_add_mod] using here

/-- A string is its bytes without the final NUL. -/
abbrev Bytes := List Byte

/-- This is the byte of one ASCII character. -/
def chr (c : Char) : Byte := c.toNat.toUInt8

/-- These are the bytes of an ASCII literal. -/
def str (text : String) : Bytes := text.toList.map chr

/-- A pointer walk reads the terminator at the end of the string. -/
def byteAt (s : Bytes) (pos : Nat) : Byte := s.getD pos 0

/-- The C library sees a string only up to its first NUL. -/
def cstr (s : Bytes) : Bytes := s.takeWhile (· ≠ 0)

def isSpace (c : Byte) : Bool :=
  c == chr ' ' || c == 9 || c == 10 || c == 11 || c == 12 || c == 13

def isAlphaLower (c : Byte) : Bool := chr 'a' ≤ c && c ≤ chr 'z'

def isAlphaUpper (c : Byte) : Bool := chr 'A' ≤ c && c ≤ chr 'Z'

def isAlpha (c : Byte) : Bool := isAlphaLower c || isAlphaUpper c

def isDigit (c : Byte) : Bool := chr '0' ≤ c && c ≤ chr '9'

def isAlphanumerical (c : Byte) : Bool := isAlpha c || isDigit c

def isAfLower (c : Byte) : Bool := chr 'a' ≤ c && c ≤ chr 'f'

def isAfUpper (c : Byte) : Bool := chr 'A' ≤ c && c ≤ chr 'F'

/-- This is `ascii_hex_to_value`, with `none` for its negative answer. -/
def hexToValue (c : Byte) : Option Byte :=
  if isDigit c then some (c - chr '0')
  else if isAfLower c then some (c - chr 'a' + 10)
  else if isAfUpper c then some (c - chr 'A' + 10)
  else none

/-- One invalid digit makes the sum of both values negative. -/
def hexToValue2Chars (c1 c2 : Byte) : Option Byte :=
  match hexToValue c1, hexToValue c2 with
  | some high, some low => some (16 * high + low)
  | _, _ => none

def toLower (c : Byte) : Byte := if isAlphaUpper c then c + 32 else c

def toUpper (c : Byte) : Byte := if isAlphaLower c then c - 32 else c

/-- This is the text without the case of its letters. -/
def folded (text : Bytes) : Bytes := text.map toLower

/-- Nothing is left to fold in a folded text. -/
theorem folded_folded (text : Bytes) : folded (folded text) = folded text := by
  have twice (c : Byte) : toLower (toLower c) = toLower c := by
    revert c
    apply byte_cases
    decide
  rw [folded, folded, List.map_map]
  exact List.map_congr_left fun c _ => twice c

/-- Two strings agree up to the case of their letters. -/
def caselessEqual (a b : Bytes) : Bool := a.map toLower == b.map toLower

/-- This order is the sign of `strcmp`. -/
def strcmp (a b : Bytes) : Ordering := List.compareLex compare a b

/-- This order is the sign of `strcasecmp`. -/
def strcasecmp (a b : Bytes) : Ordering := List.compareLex (compareOn toLower) a b

/-- The first string starts the second, as `strncmp` over its length tells. -/
def startsWith (prefixed s : Bytes) : Bool := prefixed.isPrefixOf s

/-- These are the values of a C `int`, reached by wrapping. -/
def toInt32 (value : Int) : Int := (value + 2 ^ 31) % 2 ^ 32 - 2 ^ 31

/-- This is `atoi`: white space, one sign, then digits, saturated as a `long`. -/
def atoi (s : Bytes) : Int :=
  let text := s.dropWhile isSpace
  let digits := match text with
    | c :: rest => if c == chr '-' || c == chr '+' then rest else text
    | [] => []
  let size : Nat := (digits.takeWhile isDigit).foldl
    (fun value c => 10 * value + (c - chr '0').toNat) 0
  if text.head? = some (chr '-') then toInt32 (-min (size : Int) (2 ^ 63))
  else toInt32 (min (size : Int) (2 ^ 63 - 1))

/-- Two interned strings are one pointer exactly when their bytes agree. -/
abbrev LwcString := Bytes

/-- The hash reads its bytes as signed characters. -/
def signExtend (c : Byte) : UInt32 := if c < 128 then c.toUInt32 else c.toUInt32 + 0xffffff00

/-- This is `lwc__calculate_hash`. -/
def lwcStringHashValue (s : LwcString) : UInt32 :=
  s.foldl (fun z c => (z * 0x01000193) ^^^ signExtend c) 0x811c9dc5

/-- This is `lwc_error_ok`. -/
def lwcErrorOk : Nat := 0

/-- The macro returns its error code and stores the match apart from it. -/
def lwcStringIsequal (a b : LwcString) : Nat × Bool := (lwcErrorOk, a == b)

/-- The caseless macro has the same two results. -/
def lwcStringCaselessIsequal (a b : LwcString) : Nat × Bool := (lwcErrorOk, caselessEqual a b)

/-- This is `nserror`. -/
inductive Nserror where
  | ok | unknown | nomem | noFetchHandler | notFound | notDirectory | saveFailed | cloneFailed
  | initFailed | bmpError | gifError | icoError | pngError | spriteError | svgError
  | badEncoding | needData | encodingChange | badParameter | invalid | boxConvert | stopped
  | dom | css | cssBase | badUrl | badContent | frameDepth | permission | nospace | badSize
  | notImplemented | badRedirect | badAuth | badCerts | timeout
  deriving DecidableEq, Repr

/-- The end of a line. -/
def LF : Byte := 10

/-- At most so many bytes are taken, up to the end of the line. -/
def splitLine : Nat → Bytes → Bytes × Bytes
  | 0, file => ([], file)
  | _ + 1, [] => ([], [])
  | size + 1, c :: file =>
      if c = LF then ([c], file)
      else
        let (line, rest) := splitLine size file
        (c :: line, rest)

/-- This is `fgets` with a buffer of this size, and the rest of the file. -/
def fgets (size : Nat) (file : Bytes) : Option (Bytes × Bytes) :=
  if file = [] then none else some (splitLine (size - 1) file)

/-- The last character of a line is cut off, as the files are read here. -/
def chomp (line : Bytes) : Bytes := (cstr line).dropLast

/-- This is the conversion `%d` or `%i`. -/
def printInt (value : Int) : Bytes :=
  if value < 0 then str "-" ++ str (toString value.natAbs) else str (toString value.natAbs)

end Neosurf
