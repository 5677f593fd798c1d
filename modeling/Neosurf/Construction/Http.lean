/-
This file models the parsers of the Cache-Control and Strict-Transport-Security headers in
`utils/http`, with the token and list parsers that they use.
-/

import Neosurf.Construction.Bytes

namespace Neosurf.Http

/-- A parser answers with its value and the text that is left. -/
abbrev Parser (α : Type) := Bytes → Option (α × Bytes)

/-- This is `http__skip_LWS`. -/
def skipLWS (input : Bytes) : Bytes := input.dropWhile fun c => c == chr ' ' || c == 9

/-- This is `http_is_token_char`. -/
def isTokenChar (c : Byte) : Bool :=
  chr ' ' < c && c ≤ 126 && !(str "()<>@,;:\\\"/[]?={}").contains c

/-- This is `http__parse_token`. -/
def parseToken : Parser LwcString := fun input =>
  let token := input.takeWhile isTokenChar
  if token = [] then none else some (token, input.drop token.length)

/-- These characters may stand between the quotes. -/
def isQuotedText (c : Byte) : Bool :=
  c == 9 || c == 10 || c == 13 || c == chr ' ' || c == chr '!' ||
    (chr '#' ≤ c && c ≤ 126) || 127 < c

/-- This is `http__parse_quoted_string`. -/
def parseQuotedString : Parser LwcString := fun input =>
  if byteAt input 0 = chr '"' then
    let text := (input.drop 1).takeWhile isQuotedText
    let rest := input.drop (1 + text.length)
    if byteAt rest 0 = chr '"' then some (text, rest.drop 1) else none
  else none

/-- This is `http_directive`. -/
structure Directive where
  name : LwcString
  value : Option LwcString
  deriving DecidableEq, Repr

/-- This is `http__parse_directive`. -/
def parseDirective : Parser Directive := fun input => do
  let (name, rest) ← parseToken input
  let pos := skipLWS rest
  if byteAt pos 0 = chr '=' then
    let pos := skipLWS (pos.drop 1)
    let (value, rest) ← if byteAt pos 0 = chr '"' then parseQuotedString pos else parseToken pos
    some ({ name, value := some value }, rest)
  else some ({ name, value := none }, pos)

/-- This is the loop of `http___item_list_parse`. Every round consumes a comma, and an
empty item is permitted. -/
def parseItems : Nat → Bytes → List Directive → List Directive
  | 0, _, list => list
  | rounds + 1, pos, list =>
      if byteAt pos 0 = chr ',' then
        let pos := skipLWS (pos.drop 1)
        match parseDirective pos with
        | some (item, rest) => parseItems rounds (skipLWS rest) (item :: list)
        | none => parseItems rounds pos list
      else list

/-- This is `http_directive_list_find_item`. -/
def findItem (list : List Directive) (name : LwcString) : Option Directive :=
  list.find? fun item => (lwcStringCaselessIsequal name item.name).2

/-- This is `check_duplicates`: every name stands once. -/
def checkDuplicates (list : List Directive) : Bool :=
  list.all fun key =>
    (list.filter fun item => (lwcStringCaselessIsequal key.name item.name).2).length == 1

/-- One digit of an age. A value that wraps below the last one is the largest. -/
def ageDigit (val : UInt32) (c : Byte) : UInt32 :=
  let next := val * 10 + (c - chr '0').toUInt32
  if next < val then 0xffffffff else next

/-- This is `parse_max_age`. -/
def parseMaxAge (value : LwcString) : Option UInt32 :=
  if value ≠ [] ∧ value.all isDigit then some (value.foldl ageDigit 0) else none

/-- This is `http_cache_control`. -/
structure CacheControl where
  maxAge : Option UInt32
  noCache : Bool
  noStore : Bool
  deriving DecidableEq, Repr

/-- This is `http_parse_cache_control`. -/
def parseCacheControl (headerValue : Bytes) : Option CacheControl := do
  let (first, rest) ← parseDirective (skipLWS headerValue)
  let pos := skipLWS rest
  let directives := parseItems pos.length pos [first]
  if checkDuplicates directives then
    some
      { maxAge := do parseMaxAge (← (← findItem directives (str "max-age")).value)
        noCache := (findItem directives (str "no-cache")).isSome
        noStore := (findItem directives (str "no-store")).isSome }
  else none

example : parseCacheControl (str "no-cache, max-age=\"60\"") =
    some { maxAge := some 60, noCache := true, noStore := false } := by decide

/-- This is the loop of `http___item_list_parse` for any separator. -/
def parseItemList (separator : Byte) : Nat → Bytes → List Directive → List Directive
  | 0, _, list => list
  | rounds + 1, pos, list =>
      if byteAt pos 0 = separator then
        let pos := skipLWS (pos.drop 1)
        match parseDirective pos with
        | some (item, rest) => parseItemList separator rounds (skipLWS rest) (item :: list)
        | none => parseItemList separator rounds pos list
      else list

/-- This is `http_strict_transport_security`. -/
structure StrictTransportSecurity where
  maxAge : UInt32
  includeSubDomains : Bool
  deriving DecidableEq, Repr

/-- This is `http_parse_strict_transport_security`. The age is required, and the directive for
subdomains has no value. -/
def parseStrictTransportSecurity (headerValue : Bytes) : Option StrictTransportSecurity := do
  let (first, rest) ← parseDirective (skipLWS headerValue)
  let pos := skipLWS rest
  let directives :=
    if byteAt pos 0 = chr ';' then parseItemList (chr ';') pos.length pos [first] else [first]
  if checkDuplicates directives then
    let maxAge ← parseMaxAge (← (← findItem directives (str "max-age")).value)
    match findItem directives (str "includesubdomains") with
    | none => some { maxAge, includeSubDomains := false }
    | some item =>
        if item.value.isSome then none else some { maxAge, includeSubDomains := true }
  else none

example : parseStrictTransportSecurity (str "max-age=60; includeSubDomains") =
    some { maxAge := 60, includeSubDomains := true } := by decide

end Neosurf.Http
