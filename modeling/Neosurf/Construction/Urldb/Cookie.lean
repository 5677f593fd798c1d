/-
This file models the cookie record of `content/urldb.c`, the parser of Set-Cookie headers
and the text of Cookie headers.
-/

import Neosurf.Construction.Nsurl.Markers

namespace Neosurf.Urldb

def COOKIE_NETSCAPE : Nat := 0

def COOKIE_RFC2965 : Nat := 2

/-- This is `struct cookie_internal_data` without its links and its time of use. -/
structure Cookie where
  name : Bytes
  value : Bytes
  valueWasQuoted : Bool := false
  comment : Option Bytes := none
  domainFromSet : Bool := false
  domain : Bytes
  pathFromSet : Bool := false
  path : Bytes
  expires : Int := -1
  secure : Bool := false
  httpOnly : Bool := false
  version : Nat := 0
  deriving DecidableEq, Repr

/-- The clock, the parser of dates, which answers -1 for a text that is no date, the list
of public suffixes, and the tests for the text of an IPv4 and an IPv6 address. -/
structure Environment where
  now : Int
  curlGetdate : Bytes → Int
  isPublicSuffix : Bytes → Bool
  inetAton : Bytes → Bool
  inetPton6 : Bytes → Bool

/-- While it is parsed, a cookie may lack its name, domain and path. -/
structure Draft where
  name : Option (Bytes × Bytes × Bool) := none
  comment : Option Bytes := none
  domain : Option Bytes := none
  path : Option Bytes := none
  expires : Int := -1
  secure : Bool := false
  httpOnly : Bool := false
  version : Nat := 0
  deriving DecidableEq, Repr

/-- These characters are white space around names and values. -/
def isBlank (c : Byte) : Bool := c == chr ' ' || c == 9

/-- This is `urldb_parse_avpair`. The loops over the ends start at the terminator, so
that only white space at the start is stripped. -/
def parseAvpair (env : Environment) (c : Draft) (n v : Bytes) (wasQuoted : Bool) : Draft :=
  let n := n.dropWhile isBlank
  let v := v.dropWhile isBlank
  let named (text : String) : Bool := strcasecmp n (str text) == .eq
  if c.comment = none ∧ named "Comment" then { c with comment := some v }
  else if c.domain = none ∧ named "Domain" then
    if byteAt v 0 = chr '.' then { c with domain := some v } else c
  else if named "Max-Age" then
    { c with expires := if atoi v = 0 then 0 else env.now + atoi v }
  else if c.path = none ∧ named "Path" then { c with path := some v }
  else if named "Version" then { c with version := (atoi v % 2 ^ 32).toNat }
  else if named "Expires" then
    let date := env.curlGetdate (v.dropWhile fun c => !isDigit c)
    { c with expires := if date = -1 then 0x7fffffff else date }
  else if named "Secure" then { c with secure := true }
  else if named "HttpOnly" then { c with httpOnly := true }
  else if c.name = none then { c with name := some (n, v, wasQuoted) }
  else c

/-- These are the local variables of `urldb_parse_cookie`. -/
structure ParseState where
  draft : Draft := {}
  name : Bytes := []
  value : Bytes := []
  inValue : Bool := false
  hadValueData : Bool := false
  valueVerbatim : Bool := false
  quoted : Bool := false
  wasQuoted : Bool := false
  deriving DecidableEq, Repr

/-- The buffers have space for so many bytes and a NUL. -/
def NAME_SPACE : Nat := 1023

def VALUE_SPACE : Nat := 4095

/-- The tokens that were read make an attribute. -/
def ParseState.flush (env : Environment) (s : ParseState) : ParseState :=
  { draft := parseAvpair env s.draft s.name s.value s.wasQuoted, quoted := s.quoted }

/-- A character goes to the name or the value, which are cut silently. -/
def ParseState.push (s : ParseState) (c : Byte) : ParseState :=
  if s.inValue then
    if s.value.length < VALUE_SPACE then { s with value := s.value ++ [c] } else s
  else if s.name.length < NAME_SPACE then { s with name := s.name ++ [c] } else s

/-- A comma ends the cookie when an equals sign stands before the next semicolon, or
before the last two characters when there is none. -/
def commaEnds (rest : Bytes) : Bool :=
  if rest.contains (chr ';') then (rest.takeWhile (· ≠ chr ';')).contains (chr '=')
  else if rest.length < 2 then true
  else (rest.take (rest.length - 2)).contains (chr '=')

/-- The last part of the loop body stops at a comma that ends the cookie. -/
def commaOrText (s : ParseState) (c : Byte) (rest : Bytes) : ParseState × Bool :=
  if s.quoted = false ∧ c = chr ',' ∧ commaEnds rest then (s, true) else (s.push c, false)

/-- An attribute separator is looked for first. -/
def separatorOrText (s : ParseState) (c : Byte) (rest : Bytes) : ParseState × Bool :=
  if s.quoted = false ∧ s.inValue = false ∧ c = chr '=' then ({ s with inValue := true }, false)
  else commaOrText s c rest

/-- White space before a value is skipped, and its first character tells whether it
may be quoted. -/
def startValue (s : ParseState) (c : Byte) : Option ParseState :=
  if s.inValue ∧ s.hadValueData = false then
    if isBlank c then none
    else some { s with hadValueData := true, valueVerbatim := s.valueVerbatim || c != chr '"' }
  else some s

/-- The loop body for a character that is no line end. The answer tells whether the
cookie ends. A character after a quoted value is processed again. -/
def parseChar (env : Environment) (prev : Option Byte) (s : ParseState) (c : Byte)
    (rest : Bytes) : ParseState × Bool :=
  match startValue s c with
  | none => (s, false)
  | some s =>
      if s.inValue ∧ s.valueVerbatim = false ∧ c = chr '"' ∧ prev ≠ some (chr '\\') then
        ({ s with wasQuoted := s.quoted, quoted := !s.quoted }, false)
      else if s.quoted = false ∧ s.inValue = false ∧ c = chr '=' then
        ({ s with inValue := true }, false)
      else if s.quoted = false ∧ (s.wasQuoted ∨ c = chr ';') then
        if c = chr ';' then (s.flush env, false) else separatorOrText (s.flush env) c rest
      else commaOrText s c rest

/-- The loop of `urldb_parse_cookie` and the text where it stops. -/
def parseLoop (env : Environment) (prev : Option Byte) (s : ParseState) :
    Bytes → ParseState × Bytes
  | [] => (s, [])
  | c :: rest =>
      if c = 13 ∧ byteAt rest 0 = 10 then
        (if s.quoted then { s with value := [] } else s, c :: rest)
      else if c = 13 ∨ c = 10 then parseLoop env (some c) s rest
      else
        let (s, ends) := parseChar env prev s c rest
        if ends then (s, rest) else parseLoop env (some c) s rest

/-- The default path is the directory of the URL's path. -/
def defaultPath (path : Bytes) : Bytes :=
  if path.contains (chr '/') then
    let directory := (path.reverse.dropWhile (· ≠ chr '/')).drop 1
    if directory = [] then str "/" else directory.reverse
  else path

/-- A draft is a cookie once its defaults are fixed. -/
def Draft.complete (c : Draft) (url : Nsurl) : Option Cookie := do
  let (name, value, valueWasQuoted) ← c.name
  let domain ← match c.domain with
    | some domain => some domain
    | none => url.components.host.map cstr
  let path ← match c.path with
    | some path => some path
    | none => url.components.path.map defaultPath
  some
    { name, value, valueWasQuoted, comment := c.comment, domainFromSet := c.domain.isSome, domain
      pathFromSet := c.path.isSome, path, expires := c.expires, secure := c.secure
      httpOnly := c.httpOnly, version := c.version }

/-- This is `urldb_parse_cookie`, with the text where it stops. Without a name, a host or
a path there is no cookie, which the caller treats alike. -/
def parseCookie (env : Environment) (url : Nsurl) (cookie : Bytes) : Option (Cookie × Bytes) := do
  let (s, rest) := parseLoop env none {} cookie
  let c ← (s.flush env).draft.complete url
  some (c, rest)

/-- A value with one of these characters is quoted. -/
def separators : Bytes := str "()<>@,;:\\\"/[]?=\x7b\x7d \t"

def quote (text : Bytes) : Bytes := str "\"" ++ text ++ str "\""

def quoteSeparated (text : Bytes) : Bytes :=
  if text.any separators.contains then quote text else text

/-- The value of a cookie is quoted when it was, or when a new-style header needs it. -/
def cookieValue (version : Nat) (c : Cookie) : Bytes :=
  if c.valueWasQuoted then quote c.value
  else if version = COOKIE_NETSCAPE then c.value
  else quoteSeparated c.value

/-- This is the text that `urldb_concat_cookie` appends. -/
def concatCookie (version : Nat) (c : Cookie) : Bytes :=
  str "; " ++ c.name ++ str "=" ++ cookieValue version c ++
    if version = COOKIE_NETSCAPE then []
    else
      (if c.pathFromSet then str "; $Path=" ++ quoteSeparated c.path else []) ++
      (if c.domainFromSet then str "; $Domain=" ++ quoteSeparated c.domain else [])

/-- The header takes the lowest version of its cookies. -/
def lowestVersion (matched : List Cookie) : Nat :=
  matched.foldl (fun version c => if c.version < version then c.version else version)
    COOKIE_RFC2965

/-- The decimal digits of a number. -/
def decimal (n : Nat) : Bytes := str (toString n)

/-- The last part of `urldb_get_cookie` builds the header, unless no cookie matched. -/
def cookieHeader (matched : List Cookie) : Option Bytes :=
  let version := lowestVersion matched
  let pairs := matched.flatMap (concatCookie version)
  if matched = [] then none
  else if version = COOKIE_NETSCAPE then some (pairs.drop 2)
  else some (str "$Version=" ++ decimal version ++ pairs)

/-- This is the buffer of a Cookie header, with the number of bytes from its start that were ever
written. Its sizes fit an `int`. -/
structure CookieBuffer where
  text : Bytes
  used : Nat
  alloc : Nat
  written : Nat
  deriving DecidableEq, Repr

namespace CookieBuffer

/-- The buffer of `urldb_get_cookie` before its first cookie. -/
def initial (version : Nat) : CookieBuffer :=
  let text := if COOKIE_NETSCAPE < version then str "$Version=" ++ decimal version else []
  { text, used := text.length + 1, alloc := 4096, written := text.length + 1 }

/-- A call of `sprintf` writes over the last NUL, and the code adds this size to `used`. -/
def sprintf (text : Bytes) (size : Nat) (buf : CookieBuffer) : CookieBuffer :=
  { buf with
    text := buf.text.take (buf.used - 1) ++ text
    used := buf.used + size
    written := max buf.written (buf.used + text.length) }

/-- A text is written between quotes or without them. -/
def sprintfQuoted (text : Bytes) (quoted : Bool) (buf : CookieBuffer) : CookieBuffer :=
  if quoted then buf.sprintf (quote text) (1 + text.length + 1) else buf.sprintf text text.length

/-- This is `strpbrk` with the separators of `urldb_concat_cookie`. -/
def hasSeparator (text : Bytes) : Bool := text.any separators.contains

/-- The estimate of `urldb_concat_cookie` allows for quotes around the value, the path and the
domain. -/
def maxLen (c : Cookie) : Nat :=
  2 + c.name.length + 1 + c.value.length + 2 +
    (if c.pathFromSet then 8 + c.path.length + 2 else 0) +
    (if c.domainFromSet then 10 + c.domain.length + 2 else 0)

/-- The buffer grows once when the estimate does not fit. -/
def grow (maxLen : Nat) (buf : CookieBuffer) : CookieBuffer :=
  if buf.alloc ≤ buf.used + maxLen then { buf with alloc := buf.alloc + 4096 } else buf

/-- This is `urldb_concat_cookie`, which only fails without memory. -/
def concatCookie (version : Nat) (buf : CookieBuffer) (c : Cookie) : CookieBuffer :=
  let buf := buf.grow (maxLen c)
  let buf := buf.sprintf (str "; " ++ c.name ++ str "=") (2 + c.name.length + 1)
  if version = COOKIE_NETSCAPE then buf.sprintfQuoted c.value c.valueWasQuoted
  else
    let buf := buf.sprintfQuoted c.value (c.valueWasQuoted || hasSeparator c.value)
    let buf :=
      if c.pathFromSet then
        (buf.sprintf (str "; $Path=") 8).sprintfQuoted c.path (hasSeparator c.path)
      else buf
    if c.domainFromSet then
      (buf.sprintf (str "; $Domain=") 10).sprintfQuoted c.domain (hasSeparator c.domain)
    else buf

/-- The buffer after so many of the cookies of a header. -/
def after (matched : List Cookie) (count : Nat) : CookieBuffer :=
  (matched.take count).foldl (concatCookie (lowestVersion matched))
    (initial (lowestVersion matched))

end CookieBuffer

end Neosurf.Urldb
