/-
This file models the URL object of `utils/nsurl` and the scan that pegs out the sections of a URL
string.
-/

import Neosurf.Construction.Bytes

namespace Neosurf

/-- This is `enum nsurl_scheme_type`. -/
inductive SchemeType where
  | other | http | https | file | ftp | mailto | data
  deriving DecidableEq, Repr

/-- A component is absent when its C pointer is NULL. -/
structure NsurlComponents where
  scheme : Option LwcString := none
  username : Option LwcString := none
  password : Option LwcString := none
  host : Option LwcString := none
  port : Option LwcString := none
  path : Option LwcString := none
  query : Option LwcString := none
  fragment : Option LwcString := none
  schemeType : SchemeType := .other
  deriving DecidableEq, Repr

/-- This is `struct nsurl` without its reference count. -/
structure Nsurl where
  components : NsurlComponents
  hash : UInt32
  length : Nat
  string : Bytes
  deriving DecidableEq, Repr

/-- A call answers with an error code, or C gives it no defined result. -/
inductive NsurlFailure where
  | badUrl
  | undefined
  deriving DecidableEq, Repr

namespace Nsurl

/-- A set of parts is the bit mask `nsurl_component`. -/
abbrev Parts := Nat

def SCHEME : Parts := 1
def USERNAME : Parts := 2
def PASSWORD : Parts := 4
def CREDENTIALS : Parts := USERNAME ||| PASSWORD
def HOST : Parts := 8
def PORT : Parts := 16
def AUTHORITY : Parts := CREDENTIALS ||| HOST ||| PORT
def PATH : Parts := 32
def QUERY : Parts := 64
def COMPLETE : Parts := SCHEME ||| AUTHORITY ||| PATH ||| QUERY
def FRAGMENT : Parts := 128
def WITH_FRAGMENT : Parts := COMPLETE ||| FRAGMENT

/-- The mask asks for this part. -/
def wants (parts part : Parts) : Bool := parts &&& part != 0

/-- Two absent components agree, and an absent one differs from a present one. -/
def componentCompare (c1 c2 : Option LwcString) : Bool :=
  match c1, c2 with
  | some a, some b => (lwcStringIsequal a b).2
  | none, none => true
  | _, _ => false

theorem componentCompare_iff {a b : Option LwcString} : componentCompare a b = true ↔ a = b := by
  cases a <;> cases b <;> simp [componentCompare, lwcStringIsequal]

/-- This is `nsurl_compare`. -/
def compare (url1 url2 : Nsurl) (parts : Parts) : Bool :=
  let c1 := url1.components
  let c2 := url2.components
  (!wants parts PATH || componentCompare c1.path c2.path) &&
  (!wants parts HOST || componentCompare c1.host c2.host) &&
  (!wants parts QUERY || componentCompare c1.query c2.query) &&
  (!wants parts SCHEME || componentCompare c1.scheme c2.scheme) &&
  (!wants parts USERNAME || componentCompare c1.username c2.username) &&
  (!wants parts PASSWORD || componentCompare c1.password c2.password) &&
  (!wants parts PORT || componentCompare c1.port c2.port) &&
  (!wants parts FRAGMENT || componentCompare c1.fragment c2.fragment)

/-- The C library reads the stored string through this pointer. -/
def access (url : Nsurl) : Bytes := cstr url.string

/-- An absent component leaves the hash as it is. -/
def hashComponent (c : Option LwcString) : UInt32 :=
  match c with
  | some s => lwcStringHashValue s
  | none => 0

/-- This is `nsurl__calc_hash`: the fragment does not count. -/
def calcHash (c : NsurlComponents) : UInt32 :=
  hashComponent c.scheme ^^^ hashComponent c.username ^^^ hashComponent c.password ^^^
    hashComponent c.host ^^^ hashComponent c.port ^^^ hashComponent c.path ^^^
    hashComponent c.query

end Nsurl
end Neosurf

namespace Neosurf.Nsurl

/-- This is `struct url_markers`: offsets into the URL string. -/
structure UrlMarkers where
  start : Nat
  schemeEnd : Nat
  authority : Nat
  colonFirst : Nat
  atSign : Nat
  colonLast : Nat
  path : Nat
  query : Nat
  fragment : Nat
  stop : Nat
  schemeType : SchemeType
  deriving DecidableEq, Repr

/-- These characters may continue a scheme. -/
def isSchemeChar (c : Byte) : Bool :=
  isAlphanumerical c || c == chr '+' || c == chr '-' || c == chr '.'

/-- These characters end an authority. -/
def endsAuthority (c : Byte) : Bool := c == chr '/' || c == chr '?' || c == chr '#'

/-- These characters end a path. -/
def endsPath (c : Byte) : Bool := c == chr '?' || c == chr '#'

/-- The scan knows these scheme names in either case. -/
def schemeTypeOf (name : Bytes) : SchemeType :=
  if caselessEqual name (str "http") then .http
  else if caselessEqual name (str "https") then .https
  else if caselessEqual name (str "file") then .file
  else if caselessEqual name (str "ftp") then .ftp
  else if caselessEqual name (str "mailto") then .mailto
  else if caselessEqual name (str "data") then .data
  else .other

/-- A loop counts the characters that it walks over. -/
def run (p : Byte → Bool) (text : Bytes) : Nat := (text.takeWhile p).length

/-- The scan is between sections with this position, flag and marker set. -/
structure Scan where
  pos : Nat
  isHttp : Bool
  marker : UrlMarkers
  deriving DecidableEq, Repr

/-- All markers of the authority start at one position. -/
def UrlMarkers.startAuthority (marker : UrlMarkers) (pos : Nat) : UrlMarkers :=
  { marker with authority := pos, colonFirst := pos, atSign := pos, colonLast := pos, path := pos }

/-- The first part looks for a scheme. -/
def scanScheme (urlS : Bytes) (joining : Bool) (marker : UrlMarkers) : Scan :=
  if isAlpha (byteAt urlS marker.start) then
    let pos := marker.start + 1 + run isSchemeChar (urlS.drop (marker.start + 1))
    if byteAt urlS pos == chr ':' then
      let name := (urlS.take pos).drop marker.start
      let schemeType := schemeTypeOf name
      { pos := pos + 1
        isHttp := schemeType == .http || schemeType == .https
        marker := { marker with schemeEnd := pos, schemeType }.startAuthority (pos + 1) }
    else if joining then { pos, isHttp := false, marker }
    else { pos, isHttp := true, marker := { marker with schemeType := .http } }
  else { pos := marker.start, isHttp := false, marker }

/-- One character of the authority moves at most one marker. -/
def stepAuthority (c : Byte) (pos : Nat) (marker : UrlMarkers) : UrlMarkers :=
  if marker.schemeType ≠ .mailto ∧ c = chr ':' ∧ marker.colonFirst = marker.authority then
    { marker with colonFirst := pos }
  else if marker.schemeType ≠ .mailto ∧ c = chr ':' ∧ marker.colonFirst ≠ marker.authority then
    { marker with colonLast := pos }
  else if c = chr '@' ∧ marker.atSign = marker.authority then
    { marker with atSign := pos }
  else marker

/-- The loop over the authority stops before a slash, query or fragment. -/
def walkAuthority : Bytes → Nat → UrlMarkers → Nat × UrlMarkers
  | [], pos, marker => (pos, marker)
  | c :: rest, pos, marker =>
      if endsAuthority c then (pos, marker)
      else walkAuthority rest (pos + 1) (stepAuthority c pos marker)

/-- Two slashes, an http URL or a mailto URL start an authority. -/
def startsAuthority (urlS : Bytes) (joining : Bool) (scan : Scan) : Bool :=
  (byteAt urlS scan.pos == chr '/' && byteAt urlS (scan.pos + 1) == chr '/') ||
  (scan.isHttp && ((joining && byteAt urlS scan.pos == chr '/') ||
    (!joining && scan.marker.schemeEnd != scan.marker.start))) ||
  scan.marker.schemeType == .mailto

/-- An http URL may have any number of slashes here, another URL at most two. -/
def skipSlashes (urlS : Bytes) (scan : Scan) : Nat :=
  let slashes := run (· == chr '/') (urlS.drop scan.pos)
  scan.pos + if scan.isHttp then slashes else min slashes 2

/-- The second part looks for an authority. -/
def scanAuthority (urlS : Bytes) (joining : Bool) (scan : Scan) : Scan :=
  if startsAuthority urlS joining scan then
    let pos := skipSlashes urlS scan
    let marker := if byteAt urlS scan.pos == chr '/' then scan.marker.startAuthority pos
      else scan.marker
    let walked := walkAuthority (urlS.drop pos) pos marker
    { scan with pos := walked.1, marker := { walked.2 with path := walked.1 } }
  else if (scan.pos = urlS.length ∨ byteAt urlS scan.pos = chr '/') ∧ joining = false ∧
      scan.isHttp = true then
    { scan with marker := { scan.marker with path := scan.pos } }
  else scan

/-- The path ends before a query, a fragment or the end. -/
def scanPath (urlS : Bytes) (scan : Scan) : Nat :=
  let c := byteAt urlS scan.pos
  if scan.pos < urlS.length ∧ (c = chr '/' ∨
      (scan.marker.path = scan.marker.authority ∧ endsPath c = false)) then
    scan.pos + 1 + run (fun c => !endsPath c) (urlS.drop (scan.pos + 1))
  else scan.pos

/-- The query ends before a fragment or the end. -/
def scanQuery (urlS : Bytes) (pos : Nat) : Nat :=
  if byteAt urlS pos = chr '?' then
    pos + 1 + run (· != chr '#') (urlS.drop (pos + 1))
  else pos

/-- White space at the end does not belong to the URL. -/
def endOf (urlS : Bytes) : Nat := urlS.length - run isSpace urlS.reverse

/-- No section passes the end, except for markers that cannot. -/
def clamp (stop : Nat) (marker : UrlMarkers) : UrlMarkers :=
  { marker with
    fragment := min marker.fragment stop
    query := min marker.query stop
    path := min marker.path stop
    colonLast := min marker.colonLast stop
    atSign := min marker.atSign stop }

/-- All markers start where the white space at the start ends. -/
def UrlMarkers.first (start : Nat) : UrlMarkers :=
  { start, schemeEnd := start, authority := start, colonFirst := start, atSign := start,
    colonLast := start, path := start, query := 0, fragment := 0, stop := 0,
    schemeType := .other }

/-- This is `nsurl__get_string_markers` on a string without NUL. -/
def getStringMarkers (urlS : Bytes) (joining : Bool) : UrlMarkers :=
  let start := run isSpace urlS
  let marker := UrlMarkers.first start
  if start = urlS.length then { marker with query := start, fragment := start, stop := start }
  else
    let scan := scanAuthority urlS joining (scanScheme urlS joining marker)
    let query := scanPath urlS scan
    let fragment := scanQuery urlS query
    let stop := endOf urlS
    let full := { scan.marker with query, fragment, stop }
    if stop < urlS.length then clamp stop full else full

end Neosurf.Nsurl
