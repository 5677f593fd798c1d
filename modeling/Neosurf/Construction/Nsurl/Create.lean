/-
This file models how components are serialised, `nsurl_create` and `nsurl_join`, how far they write
into their buffers, and the operations that derive one URL from another. These write the string by
hand instead of serialising the components.
-/

import Neosurf.Construction.Idna
import Neosurf.Construction.Nsurl.Markers

namespace Neosurf.Nsurl

/-- These flags select what `nsurl__get_string` writes. -/
structure StringFlags where
  scheme : Bool
  schemePunctuation : Bool
  authorityPunctuation : Bool
  username : Bool
  password : Bool
  credentialsPunctuation : Bool
  host : Bool
  port : Bool
  path : Bool
  queryPunctuation : Bool
  query : Bool
  fragmentPunctuation : Bool
  fragment : Bool
  deriving DecidableEq, Repr

/-- A path asks for an authority when it starts with a slash. -/
def slashPath (c : NsurlComponents) : Bool :=
  match c.path with
  | some path => byteAt path 0 == chr '/'
  | none => false

/-- The required parts that are present, and the punctuation that they span.
The C code compares its flag word with single flags in the order used here. -/
def getStringFlags (c : NsurlComponents) (parts : Parts) : StringFlags :=
  let scheme := c.scheme.isSome && wants parts SCHEME
  let username := c.username.isSome && wants parts USERNAME
  let password := c.password.isSome && wants parts PASSWORD
  let host := c.host.isSome && wants parts HOST
  let port := c.port.isSome && wants parts PORT
  let path := c.path.isSome && wants parts PATH
  let query := c.query.isSome && wants parts QUERY
  let fragment := c.fragment.isSome && wants parts FRAGMENT
  let schemePunctuation := scheme && decide (SCHEME < parts)
  let authorityPunctuation := scheme &&
    (schemePunctuation || username || password || host || port || path || query || fragment) &&
    slashPath c
  let credentialsPunctuation := (username || password) && host
  let beforeQuery := scheme || schemePunctuation || authorityPunctuation || username ||
    password || credentialsPunctuation || host || port || path
  let queryPunctuation := beforeQuery && query
  let fragmentPunctuation := (beforeQuery || queryPunctuation || query) && fragment
  { scheme, schemePunctuation, authorityPunctuation, username, password,
    credentialsPunctuation, host, port, path, queryPunctuation, query,
    fragmentPunctuation, fragment }

/-- A selected piece of this size counts toward the length. -/
def pieceLength (selected : Bool) (size : Nat) : Nat := if selected then size else 0

/-- This is the length `url_l` that `nsurl__get_string_data` adds up. -/
def getStringLength (c : NsurlComponents) (flags : StringFlags) : Nat :=
  pieceLength flags.scheme (c.scheme.getD []).length +
  pieceLength flags.username (c.username.getD []).length +
  pieceLength flags.password (1 + (c.password.getD []).length) +
  pieceLength flags.host (c.host.getD []).length +
  pieceLength flags.port (1 + (c.port.getD []).length) +
  pieceLength flags.path (c.path.getD []).length +
  pieceLength flags.query (c.query.getD []).length +
  pieceLength flags.fragment (c.fragment.getD []).length +
  pieceLength flags.schemePunctuation 1 +
  pieceLength flags.authorityPunctuation 2 +
  pieceLength flags.credentialsPunctuation 1 +
  pieceLength flags.queryPunctuation 1 +
  pieceLength flags.fragmentPunctuation 1

/-- A selected piece contributes its text. -/
def piece (selected : Bool) (text : Bytes) : Bytes := if selected then text else []

/-- This is `nsurl__get_string`. -/
def getString (c : NsurlComponents) (flags : StringFlags) : Bytes :=
  piece flags.scheme (c.scheme.getD []) ++
  piece flags.schemePunctuation (str ":") ++
  piece flags.authorityPunctuation (str "//") ++
  piece flags.username (c.username.getD []) ++
  piece flags.password (str ":" ++ c.password.getD []) ++
  piece flags.credentialsPunctuation (str "@") ++
  piece flags.host (c.host.getD []) ++
  piece flags.port (str ":" ++ c.port.getD []) ++
  piece flags.path (c.path.getD []) ++
  piece flags.query (piece flags.queryPunctuation (str "?") ++ c.query.getD []) ++
  piece flags.fragment (piece flags.fragmentPunctuation (str "#") ++ c.fragment.getD [])

/-- This is `nsurl__components_to_string`, with its string and its length. -/
def componentsToString (c : NsurlComponents) (parts : Parts) :
    Except NsurlFailure (Bytes × Nat) :=
  let flags := getStringFlags c parts
  let urlL := getStringLength c flags
  if urlL = 0 then .error .badUrl else .ok (getString c flags, urlL)

/-- This is `nsurl_get`. -/
def get (url : Nsurl) (parts : Parts) : Except NsurlFailure (Bytes × Nat) :=
  componentsToString url.components parts

/-- This is `nsurl_get_utf8` with its string and `url_l`, which counts the NUL, and
`none` for its errors. The parts are joined by `snprintf`. -/
def getUtf8 (url : Nsurl) : Option (Bytes × Nat) :=
  match url.components.host with
  | none => (get url WITH_FRAGMENT).toOption
  | some host => do
      let idnaHost ← idnaDecode host host.length
      let (scheme, schemeLen) ← (get url (SCHEME ||| CREDENTIALS)).toOption
      let (path, pathLen) ← (get url (PORT ||| PATH ||| QUERY ||| FRAGMENT)).toOption
      let urlL := schemeLen + idnaHost.length + pathLen + 1
      some ((cstr scheme ++ cstr idnaHost ++ cstr path).take (urlL - 1), urlL)

/-- This is `digit2uppercase_hex`. -/
def digit2UppercaseHex (digit : Byte) : Byte :=
  if digit < 10 then chr '0' + digit else chr 'A' + (digit - 10)

/-- These are the characters that RFC 3986 never escapes. -/
def isUnreserved (c : Byte) : Bool :=
  isAlphanumerical c || c == chr '-' || c == chr '.' || c == chr '_' || c == chr '~'

/-- These characters stay as they are in a normalised section. -/
def isNoEscape (c : Byte) : Bool :=
  isAlphanumerical c || (str "!#$&'()*+,-./:;=?@[]_|~").contains c

/-- A byte is escaped as a percent sign and two digits. -/
def escape (c : Byte) : Bytes :=
  [chr '%', digit2UppercaseHex (c >>> 4), digit2UppercaseHex (c &&& 0xf)]

/-- One character of the scheme or host is lower-cased, another one is escaped. -/
def normaliseChar (caseless : Bool) (c : Byte) : Bytes :=
  if caseless then [toLower c] else if isNoEscape c then [c] else escape c

/-- This is the first stage of `nsurl__create_from_section`. The scheme and the host
decode every escape, and the other sections only unreserved characters. -/
def normalise (caseless : Bool) : Bytes → Bytes
  | [] => []
  | c :: h :: l :: rest =>
      if c = chr '%' then
        match hexToValue2Chars h l with
        | none => c :: normalise caseless (h :: l :: rest)
        | some value =>
            if !caseless && !isUnreserved value then c :: h :: l :: normalise caseless rest
            else value :: normalise caseless rest
      else normaliseChar caseless c ++ normalise caseless (h :: l :: rest)
  | c :: rest => normaliseChar caseless c ++ normalise caseless rest

/-- The work buffer holds arbitrary bytes beyond what was written. -/
abbrev Buff := Nat → Byte

/-- A section leaves its normal form and a NUL at the start of the buffer. -/
def writeNorm (buff : Buff) (norm : Bytes) : Buff := fun i =>
  if i < norm.length then byteAt norm i else if i = norm.length then 0 else buff i

/-- This is `lwc_intern_string` on a part of the buffer. An offset before the buffer,
or a length that wrapped below zero, has no defined result. -/
def internBuff (buff : Buff) (offset length : Int) : Except NsurlFailure LwcString :=
  if offset < 0 ∨ length < 0 then .error .undefined
  else .ok ((List.range length.toNat).map fun i => buff (offset.toNat + i))

/-- A section is cut out of the string. -/
def slice (urlS : Bytes) (first last : Nat) : Bytes := (urlS.take last).drop first

/-- No scheme means http. -/
def createScheme (urlS : Bytes) (pegs : UrlMarkers) (buff : Buff) (url : NsurlComponents) :
    NsurlComponents × Buff :=
  let norm := normalise true (slice urlS pegs.start pegs.schemeEnd)
  ({ url with scheme := some (if norm = [] then str "http" else norm) }, writeNorm buff norm)

/-- The markers of the raw text split the normalised credentials. -/
def createCredentials (urlS : Bytes) (pegs : UrlMarkers) (buff : Buff) (url : NsurlComponents) :
    Except NsurlFailure (NsurlComponents × Buff) :=
  let norm := normalise false (slice urlS pegs.authority pegs.atSign)
  let buff := writeNorm buff norm
  let absent := { url with username := none, password := none }
  if url.schemeType = .file then .ok (absent, buff)
  else if norm = [] ∨ byteAt norm 0 = chr ':' then .ok (absent, buff)
  else
    let colon : Int := pegs.colonFirst - pegs.authority
    if pegs.colonFirst ≠ pegs.authority ∧ pegs.colonFirst + 1 < pegs.atSign then do
      let password ← internBuff buff (colon + 1) (pegs.atSign - pegs.colonFirst - 1)
      let username ← internBuff buff 0 (norm.length - (pegs.atSign - pegs.colonFirst))
      .ok ({ url with username := some username, password := some password }, buff)
    else do
      let stripped : Int :=
        if pegs.colonFirst ≠ pegs.authority ∧ pegs.atSign = pegs.colonFirst + 1 then 1 else 0
      let username ← internBuff buff 0 (norm.length - stripped)
      .ok ({ url with username := some username, password := none }, buff)

/-- One colon may separate the port: the only one, or the last one. -/
def portColon (pegs : UrlMarkers) : Option Nat :=
  if pegs.atSign < pegs.colonFirst ∧ pegs.colonLast = pegs.authority then some pegs.colonFirst
  else if pegs.colonLast ≠ pegs.authority then some pegs.colonLast
  else none

/-- Every character after the next one is a digit. The walk may start before the buffer. -/
def portDigits (norm : Bytes) (colon : Int) : Except NsurlFailure Bool :=
  if colon + 1 < 0 then .error .undefined
  else .ok ((norm.drop (colon + 1).toNat).all isDigit)

/-- The redundant port of http is `80`. -/
def isDefaultPort (url : NsurlComponents) (norm : Bytes) (offset : Int) :
    Except NsurlFailure Bool :=
  if url.scheme ≠ none ∧ url.schemeType = .http ∧ (norm.length : Int) - offset = 2 then
    if offset < 0 then .error .undefined
    else .ok (byteAt norm offset.toNat == chr '8' && byteAt norm (offset.toNat + 1) == chr '0')
  else .ok false

/-- The port, and the length that is left for the host. A colon before the host
wraps the offset, and the C comparison then finds no space for a port. -/
def createPort (url : NsurlComponents) (pegs : UrlMarkers) (buff : Buff) (norm : Bytes) :
    Except NsurlFailure (Option LwcString × Int) := do
  match portColon pegs with
  | none => .ok (none, norm.length)
  | some position =>
      let colon : Int := position - pegs.atSign
      let digits ← portDigits norm colon
      if digits then
        let skip : Int := if pegs.atSign = pegs.authority then 1 else 0
        let offset := colon + skip
        let redundant ← isDefaultPort url norm offset
        let length := colon - (1 - skip)
        if redundant ∨ offset < 0 ∨ (norm.length : Int) ≤ offset then .ok (none, length)
        else do
          let port ← internBuff buff offset (norm.length - offset)
          .ok (some port, length)
      else .ok (none, norm.length)

/-- The host starts after the separator, unless there are no credentials. -/
def hostStart (urlS : Bytes) (pegs : UrlMarkers) : Nat :=
  if pegs.atSign = pegs.authority ∧ byteAt urlS pegs.atSign ≠ chr '@' then pegs.atSign
  else pegs.atSign + 1

/-- A host that IDNA rejects is interned as it stands. -/
def createHost (urlS : Bytes) (pegs : UrlMarkers) (buff : Buff) (url : NsurlComponents) :
    Except NsurlFailure NsurlComponents :=
  let norm := normalise true (slice urlS (hostStart urlS pegs) pegs.path)
  let buff := writeNorm buff norm
  if url.schemeType = .file ∨ norm = [] then .ok { url with host := none, port := none }
  else do
    let (port, length) ← createPort url pegs buff norm
    match idnaEncode norm length with
    | some host => .ok { url with host := some host, port }
    | none => do
        let host ← internBuff buff 0 length
        .ok { url with host := some host, port }

/-- An empty path becomes a slash after a host or in a file URL. -/
def createPath (text : Bytes) (url : NsurlComponents) : NsurlComponents :=
  let norm := normalise false text
  let needsPath := (url.host.isSome && url.schemeType != .mailto) || url.schemeType == .file
  { url with path := if norm ≠ [] then some norm else if needsPath then some (str "/") else none }

/-- The query leaves out its question mark, and an empty one is absent. -/
def createQuery (urlS : Bytes) (pegs : UrlMarkers) (url : NsurlComponents) : NsurlComponents :=
  let first := if byteAt urlS pegs.query ≠ chr '?' then pegs.query else pegs.query + 1
  let norm := normalise false (slice urlS first pegs.fragment)
  { url with query := if norm ≠ [] then some norm else none }

/-- The fragment leaves out its hash sign, and an empty one is absent. -/
def createFragment (urlS : Bytes) (pegs : UrlMarkers) (url : NsurlComponents) :
    NsurlComponents :=
  let first := if byteAt urlS pegs.fragment ≠ chr '#' then pegs.fragment else pegs.fragment + 1
  let norm := normalise false (slice urlS first pegs.stop)
  { url with fragment := if norm ≠ [] then some norm else none }

/-- The string and the hash are made from the finished components. -/
def build (c : NsurlComponents) : Except NsurlFailure Nsurl := do
  let (string, length) ← componentsToString c WITH_FRAGMENT
  .ok { components := c, hash := calcHash c, length, string }

/-- The sections of one URL string, in the order of `nsurl_create`. -/
def createComponents (junk : Buff) (urlS : Bytes) : Except NsurlFailure NsurlComponents := do
  let m := getStringMarkers urlS false
  let (c, buff) := createScheme urlS m junk { schemeType := m.schemeType }
  let (c, buff) ← createCredentials urlS m buff c
  let c ← createHost urlS m buff c
  .ok (createFragment urlS m (createQuery urlS m (createPath (slice urlS m.path m.query) c)))

/-- An http or https URL needs a host. -/
def needsHost (c : NsurlComponents) : Bool :=
  c.scheme == some (str "http") || c.scheme == some (str "https")

/-- This is `nsurl_create`. The junk is what the fresh buffer happens to hold. -/
def nsurlCreate (junk : Buff) (urlS : Bytes) : Except NsurlFailure Nsurl := do
  let c ← createComponents junk (cstr urlS)
  if needsHost c ∧ c.host = none then .error .badUrl else build c

/-- The prefix up to and with the last slash. -/
def directory (path : Bytes) : Bytes :=
  (path.reverse.dropWhile (· ≠ chr '/')).reverse

/-- The output loses its last segment and the slash before it. -/
def dropSegment (output : Bytes) : Bytes := (output.dropWhile (· ≠ chr '/')).drop 1

/-- The loop of `nsurl__remove_dot_segments`. The output is kept in reverse order,
and every round consumes a character of the path. -/
def removeDots : Nat → Bytes → Bytes → Bytes
  | 0, _, output => output
  | rounds + 1, path, output =>
      let c (i : Nat) := byteAt path i
      if path = [] then output
      else if c 0 = chr '.' ∧ c 1 = chr '.' ∧ c 2 = chr '/' then
        removeDots rounds (path.drop 3) output
      else if c 0 = chr '.' ∧ c 1 = chr '/' then
        removeDots rounds (path.drop 2) output
      else if c 0 = chr '/' ∧ c 1 = chr '.' ∧ c 2 = chr '/' then
        removeDots rounds (path.drop 2) output
      else if c 0 = chr '/' ∧ c 1 = chr '.' ∧ path.length = 2 then chr '/' :: output
      else if c 0 = chr '/' ∧ c 1 = chr '.' ∧ c 2 = chr '.' ∧ c 3 = chr '/' then
        removeDots rounds (path.drop 3) (dropSegment output)
      else if c 0 = chr '/' ∧ c 1 = chr '.' ∧ c 2 = chr '.' ∧ path.length = 3 then
        output.dropWhile (· ≠ chr '/')
      else
        let segment := (path.drop 1).takeWhile (· ≠ chr '/')
        removeDots rounds (path.drop (1 + segment.length)) (segment.reverse ++ c 0 :: output)

/-- This is `nsurl__remove_dot_segments`. -/
def removeDotSegments (path : Bytes) : Bytes := (removeDots path.length path []).reverse

/-- These are the parts of the base that a joined URL takes over. -/
structure JoinedParts where
  baseScheme : Bool
  baseAuthority : Bool
  basePath : Bool
  mergedPath : Bool
  baseQuery : Bool
  deriving DecidableEq, Repr

/-- The sections that the reference leaves out come from the base. -/
def joinedParts (rel : Bytes) (m : UrlMarkers) : JoinedParts :=
  let baseScheme := m.schemeEnd == m.start
  let baseAuthority := baseScheme && m.path == m.authority
  let basePath := baseAuthority && m.query == m.path
  { baseScheme, baseAuthority, basePath
    mergedPath := baseAuthority && !basePath && byteAt rel m.path != chr '/'
    baseQuery := basePath && m.fragment == m.query }

/-- The scheme, or the scheme of the base. -/
def joinScheme (junk : Buff) (base : NsurlComponents) (rel : Bytes) (m : UrlMarkers) :
    NsurlComponents × Buff :=
  if (joinedParts rel m).baseScheme then
    ({ scheme := base.scheme, schemeType := base.schemeType }, junk)
  else createScheme rel m junk { schemeType := m.schemeType }

/-- The credentials, host and port, or those of the base. -/
def joinAuthority (base : NsurlComponents) (rel : Bytes) (m : UrlMarkers)
    (state : NsurlComponents × Buff) : Except NsurlFailure NsurlComponents :=
  if (joinedParts rel m).baseAuthority then
    .ok { state.1 with
      username := base.username, password := base.password, host := base.host, port := base.port }
  else do
    let (c, buff) ← createCredentials rel m state.2 state.1
    createHost rel m buff c

/-- The path without dot segments, or that of the base. Merging with an absent
base path reads through a NULL pointer. -/
def joinPath (base : NsurlComponents) (rel : Bytes) (m : UrlMarkers) (c : NsurlComponents) :
    Except NsurlFailure NsurlComponents :=
  let parts := joinedParts rel m
  let relPath := slice rel m.path m.query
  if parts.basePath then .ok { c with path := base.path }
  else if parts.mergedPath then
    match base.path with
    | none => .error .undefined
    | some path => .ok (createPath (removeDotSegments (directory path ++ relPath)) c)
  else .ok (createPath (removeDotSegments relPath) c)

/-- The query, or that of the base. -/
def joinQuery (base : NsurlComponents) (rel : Bytes) (m : UrlMarkers) (c : NsurlComponents) :
    NsurlComponents :=
  if (joinedParts rel m).baseQuery then { c with query := base.query } else createQuery rel m c

/-- These are the components of `nsurl_join`. -/
def joinComponents (junk : Buff) (base : NsurlComponents) (rel : Bytes) :
    Except NsurlFailure NsurlComponents := do
  let m := getStringMarkers rel true
  let c ← joinAuthority base rel m (joinScheme junk base rel m)
  let c ← joinPath base rel m c
  .ok (createFragment rel m (joinQuery base rel m c))

/-- This is `nsurl_join`. -/
def nsurlJoin (junk : Buff) (base : Nsurl) (rel : Bytes) : Except NsurlFailure Nsurl := do
  let c ← joinComponents junk base.components (cstr rel)
  build c

/-- The size of an absent component is zero. -/
def size (c : Option LwcString) : Nat := (c.getD []).length

/-- A query or fragment takes its mark as well. -/
def markedSize (c : Option LwcString) : Nat := if c.isSome then 1 + size c else 0

/-- The new object gets these components, this string and this length. -/
def derive (c : NsurlComponents) (string : Bytes) (length : Nat) : Nsurl :=
  { components := c, hash := calcHash c, length, string }

/-- This is `nsurl_defragment`. -/
def defragment (url : Nsurl) : Nsurl :=
  let c := url.components
  if c.fragment = none then url
  else
    let length := url.length - markedSize c.fragment
    derive { c with fragment := none } (url.string.take length) length

/-- This is `nsurl_refragment`. -/
def refragment (url : Nsurl) (frag : LwcString) : Nsurl :=
  let c := url.components
  let baseLen := url.length - markedSize c.fragment
  derive { c with fragment := some frag } (url.string.take baseLen ++ str "#" ++ frag)
    (baseLen + 1 + frag.length)

/-- This is `nsurl_replace_query`. An empty query is absent. -/
def replaceQuery (url : Nsurl) (query : Bytes) : Nsurl :=
  let c := url.components
  let query := cstr query
  let baseLen := url.length - markedSize c.query - markedSize c.fragment
  let queryText := if query = [] then [] else str "?" ++ query
  let fragText := match c.fragment with
    | some frag => str "#" ++ frag
    | none => []
  derive { c with query := if query = [] then none else some query }
    (url.string.take baseLen ++ queryText ++ fragText)
    (query.length + (if query = [] then 0 else 1) + markedSize c.fragment + baseLen)

/-- The scheme type that `nsurl_replace_scheme` computes. Its list has no data scheme. -/
def replacedSchemeType (scheme : LwcString) : SchemeType :=
  if (lwcStringCaselessIsequal scheme (str "http")).2 then .http
  else if (lwcStringCaselessIsequal scheme (str "https")).2 then .https
  else if (lwcStringCaselessIsequal scheme (str "file")).2 then .file
  else if (lwcStringCaselessIsequal scheme (str "ftp")).2 then .ftp
  else if (lwcStringCaselessIsequal scheme (str "mailto")).2 then .mailto
  else .other

/-- This is `nsurl_replace_scheme`. -/
def replaceScheme (url : Nsurl) (scheme : LwcString) : Nsurl :=
  let c := url.components
  let baseLen := url.length - size c.scheme
  derive { c with scheme := some scheme, schemeType := replacedSchemeType scheme }
    (scheme ++ (url.string.drop (url.length - baseLen)).take baseLen) (baseLen + scheme.length)

/-- The length of the parent's path. The path of a root is kept. -/
def parentPathLen (path : Bytes) : Nat :=
  if 1 < path.length then
    let trimmed := if path.getLast? = some (chr '/') then path.dropLast else path
    (directory trimmed).length
  else path.length

/-- This is `nsurl_parent`. The length keeps the place of the question mark. -/
def parent (url : Nsurl) : Nsurl :=
  let c := url.components
  let path := c.path.getD []
  let newPathLen := parentPathLen path
  let length := url.length - size c.query - markedSize c.fragment - (path.length - newPathLen)
  derive
    { c with
      path := if path = [] then none else some (path.take newPathLen)
      query := none
      fragment := none }
    (url.string.take length) length

/-- The output of `nsurl__remove_dot_segments` never reaches farther than this. The
branches are those of `removeDots`. -/
def removeDotsPeak : Nat → Bytes → Bytes → Nat
  | 0, _, output => output.length
  | rounds + 1, path, output =>
      let c (i : Nat) := byteAt path i
      if path = [] then output.length
      else if c 0 = chr '.' ∧ c 1 = chr '.' ∧ c 2 = chr '/' then
        removeDotsPeak rounds (path.drop 3) output
      else if c 0 = chr '.' ∧ c 1 = chr '/' then
        removeDotsPeak rounds (path.drop 2) output
      else if c 0 = chr '/' ∧ c 1 = chr '.' ∧ c 2 = chr '/' then
        removeDotsPeak rounds (path.drop 2) output
      else if c 0 = chr '/' ∧ c 1 = chr '.' ∧ path.length = 2 then output.length + 1
      else if c 0 = chr '/' ∧ c 1 = chr '.' ∧ c 2 = chr '.' ∧ c 3 = chr '/' then
        max output.length (removeDotsPeak rounds (path.drop 3) (dropSegment output))
      else if c 0 = chr '/' ∧ c 1 = chr '.' ∧ c 2 = chr '.' ∧ path.length = 3 then output.length
      else
        let segment := (path.drop 1).takeWhile (· ≠ chr '/')
        removeDotsPeak rounds (path.drop (1 + segment.length)) (segment.reverse ++ c 0 :: output)

/-- So many bytes of its output `nsurl__remove_dot_segments` writes at some time. -/
def removeDotSegmentsWritten (path : Bytes) : Nat := removeDotsPeak path.length path []

/-- This is `nsurl__get_longest_section`. The markers are in order, so no difference wraps. -/
def getLongestSection (m : UrlMarkers) : Nat :=
  max (m.schemeEnd - m.start) (max (m.atSign - m.authority) (max (m.path - m.atSign)
    (max (m.query - m.path) (max (m.fragment - m.query) (m.stop - m.fragment)))))

/-- The first stage of `nsurl__create_from_section` writes the normal form and a NUL. -/
def sectionWritten (caseless : Bool) (text : Bytes) : Nat := (normalise caseless text).length + 1

/-- The scheme starts at the start of the buffer. -/
def schemeWritten (urlS : Bytes) (m : UrlMarkers) : Nat :=
  sectionWritten true (slice urlS m.start m.schemeEnd)

/-- The credentials and the host each start at the start of the buffer. -/
def authorityWritten (urlS : Bytes) (m : UrlMarkers) : Nat :=
  max (sectionWritten false (slice urlS m.authority m.atSign))
    (sectionWritten true (slice urlS (hostStart urlS m) m.path))

/-- The query starts at the start of the buffer. -/
def queryWritten (urlS : Bytes) (m : UrlMarkers) : Nat :=
  let first := if byteAt urlS m.query ≠ chr '?' then m.query else m.query + 1
  sectionWritten false (slice urlS first m.fragment)

/-- The fragment starts at the start of the buffer. -/
def fragmentWritten (urlS : Bytes) (m : UrlMarkers) : Nat :=
  let first := if byteAt urlS m.fragment ≠ chr '#' then m.fragment else m.fragment + 1
  sectionWritten false (slice urlS first m.stop)

/-- So far `nsurl_create` writes into its buffer. -/
def createWritten (urlS : Bytes) : Nat :=
  let m := getStringMarkers (cstr urlS) false
  max (schemeWritten (cstr urlS) m) (max (authorityWritten (cstr urlS) m)
    (max (sectionWritten false (slice (cstr urlS) m.path m.query))
      (max (queryWritten (cstr urlS) m) (fragmentWritten (cstr urlS) m))))

/-- So many bytes `nsurl_create` allocates. -/
def createAllocated (urlS : Bytes) : Nat :=
  getLongestSection (getStringMarkers (cstr urlS) false) * 3 + 1

/-- A path stands at the start of the buffer with its NUL, then comes what is left of
it without dot segments, and last the normal form of that. -/
def joinPathWritten (path : Bytes) : Nat :=
  max (path.length + 1 + removeDotSegmentsWritten path)
    (path.length + 1 + (removeDotSegments path).length +
      sectionWritten false (removeDotSegments path))

/-- So far `nsurl_join` writes into its buffer. Without a base path, the merge writes nothing. -/
def joinWritten (base : NsurlComponents) (rel : Bytes) : Nat :=
  let rel := cstr rel
  let m := getStringMarkers rel true
  let parts := joinedParts rel m
  let relPath := slice rel m.path m.query
  max (if parts.baseScheme then 0 else schemeWritten rel m)
    (max (if parts.baseAuthority then 0 else authorityWritten rel m)
      (max (if parts.basePath then 0
          else if parts.mergedPath then
            match base.path with
            | none => 0
            | some path => joinPathWritten (directory path ++ relPath)
          else joinPathWritten relPath)
        (max (if parts.baseQuery then 0 else queryWritten rel m) (fragmentWritten rel m))))

/-- This is the length of the base path, if there is one. -/
def basePathLength (base : NsurlComponents) : Nat := (base.path.getD []).length

/-- So many bytes `nsurl_join` allocates. -/
def joinAllocated (base : NsurlComponents) (rel : Bytes) : Nat :=
  let rel := cstr rel
  let m := getStringMarkers rel true
  let merged := if (joinedParts rel m).mergedPath then basePathLength base else 0
  (getLongestSection m + merged) * 4 + (m.query - m.path + basePathLength base) + 5

end Neosurf.Nsurl
