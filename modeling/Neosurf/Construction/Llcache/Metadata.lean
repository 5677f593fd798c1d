/-
This file models `llcache_process_metadata` and `llcache_serialise_metadata`, which read and write
what the backing store keeps about an object.
-/

import Neosurf.Construction.Base64
import Neosurf.Construction.Llcache.Object
import Neosurf.Construction.Bytes

namespace Neosurf.Llcache

/-- A read fails with an error, or runs past the end of the metadata, which C does not define. -/
inductive MetadataFailure where
  | error (res : Nserror)
  | undefined
  deriving DecidableEq, Repr

abbrev MetadataResult (α : Type) := Except MetadataFailure α

/-- A line ends at its NUL. -/
def nextLine (data : Bytes) : MetadataResult (Bytes × Bytes) :=
  if 0 ∈ data then .ok (cstr data, data.drop ((cstr data).length + 1)) else .error .undefined

/-- A scan for an integer skips white space and takes one sign. -/
def scanDigits (line : Bytes) : Option (Bool × Nat) :=
  let text := line.dropWhile isSpace
  let negative := text.head? == some (chr '-')
  let digits := if negative ∨ text.head? = some (chr '+') then text.drop 1 else text
  let run := digits.takeWhile isDigit
  if run = [] then none
  else some (negative, run.foldl (fun value c => 10 * value + (c - chr '0').toNat) 0)

/-- This is `sscanf` for a `size_t`. Too large a number saturates, a negative one wraps. -/
def scanSize (line : Bytes) : MetadataResult Nat :=
  match scanDigits line with
  | none => .error (.error .invalid)
  | some (negative, value) =>
      if 2 ^ 64 ≤ value then .ok (2 ^ 64 - 1)
      else if negative then .ok ((2 ^ 64 - value) % 2 ^ 64)
      else .ok value

/-- This is `sscanf` for an `int`, saturated as a `long`. -/
def scanInt (line : Bytes) : MetadataResult Int :=
  match scanDigits line with
  | none => .error (.error .invalid)
  | some (negative, value) =>
      if negative then .ok (toInt32 (-min (value : Int) (2 ^ 63)))
      else .ok (toInt32 (min (value : Int) (2 ^ 63 - 1)))

/-- The calendar of the C library ends with this second. -/
def LAST_SECOND : Nat := 67768036191676799

/-- This is `nsc_snptimet`: the seconds that the line starts with. -/
def snptimet (line : Bytes) : MetadataResult Int :=
  let run := line.takeWhile isDigit
  let value := run.foldl (fun value c => 10 * value + (c - chr '0').toNat) 0
  if run = [] ∨ LAST_SECOND < value then .error (.error .badParameter) else .ok (value : Int)

/-- These are the values of the first six lines. -/
structure Front where
  sourceLength : Nat
  requestTime : Int
  responseTime : Int
  completionTime : Int
  numHeaders : Nat
  deriving DecidableEq, Repr

/-- The first line is the URL that the metadata refers to. -/
def checkUrl (junk : Nsurl.Buff) (url : Nsurl) (line : Bytes) : MetadataResult Unit :=
  if line.length < 7 then .error (.error .invalid)
  else
    match Nsurl.nsurlCreate junk line with
    | .error .badUrl => .error (.error .badUrl)
    | .error .undefined => .error .undefined
    | .ok metadataurl =>
        if Nsurl.compare url metadataurl Nsurl.COMPLETE then .ok () else .error (.error .badUrl)

/-- The first six lines do not touch the object. -/
def readFront (junk : Nsurl.Buff) (url : Nsurl) (metadata : Bytes) :
    MetadataResult (Front × Bytes) := do
  let (line, rest) ← nextLine metadata
  checkUrl junk url line
  let (line, rest) ← nextLine rest
  let sourceLength ← scanSize line
  let (line, rest) ← nextLine rest
  let requestTime ← snptimet line
  let (line, rest) ← nextLine rest
  let responseTime ← snptimet line
  let (line, rest) ← nextLine rest
  let completionTime ← snptimet line
  let (line, rest) ← nextLine rest
  let numHeaders ← scanSize line
  .ok ({ sourceLength, requestTime, responseTime, completionTime, numHeaders }, rest)

/-- The header lines follow. -/
def readLines : Nat → Bytes → MetadataResult (List Bytes × Bytes)
  | 0, data => .ok ([], data)
  | count + 1, data => do
      let (line, rest) ← nextLine data
      let (lines, rest) ← readLines count rest
      .ok (line :: lines, rest)

def MAX_CERT_DEPTH : Nat := 10

/-- An error code that is not known counts as unknown. -/
def certErr : Int → SslCertErr
  | 0 => .ok
  | 2 => .badIssuer
  | 3 => .badSig
  | 4 => .tooYoung
  | 5 => .tooOld
  | 6 => .selfSigned
  | 7 => .chainSelfSigned
  | 8 => .revoked
  | 9 => .hostnameMismatch
  | _ => .unknown

/-- Every certificate has two lines, its error code and its data. -/
def readCertificates : Nat → Bytes → MetadataResult CertChain
  | 0, _ => .ok []
  | count + 1, data => do
      let (line, rest) ← nextLine data
      let errcode ← scanInt line
      let (line, rest) ← nextLine rest
      let der := if line = [] then none else some (Base64.decode line)
      let chain ← readCertificates count rest
      .ok ({ err := certErr errcode, der } :: chain)

/-- The certificates end the metadata, or are left out. -/
def readChain (data : Bytes) : MetadataResult (Option CertChain) :=
  if data = [] then .ok none
  else do
    let (line, rest) ← nextLine data
    let count ← scanSize line
    if count = 0 then .ok none
    else if MAX_CERT_DEPTH < count then .error (.error .invalid)
    else do
      let chain ← readCertificates count rest
      .ok (some chain)

/-- A complete parse updates the object. -/
def updateObject (object : LlcacheObject) (metadatalen : Nat) (front : Front)
    (chain : Option CertChain) : LlcacheObject :=
  { object with
    sourceLen := front.sourceLength
    sourceAlloc := metadatalen
    cache := { object.cache with
      reqTime := front.requestTime
      resTime := front.responseTime
      finTime := front.completionTime }
    chain
    storeState := .disc }

/-- A failed read leaves the object as it is by then. A read past the end has no
defined result. -/
def fail (failure : MetadataFailure) (object : LlcacheObject) : Option (Nserror × LlcacheObject) :=
  match failure with
  | .error res => some (res, object)
  | .undefined => none

/-- This is `llcache_process_metadata` on what the backing store answers. -/
def llcacheProcessMetadata (clock : Clock) (junk : Nsurl.Buff)
    (stored : Except Nserror Bytes) (object : LlcacheObject) :
    Option (Nserror × LlcacheObject) :=
  match stored with
  | .error res => some (res, object)
  | .ok metadata =>
      match readFront junk object.url metadata with
      | .error failure => fail failure object
      | .ok (front, rest) =>
          match readLines front.numHeaders rest with
          | .error failure => fail failure object
          | .ok (lines, rest) =>
              let object := lines.foldl (processHeader clock) object
              match readChain rest with
              | .error failure => fail failure object
              | .ok chain => some (.ok, updateObject object metadata.length front chain)

/-- The buffer holds what was written, and has so much space left. -/
structure Buffer where
  written : Bytes
  datasize : Nat
  deriving DecidableEq, Repr

/-- This is the space for a number, with its NUL. -/
def NUMBER_SPACE : Nat := 10 + 1

/-- The size of the buffer is computed before anything is written. -/
def metadataAllocSize (object : LlcacheObject) : Nat :=
  5 * NUMBER_SPACE +
    (object.headers.map fun header =>
      (cstr header.name).length + 1 + ((cstr header.value).length + 1)).sum +
    (object.url.length + 1) + NUMBER_SPACE +
    ((object.chain.getD []).map fun cert =>
      NUMBER_SPACE + 4 * (((cert.der.getD []).length + 2) / 3)).sum

/-- A line is written with its NUL, or overflows the buffer. -/
def putLine (line : Bytes) (buffer : Buffer) : Option Buffer :=
  if buffer.datasize < line.length + 1 then none
  else some { written := buffer.written ++ line ++ [0]
              datasize := buffer.datasize - (line.length + 1) }

/-- The calendar of the C library starts with this second. -/
def FIRST_SECOND : Int := -67768040609740800

/-- This is `nsc_sntimet` and the check of its answer. A time outside the calendar writes
nothing, and no NUL either. -/
def putTime (time : Int) (buffer : Buffer) : Option Buffer :=
  if time < FIRST_SECOND ∨ (LAST_SECOND : Int) < time then some buffer
  else putLine (printInt time) buffer

/-- The code of a certificate's error. -/
def SslCertErr.code : SslCertErr → Int
  | .ok => 0
  | .unknown => 1
  | .badIssuer => 2
  | .badSig => 3
  | .tooYoung => 4
  | .tooOld => 5
  | .selfSigned => 6
  | .chainSelfSigned => 7
  | .revoked => 8
  | .hostnameMismatch => 9
  | .certMissing => 10

/-- Every certificate has two lines. -/
def putCertificate (cert : Certificate) (buffer : Buffer) : Option Buffer := do
  let buffer ← putLine (printInt cert.err.code) buffer
  putLine (Base64.encode (cert.der.getD [])) buffer

/-- All items are written, one after the other. -/
def putAll {α : Type} (put : α → Buffer → Option Buffer) (items : List α) (buffer : Buffer) :
    Option Buffer :=
  items.foldlM (fun buffer item => put item buffer) buffer

/-- The line of a header. -/
def headerLine (header : Header) : Bytes := cstr header.name ++ str ":" ++ cstr header.value

/-- This is `llcache_serialise_metadata`, with `none` for its error. -/
def llcacheSerialiseMetadata (object : LlcacheObject) : Option Bytes := do
  let chain := object.chain.getD []
  let buffer : Buffer := { written := [], datasize := metadataAllocSize object }
  let buffer ← putLine (Nsurl.access object.url) buffer
  let buffer ← putLine (printInt object.sourceLen) buffer
  let buffer ← putTime object.cache.reqTime buffer
  let buffer ← putTime object.cache.resTime buffer
  let buffer ← putTime object.cache.finTime buffer
  let buffer ← putLine (printInt object.headers.length) buffer
  let buffer ← putAll (fun header => putLine (headerLine header)) object.headers buffer
  let buffer ← putLine (printInt chain.length) buffer
  let buffer ← putAll putCertificate chain buffer
  some buffer.written

end Neosurf.Llcache
