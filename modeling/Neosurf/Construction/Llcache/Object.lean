/-
This file models the objects of the low-level cache, the headers they receive, and how long their
responses may be used.
-/

import Neosurf.Construction.Http
import Neosurf.Construction.Nsurl.Create

namespace Neosurf.Llcache

/-- This is `llcache_fetch_state`. -/
inductive FetchState where
  | init | headers | data | complete
  deriving DecidableEq, Repr

/-- This is `llcache_validate`. -/
inductive Validate where
  | fresh | always | once
  deriving DecidableEq, Repr

/-- This is `llcache_store_state`. -/
inductive StoreState where
  | ram | disc
  deriving DecidableEq, Repr

def INVALID_AGE : Int := -1

/-- This is `llcache_cache_control`, as memory full of zeros. -/
structure CacheControl where
  reqTime : Int := 0
  resTime : Int := 0
  finTime : Int := 0
  date : Int := 0
  expires : Int := 0
  age : Int := 0
  maxAge : Int := 0
  noCache : Validate := .fresh
  etag : Option Bytes := none
  lastModified : Int := 0
  deriving DecidableEq, Repr

/-- This is `llcache_header`. -/
structure Header where
  name : Bytes
  value : Bytes
  deriving DecidableEq, Repr

/-- This is `ssl_cert_err`. -/
inductive SslCertErr where
  | ok | unknown | badIssuer | badSig | tooYoung | tooOld | selfSigned | chainSelfSigned
  | revoked | hostnameMismatch | certMissing
  deriving DecidableEq, Repr

/-- One certificate of `struct cert_chain`. -/
structure Certificate where
  err : SslCertErr
  der : Option Bytes
  deriving DecidableEq, Repr

/-- The number of certificates is the depth of `struct cert_chain`. -/
abbrev CertChain := List Certificate

/-- This is `llcache_object_user`, with the number of its handle. An abort inside an iteration
moves the handle to another user. -/
structure ObjectUser where
  handle : Nat
  iteratorTarget : Bool := false
  queuedForDelete : Bool := false
  handleMoved : Bool := false
  deriving DecidableEq, Repr

/-- This is `llcache_post_data`. -/
inductive PostData where
  | urlEncoded (urlenc : Bytes)
  | multipart (data : List (Bytes × Bytes))
  deriving DecidableEq, Repr

/-- A running fetch answers with this response code. -/
structure Fetch where
  httpCode : Int
  deriving DecidableEq, Repr

/-- This is `llcache_fetch_ctx`. -/
structure FetchCtx where
  flags : UInt32 := 0
  referer : Option Nsurl := none
  post : Option PostData := none
  fetch : Option Fetch := none
  state : FetchState := .init
  redirectCount : UInt32 := 0
  retriesRemaining : UInt32 := 0
  hstsInUse : Bool := false
  triedWithAuth : Bool := false
  triedWithTlsDowngrade : Bool := false
  taintedTls : Bool := false
  deriving DecidableEq, Repr

/-- Pointers to objects are numbers. -/
abbrev ObjectId := Nat

/-- This is `struct llcache_object`. The count of the objects that it is a candidate for does
not wrap. -/
structure LlcacheObject where
  url : Nsurl
  sourceData : Option Bytes := none
  sourceLen : Nat := 0
  sourceAlloc : Nat := 0
  chain : Option CertChain := none
  storeState : StoreState := .ram
  users : List ObjectUser := []
  fetch : FetchCtx := {}
  cache : CacheControl := {}
  candidate : Option ObjectId := none
  candidateCount : Nat := 0
  headers : List Header := []
  lastUsed : Int := 0
  deriving DecidableEq, Repr

/-- The cache reads the clock, and leaves dates to `curl_getdate`, which answers -1 for
a text that is no date. -/
structure Clock where
  now : Int
  curlGetdate : Bytes → Int

/-- This is `nsc_strntimet`. -/
def Clock.strntimet (clock : Clock) (text : Bytes) : Option Int :=
  if clock.curlGetdate text = -1 then none else some (clock.curlGetdate text)

/-- This is `llcache_invalidate_cache_control_data`. -/
def invalidCacheControl : CacheControl := { age := INVALID_AGE, maxAge := INVALID_AGE }

/-- These characters count as white space around a name and a value. -/
def isHeaderSpace (c : Byte) : Bool := c == chr ' ' || c == 9 || c == 13 || c == 10

/-- A text loses the white space at its end. -/
def stripTrailing (text : Bytes) : Bytes := (text.reverse.dropWhile isHeaderSpace).reverse

/-- This is `llcache_fetch_split_header`. White space before the name shifts the text
but not its length, so that the value keeps the white space at its end. -/
def splitHeader (data : Bytes) : Header :=
  let text := data.dropWhile isHeaderSpace
  let beforeColon := text.takeWhile (· ≠ chr ':')
  let afterColon := (text.drop (beforeColon.length + 1)).dropWhile isHeaderSpace
  { name := stripTrailing beforeColon
    value := if text = data then stripTrailing afterColon else afterColon }

/-- This is `llcache_fetch_parse_cache_control`. -/
def parseCacheControl (cache : CacheControl) (value : Bytes) : CacheControl :=
  match Http.parseCacheControl value with
  | none => cache
  | some cc =>
      let noCache := if cc.noCache ∨ cc.noStore then .always else cache.noCache
      let maxAge := match cc.maxAge with
        | some maxAge => toInt32 maxAge.toNat
        | none => cache.maxAge
      { cache with noCache, maxAge }

/-- This is `llcache_fetch_header_cache_control`, which only fails without memory. -/
def headerCacheControl (clock : Clock) (cache : CacheControl) (header : Header) : CacheControl :=
  let named (text : String) : Bool := strcasecmp header.name (str text) == .eq
  match header.name.length with
  | 3 =>
      if named "Age" ∧ isDigit (byteAt header.value 0) then
        { cache with age := atoi header.value }
      else cache
  | 4 =>
      if named "Date" then
        match clock.strntimet header.value with
        | some date => { cache with date }
        | none => cache
      else if named "ETag" then { cache with etag := some header.value }
      else cache
  | 7 =>
      if named "Expires" then
        { cache with expires := (clock.strntimet header.value).getD 0x7fffffff }
      else cache
  | 13 =>
      if named "Cache-Control" then parseCacheControl cache header.value
      else if named "Last-Modified" then
        match clock.strntimet header.value with
        | some lastModified => { cache with lastModified }
        | none => cache
      else cache
  | _ => cache

/-- A status line starts the headers of a response. -/
def isStatusLine (data : Bytes) : Bool := startsWith (str "HTTP/") data

/-- A new response resets the cache data and the headers, but not the request time. -/
def restartResponse (object : LlcacheObject) : LlcacheObject :=
  { object with
    cache := { invalidCacheControl with reqTime := object.cache.reqTime }
    headers := [] }

/-- The first header sets the response time. -/
def setResponseTime (clock : Clock) (object : LlcacheObject) : LlcacheObject :=
  if object.cache.resTime = 0 then
    { object with cache := { object.cache with resTime := clock.now } }
  else object

/-- This is `llcache_fetch_process_header`, which only fails without memory. -/
def processHeader (clock : Clock) (object : LlcacheObject) (data : Bytes) : LlcacheObject :=
  let object := if isStatusLine data then restartResponse object else object
  let object := setResponseTime clock object
  let header := splitHeader data
  if header.name = [] then object
  else
    { object with
      cache := headerCacheControl clock object.cache header
      headers := object.headers ++ [header] }

/-- A byte of a line with its NUL. Nothing is there behind the NUL. -/
def lineByte (line : Bytes) (i : Nat) : Option Byte := (line ++ [0])[i]?

/-- This is the loop that strips white space from the end of the value. The data begin behind the
white space before the name, but the length is that of the line. -/
def valueLength (line : Bytes) (start : Nat) : Nat → Option Nat
  | 0 => some 0
  | len + 1 => do
      let c ← lineByte line (start + len)
      if isHeaderSpace c then valueLength line start len else some (len + 1)

/-- This is the difference of two lengths as a `size_t`. -/
def sizeDifference (a b : Nat) : Nat := if b ≤ a then a - b else 2 ^ 64 - (b - a)

/-- This is `llcache_fetch_split_header`. There is no result where it reads outside the line. -/
def readHeader (line : Bytes) : Option Header :=
  let start := (line.takeWhile isHeaderSpace).length
  let data := line.drop start
  let colon := (data.takeWhile (· ≠ chr ':')).length
  let name := stripTrailing (data.take colon)
  if colon = data.length then some { name, value := [] }
  else do
    let value := colon + 1 + ((data.drop (colon + 1)).takeWhile isHeaderSpace).length
    let len ← valueLength line start line.length
    some { name, value := (data.drop value).take (sizeDifference len value) }

/-- This is `llcache_object_rfc2616_remaining_lifetime`. Every age becomes a C `int`. -/
def remainingLifetime (now : Int) (cd : CacheControl) : Int :=
  let apparentAge := toInt32 (max 0 (cd.resTime - cd.date))
  let receivedAge := max apparentAge (if cd.age = INVALID_AGE then 0 else cd.age)
  let currentAge := toInt32 (receivedAge + (cd.resTime - cd.reqTime + now - cd.resTime))
  let freshnessLifetime :=
    if cd.maxAge ≠ INVALID_AGE then cd.maxAge
    else if cd.expires ≠ 0 then toInt32 (cd.expires - cd.date)
    else if cd.lastModified ≠ 0 then toInt32 ((now - cd.lastModified).tdiv 10)
    else 0
  if cd.noCache = .fresh ∧ currentAge < freshnessLifetime then freshnessLifetime - currentAge
  else 0

/-- This is `llcache_object_is_fresh`. -/
def isFresh (now : Int) (object : LlcacheObject) : Bool :=
  object.cache.noCache == .fresh &&
    (decide (0 < remainingLifetime now object.cache) || object.fetch.state != .complete)

/-- What the destination holds after `llcache_object_clone_cache_data`. -/
def cloneCacheData (source destination : CacheControl) : CacheControl :=
  { reqTime := source.reqTime
    resTime := source.resTime
    finTime := source.finTime
    date := if source.date ≠ 0 then source.date else destination.date
    expires := if source.expires ≠ 0 then source.expires else destination.expires
    age := if source.age ≠ INVALID_AGE then source.age else destination.age
    maxAge := if source.maxAge ≠ INVALID_AGE then source.maxAge else destination.maxAge
    noCache := if source.noCache ≠ .fresh then source.noCache else destination.noCache
    etag := if source.etag ≠ none then source.etag else destination.etag
    lastModified := if source.lastModified ≠ 0 then source.lastModified
      else destination.lastModified }

/-- This is `llcache_object_cache_update`. -/
def cacheUpdate (now : Int) (cache : CacheControl) : CacheControl :=
  if cache.date = 0 then { cache with date := now } else cache

/-- The object of a failed fetch has no cache data. -/
def invalidateCacheControl (object : LlcacheObject) : LlcacheObject :=
  { object with cache := invalidCacheControl }

end Neosurf.Llcache
