/-
This file proves what the parsers of `utils/http` read from a max-age, when an object outlives an
Expires header that is no date, and when the lifetime of an object follows the digits of a max-age.
-/

import Neosurf.Construction.Llcache.FetchEvents
import Neosurf.Construction.Urldb.Database
import Neosurf.Proof.Llcache.Metadata
import Neosurf.ToMathlib.Comparing
import Mathlib.Data.List.TakeWhile
import Neosurf.Construction.Http

namespace Neosurf.Http

/-- This is the number that digits stand for. -/
def digitsValue (digits : Bytes) : Nat :=
  digits.foldl (fun value c => 10 * value + (c - chr '0').toNat) 0

/-- A text of digits, and not the empty one. -/
structure IsDigits (digits : Bytes) : Prop where
  all : ∀ c ∈ digits, isDigit c = true
  nonempty : digits ≠ []

/-- This header text has only a max-age. -/
def maxAgeText (digits : Bytes) : Bytes := str "max-age=" ++ digits

/-- A digit is a token character, and neither white space nor a quote. -/
theorem isDigit_plain (c : Byte) : isDigit c = true →
    isTokenChar c = true ∧ (c == chr ' ' || c == 9) = false ∧ c ≠ chr '"' := by
  revert c
  refine byte_cases ?_
  decide

/-- Digits are a token. -/
theorem parseToken_digits {digits : Bytes} (valid : IsDigits digits) :
    parseToken digits = some (digits, []) := by
  have token : digits.takeWhile isTokenChar = digits :=
    List.takeWhile_eq_self_iff.mpr fun c inside => (isDigit_plain c (valid.all c inside)).1
  simp only [parseToken, token, valid.nonempty, if_false, List.drop_length]

theorem skipLWS_digits {digits : Bytes} (valid : IsDigits digits) : skipLWS digits = digits := by
  cases digits with
  | nil => rfl
  | cons c rest =>
      have plain := isDigit_plain c (valid.all c List.mem_cons_self)
      exact List.dropWhile_cons_of_neg (by rw [plain.2.1]; exact Bool.false_ne_true)

/-- The text of a max-age is one directive. -/
theorem parseDirective_maxAgeText {digits : Bytes} (valid : IsDigits digits) :
    parseDirective (skipLWS (maxAgeText digits)) =
      some ({ name := str "max-age", value := some digits }, []) := by
  have unquoted : byteAt digits 0 ≠ chr '"' := by
    cases digits with
    | nil => decide
    | cons c rest =>
        exact (isDigit_plain c (valid.all c List.mem_cons_self)).2.2
  have start : skipLWS (maxAgeText digits) = str "max-age" ++ chr '=' :: digits := rfl
  have name : parseToken (str "max-age" ++ chr '=' :: digits) =
      some (str "max-age", chr '=' :: digits) := rfl
  have sign : skipLWS (chr '=' :: digits) = chr '=' :: digits := rfl
  have first : byteAt (chr '=' :: digits) 0 = chr '=' := rfl
  have behind : skipLWS (List.drop 1 (chr '=' :: digits)) = digits := skipLWS_digits valid
  simp only [parseDirective, start, name, sign, first, behind, unquoted, parseToken_digits valid,
    Option.bind_eq_bind, Option.bind_some, if_true, if_false]

/-- A list with this directive alone answers with it, and with no other one. -/
theorem findItem_maxAge (digits : Bytes) (name : LwcString) :
    findItem [{ name := str "max-age", value := some digits }] name =
      if caselessEqual name (str "max-age") then some { name := str "max-age", value := some digits }
      else none := by
  rw [findItem, List.find?_singleton]
  rfl

theorem parseMaxAge_digits {digits : Bytes} (valid : IsDigits digits) :
    parseMaxAge digits = some (digits.foldl ageDigit 0) :=
  if_pos ⟨valid.nonempty, List.all_eq_true.mpr valid.all⟩

/-- A Cache-Control header with a max-age alone reads its digits. -/
theorem parseCacheControl_maxAgeText {digits : Bytes} (valid : IsDigits digits) :
    parseCacheControl (maxAgeText digits) =
      some { maxAge := some (digits.foldl ageDigit 0), noCache := false, noStore := false } := by
  have single : parseItems (skipLWS []).length (skipLWS [])
      [{ name := str "max-age", value := some digits }] =
        [{ name := str "max-age", value := some digits }] := rfl
  have once : checkDuplicates [{ name := str "max-age", value := some digits }] = true := rfl
  have own : caselessEqual (str "max-age") (str "max-age") = true := by decide
  have cached : caselessEqual (str "no-cache") (str "max-age") = false := by decide
  have stored : caselessEqual (str "no-store") (str "max-age") = false := by decide
  simp only [parseCacheControl, parseDirective_maxAgeText valid, Option.bind_eq_bind,
    Option.bind_some, single, once, findItem_maxAge, own, cached, stored, if_true,
    parseMaxAge_digits valid, Bool.false_eq_true, if_false, Option.isSome_none]

/-- A Strict-Transport-Security header with a max-age alone reads its digits. -/
theorem parseStrictTransportSecurity_maxAgeText {digits : Bytes} (valid : IsDigits digits) :
    parseStrictTransportSecurity (maxAgeText digits) =
      some { maxAge := digits.foldl ageDigit 0, includeSubDomains := false } := by
  have ended : byteAt (skipLWS []) 0 ≠ chr ';' := by decide
  have once : checkDuplicates [{ name := str "max-age", value := some digits }] = true := rfl
  have own : caselessEqual (str "max-age") (str "max-age") = true := by decide
  have other : caselessEqual (str "includesubdomains") (str "max-age") = false := by decide
  simp only [parseStrictTransportSecurity, parseDirective_maxAgeText valid, Option.bind_eq_bind,
    Option.bind_some, ended, once, findItem_maxAge, own, other, if_true, if_false,
    parseMaxAge_digits valid, Bool.false_eq_true]

/-- One more digit. -/
theorem digitsValue_concat (digits : Bytes) (c : Byte) :
    digitsValue (digits ++ [c]) = 10 * digitsValue digits + (c - chr '0').toNat := by
  simp [digitsValue]

/-- Digits are read without a wrap while their number fits. -/
theorem toNat_ageDigits {digits : Bytes} (fits : digitsValue digits < 2 ^ 32) :
    (digits.foldl ageDigit 0).toNat = digitsValue digits := by
  induction digits using List.reverseRecOn with
  | nil => rfl
  | append_singleton digits c ih =>
      rw [digitsValue_concat] at fits ⊢
      have before := ih (by omega)
      have next : ((digits.foldl ageDigit 0) * 10 + (c - chr '0').toUInt32).toNat =
          10 * digitsValue digits + (c - chr '0').toNat := by
        rw [UInt32.toNat_add, UInt32.toNat_mul, before, UInt8.toNat_toUInt32]
        have ten : (10 : UInt32).toNat = 10 := rfl
        rw [ten]
        omega
      have larger : ¬(digits.foldl ageDigit 0) * 10 + (c - chr '0').toUInt32 <
          digits.foldl ageDigit 0 := by
        rw [UInt32.lt_iff_toNat_lt, next, before]
        omega
      rw [List.foldl_append, List.foldl_cons, List.foldl_nil, ageDigit]
      simp only [larger, if_false]
      exact next

end Neosurf.Http

namespace Neosurf.Llcache

/-- A header has this name in any case. -/
def Header.named (header : Header) (text : String) : Bool :=
  strcasecmp header.name (str text) == .eq

theorem Header.length_of_named {header : Header} {text : String}
    (named : header.named text = true) : header.name.length = (str text).length :=
  List.Forall₂.length_eq (List.compareLex_eq_eq_iff.mp (eq_of_beq named))

/-- A header with a name of another length has another name. -/
theorem Header.not_named {header : Header} {text : String}
    (other : header.name.length ≠ (str text).length) : header.named text = false :=
  Bool.eq_false_iff.mpr fun named => other (length_of_named named)

/-- These are the directives of a Cache-Control header. -/
def Header.directives (header : Header) : Option Http.CacheControl :=
  if header.named "Cache-Control" then Http.parseCacheControl header.value else none

/-- A header forbids the use of the response without a new request. -/
def Header.Forbids (header : Header) : Prop :=
  ∃ cc, header.directives = some cc ∧ (cc.noCache = true ∨ cc.noStore = true)

/-- A header has no max-age. -/
def Header.NoMaxAge (header : Header) : Prop :=
  ∀ cc, header.directives = some cc → cc.maxAge = none

/-- Only an Expires header changes when the response expires. -/
theorem headerCacheControl_expires (clock : Clock) (cache : CacheControl) (header : Header) :
    (headerCacheControl clock cache header).expires =
      if header.named "Expires" then (clock.strntimet header.value).getD 0x7fffffff
      else cache.expires := by
  have other (size : header.name.length ≠ 7) : header.named "Expires" = false :=
    Header.not_named size
  have parsed (value : Bytes) : (parseCacheControl cache value).expires = cache.expires := by
    unfold parseCacheControl
    split <;> rfl
  unfold headerCacheControl
  dsimp only
  split
  · rename_i size
    rw [other (by omega)]
    split <;> rfl
  · rename_i size
    rw [other (by omega)]
    split
    · split <;> rfl
    · split <;> rfl
  · change (if header.named "Expires" = true then _ else cache).expires = _
    split <;> rfl
  · rename_i size
    rw [other (by omega)]
    split
    · exact parsed _
    · split
      · split <;> rfl
      · rfl
  · rename_i size _
    rw [other size]
    rfl

/-- A header without directives keeps those of the others. -/
theorem headerCacheControl_of_directives_none (clock : Clock) (cache : CacheControl)
    {header : Header} (silent : header.directives = none) :
    (headerCacheControl clock cache header).noCache = cache.noCache ∧
      (headerCacheControl clock cache header).maxAge = cache.maxAge := by
  unfold headerCacheControl
  dsimp only
  split
  · split <;> exact ⟨rfl, rfl⟩
  · split
    · split <;> exact ⟨rfl, rfl⟩
    · split <;> exact ⟨rfl, rfl⟩
  · split <;> exact ⟨rfl, rfl⟩
  · split
    · rename_i matched
      have named : header.named "Cache-Control" = true := matched
      have unread : Http.parseCacheControl header.value = none := by
        rwa [Header.directives, if_pos named] at silent
      rw [parseCacheControl, unread]
      exact ⟨rfl, rfl⟩
    · split
      · split <;> exact ⟨rfl, rfl⟩
      · exact ⟨rfl, rfl⟩
  · exact ⟨rfl, rfl⟩

/-- A Cache-Control header changes the cache data by its directives. -/
theorem headerCacheControl_of_directives (clock : Clock) (cache : CacheControl) {header : Header}
    {cc : Http.CacheControl} (read : header.directives = some cc) :
    headerCacheControl clock cache header = parseCacheControl cache header.value ∧
      Http.parseCacheControl header.value = some cc := by
  unfold Header.directives at read
  split at read
  · rename_i named
    have size : header.name.length = 13 := Header.length_of_named named
    unfold headerCacheControl
    rw [size]
    exact ⟨if_pos named, read⟩
  · cases read

/-- A header without max-age keeps the max-age. -/
theorem headerCacheControl_maxAge {clock : Clock} {cache : CacheControl} {header : Header}
    (aged : header.NoMaxAge) : (headerCacheControl clock cache header).maxAge = cache.maxAge := by
  cases read : header.directives with
  | none => exact (headerCacheControl_of_directives_none clock cache read).2
  | some cc =>
      obtain ⟨same, parsed⟩ := headerCacheControl_of_directives clock cache read
      rw [same, parseCacheControl, parsed]
      simp only [aged cc read]

/-- A header forbids the use of the response without a new request, or changes nothing about it. -/
theorem headerCacheControl_noCache (clock : Clock) (cache : CacheControl) (header : Header) :
    (headerCacheControl clock cache header).noCache = .fresh ↔
      cache.noCache = .fresh ∧ ¬header.Forbids := by
  cases read : header.directives with
  | none =>
      rw [(headerCacheControl_of_directives_none clock cache read).1, Header.Forbids, read]
      simp
  | some cc =>
      obtain ⟨same, parsed⟩ := headerCacheControl_of_directives clock cache read
      rw [same, parseCacheControl, parsed, Header.Forbids, read]
      by_cases forbidden : cc.noCache = true ∨ cc.noStore = true
      · simp [forbidden]
      · simp [forbidden]

/-- A response says last when it expires by this header. -/
def LastExpires (headers : List Header) (header : Header) : Prop :=
  ∃ before after, headers = before ++ header :: after ∧ header.named "Expires" = true ∧
    ∀ later ∈ after, later.named "Expires" = false

/-- Headers without Expires keep the time at which the response expires. -/
theorem foldl_expires (clock : Clock) {headers : List Header} (cache : CacheControl)
    (silent : ∀ header ∈ headers, header.named "Expires" = false) :
    (headers.foldl (headerCacheControl clock) cache).expires = cache.expires := by
  induction headers generalizing cache with
  | nil => rfl
  | cons header rest ih =>
      rw [List.forall_mem_cons] at silent
      rw [List.foldl_cons, ih _ silent.2, headerCacheControl_expires, silent.1]
      rfl

/-- The last Expires header decides. -/
theorem foldl_lastExpires (clock : Clock) {headers : List Header} {header : Header}
    (cache : CacheControl) (last : LastExpires headers header) :
    (headers.foldl (headerCacheControl clock) cache).expires =
      (clock.strntimet header.value).getD 0x7fffffff := by
  obtain ⟨before, after, rfl, named, silent⟩ := last
  rw [List.foldl_append, List.foldl_cons, foldl_expires clock _ silent, headerCacheControl_expires,
    if_pos named]

theorem foldl_maxAge (clock : Clock) {headers : List Header} (cache : CacheControl)
    (aged : ∀ header ∈ headers, header.NoMaxAge) :
    (headers.foldl (headerCacheControl clock) cache).maxAge = cache.maxAge := by
  induction headers generalizing cache with
  | nil => rfl
  | cons header rest ih =>
      rw [List.forall_mem_cons] at aged
      rw [List.foldl_cons, ih _ aged.2, headerCacheControl_maxAge aged.1]

theorem foldl_noCache (clock : Clock) (headers : List Header) (cache : CacheControl) :
    (headers.foldl (headerCacheControl clock) cache).noCache = .fresh ↔
      cache.noCache = .fresh ∧ ∀ header ∈ headers, ¬header.Forbids := by
  induction headers generalizing cache with
  | nil => simp
  | cons header rest ih =>
      rw [List.foldl_cons, ih, headerCacheControl_noCache, List.forall_mem_cons, and_assoc]

/-- Lines are received by an object, which may be complete since then. -/
def Received (clock : Clock) (lines : List Bytes) (object : LlcacheObject) : Prop :=
  ∃ before, object = lines.foldl (processHeader clock) before ∨
    ∃ out, object = finishObject out (lines.foldl (processHeader clock) before)

/-- The cache data of a received object are those of its response, but for the times at which it
ended. -/
theorem Received.cache {clock : Clock} {lines response : List Bytes} {object : LlcacheObject}
    (received : Received clock lines object) (found : lastResponse lines = some response) :
    ∃ reqTime date finTime,
      object.cache = { responseCache clock reqTime response with date, finTime } := by
  obtain ⟨before, rfl | ⟨out, rfl⟩⟩ := received
  · rw [foldl_processHeader_response before found]
    exact ⟨_, _, _, rfl⟩
  · rw [foldl_processHeader_response before found]
    refine ⟨before.cache.reqTime, (cacheUpdate out.clock.now
      (responseCache clock before.cache.reqTime response)).date, out.clock.now, ?_⟩
    rw [finishObject]
    dsimp only
    unfold cacheUpdate
    split <;> rfl

/-- Some time at or after a date is so far away that the age of a response is one second less than
its lifetime. -/
theorem exists_age (date lifetime reqTime resTime receivedAge : Int)
    (inside : -2 ^ 31 < lifetime ∧ lifetime < 2 ^ 31) :
    ∃ now, date ≤ now ∧ toInt32 (receivedAge + (resTime - reqTime + now - resTime)) < lifetime := by
  refine ⟨date + (lifetime - 1 - receivedAge + reqTime - date) % 2 ^ 32, by omega, ?_⟩
  unfold toInt32
  omega

/-- A response that seems to expire in 2038 has a remaining lifetime at some time after its date,
unless the time between is the least value of an `int`. -/
theorem remainingLifetime_2038 {cd : CacheControl} (aged : cd.maxAge = INVALID_AGE)
    (expires : cd.expires = 0x7fffffff) (allowed : cd.noCache = .fresh) :
    (∀ now, cd.date ≤ now → remainingLifetime now cd ≤ 0) ↔ (cd.date + 1) % 2 ^ 32 = 0 := by
  have lifetime (now : Int) : 0 < remainingLifetime now cd ↔
      toInt32 (max (toInt32 (max 0 (cd.resTime - cd.date))) (if cd.age = INVALID_AGE then 0 else cd.age)
        + (cd.resTime - cd.reqTime + now - cd.resTime)) < toInt32 (0x7fffffff - cd.date) := by
    have set : (0x7fffffff : Int) ≠ 0 := by decide
    simp only [remainingLifetime, aged, expires, allowed, ne_eq, not_true_eq_false, if_false, set,
      not_false_eq_true, if_true, true_and]
    split <;> omega
  have bounds : -2 ^ 31 ≤ toInt32 (0x7fffffff - cd.date) ∧ toInt32 (0x7fffffff - cd.date) < 2 ^ 31 := by
    unfold toInt32
    omega
  constructor
  · intro expired
    by_contra date
    have above : -2 ^ 31 < toInt32 (0x7fffffff - cd.date) := by
      unfold toInt32
      omega
    obtain ⟨now, after, young⟩ := exists_age cd.date _ cd.reqTime cd.resTime _ ⟨above, bounds.2⟩
    exact absurd ((lifetime now).mpr young) (not_lt.mpr (expired now after))
  · intro date now _
    have least : toInt32 (0x7fffffff - cd.date) = -2 ^ 31 := by
      unfold toInt32
      omega
    rw [← not_lt, lifetime, least]
    unfold toInt32
    omega

/-- A response without max-age whose last Expires header is no date is never fresh at or after its
date exactly when it is forbidden to use it without a new request, or when it is complete and the
time from its date to 2038 is the least value of an `int`. -/
theorem received_expired_iff {clock : Clock} {lines response : List Bytes} {object : LlcacheObject}
    {header : Header} (received : Received clock lines object)
    (found : lastResponse lines = some response)
    (aged : ∀ header ∈ collect response, header.NoMaxAge)
    (last : LastExpires (collect response) header) (invalid : clock.strntimet header.value = none) :
    (∀ now, object.cache.date ≤ now → isFresh now object = false) ↔
      (∃ header ∈ collect response, header.Forbids) ∨
        (object.fetch.state = .complete ∧ (object.cache.date + 1) % 2 ^ 32 = 0) := by
  obtain ⟨reqTime, date, finTime, cache⟩ := received.cache found
  have maxAge : object.cache.maxAge = INVALID_AGE := by
    rw [cache]
    exact foldl_maxAge clock _ aged
  have expires : object.cache.expires = 0x7fffffff := by
    rw [cache]
    change (responseCache clock reqTime response).expires = _
    rw [responseCache, foldl_lastExpires clock _ last, invalid]
    rfl
  have allowed : object.cache.noCache = .fresh ↔ ∀ header ∈ collect response, ¬header.Forbids := by
    rw [cache]
    exact (foldl_noCache clock _ _).trans (and_iff_right rfl)
  by_cases free : object.cache.noCache = .fresh
  · have unforbidden : ¬∃ header ∈ collect response, header.Forbids := by
      simpa using allowed.mp free
    have young (now : Int) : isFresh now object = false ↔
        remainingLifetime now object.cache ≤ 0 ∧ object.fetch.state = .complete := by
      simp [isFresh, free]
    simp only [young, unforbidden, false_or]
    rw [← remainingLifetime_2038 maxAge expires free]
    constructor
    · intro expired
      exact ⟨(expired _ le_rfl).2, fun now after => (expired now after).1⟩
    · intro ended now after
      exact ⟨ended.2 now after, ended.1⟩
  · have forbidden : ∃ header ∈ collect response, header.Forbids := by
      by_contra absent
      exact free (allowed.mpr (by simpa using absent))
    have stale (now : Int) : isFresh now object = false := by
      simp [isFresh, free]
    simp [stale, forbidden]

/-- This clock reads one date. -/
def oneDate : Clock where
  now := 1000000000
  curlGetdate := fun text =>
    if text = str "Sun, 09 Sep 2001 01:46:40 GMT" then 1000000000 else -1

/-- This response says that it has expired. -/
def expiredResponse : List Bytes :=
  [str "HTTP/1.1 200 OK", str "Expires: 0", str "Date: Sun, 09 Sep 2001 01:46:40 GMT"]

/-- This object is complete, and its cache data are those of that response. -/
def expiredObject : LlcacheObject :=
  expiredResponse.foldl (processHeader oneDate)
    { url := Nsurl.derive {} [] 0
      cache := { reqTime := 1000000000 }
      fetch := { state := .complete } }

theorem expiredObject_received : Received oneDate expiredResponse expiredObject :=
  ⟨_, .inl rfl⟩

theorem expiredResponse_noMaxAge : ∀ header ∈ collect expiredResponse, header.NoMaxAge := by
  have silent : ∀ header ∈ collect expiredResponse, header.directives = none := by decide
  intro header inside cc read
  rw [silent header inside] at read
  cases read

theorem expiredResponse_lastExpires :
    LastExpires (collect expiredResponse) { name := str "Expires", value := str "0" } :=
  ⟨[{ name := str "HTTP/1.1 200 OK", value := [] }],
    [{ name := str "Date", value := str "Sun, 09 Sep 2001 01:46:40 GMT" }], by decide, by decide,
    by decide⟩

theorem received_expired_date :
    (∀ now, expiredObject.cache.date ≤ now → isFresh now expiredObject = false) ↔
      (∃ header ∈ collect expiredResponse, header.Forbids) ∨
        (expiredObject.fetch.state = .complete ∧
          (expiredObject.cache.date + 1) % 2 ^ 32 = 0) :=
  received_expired_iff expiredObject_received (by decide) expiredResponse_noMaxAge
    expiredResponse_lastExpires (by decide)

/-- An object is stale at and after its date when its Expires header is no date. -/
def InvalidDateExpires : Prop :=
  ∀ clock lines response object header, Received clock lines object →
    lastResponse lines = some response → (∀ header ∈ collect response, header.NoMaxAge) →
    LastExpires (collect response) header → clock.strntimet header.value = none →
    ∀ now, object.cache.date ≤ now → isFresh now object = false

theorem expiredObject_fresh : ¬InvalidDateExpires := by
  intro stale
  have expired := stale oneDate expiredResponse _ expiredObject _ expiredObject_received
    (by decide) expiredResponse_noMaxAge expiredResponse_lastExpires (by decide) 1000000000
    (by decide)
  exact absurd expired (by decide)

open Http (IsDigits digitsValue maxAgeText)

/-- This is the largest number that a max-age stands for. -/
def largestMaxAge : Nat := 2 ^ 32 - 1

/-- Both headers read a max-age as its number, or as the largest one, no smaller max-age makes a
response more fresh, and no max-age but zero takes a policy back. -/
structure FollowsMaxAge (digits : Bytes) : Prop where
  cacheControl : Http.parseCacheControl (maxAgeText digits) = some
    { maxAge := some (UInt32.ofNat (min (digitsValue digits) largestMaxAge))
      noCache := false
      noStore := false }
  transportSecurity : Http.parseStrictTransportSecurity (maxAgeText digits) = some
    { maxAge := UInt32.ofNat (min (digitsValue digits) largestMaxAge), includeSubDomains := false }
  lifetime : ∀ smaller, IsDigits smaller → digitsValue smaller ≤ digitsValue digits →
    ∀ now cache, remainingLifetime now (parseCacheControl cache (maxAgeText smaller)) ≤
      remainingLifetime now (parseCacheControl cache (maxAgeText digits))
  fresh : ∀ smaller, IsDigits smaller → digitsValue smaller ≤ digitsValue digits →
    ∀ now, ∀ object : LlcacheObject,
      isFresh now { object with
        cache := parseCacheControl object.cache (maxAgeText smaller) } = true →
      isFresh now { object with cache := parseCacheControl object.cache (maxAgeText digits) } = true
  policy : digitsValue digits ≠ 0 → ∀ now sts hsts,
    Http.parseStrictTransportSecurity (maxAgeText digits) = some sts →
      hsts.expires ≤ (Urldb.HstsData.accept now sts hsts).expires

/-- A header with a max-age alone changes the max-age. -/
theorem parseCacheControl_maxAgeText {digits : Bytes} (valid : IsDigits digits)
    (cache : CacheControl) : parseCacheControl cache (maxAgeText digits) =
      { cache with maxAge := toInt32 (digits.foldl Http.ageDigit 0).toNat } := by
  rw [parseCacheControl, Http.parseCacheControl_maxAgeText valid]
  simp

/-- Small numbers become the max-age of the cache. -/
theorem parseCacheControl_small {digits : Bytes} (valid : IsDigits digits)
    (small : digitsValue digits < 2 ^ 31) (cache : CacheControl) :
    parseCacheControl cache (maxAgeText digits) =
      { cache with maxAge := digitsValue digits } := by
  have same : toInt32 (digitsValue digits) = digitsValue digits := by
    unfold toInt32
    omega
  rw [parseCacheControl_maxAgeText valid, Http.toNat_ageDigits (by omega), same]

/-- A longer max-age leaves no less lifetime. -/
theorem remainingLifetime_mono (now : Int) (cache : CacheControl) {shorter longer : Int}
    (set : 0 ≤ shorter) (le : shorter ≤ longer) :
    remainingLifetime now { cache with maxAge := shorter } ≤
      remainingLifetime now { cache with maxAge := longer } := by
  have present (maxAge : Int) (nonneg : 0 ≤ maxAge) : maxAge ≠ INVALID_AGE := by
    unfold INVALID_AGE
    omega
  simp only [remainingLifetime, present shorter set, present longer (set.trans le), ne_eq,
    not_false_eq_true, if_true]
  generalize toInt32 (max _ _ + _) = age
  split_ifs with young younger
  · omega
  · exact absurd ⟨young.1, young.2.trans_le le⟩ younger
  · omega
  · exact le_rfl

/-- No time has passed since this response. -/
def newCache : CacheControl := invalidCacheControl

/-- A max-age of one second gives a new response a lifetime. -/
theorem remainingLifetime_second : remainingLifetime 0 { newCache with maxAge := 1 } = 1 := by
  decide

/-- A negative max-age leaves a new response without lifetime. -/
theorem remainingLifetime_negative {maxAge : Int} (negative : maxAge < 0) :
    remainingLifetime 0 { newCache with maxAge } = 0 := by
  have age : toInt32 (max (toInt32 (max 0 (0 - 0))) 0 + (0 - 0 + 0 - 0)) = 0 := by decide
  by_cases absent : maxAge = INVALID_AGE
  · rw [absent]
    decide
  · simp only [remainingLifetime, newCache, invalidCacheControl, absent, ne_eq, not_false_eq_true,
      if_true, age, true_and, if_neg (not_lt.mpr negative.le)]

/-- The digits of a max-age are followed exactly when their number fits into an `int`. -/
theorem followsMaxAge_iff {digits : Bytes} (valid : IsDigits digits) :
    FollowsMaxAge digits ↔ digitsValue digits < 2 ^ 31 := by
  constructor
  · intro follows
    by_contra large
    have read : (digits.foldl Http.ageDigit 0).toNat = min (digitsValue digits) largestMaxAge := by
      have same := follows.transportSecurity
      rw [Http.parseStrictTransportSecurity_maxAgeText valid] at same
      have value : digits.foldl Http.ageDigit 0 =
          UInt32.ofNat (min (digitsValue digits) largestMaxAge) :=
        congrArg Http.StrictTransportSecurity.maxAge (Option.some.inj same)
      rw [value, UInt32.toNat_ofNat', Nat.mod_eq_of_lt]
      unfold largestMaxAge
      omega
    have negative : toInt32 (digits.foldl Http.ageDigit 0).toNat < 0 := by
      rw [read]
      unfold toInt32 largestMaxAge
      omega
    have second : IsDigits (str "1") := ⟨List.all_eq_true.mp rfl, by decide⟩
    have one : digitsValue (str "1") = 1 := by decide
    have shorter := follows.lifetime (str "1") second (by omega) 0 newCache
    rw [parseCacheControl_small second (by omega), one, parseCacheControl_maxAgeText valid,
      remainingLifetime_negative negative] at shorter
    exact absurd (remainingLifetime_second.symm.trans_le shorter) (by decide)
  · intro small
    have exact_value : digits.foldl Http.ageDigit 0 =
        UInt32.ofNat (min (digitsValue digits) largestMaxAge) := by
      apply UInt32.toNat_inj.mp
      rw [Http.toNat_ageDigits (by omega), UInt32.toNat_ofNat', Nat.mod_eq_of_lt]
      · unfold largestMaxAge
        omega
      · unfold largestMaxAge
        omega
    have longer (smaller : Bytes) (other : IsDigits smaller)
        (le : digitsValue smaller ≤ digitsValue digits) (now : Int) (cache : CacheControl) :
        remainingLifetime now (parseCacheControl cache (maxAgeText smaller)) ≤
          remainingLifetime now (parseCacheControl cache (maxAgeText digits)) := by
      rw [parseCacheControl_small other (by omega), parseCacheControl_small valid small]
      exact remainingLifetime_mono now cache (by omega) (by omega)
    refine
      { cacheControl := by rw [Http.parseCacheControl_maxAgeText valid, exact_value]
        transportSecurity := by
          rw [Http.parseStrictTransportSecurity_maxAgeText valid, exact_value]
        lifetime := longer
        fresh := fun smaller other le now object => ?_
        policy := fun nonzero now sts hsts read => ?_ }
    · have more := longer smaller other le now object.cache
      rw [parseCacheControl_small other (by omega), parseCacheControl_small valid small] at more ⊢
      simp only [isFresh, Bool.and_eq_true, Bool.or_eq_true, decide_eq_true_eq]
      exact fun before => ⟨before.1, before.2.imp (fun left => left.trans_le more) id⟩
    · rw [Http.parseStrictTransportSecurity_maxAgeText valid] at read
      cases read
      have kept : digits.foldl Http.ageDigit 0 ≠ 0 := by
        intro zero
        have value := Http.toNat_ageDigits (by omega : digitsValue digits < 2 ^ 32)
        rw [zero] at value
        exact nonzero value.symm
      rw [Urldb.HstsData.accept, if_neg kept]
      dsimp only
      split <;> omega

theorem followsMaxAge_minute :
    FollowsMaxAge (str "60") ↔ digitsValue (str "60") < 2 ^ 31 :=
  followsMaxAge_iff ⟨List.all_eq_true.mp rfl, by decide⟩

/-- Ten thousand million seconds are read as a smaller number. -/
theorem maxAge_wraps : ¬FollowsMaxAge (str "10000000000") := by
  intro follows
  exact absurd follows.cacheControl (by decide)

end Neosurf.Llcache
