/-
This file models the state of the low-level cache and how an object is retrieved from it.
-/

import Neosurf.Construction.Llcache.Object
import Neosurf.Construction.Llcache.Metadata
import Neosurf.Construction.Llcache.Redirect

namespace Neosurf.Llcache

/-- This is `struct llcache_handle` without its callback, with a record of the redirects that the
handle was taken along. -/
structure Handle where
  object : ObjectId
  state : FetchState := .init
  bytes : Nat := 0
  redirects : Nat := 0
  deriving DecidableEq, Repr

/-- An object of a list, with its pointer. -/
structure Slot where
  id : ObjectId
  object : LlcacheObject
  deriving DecidableEq, Repr

/-- The text of an error is looked up by its key, or comes from outside. -/
inductive Message where
  | key (name : String)
  | text (msg : Option Bytes)
  deriving DecidableEq, Repr

/-- This is `llcache_event`. -/
inductive Event where
  | gotCerts (chain : CertChain)
  | hadHeaders
  | hadData (buf : Bytes)
  | done
  | error (code : Nserror) (msg : Message)
  | progress (msg : Bytes)
  | redirect (source target : Nsurl)
  deriving DecidableEq, Repr

/-- A redirect goes on after the users know of it, with these values. -/
structure Pending where
  target : Nsurl
  hstsInUse : Bool
  httpCode : Int
  post : Option PostData
  deriving DecidableEq, Repr

/-- An event is being sent to the users of an object. The current user's callback runs. -/
structure Sending where
  object : ObjectId
  event : Event
  user : Nat
  wasTarget : Bool
  pending : Option Pending
  deriving DecidableEq, Repr

/-- The users of an object are being notified. The current user's callback runs for an event,
and its handle was in this state before. -/
structure Notifying where
  object : ObjectId
  objstate : FetchState
  user : Nat
  event : Event
  origHandleRead : Nat
  deriving DecidableEq, Repr

/-- The loop that calls a client. -/
inductive Task where
  | sending (sending : Sending)
  | notifying (notifying : Notifying)
  deriving DecidableEq, Repr

/-- This is `struct llcache_parameters`, as far as the cache uses it. -/
structure Parameters where
  limit : UInt32
  minimumLifetime : Int
  minimumBandwidth : Nat
  maximumBandwidth : Nat
  timeQuantum : Nat
  fetchAttempts : UInt32
  deriving DecidableEq, Repr

/-- This is `struct llcache_s`, with the handles, the running loop, and records of the objects
that were destroyed or written to the backing store, as they were. Notifications may run at any
time, so that nothing is scheduled. -/
structure Cache where
  parameters : Parameters
  cachedObjects : List Slot := []
  uncachedObjects : List Slot := []
  handles : Nat → Option Handle := fun _ => none
  nextObject : ObjectId := 0
  nextHandle : Nat := 0
  destroyed : List Slot := []
  persisted : List Slot := []
  task : Option Task := none
  finalised : Bool := false

/-- These are the arguments of `fetch_start`. The cache data becomes request headers. -/
structure FetchRequest where
  url : Nsurl
  referer : Option Nsurl
  flags : UInt32
  post : Option PostData
  downgradeTls : Bool
  etag : Option Bytes
  lastModified : Int
  deriving DecidableEq, Repr

/-- A code of a failure is not that of success. -/
abbrev Failure := { code : Nserror // code ≠ .ok }

/-- What surrounds the cache in one step: the clock, the HSTS policies and passwords, the fetchers,
the backing store and the allocator. -/
structure Outside where
  clock : Clock
  junk : Nsurl.Buff
  hstsEnabled : Nsurl → Bool
  authDetails : Nsurl → Bytes → Option Bytes
  fetchers : List Fetcher
  fetchStart : FetchRequest → Except Failure Fetch
  storedData : Nsurl → Except Failure Bytes
  storedMetadata : Nsurl → Except Failure Bytes
  storeData : Nsurl → Option Bytes → Nserror
  storeMetadata : Nsurl → Bytes → Nserror
  elapsed : Nsurl → Nat
  reallocEmpty : Bool
  sizeofObject : Nat
  sizeofHeader : Nat
  sizeofChain : Nat

/-- A redirect needs these parts of what surrounds the cache only. -/
def Outside.surroundings (out : Outside) : Surroundings :=
  { junk := out.junk
    callback := fun _ _ => (.ok, false)
    hstsEnabled := out.hstsEnabled
    fetchers := out.fetchers
    retrieve := fun _ => .error .notImplemented }

namespace Cache

/-- The objects of both lists. -/
def live (s : Cache) : List Slot := s.cachedObjects ++ s.uncachedObjects

/-- A pointer is followed. -/
def find (s : Cache) (id : ObjectId) : Option LlcacheObject :=
  (s.live.find? fun slot => slot.id == id).map Slot.object

/-- An assignment through a pointer. -/
def modifySlot (id : ObjectId) (change : LlcacheObject → LlcacheObject) (slot : Slot) : Slot :=
  if slot.id = id then { slot with object := change slot.object } else slot

/-- An assignment to the fields of an object. -/
def modify (s : Cache) (id : ObjectId) (change : LlcacheObject → LlcacheObject) : Cache :=
  { s with
    cachedObjects := s.cachedObjects.map (modifySlot id change)
    uncachedObjects := s.uncachedObjects.map (modifySlot id change) }

/-- This is `llcache_object_remove_from_list` on the list of cached objects. -/
def removeCached (s : Cache) (id : ObjectId) : Cache :=
  { s with cachedObjects := s.cachedObjects.filter (·.id ≠ id) }

/-- This is `llcache_object_remove_from_list` on the list of uncached objects. -/
def removeUncached (s : Cache) (id : ObjectId) : Cache :=
  { s with uncachedObjects := s.uncachedObjects.filter (·.id ≠ id) }

/-- This is `llcache_object_destroy` on a detached object. -/
def destroy (s : Cache) (slot : Slot) : Cache :=
  { s with destroyed := slot :: s.destroyed }

end Cache

/-- This is `LLCACHE_RETRIEVE_FORCE_FETCH`. -/
def FORCE_FETCH : UInt32 := 1

/-- This is `LLCACHE_RETRIEVE_STREAM_DATA`. -/
def STREAM_DATA : UInt32 := 8

/-- This is `llcache_object_new`. -/
def newObject (url : Nsurl) : LlcacheObject := { url }

/-- The number of objects that an object is the candidate of changes. -/
def recount (change : Nat → Nat) (object : LlcacheObject) : LlcacheObject :=
  { object with candidateCount := change object.candidateCount }

/-- The request of `llcache_object_refetch`. -/
def fetchRequest (object : LlcacheObject) : FetchRequest :=
  { url := object.url
    referer := object.fetch.referer
    flags := object.fetch.flags
    post := object.fetch.post
    downgradeTls := object.fetch.triedWithTlsDowngrade
    etag := object.cache.etag
    lastModified := object.cache.lastModified }

/-- This is `llcache_object_refetch`. A failed start leaves the pointer to the fetch. -/
def refetch (out : Outside) (object : LlcacheObject) : Nserror × LlcacheObject :=
  let request := fetchRequest object
  let now := out.clock.now
  let object := { object with
    cache := { invalidCacheControl with reqTime := now, finTime := now }
    fetch := { object.fetch with state := .init } }
  match out.fetchStart request with
  | .ok fetch => (.ok, { object with fetch := { object.fetch with fetch := some fetch } })
  | .error error => (error.val, object)

/-- This is `llcache_object_fetch`. -/
def objectFetch (out : Outside) (parameters : Parameters) (retrieval : Retrieval)
    (object : LlcacheObject) : Nserror × LlcacheObject :=
  refetch out { object with
    fetch := { object.fetch with
      flags := retrieval.flags
      referer := retrieval.referer
      post := retrieval.post
      redirectCount := retrieval.redirectCount
      retriesRemaining := parameters.fetchAttempts
      hstsInUse := retrieval.hstsInUse } }

/-- This is the loop of `llcache__scheme_is_persistable` and `llcache__scheme_is_cachable` over
their known schemes. -/
def schemeIsOneOf (url : Nsurl) (names : List String) : Bool :=
  names.any fun name =>
    let answer := schemeIsequal url (str name)
    answer.1 == lwcErrorOk && answer.2

/-- This is `llcache__scheme_is_persistable`. -/
def schemeIsPersistable (url : Nsurl) : Bool := schemeIsOneOf url ["http", "https"]

/-- This is `llcache__scheme_is_cachable`. -/
def schemeIsCachable (url : Nsurl) : Bool :=
  schemeIsOneOf url ["http", "https", "data", "resource", "file"]

/-- This is `llcache_object_fetch_persistent`. Metadata that is read past its end has no defined
result. -/
def fetchPersistent (out : Outside) (retrieval : Retrieval) (object : LlcacheObject) :
    Option (Nserror × LlcacheObject) :=
  if schemeIsPersistable object.url = false then some (.notFound, object)
  else
    let now := out.clock.now
    let object := { object with
      cache := { object.cache with reqTime := now, finTime := now } }
    let stored := (out.storedMetadata object.url).mapError Subtype.val
    match llcacheProcessMetadata out.clock out.junk stored object with
    | none => none
    | some (error, object) =>
        if error ≠ .ok then some (error, object)
        else
          some (.ok, { object with
            fetch := { object.fetch with
              flags := retrieval.flags
              referer := retrieval.referer
              post := retrieval.post
              redirectCount := retrieval.redirectCount
              state := .complete
              fetch := none } })

/-- This is `llcache_retrieve_persisted_data`. -/
def retrievePersistedData (out : Outside) (object : LlcacheObject) :
    Nserror × LlcacheObject :=
  if object.sourceData ≠ none ∨ object.storeState ≠ .disc then (.ok, object)
  else
    match out.storedData object.url with
    | .ok data => (.ok, { object with sourceData := some data, sourceLen := data.length })
    | .error error => (error.val, object)

/-- A new object that asks whether its candidate is still fresh. -/
def validator (url : Nsurl) (candidate : Slot) : LlcacheObject :=
  { newObject url with
    cache := cloneCacheData candidate.object.cache {}
    candidate := some candidate.id }

/-- The search for the most recently fetched object of a URL. -/
def newest (url : Nsurl) (list : List Slot) : Option Slot :=
  list.foldl (fun found slot =>
    let newer := match found with
      | none => true
      | some best => decide (best.object.cache.reqTime < slot.object.cache.reqTime)
    if newer && Nsurl.compare slot.object.url url Nsurl.COMPLETE then some slot else found)
    none

namespace Cache

/-- The last part of `llcache_object_retrieve_from_cache` fetches a new object. -/
def fetchCached (out : Outside) (retrieval : Retrieval) (object : LlcacheObject) (s : Cache) :
    Cache × Except Nserror ObjectId :=
  let id := s.nextObject
  let s := { s with nextObject := id + 1 }
  let (error, object) := objectFetch out s.parameters retrieval object
  if error ≠ .ok then (s.destroy ⟨id, object⟩, .error error)
  else ({ s with cachedObjects := ⟨id, object⟩ :: s.cachedObjects }, .ok id)

/-- A candidate is revalidated by the fetch of a new object. -/
def revalidate (out : Outside) (retrieval : Retrieval) (candidate : Slot) (s : Cache) :
    Cache × Except Nserror ObjectId :=
  let id := s.nextObject
  let s := { s with nextObject := id + 1 }
  let object := validator retrieval.url candidate
  let s := s.modify candidate.id (recount (· + 1))
  let (error, object) := objectFetch out s.parameters retrieval object
  if error ≠ .ok then
    let s := s.modify candidate.id (recount (· - 1))
    (s.destroy ⟨id, object⟩, .error error)
  else ({ s with cachedObjects := ⟨id, object⟩ :: s.cachedObjects }, .ok id)

/-- The newest object is used when it is fresh, or else revalidated. Without its source data it is
destroyed. -/
def useNewest (out : Outside) (retrieval : Retrieval) (found : Slot) (s : Cache) :
    Cache × Except Nserror ObjectId :=
  let (error, object) := retrievePersistedData out found.object
  if error = .ok then
    let s := s.modify found.id fun object => (retrievePersistedData out object).2
    if isFresh out.clock.now found.object then (s, .ok found.id)
    else revalidate out retrieval ⟨found.id, object⟩ s
  else
    fetchCached out retrieval (newObject retrieval.url) ((s.removeCached found.id).destroy found)

/-- This is `llcache_object_retrieve_from_cache`. -/
def retrieveFromCache (out : Outside) (retrieval : Retrieval) (s : Cache) :
    Option (Cache × Except Nserror ObjectId) :=
  match newest retrieval.url s.cachedObjects with
  | some found => some (useNewest out retrieval found s)
  | none =>
      match fetchPersistent out retrieval (newObject retrieval.url) with
      | none => none
      | some (error, object) =>
          if error ≠ .ok then some (fetchCached out retrieval object s)
          else
            let found : Slot := ⟨s.nextObject, object⟩
            some (useNewest out retrieval found { s with
              nextObject := s.nextObject + 1
              cachedObjects := found :: s.cachedObjects })

/-- This is `llcache_object_retrieve`. -/
def retrieve (out : Outside) (retrieval : Retrieval) (s : Cache) :
    Option (Cache × Except Nserror ObjectId) :=
  let retrieval := { retrieval with url := Nsurl.defragment retrieval.url }
  if retrieval.flags &&& FORCE_FETCH ≠ 0 ∨ retrieval.post ≠ none ∨
      schemeIsCachable retrieval.url = false then
    let id := s.nextObject
    let s := { s with nextObject := id + 1 }
    let (error, object) := objectFetch out s.parameters retrieval (newObject retrieval.url)
    if error ≠ .ok then some (s.destroy ⟨id, object⟩, .error error)
    else some ({ s with uncachedObjects := ⟨id, object⟩ :: s.uncachedObjects }, .ok id)
  else s.retrieveFromCache out retrieval

end Cache
end Neosurf.Llcache
