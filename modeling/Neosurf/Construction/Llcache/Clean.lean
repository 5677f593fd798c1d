/-
This file models how the low-level cache makes objects persistent, how it is cleaned, and how it
is finalised.
-/

import Neosurf.Construction.Llcache.Cache
import Neosurf.Construction.Llcache.Metadata

namespace Neosurf.Llcache

/-- Nothing uses the object: it has no users, is no candidate and has no fetch. -/
def isIdle (object : LlcacheObject) : Bool :=
  decide (object.users = []) && decide (object.candidateCount = 0) &&
    decide (object.fetch.fetch = none)

/-- These objects are worth a write to the backing store. -/
def isStorable (now minimumLifetime : Int) (object : LlcacheObject) : Bool :=
  schemeIsPersistable object.url && decide (object.candidateCount = 0) &&
    decide (object.fetch.fetch = none) && decide (object.storeState = .ram) &&
    decide (minimumLifetime < remainingLifetime now object.cache)

def MAX_PERSIST_PER_RUN : Nat := 128

/-- This is `build_candidate_list`. -/
def candidateList (now minimumLifetime : Int) (cachedObjects : List Slot) : List Slot :=
  (cachedObjects.filter fun slot => isStorable now minimumLifetime slot.object).take
    MAX_PERSIST_PER_RUN

/-- This is `write_backing_store`, with the bytes written and the time it took. -/
def writeBackingStore (out : Outside) (object : LlcacheObject) : Option (Nat × Nat) := do
  if out.storeData object.url object.sourceData ≠ .ok then none
  else
    let metadata ← llcacheSerialiseMetadata object
    if out.storeMetadata object.url metadata ≠ .ok then none
    else some (object.sourceLen + metadata.length, max 1 (out.elapsed object.url))

/-- An object is in the backing store. -/
def markStored (object : LlcacheObject) : LlcacheObject := { object with storeState := .disc }

/-- The write of an object succeeds. -/
def Cache.store (s : Cache) (slot : Slot) : Cache :=
  { s.modify slot.id markStored with persisted := slot :: s.persisted }

/-- This is the loop of `llcache_persist`. It ends when the time or the bandwidth is used up. -/
def persistLoop (out : Outside) (totalWritten totalElapsed : Nat) (s : Cache) :
    List Slot → Cache
  | [] => s
  | slot :: rest =>
      match writeBackingStore out slot.object with
      | none => persistLoop out totalWritten totalElapsed s rest
      | some (written, elapsed) =>
          let totalWritten := totalWritten + written
          let totalElapsed := totalElapsed + elapsed
          let s := s.store slot
          let writeLimit := s.parameters.maximumBandwidth * s.parameters.timeQuantum / 1000
          if s.parameters.timeQuantum < totalElapsed then s
          else if writeLimit < totalWritten then s
          else persistLoop out totalWritten totalElapsed s rest

/-- This is `llcache_persist`. -/
def Cache.persist (out : Outside) (s : Cache) : Cache :=
  persistLoop out 0 1 s
    (candidateList out.clock.now s.parameters.minimumLifetime s.cachedObjects)

/-- This is `cert_chain_size`. -/
def certChainSize (out : Outside) (chain : Option CertChain) : Nat :=
  match chain with
  | none => 0
  | some certs => out.sizeofChain + (certs.map fun cert => (cert.der.getD []).length).sum

/-- The RAM that an object uses. -/
def objectSize (out : Outside) (object : LlcacheObject) : Nat :=
  out.sizeofObject + object.url.length +
    (if object.sourceData = none then 0 else object.sourceLen) +
    out.sizeofHeader * object.headers.length +
    (object.headers.map fun header =>
      (cstr header.name).length + (cstr header.value).length).sum +
    certChainSize out object.chain

/-- This is `total_object_size`, which adds up in 32 bits. -/
def totalObjectSize (out : Outside) (object : LlcacheObject) : UInt32 :=
  UInt32.ofNat (objectSize out object)

/-- The sizes of all objects of a list are added up in 32 bits. -/
def totalSize (out : Outside) (list : List Slot) : UInt32 :=
  (list.map fun slot => totalObjectSize out slot.object).sum

/-- An object that nothing uses is stale. -/
def isStale (now : Int) (object : LlcacheObject) : Bool :=
  isIdle object && decide (remainingLifetime now object.cache ≤ 0)

/-- The source data of an object is in the backing store. -/
def isBacked (object : LlcacheObject) : Bool :=
  isIdle object && decide (object.storeState = .disc)

/-- Only the metadata of a backed object is in RAM. -/
def isBackedMetadata (object : LlcacheObject) : Bool :=
  isBacked object && decide (object.sourceData = none)

/-- An object is in RAM only. -/
def isUnbacked (object : LlcacheObject) : Bool :=
  isIdle object && decide (object.storeState = .ram)

/-- The source data in RAM is given back. -/
def releaseData (slot : Slot) : Slot :=
  { slot with object := { slot.object with sourceData := none } }

/-- While the cache exceeds its limit, the source data of backed objects is released. -/
def releasePass (limit : UInt32) : List Slot → UInt32 → List Slot × UInt32
  | [], size => ([], size)
  | slot :: rest, size =>
      if limit < size then
        if isBacked slot.object then
          let (others, left) := releasePass limit rest
            (size - UInt32.ofNat slot.object.sourceLen)
          (releaseData slot :: others, left)
        else
          let (others, left) := releasePass limit rest size
          (slot :: others, left)
      else (slot :: rest, size)

/-- What a loop leaves on a list, what it destroys, and the size it computes. -/
structure Discarded where
  kept : List Slot
  gone : List Slot
  size : UInt32
  deriving DecidableEq, Repr

/-- While the cache exceeds its limit, objects are discarded, each for its weight. -/
def discardPass (limit : UInt32) (select : LlcacheObject → Bool)
    (weight : LlcacheObject → UInt32) : List Slot → UInt32 → Discarded
  | [], size => { kept := [], gone := [], size }
  | slot :: rest, size =>
      if limit < size then
        if select slot.object then
          let left := discardPass limit select weight rest (size - weight slot.object)
          { left with gone := slot :: left.gone }
        else
          let left := discardPass limit select weight rest size
          { left with kept := slot :: left.kept }
      else { kept := slot :: rest, gone := [], size }

namespace Cache

/-- The objects are destroyed one after the other. -/
def destroyAll (s : Cache) (gone : List Slot) : Cache := gone.foldl destroy s

/-- The first two loops of `llcache_clean` destroy unused uncached objects and stale cached ones. -/
def dropUnused (now : Int) (s : Cache) : Cache :=
  let s := { s with
    uncachedObjects := s.uncachedObjects.filter fun slot => !isIdle slot.object }.destroyAll
      (s.uncachedObjects.filter fun slot => isIdle slot.object)
  { s with
    cachedObjects := s.cachedObjects.filter fun slot => !isStale now slot.object }.destroyAll
      (s.cachedObjects.filter fun slot => isStale now slot.object)

/-- The limit of a cleaning, which is zero for a purge. -/
def cleanLimit (s : Cache) (purge : Bool) : UInt32 := if purge then 0 else s.parameters.limit

/-- The size that `llcache_clean` adds up over both lists. -/
def measured (out : Outside) (s : Cache) : UInt32 :=
  totalSize out s.uncachedObjects + totalSize out s.cachedObjects

/-- The last three loops of `llcache_clean`, with the size they end with. -/
def shrink (out : Outside) (limit size : UInt32) (s : Cache) : Cache × UInt32 :=
  let (cachedObjects, size) := releasePass limit s.cachedObjects size
  let backed := discardPass limit isBackedMetadata (totalObjectSize out) cachedObjects size
  let unbacked := discardPass limit isUnbacked
    (fun object => UInt32.ofNat (object.sourceLen + out.sizeofObject)) backed.kept backed.size
  (({ s with cachedObjects := unbacked.kept }.destroyAll backed.gone).destroyAll unbacked.gone,
    unbacked.size)

/-- This is `llcache_clean`, with the running size at its end. -/
def cleanSize (out : Outside) (purge : Bool) (s : Cache) : Cache × UInt32 :=
  let limit := s.cleanLimit purge
  let s := s.dropUnused out.clock.now
  let size := s.measured out
  let s := if limit < size then s.persist out else s
  s.shrink out limit size

/-- This is `llcache_clean`. -/
def clean (out : Outside) (purge : Bool) (s : Cache) : Cache := (s.cleanSize out purge).1

/-- The fetch system is gone when an object is destroyed at the end. -/
def withoutFetch (slot : Slot) : Slot :=
  { slot with object := { slot.object with fetch := { slot.object.fetch with fetch := none } } }

/-- This is `llcache_finalise`. All handles are freed, and no call may follow. -/
def finalise (out : Outside) (s : Cache) : Cache :=
  let s := s.persist out
  let gone := (s.uncachedObjects ++ s.cachedObjects).map withoutFetch
  { s with cachedObjects := [], uncachedObjects := [], handles := fun _ => none,
           finalised := true }.destroyAll gone

end Cache
end Neosurf.Llcache
