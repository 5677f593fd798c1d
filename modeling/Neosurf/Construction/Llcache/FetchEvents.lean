/-
This file models how the low-level cache handles the events of a fetch. An event for the users
runs their callbacks one after the other, and the handler goes on when the last one has returned.
-/

import Neosurf.Construction.Llcache.Clean

namespace Neosurf.Llcache

/-- An assignment to the fields of a user. -/
def changeUser (handle : Nat) (change : ObjectUser → ObjectUser) (object : LlcacheObject) :
    LlcacheObject :=
  { object with
    users := object.users.map fun user => if user.handle = handle then change user else user }

/-- The user is destroyed after the callback that runs for it. -/
def queueForDelete (user : ObjectUser) : ObjectUser := { user with queuedForDelete := true }

/-- The user's handle moves to another user. -/
def loseHandle (user : ObjectUser) : ObjectUser :=
  { user with queuedForDelete := true, handleMoved := true }

/-- The pointer of a user: its handle, and whether it still has it. -/
def ObjectUser.pointer (user : ObjectUser) : Nat × Bool := (user.handle, user.handleMoved)

/-- This is `llcache_object_remove_user`. -/
def removeUser (now : Int) (user : ObjectUser) (object : LlcacheObject) : LlcacheObject :=
  let users := object.users.filter fun other => other.pointer ≠ user.pointer
  { object with users, lastUsed := if users = [] then now else object.lastUsed }

/-- This is `llcache_object_add_user` on the object. -/
def pushUser (user : ObjectUser) (object : LlcacheObject) : LlcacheObject :=
  { object with users := user :: object.users }

/-- The user that a handle belongs to, as `llcache_object_find_user` finds it. -/
def findUser (handle : Nat) (object : LlcacheObject) : Option ObjectUser :=
  object.users.find? fun user => user.handle == handle && !user.handleMoved

/-- This is `llcache_object_snapshot`. -/
def snapshot (object : LlcacheObject) : LlcacheObject :=
  { url := object.url
    sourceData := if 0 < object.sourceLen then object.sourceData else none
    sourceLen := object.sourceLen
    sourceAlloc := object.sourceLen
    chain := object.chain
    headers := object.headers
    fetch := { state := .complete } }

/-- An aborted object has no fetch and no cache data. -/
def abortObject (object : LlcacheObject) : LlcacheObject :=
  { object with
    fetch := { object.fetch with fetch := none, state := .complete }
    cache := invalidCacheControl }

/-- The object will be streamed. -/
def markStreaming (object : LlcacheObject) : LlcacheObject :=
  { object with fetch := { object.fetch with flags := object.fetch.flags ||| STREAM_DATA } }

/-- The object without a running fetch must be validated once. -/
def markInvalid (object : LlcacheObject) : LlcacheObject :=
  if object.fetch.fetch = none ∧ object.cache.noCache = .fresh then
    { object with cache := { object.cache with noCache := .once } }
  else object

namespace Cache

/-- A handle is changed, created or freed. -/
def setHandle (s : Cache) (handle : Nat) (value : Option Handle) : Cache :=
  { s with handles := fun other => if other = handle then value else s.handles other }

/-- A user leaves an object and is destroyed, and its handle is freed with it. -/
def dropUser (now : Int) (s : Cache) (id : ObjectId) (user : ObjectUser) : Cache :=
  let s := s.modify id (removeUser now user)
  if user.handleMoved then s else s.setHandle user.handle none

/-- A user with a handle of this state joins an object. -/
def addUser (s : Cache) (id : ObjectId) (user : ObjectUser) (handle : Handle) : Cache :=
  (s.modify id (pushUser user)).setHandle user.handle (some { handle with object := id })

/-- A new user gets the next handle. -/
def addNewUser (s : Cache) (id : ObjectId) (state : FetchState) : Cache × Nat :=
  let handle := s.nextHandle
  (({ s with nextHandle := handle + 1 }.addUser id { handle } { object := id, state }), handle)

/-- This is `llcache_handle_retrieve`. -/
def handleRetrieve (out : Outside) (s : Cache) (url : Nsurl) (flags : UInt32)
    (referer : Option Nsurl) (post : Option PostData) : Option (Cache × Except Nserror Nat) :=
  let (hstsUrl, hstsInUse) := hstsTransformUrl out.surroundings url
  if fetchCanFetch out.surroundings hstsUrl = false then some (s, .error .noFetchHandler)
  else
    match s.retrieve out { url := hstsUrl, flags, referer, post, redirectCount := 0, hstsInUse } with
    | none => none
    | some (s, .error error) => some (s, .error error)
    | some (s, .ok id) =>
        let (s, handle) := s.addNewUser id .init
        some (s, .ok handle)

/-- This is `llcache_handle_release`. A handle without a user fails its assertion. -/
def handleRelease (out : Outside) (s : Cache) (handle : Nat) : Option Cache := do
  let id := (← s.handles handle).object
  let user ← findUser handle (← s.find id)
  if user.iteratorTarget then
    some (s.modify id (changeUser handle queueForDelete))
  else some (s.dropUser out.clock.now id user)

/-- This is `llcache_handle_clone`. -/
def handleClone (s : Cache) (handle : Nat) : Option (Cache × Nat) := do
  let original ← s.handles handle
  let _ ← s.find original.object
  some (s.addNewUser original.object original.state)

/-- An abort with other users moves the handle to a snapshot, with its user or, inside an
iteration, with a new one. -/
def moveToSnapshot (now : Int) (s : Cache) (user : ObjectUser) (handle : Handle)
    (object : LlcacheObject) : Cache :=
  let id := s.nextObject
  let s := { s with
    nextObject := id + 1
    uncachedObjects := ⟨id, snapshot object⟩ :: s.uncachedObjects }
  if user.iteratorTarget then
    let s := s.modify handle.object (changeUser user.handle loseHandle)
    s.addUser id { handle := user.handle } handle
  else
    let s := s.modify handle.object (removeUser now user)
    s.addUser id user handle

/-- This is `llcache_handle_abort`. -/
def handleAbort (out : Outside) (s : Cache) (handle : Nat) : Option Cache := do
  let value ← s.handles handle
  let object ← s.find value.object
  let user ← findUser handle object
  if object.users.length = 1 then some (s.modify value.object abortObject)
  else some (s.moveToSnapshot out.clock.now user value object)

/-- A cached object becomes an uncached one. -/
def uncache (s : Cache) (id : ObjectId) : Cache :=
  match s.cachedObjects.find? (·.id == id) with
  | none => s
  | some slot =>
      { s.removeCached id with uncachedObjects := slot :: s.uncachedObjects }

/-- This is `llcache_handle_force_stream`. -/
def handleForceStream (s : Cache) (handle : Nat) : Option Cache := do
  let id := (← s.handles handle).object
  let object ← s.find id
  let _ ← findUser handle object
  if object.users.length = 1 then some ((s.uncache id).modify id markStreaming) else some s

/-- This is `llcache_handle_invalidate_cache_data`. -/
def handleInvalidateCacheData (s : Cache) (handle : Nat) : Option Cache := do
  let id := (← s.handles handle).object
  some (s.modify id markInvalid)

end Cache

/-- This is `fetch_msg`. -/
inductive FetchMsg where
  | header (buf : Bytes)
  | redirect (target : Bytes)
  | notModified
  | data (buf : Bytes)
  | finished
  | timedOut
  | error (msg : Bytes)
  | progress (msg : Bytes)
  | certs (chain : CertChain)
  | auth (realm : Option Bytes)
  | certErr
  | sslErr
  deriving DecidableEq, Repr

/-- An object is complete, and has no fetch. -/
def completeFetch (object : LlcacheObject) : LlcacheObject :=
  { object with fetch := { object.fetch with fetch := none, state := .complete } }

/-- A failed fetch leaves a complete object without cache data. -/
def failFetch (object : LlcacheObject) : LlcacheObject :=
  invalidateCacheControl (completeFetch object)

/-- A header moves the object to its header state. -/
def receiveHeader (clock : Clock) (buf : Bytes) (object : LlcacheObject) : LlcacheObject :=
  processHeader clock { object with fetch := { object.fetch with state := .headers } } buf

/-- The certificates of a fetch replace those of the object. -/
def receiveChain (chain : CertChain) (object : LlcacheObject) : LlcacheObject :=
  { object with chain := some chain }

/-- The response code of a running fetch, as `fetch_http_code` reads it. -/
def fetchHttpCode (object : LlcacheObject) : Int :=
  (object.fetch.fetch.map Fetch.httpCode).getD 0

/-- The first data of a response makes its cache data invalid for most codes, and for a URL
with a query and no explicit expiry. -/
def suppressesCaching (object : LlcacheObject) : Bool :=
  let httpCode := fetchHttpCode object
  (httpCode != 200 && httpCode != 203) ||
    (object.url.components.query.isSome && object.cache.maxAge == INVALID_AGE &&
      object.cache.expires == 0)

/-- The first data of a response moves the object to its data state. -/
def startData (object : LlcacheObject) : LlcacheObject :=
  let object := if suppressesCaching object then invalidateCacheControl object else object
  { object with fetch := { object.fetch with state := .data } }

/-- A chunk of data is appended to the source data. -/
def appendData (buf : Bytes) (object : LlcacheObject) : LlcacheObject :=
  { object with
    sourceData := some ((object.sourceData.getD []).take object.sourceLen ++ buf)
    sourceLen := object.sourceLen + buf.length
    sourceAlloc :=
      if object.sourceAlloc ≤ object.sourceLen + buf.length then
        object.sourceLen + buf.length + 64 * 1024
      else object.sourceAlloc }

/-- A finished fetch leaves its source data in a buffer of its size. The allocator decides
what an empty buffer is. -/
def finishObject (out : Outside) (object : LlcacheObject) : LlcacheObject :=
  { object with
    fetch := { object.fetch with fetch := none, state := .complete }
    sourceData := if object.sourceLen ≠ 0 then object.sourceData
      else if out.reallocEmpty then some [] else none
    sourceAlloc := object.sourceLen
    cache := { cacheUpdate out.clock.now object.cache with finTime := out.clock.now } }

/-- The candidate takes over the cache data of the object that validated it. -/
def validated (now : Int) (source : CacheControl) (candidate : LlcacheObject) : LlcacheObject :=
  let cache := cacheUpdate now (cloneCacheData source candidate.cache)
  { candidate with
    cache := if cache.noCache = .once then { cache with noCache := .fresh } else cache }

/-- An object has no candidate any more. -/
def dropCandidate (object : LlcacheObject) : LlcacheObject := { object with candidate := none }

/-- A client is called for this user, or was before. -/
def setTarget (target : Bool) (user : ObjectUser) : ObjectUser :=
  { user with iteratorTarget := target }

/-- All users leave an object. -/
def dropUsers (now : Int) (object : LlcacheObject) : LlcacheObject :=
  { object with
    users := []
    lastUsed := if object.users = [] then object.lastUsed else now }

/-- The users of another object join an object. -/
def takeUsers (users : List ObjectUser) (object : LlcacheObject) : LlcacheObject :=
  { object with users := movedUsers users ++ object.users }

/-- The user after this one. -/
def nextUser (handle : Nat) (users : List ObjectUser) : Option ObjectUser :=
  ((users.dropWhile fun user => user.handle ≠ handle).drop 1).head?

/-- A fetch that needs credentials is aborted, and its headers are gone. -/
def abandonResponse (object : LlcacheObject) : LlcacheObject :=
  { object with
    fetch := { object.fetch with fetch := none }
    cache := invalidCacheControl
    headers := [] }

/-- The user has to be asked for credentials. -/
def denyAuth (object : LlcacheObject) : LlcacheObject :=
  { object with fetch := { object.fetch with triedWithAuth := false, state := .complete } }

/-- The next fetch tries the stored credentials. -/
def tryAuth (object : LlcacheObject) : LlcacheObject :=
  { object with fetch := { object.fetch with triedWithAuth := true } }

/-- The transport of an object counts as tainted after its failure. -/
def taint (object : LlcacheObject) : LlcacheObject :=
  { object with
    fetch := { object.fetch with fetch := none, taintedTls := true }
    cache := invalidCacheControl }

/-- The next fetch uses an older TLS. -/
def downgradeTls (object : LlcacheObject) : LlcacheObject :=
  { object with fetch := { object.fetch with triedWithTlsDowngrade := true } }

/-- One retry is used up. -/
def useRetry (object : LlcacheObject) : LlcacheObject :=
  { object with fetch := { object.fetch with
    retriesRemaining := object.fetch.retriesRemaining - 1 } }

namespace Cache

/-- The candidate of an object is released. A candidate that was destroyed is written after
its end. -/
def releaseCandidate (s : Cache) (id : ObjectId) : Option Cache :=
  match (s.find id).bind LlcacheObject.candidate with
  | none => some s
  | some candidate =>
      match s.find candidate with
      | none => none
      | some _ => some ((s.modify candidate (recount (· - 1))).modify id dropCandidate)

/-- All users of an object move to another one, one after the other, along so many redirects. -/
def moveUsers (now : Int) (s : Cache) (source target : ObjectId) (redirects : Nat) : Cache :=
  match s.find source with
  | none => s
  | some object =>
      let s := (s.modify source (dropUsers now)).modify target (takeUsers object.users)
      { s with handles := fun handle =>
          if (handle, false) ∈ object.users.map ObjectUser.pointer then
            (s.handles handle).map fun value =>
              { value with object := target, redirects := value.redirects + redirects }
          else s.handles handle }

/-- The end of `llcache_fetch_callback`. An object that the cleaning destroyed is read after
its end. -/
def fetchDone (out : Outside) (s : Cache) (id : ObjectId) (error : Nserror) : Option Cache :=
  let s := { s with task := none }
  if error = .ok then some s
  else
    let s := if error = .nomem then s.clean out true else s
    match s.find id with
    | none => none
    | some object =>
        if object.fetch.fetch = none then some s
        else some (s.modify id abortObject)

/-- The last part of `llcache_fetch_redirect`, after the users know of the redirect. -/
def followRedirect (out : Outside) (s : Cache) (id : ObjectId) (pending : Pending) :
    Option Cache :=
  match s.find id with
  | none => none
  | some object =>
      if isRestricted object.url ∧ isForbidden object.url then s.fetchDone out id .ok
      else if fetchCanFetch out.surroundings pending.target = false then s.fetchDone out id .ok
      else
        match redirectPost pending.httpCode pending.post with
        | none => s.fetchDone out id .ok
        | some post =>
            let retrieval : Retrieval :=
              { url := pending.target
                flags := object.fetch.flags
                referer := object.fetch.referer
                post
                redirectCount := object.fetch.redirectCount + 1
                hstsInUse := pending.hstsInUse }
            match s.retrieve out retrieval with
            | none => none
            | some (s, .error error) => s.fetchDone out id error
            | some (s, .ok dest) =>
                (s.moveUsers out.clock.now id dest 1).fetchDone out dest .ok

/-- The callbacks of all users have returned. -/
def afterSending (out : Outside) (s : Cache) (id : ObjectId) (pending : Option Pending)
    (error : Nserror) : Option Cache :=
  match pending with
  | none => s.fetchDone out id error
  | some pending =>
      if error ≠ .ok then s.fetchDone out id error
      else { s with task := none }.followRedirect out id pending

/-- The loop of `llcache_send_event_to_users` calls this user, or is at its end. -/
def sendTo (out : Outside) (s : Cache) (id : ObjectId) (event : Event)
    (pending : Option Pending) (user : Option ObjectUser) : Option Cache :=
  match user with
  | none => s.afterSending out id pending .ok
  | some user =>
      some { s.modify id (changeUser user.handle (setTarget true))
        with task := some (.sending
          { object := id, event, user := user.handle, wasTarget := user.iteratorTarget, pending }) }

/-- This is `llcache_send_event_to_users`, with what the handler does afterwards. -/
def sendEvent (out : Outside) (s : Cache) (id : ObjectId) (event : Event)
    (pending : Option Pending) : Option Cache :=
  match s.find id with
  | none => none
  | some object => s.sendTo out id event pending object.users.head?

/-- A callback of `llcache_send_event_to_users` returns. -/
def sendingReturns (out : Outside) (s : Cache) (sending : Sending) (answer : Nserror) :
    Option Cache :=
  let id := sending.object
  match (s.find id).bind fun object =>
      (object.users.find? (·.handle == sending.user)).map fun user => (object, user) with
  | none => none
  | some (object, user) =>
      let next := nextUser sending.user object.users
      let s := s.modify id (changeUser user.handle (setTarget sending.wasTarget))
      let s := if user.queuedForDelete ∧ sending.wasTarget = false then
          s.dropUser out.clock.now id user
        else s
      if answer ≠ .ok then s.afterSending out id sending.pending answer
      else s.sendTo out id sending.event sending.pending next

/-- The error event that tells of a failed fetch. -/
def sendError (out : Outside) (s : Cache) (id : ObjectId) (code : Nserror) (msg : Message) :
    Option Cache :=
  s.sendEvent out id (.error code msg) none

/-- This is `llcache_object_refetch` on an object of a list, after a change to it. -/
def refetchObject (out : Outside) (s : Cache) (id : ObjectId)
    (change : LlcacheObject → LlcacheObject) (object : LlcacheObject) : Option Cache :=
  let error := (refetch out (change object)).1
  (s.modify id fun object => (refetch out (change object)).2).fetchDone out id error

/-- The first part of `llcache_fetch_redirect`, up to the event for the users. -/
def fetchRedirect (out : Outside) (s : Cache) (id : ObjectId) (object : LlcacheObject)
    (target : Bytes) : Option Cache :=
  let s := s.modify id completeObject
  if REDIRECT_LIMIT < object.fetch.redirectCount then
    s.sendError out id .badRedirect (.key "BadRedirect")
  else
    match Nsurl.nsurlJoin out.junk object.url target with
    | .error .badUrl => s.fetchDone out id .badUrl
    | .error .undefined => none
    | .ok url =>
        let (hstsUrl, hstsInUse) := hstsTransformUrl out.surroundings url
        s.sendEvent out id (.redirect object.url hstsUrl) (some
          { target := hstsUrl, hstsInUse, httpCode := fetchHttpCode object
            post := object.fetch.post })

/-- This is `llcache_fetch_notmodified`. -/
def fetchNotModified (out : Outside) (s : Cache) (id : ObjectId) (object : LlcacheObject) :
    Option Cache :=
  let now := out.clock.now
  match object.candidate with
  | none => (s.modify id completeObject).fetchDone out id .ok
  | some candidate =>
      match s.find candidate with
      | none => none
      | some _ => do
          let s ← (s.moveUsers now id candidate 0).releaseCandidate id
          let s := s.modify candidate (validated now object.cache)
          (s.modify id completeObject).fetchDone out candidate .ok

/-- This is `llcache_fetch_process_data`. -/
def fetchProcessData (s : Cache) (id : ObjectId) (object : LlcacheObject) (buf : Bytes) :
    Option Cache :=
  let started := if object.fetch.state = .data then some s
    else (s.modify id startData).releaseCandidate id
  started.map fun s => s.modify id (appendData buf)

/-- This is `llcache_fetch_auth`. -/
def fetchAuth (out : Outside) (s : Cache) (id : ObjectId) (object : LlcacheObject)
    (realm : Option Bytes) : Option Cache :=
  let realm := realm.getD (Nsurl.access object.url)
  let s := s.modify id abandonResponse
  if out.authDetails object.url realm = none ∨ object.fetch.triedWithAuth = true then
    (s.modify id denyAuth).sendError out id .badAuth (.text (some realm))
  else
    s.refetchObject out id tryAuth (abandonResponse object)

/-- This is `llcache_fetch_cert_error`. -/
def fetchCertError (out : Outside) (s : Cache) (id : ObjectId) (object : LlcacheObject) :
    Option Cache :=
  let s := s.modify id fun object => completeFetch (taint object)
  if object.fetch.hstsInUse = false then s.sendError out id .badCerts (.key "FetchFailed")
  else s.sendError out id .unknown (.key "FetchFailed")

/-- This is `llcache_fetch_ssl_error`. -/
def fetchSslError (out : Outside) (s : Cache) (id : ObjectId) (object : LlcacheObject) :
    Option Cache :=
  let s := s.modify id taint
  if object.fetch.hstsInUse ∨ object.fetch.triedWithTlsDowngrade then
    (s.modify id completeFetch).sendError out id .unknown (.key "FetchFailed")
  else
    s.refetchObject out id downgradeTls (taint object)

/-- This is `llcache_fetch_timeout`. -/
def fetchTimeout (out : Outside) (s : Cache) (id : ObjectId) (object : LlcacheObject) :
    Option Cache :=
  if 1 < object.fetch.retriesRemaining then
    s.refetchObject out id useRetry object
  else do
    let s ← s.releaseCandidate id
    (s.modify id failFetch).sendError out id .timeout (.text none)

/-- This is `llcache_fetch_callback` for an object with a running fetch. -/
def fetchCallback (out : Outside) (s : Cache) (id : ObjectId) (msg : FetchMsg) : Option Cache :=
  match s.find id with
  | none => none
  | some object =>
      if object.fetch.fetch = none then none
      else
        match msg with
        | .header buf =>
            (s.modify id (receiveHeader out.clock buf)).fetchDone out id .ok
        | .redirect target => do
            (← s.releaseCandidate id).fetchRedirect out id object target
        | .notModified => s.fetchNotModified out id object
        | .data buf => do
            (← s.fetchProcessData id object buf).fetchDone out id .ok
        | .finished => (s.modify id (finishObject out)).fetchDone out id .ok
        | .timedOut => s.fetchTimeout out id object
        | .error msg => do
            let s ← s.releaseCandidate id
            (s.modify id failFetch).sendError out id .unknown (.text (some msg))
        | .progress msg => s.sendEvent out id (.progress msg) none
        | .certs chain =>
            (s.modify id (receiveChain chain)).sendEvent out id (.gotCerts chain) none
        | .auth realm => do
            (← s.releaseCandidate id).fetchAuth out id object realm
        | .certErr => do
            (← s.releaseCandidate id).fetchCertError out id object
        | .sslErr => do
            (← s.releaseCandidate id).fetchSslError out id object

end Cache

/-- The states of a fetch are in this order. -/
def FetchState.rank : FetchState → Nat
  | .init => 0
  | .headers => 1
  | .data => 2
  | .complete => 3

/-- A user that has not seen the headers sees the certificates first, if there are any. -/
def catchUpInit (objstate : FetchState) (object : LlcacheObject) (handle : Handle) :
    Handle × Option Event :=
  if handle.state = .init ∧ FetchState.init.rank < objstate.rank then
    ({ handle with state := .headers }, object.chain.map Event.gotCerts)
  else (handle, none)

/-- The event data of source data that a user has not seen. -/
def unseenData (object : LlcacheObject) (handle : Handle) : Bytes :=
  ((object.sourceData.getD []).take object.sourceLen).drop handle.bytes

/-- The object streams its data. -/
def isStreaming (object : LlcacheObject) : Bool := object.fetch.flags &&& STREAM_DATA != 0

/-- The body of the loop of `llcache_object_notify_users` up to its next event: the handle and the
object after it. Going through it again after an event finds the stage after that event. -/
def catchUp (objstate : FetchState) (object : LlcacheObject) (handle : Handle) :
    Handle × LlcacheObject × Option Event :=
  let (handle, certs) := catchUpInit objstate object handle
  if certs ≠ none then (handle, object, certs)
  else if handle.state = .headers ∧ FetchState.headers.rank < objstate.rank then
    ({ handle with state := .data }, object, some .hadHeaders)
  else if handle.state = .data ∧ FetchState.data.rank ≤ objstate.rank ∧
      handle.bytes < object.sourceLen then
    let event := Event.hadData (unseenData object handle)
    if isStreaming object then
      ({ handle with bytes := 0 }, { object with sourceLen := 0 }, some event)
    else ({ handle with bytes := object.sourceLen }, object, some event)
  else if handle.state = .data ∧ FetchState.data.rank < objstate.rank then
    ({ handle with state := .complete }, object, some .done)
  else (handle, object, none)

/-- Streaming gives the source data away. -/
def setLength (length : Nat) (object : LlcacheObject) : LlcacheObject :=
  { object with sourceLen := length }

/-- A client that asks for more data gets the event again. -/
def replay (event : Event) (origHandleRead : Nat) (handle : Handle) : Handle :=
  match event with
  | .hadData _ => { handle with bytes := origHandleRead }
  | .done => { handle with state := .data }
  | _ => { handle with state := .headers }

namespace Cache

/-- The loop of `llcache_object_notify_users` goes on with these users. -/
def notifyFrom (s : Cache) (id : ObjectId) (objstate : FetchState) : List ObjectUser → Option Cache
  | [] => some { s with task := none }
  | user :: rest =>
      match s.handles user.handle, s.find id with
      | some handle, some object =>
          let (caughtUp, left, event) := catchUp objstate object handle
          let s := (s.setHandle user.handle (some caughtUp)).modify id (setLength left.sourceLen)
          match event with
          | none =>
              (s.modify id (changeUser user.handle (setTarget false))).notifyFrom id objstate rest
          | some event =>
              let origHandleRead := if isStreaming object then 0 else handle.bytes
              some { s.modify id (changeUser user.handle (setTarget true)) with
                task := some (.notifying
                  { object := id, objstate, user := user.handle, event, origHandleRead }) }
      | _, _ => none

/-- This is `llcache_object_notify_users`. -/
def notifyUsers (s : Cache) (id : ObjectId) : Option Cache :=
  match s.find id with
  | none => none
  | some object => s.notifyFrom id object.fetch.state object.users

/-- A callback of `llcache_object_notify_users` returns. -/
def notifyingReturns (out : Outside) (s : Cache) (notifying : Notifying) (answer : Nserror) :
    Option Cache :=
  let id := notifying.object
  match s.find id with
  | none => none
  | some object =>
      match object.users.dropWhile fun user => user.handle ≠ notifying.user with
      | [] => none
      | user :: rest =>
          if user.queuedForDelete then
            let s := s.dropUser out.clock.now id user
            if answer ≠ .ok then some { s with task := none }
            else s.notifyFrom id notifying.objstate rest
          else
            let released := s.modify id (changeUser user.handle (setTarget false))
            if answer = .needData then
              (released.setHandle user.handle ((s.handles user.handle).map
                (replay notifying.event notifying.origHandleRead))).notifyFrom id
                  notifying.objstate rest
            else if answer ≠ .ok then some { released with task := none }
            else s.notifyFrom id notifying.objstate (user :: rest)

end Cache

/-- What can happen to the cache: a client calls it, also inside a callback, a fetcher sends an
event or learns a response code, a scheduled call runs, or a callback returns. -/
inductive Input where
  | handleRetrieve (url : Nsurl) (flags : UInt32) (referer : Option Nsurl) (post : Option PostData)
  | handleRelease (handle : Nat)
  | handleClone (handle : Nat)
  | handleAbort (handle : Nat)
  | handleForceStream (handle : Nat)
  | handleInvalidateCacheData (handle : Nat)
  | clean (purge : Bool)
  | fetch (object : ObjectId) (msg : FetchMsg)
  | httpCode (object : ObjectId) (code : Int)
  | notifyUsers (object : ObjectId)
  | persist
  | returns (answer : Nserror)
  | finalise
  deriving DecidableEq, Repr

/-- A fetcher learns the response code of its fetch. -/
def learnHttpCode (code : Int) (object : LlcacheObject) : LlcacheObject :=
  { object with fetch := { object.fetch with
    fetch := object.fetch.fetch.map fun _ => { httpCode := code } } }

namespace Cache

/-- One step of the cache. There is none where C defines no behaviour, and while a callback runs
only its client acts. -/
def step (out : Outside) (s : Cache) (input : Input) : Option Cache :=
  if s.finalised then none
  else
    match input, s.task with
    | .handleRetrieve url flags referer post, _ =>
        (s.handleRetrieve out url flags referer post).map Prod.fst
    | .handleRelease handle, _ => s.handleRelease out handle
    | .handleClone handle, _ => (s.handleClone handle).map Prod.fst
    | .handleAbort handle, _ => s.handleAbort out handle
    | .handleForceStream handle, _ => s.handleForceStream handle
    | .handleInvalidateCacheData handle, _ => s.handleInvalidateCacheData handle
    | .clean purge, _ => some (s.clean out purge)
    | .returns answer, some (.sending sending) => s.sendingReturns out sending answer
    | .returns answer, some (.notifying notifying) => s.notifyingReturns out notifying answer
    | .returns _, none => none
    | _, some _ => none
    | .fetch id msg, none => s.fetchCallback out id msg
    | .httpCode id code, none => some (s.modify id (learnHttpCode code))
    | .notifyUsers id, none => s.notifyUsers id
    | .persist, none => some (s.persist out)
    | .finalise, none => some (s.finalise out)

/-- The cache after `llcache_initialise`. -/
def initial (parameters : Parameters) : Cache := { parameters }

/-- The steps of a run, each with what surrounds it. -/
def run (s : Cache) (steps : List (Outside × Input)) : Option Cache :=
  steps.foldlM (fun s x => s.step x.1 x.2) s

end Cache

end Neosurf.Llcache
