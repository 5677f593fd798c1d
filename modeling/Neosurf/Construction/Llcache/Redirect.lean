/-
This file models `llcache_fetch_redirect`, which follows a redirect of a fetch.
-/

import Neosurf.Construction.Llcache.Object
import Neosurf.Construction.Nsurl.Create

namespace Neosurf.Llcache

/-- These are the events that a redirect sends to the users of an object. -/
inductive LlcacheEvent where
  | error (code : Nserror) (msg : String)
  | redirect (source target : Nsurl)
  deriving DecidableEq, Repr

/-- These are the arguments of one call of `llcache_object_retrieve`. -/
structure Retrieval where
  url : Nsurl
  flags : UInt32
  referer : Option Nsurl
  post : Option PostData
  redirectCount : UInt32
  hstsInUse : Bool
  deriving DecidableEq, Repr

/-- A fetcher serves one scheme, and accepts only some of its URLs. -/
structure Fetcher where
  scheme : LwcString
  acceptable : Nsurl → Bool

/-- What surrounds the object: the callback of a handle answers an event with an error code
and may queue its user for deletion. A retrieval gives an error or the number of an object. -/
structure Surroundings where
  junk : Nsurl.Buff
  callback : Nat → LlcacheEvent → Nserror × Bool
  hstsEnabled : Nsurl → Bool
  fetchers : List Fetcher
  retrieve : Retrieval → Except Nserror Nat

/-- This is the comparison of a URL's scheme with a known one. -/
def schemeIsequal (url : Nsurl) (name : LwcString) : Nat × Bool :=
  match url.components.scheme with
  | some scheme => lwcStringIsequal scheme name
  | none => (lwcErrorOk, false)

/-- The caseless comparison reads through the scheme, which every URL has. -/
def schemeCaselessIsequal (url : Nsurl) (name : LwcString) : Nat × Bool :=
  lwcStringCaselessIsequal (url.components.scheme.getD []) name

/-- This is `llcache_send_event_to_users`. The first error stops it. -/
def sendEventToUsers (callback : Nat → LlcacheEvent → Nserror × Bool) (event : LlcacheEvent) :
    List ObjectUser → Nserror × List ObjectUser
  | [] => (.ok, [])
  | user :: rest =>
      let answer := callback user.handle event
      let user := { user with queuedForDelete := user.queuedForDelete || answer.2 }
      let kept := if user.queuedForDelete ∧ user.iteratorTarget = false then [] else [user]
      if answer.1 ≠ .ok then (answer.1, kept ++ rest)
      else
        let (error, others) := sendEventToUsers callback event rest
        (error, kept ++ others)

/-- This is `llcache_hsts_transform_url`. -/
def hstsTransformUrl (around : Surroundings) (url : Nsurl) : Nsurl × Bool :=
  let answer := schemeCaselessIsequal url (str "http")
  if answer.1 ≠ lwcErrorOk ∨ answer.2 = false then (url, false)
  else if around.hstsEnabled url then (Nsurl.replaceScheme url (str "https"), true)
  else (url, false)

/-- This is `llcache_hsts_update_policy`, with the policy text that it hands on. -/
def hstsUpdatePolicy (object : LlcacheObject) : Option Bytes :=
  let answer := schemeCaselessIsequal object.url (str "https")
  if answer.1 ≠ lwcErrorOk ∨ answer.2 = false ∨ object.fetch.taintedTls then none
  else
    (object.headers.find? fun header =>
      strcasecmp (str "Strict-Transport-Security") header.name == .eq).map Header.value

/-- This is `fetch_can_fetch`. The first fetcher of the scheme decides. -/
def fetchCanFetch (around : Surroundings) (url : Nsurl) : Bool :=
  match around.fetchers.find? fun fetcher =>
      let answer := schemeIsequal url fetcher.scheme
      answer.1 == lwcErrorOk && answer.2 with
  | some fetcher => fetcher.acceptable url
  | none => false

def REDIRECT_LIMIT : UInt32 := 10

/-- The request after a redirect: some codes drop the POST data, and others are not
followed. -/
def redirectPost (httpCode : Int) (post : Option PostData) : Option (Option PostData) :=
  if httpCode = 301 ∨ httpCode = 302 ∨ httpCode = 303 then some none
  else if httpCode ≠ 307 ∨ post ≠ none then none
  else some post

/-- What a redirect leaves: its error code, the object, the HSTS policy text it handed on,
the retrievals it started, and the object that got the users. -/
structure Redirected where
  error : Nserror
  object : LlcacheObject
  hstsPolicy : Option Bytes
  retrievals : List Retrieval := []
  replacement : Option (Nat × List ObjectUser) := none
  deriving DecidableEq, Repr

/-- The object of a redirect has no fetch and is complete. -/
def completeObject (object : LlcacheObject) : LlcacheObject :=
  { object with
    cache := invalidCacheControl
    fetch := { object.fetch with fetch := none, state := .complete } }

/-- These are the schemes that may redirect anywhere. The comparisons are those of the code. -/
def isRestricted (url : Nsurl) : Bool :=
  let resource := schemeIsequal url (str "resource")
  let about := schemeIsequal url (str "about")
  resource.1 == lwcErrorOk && resource.2 == false && about.1 == lwcErrorOk && about.2 == false

/-- These are the schemes that no target may have. -/
def isForbidden (url : Nsurl) : Bool :=
  let file := schemeIsequal url (str "file")
  let about := schemeIsequal url (str "about")
  let resource := schemeIsequal url (str "resource")
  (file.1 == lwcErrorOk && file.2 == true) || (about.1 == lwcErrorOk && about.2 == true) ||
    (resource.1 == lwcErrorOk && resource.2 == true)

/-- The users move to the head of the list of the new object, one after the other. -/
def movedUsers (users : List ObjectUser) : List ObjectUser := users.reverse

/-- The last part of `llcache_fetch_redirect` retrieves the target and moves the users. -/
def retrieveTarget (around : Surroundings) (redirected : Redirected) (hstsUrl : Nsurl)
    (hstsInUse : Bool) (post : Option PostData) : Redirected :=
  let object := redirected.object
  let retrieval : Retrieval :=
    { url := hstsUrl, flags := object.fetch.flags, referer := object.fetch.referer, post
      redirectCount := object.fetch.redirectCount + 1, hstsInUse }
  match around.retrieve retrieval with
  | .error error => { redirected with error, retrievals := [retrieval] }
  | .ok dest =>
      { redirected with
        object := { object with users := [] }
        retrievals := [retrieval]
        replacement := some (dest, movedUsers object.users) }

/-- This is `llcache_fetch_redirect`. The two scheme tests both read the scheme of the
object. A join without a defined result has none here either. -/
def llcacheFetchRedirect (around : Surroundings) (object : LlcacheObject) (target : Bytes) :
    Option Redirected :=
  let post := object.fetch.post
  let httpCode := (object.fetch.fetch.map Fetch.httpCode).getD 0
  let hstsPolicy := hstsUpdatePolicy object
  let object := completeObject object
  if REDIRECT_LIMIT < object.fetch.redirectCount then
    let (error, users) := sendEventToUsers around.callback (.error .badRedirect "BadRedirect")
      object.users
    some { error, object := { object with users }, hstsPolicy }
  else
    match Nsurl.nsurlJoin around.junk object.url target with
    | .error .badUrl => some { error := .badUrl, object, hstsPolicy }
    | .error .undefined => none
    | .ok url =>
        let (hstsUrl, hstsInUse) := hstsTransformUrl around url
        let (error, users) := sendEventToUsers around.callback (.redirect object.url hstsUrl)
          object.users
        let object := { object with users }
        let stopped : Redirected := { error := .ok, object, hstsPolicy }
        if error ≠ .ok then some { stopped with error }
        else if isRestricted object.url ∧ isForbidden object.url then some stopped
        else if fetchCanFetch around hstsUrl = false then some stopped
        else
          match redirectPost httpCode post with
          | none => some stopped
          | some post => some (retrieveTarget around stopped hstsUrl hstsInUse post)

end Neosurf.Llcache
