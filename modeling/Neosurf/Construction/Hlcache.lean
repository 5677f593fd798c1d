/-
This file models the high-level cache of `content/hlcache.c`. Handles and low-level handles are
found by their numbers. To read a handle that was released, and to release a low-level handle
again, is `none`.
-/

import Mathlib.Logic.Function.Basic
import Neosurf.Construction.Content
import Neosurf.Construction.Mimesniff

namespace Neosurf.Hlcaching

open Contents Mimesniff

/-- These are the messages of `content_msg` that the cache sends by itself. -/
inductive HlcacheMsg
  | sslCerts
  | loading
  | ready
  | done
  | error
  | redirect
  | download
  | other
  deriving DecidableEq

/-- These are the parts of a `struct content_handler` that the cache looks at. -/
structure Handler where
  type : Nat
  noShare : Bool
  matchesQuirks : Bool

/-- This is `struct hlcache_handle`. A failed one was told of an error. A loose one was told of a
download, or was aborted before it had an entry. -/
structure Handle where
  entry : Option Nat
  failed : Bool
  loose : Bool
  deriving DecidableEq

/-- This is `struct hlcache_retrieval_ctx`. -/
structure RetrievalCtx where
  llcache : Nat
  handle : Nat
  sniffType : Bool
  mayDownload : Bool
  acceptedTypes : Nat
  quirks : Bool
  migrateTarget : Bool

/-- This is `struct hlcache_entry` with its `struct content`. An entry is found by the low-level
handle of its content. -/
structure Entry where
  llcache : Nat
  mimeType : Bytes
  handler : Handler
  quirks : Bool
  status : ContentStatus
  users : List Nat

/-- A handle was associated with a content of this type, for a retrieval with these types. -/
structure Association where
  acceptedTypes : Nat
  type : Nat

/-- This is `struct hlcache_s`, with the handles and the objects of the low-level handles. The
downloads are the low-level handles that clients own. -/
structure Hlcache where
  contentList : List Entry
  retrievalCtxRing : List RetrievalCtx
  handles : Nat → Option Handle
  objects : Nat → Option Nat
  downloads : List Nat
  associations : List Association
  freshHandle : Nat
  freshLlcache : Nat

/-- What a client does in a callback. An abort may have to clone the content, which can fail. -/
inductive Reaction
  | stay
  | release
  | abort (cloned : Bool)
  | abortAndRelease (cloned : Bool)

/-- A client reacts to every message to a handle. -/
abbrev Reactions := Nat → HlcacheMsg → Reaction

namespace Hlcache

variable (s : Hlcache)

def setHandle (a : Nat) (h : Option Handle) : Hlcache :=
  { s with handles := Function.update s.handles a h }

/-- This is `llcache_handle_release`. -/
def releaseLlcache (l : Nat) : Option Hlcache :=
  if (s.objects l).isSome then some { s with objects := Function.update s.objects l none }
  else none

/-- The first content with this low-level handle is changed. -/
def modifyEntry (l : Nat) (change : Entry → Entry) : Hlcache :=
  { s with contentList := s.contentList.map fun e => if e.llcache = l then change e else e }

/-- This is `content_add_user`. -/
def addUser (l a : Nat) : Hlcache :=
  s.modifyEntry l fun e => { e with users := a :: e.users }

/-- This is `content_remove_user`. -/
def removeUser (l a : Nat) : Hlcache :=
  s.modifyEntry l fun e => { e with users := e.users.erase a }

/-- The context of a handle that is not migrating is aborted and thrown away. -/
def dropCtx (a : Nat) : Option Hlcache :=
  match s.retrievalCtxRing.find? fun ctx => ctx.handle = a ∧ ctx.migrateTarget = false with
  | none => some s
  | some ctx => do
      let s ← s.releaseLlcache ctx.llcache
      some { s with
        retrievalCtxRing := s.retrievalCtxRing.filter fun other => other.llcache ≠ ctx.llcache }

/-- The handle is no user of its content, or its context is thrown away. -/
def leave (h : Handle) (a : Nat) : Option Hlcache :=
  match h.entry with
  | some l => some (s.removeUser l a)
  | none => s.dropCtx a

/-- This is `hlcache_handle_release`. -/
def handleRelease (a : Nat) : Option Hlcache := do
  let h ← s.handles a
  let s ← s.leave h a
  some (s.setHandle a none)

/-- The handle goes on with a clone of its content, which nobody else uses. -/
def cloneEntry (a : Nat) (e : Entry) : Hlcache :=
  let l := s.freshLlcache
  let s := s.removeUser e.llcache a
  let clone : Entry := { e with llcache := l, users := [a] }
  { s with
    contentList := clone :: s.contentList
    objects := Function.update s.objects l (s.objects e.llcache)
    handles := Function.update s.handles a
      ((s.handles a).map fun h => { h with entry := some l })
    freshLlcache := l + 1 }

/-- This is `hlcache_handle_abort`. To abort the content itself moves nothing in the cache. -/
def handleAbort (a : Nat) (cloned : Bool) : Option Hlcache := do
  let h ← s.handles a
  match h.entry with
  | none => do
      let s ← s.dropCtx a
      some (s.setHandle a (some { h with loose := true }))
  | some l => do
      let e ← s.contentList.find? fun e => e.llcache = l
      some (if 1 < e.users.length && cloned then s.cloneEntry a e else s)

/-- A handle is told of a message. -/
def tell (a : Nat) (h : Handle) (msg : HlcacheMsg) : Hlcache :=
  s.setHandle a <| some
    { h with failed := h.failed || msg = .error, loose := h.loose || msg = .download }

/-- What the client of a handle does. -/
def act (a : Nat) : Reaction → Option Hlcache
  | .stay => some s
  | .release => s.handleRelease a
  | .abort cloned => s.handleAbort a cloned
  | .abortAndRelease cloned => do
      let s ← s.handleAbort a cloned
      s.handleRelease a

/-- A message is delivered to a handle, and its client reacts. -/
def deliver (a : Nat) (msg : HlcacheMsg) (react : Reactions) : Option Hlcache := do
  let h ← s.handles a
  (s.tell a h msg).act a (react a msg)

/-- This is `content_broadcast`, as far as it reaches clients of the cache. The users are those
that the content has at the start, since a client acts on no handle but its own. -/
def broadcast (msg : HlcacheMsg) (react : Reactions) : List Nat → Hlcache → Option Hlcache
  | [], s => some s
  | a :: rest, s => do
      let s ← s.deliver a msg react
      broadcast msg react rest s

/-- The content that `hlcache_find_content` picks up, if there is one. -/
def suitable (ctx : RetrievalCtx) (e : Entry) : Bool :=
  e.status ≠ .error && !e.handler.noShare && (!e.handler.matchesQuirks || e.quirks == ctx.quirks) &&
    s.objects e.llcache == s.objects ctx.llcache

/-- The messages that tell a handle of the status of its content. -/
def catchUp (status : ContentStatus) (a : Nat) (react : Reactions) : Option Hlcache :=
  match status with
  | .loading => s.deliver a .loading react
  | .ready => do
      let s ← s.deliver a .loading react
      s.deliver a .ready react
  | .done => do
      let s ← s.deliver a .loading react
      let s ← s.deliver a .ready react
      s.deliver a .done react
  | .error => some s

/-- The handle becomes a user of the content. -/
def associate (ctx : RetrievalCtx) (e : Entry) : Hlcache :=
  let s := s.addUser e.llcache ctx.handle
  { s with
    handles := Function.update s.handles ctx.handle
      ((s.handles ctx.handle).map fun h => { h with entry := some e.llcache })
    associations := ⟨ctx.acceptedTypes, e.handler.type⟩ :: s.associations }

/-- This is `hlcache_find_content`, which tells whether there is a content for the handle. A new
content may not be created. -/
def findContent (factory : Bytes → Option Handler) (ctx : RetrievalCtx) (effectiveType : Bytes)
    (created : Bool) (react : Reactions) : Option (Hlcache × Bool) :=
  match s.contentList.find? (s.suitable ctx) with
  | some e => do
      let s ← s.releaseLlcache ctx.llcache
      let s ← (s.associate ctx e).catchUp e.status ctx.handle react
      some (s, true)
  | none =>
      match factory effectiveType with
      | none => some (s, false)
      | some handler =>
          if created then do
            let e : Entry :=
              { llcache := ctx.llcache
                mimeType := effectiveType
                handler := handler
                quirks := ctx.quirks
                status := .loading
                users := [] }
            let s ← ({ s with contentList := e :: s.contentList }.associate ctx e).catchUp
              .loading ctx.handle react
            some (s, true)
          else some (s, false)

/-- This is `content_factory_type_from_mime_type`. -/
def typeFromMimeType (factory : Bytes → Option Handler) (mimeType : Bytes) : Nat :=
  ((factory mimeType).map Handler.type).getD 0

/-- The client is told of an error, and the low-level handle is given up. -/
def report (ctx : RetrievalCtx) (react : Reactions) : Option Hlcache := do
  let s ← s.deliver ctx.handle .error react
  s.releaseLlcache ctx.llcache

/-- The low-level handle is given to the client. -/
def download (ctx : RetrievalCtx) (react : Reactions) : Option Hlcache :=
  { s with downloads := ctx.llcache :: s.downloads }.deliver ctx.handle .download react

/-- The context becomes the migration target, which no client can throw away. -/
def beginMigration (ctx : RetrievalCtx) : Hlcache :=
  { s with
    retrievalCtxRing := s.retrievalCtxRing.map fun other =>
      if other.llcache = ctx.llcache then { other with migrateTarget := true } else other }

/-- The context is thrown away. -/
def endMigration (ctx : RetrievalCtx) : Hlcache :=
  { s with
    retrievalCtxRing := s.retrievalCtxRing.filter fun other => other.llcache ≠ ctx.llcache }

/-- This is what `hlcache_migrate_ctx` does for a type. -/
def migrateType (factory : Bytes → Option Handler) (ctx : RetrievalCtx)
    (effectiveType : Option Bytes) (created : Bool) (react : Reactions) : Option Hlcache :=
  let type := (effectiveType.map (typeFromMimeType factory)).getD 0
  match effectiveType with
  | some mimeType =>
      if ctx.acceptedTypes &&& type ≠ 0 then do
        let (s, found) ← s.findContent factory ctx mimeType created react
        if found then some s else s.report ctx react
      else if type = 0 ∧ ctx.mayDownload = true then s.download ctx react
      else s.report ctx react
  | none => if ctx.mayDownload = true then s.download ctx react else s.report ctx react

/-- This is `hlcache_migrate_ctx`. -/
def migrateCtx (factory : Bytes → Option Handler) (ctx : RetrievalCtx)
    (effectiveType : Option Bytes) (created : Bool) (react : Reactions) : Option Hlcache := do
  let s ← (s.beginMigration ctx).migrateType factory ctx effectiveType created react
  some (s.endMigration ctx)

end Hlcache

/-- These are the events of a low-level handle that belongs to a retrieval. -/
inductive LowEvent
  | gotCerts
  | hadHeaders (contentType : Option Bytes)
  | hadData (contentType : Option Bytes) (data : Bytes)
  | done (contentType : Option Bytes)
  | error
  | progress
  | redirect

namespace Hlcache

/-- This is `hlcache_llcache_callback`. -/
def llcacheCallback (s : Hlcache) (factory : Bytes → Option Handler) (ctx : RetrievalCtx)
    (event : LowEvent) (created : Bool) (react : Reactions) : Option Hlcache :=
  let isImage := fun mimeType => typeFromMimeType factory mimeType = 8
  match event with
  | .gotCerts => s.deliver ctx.handle .sslCerts react
  | .hadHeaders header =>
      match computeEffectiveType isImage header none ctx.sniffType (ctx.acceptedTypes = 8) with
      | .ok mimeType => s.migrateCtx factory ctx (some mimeType) created react
      | .error .notFound => s.migrateCtx factory ctx none created react
      | .error .needData => some s
  | .hadData header data =>
      match computeEffectiveType isImage header (some data) ctx.sniffType
        (ctx.acceptedTypes = 8) with
      | .ok mimeType => s.migrateCtx factory ctx (some mimeType) created react
      | .error _ => none
  | .done header =>
      match computeEffectiveType isImage header none false false with
      | .ok mimeType => s.migrateCtx factory ctx (some mimeType) created react
      | .error .notFound => s.migrateCtx factory ctx none created react
      | .error .needData => s.deliver ctx.handle .error react
  | .error => s.deliver ctx.handle .error react
  | .progress => some s
  | .redirect => s.deliver ctx.handle .redirect react

/-- This is `hlcache_handle_retrieve`, once the low-level cache has answered with a handle. -/
def handleRetrieve (s : Hlcache) (object : Nat) (sniffType mayDownload : Bool) (acceptedTypes : Nat)
    (quirks : Bool) : Hlcache :=
  let ctx : RetrievalCtx :=
    { llcache := s.freshLlcache
      handle := s.freshHandle
      sniffType := sniffType
      mayDownload := mayDownload
      acceptedTypes := acceptedTypes
      quirks := quirks
      migrateTarget := false }
  { s with
    retrievalCtxRing := ctx :: s.retrievalCtxRing
    handles := Function.update s.handles s.freshHandle (some ⟨none, false, false⟩)
    objects := Function.update s.objects s.freshLlcache (some object)
    freshHandle := s.freshHandle + 1
    freshLlcache := s.freshLlcache + 1 }

/-- This is `hlcache_clean` for one content, which nobody uses. -/
def cleanEntry (s : Hlcache) (e : Entry) : Option Hlcache := do
  let s ← s.releaseLlcache e.llcache
  some { s with contentList := s.contentList.filter fun other => other.llcache ≠ e.llcache }

/-- This is `hlcache_clean`. -/
def clean (forceClean : Bool) : List Entry → Hlcache → Option Hlcache
  | [], s => some s
  | e :: rest, s =>
      if e.users = [] ∧ (e.status ≠ .loading ∨ forceClean = true) then do
        let s ← s.cleanEntry e
        clean forceClean rest s
      else clean forceClean rest s

end Hlcache

/-- These are the steps of a run: what clients ask for, what the low-level cache tells, and what
contents tell their users. The low-level cache may also move a handle to another object. -/
inductive HlcacheStep
  | retrieve (object : Nat) (sniffType mayDownload : Bool) (acceptedTypes : Nat) (quirks : Bool)
  | event (llcache : Nat) (event : LowEvent) (created : Bool) (react : Reactions)
  | setStatus (llcache : Nat) (status : ContentStatus)
  | broadcast (llcache : Nat) (msg : HlcacheMsg) (react : Reactions)
  | release (handle : Nat)
  | abort (handle : Nat) (cloned : Bool)
  | clean (forceClean : Bool)
  | moveObject (llcache object : Nat)
  | endDownload (llcache : Nat)

namespace Hlcache

def step (factory : Bytes → Option Handler) (s : Hlcache) : HlcacheStep → Option Hlcache
  | .retrieve object sniffType mayDownload acceptedTypes quirks =>
      some (s.handleRetrieve object sniffType mayDownload acceptedTypes quirks)
  | .event l event created react =>
      match s.retrievalCtxRing.find? fun ctx => ctx.llcache = l with
      | none => some s
      | some ctx => s.llcacheCallback factory ctx event created react
  | .setStatus l status => some (s.modifyEntry l fun e => { e with status := status })
  | .broadcast l msg react =>
      match s.contentList.find? fun e => e.llcache = l with
      | none => some s
      | some e => broadcast msg react e.users s
  | .release a => s.handleRelease a
  | .abort a cloned => s.handleAbort a cloned
  | .clean forceClean => clean forceClean s.contentList s
  | .moveObject l object =>
      some { s with objects := Function.update s.objects l ((s.objects l).map fun _ => object) }
  | .endDownload l => do
      let s ← s.releaseLlcache l
      some { s with downloads := s.downloads.erase l }

/-- The steps of a run come one after another. -/
def run (factory : Bytes → Option Handler) : List HlcacheStep → Hlcache → Option Hlcache
  | [], s => some s
  | x :: rest, s => do
      let s ← s.step factory x
      run factory rest s

def init : Hlcache :=
  { contentList := []
    retrievalCtxRing := []
    handles := fun _ => none
    objects := fun _ => none
    downloads := []
    associations := []
    freshHandle := 0
    freshLlcache := 0 }

end Hlcache

end Neosurf.Hlcaching
