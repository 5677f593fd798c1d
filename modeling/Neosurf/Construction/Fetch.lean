/-
This file models the queue and the active ring of `content/fetch.c`, and the fetcher of data URLs,
`content/fetchers/data.c`.
-/

import Mathlib.Data.UInt
import Neosurf.Construction.Base64
import Neosurf.Construction.Bytes
import Neosurf.Construction.Url
import Neosurf.ToMathlib.Rings

namespace Neosurf.Fetching

/-- This is `fetch_msg_type`. -/
inductive FetchMsgType where
  | progress | certs | header | data
  | finished | timedout | error | redirect | notmodified | auth | certErr | sslErr
  deriving DecidableEq

namespace FetchMsgType

/-- The enumeration's number for a type. -/
def toNat : FetchMsgType → Nat
  | progress => 0 | certs => 1 | header => 2 | data => 3 | finished => 4 | timedout => 5
  | error => 6 | redirect => 7 | notmodified => 8 | auth => 9 | certErr => 10 | sslErr => 11

/-- This is `FETCH_MIN_FINISHED_MSG`. -/
def MIN_FINISHED : FetchMsgType := finished

/-- This is `FETCH__INTERNAL_ABORTED`. -/
def INTERNAL_ABORTED : FetchMsgType := error

end FetchMsgType

/-- This is `struct fetch`, whose links are in its cell. -/
structure Fetch where
  host : Option Bytes
  fetchIsActive : Bool := false
  lastMsg : FetchMsgType := .progress
  deriving DecidableEq

/-- The fetches in memory and the two rings. -/
structure Fetches where
  memory : CellMemory Fetch
  fetchRing : Option Nat
  queueRing : Option Nat

/-- These are the options `max_fetchers` and `max_fetchers_per_host`. -/
structure Limits where
  maxFetchers : Int
  maxFetchersPerHost : Int

/-- A ring has no more cells than there are addresses. -/
def ROUNDS : Nat := UInt64.size

namespace Fetches

def initial : Fetches := ⟨fun _ => none, none, none⟩

variable (limits : Limits) (s : Fetches)

/-- The fetches of the active ring. -/
def active : List (Nat × Fetch) := s.memory.ringCells ROUNDS s.fetchRing

/-- The fetches of the queue ring. -/
def queued : List (Nat × Fetch) := s.memory.ringCells ROUNDS s.queueRing

/-- This is `RING_COUNTBYLWCHOST` over the active ring. -/
def countByHost (host : Option Bytes) : Int :=
  (s.active.countP fun f => f.2.host == host : Nat)

/-- The inner loop of `fetch_choose_and_dispatch`, past items with the same host. -/
def skipHost : Nat → Nat → LinkedCell Fetch → Nat × LinkedCell Fetch
  | 0, a, item => (a, item)
  | rounds + 1, a, item =>
      if item.next = s.queueRing then (a, item)
      else
        match item.next.bind fun b => (s.memory b).map fun cell => (b, cell) with
        | none => (a, item)
        | some (b, next) =>
            if next.data.host = item.data.host then skipHost rounds b next else (a, item)

/-- The loop of `fetch_choose_and_dispatch`, which yields the fetch to dispatch. -/
def chooseFrom : Nat → Nat → Option Nat
  | 0, _ => none
  | rounds + 1, a =>
      match s.memory a with
      | none => none
      | some item =>
          if s.countByHost item.data.host < limits.maxFetchersPerHost then some a
          else
            match (s.skipHost ROUNDS a item).2.next with
            | none => none
            | some b => if s.queueRing = some b then none else chooseFrom rounds b

/-- The choice that starts at the head of the queue. -/
def choose : Option Nat := s.queueRing.bind fun a => s.chooseFrom limits ROUNDS a

/-- This is `fetch_dispatch_job`, where the fetcher's `start` gives this answer. -/
def dispatchJob (a : Nat) (started : Bool) : Fetches :=
  match s.memory a with
  | none => s
  | some cell =>
      let (memory, queueRing) := s.memory.ringRemove s.queueRing a cell
      if started then
        let (memory, fetchRing) := memory.ringInsert s.fetchRing a
        { memory := memory.setData a fun f => { f with fetchIsActive := true }
          fetchRing
          queueRing }
      else
        let (memory, queueRing) := memory.ringInsert queueRing a
        { s with memory, queueRing }

end Fetches

/-- This is the outcome of a dispatch pass: the fetches, their active number, and the fetch that
was chosen last if it did not start. -/
structure Pass where
  fetches : Fetches
  allActive : Int
  refused : Option Nat := none

namespace Fetches

variable (limits : Limits)

/-- The loop of `fetch_dispatch_jobs`, from its two counters on. -/
def dispatchLoop (start : Nat → Bool) : Nat → Int → Fetches → Pass
  | 0, allActive, s => { fetches := s, allActive }
  | allQueued + 1, allActive, s =>
      if allActive < limits.maxFetchers then
        match s.choose limits with
        | none => { fetches := s, allActive }
        | some a =>
            if start a then
              dispatchLoop start allQueued (allActive + 1) (s.dispatchJob a true)
            else { fetches := s.dispatchJob a false, allActive, refused := some a }
      else { fetches := s, allActive }

/-- This is `fetch_dispatch_jobs`. A pass starts no fetch twice, so that the answers of the
fetchers are given for each fetch. -/
def dispatchJobs (start : Nat → Bool) (s : Fetches) : Pass :=
  dispatchLoop limits start s.queued.length s.active.length s

/-- The part of `fetch_start` after the fetch is set up at an address. -/
def fetchStart (a : Nat) (host : Option Bytes) (start : Nat → Bool) (s : Fetches) : Pass :=
  let memory : CellMemory Fetch := Function.update s.memory a (some ⟨none, none, { host }⟩)
  let (memory, queueRing) := memory.ringInsert s.queueRing a
  dispatchJobs limits start { s with memory, queueRing }

/-- This is `fetch_send_callback` without the callback. -/
def sendCallback (a : Nat) (type : FetchMsgType) (s : Fetches) : Fetches :=
  { s with
    memory := s.memory.setData a fun f =>
      if f.lastMsg.toNat < type.toNat then { f with lastMsg := type } else f }

/-- The part of `fetch_abort` before the fetcher's own `abort`. -/
def fetchAbort (a : Nat) (s : Fetches) : Fetches :=
  { s with memory := s.memory.setData a fun f => { f with lastMsg := .INTERNAL_ABORTED } }

/-- This is `fetch_remove_from_queues`. For a fetch in no ring it follows a null pointer. -/
def removeFromQueues (a : Nat) (s : Fetches) : Option Fetches :=
  match s.memory a with
  | none => none
  | some cell =>
      if cell.next.isNone then none
      else if cell.data.fetchIsActive then
        let (memory, fetchRing) := s.memory.ringRemove s.fetchRing a cell
        some { s with memory, fetchRing }
      else
        let (memory, queueRing) := s.memory.ringRemove s.queueRing a cell
        some { s with memory, queueRing }

/-- The start of `fetch_free`, which reports a fetch that did not finish. -/
def reportUnfinished (a : Nat) (s : Fetches) : Fetches :=
  match s.memory a with
  | none => s
  | some cell =>
      if cell.data.lastMsg.toNat < FetchMsgType.MIN_FINISHED.toNat then s.sendCallback a .error
      else s

/-- The end of `fetch_free`, after its callback. -/
def fetchFree (a : Nat) (s : Fetches) : Fetches := { s with memory := s.memory.free a }

/-- `calloc` returns an address that is not NULL and not in use. -/
def Callocs (a : Nat) (s : Fetches) : Prop := 0 < a ∧ a < UInt64.size ∧ s.memory a = none

end Fetches

/-- The state after a run of calls, and the fetches that have been taken off the rings and not
been freed yet. What a callback calls follows the call that sent it. Every fetcher takes a fetch
off the rings before it frees it. -/
inductive FetchRun (limits : Limits) : Fetches → List Nat → Prop where
  | initial : FetchRun limits .initial []
  | start {s finished} (a : Nat) (host : Option Bytes) (answers : Nat → Bool)
      (callocs : s.Callocs a) (run : FetchRun limits s finished) :
      FetchRun limits (s.fetchStart limits a host answers).fetches finished
  | dispatch {s finished} (answers : Nat → Bool) (run : FetchRun limits s finished) :
      FetchRun limits (s.dispatchJobs limits answers).fetches finished
  | sendCallback {s finished} (a : Nat) (type : FetchMsgType) (run : FetchRun limits s finished) :
      FetchRun limits (s.sendCallback a type) finished
  | abort {s finished} (a : Nat) (run : FetchRun limits s finished) :
      FetchRun limits (s.fetchAbort a) finished
  | removeFromQueues {s s' finished} (a : Nat) (done : s.removeFromQueues a = some s')
      (run : FetchRun limits s finished) : FetchRun limits s' (a :: finished)
  | reportUnfinished {s finished} (a : Nat) (run : FetchRun limits s finished) :
      FetchRun limits (s.reportUnfinished a) finished
  | free {s finished} (a : Nat) (removed : a ∈ finished) (run : FetchRun limits s finished) :
      FetchRun limits (s.fetchFree a) (finished.erase a)

end Neosurf.Fetching

namespace Neosurf.FetchData

/-- This is `struct fetch_data_context` without the links of its ring. -/
structure Context where
  url : Bytes
  mimetype : Bytes := []
  data : Bytes := []
  base64 : Bool := false
  aborted : Bool := false
  locked : Bool := false
  deriving DecidableEq

/-- These are the messages that the fetcher sends. -/
inductive FetchMsg where
  | error (text : Bytes)
  | header (text : Bytes)
  | data (bytes : Bytes)
  | finished
  deriving DecidableEq

/-- The copy of the type is the text up to the comma, or the default in its absence. -/
def copyMimetype (params : Bytes) : Bytes :=
  if byteAt params 0 = chr ',' then str "text/plain;charset=US-ASCII"
  else params.takeWhile (· ≠ chr ',')

/-- The comparison with `;base64` starts here, counted from the start of the copy. -/
def base64Start (mimetype : Bytes) : Int := mimetype.length - 7

/-- The C string that starts at a position of a block, which may be up to seven bytes before the
block. -/
def stringFrom (before : Vector Byte 7) (block : Bytes) (pos : Int) : Bytes :=
  cstr ((before.toList ++ block).drop (7 + pos).toNat)

/-- The type is cut at the start of `;base64`. A write before the block leaves it as it is. -/
def truncate (mimetype : Bytes) (pos : Int) : Bytes :=
  if pos < 0 then mimetype else mimetype.take pos.toNat

/-- The bytes before the allocated copy of the type are whatever is in memory. -/
def process (before : Vector Byte 7) (c : Context) : Except Bytes Context :=
  if c.url.length < 6 then .error (str "Malformed data: URL")
  else
    let params := c.url.drop (str "data:").length
    if !params.contains (chr ',') then .error (str "Malformed data: URL")
    else
      let mimetype := copyMimetype params
      let pos := base64Start mimetype
      let base64 := stringFrom before mimetype pos == str ";base64"
      let mimetype := if base64 then truncate mimetype pos else mimetype
      let comma := params.dropWhile (· ≠ chr ',')
      match urlUnescape (some (comma.drop 1)) 0 with
      | .error _ => .error (str "Unable to URL decode data: URL")
      | .ok (_, unescaped) =>
          let data := if base64 then Base64.decode unescaped else unescaped
          .ok { c with mimetype, data, base64 }

/-- The messages of a fetch so far, and whether a callback has aborted it. -/
structure Sending where
  sent : List FetchMsg := []
  aborted : Bool := false

/-- A callback decides by the messages so far whether it aborts the fetch. -/
def sendCallback (aborts : List FetchMsg → Bool) (msg : FetchMsg) (s : Sending) : Sending :=
  let sent := s.sent ++ [msg]
  { sent, aborted := s.aborted || aborts sent }

/-- The answer of `vsnprintf` is negative for a text that is longer than an `int`. -/
def printedLength (text : Bytes) : Int := if text.length < 2 ^ 31 then text.length else -1

/-- A header goes through a buffer of 64 bytes. -/
def sendHeader (aborts : List FetchMsg → Bool) (text : Bytes) (s : Sending) : Sending :=
  if 64 ≤ printedLength text ∨ printedLength text < 0 then s
  else sendCallback aborts (.header text) s

def unlessAborted (send : Sending → Sending) (s : Sending) : Sending :=
  if s.aborted then s else send s

/-- The messages of a processed fetch. -/
def sendResult (aborts : List FetchMsg → Bool) (c : Context) : Sending :=
  let s := sendHeader aborts (str "Content-Type: " ++ c.mimetype) {}
  let s := unlessAborted
    (sendHeader aborts (str "Content-Length: " ++ printInt c.data.length)) s
  let s := unlessAborted (sendHeader aborts (str "Cache-Control: max-age=31536000")) s
  let s := unlessAborted (sendCallback aborts (.data c.data)) s
  unlessAborted (sendCallback aborts .finished) s

/-- The messages of one fetch that is not locked. -/
def pollContext (before : Vector Byte 7) (aborts : List FetchMsg → Bool) (c : Context) :
    List FetchMsg :=
  if c.aborted then []
  else
    match process before c with
    | .error text => (sendCallback aborts (.error text) {}).sent
    | .ok c => (sendResult aborts c).sent

/-- The loop of `fetch_data_poll` frees each fetch that it has sent the messages of. The locked
ones stay for the next time. -/
def poll (before : Vector Byte 7) (aborts : List FetchMsg → Bool) :
    List Context → List Context → List (Context × List FetchMsg) × List Context
  | [], saveRing => ([], saveRing)
  | c :: ring, saveRing =>
      if c.locked then poll before aborts ring (saveRing ++ [c])
      else
        let (freed, saveRing) := poll before aborts ring saveRing
        ((c, pollContext before aborts c) :: freed, saveRing)

end Neosurf.FetchData
