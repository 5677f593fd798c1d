/-
This file models how `content/content.c` moves a content from one status to the next and tells its
users, whose callbacks may add and remove users meanwhile. A failed assertion stops the program,
which is `none`.
-/

import Mathlib.Tactic.Common
import Neosurf.ToMathlib.Loops

namespace Neosurf.Contents

/-- This is `content_status`. -/
inductive ContentStatus
  | loading
  | ready
  | done
  | error
  deriving DecidableEq, Repr

/-- These are the values of `content_msg` that the functions below send. -/
inductive ContentMsg
  | status
  | ready
  | done
  | error
  | redirect
  deriving DecidableEq, Repr

/-- The callbacks of `struct content_handler` that matter to the status. The last one says whether
the handler's clone replays the conversion, as `nscss_clone` does. -/
structure ContentHandler where
  processData : Bool
  dataComplete : Bool
  cloneReplays : Bool

/-- What happens to a content: it enters a status, or sends one user a message. -/
inductive Happening
  | entered (status : ContentStatus)
  | sent (user : Nat) (msg : ContentMsg)
  deriving DecidableEq

/-- This is `struct content`, with what has happened to it. -/
structure Content where
  status : ContentStatus
  locked : Bool
  users : List Nat
  trace : List Happening

/-- These are the calls that a handler makes. -/
inductive HandlerCall
  | setReady
  | setDone
  | setError
  | broadcastError
  deriving DecidableEq

/-- A handler's conversion makes some calls and returns a result. -/
structure Conversion where
  calls : List HandlerCall
  result : Bool

/-- These are the low-level cache's events. Data comes with what `process_data` returns for it, and
the end of the data with what `data_complete` does. -/
inductive LlcacheEvent
  | gotCerts
  | hadHeaders
  | hadData (accepted : Bool)
  | done (conversion : Conversion)
  | error
  | progress
  | redirect

namespace Content

/-- This is `content__init`. -/
def init : Content :=
  { status := .loading
    locked := false
    users := []
    trace := [] }

def enter (c : Content) (status : ContentStatus) : Content :=
  { c with status := status, trace := c.trace ++ [.entered status] }

/-- This is `content_broadcast`. -/
def broadcast (c : Content) (msg : ContentMsg) : Content :=
  { c with trace := c.trace ++ c.users.map fun user => .sent user msg }

/-- This is `content_set_ready`. -/
def setReady (c : Content) : Option Content :=
  if c.locked then some (({ c with locked := false }.enter .ready).broadcast .ready) else none

/-- This is `content_set_done`. -/
def setDone (c : Content) : Content :=
  (c.enter .done).broadcast .done

/-- This is `content_set_error`. -/
def setError (c : Content) : Content :=
  { c with locked := false }.enter .error

def call (c : Content) : HandlerCall → Option Content
  | .setReady => c.setReady
  | .setDone => some c.setDone
  | .setError => some c.setError
  | .broadcastError => some (c.broadcast .error)

def calls (c : Content) : List HandlerCall → Option Content
  | [] => some c
  | k :: rest => do
      let c ← c.call k
      c.calls rest

/-- This is `content_convert`. -/
def convert (handler : ContentHandler) (c : Content) (conversion : Conversion) : Option Content :=
  if c.status = .loading ∨ c.status = .error then
    if c.status ≠ .loading then some c
    else if c.locked then some c
    else if handler.dataComplete then do
      let c ← { c with locked := true }.calls conversion.calls
      some (if conversion.result then c else c.setError)
    else do
      let c ← c.setReady
      some c.setDone
  else none

/-- This is `content_llcache_callback`. -/
def llcacheCallback (handler : ContentHandler) (c : Content) : LlcacheEvent → Option Content
  | .gotCerts => some c
  | .hadHeaders => some c
  | .hadData accepted =>
      some (if handler.processData && !accepted then c.enter .error else c)
  | .done conversion => (c.broadcast .status).convert handler conversion
  | .error => some ((c.enter .error).broadcast .error)
  | .progress => some (c.broadcast .status)
  | .redirect => some (c.broadcast .redirect)

/-- This is `content_add_user`. -/
def addUser (c : Content) (user : Nat) : Content :=
  { c with users := user :: c.users }

/-- This is `content_remove_user`. -/
def removeUser (c : Content) (user : Nat) : Content :=
  { c with users := c.users.erase user }

/-- This is `content__clone`. What has happened to the content has happened before its clone. -/
def copied (c : Content) : Content :=
  { c with users := [] }

/-- This is `content_clone`. The handler's clone is given with what its own `process_data` returns
and what its conversion does. It may fail without a content. -/
def clone (handler : ContentHandler) (c : Content) (accepted : Bool) (conversion : Conversion) :
    Option (Option Content) :=
  if handler.cloneReplays then
    if !accepted then some none
    else if c.status = .ready ∨ c.status = .done then do
      let new ← c.copied.calls conversion.calls
      some (if conversion.result then some new else none)
    else some (some c.copied)
  else some (some c.copied)

end Content

/-- How far a handler is with its own conversion. -/
inductive Stage
  | waiting
  | converting
  | shown
  | finished
  deriving DecidableEq

namespace Stage

/-- A handler becomes ready once it has converted, and done after that. It may fail before. -/
def call : Stage → HandlerCall → Option Stage
  | .converting, .setReady => some .shown
  | .shown, .setDone => some .finished
  | .converting, .setError => some .finished
  | .shown, .setError => some .finished
  | stage, .broadcastError => some stage
  | _, _ => none

def calls (stage : Stage) : List HandlerCall → Option Stage
  | [] => some stage
  | k :: rest => do
      let stage ← stage.call k
      stage.calls rest

/-- A clone has no conversion to wait for, unless it replays it. -/
def ofStatus : ContentStatus → Stage
  | .loading => .waiting
  | .ready => .shown
  | _ => .finished

end Stage

/-- A content with the stage of its handler. -/
structure Life where
  content : Content
  stage : Stage

/-- These are the steps of a content: low-level events, what its handler does by itself, and
changes of its users. It goes on as its clone when it is cloned for some of its users. -/
inductive LifeStep
  | event (event : LlcacheEvent)
  | call (call : HandlerCall)
  | addUser (user : Nat)
  | removeUser (user : Nat)
  | clone (accepted : Bool) (conversion : Conversion) (moved : List Nat)

namespace Life

/-- The handler is asked to convert. -/
def Converts (handler : ContentHandler) (life : Life) : Prop :=
  life.content.status = .loading ∧ life.content.locked = false ∧ handler.dataComplete = true

instance (handler : ContentHandler) (life : Life) : Decidable (life.Converts handler) :=
  inferInstanceAs (Decidable (_ ∧ _ ∧ _))

/-- The stage of the clone's handler, or of this one when there is no clone. -/
def cloneStage (handler : ContentHandler) (life : Life) (accepted : Bool)
    (conversion : Conversion) : Option Stage :=
  if handler.cloneReplays then
    if !accepted then some life.stage
    else if life.content.status = .ready ∨ life.content.status = .done then do
      let stage ← Stage.converting.calls conversion.calls
      some (if conversion.result then stage else life.stage)
    else some (.ofStatus life.content.status)
  else some (.ofStatus life.content.status)

/-- The handler's stage after a step. It is `none` when the handler does not act like that. -/
def nextStage (handler : ContentHandler) (life : Life) : LifeStep → Option Stage
  | .event (.done conversion) =>
      if life.Converts handler then Stage.converting.calls conversion.calls else some life.stage
  | .call k => life.stage.call k
  | .clone accepted conversion _ => life.cloneStage handler accepted conversion
  | _ => some life.stage

/-- The users of a clone are added after it was made. -/
def nextContent (handler : ContentHandler) (c : Content) : LifeStep → Option Content
  | .event event => c.llcacheCallback handler event
  | .call k => c.call k
  | .addUser user => some (c.addUser user)
  | .removeUser user => some (c.removeUser user)
  | .clone accepted conversion moved => do
      let clone ← c.clone handler accepted conversion
      some (clone.elim c fun new => { new with users := moved.filter fun u => u ∈ c.users })

end Life

end Neosurf.Contents

namespace Neosurf.ContentUsers

open Contents (ContentMsg)

/-- This is `struct content_user`: a node at an address, whose `next` is the node behind it in the
list. A callback is a number, which is 0 for `NULL`. -/
structure ContentUser where
  node : Nat
  callback : Nat
  pw : Nat
  deriving DecidableEq, Repr

/-- This is `union content_msg_data` behind its pointer. -/
inductive MsgData
  | given (data : Nat)
  | errordata (errorcode errormsg : Nat)
  deriving DecidableEq, Repr

/-- This is what a callback is called with. -/
structure Message where
  msg : ContentMsg
  data : MsgData
  deriving DecidableEq, Repr

/-- The user list behind the sentinel. A node that is not in it is not allocated. -/
abbrev Users := List ContentUser

/-- This is `content_add_user`. The address comes from `malloc`, which fails or gives one that is
not in use. -/
def contentAddUser (node : Option Nat) (callback pw : Nat) (users : Users) : Users :=
  match node with
  | none => users
  | some a => if a ∈ users.map ContentUser.node then users else ⟨a, callback, pw⟩ :: users

def ContentUser.is (callback pw : Nat) (user : ContentUser) : Bool :=
  user.callback = callback && user.pw = pw

/-- This is `content_remove_user`, with the node that it frees. Its assertion fails for a user that
is not registered. -/
def contentRemoveUser (callback pw : Nat) (users : Users) : Option (Users × Nat) :=
  (users.find? (ContentUser.is callback pw)).map fun user =>
    (users.eraseP (ContentUser.is callback pw), user.node)

/-- These are the calls that a callback makes. -/
inductive UserCall
  | add (node : Option Nat) (callback pw : Nat)
  | remove (callback pw : Nat)
  deriving DecidableEq, Repr

/-- The users after a call and the nodes that are freed. -/
def UserCall.run (users : Users) : UserCall → Option (Users × List Nat)
  | .add node callback pw => some (contentAddUser node callback pw users, [])
  | .remove callback pw =>
      (contentRemoveUser callback pw users).map fun left => (left.1, [left.2])

def runCalls : List UserCall → Users → Option (Users × List Nat)
  | [], users => some (users, [])
  | call :: rest, users => do
      let (users, freed) ← call.run users
      let (users, later) ← runCalls rest users
      some (users, freed ++ later)

/-- The loop over the users, with the messages that were received and the nodes that were freed. -/
structure Broadcast where
  user : Option Nat
  users : Users
  received : List (Nat × Message)
  freed : List Nat
  deriving DecidableEq, Repr

/-- These are the ways in which the loop ends. -/
inductive Ending
  | finished (loop : Broadcast)
  | readFreed (loop : Broadcast)
  | failedAssertion
  deriving DecidableEq, Repr

/-- The users from a pointer on. -/
def usersFrom (user : Option Nat) (users : Users) : Users :=
  match user with
  | none => []
  | some a => users.dropWhile fun other => other.node ≠ a

/-- The pointer to the first of these users. -/
def pointerTo (users : Users) : Option Nat := users.head?.map ContentUser.node

/-- This is a turn of the loop of `content_broadcast`, which saves the next node before the call.
The callback of each call responds with calls of its own. -/
def broadcastTurn (message : Message) (respond : Nat → List UserCall) (loop : Broadcast) :
    Broadcast ⊕ Ending :=
  match loop.user with
  | none => .inr (.finished loop)
  | some a =>
      match usersFrom (some a) loop.users with
      | [] => .inr (.readFreed loop)
      | user :: behind =>
          let next := pointerTo behind
          if user.callback ≠ 0 then
            match runCalls (respond loop.received.length) loop.users with
            | none => .inr .failedAssertion
            | some (users, freed) =>
                .inl ⟨next, users, loop.received ++ [(a, message)], loop.freed ++ freed⟩
          else .inl { loop with user := next }

/-- The loop starts with the node behind the sentinel. -/
def Broadcast.start (users : Users) : Broadcast := ⟨pointerTo users, users, [], []⟩

/-- This is the loop that both functions below run. -/
def broadcastLoop (turns : Nat) (message : Message) (respond : Nat → List UserCall)
    (users : Users) : Option Ending :=
  Loop.run (broadcastTurn message respond) turns (.start users)

/-- This is `content_broadcast`. -/
def contentBroadcast (turns : Nat) (msg : ContentMsg) (data : MsgData) :=
  broadcastLoop turns ⟨msg, data⟩

/-- This is `content_broadcast_error`. -/
def contentBroadcastError (turns : Nat) (errorcode errormsg : Nat) :=
  broadcastLoop turns ⟨.error, .errordata errorcode errormsg⟩

end Neosurf.ContentUsers
