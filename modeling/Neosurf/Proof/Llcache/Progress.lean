/-
This file proves that only notification passes let the handles of clients get further in the
events of their objects.
-/

import Neosurf.Proof.Llcache.Runs

namespace Neosurf.Llcache

open Cache

variable {out : Outside} {s s' : Cache} {id : ObjectId}

/-- The handles of a cache, and the number of the next one. -/
def Cache.clients (s : Cache) : (Nat → Option Handle) × Nat := (s.handles, s.nextHandle)

@[simp] theorem clients_modify {change : LlcacheObject → LlcacheObject} :
    (s.modify id change).clients = s.clients := rfl

@[simp] theorem clients_destroyAll (gone : List Slot) :
    (s.destroyAll gone).clients = s.clients := by
  rw [destroyAll_eq]
  rfl

theorem clients_dropUnused (now : Int) : (s.dropUnused now).clients = s.clients := by
  unfold dropUnused
  dsimp only
  rw [destroyAll_eq, destroyAll_eq]
  rfl

theorem clients_persistLoop (list : List Slot) {written elapsed : Nat} :
    (persistLoop out written elapsed s list).clients = s.clients := by
  induction list generalizing s written elapsed with
  | nil => rfl
  | cons slot rest ih =>
      unfold persistLoop
      split
      · exact ih
      · dsimp only
        split
        · rfl
        · split
          · rfl
          · exact ih

@[simp] theorem clients_clean (purge : Bool) : (s.clean out purge).clients = s.clients := by
  have first := @clients_dropUnused s out.clock.now
  unfold Cache.clean cleanSize
  dsimp only
  have shrunk (limit size : UInt32) (s : Cache) :
      (s.shrink out limit size).1.clients = s.clients := by
    unfold shrink
    dsimp only
    rw [clients_destroyAll, clients_destroyAll]
    rfl
  rw [shrunk]
  split
  · exact (clients_persistLoop _).trans first
  · exact first

theorem clients_fetchCached {retrieval : Retrieval} {object : LlcacheObject} :
    (s.fetchCached out retrieval object).1.clients = s.clients := by
  unfold fetchCached
  dsimp only
  split <;> rfl

theorem clients_revalidate {retrieval : Retrieval} {candidate : Slot} :
    (s.revalidate out retrieval candidate).1.clients = s.clients := by
  unfold Cache.revalidate
  dsimp only
  split <;> rfl

theorem clients_useNewest {retrieval : Retrieval} {found : Slot} :
    (s.useNewest out retrieval found).1.clients = s.clients := by
  unfold useNewest
  dsimp only
  split
  · split
    · rfl
    · exact clients_revalidate
  · exact clients_fetchCached

/-- A retrieval opens no handle. -/
theorem clients_retrieve {retrieval : Retrieval} {answer : Except Nserror ObjectId}
    (done : s.retrieve out retrieval = some (s', answer)) : s'.clients = s.clients := by
  unfold Cache.retrieve at done
  dsimp only at done
  split at done
  · split at done <;> cases done <;> rfl
  · unfold retrieveFromCache at done
    split at done
    · have used := @clients_useNewest out s { retrieval with url := Nsurl.defragment retrieval.url }
      rw [Option.some.injEq] at done
      rw [← used, done]
    · split at done
      · cases done
      · dsimp only at done
        split at done
        · rw [Option.some.injEq] at done
          have fetched := congrArg (fun result => result.1.clients) done
          exact fetched.symm.trans clients_fetchCached
        · rw [Option.some.injEq] at done
          have used := congrArg (fun result => result.1.clients) done
          exact used.symm.trans clients_useNewest

theorem clients_releaseCandidate (done : s.releaseCandidate id = some s') :
    s'.clients = s.clients := by
  unfold Cache.releaseCandidate at done
  split at done
  · cases done
    rfl
  · split at done
    · cases done
    · cases done
      rfl

theorem clients_fetchDone {error : Nserror} (done : s.fetchDone out id error = some s') :
    s'.clients = s.clients := by
  unfold fetchDone at done
  dsimp only at done
  split at done
  · cases done
    rfl
  · split at done
    · cases done
    · split at done
      · cases done
        split
        · exact clients_clean true
        · rfl
      · cases done
        rw [clients_modify]
        split
        · exact clients_clean true
        · rfl

theorem clients_refetchObject {change : LlcacheObject → LlcacheObject} {object : LlcacheObject}
    (done : s.refetchObject out id change object = some s') : s'.clients = s.clients := by
  unfold refetchObject at done
  exact (clients_fetchDone done).trans clients_modify

/-- How far a handle has got in the events of its object. -/
def Handle.progress (handle : Handle) : FetchState × Nat := (handle.state, handle.bytes)

/-- The handles have numbers below the next one. -/
def Numbered (s : Cache) : Prop :=
  ∀ handle value, s.handles handle = some value → handle < s.nextHandle

/-- The old handles of a cache do not get further in another one. -/
structure Grows (s s' : Cache) : Prop where
  next : s.nextHandle ≤ s'.nextHandle
  old : ∀ handle value', handle < s.nextHandle → s'.handles handle = some value' →
    ∃ value, s.handles handle = some value ∧ value'.progress = value.progress
  numbered : Numbered s → Numbered s'

theorem Grows.of_clients (same : s'.clients = s.clients) : Grows s s' := by
  obtain ⟨handles, next⟩ := Prod.mk.inj same
  refine ⟨next.ge, fun handle value' _ here => ⟨value', ?_, rfl⟩,
    fun numbered handle value here => ?_⟩
  · rwa [← handles]
  · rw [handles] at here
    rw [next]
    exact numbered handle value here

theorem Grows.trans {s'' : Cache} (first : Grows s s') (second : Grows s' s'') : Grows s s'' := by
  refine ⟨first.next.trans second.next, fun handle value'' small here => ?_,
    second.numbered ∘ first.numbered⟩
  obtain ⟨value', there, further⟩ := second.old handle value'' (small.trans_le first.next) here
  obtain ⟨value, start, before⟩ := first.old handle value' small there
  exact ⟨value, start, further.trans before⟩

theorem Grows.after_modify {change : LlcacheObject → LlcacheObject}
    (later : Grows (s.modify id change) s') : Grows s s' :=
  (Grows.of_clients clients_modify).trans later

/-- A handle is freed, or its user moves to another object. -/
theorem grows_setHandle {handle : Nat} {value' : Option Handle}
    (from' : ∀ new, value' = some new → ∃ value, s.handles handle = some value ∧
      new.progress = value.progress) : Grows s (s.setHandle handle value') := by
  refine ⟨le_rfl, fun other new _ here => ?_, fun numbered other new here => ?_⟩
  · by_cases same : other = handle
    · subst same
      exact from' new ((if_pos rfl).symm.trans here)
    · exact ⟨new, (if_neg same).symm.trans here, rfl⟩
  · by_cases same : other = handle
    · subst same
      obtain ⟨value, before, -⟩ := from' new ((if_pos rfl).symm.trans here)
      exact numbered other value before
    · exact numbered other new ((if_neg same).symm.trans here)

theorem grows_dropUser (now : Int) (user : ObjectUser) : Grows s (s.dropUser now id user) := by
  unfold dropUser
  dsimp only
  split
  · exact .of_clients clients_modify
  · exact (Grows.of_clients clients_modify).trans (grows_setHandle fun new freed =>
      (Option.some_ne_none new freed.symm).elim)

theorem grows_addUser {user : ObjectUser} {value : Handle} (same : s'.clients = s.clients)
    (here : s.handles user.handle = some value) : Grows s (s'.addUser id user value) := by
  refine (Grows.of_clients same).trans (Grows.after_modify (grows_setHandle fun new moved => ?_))
  cases moved
  exact ⟨value, (congrFun (congrArg Prod.fst same) user.handle).trans here, rfl⟩

theorem grows_addNewUser (state : FetchState) : Grows s (s.addNewUser id state).1 := by
  refine ⟨Nat.le_succ _, fun other new small here => ⟨new, ?_, rfl⟩,
    fun numbered other new here => ?_⟩
  · exact (if_neg small.ne).symm.trans here
  · by_cases same : other = s.nextHandle
    · rw [same]
      exact Nat.lt_succ_self _
    · exact Nat.lt_succ_of_lt (numbered other new ((if_neg same).symm.trans here))

theorem grows_moveUsers (now : Int) (source target : ObjectId) (redirects : Nat) :
    Grows s (s.moveUsers now source target redirects) := by
  unfold moveUsers
  split
  · exact .of_clients rfl
  · refine ⟨le_rfl, fun handle value' _ here => ?_, fun numbered handle value' here => ?_⟩
    · dsimp only at here
      split at here
      · obtain ⟨value, before, rfl⟩ := Option.map_eq_some_iff.mp here
        exact ⟨value, before, rfl⟩
      · exact ⟨value', here, rfl⟩
    · dsimp only at here
      split at here
      · obtain ⟨value, before, -⟩ := Option.map_eq_some_iff.mp here
        exact numbered handle value before
      · exact numbered handle value' here

theorem grows_followRedirect {pending : Pending}
    (done : s.followRedirect out id pending = some s') : Grows s s' := by
  unfold followRedirect at done
  split at done
  · cases done
  · split at done
    · exact .of_clients (clients_fetchDone done)
    · split at done
      · exact .of_clients (clients_fetchDone done)
      · split at done
        · exact .of_clients (clients_fetchDone done)
        · dsimp only at done
          split at done
          · cases done
          · rename_i retrieved
            exact .of_clients ((clients_fetchDone done).trans (clients_retrieve retrieved))
          · rename_i retrieved
            exact (Grows.of_clients (clients_retrieve retrieved)).trans
              ((grows_moveUsers _ _ _ _).trans (.of_clients (clients_fetchDone done)))

theorem grows_afterSending {pending : Option Pending} {error : Nserror}
    (done : s.afterSending out id pending error = some s') : Grows s s' := by
  unfold afterSending at done
  split at done
  · exact .of_clients (clients_fetchDone done)
  · split at done
    · exact .of_clients (clients_fetchDone done)
    · have followed := grows_followRedirect done
      exact ⟨followed.next, followed.old, followed.numbered⟩

theorem grows_sendTo {event : Event} {pending : Option Pending} {user : Option ObjectUser}
    (done : s.sendTo out id event pending user = some s') : Grows s s' := by
  unfold sendTo at done
  split at done
  · exact grows_afterSending done
  · cases done
    exact .of_clients rfl

theorem grows_sendEvent {event : Event} {pending : Option Pending}
    (done : s.sendEvent out id event pending = some s') : Grows s s' := by
  unfold sendEvent at done
  split at done
  · cases done
  · exact grows_sendTo done

theorem grows_sendError {code : Nserror} {msg : Message}
    (done : s.sendError out id code msg = some s') : Grows s s' := grows_sendEvent done

theorem grows_sendingReturns {sending : Sending} {answer : Nserror}
    (done : s.sendingReturns out sending answer = some s') : Grows s s' := by
  unfold sendingReturns at done
  dsimp only at done
  split at done
  · cases done
  · rename_i object user _
    have left : Grows s (if user.queuedForDelete ∧ sending.wasTarget = false then
        (s.modify sending.object (changeUser user.handle
          (setTarget sending.wasTarget))).dropUser out.clock.now sending.object user
        else s.modify sending.object (changeUser user.handle (setTarget sending.wasTarget))) := by
      split
      · exact (Grows.of_clients clients_modify).trans (grows_dropUser _ _)
      · exact .of_clients clients_modify
    split at done
    · exact left.trans (grows_afterSending done)
    · exact left.trans (grows_sendTo done)

theorem grows_fetchRedirect {object : LlcacheObject} {target : Bytes}
    (done : s.fetchRedirect out id object target = some s') : Grows s s' := by
  unfold fetchRedirect at done
  dsimp only at done
  split at done
  · exact (grows_sendError done).after_modify
  · split at done
    · exact .of_clients ((clients_fetchDone done).trans clients_modify)
    · cases done
    · exact (grows_sendEvent done).after_modify

theorem grows_fetchNotModified {object : LlcacheObject}
    (done : s.fetchNotModified out id object = some s') : Grows s s' := by
  unfold fetchNotModified at done
  dsimp only at done
  split at done
  · exact .of_clients ((clients_fetchDone done).trans clients_modify)
  · split at done
    · cases done
    · obtain ⟨released, first, rest⟩ := Option.bind_eq_some_iff.mp done
      have validated := (Grows.of_clients (clients_fetchDone rest)).after_modify.after_modify
      exact (grows_moveUsers _ _ _ _).trans
        ((Grows.of_clients (clients_releaseCandidate first)).trans validated)

theorem grows_fetchProcessData {object : LlcacheObject} {buf : Bytes}
    (done : s.fetchProcessData id object buf = some s') : Grows s s' := by
  unfold fetchProcessData at done
  obtain ⟨started, first, rfl⟩ := Option.map_eq_some_iff.mp done
  split at first
  · cases first
    exact .of_clients clients_modify
  · have released := (Grows.of_clients (clients_releaseCandidate first)).after_modify
    exact released.trans (.of_clients clients_modify)

theorem grows_fetchAuth {object : LlcacheObject} {realm : Option Bytes}
    (done : s.fetchAuth out id object realm = some s') : Grows s s' := by
  unfold fetchAuth at done
  dsimp only at done
  split at done
  · exact (grows_sendError done).after_modify.after_modify
  · exact .of_clients ((clients_refetchObject done).trans clients_modify)

theorem grows_fetchCertError {object : LlcacheObject}
    (done : s.fetchCertError out id object = some s') : Grows s s' := by
  unfold fetchCertError at done
  dsimp only at done
  split at done
  · exact (grows_sendError done).after_modify
  · exact (grows_sendError done).after_modify

theorem grows_fetchSslError {object : LlcacheObject}
    (done : s.fetchSslError out id object = some s') : Grows s s' := by
  unfold fetchSslError at done
  dsimp only at done
  split at done
  · exact (grows_sendError done).after_modify.after_modify
  · exact .of_clients ((clients_refetchObject done).trans clients_modify)

theorem grows_fetchTimeout {object : LlcacheObject}
    (done : s.fetchTimeout out id object = some s') : Grows s s' := by
  unfold fetchTimeout at done
  split at done
  · exact .of_clients (clients_refetchObject done)
  · obtain ⟨released, first, rest⟩ := Option.bind_eq_some_iff.mp done
    exact (Grows.of_clients (clients_releaseCandidate first)).trans
      (grows_sendError rest).after_modify

/-- The events of a fetcher do not make a handle get further. -/
theorem grows_fetchCallback {msg : FetchMsg} (done : s.fetchCallback out id msg = some s') :
    Grows s s' := by
  unfold fetchCallback at done
  split at done
  · cases done
  · split at done
    · cases done
    · cases msg with
      | header buf => exact .of_clients ((clients_fetchDone done).trans clients_modify)
      | redirect target =>
          obtain ⟨released, first, rest⟩ := Option.bind_eq_some_iff.mp done
          exact (Grows.of_clients (clients_releaseCandidate first)).trans (grows_fetchRedirect rest)
      | notModified => exact grows_fetchNotModified done
      | data buf =>
          obtain ⟨processed, first, rest⟩ := Option.bind_eq_some_iff.mp done
          exact (grows_fetchProcessData first).trans (.of_clients (clients_fetchDone rest))
      | finished => exact .of_clients ((clients_fetchDone done).trans clients_modify)
      | timedOut => exact grows_fetchTimeout done
      | error msg =>
          obtain ⟨released, first, rest⟩ := Option.bind_eq_some_iff.mp done
          exact (Grows.of_clients (clients_releaseCandidate first)).trans
            (grows_sendError rest).after_modify
      | progress msg => exact grows_sendEvent done
      | certs chain => exact (grows_sendEvent done).after_modify
      | auth realm =>
          obtain ⟨released, first, rest⟩ := Option.bind_eq_some_iff.mp done
          exact (Grows.of_clients (clients_releaseCandidate first)).trans (grows_fetchAuth rest)
      | certErr =>
          obtain ⟨released, first, rest⟩ := Option.bind_eq_some_iff.mp done
          exact (Grows.of_clients (clients_releaseCandidate first)).trans
            (grows_fetchCertError rest)
      | sslErr =>
          obtain ⟨released, first, rest⟩ := Option.bind_eq_some_iff.mp done
          exact (Grows.of_clients (clients_releaseCandidate first)).trans (grows_fetchSslError rest)

theorem grows_handleRetrieve {url : Nsurl} {flags : UInt32} {referer : Option Nsurl}
    {post : Option PostData} {answer : Except Nserror Nat}
    (done : s.handleRetrieve out url flags referer post = some (s', answer)) : Grows s s' := by
  unfold handleRetrieve at done
  dsimp only at done
  split at done
  · cases done
    exact .of_clients rfl
  · split at done
    · cases done
    · rename_i retrieved
      cases done
      exact .of_clients (clients_retrieve retrieved)
    · rename_i retrieved
      cases done
      exact (Grows.of_clients (clients_retrieve retrieved)).trans (grows_addNewUser .init)

theorem grows_handleRelease {handle : Nat} (done : s.handleRelease out handle = some s') :
    Grows s s' := by
  unfold handleRelease at done
  obtain ⟨value, -, rest⟩ := Option.bind_eq_some_iff.mp done
  obtain ⟨object, -, rest⟩ := Option.bind_eq_some_iff.mp rest
  obtain ⟨user, -, rest⟩ := Option.bind_eq_some_iff.mp rest
  split at rest
  · cases rest
    exact .of_clients clients_modify
  · cases rest
    exact grows_dropUser _ _

theorem grows_handleClone {handle result : Nat} (done : s.handleClone handle = some (s', result)) :
    Grows s s' := by
  unfold handleClone at done
  obtain ⟨original, -, rest⟩ := Option.bind_eq_some_iff.mp done
  obtain ⟨object, -, rest⟩ := Option.bind_eq_some_iff.mp rest
  rw [Option.some.injEq] at rest
  have grown := @grows_addNewUser s original.object original.state
  rwa [rest] at grown

theorem clients_handleForceStream {handle : Nat} (done : s.handleForceStream handle = some s') :
    s'.clients = s.clients := by
  unfold handleForceStream at done
  obtain ⟨value, -, rest⟩ := Option.bind_eq_some_iff.mp done
  obtain ⟨object, -, rest⟩ := Option.bind_eq_some_iff.mp rest
  obtain ⟨user, -, rest⟩ := Option.bind_eq_some_iff.mp rest
  split at rest
  · cases rest
    rw [clients_modify]
    unfold uncache
    split <;> rfl
  · cases rest
    rfl

theorem grows_handleAbort {handle : Nat} (done : s.handleAbort out handle = some s') :
    Grows s s' := by
  unfold handleAbort at done
  obtain ⟨value, here, rest⟩ := Option.bind_eq_some_iff.mp done
  obtain ⟨object, -, rest⟩ := Option.bind_eq_some_iff.mp rest
  obtain ⟨user, found, rest⟩ := Option.bind_eq_some_iff.mp rest
  split at rest
  · cases rest
    exact .of_clients clients_modify
  · cases rest
    have same : user.handle = handle := by
      have test := List.find?_some found
      rw [Bool.and_eq_true] at test
      exact eq_of_beq test.1
    subst same
    unfold moveToSnapshot
    dsimp only
    split
    · exact grows_addUser rfl here
    · exact grows_addUser rfl here

theorem grows_finalise : Grows s (s.finalise out) := by
  refine ⟨?_, fun handle value' _ here => ?_, fun _ handle value here => ?_⟩
  · have persisted := @clients_persistLoop out s
    unfold Cache.finalise
    dsimp only
    rw [destroyAll_eq]
    exact (congrArg Prod.snd (persisted _)).ge
  · rw [handles_finalise] at here
    cases here
  · rw [handles_finalise] at here
    cases here

/-- A part of a notification pass: its cache, its object, and the users that it comes to. -/
structure Pass where
  start : Cache
  object : ObjectId
  objstate : FetchState
  users : List ObjectUser

/-- The part of a notification pass after the answer of a user. -/
def passAfter (out : Outside) (s : Cache) (notifying : Notifying) (answer : Nserror) :
    Option Pass := do
  let object ← s.find notifying.object
  match object.users.dropWhile fun user => user.handle ≠ notifying.user with
  | [] => none
  | user :: rest =>
      if user.queuedForDelete then
        if answer = .ok then
          let start := s.dropUser out.clock.now notifying.object user
          some ⟨start, notifying.object, notifying.objstate, rest⟩
        else none
      else if answer = .needData then
        let released := s.modify notifying.object (changeUser user.handle (setTarget false))
        let start := released.setHandle user.handle
          ((s.handles user.handle).map (replay notifying.event notifying.origHandleRead))
        some ⟨start, notifying.object, notifying.objstate, rest⟩
      else if answer = .ok then some ⟨s, notifying.object, notifying.objstate, user :: rest⟩
      else none

/-- The part of a notification pass that a step makes. -/
def passOf (out : Outside) (s : Cache) : Input → Option Pass
  | .notifyUsers id => (s.find id).map fun object => ⟨s, id, object.fetch.state, object.users⟩
  | .returns answer =>
      match s.task with
      | some (.notifying notifying) => passAfter out s notifying answer
      | _ => none
  | _ => none

/-- The current user stays when the client did not give its handle up inside the callback. -/
def Stays (s : Cache) (notifying : Notifying) : Prop :=
  ∀ object user, s.find notifying.object = some object →
    (object.users.dropWhile fun user => user.handle ≠ notifying.user).head? = some user →
      user.queuedForDelete = false

/-- An answer starts a part of a pass, or ends it. -/
theorem notifyingReturns_pass {notifying : Notifying} {answer : Nserror}
    (done : s.notifyingReturns out notifying answer = some s') :
    (∃ pass, passAfter out s notifying answer = some pass ∧
        pass.start.notifyFrom pass.object pass.objstate pass.users = some s') ∨
      (passAfter out s notifying answer = none ∧ Grows s s' ∧
        (Stays s notifying → answer ≠ .needData)) := by
  unfold notifyingReturns at done
  unfold passAfter
  dsimp only at done
  split at done
  · cases done
  · rename_i object found
    split at done
    · cases done
    · rename_i user rest here
      simp only [found, Option.bind_eq_bind, Option.bind_some, here]
      split at done
      · rename_i queued
        rw [if_pos queued]
        split at done
        · rename_i failed
          cases done
          rw [if_neg failed]
          have dropped := @grows_dropUser s notifying.object out.clock.now user
          refine .inr ⟨rfl, ⟨dropped.next, dropped.old, dropped.numbered⟩, fun stays => ?_⟩
          have kept := stays object user found (by rw [here]; rfl)
          rw [queued] at kept
          cases kept
        · rename_i fine
          rw [if_pos (not_not.mp fine)]
          exact .inl ⟨_, rfl, done⟩
      · rename_i queued
        rw [if_neg queued]
        split at done
        · rename_i again
          rw [if_pos again]
          exact .inl ⟨_, rfl, done⟩
        · rename_i other
          rw [if_neg other]
          split at done
          · rename_i failed
            cases done
            rw [if_neg failed]
            exact .inr ⟨rfl, .of_clients rfl, fun _ => other⟩
          · rename_i fine
            rw [if_pos (not_not.mp fine)]
            exact .inl ⟨_, rfl, done⟩

theorem step_returns {notifying : Notifying} {answer : Nserror}
    (task : s.task = some (.notifying notifying))
    (done : s.step out (.returns answer) = some s') :
    s.notifyingReturns out notifying answer = some s' := by
  unfold Cache.step at done
  split at done
  · cases done
  · rw [task] at done
    exact done

/-- A step is a part of a notification pass, or does not make a handle get further. -/
theorem step_pass {input : Input} (done : s.step out input = some s') :
    (∃ pass, passOf out s input = some pass ∧
        pass.start.notifyFrom pass.object pass.objstate pass.users = some s') ∨
      (passOf out s input = none ∧ Grows s s') := by
  unfold Cache.step at done
  split at done
  · cases done
  cases input with
  | handleRetrieve url flags referer post =>
      obtain ⟨result, retrieved, rfl⟩ := Option.map_eq_some_iff.mp done
      exact .inr ⟨rfl, grows_handleRetrieve retrieved⟩
  | handleRelease handle => exact .inr ⟨rfl, grows_handleRelease done⟩
  | handleClone handle =>
      obtain ⟨result, cloned, rfl⟩ := Option.map_eq_some_iff.mp done
      exact .inr ⟨rfl, grows_handleClone cloned⟩
  | handleAbort handle => exact .inr ⟨rfl, grows_handleAbort done⟩
  | handleForceStream handle => exact .inr ⟨rfl, .of_clients (clients_handleForceStream done)⟩
  | handleInvalidateCacheData handle =>
      obtain ⟨value, here, done⟩ := Option.bind_eq_some_iff.mp done
      cases done
      exact .inr ⟨rfl, .of_clients clients_modify⟩
  | clean purge =>
      obtain rfl := Option.some.inj done
      exact .inr ⟨rfl, .of_clients (clients_clean purge)⟩
  | returns answer =>
      cases task : s.task with
      | none =>
          rw [task] at done
          cases done
      | some running =>
          rw [task] at done
          simp only [passOf, task]
          cases running with
          | sending sending => exact .inr ⟨rfl, grows_sendingReturns done⟩
          | notifying notifying =>
              exact (notifyingReturns_pass done).imp id fun ended => ⟨ended.1, ended.2.1⟩
  | fetch id msg =>
      cases task : s.task with
      | none =>
          rw [task] at done
          exact .inr ⟨rfl, grows_fetchCallback done⟩
      | some running =>
          rw [task] at done
          cases done
  | httpCode id code =>
      cases task : s.task with
      | none =>
          rw [task] at done
          obtain rfl := Option.some.inj done
          exact .inr ⟨rfl, .of_clients clients_modify⟩
      | some running =>
          rw [task] at done
          cases done
  | notifyUsers id =>
      cases task : s.task with
      | none =>
          rw [task] at done
          replace done : s.notifyUsers id = some s' := done
          unfold notifyUsers at done
          split at done
          · cases done
          · rename_i object found
            refine .inl ⟨⟨s, id, object.fetch.state, object.users⟩, ?_, done⟩
            rw [passOf, found]
            rfl
      | some running =>
          rw [task] at done
          cases done
  | persist =>
      cases task : s.task with
      | none =>
          rw [task] at done
          obtain rfl := Option.some.inj done
          exact .inr ⟨rfl, .of_clients (clients_persistLoop _)⟩
      | some running =>
          rw [task] at done
          cases done
  | finalise =>
      cases task : s.task with
      | none =>
          rw [task] at done
          obtain rfl := Option.some.inj done
          exact .inr ⟨rfl, grows_finalise⟩
      | some running =>
          rw [task] at done
          cases done

end Neosurf.Llcache
