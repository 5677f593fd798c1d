/-
This file proves that the users of an object get an event again that they could not handle yet.
-/

import Neosurf.Proof.Llcache.Progress

namespace Neosurf.Llcache

open Cache

variable {out : Outside} {s s' : Cache} {id : ObjectId}

/-- The event that a handle gets when a pass comes to it. -/
def due (objstate : FetchState) (object : LlcacheObject) (value : Handle) : Option Event :=
  (catchUp objstate object value).2.2

/-- The source data of an object from an offset on. -/
def dataFrom (object : LlcacheObject) (offset : Nat) : Bytes :=
  ((object.sourceData.getD []).take object.sourceLen).drop offset

section Visits

variable {objstate : FetchState} {object : LlcacheObject} {value : Handle}

theorem catchUpInit_started (started : value.state ≠ .init) :
    catchUpInit objstate object value = (value, none) :=
  if_neg fun both => started both.1

theorem catchUp_headers (state : value.state = .headers) : catchUp objstate object value =
    if FetchState.headers.rank < objstate.rank then
      ({ value with state := .data }, object, some .hadHeaders)
    else (value, object, none) := by
  have started : value.state ≠ .init := by
    rw [state]
    decide
  unfold catchUp
  rw [catchUpInit_started started]
  dsimp only
  rw [if_neg (not_not.mpr rfl), state]
  simp

theorem catchUp_data (state : value.state = .data) : catchUp objstate object value =
    if FetchState.data.rank ≤ objstate.rank ∧ value.bytes < object.sourceLen then
      if isStreaming object then
        ({ value with bytes := 0 }, { object with sourceLen := 0 },
          some (.hadData (unseenData object value)))
      else ({ value with bytes := object.sourceLen }, object,
        some (.hadData (unseenData object value)))
    else if FetchState.data.rank < objstate.rank then
      ({ value with state := .complete }, object, some .done)
    else (value, object, none) := by
  have started : value.state ≠ .init := by
    rw [state]
    decide
  unfold catchUp
  rw [catchUpInit_started started]
  dsimp only
  rw [if_neg (not_not.mpr rfl), state]
  simp

theorem catchUp_complete (state : value.state = .complete) :
    catchUp objstate object value = (value, object, none) := by
  have started : value.state ≠ .init := by
    rw [state]
    decide
  unfold catchUp
  rw [catchUpInit_started started]
  dsimp only
  rw [if_neg (not_not.mpr rfl), state]
  simp

/-- A visit without an event leaves the object as it is. -/
theorem catchUp_object (silent : due objstate object value = none) :
    (catchUp objstate object value).2.1 = object := by
  unfold due catchUp at silent
  unfold catchUp
  dsimp only at silent ⊢
  split
  · rfl
  · rename_i certs
    rw [if_neg certs] at silent
    split
    · rfl
    · rename_i headers
      rw [if_neg headers] at silent
      split
      · rename_i data
        rw [if_pos data] at silent
        split at silent <;> cases silent
      · split <;> rfl

/-- A visit without an event leaves a handle as it is that knows of the fetch. -/
theorem catchUp_value (started : value.state ≠ .init) (silent : due objstate object value = none) :
    (catchUp objstate object value).1 = value := by
  unfold due at silent
  cases state : value.state with
  | init => exact absurd state started
  | headers =>
      rw [catchUp_headers state] at silent ⊢
      split at silent
      · cases silent
      · rename_i early
        rw [if_neg early]
  | data =>
      rw [catchUp_data state] at silent ⊢
      split at silent
      · split at silent <;> cases silent
      · rename_i seen
        rw [if_neg seen]
        split at silent
        · cases silent
        · rename_i early
          rw [if_neg early]
  | complete => rw [catchUp_complete state]

theorem due_headers (state : value.state = .headers) : due objstate object value =
    if FetchState.headers.rank < objstate.rank then some .hadHeaders else none := by
  rw [due, catchUp_headers state]
  split <;> rfl

theorem due_data (state : value.state = .data) : due objstate object value =
    if FetchState.data.rank ≤ objstate.rank ∧ value.bytes < object.sourceLen then
      some (.hadData (dataFrom object value.bytes))
    else if FetchState.data.rank < objstate.rank then some .done else none := by
  rw [due, catchUp_data state]
  split
  · split <;> rfl
  · split <;> rfl

theorem due_complete (state : value.state = .complete) : due objstate object value = none := by
  rw [due, catchUp_complete state]

/-- The event depends on the source data only, once a handle knows of the fetch. -/
theorem due_congr {other : LlcacheObject} (started : value.state ≠ .init)
    (data : other.sourceData = object.sourceData) (len : other.sourceLen = object.sourceLen) :
    due objstate other value = due objstate object value := by
  cases state : value.state with
  | init => exact absurd state started
  | headers => rw [due_headers state, due_headers state]
  | data => rw [due_data state, due_data state, dataFrom, dataFrom, data, len]
  | complete => rw [due_complete state, due_complete state]

end Visits

/-- A pass tells this handle of an event. -/
def Delivers (s : Cache) (handle : Nat) : Prop :=
  ∃ notifying, s.task = some (.notifying notifying) ∧ notifying.user = handle

/-- A pass frees no handle, and opens none. -/
theorem notifyFrom_handles {objstate : FetchState} (users : List ObjectUser)
    (done : s.notifyFrom id objstate users = some s') : s'.nextHandle = s.nextHandle ∧
      ∀ handle, (s'.handles handle).isSome = (s.handles handle).isSome := by
  induction users generalizing s with
  | nil =>
      cases done
      exact ⟨rfl, fun _ => rfl⟩
  | cons user rest ih =>
      unfold notifyFrom at done
      split at done
      · rename_i value object here found
        dsimp only at done
        have caughtUp (handle : Nat) : ((s.setHandle user.handle
            (some (catchUp objstate object value).1)).handles handle).isSome =
            (s.handles handle).isSome := by
          by_cases same : handle = user.handle
          · rw [same, here, setHandle_self]
            rfl
          · rw [setHandle_other same]
        split at done
        · obtain ⟨next, later⟩ := ih done
          exact ⟨next, fun handle => (later handle).trans (caughtUp handle)⟩
        · cases done
          exact ⟨rfl, caughtUp⟩
      · cases done

/-- A pass tells a handle of its event when it comes to it, and leaves it as it is otherwise. -/
theorem notifyFrom_visits {objstate : FetchState} {object : LlcacheObject} {handle : Nat}
    {value : Handle} (users : List ObjectUser) (found : s.find id = some object)
    (here : s.handles handle = some value) (started : value.state ≠ .init)
    (done : s.notifyFrom id objstate users = some s') :
    (∃ notifying, s'.task = some (.notifying notifying) ∧ notifying.user = handle ∧
        due objstate object value = some notifying.event) ∨
      (¬Delivers s' handle ∧ s'.handles handle = some value ∧
        (handle ∈ users.map ObjectUser.handle → due objstate object value ≠ none →
          ∃ other ∈ (users.map ObjectUser.handle).takeWhile (· ≠ handle), Delivers s' other)) := by
  induction users generalizing s object with
  | nil =>
      cases done
      refine .inr ⟨?_, here, fun inside => (List.not_mem_nil inside).elim⟩
      rintro ⟨notifying, task, -⟩
      cases task
  | cons user rest ih =>
      unfold notifyFrom at done
      rw [found] at done
      split at done
      · rename_i value₁ object₁ here₁ found₁
        cases found₁
        dsimp only at done
        split at done
        · rename_i silent
          have same : (catchUp objstate object value₁).2.1 = object := catchUp_object silent
          rw [same] at done
          have still : ((s.setHandle user.handle
              (some (catchUp objstate object value₁).1)).handles handle) = some value := by
            by_cases self : handle = user.handle
            · subst self
              rw [here] at here₁
              cases here₁
              rw [setHandle_self, catchUp_value started silent]
            · rw [setHandle_other self, here]
          have there : (s.setHandle user.handle
              (some (catchUp objstate object value₁).1)).find id = some object := found
          have visited := ih (find_modify_self (find_modify_self there)) still done
          have sameDue : due objstate (changeUser user.handle (setTarget false)
              (setLength object.sourceLen object)) value = due objstate object value :=
            due_congr started rfl rfl
          rw [sameDue] at visited
          obtain told | ⟨quiet, kept, reached⟩ := visited
          · exact .inl told
          refine .inr ⟨quiet, kept, fun inside some => ?_⟩
          by_cases self : handle = user.handle
          · subst self
            rw [here] at here₁
            cases here₁
            exact absurd silent some
          · rw [List.map_cons, List.mem_cons] at inside
            obtain ⟨other, before, told⟩ := reached (inside.resolve_left self) some
            refine ⟨other, ?_, told⟩
            rw [List.map_cons, List.takeWhile_cons_of_pos (by simpa using Ne.symm self)]
            exact List.mem_cons_of_mem _ before
        · rename_i event told
          cases done
          by_cases self : handle = user.handle
          · subst self
            rw [here] at here₁
            cases here₁
            exact .inl ⟨_, rfl, rfl, told⟩
          · refine .inr ⟨?_, (setHandle_other self).trans here,
              fun _ _ => ⟨user.handle, ?_, _, rfl, rfl⟩⟩
            · rintro ⟨notifying, task, same⟩
              cases task
              exact self same.symm
            · rw [List.map_cons, List.takeWhile_cons_of_pos (by simpa using Ne.symm self)]
              exact List.mem_cons_self ..
      · cases done

/-- A handle waits for an event again that it asked for, its data from an offset on. -/
def Awaits (event : Event) (offset : Nat) (value : Handle) : Prop :=
  match event with
  | .hadHeaders => value.state = .headers
  | .hadData _ => value.state = .data ∧ value.bytes = offset
  | .done => value.state = .data
  | _ => False

/-- The object is where it was when the event came up, or further. -/
def Past (event : Event) (objstate : FetchState) : Prop :=
  match event with
  | .hadHeaders => FetchState.headers.rank < objstate.rank
  | .hadData _ => FetchState.data.rank ≤ objstate.rank
  | .done => FetchState.data.rank < objstate.rank
  | _ => False

/-- There is data for a handle that waits for data, and none for one that waits for the end. -/
def Holds (event : Event) (object : LlcacheObject) (value : Handle) : Prop :=
  match event with
  | .hadData _ => value.bytes < object.sourceLen
  | .done => object.sourceLen ≤ value.bytes
  | _ => True

/-- The event that is the same again. It has the data from the same offset on. -/
def again (event : Event) (offset : Nat) (object : LlcacheObject) : Event :=
  match event with
  | .hadData _ => .hadData (dataFrom object offset)
  | event => event

section Awaiting

variable {event : Event} {offset : Nat} {value : Handle}

theorem Awaits.started (awaits : Awaits event offset value) : value.state ≠ .init := by
  intro state
  cases event with
  | hadHeaders => cases state.symm.trans awaits
  | hadData buf => cases state.symm.trans awaits.1
  | done => cases state.symm.trans awaits
  | _ => exact awaits

theorem Awaits.of_progress {value' : Handle} (same : value'.progress = value.progress)
    (awaits : Awaits event offset value) : Awaits event offset value' := by
  obtain ⟨state, bytes⟩ := Prod.mk.inj same
  cases event with
  | hadHeaders => exact state.trans awaits
  | hadData buf => exact ⟨state.trans awaits.1, bytes.trans awaits.2⟩
  | done => exact state.trans awaits
  | _ => exact awaits

/-- A handle that waits for an event is due exactly this event, once the object is there. -/
theorem due_awaits {objstate : FetchState} {object : LlcacheObject} {told : Event}
    (awaits : Awaits event offset value) (holds : Holds event object value) :
    due objstate object value = some told ↔
      Past event objstate ∧ told = again event offset object := by
  cases event with
  | hadHeaders =>
      rw [due_headers awaits]
      unfold Past again
      split
      · rename_i past
        simp [past, eq_comm]
      · rename_i early
        simp [early]
  | hadData buf =>
      obtain ⟨state, rfl⟩ := awaits
      rw [due_data state]
      unfold Past again
      by_cases past : FetchState.data.rank ≤ objstate.rank
      · rw [if_pos ⟨past, holds⟩]
        simp [past, eq_comm]
      · rw [if_neg fun both => past both.1, if_neg fun further => past further.le]
        simp [past]
  | done =>
      rw [due_data awaits, if_neg fun both => (not_lt.mpr holds) both.2]
      unfold Past again
      split
      · rename_i past
        simp [past, eq_comm]
      · rename_i early
        simp [early]
  | _ => exact awaits.elim

end Awaiting

/-- A handle waits for an event, if it was not freed. -/
structure Owes (event : Event) (offset handle : Nat) (s : Cache) : Prop where
  old : handle < s.nextHandle
  awaits : ∀ value, s.handles handle = some value → Awaits event offset value

variable {event : Event} {offset handle : Nat}

theorem Owes.grows (owes : Owes event offset handle s) (grown : Grows s s') :
    Owes event offset handle s' := by
  refine ⟨owes.old.trans_le grown.next, fun value' here => ?_⟩
  obtain ⟨value, before, same⟩ := grown.old handle value' owes.old here
  exact (owes.awaits value before).of_progress same

/-- A pass that does not tell the handle of an event leaves it waiting. -/
theorem Owes.notifyFrom {objstate : FetchState} {users : List ObjectUser}
    (owes : Owes event offset handle s) (done : s.notifyFrom id objstate users = some s')
    (quiet : ¬Delivers s' handle) : Owes event offset handle s' := by
  obtain ⟨next, same⟩ := notifyFrom_handles users done
  refine ⟨next ▸ owes.old, fun value' after => ?_⟩
  have before := same handle
  rw [after] at before
  obtain ⟨value, here⟩ := Option.isSome_iff_exists.mp before.symm
  have awaits := owes.awaits value here
  cases found : s.find id with
  | none =>
      cases users with
      | nil =>
          cases done
          exact owes.awaits value' after
      | cons user rest =>
          unfold Cache.notifyFrom at done
          rw [found] at done
          split at done
          · rename_i absent
            cases absent
          · cases done
  | some object =>
      rcases notifyFrom_visits users found here awaits.started done with
        ⟨notifying, task, user, -⟩ | ⟨-, kept, -⟩
      · exact absurd ⟨notifying, task, user⟩ quiet
      · rw [after] at kept
        cases kept
        exact awaits

/-- A pass goes on with a handle that waits again. -/
structure Replayed (notifying : Notifying) (s s' : Cache) : Prop where
  next : s'.nextHandle = s.nextHandle
  self : s'.handles notifying.user =
    (s.handles notifying.user).map (replay notifying.event notifying.origHandleRead)
  other : ∀ handle ≠ notifying.user, s'.handles handle = s.handles handle

/-- A pass goes on as the answer says. -/
theorem passAfter_start {notifying : Notifying} {answer : Nserror} {pass : Pass}
    (passes : passAfter out s notifying answer = some pass) :
    (Replayed notifying s pass.start ∧ answer = .needData) ∨
      (Grows s pass.start ∧ (Stays s notifying → answer ≠ .needData)) := by
  unfold passAfter at passes
  obtain ⟨object, found, rest⟩ := Option.bind_eq_some_iff.mp passes
  split at rest
  · cases rest
  · rename_i user users here
    have first := List.head?_dropWhile_not
      (fun user : ObjectUser => user.handle ≠ notifying.user) object.users
    rw [here] at first
    have told : user.handle = notifying.user := by simpa using first
    split at rest
    · rename_i queued
      split at rest
      · cases rest
        refine .inr ⟨grows_dropUser _ _, fun stays => ?_⟩
        have kept := stays object user found (by rw [here]; rfl)
        rw [queued] at kept
        cases kept
      · cases rest
    · split at rest
      · rename_i again
        cases rest
        rw [told]
        exact .inl ⟨⟨rfl, setHandle_self _ _, fun handle other => setHandle_other other⟩, again⟩
      · rename_i other
        split at rest
        · cases rest
          exact .inr ⟨.of_clients rfl, fun _ => other⟩
        · cases rest

/-- A pass starts with the handles as they are, or with one that waits again. -/
theorem passOf_start {input : Input} {pass : Pass} (passes : passOf out s input = some pass) :
    Grows s pass.start ∨ ∃ notifying, s.task = some (.notifying notifying) ∧
      Replayed notifying s pass.start := by
  unfold Llcache.passOf at passes
  split at passes
  · obtain ⟨object, -, rfl⟩ := Option.map_eq_some_iff.mp passes
    exact .inl (.of_clients rfl)
  · split at passes
    · rename_i notifying task
      exact (passAfter_start passes).symm.imp And.left fun replayed =>
        ⟨notifying, task, replayed.1⟩
    · cases passes
  · cases passes

/-- A pass for other users starts with the handle still waiting. -/
theorem Owes.passOf {input : Input} {pass : Pass} (owes : Owes event offset handle s)
    (quiet : ¬Delivers s handle) (passes : passOf out s input = some pass) :
    Owes event offset handle pass.start := by
  rcases passOf_start passes with grown | ⟨notifying, task, replayed⟩
  · exact owes.grows grown
  · have apart : handle ≠ notifying.user := fun same => quiet ⟨notifying, task, same.symm⟩
    refine ⟨replayed.next ▸ owes.old, fun value after => owes.awaits value ?_⟩
    rwa [← replayed.other handle apart]

theorem Owes.step {input : Input} (owes : Owes event offset handle s) (quiet : ¬Delivers s handle)
    (done : s.step out input = some s') (still : ¬Delivers s' handle) :
    Owes event offset handle s' := by
  rcases step_pass done with ⟨pass, passes, told⟩ | ⟨-, grown⟩
  · exact (owes.passOf quiet passes).notifyFrom told still
  · exact owes.grows grown

/-- A step to a cache that does not tell a handle of an event. -/
def QuietStep (handle : Nat) (s s' : Cache) : Prop :=
  (∃ out input, s.step out input = some s') ∧ ¬Delivers s' handle

theorem Owes.quietly (owes : Owes event offset handle s) (quiet : ¬Delivers s handle)
    (later : Relation.ReflTransGen (QuietStep handle) s s') :
    Owes event offset handle s' ∧ ¬Delivers s' handle := by
  induction later with
  | refl => exact ⟨owes, quiet⟩
  | tail _ last ih =>
      obtain ⟨⟨out, input, done⟩, still⟩ := last
      exact ⟨ih.1.step ih.2 done still, still⟩

/-- A pass that finds the object where it was when the event came up tells the user of the event
again, or stops at a user before, and it tells the user of no other event. -/
def Repeats (notifying : Notifying) (pass : Pass) (s' : Cache) : Prop :=
  ∀ object value, pass.start.find pass.object = some object →
    pass.start.handles notifying.user = some value → Holds notifying.event object value →
      (∀ next, s'.task = some (.notifying next) → next.user = notifying.user →
        next.event = again notifying.event notifying.origHandleRead object) ∧
      (notifying.user ∈ pass.users.map ObjectUser.handle → Past notifying.event pass.objstate →
        Delivers s' notifying.user ∨
          ∃ other ∈ (pass.users.map ObjectUser.handle).takeWhile (· ≠ notifying.user),
            Delivers s' other)

theorem Owes.repeats {notifying : Notifying} {pass : Pass}
    (owes : Owes notifying.event notifying.origHandleRead notifying.user pass.start)
    (done : pass.start.notifyFrom pass.object pass.objstate pass.users = some s') :
    Repeats notifying pass s' := by
  intro object value found here holds
  have awaits := owes.awaits value here
  rcases notifyFrom_visits pass.users found here awaits.started done with
    ⟨told, task, user, event⟩ | ⟨quiet, -, reached⟩
  · refine ⟨fun next task' _ => ?_, fun _ _ => .inl ⟨told, task, user⟩⟩
    rw [task] at task'
    cases task'
    exact ((due_awaits awaits holds).mp event).2
  · refine ⟨fun next task' user => absurd ⟨next, task', user⟩ quiet, fun inside past => .inr ?_⟩
    refine reached inside ?_
    rw [(due_awaits awaits holds).mpr ⟨past, rfl⟩]
    exact Option.some_ne_none _

/-- A handle is told of the certificates, of the headers, or in its data state of data or the
end. -/
theorem due_cases {objstate : FetchState} {object : LlcacheObject} {value : Handle} {told : Event}
    (tells : due objstate object value = some told) : (∃ chain, told = .gotCerts chain) ∨
      told = .hadHeaders ∨ value.state = .data ∧ ((∃ buf, told = .hadData buf) ∨ told = .done) := by
  cases state : value.state with
  | init =>
      unfold due catchUp at tells
      dsimp only at tells
      split at tells
      · unfold catchUpInit at tells
        split at tells
        · obtain ⟨chain, -, rfl⟩ := Option.map_eq_some_iff.mp tells
          exact .inl ⟨chain, rfl⟩
        · cases tells
      · have early : (catchUpInit objstate object value).1.state ≠ .data := by
          unfold catchUpInit
          split
          · exact FetchState.noConfusion
          · simp [state]
        split at tells
        · cases tells
          exact .inr (.inl rfl)
        · rw [if_neg fun both => early both.1, if_neg fun both => early both.1] at tells
          cases tells
  | headers =>
      rw [due_headers state] at tells
      split at tells
      · cases tells
        exact .inr (.inl rfl)
      · cases tells
  | data =>
      rw [due_data state] at tells
      split at tells
      · cases tells
        exact .inr (.inr ⟨rfl, .inl ⟨_, rfl⟩⟩)
      · split at tells
        · cases tells
          exact .inr (.inr ⟨rfl, .inr rfl⟩)
        · cases tells
  | complete =>
      rw [due_complete state] at tells
      cases tells

/-- A pass tells a handle of the certificates, of the headers or of the end, or gives it data, in
its data state. -/
def Told (event : Event) (value : Handle) : Prop :=
  (∃ chain, event = .gotCerts chain) ∨ event = .hadHeaders ∨ event = .done ∨
    (∃ buf, event = .hadData buf) ∧ value.state = .data

theorem Told.of_progress {value value' : Handle} (same : value'.progress = value.progress)
    (told : Told event value) : Told event value' :=
  told.imp id (Or.imp id (Or.imp id (And.imp id fun state =>
    (congrArg Prod.fst same).trans state)))

/-- The data of an event is that of the object from the recorded offset on, unless it is given
away. -/
theorem notifyFrom_tells {objstate : FetchState} {notifying : Notifying} (users : List ObjectUser)
    (done : s.notifyFrom id objstate users = some s')
    (told : s'.task = some (.notifying notifying)) :
    (∃ value, s'.handles notifying.user = some value ∧ Told notifying.event value) ∧
      ∃ object, s'.find notifying.object = some object ∧ ∀ buf, notifying.event = .hadData buf →
        isStreaming object = false → buf = dataFrom object notifying.origHandleRead := by
  induction users generalizing s with
  | nil =>
      cases done
      cases told
  | cons user rest ih =>
      unfold Cache.notifyFrom at done
      split at done
      · rename_i value object here found
        dsimp only at done
        split at done
        · exact ih done
        · rename_i event some
          have tells : due objstate object value = Option.some event := some
          cases done
          cases told
          have there : (s.setHandle user.handle
            (Option.some (catchUp objstate object value).1)).find id = Option.some object := found
          refine ⟨⟨_, setHandle_self _ _, ?_⟩, _, find_modify_self (find_modify_self there),
            fun buf data whole => ?_⟩
          · rcases due_cases tells with certs | headers | ⟨state, ⟨buf, data⟩ | final⟩
            · exact .inl certs
            · exact .inr (.inl headers)
            · refine .inr (.inr (.inr ⟨⟨buf, data⟩, ?_⟩))
              rw [data, due_data state] at tells
              rw [catchUp_data state]
              split at tells
              · rename_i unseen
                rw [if_pos unseen]
                split <;> exact state
              · split at tells <;> cases tells
            · exact .inr (.inr (.inl final))
          · have streams : isStreaming object = false := whole
            dsimp only at data
            rcases due_cases tells with ⟨chain, certs⟩ | headers | ⟨state, -⟩
            · rw [certs] at data
              cases data
            · rw [headers] at data
              cases data
            · rw [data, due_data state] at tells
              rw [catchUp_data state, streams]
              split at tells
              · rename_i unseen
                rw [if_pos unseen]
                cases tells
                rfl
              · split at tells <;> cases tells
      · cases done

/-- The handles of a reachable cache have numbers below the next one. -/
theorem numbered_step {input : Input} (numbered : Numbered s)
    (done : s.step out input = some s') : Numbered s' := by
  rcases step_pass done with ⟨pass, passes, told⟩ | ⟨-, grown⟩
  · obtain ⟨next, same⟩ := notifyFrom_handles pass.users told
    have start : Numbered pass.start := by
      rcases passOf_start passes with grown | ⟨notifying, -, replayed⟩
      · exact grown.numbered numbered
      · intro handle value here
        rw [replayed.next]
        by_cases self : handle = notifying.user
        · subst self
          rw [replayed.self] at here
          obtain ⟨before, there, -⟩ := Option.map_eq_some_iff.mp here
          exact numbered _ before there
        · rw [replayed.other handle self] at here
          exact numbered handle value here
    intro handle value here
    have before := same handle
    rw [here] at before
    obtain ⟨value₀, there⟩ := Option.isSome_iff_exists.mp before.symm
    rw [next]
    exact start handle value₀ there
  · exact grown.numbered numbered

theorem numbered_reached {parameters : Parameters} {steps : List (Outside × Input)}
    (reached : (initial parameters).run steps = some s) : Numbered s :=
  @run_keeps (fun _ _ _ => True) Numbered
    (fun _ _ _ _ numbered _ done => numbered_step numbered done) _ _ steps
    (fun _ _ here => (Option.some_ne_none _ here.symm).elim)
    (meets_of_forall steps fun _ _ _ => trivial) reached

/-- A call of a client, which it may make inside a callback. -/
def Input.isCall : Input → Bool
  | .handleRetrieve .. | .handleRelease _ | .handleClone _ | .handleAbort _
  | .handleForceStream _ | .handleInvalidateCacheData _ | .clean _ => true
  | _ => false

/-- The calls of clients do not make a handle get further. -/
theorem grows_calls {steps : List (Outside × Input)} (calls : ∀ x ∈ steps, x.2.isCall = true)
    (reached : s.run steps = some s') : Grows s s' := by
  induction steps generalizing s with
  | nil =>
      cases reached
      exact .of_clients rfl
  | cons first rest ih =>
      rw [Cache.run, List.foldlM_cons, Option.bind_eq_bind, Option.bind_eq_some_iff] at reached
      obtain ⟨middle, done, later⟩ := reached
      have call := calls first (List.mem_cons_self ..)
      refine Grows.trans ?_ (ih (fun x inside => calls x (List.mem_cons_of_mem _ inside)) later)
      rcases step_pass done with ⟨pass, passes, -⟩ | ⟨-, grown⟩
      · obtain ⟨out, input⟩ := first
        cases input with
        | notifyUsers id => cases call
        | returns answer => cases call
        | _ => cases (show (none : Option Pass) = some pass from passes)
      · exact grown

/-- The handle waits again after the answer. -/
theorem awaits_replay {notifying : Notifying} {value : Handle}
    (event : ∀ chain, notifying.event ≠ .gotCerts chain) (told : Told notifying.event value) :
    Awaits notifying.event notifying.origHandleRead
      (replay notifying.event notifying.origHandleRead value) := by
  rcases told with ⟨chain, certs⟩ | headers | final | ⟨⟨buf, data⟩, state⟩
  · exact absurd certs (event chain)
  · rw [headers]
    rfl
  · rw [final]
    rfl
  · rw [data]
    exact ⟨state, rfl⟩

/-- A user that asks for the headers, for data or for the end again gets them again, from the
next pass on that comes to it with its object still there, and nothing before that. The data is
the same again and what has come after it, unless the object streams. -/
theorem needData_repeats {parameters : Parameters} {before during : List (Outside × Input)}
    {s₀ s₁ s₂ s₃ : Cache} {out' : Outside} {input : Input} {pass : Pass} {notifying : Notifying}
    (reached : (initial parameters).run before = some s₀)
    (passes : passOf out s₀ input = some pass) (done : s₀.step out input = some s₁)
    (told : s₁.task = some (.notifying notifying))
    (event : ∀ chain, notifying.event ≠ .gotCerts chain)
    (calls : ∀ x ∈ during, x.2.isCall = true) (inside : s₁.run during = some s₂)
    (task : s₂.task = some (.notifying notifying)) (stays : Stays s₂ notifying)
    (answered : s₂.step out' (.returns .needData) = some s₃) :
    (∃ object, s₁.find notifying.object = some object ∧ ∀ buf, notifying.event = .hadData buf →
        isStreaming object = false → buf = dataFrom object notifying.origHandleRead) ∧
      (∀ pass, passOf out' s₂ (.returns .needData) = some pass → Repeats notifying pass s₃) ∧
      ∀ s₄ s₅ out input pass, ¬Delivers s₃ notifying.user →
        Relation.ReflTransGen (QuietStep notifying.user) s₃ s₄ →
        passOf out s₄ input = some pass → s₄.step out input = some s₅ →
        Repeats notifying pass s₅ := by
  have numbered := numbered_step (numbered_reached reached) done
  have started {out : Outside} {s s' : Cache} {input : Input} {pass : Pass}
      (passes : passOf out s input = some pass) (done : s.step out input = some s') :
      pass.start.notifyFrom pass.object pass.objstate pass.users = some s' := by
    rcases step_pass done with ⟨pass', passes', told⟩ | ⟨none, -⟩
    · rw [passes] at passes'
      cases passes'
      exact told
    · rw [passes] at none
      cases none
  obtain ⟨⟨value, here, knows⟩, data⟩ := notifyFrom_tells pass.users (started passes done) told
  have grown := grows_calls calls inside
  have old := numbered _ value here
  have owes : ∀ pass, passOf out' s₂ (.returns .needData) = some pass →
      Owes notifying.event notifying.origHandleRead notifying.user pass.start := by
    intro pass next
    rw [passOf, task] at next
    obtain ⟨replayed, -⟩ := (passAfter_start next).resolve_right fun other => other.2 stays rfl
    refine ⟨?_, fun value' after => ?_⟩
    · rw [replayed.next]
      exact old.trans_le grown.next
    · rw [replayed.self] at after
      obtain ⟨value₂, there, rfl⟩ := Option.map_eq_some_iff.mp after
      obtain ⟨first, start, same⟩ := grown.old _ value₂ old there
      rw [here] at start
      cases start
      exact awaits_replay event (knows.of_progress same)
  refine ⟨data, fun pass next => (owes pass next).repeats (started next answered), ?_⟩
  intro s₄ s₅ out input pass₄ quiet later passes₄ done₄
  have waits : Owes notifying.event notifying.origHandleRead notifying.user s₃ := by
    rcases notifyingReturns_pass (step_returns task answered) with ⟨next, after, told₃⟩ | ended
    · have passes₃ : passOf out' s₂ (.returns .needData) = some next := by
        rw [passOf, task]
        exact after
      exact (owes next passes₃).notifyFrom told₃ quiet
    · exact absurd rfl (ended.2.2 stays)
  obtain ⟨later, still⟩ := waits.quietly quiet later
  exact (later.passOf still passes₄).repeats (started passes₄ done₄)

/-- An object gets its headers and some data, and its user knows of the headers. -/
def dataInputs (flags : UInt32) : List Input :=
  [.handleRetrieve (urlOf "http://a/") flags none none, .fetch 0 (.header (str "Age: 1")),
    .fetch 0 (.data (str "ab")), .notifyUsers 0]

/-- The first user gets the first data. -/
def dataTold : Notifying :=
  { object := 0, objstate := .data, user := 0, event := .hadData (str "ab"), origHandleRead := 0 }

/-- A user that asks for its data again gets it from the next pass. -/
theorem needData_repeats_data : ∃ s₁ s₃ : Cache, s₁.task = some (.notifying dataTold) ∧
    s₁.step calmOutside (.returns .needData) = some s₃ ∧ s₃.task = none ∧
    ∀ s₅ pass, passOf calmOutside s₃ (.notifyUsers 0) = some pass →
      s₃.step calmOutside (.notifyUsers 0) = some s₅ → Repeats dataTold pass s₅ := by
  have run : ((initial smallCache).run (within calmOutside (dataInputs 0))).any (fun s₀ =>
      (passOf calmOutside s₀ (.returns .ok)).isSome &&
        (s₀.step calmOutside (.returns .ok)).any fun s₁ =>
          s₁.task == some (.notifying dataTold) &&
            (s₁.find 0).any (fun object => object.users.all fun user => !user.queuedForDelete) &&
            (s₁.step calmOutside (.returns .needData)).any fun s₃ => s₃.task == none) = true := by
    decide
  obtain ⟨s₀, reached, facts⟩ := exists_of_any _ run
  rw [Bool.and_eq_true] at facts
  obtain ⟨pass, passes⟩ := Option.isSome_iff_exists.mp facts.1
  obtain ⟨s₁, done, facts⟩ := (Option.any_eq_true _ _).mp facts.2
  rw [Bool.and_eq_true, Bool.and_eq_true] at facts
  obtain ⟨⟨told, users⟩, facts⟩ := facts
  obtain ⟨s₃, answered, idle⟩ := (Option.any_eq_true _ _).mp facts
  have quiet : ¬Delivers s₃ 0 := by
    rintro ⟨notifying, task, -⟩
    rw [eq_of_beq idle] at task
    cases task
  have stays : Stays s₁ dataTold := by
    intro object user found first
    obtain ⟨object', found', all⟩ := (Option.any_eq_true _ _).mp users
    replace found : s₁.find 0 = some object := found
    rw [found] at found'
    cases found'
    have kept := List.all_eq_true.mp all user
      ((List.dropWhile_sublist _).subset (List.mem_of_head? first))
    simpa using kept
  have noCalls : ∀ x ∈ ([] : List (Outside × Input)), x.2.isCall = true :=
    fun _ inside => (List.not_mem_nil inside).elim
  refine ⟨s₁, s₃, eq_of_beq told, answered, eq_of_beq idle, fun s₅ pass₅ passes₅ done₅ => ?_⟩
  exact (needData_repeats reached passes done (eq_of_beq told) (fun _ => Event.noConfusion) noCalls
    rfl (eq_of_beq told) stays answered).2.2 s₃ s₅ calmOutside (.notifyUsers 0) pass₅ quiet .refl
    passes₅ done₅

/-- A user of a streaming object asks for its data again, but the next pass has nothing for it. -/
theorem streamed_data_lost : ∃ s₁ s₂ s₃ : Cache,
    (initial smallCache).run (within calmOutside (dataInputs STREAM_DATA ++ [.returns .ok])) =
      some s₁ ∧
    s₁.task = some (.notifying dataTold) ∧ s₁.step calmOutside (.returns .needData) = some s₂ ∧
    s₂.step calmOutside (.notifyUsers 0) = some s₃ ∧ s₃.task = none ∧
    (s₃.handles 0).isSome = true := by
  have run : ((initial smallCache).run (within calmOutside
      (dataInputs STREAM_DATA ++ [.returns .ok]))).any (fun s₁ =>
        s₁.task == some (.notifying dataTold) &&
          (s₁.step calmOutside (.returns .needData)).any fun s₂ =>
            (s₂.step calmOutside (.notifyUsers 0)).any fun s₃ =>
              s₃.task == none && (s₃.handles 0).isSome) = true := by
    decide
  obtain ⟨s₁, reached, facts⟩ := exists_of_any _ run
  rw [Bool.and_eq_true] at facts
  obtain ⟨told, facts⟩ := facts
  obtain ⟨s₂, answered, facts⟩ := (Option.any_eq_true _ _).mp facts
  obtain ⟨s₃, notified, facts⟩ := (Option.any_eq_true _ _).mp facts
  rw [Bool.and_eq_true] at facts
  exact ⟨s₁, s₂, s₃, reached, eq_of_beq told, answered, notified, eq_of_beq facts.1, facts.2⟩

end Neosurf.Llcache
