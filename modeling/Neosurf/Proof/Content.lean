/-
This file proves which steps of a content keep its status and its users' messages in order, and when
a content moves from loading to ready to done and tells its users so.
-/

import Neosurf.Construction.Content

namespace Neosurf.Contents

/-- A content moves on to being ready and then done, or it fails. -/
inductive Moves : ContentStatus → ContentStatus → Prop
  | ready : Moves .loading .ready
  | done : Moves .ready .done
  | error (status : ContentStatus) : Moves status .error

/-- Every status that is entered follows the one before. -/
inductive Forward : ContentStatus → List Happening → ContentStatus → Prop
  | nil (status : ContentStatus) : Forward status [] status
  | entered {before status after : ContentStatus} {rest : List Happening}
      (move : Moves before status) (later : Forward status rest after) :
      Forward before (.entered status :: rest) after
  | sent {before after : ContentStatus} {user : Nat} {msg : ContentMsg} {rest : List Happening}
      (later : Forward before rest after) : Forward before (.sent user msg :: rest) after

/-- A user is sent this message at every place where it is sent the other one, or earlier. -/
def SentFirst (user : Nat) (first msg : ContentMsg) (trace : List Happening) : Prop :=
  ∀ before after, trace = before ++ .sent user msg :: after → .sent user first ∈ before

/-- A user is not sent this message once the content has failed. -/
def SilentAfterError (user : Nat) (msg : ContentMsg) (trace : List Happening) : Prop :=
  ∀ before after, trace = before ++ .entered .error :: after → .sent user msg ∉ after

variable {base middle after : ContentStatus} {trace more : List Happening} {user : Nat}
  {msg first : ContentMsg}

theorem Forward.append (start : Forward base trace middle) (rest : Forward middle more after) :
    Forward base (trace ++ more) after := by
  induction start with
  | nil status => exact rest
  | entered move later ih => exact .entered move (ih rest)
  | sent later ih => exact .sent (ih rest)

theorem forward_sent (users : List Nat) (status : ContentStatus) :
    Forward status (users.map fun user => .sent user msg) status := by
  induction users with
  | nil => exact .nil status
  | cons user rest ih => exact .sent ih

/-- A failed content stays so. -/
theorem Forward.error (forward : Forward base trace after) (failed : base = .error) :
    after = .error := by
  induction forward with
  | nil => exact failed
  | entered move later ih =>
      subst failed
      cases move with
      | error => exact ih rfl
  | sent later ih => exact ih failed

theorem Forward.error_of_mem (forward : Forward base trace after)
    (failed : Happening.entered .error ∈ trace) : after = .error := by
  induction forward with
  | nil => cases failed
  | entered move later ih =>
      rcases List.mem_cons.mp failed with same | failed
      · cases same
        exact later.error rfl
      · exact ih failed
  | sent later ih =>
      rcases List.mem_cons.mp failed with same | failed
      · cases same
      · exact ih failed

theorem SentFirst.append (sent : SentFirst user first msg trace)
    (known : .sent user msg ∈ more → .sent user first ∈ trace) :
    SentFirst user first msg (trace ++ more) := by
  intro before after split
  rcases List.append_eq_append_iff.mp split with ⟨rest, rfl, split'⟩ | ⟨rest, rfl, split'⟩
  · refine List.mem_append_left _ (known ?_)
    rw [split']
    exact List.mem_append_right _ List.mem_cons_self
  · cases rest with
    | nil =>
        rw [List.append_nil] at known
        refine known ?_
        rw [List.nil_append] at split'
        rw [← split']
        exact List.mem_cons_self
    | cons happening rest =>
        obtain ⟨rfl, -⟩ := List.cons.inj split'
        exact sent before rest rfl

theorem SilentAfterError.append (silent : SilentAfterError user msg trace)
    (quiet : .sent user msg ∉ more ∨ .entered .error ∉ trace ++ more) :
    SilentAfterError user msg (trace ++ more) := by
  intro before after split inside
  rcases quiet with quiet | calm
  · rcases List.append_eq_append_iff.mp split with ⟨rest, rfl, split'⟩ | ⟨rest, rfl, split'⟩
    · refine quiet ?_
      rw [split']
      exact List.mem_append_right _ (List.mem_cons_of_mem _ inside)
    · cases rest with
      | nil =>
          refine quiet ?_
          rw [List.nil_append] at split'
          rw [← split']
          exact List.mem_cons_of_mem _ inside
      | cons happening rest =>
          obtain ⟨rfl, rfl⟩ := List.cons.inj split'
          rcases List.mem_append.mp inside with inside | inside
          · exact silent before rest rfl inside
          · exact quiet inside
  · refine calm ?_
    rw [split]
    exact List.mem_append_right _ List.mem_cons_self

/-- The stage of the handler fits the content. -/
structure Fits (life : Life) : Prop where
  locked : life.stage = .converting → life.content.status = .loading → life.content.locked = true
  early : life.content.status = .loading → life.stage = .waiting ∨ life.stage = .converting
  shown : life.stage = .shown → life.content.status = .ready ∨ life.content.status = .error

/-- A user that was there from the start was told of the statuses in order. -/
structure Told (c : Content) (user : Nat) : Prop where
  present : user ∈ c.users
  readyFirst : SentFirst user .ready .done c.trace
  ready : c.status = .ready ∨ c.status = .done → .sent user .ready ∈ c.trace
  silentReady : SilentAfterError user .ready c.trace
  silentDone : SilentAfterError user .done c.trace

/-- One content comes from another one in order. -/
structure InOrder (base : ContentStatus) (c c' : Content) : Prop where
  forward : Forward base c.trace c.status → Forward base c'.trace c'.status
  told : ∀ user, Forward base c.trace c.status → user ∈ c'.users → Told c user → Told c' user

variable {base : ContentStatus} {c c' c'' : Content} {user : Nat} {msg : ContentMsg}
  {handler : ContentHandler} {life life' : Life} {stage stage' : Stage}

theorem InOrder.refl (base : ContentStatus) (c : Content) : InOrder base c c :=
  ⟨id, fun _ _ _ told => told⟩

theorem InOrder.trans (first : InOrder base c c') (second : InOrder base c' c'')
    (users : ∀ user ∈ c''.users, user ∈ c.users → user ∈ c'.users) : InOrder base c c'' :=
  ⟨fun forward => second.forward (first.forward forward), fun user forward inside told =>
    second.told user (first.forward forward) inside
      (first.told user forward (users user inside told.present) told)⟩

theorem mem_broadcast {users : List Nat} {other : ContentMsg} :
    Happening.sent user msg ∈ users.map (fun user => .sent user other) ↔
      user ∈ users ∧ msg = other := by
  rw [List.mem_map]
  constructor
  · rintro ⟨u, inside, same⟩
    cases same
    exact ⟨inside, rfl⟩
  · rintro ⟨inside, rfl⟩
    exact ⟨user, inside, rfl⟩

theorem entered_notMem_broadcast {users : List Nat} {status : ContentStatus} :
    Happening.entered status ∉ users.map (fun user => .sent user msg) := by
  intro inside
  obtain ⟨u, -, same⟩ := List.mem_map.mp inside
  cases same

/-- Other messages may be sent at any time. -/
theorem inOrder_broadcast (c : Content) (notReady : msg ≠ .ready) (notDone : msg ≠ .done) :
    InOrder base c (c.broadcast msg) where
  forward before := before.append (forward_sent _ _)
  told user before inside told := by
    have quiet : ∀ other : ContentMsg, msg ≠ other →
        Happening.sent user other ∉ c.users.map fun user => .sent user msg :=
      fun other apart sent => apart (mem_broadcast.mp sent).2.symm
    exact ⟨inside, told.readyFirst.append fun sent => absurd sent (quiet _ notDone),
      fun shown => List.mem_append_left _ (told.ready shown),
      told.silentReady.append (Or.inl (quiet _ notReady)),
      told.silentDone.append (Or.inl (quiet _ notDone))⟩

theorem Told.enter_error (told : Told c user) : Told (c.enter .error) user := by
  have quiet : ∀ other : ContentMsg, Happening.sent user other ∉ [Happening.entered .error] :=
    fun other sent => by cases List.mem_singleton.mp sent
  refine ⟨told.present, told.readyFirst.append fun sent => absurd sent (quiet _), fun shown => ?_,
    told.silentReady.append (Or.inl (quiet _)), told.silentDone.append (Or.inl (quiet _))⟩
  rcases shown with shown | shown <;> cases shown

/-- A content may fail at any time. -/
theorem inOrder_enter_error (c : Content) : InOrder base c (c.enter .error) :=
  ⟨fun before => before.append (.entered (.error _) (.nil _)), fun _ _ _ told => told.enter_error⟩

theorem inOrder_setError (c : Content) : InOrder base c c.setError :=
  ⟨(inOrder_enter_error c).forward, fun user before inside told =>
    let failed := (inOrder_enter_error c).told user before inside told
    ⟨failed.present, failed.readyFirst, failed.ready, failed.silentReady, failed.silentDone⟩⟩

/-- Nothing has failed as long as the content is not failed. -/
theorem notMem_enter (before : Forward base c.trace c.status) (calm : c.status ≠ .error)
    (msg : ContentMsg) {status : ContentStatus} (other : status ≠ .error) (users : List Nat) :
    Happening.entered .error ∉
      c.trace ++ [.entered status] ++ users.map fun user => .sent user msg := by
  intro inside
  rcases List.mem_append.mp inside with inside | inside
  · rcases List.mem_append.mp inside with inside | inside
    · exact calm (before.error_of_mem inside)
    · exact other (Happening.entered.inj (List.mem_singleton.mp inside)).symm
  · exact entered_notMem_broadcast inside

variable (base) in
theorem inOrder_setReady (loading : c.status = .loading) (ready : c.setReady = some c') :
    InOrder base c c' ∧ c'.status = .ready ∧ c'.users = c.users := by
  rw [Content.setReady] at ready
  split_ifs at ready with locked
  cases ready
  refine ⟨⟨fun before => ?_, fun user before inside told => ?_⟩, rfl, rfl⟩
  · refine (before.append (.entered (loading ▸ .ready) (.nil _))).append (forward_sent _ _)
  · have calm := notMem_enter before (by rw [loading]; decide) .ready
      (by decide : ContentStatus.ready ≠ .error) c.users
    have shown : Happening.sent user .ready ∈
        c.trace ++ [.entered .ready] ++ c.users.map fun user => .sent user .ready :=
      List.mem_append_right _ (mem_broadcast.mpr ⟨inside, rfl⟩)
    have silent : ∀ msg, SilentAfterError user msg c.trace → SilentAfterError user msg
        (c.trace ++ [.entered .ready] ++ c.users.map fun user => .sent user .ready) := by
      intro msg silent
      rw [List.append_assoc] at calm ⊢
      exact silent.append (Or.inr calm)
    refine ⟨inside, ?_, fun _ => shown, silent _ told.silentReady,
      silent _ told.silentDone⟩
    show SentFirst user .ready .done (c.trace ++ [.entered .ready] ++ _)
    rw [List.append_assoc]
    refine told.readyFirst.append fun sent => ?_
    rcases List.mem_append.mp sent with sent | sent
    · cases List.mem_singleton.mp sent
    · cases (mem_broadcast.mp sent).2

theorem inOrder_setDone (ready : c.status = .ready) : InOrder base c c.setDone where
  forward before :=
    (before.append (.entered (ready ▸ .done) (.nil _))).append (forward_sent _ _)
  told user before inside told := by
    have calm := notMem_enter before (by rw [ready]; decide) .done
      (by decide : ContentStatus.done ≠ .error) c.users
    have silent : ∀ msg, SilentAfterError user msg c.trace → SilentAfterError user msg
        (c.trace ++ [.entered .done] ++ c.users.map fun user => .sent user .done) := by
      intro msg silent
      rw [List.append_assoc] at calm ⊢
      exact silent.append (Or.inr calm)
    have known := told.ready (Or.inl ready)
    refine ⟨inside, ?_, fun _ => ?_, silent _ told.silentReady,
      silent _ told.silentDone⟩
    · show SentFirst user .ready .done (c.trace ++ [.entered .done] ++ _)
      rw [List.append_assoc]
      exact told.readyFirst.append fun _ => known
    · exact List.mem_append_left _ (List.mem_append_left _ known)

end Neosurf.Contents

namespace Neosurf.Contents

variable (base : ContentStatus) {c c' c'' : Content} {user : Nat} {handler : ContentHandler}
  {life life' start : Life} {stage stage' : Stage} {k : HandlerCall} {ks : List HandlerCall}
  {users : List Nat} {s : LifeStep} {steps : List LifeStep}

/-- The condition of a step. No handler without a conversion gets to the end of its data, no second
end of the data comes to a content that is ready, a handler calls a content ready or done only
while it is loading or ready, and no clone of a ready content is called ready again. -/
def Meets (handler : ContentHandler) (life : Life) : LifeStep → Prop
  | .event (.done _) =>
      life.content.status ≠ .ready ∧ life.content.status ≠ .done ∧
        (life.content.status = .loading → life.content.locked = false →
          handler.dataComplete = true)
  | .call .setReady => life.content.status = .loading
  | .call .setDone => life.content.status = .ready
  | .clone _ conversion _ => handler.cloneReplays = true →
      life.content.status = .ready ∨ life.content.status = .done → .setReady ∉ conversion.calls
  | _ => True

/-- A user stays with the content, and moves to its clone. -/
def LifeStep.Keeps (user : Nat) : LifeStep → Prop
  | .removeUser u => u ≠ user
  | .clone _ _ moved => user ∈ moved
  | _ => True

/-- A handler becomes ready, done or failed in turn, or it only sends an error. -/
theorem Stage.call_cases (called : stage.call k = some stage') :
    (k = .setReady ∧ stage = .converting ∧ stage' = .shown) ∨
      (k = .setDone ∧ stage = .shown ∧ stage' = .finished) ∨
        (k = .setError ∧ stage' = .finished) ∨ (k = .broadcastError ∧ stage' = stage) := by
  cases k <;> cases stage <;> simp_all [Stage.call]

/-- One call of a handler that acts at the right time. -/
theorem call_inOrder (called : stage.call k = some stage') (fits : Fits ⟨c, stage⟩)
    (ready : k = .setReady → c.status = .loading) (done : k = .setDone → c.status = .ready) :
    ∃ c', c.call k = some c' ∧ Fits ⟨c', stage'⟩ ∧ c'.users = c.users ∧ InOrder base c c' := by
  rcases Stage.call_cases called with ⟨rfl, rfl, rfl⟩ | ⟨rfl, rfl, rfl⟩ | ⟨rfl, rfl⟩ | ⟨rfl, rfl⟩
  · have loading := ready rfl
    have run : c.setReady = some (({ c with locked := false }.enter .ready).broadcast .ready) := by
      rw [Content.setReady, if_pos (fits.locked rfl loading)]
    obtain ⟨order, status, same⟩ := inOrder_setReady base loading run
    exact ⟨_, run, ⟨by simp, by simp [status], fun _ => Or.inl status⟩, same, order⟩
  · have status : c.setDone.status = .done := rfl
    exact ⟨_, rfl, ⟨by simp, by simp [status], by simp⟩, rfl, inOrder_setDone (done rfl)⟩
  · have status : c.setError.status = .error := rfl
    exact ⟨_, rfl, ⟨by simp, by simp [status], by simp⟩, rfl, inOrder_setError c⟩
  · exact ⟨_, rfl, ⟨fits.locked, fits.early, fits.shown⟩, rfl,
      inOrder_broadcast c (by decide) (by decide)⟩

/-- All calls of one conversion, while nothing else happens to the content. -/
theorem calls_inOrder (called : stage.calls ks = some stage') (fits : Fits ⟨c, stage⟩)
    (converting : stage = .converting → c.status = .loading ∨ .setReady ∉ ks)
    (shown : stage = .shown → c.status = .ready) :
    ∃ c', c.calls ks = some c' ∧ Fits ⟨c', stage'⟩ ∧ c'.users = c.users ∧ InOrder base c c' := by
  induction ks generalizing c stage with
  | nil =>
      cases called
      exact ⟨c, rfl, fits, rfl, .refl base c⟩
  | cons k rest ih =>
      obtain ⟨middle, first, later⟩ := Option.bind_eq_some_iff.mp called
      have cases := Stage.call_cases first
      obtain ⟨c₁, run₁, fits₁, users₁, order₁⟩ := call_inOrder base first fits
        (fun same => by
          subst same
          rcases cases with ⟨-, here, -⟩ | ⟨other, -⟩ | ⟨other, -⟩ | ⟨other, -⟩
          · exact (converting here).resolve_right fun none => none List.mem_cons_self
          all_goals cases other)
        (fun same => by
          subst same
          rcases cases with ⟨other, -⟩ | ⟨-, here, -⟩ | ⟨other, -⟩ | ⟨other, -⟩
          · cases other
          · exact shown here
          all_goals cases other)
      have next : (middle = .converting → c₁.status = .loading ∨ .setReady ∉ rest) ∧
          (middle = .shown → c₁.status = .ready) := by
        rcases cases with ⟨rfl, rfl, rfl⟩ | ⟨rfl, rfl, rfl⟩ | ⟨rfl, rfl⟩ | ⟨rfl, rfl⟩
        · have loading := (converting rfl).resolve_right fun none => none List.mem_cons_self
          exact ⟨by simp, fun _ => (inOrder_setReady base loading run₁).2.1⟩
        · exact ⟨by simp, by simp⟩
        · exact ⟨by simp, by simp⟩
        · cases run₁
          exact ⟨fun here => (converting here).imp_right fun none inside =>
            none (List.mem_cons_of_mem _ inside), shown⟩
      obtain ⟨c₂, run₂, fits₂, users₂, order₂⟩ := ih later fits₁ next.1 next.2
      refine ⟨c₂, ?_, fits₂, users₂.trans users₁, order₁.trans order₂ fun user inside _ => ?_⟩
      · rw [Content.calls, run₁]
        exact run₂
      · rw [users₂] at inside
        exact inside

/-- The end of the data converts a content that is loading. -/
theorem convert_inOrder {conversion : Conversion} (fits : Fits life)
    (meets : Meets handler life (.event (.done conversion)))
    (next : life.nextStage handler (.event (.done conversion)) = some stage') :
    ∃ c', life.content.convert handler conversion = some c' ∧ Fits ⟨c', stage'⟩ ∧
      c'.users = life.content.users ∧ InOrder base life.content c' := by
  obtain ⟨notReady, notDone, present⟩ := meets
  obtain ⟨c, stage⟩ := life
  rw [Life.nextStage] at next
  rw [Content.convert]
  cases status : c.status with
  | ready => exact absurd status notReady
  | done => exact absurd status notDone
  | error =>
      have apart : ¬Life.Converts handler ⟨c, stage⟩ := fun converts => by
        have loading : c.status = .loading := converts.1
        rw [status] at loading
        cases loading
      rw [if_neg apart] at next
      cases next
      exact ⟨c, by simp, fits, rfl, .refl base c⟩
  | loading =>
      cases locked : c.locked with
      | true =>
          have apart : ¬Life.Converts handler ⟨c, stage⟩ := fun converts => by
            have free : c.locked = false := converts.2.1
            rw [locked] at free
            cases free
          rw [if_neg apart] at next
          cases next
          exact ⟨c, by simp, fits, rfl, .refl base c⟩
      | false =>
          have complete := present status locked
          rw [if_pos ⟨status, locked, complete⟩] at next
          obtain ⟨c', run, fits', users, order⟩ := calls_inOrder base
            (c := { c with locked := true }) next
            ⟨fun _ _ => rfl, fun _ => Or.inr rfl, by simp⟩ (fun _ => Or.inl status) (by simp)
          have order' : InOrder base c c' := ⟨order.forward, fun user before inside told =>
            order.told user before inside
              ⟨told.present, told.readyFirst, told.ready, told.silentReady, told.silentDone⟩⟩
          rw [status] at run
          refine ⟨if conversion.result then c' else c'.setError, by simp [complete, run], ?_⟩
          split_ifs
          · exact ⟨fits', users, order'⟩
          · have failed : c'.setError.status = .error := rfl
            exact ⟨⟨by simp [failed], by simp [failed], fun _ => Or.inr failed⟩, users,
              order'.trans (inOrder_setError c') fun user inside _ => inside⟩

theorem event_inOrder {event : LlcacheEvent} (fits : Fits life)
    (meets : Meets handler life (.event event))
    (next : life.nextStage handler (.event event) = some stage') :
    ∃ c', life.content.llcacheCallback handler event = some c' ∧ Fits ⟨c', stage'⟩ ∧
      c'.users = life.content.users ∧ InOrder base life.content c' := by
  obtain ⟨c, stage⟩ := life
  have failed : ∀ c : Content, c.status = .error → Fits ⟨c, stage⟩ := fun c status =>
    ⟨by simp [status], by simp [status], fun _ => Or.inr status⟩
  cases event with
  | gotCerts =>
      cases next
      exact ⟨c, rfl, fits, rfl, .refl base c⟩
  | hadHeaders =>
      cases next
      exact ⟨c, rfl, fits, rfl, .refl base c⟩
  | hadData accepted =>
      cases next
      refine ⟨_, rfl, ?_⟩
      split_ifs
      · exact ⟨failed _ rfl, rfl, inOrder_enter_error c⟩
      · exact ⟨fits, rfl, .refl base c⟩
  | done conversion =>
      have order : InOrder base c (c.broadcast .status) :=
        inOrder_broadcast c (by decide) (by decide)
      have fitsTold : Fits ⟨c.broadcast .status, stage⟩ := ⟨fits.locked, fits.early, fits.shown⟩
      obtain ⟨c', run, fits', users, order'⟩ := convert_inOrder base fitsTold meets next
      exact ⟨c', run, fits', users, order.trans order' fun user inside _ => users ▸ inside⟩
  | error =>
      cases next
      exact ⟨_, rfl, failed _ rfl, rfl, (inOrder_enter_error c).trans
        (inOrder_broadcast _ (by decide) (by decide)) fun user inside _ => inside⟩
  | progress =>
      cases next
      exact ⟨_, rfl, ⟨fits.locked, fits.early, fits.shown⟩, rfl,
        inOrder_broadcast c (by decide) (by decide)⟩
  | redirect =>
      cases next
      exact ⟨_, rfl, ⟨fits.locked, fits.early, fits.shown⟩, rfl,
        inOrder_broadcast c (by decide) (by decide)⟩

/-- Nobody hears what a handler says while its conversion is replayed. -/
theorem replay_told (none : .setReady ∉ ks) (called : stage.calls ks = some stage')
    (start : stage = .converting ∨ stage = .finished) (alone : c.users = [])
    (run : c.calls ks = some c') (told : Told { c with users := users } user) :
    Told { c' with users := users } user := by
  induction ks generalizing c stage with
  | nil =>
      cases run
      exact told
  | cons k rest ih =>
      obtain ⟨middle, first, later⟩ := Option.bind_eq_some_iff.mp called
      obtain ⟨c₁, run₁, run⟩ := Option.bind_eq_some_iff.mp run
      have none' : .setReady ∉ rest := fun inside => none (List.mem_cons_of_mem _ inside)
      rcases Stage.call_cases first with ⟨rfl, -⟩ | ⟨rfl, rfl, -⟩ | ⟨rfl, rfl⟩ | ⟨rfl, rfl⟩
      · exact absurd List.mem_cons_self none
      · rcases start with start | start <;> cases start
      · cases run₁
        have failed := told.enter_error
        exact ih (c := c.setError) none' later (Or.inr rfl) alone run
          ⟨failed.present, failed.readyFirst, failed.ready, failed.silentReady, failed.silentDone⟩
      · cases run₁
        have same : c.broadcast .error = c := by
          rw [Content.broadcast, alone, List.map_nil, List.append_nil, ← alone]
        rw [same] at run
        exact ih none' later start alone run told

/-- A clone goes on like the content that was cloned. -/
theorem clone_inOrder {accepted : Bool} {conversion : Conversion} {moved : List Nat}
    (fits : Fits life) (meets : Meets handler life (.clone accepted conversion moved))
    (next : life.cloneStage handler accepted conversion = some stage') :
    ∃ c', Life.nextContent handler life.content (.clone accepted conversion moved) = some c' ∧
      Fits ⟨c', stage'⟩ ∧ (∀ user ∈ life.content.users, user ∈ moved → user ∈ c'.users) ∧
        InOrder base life.content c' := by
  obtain ⟨c, stage⟩ := life
  -- the clone as it is copied, before anything is replayed
  have copied : Fits ⟨{ c with users := moved.filter fun u => u ∈ c.users }, .ofStatus c.status⟩ := by
    refine ⟨fun here loading => ?_, fun loading => Or.inl ?_, fun shown => ?_⟩
    · rw [show c.status = .loading from loading] at here
      cases here
    · rw [show c.status = .loading from loading]
      rfl
    · cases status : c.status <;> simp_all [Stage.ofStatus]
  have moves : ∀ user ∈ c.users, user ∈ moved →
      user ∈ moved.filter fun u => u ∈ c.users := fun user inside other =>
    List.mem_filter.mpr ⟨other, decide_eq_true inside⟩
  have told : ∀ user, Told c user → user ∈ moved.filter (fun u => u ∈ c.users) →
      Told { c with users := moved.filter fun u => u ∈ c.users } user := fun user told inside =>
    ⟨inside, told.readyFirst, told.ready, told.silentReady, told.silentDone⟩
  rw [Life.cloneStage] at next
  simp only [Life.nextContent, Content.clone]
  by_cases replays : handler.cloneReplays = true
  swap
  · rw [if_neg replays] at next ⊢
    cases next
    exact ⟨_, rfl, copied, moves, id, fun user _ inside known => told user known inside⟩
  rw [if_pos replays] at next ⊢
  by_cases refused : (!accepted) = true
  · rw [if_pos refused] at next ⊢
    cases next
    exact ⟨c, rfl, fits, fun _ inside _ => inside, .refl base c⟩
  rw [if_neg refused] at next ⊢
  by_cases shown : c.status = .ready ∨ c.status = .done
  · rw [if_pos shown] at next ⊢
    obtain ⟨middle, called, next⟩ := Option.bind_eq_some_iff.mp next
    have none := meets replays shown
    have notLoading : c.status ≠ .loading := by
      rcases shown with shown | shown <;> rw [show c.status = _ from shown] <;> decide
    obtain ⟨new, run, fits', users, order⟩ := calls_inOrder base (c := c.copied) called
      ⟨fun _ loading => absurd loading notLoading, fun loading => absurd loading notLoading,
        by simp⟩ (fun _ => Or.inr none) (by simp)
    rw [run]
    cases result : conversion.result with
    | false =>
        rw [result] at next
        cases next
        exact ⟨c, rfl, fits, fun _ inside _ => inside, .refl base c⟩
    | true =>
        rw [result] at next
        cases next
        exact ⟨_, rfl, ⟨fits'.locked, fits'.early, fits'.shown⟩, moves, order.forward,
          fun user _ inside known =>
            replay_told none called (Or.inl rfl) rfl run (told user known inside)⟩
  · rw [if_neg shown] at next ⊢
    cases next
    exact ⟨_, rfl, copied, moves, id, fun user _ inside known => told user known inside⟩

/-- One step of a content keeps everything in order. -/
theorem step_inOrder (fits : Fits life) (meets : Meets handler life s)
    (next : life.nextStage handler s = some stage') :
    ∃ c', Life.nextContent handler life.content s = some c' ∧ Fits ⟨c', stage'⟩ ∧
      (∀ user ∈ life.content.users, s.Keeps user → user ∈ c'.users) ∧
        InOrder base life.content c' := by
  cases s with
  | event event =>
      obtain ⟨c', run, fits', users, order⟩ := event_inOrder base fits meets next
      exact ⟨c', run, fits', fun user inside _ => users ▸ inside, order⟩
  | call k =>
      obtain ⟨c', run, fits', users, order⟩ := call_inOrder base next fits
        (fun same => by subst same; exact meets) (fun same => by subst same; exact meets)
      exact ⟨c', run, fits', fun user inside _ => users ▸ inside, order⟩
  | addUser u =>
      cases next
      exact ⟨_, rfl, ⟨fits.locked, fits.early, fits.shown⟩,
        fun user inside _ => List.mem_cons_of_mem _ inside, id, fun user _ _ told =>
          ⟨List.mem_cons_of_mem _ told.present, told.readyFirst, told.ready, told.silentReady,
            told.silentDone⟩⟩
  | removeUser u =>
      cases next
      refine ⟨_, rfl, ⟨fits.locked, fits.early, fits.shown⟩, fun user inside stays => ?_, id,
        fun user _ inside told =>
          ⟨inside, told.readyFirst, told.ready, told.silentReady, told.silentDone⟩⟩
      exact (List.mem_erase_of_ne (Ne.symm stays)).mpr inside
  | clone accepted conversion moved =>
      exact clone_inOrder base fits meets next

/-- These are the runs whose steps all meet a condition. -/
inductive Lives (handler : ContentHandler) (P : Life → LifeStep → Prop) :
    Life → List LifeStep → Life → Prop
  | nil (life : Life) : Lives handler P life [] life
  | cons {life life' : Life} {stage : Stage} {c : Content} {s : LifeStep} {steps : List LifeStep}
      (meets : P life s) (next : life.nextStage handler s = some stage)
      (run : Life.nextContent handler life.content s = some c)
      (rest : Lives handler P ⟨c, stage⟩ steps life') : Lives handler P life (s :: steps) life'

theorem Lives.inOrder (lives : Lives handler (Meets handler) start steps life) (fits : Fits start) :
    Fits life ∧ (Forward base start.content.trace start.content.status →
      Forward base life.content.trace life.content.status) ∧
        ∀ user, Forward base start.content.trace start.content.status →
          (∀ s ∈ steps, s.Keeps user) → Told start.content user → Told life.content user := by
  induction lives with
  | nil => exact ⟨fits, id, fun _ _ _ told => told⟩
  | cons meets next run rest ih =>
      obtain ⟨c', run', fits', users, order⟩ := step_inOrder base fits meets next
      obtain rfl := Option.some.inj (run.symm.trans run')
      obtain ⟨last, forward, told⟩ := ih fits'
      refine ⟨last, fun before => forward (order.forward before), fun user before stays known => ?_⟩
      have present := users user known.present (stays _ List.mem_cons_self)
      exact told user (order.forward before)
        (fun s inside => stays s (List.mem_cons_of_mem _ inside))
        (order.told user before present known)

/-- A content that is loading for its first users. -/
def Life.init (users : List Nat) : Life := ⟨{ Content.init with users := users }, .waiting⟩

/-- The statuses are entered in order, every user that stays is told so, and no assertion fails at
the next step. -/
structure Sound (handler : ContentHandler) (users : List Nat) (steps : List LifeStep)
    (P : Life → LifeStep → Prop) (life : Life) : Prop where
  forward : Forward .loading life.content.trace life.content.status
  readyFirst : ∀ user ∈ users, (∀ s ∈ steps, s.Keeps user) →
    SentFirst user .ready .done life.content.trace
  silent : ∀ user ∈ users, (∀ s ∈ steps, s.Keeps user) →
    SilentAfterError user .ready life.content.trace ∧
      SilentAfterError user .done life.content.trace
  runs : ∀ s stage, life.nextStage handler s = some stage → P life s →
    ∃ c, Life.nextContent handler life.content s = some c

/-- Every run whose steps meet the condition keeps the content sound. -/
theorem lives_sound (lives : Lives handler (Meets handler) (.init users) steps life) :
    Sound handler users steps (Meets handler) life := by
  have fits : Fits (.init users) := ⟨by simp [Life.init], fun _ => Or.inl rfl, by simp [Life.init]⟩
  obtain ⟨fits', forward, told⟩ := lives.inOrder .loading fits
  have empty : Forward .loading (Life.init users).content.trace (Life.init users).content.status :=
    .nil _
  have first : ∀ user ∈ users, Told (Life.init users).content user := fun user inside =>
    ⟨inside, by simp [SentFirst, Life.init, Content.init], by simp [Life.init, Content.init],
      by simp [SilentAfterError, Life.init, Content.init],
      by simp [SilentAfterError, Life.init, Content.init]⟩
  refine ⟨forward empty, fun user inside stays => ?_, fun user inside stays => ?_,
    fun s stage next meets => ?_⟩
  · exact (told user empty stays (first user inside)).readyFirst
  · have last := told user empty stays (first user inside)
    exact ⟨last.silentReady, last.silentDone⟩
  · obtain ⟨c, run, -⟩ := step_inOrder .loading fits' meets next
    exact ⟨c, run⟩

/-- A style sheet whose imports are complete after its data has ended. -/
theorem lives_sound_styleSheet : Sound ⟨true, true, true⟩ [0]
    [.event (.hadData true), .event (.done ⟨[], true⟩), .call .setReady, .call .setDone]
    (Meets ⟨true, true, true⟩)
    ⟨⟨.done, false, [0], [.sent 0 .status, .entered .ready, .sent 0 .ready, .entered .done,
      .sent 0 .done]⟩, .finished⟩ := by
  refine lives_sound (.cons trivial rfl rfl (.cons ?_ rfl rfl (.cons ?_ rfl rfl (.cons ?_ rfl rfl
    (.nil _)))))
  · exact ⟨by decide, by decide, fun _ _ => rfl⟩
  · rfl
  · rfl

/-- The assertion fails for a handler without a conversion. -/
theorem convert_noDataComplete (handler : ContentHandler) (c : Content)
    (conversion : Conversion) (absent : handler.dataComplete = false) (loading : c.status = .loading)
    (free : c.locked = false) : c.convert handler conversion = none := by
  simp [Content.convert, loading, free, absent, Content.setReady]

/-- The users of a content without a conversion are never told that it is ready. -/
theorem lives_unsound : ¬∀ (handler : ContentHandler) (users : List Nat) (steps : List LifeStep)
    (life : Life), Lives handler (fun _ _ => True) (.init users) steps life →
      Sound handler users steps (fun _ _ => True) life := by
  intro all
  have sound := all ⟨true, false, false⟩ [0] [] (.init [0]) (.nil _)
  obtain ⟨c, run⟩ := sound.runs (.event (.done ⟨[], true⟩)) .waiting rfl trivial
  have stops : Life.nextContent ⟨true, false, false⟩ (Life.init [0]).content
      (.event (.done ⟨[], true⟩)) = none :=
    convert_noDataComplete ⟨true, false, false⟩ ((Life.init [0]).content.broadcast .status) ⟨[], true⟩ rfl rfl rfl
  rw [stops] at run
  cases run

end Neosurf.Contents
