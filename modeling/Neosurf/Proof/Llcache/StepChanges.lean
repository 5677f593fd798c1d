import Neosurf.Proof.Llcache.SendChanges

namespace Neosurf.Llcache

open Cache

variable {out : Outside} {s s' : Cache} {id : ObjectId} {o : LlcacheObject} {input : Input}

/-- A step may abort the fetch of this object: its only user aborts it, a callback fails while an
event is sent to its users, or its last retry does not start. -/
def Aborts (out : Outside) (s : Cache) (input : Input) (id : ObjectId) (o : LlcacheObject) : Prop :=
  match input with
  | .handleAbort handle =>
      ∃ value, s.handles handle = some value ∧ value.object = id ∧ o.users.length = 1
  | .fetch other .timedOut =>
      other = id ∧ 1 < o.fetch.retriesRemaining ∧ (refetch out (useRetry o)).1 ≠ .ok
  | .returns answer =>
      ∃ sending, s.task = some (.sending sending) ∧ sending.object = id ∧
        (answer ≠ .ok ∨ sending.pending ≠ none)
  | _ => False

/-- A step may retrieve this URL, with this answer about HSTS. -/
def Upgrades (out : Outside) (s : Cache) (input : Input) (url : Nsurl) (inUse : Bool) : Prop :=
  match input with
  | .handleRetrieve asked _ _ _ => (url, inUse) = hstsTransformUrl out.surroundings asked
  | .fetch id (.redirect target) => ∃ o asked, s.find id = some o ∧
      Nsurl.nsurlJoin out.junk o.url target = .ok asked ∧
      (url, inUse) = hstsTransformUrl out.surroundings asked
  | .returns _ => ∃ sending pending, s.task = some (.sending sending) ∧
      sending.pending = some pending ∧ (url, inUse) = (pending.target, pending.hstsInUse)
  | _ => False

/-- A step may move the users of one object to another one. -/
def Lands (s : Cache) (input : Input) (o o' : LlcacheObject) (redirects : Nat) : Prop :=
  match input with
  | .fetch id .notModified => redirects = 0 ∧ s.find id = some o ∧
      ∃ candidate, o.candidate = some candidate ∧ s.find candidate = some o'
  | .fetch _ (.redirect _) => o.users = []
  | .returns _ => redirects = 1 ∧ ∃ sending pending before, s.task = some (.sending sending) ∧
      sending.pending = some pending ∧ s.find sending.object = some before ∧ Later before o ∧
      Target s pending before o'
  | _ => False

/-- A step may send this event to the users of an object. Only a redirect has something pending,
and only the certificate error of a fetch without HSTS is recoverable. -/
structure Reports (out : Outside) (s : Cache) (id : ObjectId) (msg : FetchMsg) (s₁ : Cache)
    (sending : Sending) : Prop where
  object : sending.object = id
  certs : ∀ text, sending.event = .error .badCerts text → msg = .certErr ∧
    ∃ o, s.find id = some o ∧ o.fetch.hstsInUse = false
  pending : ∀ pending, sending.pending = some pending → ∃ o target asked, s.find id = some o ∧
    msg = .redirect target ∧ Nsurl.nsurlJoin out.junk o.url target = .ok asked ∧
    (pending.target, pending.hstsInUse) = hstsTransformUrl out.surroundings asked ∧
    ¬ REDIRECT_LIMIT < o.fetch.redirectCount ∧
    ∀ o₁, s₁.find id = some o₁ → Later o o₁ ∧ o₁.fetch.fetch = none

/-- A step may leave these loops running. -/
def Turns (out : Outside) (s : Cache) (input : Input) (s₁ : Cache) : Option Task → Prop
  | none => True
  | some (.notifying _) => True
  | some (.sending sending) =>
      match input with
      | .returns _ => ∃ before, s.task = some (.sending before) ∧
          sending = { before with user := sending.user, wasTarget := sending.wasTarget }
      | .fetch id msg => Reports out s id msg s₁ sending
      | _ => False

/-- What one step may do. -/
def stepRules (out : Outside) (s : Cache) (input : Input) : Rules where
  permits id o act := match act with
    | .header buf => input = .fetch id (.header buf)
    | .start => (∃ buf, input = .fetch id (.data buf)) ∧ s.find id = some o ∧ o.fetch.state ≠ .data
    | .append buf => input = .fetch id (.data buf)
    | .finish => input = .fetch id .finished ∧ s.find id = some o
    | .retry => input = .fetch id .timedOut ∧ s.find id = some o ∧ 1 < o.fetch.retriesRemaining
    | .authenticate => (∃ realm, input = .fetch id (.auth realm) ∧
        out.authDetails o.url (realm.getD (Nsurl.access o.url)) ≠ none) ∧
        o.fetch.triedWithAuth = false ∧ o.candidate = none
    | .downgrade => input = .fetch id .sslErr ∧ o.fetch.hstsInUse = false ∧
        o.fetch.triedWithTlsDowngrade = false ∧ o.candidate = none
    | .complete | .fail | .deny | .distrust => o.candidate = none
    | .abort => ∃ before, s.find id = some before ∧ Later before o ∧ Aborts out s input id before
    | .validate source => ∃ other o, s.find other = some o ∧ o.fetch.fetch ≠ none ∧ source = o.cache
    | _ => True
  asks retrieval := ∃ url inUse, Upgrades out s input url inUse ∧
    retrieval.url = Nsurl.defragment url ∧ retrieval.hstsInUse = inUse
  lands := Lands s input
  clients := True
  turns := Turns out s input

theorem stepRules_lax : Lax (stepRules out s input) where
  plain _ _ act plain := by cases act <;> trivial
  done _ := trivial
  notifies _ _ := trivial

/-- An event without a redirect, and other than a certificate error, may always be sent. -/
theorem turns_event {msg : FetchMsg} {event : Event} (other : ∀ text, event ≠ .error .badCerts text)
    (s₁ : Cache) (user : Nat) (wasTarget : Bool) :
    (stepRules out s (.fetch id msg)).turns s₁
      (some (.sending { object := id, event, user, wasTarget, pending := none })) :=
  ⟨rfl, fun text same => absurd same (other text), fun _ none => by cases none⟩

/-- A header belongs to the response. -/
theorem fetchHeader_changes {buf : Bytes} (found : s.find id = some o)
    (running : o.fetch.fetch ≠ none)
    (done : (s.modify id (receiveHeader out.clock buf)).fetchDone out id .ok = some s') :
    Changes (stepRules out s (.fetch id (.header buf))) out s s' :=
  Relation.ReflTransGen.trans
    (Relation.ReflTransGen.single (Change.edit (.header buf) found running rfl)) (fetchDone_ok stepRules_lax done)

/-- The first data starts the response. -/
theorem fetchData_changes {buf : Bytes} (found : s.find id = some o)
    (running : o.fetch.fetch ≠ none)
    (done : s.fetchProcessData id o buf = some s') :
    Changes (stepRules out s (.fetch id (.data buf))) out s s' := by
  unfold fetchProcessData at done
  obtain ⟨s₁, started, rfl⟩ := Option.map_eq_some_iff.mp done
  split at started
  · cases started
    exact Relation.ReflTransGen.single (Change.edit (.append buf) found running rfl)
  · rename_i early
    have start : Change (stepRules out s (.fetch id (.data buf))) out s
        (s.modify id (Act.apply out .start)) :=
      Change.edit .start found running ⟨⟨buf, rfl⟩, found, early⟩
    obtain ⟨released, count, after⟩ :=
      @releaseCandidate_changes (stepRules out s (.fetch id (.data buf))) out _ _ id _
        (find_modify_self found) started
    refine (Relation.ReflTransGen.head start released).tail
      (Change.edit (.append buf) after ?_ rfl)
    show (startData o).fetch.fetch ≠ none
    unfold startData
    split <;> exact running

/-- A fetch ends without its candidate, and the users hear of it. -/
theorem released_sends {rules : Rules} {s₁ : Cache} {event : Event} (act : Act) (tidy : Tidy s)
    (lax : Lax rules) (found : s.find id = some o)
    (released : s.releaseCandidate id = some s₁)
    (enabled : ∀ o₁ : LlcacheObject, o₁.fetch = o.fetch → act.Enabled out o₁)
    (ends : ∀ count, rules.permits id { o with candidate := none, candidateCount := count } act)
    (turned : ∀ s₂ user wasTarget, rules.turns s₂
      (some (.sending { object := id, event, user, wasTarget, pending := none })))
    (done : (s₁.modify id (act.apply out)).sendEvent out id event none = some s') :
    Changes rules out s s' := by
  obtain ⟨changes, count, after⟩ := @releaseCandidate_changes rules out _ _ _ _ found released
  have edit : Changes rules out s (s₁.modify id (act.apply out)) :=
    changes.tail (Change.edit act after (enabled _ rfl) (ends count))
  exact edit.trans (sendEvent_changes (edit.tidy tidy) lax
    (fun s₂ called was _ => turned s₂ called was) done)

/-- A fetch that gets no answer starts again, or ends. -/
theorem fetchTimeout_changes (tidy : Tidy s) (found : s.find id = some o)
    (running : o.fetch.fetch ≠ none) (done : s.fetchTimeout out id o = some s') :
    Changes (stepRules out s (.fetch id .timedOut)) out s s' := by
  unfold fetchTimeout at done
  split at done
  · rename_i more
    refine @refetchObject_changes _ out s s' id o useRetry .retry tidy stepRules_lax found running
      ⟨rfl, found, more⟩ rfl (fun failed s₁ o₁ changes here _ => ?_) done
    obtain ⟨before, there, later⟩ := changes.later tidy (tidy.fresh _ (mem_of_find found)) here
    rw [found] at there
    cases there
    exact ⟨o, found, later, rfl, more, failed⟩
  · obtain ⟨s₁, released, sent⟩ := Option.bind_eq_some_iff.mp done
    exact released_sends .fail tidy stepRules_lax found released
      (fun _ same => by rw [Act.Enabled, same]; exact running) (fun _ => rfl)
      (turns_event fun _ same => by cases same) sent

theorem refetch_error {o o' : LlcacheObject} (same : fetchRequest o = fetchRequest o') :
    (refetch out o).1 = (refetch out o').1 := by
  unfold refetch
  rw [same]
  dsimp only
  split <;> rfl

/-- A fetch that was given up starts again without its candidate, or stays away. -/
theorem released_restarts {rules : Rules} {s₁ : Cache} {first change : LlcacheObject → LlcacheObject}
    (act : Act) (tidy : Tidy s) (lax : Lax rules)
    (found : s.find id = some o) (released : s.releaseCandidate id = some s₁)
    (enabled : ∀ o₁ : LlcacheObject, o₁.fetch = o.fetch → act.Enabled out o₁)
    (ends : ∀ count, rules.permits id { o with candidate := none, candidateCount := count } act)
    (same : act.apply out = fun o => (refetch out (change (first o))).2)
    (given : ∀ o, (change (first o)).fetch.fetch = none)
    (request : ∀ count, fetchRequest (change (first o)) =
      fetchRequest (change (first { o with candidate := none, candidateCount := count })))
    (done : (s₁.modify id first).refetchObject out id change (first o) = some s') :
    Changes rules out s s' := by
  obtain ⟨changes, count, after⟩ := @releaseCandidate_changes rules out _ _ _ _ found released
  have edit : Changes rules out s (s₁.modify id (act.apply out)) :=
    changes.tail (Change.edit act after (enabled _ rfl) (ends count))
  unfold refetchObject at done
  rw [modify_modify, show (fun o => (refetch out (change o)).2) ∘ first = act.apply out from
    same.symm] at done
  refine edit.trans (fetchDone_changes (edit.tidy tidy) lax ?_ done)
  intro failed s₂ o₂ later here running
  exfalso
  have now := @find_modify_self s₁ id (act.apply out) _ after
  obtain ⟨before, there, stays⟩ := later.later (edit.tidy tidy)
    ((edit.tidy tidy).fresh _ (mem_of_find now)) here
  rw [now] at there
  cases there
  refine running (stays.fetch ?_)
  obtain ⟨fetch, shape, -, kept⟩ := refetch_frame out
    (change (first { o with candidate := none, candidateCount := count }))
  rw [same]
  dsimp only
  rw [shape]
  refine (kept ?_).trans (given _)
  rw [← refetch_error (request count)]
  exact failed

/-- A fetch that needs credentials starts again with those it has, or ends. -/
theorem fetchAuth_changes {realm : Option Bytes} {s₁ : Cache} (tidy : Tidy s)
    (found : s.find id = some o) (running : o.fetch.fetch ≠ none)
    (released : s.releaseCandidate id = some s₁)
    (done : s₁.fetchAuth out id o realm = some s') :
    Changes (stepRules out s (.fetch id (.auth realm))) out s s' := by
  unfold fetchAuth at done
  dsimp only at done
  split at done
  · rw [modify_modify] at done
    exact released_sends .deny tidy stepRules_lax found released
      (fun _ same => by rw [Act.Enabled, same]; exact running) (fun _ => rfl)
      (turns_event fun _ same => by cases same) done
  · rename_i known
    rw [not_or, Bool.not_eq_true] at known
    exact released_restarts .authenticate tidy stepRules_lax found released
      (fun _ same => by rw [Act.Enabled, same]; exact running)
      (fun _ => ⟨⟨realm, rfl, known.1⟩, known.2, rfl⟩) rfl (fun _ => rfl) (fun _ => rfl) done

/-- A certificate error ends the fetch. -/
theorem fetchCertError_changes {s₁ : Cache} (tidy : Tidy s) (found : s.find id = some o)
    (running : o.fetch.fetch ≠ none) (released : s.releaseCandidate id = some s₁)
    (done : s₁.fetchCertError out id o = some s') :
    Changes (stepRules out s (.fetch id .certErr)) out s s' := by
  unfold fetchCertError at done
  dsimp only at done
  split at done
  · rename_i plain
    exact released_sends .distrust tidy stepRules_lax found released
      (fun _ same => by rw [Act.Enabled, same]; exact running) (fun _ => rfl)
      (fun _ _ _ => ⟨rfl, fun _ _ => ⟨rfl, o, found, plain⟩, fun _ none => by cases none⟩) done
  · exact released_sends .distrust tidy stepRules_lax found released
      (fun _ same => by rw [Act.Enabled, same]; exact running) (fun _ => rfl)
      (turns_event fun _ same => by cases same) done

/-- A TLS error starts the fetch again with an older TLS, or ends it. -/
theorem fetchSslError_changes {s₁ : Cache} (tidy : Tidy s) (found : s.find id = some o)
    (running : o.fetch.fetch ≠ none) (released : s.releaseCandidate id = some s₁)
    (done : s₁.fetchSslError out id o = some s') :
    Changes (stepRules out s (.fetch id .sslErr)) out s s' := by
  unfold fetchSslError at done
  dsimp only at done
  split at done
  · rw [modify_modify] at done
    exact released_sends .distrust tidy stepRules_lax found released
      (fun _ same => by rw [Act.Enabled, same]; exact running) (fun _ => rfl)
      (turns_event fun _ same => by cases same) done
  · rename_i first
    rw [not_or, Bool.not_eq_true, Bool.not_eq_true] at first
    exact released_restarts .downgrade tidy stepRules_lax found released
      (fun _ same => by rw [Act.Enabled, same]; exact running)
      (fun _ => ⟨rfl, first.1, first.2, rfl⟩) rfl (fun _ => rfl) (fun _ => rfl) done

theorem find_eq_of_live (live : s'.live = s.live) (id : ObjectId) : s'.find id = s.find id := by
  rw [find, find, live]

/-- A move of users changes neither the candidate of an object nor its fetch. -/
theorem find_moveUsers {now : Int} {source target : ObjectId} {redirects : Nat}
    (found : s.find source = some o) :
    ∃ users lastUsed, (s.moveUsers now source target redirects).find source =
      some { o with users, lastUsed } := by
  rw [find_eq_of_live (live_moveUsers found), find_modify, find_modify_self found]
  by_cases self : source = target
  · exact ⟨_, _, by rw [Option.map_some, if_pos self]; rfl⟩
  · exact ⟨_, _, by rw [Option.map_some, if_neg self]; rfl⟩

/-- The candidate takes over the users of the object that validated it. -/
theorem fetchNotModified_changes (found : s.find id = some o) (running : o.fetch.fetch ≠ none)
    (done : s.fetchNotModified out id o = some s') :
    Changes (stepRules out s (.fetch id .notModified)) out s s' := by
  unfold fetchNotModified at done
  dsimp only at done
  split at done
  · rename_i loose
    exact Relation.ReflTransGen.head (Change.edit .complete found running loose) (fetchDone_ok stepRules_lax done)
  · rename_i candidate points
    split at done
    · cases done
    · rename_i o' present
      obtain ⟨s₂, released, ended⟩ := Option.bind_eq_some_iff.mp done
      have moved : Change (stepRules out s (.fetch id .notModified)) out s
          (s.moveUsers out.clock.now id candidate 0) :=
        Change.move 0 found present (Or.inr points) ⟨rfl, found, candidate, points, present⟩
      obtain ⟨users, lastUsed, here⟩ := @find_moveUsers s o out.clock.now id candidate 0 found
      obtain ⟨loose, count, after⟩ := @releaseCandidate_changes
        (stepRules out s (.fetch id .notModified)) out _ _ _ _ here released
      have validated' : Changes (stepRules out s (.fetch id .notModified)) out s₂
          (s₂.modify candidate (validated out.clock.now o.cache)) :=
        changes_edit (.validate o.cache) (fun _ _ => trivial) fun _ _ => ⟨id, o, found, running, rfl⟩
      have last : ∃ o₃, (s₂.modify candidate (validated out.clock.now o.cache)).find id = some o₃ ∧
          o₃.fetch = o.fetch ∧ o₃.candidate = none := by
        rw [find_modify, after, Option.map_some]
        by_cases self : id = candidate
        · exact ⟨_, rfl, by rw [if_pos self]; rfl, by rw [if_pos self]; rfl⟩
        · exact ⟨_, rfl, by rw [if_neg self], by rw [if_neg self]⟩
      obtain ⟨o₃, there, sameFetch, none⟩ := last
      refine (Relation.ReflTransGen.head moved (loose.trans validated')).trans
        (Relation.ReflTransGen.head (Change.edit .complete there ?_ none) (fetchDone_ok stepRules_lax ended))
      rw [Act.Enabled, sameFetch]
      exact running

/-- A redirect ends the fetch, and is followed when the users know of it. -/
theorem fetchRedirect_changes {target : Bytes} {s₁ : Cache} (tidy : Tidy s)
    (found : s.find id = some o) (running : o.fetch.fetch ≠ none)
    (released : s.releaseCandidate id = some s₁)
    (done : s₁.fetchRedirect out id o target = some s') :
    Changes (stepRules out s (.fetch id (.redirect target))) out s s' := by
  obtain ⟨changes, count, after⟩ := @releaseCandidate_changes
    (stepRules out s (.fetch id (.redirect target))) out _ _ _ _ found released
  have edit : Changes (stepRules out s (.fetch id (.redirect target))) out s
      (s₁.modify id completeObject) := changes.tail (Change.edit .complete after running rfl)
  have now := @find_modify_self s₁ id completeObject _ after
  unfold fetchRedirect at done
  dsimp only at done
  split at done
  · exact edit.trans (sendEvent_changes (edit.tidy tidy) stepRules_lax
      (fun s₂ called was _ => turns_event (fun _ same => by cases same) s₂ called was) done)
  · rename_i few
    split at done
    · refine edit.trans (fetchDone_still (edit.tidy tidy) stepRules_lax (fun o₁ here => ?_)
        ((edit.tidy tidy).fresh _ (mem_of_find now)) done)
      rw [now] at here
      cases here
      rfl
    · cases done
    · rename_i asked joined
      refine edit.trans ?_
      unfold sendEvent at done
      rw [now] at done
      refine sendTo_changes (edit.tidy tidy) stepRules_lax (fun empty p pending => ?_)
        (fun _ _ s₂ o₂ later here running => ?_) (fun s₂ called was later => ?_) done
      · cases pending
        constructor
        · intro retrieval url inUse
          exact ⟨_, _, ⟨o, asked, found, joined, rfl⟩, url, inUse⟩
        · intro before o₂ o' there _ empty' _
          rw [now] at there
          cases there
          exact empty' (List.head?_eq_none_iff.mp empty)
      · exfalso
        obtain ⟨before, there, stays⟩ := later.later (edit.tidy tidy)
          ((edit.tidy tidy).fresh _ (mem_of_find now)) here
        rw [now] at there
        cases there
        exact running (stays.fetch rfl)
      · refine ⟨rfl, ?_, fun pending same => ?_⟩
        · intro text same
          cases same
        cases same
        refine ⟨o, target, asked, found, rfl, joined, rfl, few, fun o₁ here => ?_⟩
        obtain ⟨before, there, stays⟩ := later.later (edit.tidy tidy)
          ((edit.tidy tidy).fresh _ (mem_of_find now)) here
        rw [now] at there
        cases there
        obtain ⟨first, there, earlier⟩ := edit.later tidy (tidy.fresh _ (mem_of_find found)) now
        rw [found] at there
        cases there
        exact ⟨earlier.trans stays, stays.fetch rfl⟩

/-- An event of a fetch. -/
theorem fetchCallback_changes {msg : FetchMsg} (tidy : Tidy s)
    (done : s.fetchCallback out id msg = some s') :
    Changes (stepRules out s (.fetch id msg)) out s s' := by
  unfold fetchCallback at done
  split at done
  · cases done
  rename_i o found
  split at done
  · cases done
  rename_i running
  cases msg with
  | header buf => exact fetchHeader_changes found running done
  | redirect target =>
      obtain ⟨s₁, released, ended⟩ := Option.bind_eq_some_iff.mp done
      exact fetchRedirect_changes tidy found running released ended
  | notModified => exact fetchNotModified_changes found running done
  | data buf =>
      obtain ⟨s₁, received, ended⟩ := Option.bind_eq_some_iff.mp done
      exact (fetchData_changes found running received).trans (fetchDone_ok stepRules_lax ended)
  | finished =>
      exact Relation.ReflTransGen.head (Change.edit .finish found running ⟨rfl, found⟩)
        (fetchDone_ok stepRules_lax done)
  | timedOut => exact fetchTimeout_changes tidy found running done
  | error msg =>
      obtain ⟨s₁, released, sent⟩ := Option.bind_eq_some_iff.mp done
      exact released_sends .fail tidy stepRules_lax found released
        (fun _ same => by rw [Act.Enabled, same]; exact running) (fun _ => rfl)
        (turns_event fun _ same => by cases same) sent
  | progress msg =>
      exact sendEvent_changes tidy stepRules_lax
        (fun s₂ called was _ => turns_event (fun _ same => by cases same) s₂ called was) done
  | certs chain =>
      have edit : Changes (stepRules out s (.fetch id (.certs chain))) out s
          (s.modify id (receiveChain chain)) :=
        changes_plain stepRules_lax (.chain chain) trivial fun o₁ here => by
          rw [found] at here
          cases here
          exact running
      exact edit.trans (sendEvent_changes (edit.tidy tidy) stepRules_lax
        (fun s₂ called was _ => turns_event (fun _ same => by cases same) s₂ called was) done)
  | auth realm =>
      obtain ⟨s₁, released, ended⟩ := Option.bind_eq_some_iff.mp done
      exact fetchAuth_changes tidy found running released ended
  | certErr =>
      obtain ⟨s₁, released, ended⟩ := Option.bind_eq_some_iff.mp done
      exact fetchCertError_changes tidy found running released ended
  | sslErr =>
      obtain ⟨s₁, released, ended⟩ := Option.bind_eq_some_iff.mp done
      exact fetchSslError_changes tidy found running released ended

variable {rules : Rules}

/-- A handle keeps its object when its state changes. -/
theorem silent_setHandle {handle : Nat} {value : Option Handle}
    (same : value.map Handle.place = (s.handles handle).map Handle.place) :
    Silent s (s.setHandle handle value) := by
  refine ⟨List.Perm.refl _, rfl, rfl, rfl, rfl, fun other => ?_⟩
  unfold setHandle
  dsimp only
  split
  · rename_i self
    rw [self, same]
  · rfl

theorem place_catchUp (objstate : FetchState) (o : LlcacheObject) (handle : Handle) :
    (catchUp objstate o handle).1.place = handle.place := by
  have certs : (catchUpInit objstate o handle).1.place = handle.place := by
    unfold catchUpInit
    split <;> rfl
  unfold catchUp
  dsimp only
  split
  · exact certs
  · split
    · exact certs
    · split
      · split <;> exact certs
      · split <;> exact certs

theorem place_replay (event : Event) (origHandleRead : Nat) (handle : Handle) :
    (replay event origHandleRead handle).place = handle.place := by
  unfold replay
  split <;> rfl

/-- The users of an object are notified one after the other. -/
theorem notifyFrom_changes {objstate : FetchState} (users : List ObjectUser)
    (lax : Lax rules)
    (done : s.notifyFrom id objstate users = some s') : Changes rules out s s' := by
  induction users generalizing s with
  | nil =>
      cases done
      exact changes_done lax
  | cons user rest ih =>
      unfold notifyFrom at done
      split at done
      · rename_i handle object here found
        dsimp only at done
        have first : Changes rules out s
            ((s.setHandle user.handle (some (catchUp objstate object handle).1)).modify id
              (setLength (catchUp objstate object handle).2.1.sourceLen)) :=
          Relation.ReflTransGen.head
            (Change.silent (silent_setHandle (by
              rw [here, Option.map_some, Option.map_some, place_catchUp])))
            (changes_plain lax (.length _) trivial fun _ _ => trivial)
        split at done
        · exact (first.trans (changes_plain lax (.target user.handle false) trivial
            fun _ _ => trivial)).trans (ih done)
        · cases done
          exact (first.trans (changes_plain lax (.target user.handle true) trivial
            fun _ _ => trivial)).tail (Change.turn _ (lax.notifies _ _))
      · cases done

/-- A callback of a notification returns. -/
theorem notifyingReturns_changes {notifying : Notifying} {answer : Nserror}
    (lax : Lax rules) (clients : rules.clients)
    (done : s.notifyingReturns out notifying answer = some s') : Changes rules out s s' := by
  unfold notifyingReturns at done
  dsimp only at done
  split at done
  · cases done
  split at done
  · cases done
  rename_i user rest _
  have released : Changes rules out s
      (s.modify notifying.object (changeUser user.handle (setTarget false))) :=
    changes_plain lax (.target user.handle false) trivial fun _ _ => trivial
  split at done
  · have left : Changes rules out s (s.dropUser out.clock.now notifying.object user) :=
      Relation.ReflTransGen.single (Change.leave notifying.object user clients)
    split at done
    · cases done
      exact left.trans (changes_done lax)
    · exact left.trans (notifyFrom_changes rest lax done)
  · split at done
    · refine released.trans (Relation.ReflTransGen.head (Change.silent (silent_setHandle ?_))
        (notifyFrom_changes rest lax done))
      rw [handles_modify, Option.map_map]
      congr 1
      funext value
      exact place_replay notifying.event notifying.origHandleRead value
    · split at done
      · cases done
        exact released.trans (changes_done lax)
      · exact notifyFrom_changes (user :: rest) lax done

/-- The next handle joins an object. -/
theorem addNewUser_changes (state : FetchState) (clients : rules.clients)
    (present : s.find id = some o)
    (readable : Readable o ∨ ∃ other value, s.handles other = some value ∧ value.object = id) :
    Changes rules out s (s.addNewUser id state).1 := by
  have counted : Silent s { s with nextHandle := s.nextHandle + 1 } :=
    ⟨List.Perm.refl _, rfl, rfl, rfl, rfl, fun _ => rfl⟩
  exact Relation.ReflTransGen.head (Change.silent counted)
    (Relation.ReflTransGen.single (Change.join s.nextHandle state clients present readable))

/-- A new handle retrieves an object. -/
theorem handleRetrieve_changes {url : Nsurl} {flags : UInt32} {referer : Option Nsurl}
    {post : Option PostData} {result : Except Nserror Nat} (tidy : Tidy s)
    (done : s.handleRetrieve out url flags referer post = some (s', result)) :
    Changes (stepRules out s (.handleRetrieve url flags referer post)) out s s' := by
  unfold handleRetrieve at done
  dsimp only at done
  split at done
  · cases done
    exact Relation.ReflTransGen.refl
  · have asked : (stepRules out s (.handleRetrieve url flags referer post)).asks
        { url := Nsurl.defragment (hstsTransformUrl out.surroundings url).1, flags, referer, post,
          redirectCount := 0, hstsInUse := (hstsTransformUrl out.surroundings url).2 } :=
      ⟨_, _, rfl, rfl, rfl⟩
    split at done
    · cases done
    · rename_i retrieved
      cases done
      exact (retrieve_changes tidy (fun _ _ => trivial) asked retrieved).1
    · rename_i s₁ id retrieved
      cases done
      obtain ⟨changes, answers⟩ := retrieve_changes tidy (fun _ _ => trivial) asked retrieved
      obtain ⟨o, present, readable, -⟩ := answers id rfl
      exact changes.trans (addNewUser_changes .init trivial present (Or.inl readable))

/-- A handle is released. -/
theorem handleRelease_changes {handle : Nat} (done : s.handleRelease out handle = some s') :
    Changes (stepRules out s (.handleRelease handle)) out s s' := by
  unfold handleRelease at done
  simp only [Option.bind_eq_bind, Option.bind_eq_some_iff] at done
  obtain ⟨value, -, object, -, user, -, done⟩ := done
  split at done
  · cases done
    exact changes_plain stepRules_lax (.queue handle) trivial fun _ _ => trivial
  · cases done
    exact Relation.ReflTransGen.single (Change.leave value.object user trivial)

/-- A handle is cloned. -/
theorem handleClone_changes {handle : Nat} {result : Nat}
    (done : s.handleClone handle = some (s', result)) :
    Changes (stepRules out s (.handleClone handle)) out s s' := by
  unfold handleClone at done
  simp only [Option.bind_eq_bind, Option.bind_eq_some_iff, Option.some.injEq] at done
  obtain ⟨original, here, object, present, done⟩ := done
  have changes : Changes (stepRules out s (.handleClone handle)) out s
      (s.addNewUser original.object original.state).1 :=
    addNewUser_changes original.state trivial present (Or.inr ⟨handle, original, here, rfl⟩)
  rw [done] at changes
  exact changes

/-- A handle is aborted. -/
theorem handleAbort_changes {handle : Nat} (done : s.handleAbort out handle = some s') :
    Changes (stepRules out s (.handleAbort handle)) out s s' := by
  unfold handleAbort at done
  simp only [Option.bind_eq_bind, Option.bind_eq_some_iff] at done
  obtain ⟨value, here, object, found, user, owner, done⟩ := done
  have own := List.find?_some owner
  simp only [Bool.and_eq_true, beq_iff_eq, Bool.not_eq_true'] at own
  split at done
  · rename_i alone
    cases done
    exact Relation.ReflTransGen.single
      (Change.edit .abort found trivial ⟨object, found, later_refl object, value, here, rfl, alone⟩)
  · cases done
    exact Relation.ReflTransGen.single
      (Change.snapshot trivial (own.1 ▸ here) found own.2)

/-- An object that leaves the list of cached objects joins the other list. -/
theorem silent_uncache (tidy : Tidy s) (id : ObjectId) : Silent s (s.uncache id) := by
  unfold uncache
  split
  · exact ⟨List.Perm.refl _, rfl, rfl, rfl, rfl, fun _ => rfl⟩
  · rename_i slot looked
    have same : slot.id = id := by simpa using List.find?_some looked
    subst same
    have gone := (swept_removeCached tidy (List.mem_of_find?_eq_some looked)).live
    refine ⟨?_, rfl, rfl, rfl, rfl, fun _ => rfl⟩
    show ((s.removeCached slot.id).cachedObjects ++ slot :: s.uncachedObjects).Perm s.live
    exact List.perm_middle.trans ((List.perm_append_singleton _ _).symm.trans gone.symm)

/-- A handle is streamed from now on. -/
theorem handleForceStream_changes {handle : Nat} (tidy : Tidy s)
    (done : s.handleForceStream handle = some s') :
    Changes (stepRules out s (.handleForceStream handle)) out s s' := by
  unfold handleForceStream at done
  simp only [Option.bind_eq_bind, Option.bind_eq_some_iff] at done
  obtain ⟨value, -, object, -, user, -, done⟩ := done
  split at done
  · cases done
    exact Relation.ReflTransGen.head (Change.silent (silent_uncache tidy _))
      (changes_plain stepRules_lax .stream trivial fun _ _ => trivial)
  · cases done
    exact Relation.ReflTransGen.refl

theorem Target.of_later {s₁ : Cache} {pending : Pending} {before middle o' : LlcacheObject}
    (later : Later before middle) (newest : SameNewest s s₁) (target : Target s₁ pending middle o') :
    Target s pending before o' := by
  rcases target with still | fresh | ⟨found, selected, same⟩
  · exact Or.inl still
  · exact Or.inr (Or.inl (later.redirectCount ▸ fresh))
  · have kept := newest (Nsurl.defragment pending.target)
    rw [selected] at kept
    obtain ⟨found', selected', same'⟩ := Option.map_eq_some_iff.mp kept.symm
    exact Or.inr (Or.inr ⟨found', selected', same.trans same'.symm⟩)

/-- A callback of an event returns. -/
theorem returns_changes {sending : Sending} {answer : Nserror} (tidy : Tidy s)
    (task : s.task = some (.sending sending))
    (done : s.sendingReturns out sending answer = some s') :
    Changes (stepRules out s (.returns answer)) out s s' := by
  refine sendingReturns_changes tidy stepRules_lax trivial
    (fun object p s₁ found pending changes newest => ?_)
    (fun object found why s₁ o changes here _ => ?_)
    (fun _ _ _ _ _ _ => ⟨sending, task, rfl⟩) done
  · constructor
    · intro retrieval url inUse
      exact ⟨_, _, ⟨sending, p, task, pending, rfl⟩, url, inUse⟩
    · intro middle o o' here later _ target
      obtain ⟨before, there, earlier⟩ := changes.later tidy (tidy.fresh _ (mem_of_find found)) here
      exact ⟨rfl, sending, p, before, task, pending, there,
        earlier.trans later,
        target.of_later earlier newest⟩
  · obtain ⟨before, there, later⟩ := changes.later tidy (tidy.fresh _ (mem_of_find found)) here
    exact ⟨before, there, later, sending, task, rfl, why⟩

/-- Every step but the end consists of changes that its rules allow. -/
theorem step_changes (tidy : Tidy s) (goes : input ≠ .finalise)
    (done : s.step out input = some s') : Changes (stepRules out s input) out s s' := by
  unfold Cache.step at done
  split at done
  · cases done
  cases input with
  | handleRetrieve url flags referer post =>
      obtain ⟨result, retrieved, rfl⟩ := Option.map_eq_some_iff.mp done
      exact handleRetrieve_changes tidy retrieved
  | handleRelease handle => exact handleRelease_changes done
  | handleClone handle =>
      obtain ⟨result, cloned, rfl⟩ := Option.map_eq_some_iff.mp done
      exact handleClone_changes cloned
  | handleAbort handle => exact handleAbort_changes done
  | handleForceStream handle => exact handleForceStream_changes tidy done
  | handleInvalidateCacheData handle =>
      obtain ⟨value, here, done⟩ := Option.bind_eq_some_iff.mp done
      cases done
      exact changes_plain stepRules_lax .invalidate trivial fun _ _ => trivial
  | clean purge =>
      obtain rfl := Option.some.inj done
      exact clean_changes (fun _ _ => trivial) purge tidy
  | returns answer =>
      cases task : s.task with
      | none =>
          rw [task] at done
          cases done
      | some running =>
          rw [task] at done
          cases running with
          | sending sending => exact returns_changes tidy task done
          | notifying notifying => exact notifyingReturns_changes stepRules_lax trivial done
  | fetch id msg =>
      cases task : s.task with
      | none =>
          rw [task] at done
          exact fetchCallback_changes tidy done
      | some running =>
          rw [task] at done
          cases done
  | httpCode id code =>
      cases task : s.task with
      | none =>
          rw [task] at done
          cases done
          exact changes_plain stepRules_lax (.httpCode code) trivial fun _ _ => trivial
      | some running =>
          rw [task] at done
          cases done
  | notifyUsers id =>
      cases task : s.task with
      | none =>
          rw [task] at done
          replace done : s.notifyUsers id = some s' := done
          unfold notifyUsers at done
          split at done
          · cases done
          · exact notifyFrom_changes _ stepRules_lax done
      | some running =>
          rw [task] at done
          cases done
  | persist =>
      cases task : s.task with
      | none =>
          rw [task] at done
          cases done
          exact persist_changes tidy
      | some running =>
          rw [task] at done
          cases done
  | finalise => exact absurd rfl goes

end Neosurf.Llcache
