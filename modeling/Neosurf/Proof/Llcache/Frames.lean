import Mathlib.Logic.Relation
import Neosurf.Construction.Llcache.FetchEvents
import Neosurf.Proof.Llcache.Metadata
import Neosurf.Proof.Llcache.Slots
import Neosurf.ToMathlib.RefPool

namespace Neosurf.Llcache

/-- What happens to one object at a time, apart from its users and its candidates. -/
inductive Act where
  | header (buf : Bytes)
  | complete
  | start
  | append (buf : Bytes)
  | finish
  | fail
  | chain (certs : CertChain)
  | deny
  | authenticate
  | distrust
  | downgrade
  | retry
  | abort
  | httpCode (code : Int)
  | target (handle : Nat) (called : Bool)
  | queue (handle : Nat)
  | read
  | release
  | validate (source : CacheControl)
  | stream
  | invalidate
  | length (len : Nat)

/-- The object after an act. -/
def Act.apply (out : Outside) : Act → LlcacheObject → LlcacheObject
  | .header buf => receiveHeader out.clock buf
  | .complete => completeObject
  | .start => startData
  | .append buf => appendData buf
  | .finish => finishObject out
  | .fail => failFetch
  | .chain certs => receiveChain certs
  | .deny => denyAuth ∘ abandonResponse
  | .authenticate => fun object => (refetch out (tryAuth (abandonResponse object))).2
  | .distrust => completeFetch ∘ taint
  | .downgrade => fun object => (refetch out (downgradeTls (taint object))).2
  | .retry => fun object => (refetch out (useRetry object)).2
  | .abort => abortObject
  | .httpCode code => learnHttpCode code
  | .target handle called => changeUser handle (setTarget called)
  | .queue handle => changeUser handle queueForDelete
  | .read => fun object => (retrievePersistedData out object).2
  | .release => fun object => { object with sourceData := none }
  | .validate source => validated out.clock.now source
  | .stream => markStreaming
  | .invalidate => markInvalid
  | .length len => setLength len

/-- The events of a fetcher need a running fetch, and the backing store has what is read from it
or released. -/
def Act.Enabled (out : Outside) (object : LlcacheObject) : Act → Prop
  | .header _ | .complete | .start | .append _ | .finish | .fail | .chain _ | .deny
  | .authenticate | .distrust | .downgrade | .retry => object.fetch.fetch ≠ none
  | .read => (retrievePersistedData out object).1 = .ok
  | .release => isBacked object = true
  | .abort | .httpCode _ | .target _ _ | .queue _ | .validate _ | .stream | .invalidate
  | .length _ => True

/-- A new object has no users and is no candidate. It has its fetch, or it comes from the backing
store. -/
structure Newborn (retrieval : Retrieval) (o : LlcacheObject) : Prop where
  url : o.url = retrieval.url
  users : o.users = []
  candidateCount : o.candidateCount = 0
  redirectCount : o.fetch.redirectCount = retrieval.redirectCount
  hstsInUse : o.fetch.fetch ≠ none → o.fetch.hstsInUse = retrieval.hstsInUse
  noCache : o.fetch.fetch ≠ none → o.cache.noCache = .fresh
  stored : o.storeState = .disc → o.fetch.fetch = none
  ready : o.fetch.fetch ≠ none ∨ o.candidate = none

/-- The source data of an object is there, or was never written to the backing store. -/
def Readable (o : LlcacheObject) : Prop := o.sourceData ≠ none ∨ o.storeState ≠ .disc

/-- What does not change at a handle unless its user moves. -/
def Handle.place (handle : Handle) : ObjectId × Nat := (handle.object, handle.redirects)

/-- Nothing of these caches differs but their handles' states and counters, and the order and the
kind of their lists. -/
structure Silent (s s' : Cache) : Prop where
  live : s'.live.Perm s.live
  destroyed : s'.destroyed = s.destroyed
  persisted : s'.persisted = s.persisted
  nextObject : s'.nextObject = s.nextObject
  task : s'.task = s.task
  handles : ∀ handle, (s'.handles handle).map Handle.place = (s.handles handle).map Handle.place

/-- These objects of the cache leave it and are destroyed. -/
structure Swept (s s' : Cache) (gone : List Slot) : Prop where
  live : s.live.Perm (s'.live ++ gone)
  destroyed : s'.destroyed.Perm (gone ++ s.destroyed)
  persisted : s'.persisted = s.persisted
  nextObject : s'.nextObject = s.nextObject
  task : s'.task = s.task
  handles : s'.handles = s.handles

/-- A step allows these acts on an object, these retrievals of a new object, these moves of
the users of one object to another one, with the number of redirects, that users join or leave
an object, and in a state these loops. -/
structure Rules where
  permits : ObjectId → LlcacheObject → Act → Prop
  asks : Retrieval → Prop
  lands : LlcacheObject → LlcacheObject → Nat → Prop
  clients : Prop
  turns : Cache → Option Task → Prop

/-- These are the changes that all steps are made of. -/
inductive Change (rules : Rules) (out : Outside) : Cache → Cache → Prop where
  | silent {s s' : Cache} (same : Silent s s') : Change rules out s s'
  | turn {s : Cache} (task : Option Task) (turned : rules.turns s task) :
      Change rules out s { s with task }
  | edit {s : Cache} {id : ObjectId} {o : LlcacheObject} (act : Act)
      (found : s.find id = some o) (enabled : act.Enabled out o)
      (permitted : rules.permits id o act) :
      Change rules out s (s.modify id (act.apply out))
  | store {s : Cache} {slot : Slot} (found : s.find slot.id = some slot.object)
      (still : slot.object.fetch.fetch = none)
      (written : out.storeData slot.object.url slot.object.sourceData = .ok) :
      Change rules out s (s.store slot)
  | born {s : Cache} {retrieval : Retrieval} {o : LlcacheObject} (asked : rules.asks retrieval)
      (new : Newborn retrieval o) (loose : o.candidate = none) :
      Change rules out s { s with
        nextObject := s.nextObject + 1, cachedObjects := ⟨s.nextObject, o⟩ :: s.cachedObjects }
  | bornUncached {s : Cache} {retrieval : Retrieval} {o : LlcacheObject}
      (asked : rules.asks retrieval) (new : Newborn retrieval o) (loose : o.candidate = none) :
      Change rules out s { s with
        nextObject := s.nextObject + 1
        uncachedObjects := ⟨s.nextObject, o⟩ :: s.uncachedObjects }
  | revalidate {s : Cache} {retrieval : Retrieval} {o found : LlcacheObject} {candidate : ObjectId}
      (asked : rules.asks retrieval) (new : Newborn retrieval o)
      (points : o.candidate = some candidate) (present : s.find candidate = some found)
      (readable : Readable found) :
      Change rules out s { s.modify candidate (recount (· + 1)) with
        nextObject := s.nextObject + 1
        cachedObjects := ⟨s.nextObject, o⟩ ::
          (s.modify candidate (recount (· + 1))).cachedObjects }
  | stillborn {s : Cache} {o : LlcacheObject} (idle : isIdle o = true) :
      Change rules out s { s with
        nextObject := s.nextObject + 1, destroyed := ⟨s.nextObject, o⟩ :: s.destroyed }
  | releaseCandidate {s : Cache} {id candidate : ObjectId} {o o' : LlcacheObject}
      (found : s.find id = some o) (points : o.candidate = some candidate)
      (present : s.find candidate = some o') :
      Change rules out s ((s.modify candidate (recount (· - 1))).modify id dropCandidate)
  | unreadable {s : Cache} {slot : Slot} (found : s.find slot.id = some slot.object)
      (stored : slot.object.storeState = .disc) (missing : slot.object.sourceData = none)
      {s' : Cache} (swept : Swept s s' [slot]) : Change rules out s s'
  | sweep {s s' : Cache} {gone : List Slot} (idle : ∀ slot ∈ gone, isIdle slot.object = true)
      (swept : Swept s s' gone) : Change rules out s s'
  | join {s : Cache} {id : ObjectId} {o : LlcacheObject} (handle : Nat) (state : FetchState)
      (client : rules.clients) (present : s.find id = some o)
      (readable : Readable o ∨ ∃ other value, s.handles other = some value ∧ value.object = id) :
      Change rules out s (s.addUser id { handle } { object := id, state })
  | leave {s : Cache} (id : ObjectId) (user : ObjectUser) (client : rules.clients) :
      Change rules out s (s.dropUser out.clock.now id user)
  | move {s : Cache} {source target : ObjectId} {o o' : LlcacheObject} (redirects : Nat)
      (from' : s.find source = some o) (present : s.find target = some o')
      (readable : Readable o' ∨ o.candidate = some target) (landed : rules.lands o o' redirects) :
      Change rules out s (s.moveUsers out.clock.now source target redirects)
  | snapshot {s : Cache} {user : ObjectUser} {handle : Handle} {o : LlcacheObject}
      (client : rules.clients) (here : s.handles user.handle = some handle) (found : s.find handle.object = some o)
      (owns : user.handleMoved = false) :
      Change rules out s (s.moveToSnapshot out.clock.now user handle o)

/-- A change is one under rules that allow more. -/
theorem Change.mono {rules rules' : Rules} {out : Outside} {s s' : Cache}
    (change : Change rules out s s')
    (permits : ∀ id o act, rules.permits id o act → rules'.permits id o act)
    (asks : ∀ retrieval, rules.asks retrieval → rules'.asks retrieval)
    (lands : ∀ o o' redirects, rules.lands o o' redirects → rules'.lands o o' redirects)
    (clients : rules.clients → rules'.clients)
    (turns : ∀ s task, rules.turns s task → rules'.turns s task) : Change rules' out s s' := by
  cases change with
  | silent same => exact .silent same
  | turn task turned => exact .turn task (turns _ _ turned)
  | edit act found enabled permitted => exact .edit act found enabled (permits _ _ _ permitted)
  | store found still written => exact .store found still written
  | born asked new loose => exact .born (asks _ asked) new loose
  | bornUncached asked new loose => exact .bornUncached (asks _ asked) new loose
  | revalidate asked new points present readable =>
      exact .revalidate (asks _ asked) new points present readable
  | stillborn idle => exact .stillborn idle
  | releaseCandidate found points present => exact .releaseCandidate found points present
  | unreadable found stored missing swept => exact .unreadable found stored missing swept
  | sweep idle swept => exact .sweep idle swept
  | join handle state client present readable =>
      exact .join handle state (clients client) present readable
  | leave id user client => exact .leave id user (clients client)
  | move redirects here present readable landed =>
      exact .move redirects here present readable (lands _ _ _ landed)
  | snapshot client here found owns => exact .snapshot (clients client) here found owns

/-- Some changes, one after the other. -/
abbrev Changes (rules : Rules) (out : Outside) : Cache → Cache → Prop :=
  Relation.ReflTransGen (Change rules out)

open Cache

variable {rules : Rules} {out : Outside} {s s' : Cache}

theorem live_born (slot : Slot) (next : ObjectId) :
    Cache.live { s with nextObject := next, cachedObjects := slot :: s.cachedObjects } =
      slot :: s.live := rfl

theorem live_bornUncached (slot : Slot) (next : ObjectId) :
    (Cache.live { s with nextObject := next, uncachedObjects := slot :: s.uncachedObjects }).Perm
      (slot :: s.live) := List.perm_middle

/-- Pointers stay unique. -/
theorem Change.tidy (change : Change rules out s s') (tidy : Tidy s) : Tidy s' := by
  have kept {s' : Cache} (ids : s'.live.map Slot.id = s.live.map Slot.id)
      (next : s'.nextObject = s.nextObject) : Tidy s' :=
    tidy.of_ids (ids ▸ List.Perm.refl _) (Nat.le_of_eq next.symm)
  have ids {changes : Slot → Slot} (same : ∀ slot, (changes slot).id = slot.id)
      (list : List Slot) : (list.map changes).map Slot.id = list.map Slot.id := by
    rw [List.map_map]
    exact List.map_congr_left fun slot _ => same slot
  cases change with
  | silent same => exact tidy.of_ids (same.live.map _) (Nat.le_of_eq same.nextObject.symm)
  | turn task turned => exact kept rfl rfl
  | edit act found enabled permitted => exact kept map_id_modify rfl
  | store found still written => exact kept map_id_modify rfl
  | born asked new loose => exact tidy.of_next (List.Perm.refl _) rfl
  | bornUncached asked new loose =>
      exact tidy.of_next ((live_bornUncached _ _).map _) rfl
  | revalidate asked new points present readable =>
      refine tidy.of_next ?_ rfl
      show (List.map Slot.id (_ :: (s.modify _ _).live)).Perm _
      rw [List.map_cons, map_id_modify]
  | stillborn idle => exact tidy.of_ids (List.Perm.refl _) (Nat.le_succ _)
  | releaseCandidate found points present =>
      refine kept ?_ rfl
      rw [map_id_modify, map_id_modify]
  | unreadable found stored missing swept => exact tidy.of_gone swept.live swept.nextObject
  | sweep idle swept => exact tidy.of_gone swept.live swept.nextObject
  | join handle state client present readable => exact kept map_id_modify rfl
  | leave id user client =>
      refine kept ?_ (nextObject_dropUser _ _)
      rw [live_dropUser]
      exact ids (fun _ => modifySlot_id) _
  | move redirects source present readable landed =>
      refine kept ?_ nextObject_moveUsers
      rw [live_moveUsers source, map_id_modify, map_id_modify]
  | snapshot client here found owns =>
      refine tidy.of_next (((live_moveToSnapshot tidy found).map _).trans ?_) ?_
      · rw [List.map_cons, ids fun _ => modifySlot_id]
        exact List.Perm.refl _
      · unfold moveToSnapshot
        dsimp only
        split <;> rfl

theorem Changes.tidy (changes : Changes rules out s s') (tidy : Tidy s) : Tidy s' := by
  induction changes with
  | refl => exact tidy
  | tail _ change ih => exact change.tidy ih

/-- Something leads to an object: a handle, or an object that it is the candidate of. -/
def Leads (s : Cache) (id : ObjectId) : Prop :=
  (∃ handle value, s.handles handle = some value ∧ value.object = id) ∨
    ∃ other o, s.find other = some o ∧ o.candidate = some id

/-- What every change of an object keeps. -/
structure Stable (rules : Rules) (out : Outside) (s : Cache)
    (Good : ObjectId → LlcacheObject → Prop) : Prop where
  edit : ∀ {id o} (act : Act), s.find id = some o → Good id o → act.Enabled out o →
    rules.permits id o act → Good id (act.apply out o)
  store : ∀ {id o}, Good id o → o.fetch.fetch = none → out.storeData o.url o.sourceData = .ok →
    Good id (markStored o)
  born : ∀ {retrieval o}, rules.asks retrieval → Newborn retrieval o → Good s.nextObject o
  shot : ∀ o, Good s.nextObject (snapshot o)
  count : ∀ {id o} (count : Nat), Good id o → Readable o ∨ count ≤ o.candidateCount →
    Good id { o with candidateCount := count }
  loose : ∀ {id o}, Good id o → Good id { o with candidate := none }
  users : ∀ {id o} (users : List ObjectUser) (lastUsed : Int),
    rules.clients ∨ (∃ o o' redirects, rules.lands o o' redirects) → Good id o →
    (o.users = [] → users = [] ∨ Readable o ∨ Leads s id) → Good id { o with users, lastUsed }

/-- What every change of an object keeps is kept for all objects. -/
theorem Change.objects {Good : ObjectId → LlcacheObject → Prop} (change : Change rules out s s')
    (tidy : Tidy s) (stable : Stable rules out s Good)
    (good : ∀ slot ∈ s.live, Good slot.id slot.object) :
    ∀ slot ∈ s'.live, Good slot.id slot.object := by
  have modified {list : List Slot} {id : ObjectId} {change : LlcacheObject → LlcacheObject}
      (before : ∀ slot ∈ list, Good slot.id slot.object)
      (here : ∀ o, ⟨id, o⟩ ∈ list → Good id o → Good id (change o)) :
      ∀ slot ∈ list.map (modifySlot id change), Good slot.id slot.object := by
    intro slot inside
    obtain ⟨old, was, rfl⟩ := List.mem_map.mp inside
    by_cases same : old.id = id
    · rw [modifySlot_same same]
      subst same
      exact here old.object was (before old was)
    · rw [modifySlot_other same]
      exact before old was
  have only {id : ObjectId} {o o' : LlcacheObject} (found : s.find id = some o)
      (inside : ⟨id, o'⟩ ∈ s.live) : o' = o := by
    have looked := @find_of_mem s ⟨id, o'⟩ tidy.nodup inside
    rw [found] at looked
    exact (Option.some.inj looked).symm
  have left {now : Int} {user : ObjectUser} {id : ObjectId} {o : LlcacheObject}
      (client : rules.clients) (was : Good id o) : Good id (removeUser now user o) :=
    stable.users _ _ (Or.inl client) was fun empty => Or.inl (by rw [empty]; rfl)
  cases change with
  | silent same => exact fun slot inside => good slot (same.live.mem_iff.mp inside)
  | turn task turned => exact good
  | edit act found enabled permitted =>
      rw [live_modify]
      refine modified good fun o inside was => ?_
      rw [only found inside] at was ⊢
      exact stable.edit act found was enabled permitted
  | store found still written =>
      rw [live_store]
      refine modified good fun o inside was => ?_
      rw [only found inside] at was ⊢
      exact stable.store was still written
  | born asked new loose =>
      rw [live_born]
      exact List.forall_mem_cons.mpr ⟨stable.born asked new, good⟩
  | bornUncached asked new loose =>
      intro slot inside
      rcases List.mem_cons.mp ((live_bornUncached _ _).mem_iff.mp inside) with rfl | old
      · exact stable.born asked new
      · exact good slot old
  | revalidate asked new points present readable =>
      show ∀ slot ∈ _ :: (s.modify _ _).live, _
      rw [live_modify]
      refine List.forall_mem_cons.mpr ⟨stable.born asked new, ?_⟩
      refine modified good fun o inside was => ?_
      rw [only present inside] at was ⊢
      exact stable.count _ was (Or.inl readable)
  | stillborn idle => exact good
  | releaseCandidate found points present =>
      rw [live_modify, live_modify]
      refine modified (modified good fun o inside was => ?_) fun o inside was => stable.loose was
      exact stable.count _ was (Or.inr (Nat.sub_le _ _))
  | unreadable found stored missing swept =>
      exact fun slot inside => good slot (swept.live.mem_iff.mpr (List.mem_append_left _ inside))
  | sweep idle swept =>
      exact fun slot inside => good slot (swept.live.mem_iff.mpr (List.mem_append_left _ inside))
  | join handle state client present readable =>
      rw [live_addUser]
      refine modified good fun o inside was =>
        stable.users _ _ (Or.inl client) was fun _ => Or.inr ?_
      rw [only present inside]
      exact readable.imp id Or.inl
  | leave id user client =>
      rw [live_dropUser]
      exact modified good fun o inside was => left client was
  | @move source target o o' redirects here present readable landed =>
      rw [live_moveUsers here, live_modify, live_modify]
      refine modified (modified good fun o inside was =>
        stable.users [] _ (Or.inr ⟨_, _, _, landed⟩) was fun _ => Or.inl rfl) fun o inside was => ?_
      refine stable.users _ _ (Or.inr ⟨_, _, _, landed⟩) was fun _ => Or.inr ?_
      rcases readable with readable | points
      · refine Or.inl ?_
        obtain ⟨old, before, same⟩ := List.mem_map.mp inside
        by_cases at' : old.id = source
        · rw [modifySlot_same at'] at same
          cases same
          rwa [← only present before] at readable
        · rw [modifySlot_other at'] at same
          subst same
          rwa [← only present before] at readable
      · exact Or.inr (Or.inr ⟨_, _, here, points⟩)
  | snapshot client here found owns =>
      intro slot inside
      have parts := (live_moveToSnapshot tidy found).mem_iff.mp inside
      refine List.forall_mem_cons.mpr ⟨?_, modified good fun o _ was => ?_⟩ slot parts
      · exact stable.users _ _ (Or.inl client) (stable.shot _) fun _ => Or.inr (Or.inl (Or.inr nofun))
      · unfold snapshotUsers
        split
        · refine stable.users _ _ (Or.inl client) was fun empty => Or.inl ?_
          rw [empty]
          rfl
        · exact left client was

/-- What no act changes at an object. A fetch starts only where one runs. -/
structure Same (o o' : LlcacheObject) : Prop where
  url : o'.url = o.url
  storeState : o'.storeState = o.storeState
  pointers : o'.users.map ObjectUser.pointer = o.users.map ObjectUser.pointer
  candidate : o'.candidate = o.candidate
  candidateCount : o'.candidateCount = o.candidateCount
  redirectCount : o'.fetch.redirectCount = o.fetch.redirectCount
  hstsInUse : o'.fetch.hstsInUse = o.fetch.hstsInUse
  fetch : o.fetch.fetch = none → o'.fetch.fetch = none

variable {o : LlcacheObject}

theorem same_rfl : Same o o := ⟨rfl, rfl, rfl, rfl, rfl, rfl, rfl, id⟩

theorem Same.trans {o' o'' : LlcacheObject} (first : Same o o') (second : Same o' o'') :
    Same o o'' where
  url := second.url.trans first.url
  storeState := second.storeState.trans first.storeState
  pointers := second.pointers.trans first.pointers
  candidate := second.candidate.trans first.candidate
  candidateCount := second.candidateCount.trans first.candidateCount
  redirectCount := second.redirectCount.trans first.redirectCount
  hstsInUse := second.hstsInUse.trans first.hstsInUse
  fetch still := second.fetch (first.fetch still)

theorem same_changeUser {change : ObjectUser → ObjectUser} (handle : Nat)
    (kept : ∀ user, (change user).pointer = user.pointer) : Same o (changeUser handle change o) where
  url := rfl
  storeState := rfl
  pointers := by
    rw [changeUser, List.map_map]
    refine List.map_congr_left fun user _ => ?_
    rw [Function.comp_apply]
    split
    · exact kept user
    · rfl
  candidate := rfl
  candidateCount := rfl
  redirectCount := rfl
  hstsInUse := rfl
  fetch := id

theorem same_processHeader (clock : Clock) (data : Bytes) :
    Same o (processHeader clock o data) := by
  rw [(processHeader_frame clock o data).1]
  exact ⟨rfl, rfl, rfl, rfl, rfl, rfl, rfl, id⟩

/-- A fetch of an object that had one starts again, or it stays as it is. -/
theorem refetch_frame (out : Outside) (o : LlcacheObject) : ∃ fetch,
    (refetch out o).2 = { o with
      cache := { invalidCacheControl with reqTime := out.clock.now, finTime := out.clock.now }
      fetch := { o.fetch with state := .init, fetch } } ∧
    ((refetch out o).1 = .ok → fetch ≠ none) ∧ ((refetch out o).1 ≠ .ok → fetch = o.fetch.fetch) := by
  unfold refetch
  dsimp only
  split
  · exact ⟨_, rfl, nofun, fun failed => absurd rfl failed⟩
  · rename_i error _
    exact ⟨_, rfl, fun done => absurd done error.property, fun _ => rfl⟩

theorem refetch_ok {fetch : Fetch} (started : out.fetchStart (fetchRequest o) = .ok fetch) :
    (refetch out o).1 = .ok := by
  unfold refetch
  dsimp only
  rw [started]

theorem same_refetch (change : LlcacheObject → LlcacheObject) (running : o.fetch.fetch ≠ none)
    (kept : Same o { change o with fetch := { (change o).fetch with fetch := o.fetch.fetch } }) :
    Same o (refetch out (change o)).2 := by
  obtain ⟨fetch, same, -⟩ := refetch_frame out (change o)
  rw [same]
  exact { kept with fetch := fun still => absurd still running }

theorem retrievePersistedData_frame (out : Outside) (o : LlcacheObject) : ∃ sourceData sourceLen,
    (retrievePersistedData out o).2 = { o with sourceData, sourceLen } ∧
      ((retrievePersistedData out o).1 = .ok →
        Readable (retrievePersistedData out o).2) := by
  unfold retrievePersistedData
  split
  · rename_i readable
    exact ⟨_, _, rfl, fun _ => readable⟩
  · split
    · exact ⟨_, _, rfl, fun _ => Or.inl nofun⟩
    · rename_i error _
      exact ⟨_, _, rfl, fun done => absurd done error.property⟩

/-- These acts change the source data of an object. -/
def Act.Sources : Act → Prop
  | .append _ | .finish | .release | .read => True
  | _ => False

/-- Other acts keep it. -/
theorem Act.sourceData (act : Act) (other : ¬ act.Sources) :
    (act.apply out o).sourceData = o.sourceData := by
  have fetched (o : LlcacheObject) : (refetch out o).2.sourceData = o.sourceData := by
    obtain ⟨fetch, same, -⟩ := refetch_frame out o
    rw [same]
  cases act with
  | header buf =>
      show (processHeader _ _ _).sourceData = _
      rw [(processHeader_frame _ _ _).1]
  | start =>
      show (startData o).sourceData = _
      unfold startData
      split <;> rfl
  | authenticate => exact fetched _
  | downgrade => exact fetched _
  | retry => exact fetched _
  | invalidate =>
      show (markInvalid o).sourceData = _
      unfold markInvalid
      split <;> rfl
  | append | finish | release | read => exact absurd trivial other
  | complete | fail | chain | deny | distrust | abort | httpCode | target | queue | validate
  | stream | length => rfl

/-- An act changes neither the place of an object nor its pointers. -/
theorem Act.same (act : Act) (enabled : act.Enabled out o) : Same o (act.apply out o) := by
  cases act with
  | header buf =>
      have headers : Same o { o with fetch := { o.fetch with state := .headers } } :=
        ⟨rfl, rfl, rfl, rfl, rfl, rfl, rfl, id⟩
      exact headers.trans (same_processHeader out.clock buf)
  | start =>
      show Same o (startData o)
      unfold startData
      split <;> exact ⟨rfl, rfl, rfl, rfl, rfl, rfl, rfl, id⟩
  | authenticate =>
      exact same_refetch (tryAuth ∘ abandonResponse) enabled
        ⟨rfl, rfl, rfl, rfl, rfl, rfl, rfl, id⟩
  | downgrade =>
      exact same_refetch (downgradeTls ∘ taint) enabled ⟨rfl, rfl, rfl, rfl, rfl, rfl, rfl, id⟩
  | retry => exact same_refetch useRetry enabled ⟨rfl, rfl, rfl, rfl, rfl, rfl, rfl, id⟩
  | httpCode code =>
      refine ⟨rfl, rfl, rfl, rfl, rfl, rfl, rfl, fun still => ?_⟩
      show (o.fetch.fetch.map _) = none
      rw [still]
      rfl
  | target handle called => exact same_changeUser handle fun _ => rfl
  | queue handle => exact same_changeUser handle fun _ => rfl
  | read =>
      obtain ⟨data, length, same, -⟩ := retrievePersistedData_frame out o
      show Same o (retrievePersistedData out o).2
      rw [same]
      exact ⟨rfl, rfl, rfl, rfl, rfl, rfl, rfl, id⟩
  | invalidate =>
      show Same o (markInvalid o)
      unfold markInvalid
      split
      · exact ⟨rfl, rfl, rfl, rfl, rfl, rfl, rfl, id⟩
      · exact same_rfl
  | complete => exact ⟨rfl, rfl, rfl, rfl, rfl, rfl, rfl, fun _ => rfl⟩
  | finish => exact ⟨rfl, rfl, rfl, rfl, rfl, rfl, rfl, fun _ => rfl⟩
  | fail => exact ⟨rfl, rfl, rfl, rfl, rfl, rfl, rfl, fun _ => rfl⟩
  | deny => exact ⟨rfl, rfl, rfl, rfl, rfl, rfl, rfl, fun _ => rfl⟩
  | distrust => exact ⟨rfl, rfl, rfl, rfl, rfl, rfl, rfl, fun _ => rfl⟩
  | abort => exact ⟨rfl, rfl, rfl, rfl, rfl, rfl, rfl, fun _ => rfl⟩
  | append | chain | release | validate | stream | length =>
      exact ⟨rfl, rfl, rfl, rfl, rfl, rfl, rfl, id⟩

theorem Change.nextObject_le (change : Change rules out s s') : s.nextObject ≤ s'.nextObject := by
  cases change with
  | silent same => exact Nat.le_of_eq same.nextObject.symm
  | unreadable found stored missing swept => exact Nat.le_of_eq swept.nextObject.symm
  | sweep idle swept => exact Nat.le_of_eq swept.nextObject.symm
  | leave id user client => exact Nat.le_of_eq (nextObject_dropUser _ _).symm
  | move redirects here present readable landed => exact Nat.le_of_eq nextObject_moveUsers.symm
  | snapshot client here found owns =>
      unfold moveToSnapshot
      dsimp only
      split <;> exact Nat.le_succ _
  | born | bornUncached | revalidate | stillborn => exact Nat.le_succ _
  | turn | edit | store | releaseCandidate | join => exact Nat.le_refl _

theorem Changes.nextObject_le (changes : Changes rules out s s') :
    s.nextObject ≤ s'.nextObject := by
  induction changes with
  | refl => exact Nat.le_refl _
  | tail _ change ih => exact Nat.le_trans ih change.nextObject_le

/-- What every change keeps between an object and a later state of it. -/
structure Steady (rules : Rules) (out : Outside) (id : ObjectId)
    (Later : LlcacheObject → LlcacheObject → Prop) : Prop where
  refl : ∀ o, Later o o
  trans : ∀ {o o' o''}, Later o o' → Later o' o'' → Later o o''
  edit : ∀ {o} (act : Act), act.Enabled out o → rules.permits id o act → Later o (act.apply out o)
  store : ∀ o, Later o (markStored o)
  count : ∀ o count, Later o { o with candidateCount := count }
  loose : ∀ o, Later o { o with candidate := none }
  users : ∀ o users lastUsed, rules.clients ∨ (∃ o o' redirects, rules.lands o o' redirects) →
    Later o { o with users, lastUsed }

/-- An object that is not new was there before, and is a later state of what it was. -/
theorem Change.steady {Later : LlcacheObject → LlcacheObject → Prop} {key : ObjectId}
    (change : Change rules out s s') (tidy : Tidy s) (steady : Steady rules out key Later)
    (old : key < s.nextObject) (found : s'.find key = some o) :
    ∃ before, s.find key = some before ∧ Later before o := by
  have step {o o' : LlcacheObject} {other : ObjectId}
      (was : other = key → ∃ before, s.find key = some before ∧ Later before o)
      (later : other = key → Later o o') :
      other = key → ∃ before, s.find key = some before ∧ Later before o' := by
    intro same
    obtain ⟨before, found, first⟩ := was same
    exact ⟨before, found, steady.trans first (later same)⟩
  have new {p : Prop} : s.nextObject = key → p := fun same => absurd same (Nat.ne_of_gt old)
  have stable : Stable rules out s fun other now =>
      other = key → ∃ before, s.find key = some before ∧ Later before now := by
    constructor
    · exact fun act _ was enabled permitted =>
        step was fun same => steady.edit act enabled (same ▸ permitted)
    · exact fun was _ _ => step was fun _ => steady.store _
    · exact fun _ _ => new
    · exact fun _ => new
    · exact fun _ was _ => step was fun _ => steady.count _ _
    · exact fun was => step was fun _ => steady.loose _
    · exact fun _ _ moved was _ => step was fun _ => steady.users _ _ _ moved
  refine change.objects tidy stable ?_ _ (mem_of_find found) rfl
  intro slot inside same
  subst same
  exact ⟨slot.object, find_of_mem tidy.nodup inside, steady.refl _⟩

theorem Changes.steady {Later : LlcacheObject → LlcacheObject → Prop} {key : ObjectId}
    (changes : Changes rules out s s') (tidy : Tidy s) (steady : Steady rules out key Later)
    (old : key < s.nextObject) (found : s'.find key = some o) :
    ∃ before, s.find key = some before ∧ Later before o := by
  induction changes generalizing o with
  | refl => exact ⟨o, found, steady.refl o⟩
  | tail changes change ih =>
      obtain ⟨middle, here, later⟩ := change.steady (Changes.tidy changes tidy) steady
        (Nat.lt_of_lt_of_le old (Changes.nextObject_le changes)) found
      obtain ⟨before, there, earlier⟩ := ih here
      exact ⟨before, there, steady.trans earlier later⟩

/-- What stays at an object as long as it lives. -/
structure Later (o o' : LlcacheObject) : Prop where
  url : o'.url = o.url
  candidate : o'.candidate = o.candidate ∨ o'.candidate = none
  redirectCount : o'.fetch.redirectCount = o.fetch.redirectCount
  hstsInUse : o'.fetch.hstsInUse = o.fetch.hstsInUse
  fetch : o.fetch.fetch = none → o'.fetch.fetch = none

theorem later_refl (o : LlcacheObject) : Later o o :=
  ⟨rfl, Or.inl rfl, rfl, rfl, fun still => still⟩

theorem Later.trans {o o' o'' : LlcacheObject} (first : Later o o') (second : Later o' o'') :
    Later o o'' where
  url := second.url.trans first.url
  candidate := by
    rcases second.candidate with same | none
    · rw [same]
      exact first.candidate
    · exact Or.inr none
  redirectCount := second.redirectCount.trans first.redirectCount
  hstsInUse := second.hstsInUse.trans first.hstsInUse
  fetch still := second.fetch (first.fetch still)

theorem later_steady (key : ObjectId) : Steady rules out key Later where
  refl := later_refl
  trans := Later.trans
  edit act enabled _ := by
    have same := act.same enabled
    exact ⟨same.url, Or.inl same.candidate, same.redirectCount, same.hstsInUse, same.fetch⟩
  store _ := ⟨rfl, Or.inl rfl, rfl, rfl, fun still => still⟩
  count _ _ := ⟨rfl, Or.inl rfl, rfl, rfl, fun still => still⟩
  loose _ := ⟨rfl, Or.inr rfl, rfl, rfl, fun still => still⟩
  users _ _ _ _ := ⟨rfl, Or.inl rfl, rfl, rfl, fun still => still⟩

theorem Changes.later {key : ObjectId} (changes : Changes rules out s s') (tidy : Tidy s)
    (old : key < s.nextObject) (found : s'.find key = some o) :
    ∃ before, s.find key = some before ∧ Later before o :=
  changes.steady tidy (later_steady key) old found

/-- Without clients and moves all users stay where they are. -/
theorem pointers_steady (key : ObjectId) (clients : ¬ rules.clients)
    (lands : ∀ o o' redirects, ¬ rules.lands o o' redirects) :
    Steady rules out key fun o o' =>
      o'.users.map ObjectUser.pointer = o.users.map ObjectUser.pointer where
  refl _ := rfl
  trans first second := second.trans first
  edit act enabled _ := (act.same enabled).pointers
  store _ := rfl
  count _ _ := rfl
  loose _ := rfl
  users _ _ _ moved := by
    rcases moved with client | ⟨o, o', redirects, landed⟩
    · exact absurd client clients
    · exact absurd landed (lands o o' redirects)

end Neosurf.Llcache
