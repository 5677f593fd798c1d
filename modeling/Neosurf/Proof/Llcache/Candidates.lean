import Neosurf.Proof.Llcache.Runs

namespace Neosurf.Llcache

open Cache

section Candidates

variable {rules : Rules} {out : Outside} {s s' : Cache} {o : LlcacheObject}

/-- An object of the backing store is at rest, and without its source data nothing uses it. -/
structure Kept (o : LlcacheObject) : Prop where
  still : o.storeState = .disc → o.fetch.fetch = none
  unused : o.storeState = .disc → o.sourceData = none → o.users = [] ∧ o.candidateCount = 0

/-- Without its source data an object of the backing store is not readable. -/
theorem not_readable (stored : o.storeState = .disc) (missing : o.sourceData = none) :
    ¬ Readable o := by
  intro readable
  rcases readable with data | ram
  · exact data missing
  · exact ram stored

theorem Readable.kept (readable : Readable o) (still : o.storeState = .disc → o.fetch.fetch = none) :
    Kept o :=
  ⟨still, fun stored missing => absurd readable (not_readable stored missing)⟩

/-- The users of an object with an idle look are none. -/
theorem isIdle_iff : isIdle o = true ↔
    o.users = [] ∧ o.candidateCount = 0 ∧ o.fetch.fetch = none := by
  simp only [isIdle, Bool.and_eq_true, decide_eq_true_eq, and_assoc]

/-- An unreadable object is idle. -/
theorem Kept.idle (kept : Kept o) (stored : o.storeState = .disc) (missing : o.sourceData = none) :
    isIdle o = true := by
  obtain ⟨users, count⟩ := kept.unused stored missing
  exact isIdle_iff.mpr ⟨users, count, kept.still stored⟩

/-- Every handle has an object with its user. -/
def Held (s : Cache) : Prop :=
  ∀ handle value, s.handles handle = some value →
    ∃ o, ⟨value.object, o⟩ ∈ s.live ∧ (handle, false) ∈ o.users.map ObjectUser.pointer

/-- The candidates are counted, every handle has its object, and objects without data are
unused. -/
structure Safe (rel : Nat → Nat → Prop) (s : Cache) : Prop where
  tidy : Tidy s
  counted : Ref.Counted rel s.refs
  kept : ∀ slot ∈ s.live, Kept slot.object
  held : Held s

variable {rel : Nat → Nat → Prop}

theorem Safe.find_kept (safe : Safe rel s) {id : ObjectId} (found : s.find id = some o) : Kept o :=
  safe.kept _ (mem_of_find found)

/-- An object that something leads to is in use. -/
theorem Safe.used (safe : Safe rel s) (tally : Ref.Tally rel) {id : ObjectId} (leads : Leads s id) :
    ∃ o, s.find id = some o ∧ (o.users ≠ [] ∨ o.candidateCount ≠ 0) := by
  rcases leads with ⟨handle, value, here, rfl⟩ | ⟨other, o, found, points⟩
  · obtain ⟨o, inside, user⟩ := safe.held handle value here
    refine ⟨o, @find_of_mem s ⟨_, o⟩ safe.tidy.nodup inside, Or.inl fun empty => ?_⟩
    rw [empty] at user
    cases user
  · have node : Slot.ref ⟨other, o⟩ ∈ s.refs := List.mem_map_of_mem (mem_of_find found)
    have present := safe.counted.closed _ node id points
    obtain ⟨target, inside, same⟩ := List.mem_map.mp present
    obtain ⟨slot, live, rfl⟩ := List.mem_map.mp inside
    subst same
    refine ⟨slot.object, find_of_mem safe.tidy.nodup live, Or.inr fun none => ?_⟩
    have tallied := safe.counted.counts _ inside
    rw [show (Slot.ref slot).count = 0 from none] at tallied
    have zero := tally.empty tallied
    rw [Ref.pointers, List.countP_eq_zero] at zero
    exact zero _ node (decide_eq_true points)

/-- An object in use is readable. -/
theorem Kept.readable (kept : Kept o) (used : o.users ≠ [] ∨ o.candidateCount ≠ 0) : Readable o := by
  by_contra unreadable
  rw [Readable, not_or, not_not, not_not] at unreadable
  obtain ⟨users, count⟩ := kept.unused unreadable.2 unreadable.1
  rcases used with some | some
  · exact some users
  · exact some count

/-- Nothing leads to a new pointer. -/
theorem Safe.not_leads (safe : Safe rel s) (tally : Ref.Tally rel) : ¬ Leads s s.nextObject := by
  intro leads
  obtain ⟨o, found, -⟩ := safe.used tally leads
  exact Nat.lt_irrefl _ (safe.tidy.fresh _ (mem_of_find found))

/-- An act keeps an object readable or unused. -/
theorem Act.kept {act : Act} (kept : Kept o) (enabled : act.Enabled out o) :
    Kept (act.apply out o) := by
  have same := act.same enabled
  have users : o.users = [] → (act.apply out o).users = [] := by
    intro empty
    have pointers := same.pointers
    rw [empty] at pointers
    exact List.map_eq_nil_iff.mp pointers
  refine ⟨fun stored => same.fetch (kept.still (same.storeState.symm.trans stored)), ?_⟩
  intro stored missing
  have was : o.storeState = .disc := same.storeState.symm.trans stored
  rw [same.candidateCount]
  by_cases sources : act.Sources
  · cases act with
    | append buf => cases missing
    | finish => exact absurd (kept.still was) enabled
    | release =>
        obtain ⟨empty, count, -⟩ := isIdle_iff.mp (Bool.and_eq_true_iff.mp enabled).1
        exact ⟨empty, count⟩
    | read =>
        obtain ⟨data, length, -, readable⟩ := retrievePersistedData_frame out o
        rcases readable enabled with there | ram
        · exact absurd missing there
        · exact absurd stored ram
    | _ => exact sources.elim
  · rw [act.sourceData sources] at missing
    obtain ⟨empty, count⟩ := kept.unused was missing
    exact ⟨users empty, count⟩

/-- An act keeps an object readable that is in use. -/
theorem Act.readable {act : Act} (kept : Kept o) (enabled : act.Enabled out o)
    (used : o.users ≠ [] ∨ o.candidateCount ≠ 0) : Readable (act.apply out o) := by
  have same := act.same enabled
  refine (act.kept kept enabled).readable ?_
  rw [same.candidateCount]
  refine used.imp_left fun some empty => some ?_
  have pointers := same.pointers
  rw [empty] at pointers
  exact List.map_eq_nil_iff.mp pointers.symm

/-- Objects stay readable or unused when the store takes no object without source data. -/
theorem kept_stable (safe : Safe rel s) (tally : Ref.Tally rel)
    (full : ∀ url, out.storeData url none ≠ .ok) :
    Stable rules out s fun id o => Kept o ∧ (Leads s id → Readable o) where
  edit act found was enabled _ := by
    refine ⟨act.kept was.1 enabled, fun leads => ?_⟩
    obtain ⟨o', found', used⟩ := safe.used tally leads
    rw [found] at found'
    cases found'
    exact act.readable was.1 enabled used
  store {id o} was still written := by
    have data : o.sourceData ≠ none := by
      intro missing
      rw [missing] at written
      exact full _ written
    have readable : Readable (markStored o) := Or.inl data
    exact ⟨readable.kept fun _ => still, fun _ => readable⟩
  born _ new := by
    refine ⟨⟨new.stored, fun _ _ => ⟨new.users, new.candidateCount⟩⟩, fun leads => ?_⟩
    exact absurd leads (safe.not_leads tally)
  shot o := ⟨⟨nofun, nofun⟩, fun leads => absurd leads (safe.not_leads tally)⟩
  count {id o} count was room := by
    refine ⟨⟨was.1.still, fun stored missing => ?_⟩, was.2⟩
    rcases room with readable | less
    · exact absurd readable (not_readable stored missing)
    · obtain ⟨users, zero⟩ := was.1.unused stored missing
      exact ⟨users, Nat.le_zero.mp (zero ▸ less)⟩
  loose was := ⟨⟨was.1.still, was.1.unused⟩, was.2⟩
  users {id o} users lastUsed _ was room := by
    refine ⟨⟨was.1.still, fun stored missing => ?_⟩, was.2⟩
    obtain ⟨empty, count⟩ := was.1.unused stored missing
    rcases room empty with none | readable | leads
    · exact ⟨none, count⟩
    · exact absurd readable (not_readable stored missing)
    · exact absurd (was.2 leads) (not_readable stored missing)

/-- A change keeps objects readable or unused. -/
theorem Change.kept (change : Change rules out s s') (safe : Safe rel s) (tally : Ref.Tally rel)
    (full : ∀ url, out.storeData url none ≠ .ok) : ∀ slot ∈ s'.live, Kept slot.object := by
  have good := change.objects safe.tidy (kept_stable safe tally full) fun slot inside => by
    refine ⟨safe.kept slot inside, fun leads => ?_⟩
    obtain ⟨o, found, used⟩ := safe.used tally leads
    rw [find_of_mem safe.tidy.nodup inside] at found
    cases found
    exact (safe.kept slot inside).readable used
  exact fun slot inside => (good slot inside).1

theorem map_ref_modifySlot (id : ObjectId) (change : LlcacheObject → LlcacheObject)
    (list : List Slot)
    (kept : ∀ o, (change o).candidate = o.candidate ∧ (change o).candidateCount = o.candidateCount) :
    (list.map (modifySlot id change)).map Slot.ref = list.map Slot.ref := by
  rw [List.map_map]
  refine List.map_congr_left fun slot _ => ?_
  rw [Function.comp_apply]
  unfold modifySlot Slot.ref
  split
  · dsimp only
    rw [(kept slot.object).1, (kept slot.object).2]
  · rfl

/-- A change keeps the counts of candidates. When they are exact, no object at rest may have
a candidate. -/
theorem Change.counted (change : Change rules out s s') (safe : Safe rel s) (tally : Ref.Tally rel)
    (loose : (∀ slot ∈ s.live, slot.object.fetch.fetch = none → slot.object.candidate = none) ∨
      ∀ {m n l : Nat}, rel m n → l ≤ m → rel l n) : Ref.Counted rel s'.refs := by
  have counted := safe.counted
  have same (refs : s'.refs = s.refs) : Ref.Counted rel s'.refs := refs ▸ counted
  have absent : s.nextObject ∉ s.refs.map Ref.key := by
    rw [map_key_refs]
    exact safe.tidy.nextObject_notMem
  have swept {gone : List Slot} (idle : ∀ slot ∈ gone, isIdle slot.object = true)
      (live : s.live.Perm (s'.live ++ gone)) : Ref.Counted rel s'.refs := by
    have parts : s.refs.Perm (s'.refs ++ gone.map Slot.ref) := by
      have mapped := live.map Slot.ref
      rw [List.map_append] at mapped
      exact mapped
    refine Ref.counted_drop tally counted parts (fun r inside => ?_) (loose.imp_left fun none r inside => ?_)
    · obtain ⟨slot, out', rfl⟩ := List.mem_map.mp inside
      exact (isIdle_iff.mp (idle slot out')).2.1
    · obtain ⟨slot, out', rfl⟩ := List.mem_map.mp inside
      exact none slot (live.mem_iff.mpr (List.mem_append_right _ out'))
        (isIdle_iff.mp (idle slot out')).2.2
  cases change with
  | silent still => exact Ref.counted_perm (still.live.symm.map _) counted
  | turn task turned => exact counted
  | edit act found enabled permitted =>
      refine same (refs_modify safe.tidy fun o here => ?_)
      rw [found] at here
      cases here
      exact ⟨(act.same enabled).candidate, (act.same enabled).candidateCount⟩
  | store found still written => exact same (refs_modify safe.tidy fun _ _ => ⟨rfl, rfl⟩)
  | @born retrieval o asked new none =>
      have fresh := Ref.counted_fresh tally counted absent
      have shape : Slot.ref ⟨s.nextObject, o⟩ = ⟨s.nextObject, Option.none, 0⟩ := by
        rw [Slot.ref, none, new.candidateCount]
      rw [← shape] at fresh
      exact fresh
  | @bornUncached retrieval o asked new none =>
      have fresh := Ref.counted_fresh tally counted absent
      have shape : Slot.ref ⟨s.nextObject, o⟩ = ⟨s.nextObject, Option.none, 0⟩ := by
        rw [Slot.ref, none, new.candidateCount]
      rw [← shape] at fresh
      exact Ref.counted_perm ((live_bornUncached _ _).symm.map _) fresh
  | @revalidate retrieval o found candidate asked new points present readable =>
      have here : candidate ∈ s.refs.map Ref.key := by
        rw [map_key_refs]
        exact find_isSome_iff.mp ⟨_, present⟩
      have more := Ref.counted_acquire tally counted absent here
      have shape : Slot.ref ⟨s.nextObject, o⟩ = ⟨s.nextObject, some candidate, 0⟩ := by
        rw [Slot.ref, points, new.candidateCount]
      rw [← shape, ← refs_recount] at more
      exact more
  | stillborn idle => exact counted
  | releaseCandidate found points present =>
      have less := Ref.counted_release tally counted
        (List.mem_map_of_mem (mem_of_find found)) points
      rw [refs_dropCandidate, refs_recount]
      exact less
  | unreadable found stored missing left =>
      refine swept (fun other inside => ?_) left.live
      rw [List.mem_singleton.mp inside]
      exact (safe.find_kept found).idle stored missing
  | sweep idle left => exact swept idle left.live
  | join handle state client present readable =>
      exact same (refs_modify safe.tidy fun _ _ => ⟨rfl, rfl⟩)
  | leave id user client =>
      refine same ?_
      rw [refs, live_dropUser, map_ref_modifySlot id (removeUser _ user) _ fun _ => ⟨rfl, rfl⟩]
      rfl
  | move redirects here present readable landed =>
      refine same ?_
      rw [refs, live_moveUsers here, live_modify, live_modify,
        map_ref_modifySlot _ (takeUsers _) _ fun _ => ⟨rfl, rfl⟩,
        map_ref_modifySlot _ (dropUsers _) _ fun _ => ⟨rfl, rfl⟩]
      rfl
  | @snapshot user handle o client here found owns =>
      have fresh := Ref.counted_fresh tally counted absent
      refine Ref.counted_perm ?_ fresh
      have live := (@live_moveToSnapshot _ _ safe.tidy out.clock.now user _ found).map Slot.ref
      rw [List.map_cons, map_ref_modifySlot _ (snapshotUsers _ _) _ ?_] at live
      · exact live.symm
      · intro o
        unfold snapshotUsers
        split <;> exact ⟨rfl, rfl⟩

/-- A handle and its user. -/
def HasUser (handle : Nat) (o : LlcacheObject) : Prop :=
  (handle, false) ∈ o.users.map ObjectUser.pointer

/-- An assignment that keeps the users of one object keeps those of all objects. -/
theorem exists_modified {handle : Nat} {place : ObjectId} {list : List Slot} (id : ObjectId)
    (change : LlcacheObject → LlcacheObject)
    (here : ∃ o, ⟨place, o⟩ ∈ list ∧ HasUser handle o)
    (kept : ∀ o, ⟨place, o⟩ ∈ list → place = id → HasUser handle o → HasUser handle (change o)) :
    ∃ o, ⟨place, o⟩ ∈ list.map (modifySlot id change) ∧ HasUser handle o := by
  obtain ⟨o, inside, user⟩ := here
  by_cases same : place = id
  · subst same
    exact ⟨change o, mem_map_modifySlot inside, kept o inside rfl user⟩
  · refine ⟨o, ?_, user⟩
    have moved : modifySlot id change ⟨place, o⟩ ∈ list.map (modifySlot id change) :=
      List.mem_map_of_mem inside
    rw [modifySlot_other (show (Slot.mk place o).id ≠ id from same)] at moved
    exact moved

theorem hasUser_removeUser {handle : Nat} {now : Int} {user : ObjectUser}
    (other : user.pointer ≠ (handle, false)) (has : HasUser handle o) :
    HasUser handle (removeUser now user o) := by
  obtain ⟨own, inside, same⟩ := List.mem_map.mp has
  refine List.mem_map.mpr ⟨own, List.mem_filter.mpr ⟨inside, ?_⟩, same⟩
  rw [same]
  exact decide_eq_true other.symm

theorem hasUser_snapshotUsers {handle : Nat} {now : Int} {user : ObjectUser}
    (apart : handle ≠ user.handle) (has : HasUser handle o) :
    HasUser handle (snapshotUsers now user o) := by
  unfold snapshotUsers
  split
  · obtain ⟨own, inside, same⟩ := List.mem_map.mp has
    refine List.mem_map.mpr ⟨own, List.mem_map.mpr ⟨own, inside, if_neg ?_⟩, same⟩
    rw [show own.handle = handle from congrArg Prod.fst same]
    exact apart
  · exact hasUser_removeUser (fun same => apart (congrArg Prod.fst same).symm) has

/-- A change keeps an object with its user for every handle. -/
theorem Change.held (change : Change rules out s s') (safe : Safe rel s) : Held s' := by
  have held := safe.held
  have left {gone : List Slot} (unused : ∀ slot ∈ gone, slot.object.users = [])
      (live : s.live.Perm (s'.live ++ gone)) (handles : s'.handles = s.handles) : Held s' := by
    intro handle value here
    rw [handles] at here
    obtain ⟨o, inside, user⟩ := held handle value here
    rcases List.mem_append.mp (live.mem_iff.mp inside) with stays | goes
    · exact ⟨o, stays, user⟩
    · rw [unused _ goes] at user
      cases user
  cases change with
  | silent same =>
      intro handle value here
      have place := same.handles handle
      rw [here, Option.map_some] at place
      obtain ⟨value', there, samePlace⟩ := Option.map_eq_some_iff.mp place.symm
      obtain ⟨o, inside, user⟩ := held handle value' there
      have object : value'.object = value.object := congrArg Prod.fst samePlace
      exact ⟨o, same.live.mem_iff.mpr (object ▸ inside), user⟩
  | turn task turned => exact held
  | edit act found enabled permitted =>
      intro handle value here
      rw [live_modify]
      refine exists_modified _ _ (held handle value here) fun o inside same user => ?_
      have there := @find_of_mem s ⟨_, o⟩ safe.tidy.nodup inside
      rw [show (Slot.mk value.object o).id = _ from same, found] at there
      cases there
      rw [HasUser, (act.same enabled).pointers]
      exact user
  | store found still written =>
      intro handle value here
      rw [live_store]
      exact exists_modified _ _ (held handle value here) fun o inside same user => user
  | born asked new none =>
      intro handle value here
      obtain ⟨o, inside, user⟩ := held handle value here
      exact ⟨o, List.mem_cons_of_mem _ inside, user⟩
  | bornUncached asked new none =>
      intro handle value here
      obtain ⟨o, inside, user⟩ := held handle value here
      exact ⟨o, (live_bornUncached _ _).mem_iff.mpr (List.mem_cons_of_mem _ inside), user⟩
  | @revalidate retrieval o found candidate asked new points present readable =>
      intro handle value here
      show ∃ o, _ ∈ _ :: (s.modify _ _).live ∧ _
      rw [live_modify]
      obtain ⟨o, inside, user⟩ := exists_modified candidate (recount (· + 1))
        (held handle value here) fun o inside same user => user
      exact ⟨o, List.mem_cons_of_mem _ inside, user⟩
  | stillborn idle => exact held
  | releaseCandidate found points present =>
      intro handle value here
      rw [live_modify, live_modify]
      exact exists_modified _ _ (exists_modified _ _ (held handle value here)
        fun o inside same user => user) fun o inside same user => user
  | unreadable found stored missing swept =>
      refine left (fun other inside => ?_) swept.live swept.handles
      rw [List.mem_singleton.mp inside]
      exact ((safe.find_kept found).unused stored missing).1
  | sweep idle swept =>
      exact left (fun other inside => (isIdle_iff.mp (idle other inside)).1) swept.live swept.handles
  | @join id o handle state client present readable =>
      intro other value here
      rw [live_addUser]
      by_cases same : other = handle
      · subst same
        have new : some { object := id, state } = some value := (setHandle_self _ _).symm.trans here
        cases new
        exact ⟨_, mem_map_modifySlot (mem_of_find present), List.mem_cons_self ..⟩
      · replace here := (setHandle_other same).symm.trans here
        exact exists_modified _ _ (held other value here)
          fun o inside _ user => List.mem_cons_of_mem _ user
  | leave id user client =>
      intro handle value here
      rw [live_dropUser]
      unfold dropUser at here
      dsimp only at here
      split at here
      · rename_i moved
        refine exists_modified _ _ (held handle value here) fun o inside _ has =>
          hasUser_removeUser (fun same => ?_) has
        have false' := congrArg Prod.snd same
        rw [show user.pointer.2 = true from moved] at false'
        cases false'
      · by_cases own : handle = user.handle
        · subst own
          have freed : (none : Option Handle) = some value := (setHandle_self _ _).symm.trans here
          cases freed
        · replace here := (setHandle_other own).symm.trans here
          exact exists_modified _ _ (held handle value here) fun o inside _ has =>
            hasUser_removeUser (fun same => own (congrArg Prod.fst same).symm) has
  | @move source target o o' redirects found present readable landed =>
      intro handle value here
      rw [live_moveUsers found, live_modify, live_modify]
      unfold moveUsers at here
      rw [found] at here
      dsimp only at here
      split at here
      · rename_i moves
        obtain ⟨before, was, rfl⟩ := Option.map_eq_some_iff.mp here
        have joined (o' : LlcacheObject) : HasUser handle (takeUsers o.users o') := by
          rw [HasUser, takeUsers, List.map_append, movedUsers, List.map_reverse]
          exact List.mem_append_left _ (List.mem_reverse.mpr moves)
        obtain ⟨o₁, there⟩ : ∃ o₁, (s.modify source (dropUsers out.clock.now)).find target =
            some o₁ := by
          rw [find_modify, present]
          exact ⟨_, rfl⟩
        have inside := mem_of_find there
        rw [live_modify] at inside
        exact ⟨_, mem_map_modifySlot inside, joined o₁⟩
      · rename_i stays
        obtain ⟨o₁, inside, user⟩ := held handle value here
        have apart : value.object ≠ source := by
          intro same
          have there := @find_of_mem s ⟨_, o₁⟩ safe.tidy.nodup inside
          rw [show (Slot.mk value.object o₁).id = _ from same, found] at there
          cases there
          exact stays user
        refine exists_modified _ _ (exists_modified _ _ ⟨o₁, inside, user⟩
          fun _ _ same => absurd same apart) fun o₂ _ _ has => ?_
        rw [HasUser, takeUsers, List.map_append]
        exact List.mem_append_right _ has
  | @snapshot user handle o client was found owns =>
      intro other value here
      have parts := @live_moveToSnapshot _ _ safe.tidy out.clock.now user _ found
      have handles : (s.moveToSnapshot out.clock.now user handle o).handles =
          (s.setHandle user.handle (some { handle with object := s.nextObject })).handles := by
        unfold moveToSnapshot
        dsimp only
        split <;> rfl
      rw [handles] at here
      by_cases own : other = user.handle
      · subst own
        rw [setHandle_self] at here
        cases here
        refine ⟨_, parts.mem_iff.mpr (List.mem_cons_self ..), ?_⟩
        have head : (user.handle, false) =
            (if user.iteratorTarget then { handle := user.handle } else user : ObjectUser).pointer := by
          split
          · rfl
          · rw [ObjectUser.pointer, owns]
        rw [head]
        exact List.mem_cons_self ..
      · rw [setHandle_other own] at here
        obtain ⟨o₁, inside, has⟩ := exists_modified handle.object (snapshotUsers out.clock.now user)
          (held other value here) fun _ _ _ has => hasUser_snapshotUsers own has
        exact ⟨o₁, parts.mem_iff.mpr (List.mem_cons_of_mem _ inside), has⟩

/-- The pointers of a cache are those before, or new ones. -/
theorem Change.ids (change : Change rules out s s') (tidy : Tidy s) :
    ∀ slot ∈ s'.live, slot.id ∈ s.live.map Slot.id ∨ s.nextObject ≤ slot.id := by
  have stable : Stable rules out s fun id _ => id ∈ s.live.map Slot.id ∨ s.nextObject ≤ id := by
    constructor
    · exact fun _ _ was _ _ => was
    · exact fun was _ _ => was
    · exact fun _ _ => Or.inr (Nat.le_refl _)
    · exact fun _ => Or.inr (Nat.le_refl _)
    · exact fun _ was _ => was
    · exact fun was => was
    · exact fun _ _ _ was _ => was
  exact change.objects tidy stable fun slot inside => Or.inl (List.mem_map_of_mem inside)

/-- The objects that were destroyed were unused, and their pointers are not in use again. -/
structure Gone (s : Cache) (slot : Slot) : Prop where
  idle : isIdle slot.object = true
  absent : slot.id ∉ s.live.map Slot.id
  old : slot.id < s.nextObject

theorem Gone.later (change : Change rules out s s') (tidy : Tidy s) {slot : Slot}
    (gone : Gone s slot) : Gone s' slot where
  idle := gone.idle
  absent inside := by
    obtain ⟨other, here, same⟩ := List.mem_map.mp inside
    rcases change.ids tidy other here with before | new
    · exact gone.absent (same ▸ before)
    · rw [same] at new
      exact Nat.lt_irrefl _ (Nat.lt_of_lt_of_le gone.old new)
  old := Nat.lt_of_lt_of_le gone.old change.nextObject_le

/-- A change destroys only unused objects. -/
theorem Change.gone (change : Change rules out s s') (safe : Safe rel s)
    (gone : ∀ slot ∈ s.destroyed, Gone s slot) : ∀ slot ∈ s'.destroyed, Gone s' slot := by
  have later : ∀ slot ∈ s.destroyed, Gone s' slot :=
    fun slot inside => (gone slot inside).later change safe.tidy
  have same (destroyed : s'.destroyed = s.destroyed) : ∀ slot ∈ s'.destroyed, Gone s' slot := by
    rw [destroyed]
    exact later
  have swept {leaving : List Slot} (idle : ∀ slot ∈ leaving, isIdle slot.object = true)
      (swept : Swept s s' leaving) : ∀ slot ∈ s'.destroyed, Gone s' slot := by
    intro slot inside
    rcases List.mem_append.mp (swept.destroyed.mem_iff.mp inside) with leaves | before
    · refine ⟨idle slot leaves, fun stays => ?_, ?_⟩
      · have unique := (swept.live.map Slot.id).nodup_iff.mp safe.tidy.nodup
        rw [List.map_append, List.nodup_append] at unique
        exact unique.2.2 _ stays _ (List.mem_map_of_mem leaves) rfl
      · rw [swept.nextObject]
        exact safe.tidy.fresh slot (swept.live.mem_iff.mpr (List.mem_append_right _ leaves))
    · exact later slot before
  cases change with
  | silent still => exact same still.destroyed
  | @stillborn o idle =>
      refine List.forall_mem_cons.mpr ⟨⟨idle, ?_, Nat.lt_succ_self _⟩, later⟩
      exact safe.tidy.nextObject_notMem
  | unreadable found stored missing left =>
      refine swept (fun other inside => ?_) left
      rw [List.mem_singleton.mp inside]
      exact (safe.find_kept found).idle stored missing
  | sweep idle left => exact swept idle left
  | leave id user client =>
      refine same ?_
      unfold dropUser
      split <;> rfl
  | move redirects here present readable landed =>
      refine same ?_
      unfold moveUsers
      split <;> rfl
  | snapshot client here found owns =>
      refine same ?_
      unfold moveToSnapshot
      dsimp only
      split <;> rfl
  | turn | edit | store | born | bornUncached | revalidate | releaseCandidate | join =>
      exact same rfl

theorem Change.safe (change : Change rules out s s') (safe : Safe rel s) (tally : Ref.Tally rel)
    (full : ∀ url, out.storeData url none ≠ .ok)
    (loose : (∀ slot ∈ s.live, slot.object.fetch.fetch = none → slot.object.candidate = none) ∨
      ∀ {m n l : Nat}, rel m n → l ≤ m → rel l n) : Safe rel s' where
  tidy := change.tidy safe.tidy
  counted := change.counted safe tally loose
  kept := change.kept safe tally full
  held := change.held safe

theorem safe_initial (parameters : Parameters) :
    Safe rel (initial parameters) where
  tidy := tidy_initial parameters
  counted := Ref.counted_nil
  kept _ inside := (List.not_mem_nil inside).elim
  held _ _ here := by cases here

theorem safe_finalise : Safe rel (s.finalise out) where
  tidy := by
    constructor
    · rw [live_finalise]
      exact List.nodup_nil
    · rw [live_finalise]
      exact fun _ inside => (List.not_mem_nil inside).elim
  counted := by
    rw [refs, live_finalise]
    exact Ref.counted_nil
  kept := by
    rw [live_finalise]
    exact fun _ inside => (List.not_mem_nil inside).elim
  held handle value here := by
    rw [handles_finalise] at here
    cases here

end Candidates

section Destroyed

variable {rules : Rules} {out : Outside} {s s' : Cache}

/-- What is destroyed was unused, and nothing leads to it. -/
structure Sound (s : Cache) : Prop where
  safe : Safe (· ≤ ·) s
  gone : ∀ slot ∈ s.destroyed, Gone s slot

theorem Changes.sound (changes : Changes rules out s s') (sound : Sound s)
    (full : ∀ url, out.storeData url none ≠ .ok) : Sound s' := by
  induction changes with
  | refl => exact sound
  | tail _ change ih =>
      exact ⟨change.safe ih.safe Ref.tally_le full (Or.inr fun le less => Nat.le_trans less le),
        change.gone ih.safe ih.gone⟩

/-- A persistent object is as it was, but for the place where it is stored. -/
theorem persistLoop_objects {Good : LlcacheObject → Prop}
    (stored : ∀ o, Good o → Good (markStored o)) (list : List Slot) {written elapsed : Nat}
    (good : ∀ slot ∈ s.live, Good slot.object) :
    ∀ slot ∈ (persistLoop out written elapsed s list).live, Good slot.object := by
  induction list generalizing s written elapsed with
  | nil => exact good
  | cons slot rest ih =>
      have next : ∀ other ∈ (s.store slot).live, Good other.object := by
        rw [live_store]
        intro other inside
        obtain ⟨before, was, rfl⟩ := List.mem_map.mp inside
        unfold modifySlot
        split
        · exact stored _ (good before was)
        · exact good before was
      unfold persistLoop
      split
      · exact ih good
      · dsimp only
        split
        · exact next
        · split
          · exact next
          · exact ih next

/-- The end of the cache destroys only unused objects, when all are unused. -/
theorem sound_finalise (sound : Sound s) (full : ∀ url, out.storeData url none ≠ .ok)
    (unused : ∀ slot ∈ s.live, slot.object.users = [] ∧ slot.object.candidateCount = 0) :
    Sound (s.finalise out) := by
  have changes : Changes (stepRules out s .persist) out s (s.persist out) :=
    persist_changes sound.safe.tidy
  have persisted := changes.sound sound full
  have unused' : ∀ slot ∈ (s.persist out).live,
      slot.object.users = [] ∧ slot.object.candidateCount = 0 :=
    @persistLoop_objects out s (fun o => o.users = [] ∧ o.candidateCount = 0) (fun _ was => was)
      _ _ _ unused
  refine ⟨safe_finalise, fun slot inside => ?_⟩
  have absent : slot.id ∉ (s.finalise out).live.map Slot.id := by
    rw [live_finalise]
    exact List.not_mem_nil
  have next : (s.finalise out).nextObject = (s.persist out).nextObject := by
    unfold finalise
    dsimp only
    rw [destroyAll_eq]
  unfold finalise at inside
  dsimp only at inside
  rw [destroyAll_eq] at inside
  rcases List.mem_append.mp inside with last | before
  · obtain ⟨old, here, rfl⟩ := List.mem_map.mp (List.mem_reverse.mp last)
    have live : old ∈ (s.persist out).live :=
      (List.mem_append.mp here).elim (List.mem_append_right _) (List.mem_append_left _)
    obtain ⟨users, count⟩ := unused' old live
    refine ⟨isIdle_iff.mpr ⟨users, count, rfl⟩, absent, ?_⟩
    rw [next]
    exact persisted.safe.tidy.fresh old live
  · obtain ⟨idle, -, old⟩ := persisted.gone slot before
    exact ⟨idle, absent, next ▸ old⟩

/-- The backing store refuses objects without source data, and the cache ends when nothing is used
any more. -/
def StoresData (out : Outside) (s : Cache) (input : Input) : Prop :=
  (∀ url, out.storeData url none ≠ .ok) ∧
    (input = .finalise →
      ∀ slot ∈ s.live, slot.object.users = [] ∧ slot.object.candidateCount = 0)

theorem sound_step {input : Input} (sound : Sound s) (fits : StoresData out s input)
    (done : s.step out input = some s') : Sound s' := by
  by_cases last : input = .finalise
  · subst last
    rw [finalise_step done]
    exact sound_finalise sound fits.1 (fits.2 rfl)
  · exact (step_changes sound.safe.tidy last done).sound sound fits.1

/-- What is destroyed was unused, and neither a handle nor a revalidating object leads to it, when
the backing store refuses objects without source data, and the cache ends when nothing is
used any more. -/
theorem destroyed_unused (parameters : Parameters) (steps : List (Outside × Input))
    (meets : Meets StoresData (initial parameters) steps)
    (reached : (initial parameters).run steps = some s) :
    ∀ slot ∈ s.destroyed, isIdle slot.object = true ∧
      (∀ handle value, s.handles handle = some value → value.object ≠ slot.id) ∧
      ∀ other ∈ s.live, other.object.candidate ≠ some slot.id := by
  have first : Sound (initial parameters) :=
    ⟨safe_initial parameters, fun _ inside => (List.not_mem_nil inside).elim⟩
  have sound := run_keeps (fun out s input s' => sound_step) steps first meets reached
  intro slot inside
  obtain ⟨idle, absent, -⟩ := sound.gone slot inside
  refine ⟨idle, fun handle value here same => ?_, fun other live points => ?_⟩
  · obtain ⟨o, there, -⟩ := sound.safe.held handle value here
    rw [same] at there
    exact absent (List.mem_map.mpr ⟨_, there, rfl⟩)
  · have node : other.ref ∈ s.refs := List.mem_map_of_mem live
    have target := sound.safe.counted.closed _ node slot.id points
    rw [map_key_refs] at target
    exact absent target

/-- An object is retrieved, released and purged. -/
def purgeInputs : List Input :=
  [.handleRetrieve (urlOf "http://a/") 0 none none, .fetch 0 .finished, .handleRelease 0,
    .clean true]

/-- An object that is not used any more is destroyed by a purge. -/
theorem destroyed_unused_purge : ∃ s,
    (initial smallCache).run (within refusingOutside purgeInputs) = some s ∧
    s.destroyed.map Slot.id = [0] ∧
    ∀ slot ∈ s.destroyed, isIdle slot.object = true ∧
      (∀ handle value, s.handles handle = some value → value.object ≠ slot.id) ∧
      ∀ other ∈ s.live, other.object.candidate ≠ some slot.id := by
  have run : ((initial smallCache).run (within refusingOutside purgeInputs)).any
      (fun s => s.destroyed.map Slot.id == [0]) = true := by decide
  obtain ⟨s, reached, destroyed⟩ := exists_of_any _ run
  refine ⟨s, reached, eq_of_beq destroyed, destroyed_unused smallCache _ ?_ reached⟩
  refine meets_within fun input inside s => ⟨fun url => nofun, fun last => ?_⟩
  rw [last] at inside
  exact absurd inside (by decide)

/-- An empty object is written to the backing store while it has a user, and retrieved again. -/
def emptyInputs : List Input :=
  [.handleRetrieve (urlOf "http://a/") 0 none none,
    .fetch 0 (.header (str "Cache-Control: max-age=3600")), .fetch 0 .finished, .persist,
    .handleRetrieve (urlOf "http://a/") 0 none none]

/-- When the empty object cannot be read from the backing store, it is destroyed though it has
a user, and a handle still leads to it. -/
theorem destroy_used : ∃ s,
    (initial smallCache).run (within calmOutside emptyInputs) = some s ∧
    ∃ slot ∈ s.destroyed, isIdle slot.object = false ∧
      (s.handles 0).map Handle.object = some slot.id := by
  have run : ((initial smallCache).run (within calmOutside emptyInputs)).any
      (fun s => s.destroyed.any fun slot =>
        !isIdle slot.object && (s.handles 0).map Handle.object == some slot.id) = true := by
    decide
  obtain ⟨s, reached, destroyed⟩ := exists_of_any _ run
  obtain ⟨slot, inside, facts⟩ := List.any_eq_true.mp destroyed
  rw [Bool.and_eq_true, Bool.not_eq_true'] at facts
  exact ⟨s, reached, slot, inside, facts.1, eq_of_beq facts.2⟩

end Destroyed

end Neosurf.Llcache
