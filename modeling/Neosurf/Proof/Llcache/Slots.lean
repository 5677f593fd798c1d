import Neosurf.Construction.Llcache.FetchEvents
import Neosurf.ToMathlib.RefPool

namespace Neosurf.Llcache

open Cache

variable {s : Cache} {id other : ObjectId} {change : LlcacheObject → LlcacheObject}
  {o : LlcacheObject} {slot : Slot}

@[simp] theorem modifySlot_id : (modifySlot id change slot).id = slot.id := by
  unfold modifySlot
  split <;> rfl

theorem modifySlot_same (here : slot.id = id) :
    modifySlot id change slot = { slot with object := change slot.object } := if_pos here

theorem modifySlot_other (apart : slot.id ≠ id) : modifySlot id change slot = slot := if_neg apart

/-- The object that an assignment is about. -/
theorem mem_map_modifySlot {list : List Slot} (inside : ⟨id, o⟩ ∈ list) :
    ⟨id, change o⟩ ∈ list.map (modifySlot id change) := by
  have moved : modifySlot id change ⟨id, o⟩ ∈ list.map (modifySlot id change) :=
    List.mem_map_of_mem inside
  rwa [modifySlot_same (show (Slot.mk id o).id = id from rfl)] at moved

@[simp] theorem setHandle_self (handle : Nat) (value : Option Handle) :
    (s.setHandle handle value).handles handle = value := if_pos rfl

theorem setHandle_other {handle other : Nat} {value : Option Handle} (apart : other ≠ handle) :
    (s.setHandle handle value).handles other = s.handles other := if_neg apart

@[simp] theorem live_modify : (s.modify id change).live = s.live.map (modifySlot id change) := by
  rw [live, live, List.map_append]
  rfl

theorem map_id_modify : (s.modify id change).live.map Slot.id = s.live.map Slot.id := by
  rw [live_modify, List.map_map]
  exact List.map_congr_left fun slot _ => modifySlot_id

/-- A pointer leads to a live object. -/
theorem mem_of_find (found : s.find id = some o) : ⟨id, o⟩ ∈ s.live := by
  rw [find, Option.map_eq_some_iff] at found
  obtain ⟨slot, looked, rfl⟩ := found
  have same : slot.id = id := by simpa using List.find?_some looked
  rw [← same]
  exact List.mem_of_find?_eq_some looked

/-- A live object is found by its pointer, when pointers are unique. -/
theorem find_of_mem (nodup : (s.live.map Slot.id).Nodup) (inside : slot ∈ s.live) :
    s.find slot.id = some slot.object := by
  rw [find, Option.map_eq_some_iff]
  refine ⟨slot, ?_, rfl⟩
  rw [List.find?_eq_some_iff_append]
  obtain ⟨front, back, shape⟩ := List.append_of_mem inside
  refine ⟨by simp, front, back, shape, fun earlier before => ?_⟩
  rw [shape, List.map_append, List.map_cons] at nodup
  have apart : earlier.id ≠ slot.id := by
    intro same
    refine (List.nodup_middle.mp nodup).notMem ?_
    exact List.mem_append_left _ (List.mem_map.mpr ⟨earlier, before, same⟩)
  simpa using apart

theorem find_isSome_iff : (∃ o, s.find id = some o) ↔ id ∈ s.live.map Slot.id := by
  constructor
  · rintro ⟨o, found⟩
    exact List.mem_map.mpr ⟨_, mem_of_find found, rfl⟩
  · intro inside
    obtain ⟨slot, here, same⟩ := List.mem_map.mp inside
    rw [find]
    cases looked : s.live.find? fun slot => slot.id == id with
    | none =>
        rw [List.find?_eq_none] at looked
        exact absurd (by simpa using same) (looked slot here)
    | some found => exact ⟨found.object, rfl⟩

theorem find_modify : (s.modify id change).find other =
    (s.find other).map fun o => if other = id then change o else o := by
  rw [find, find, live_modify, List.find?_map, Option.map_map, Option.map_map]
  have same : ((fun slot : Slot => slot.id == other) ∘ modifySlot id change) =
      fun slot => slot.id == other := by
    funext slot
    simp
  rw [same]
  cases looked : s.live.find? fun slot => slot.id == other with
  | none => rfl
  | some slot =>
      have here : slot.id = other := by simpa using List.find?_some looked
      simp only [Option.map_some, Function.comp_apply, Option.some.injEq]
      rw [modifySlot, here]
      split <;> rfl

theorem find_modify_self (found : s.find id = some o) :
    (s.modify id change).find id = some (change o) := by
  rw [find_modify, found, Option.map_some, if_pos rfl]

theorem find_modify_other (apart : other ≠ id) :
    (s.modify id change).find other = s.find other := by
  rw [find_modify]
  cases s.find other with
  | none => rfl
  | some o => rw [Option.map_some, if_neg apart]

/-- Two changes of one object are one change. -/
theorem modify_modify (after : LlcacheObject → LlcacheObject) :
    (s.modify id change).modify id after = s.modify id (after ∘ change) := by
  have twice : modifySlot id after ∘ modifySlot id change = modifySlot id (after ∘ change) := by
    funext slot
    by_cases here : slot.id = id
    · rw [Function.comp_apply, modifySlot_same here, modifySlot_same here]
      exact modifySlot_same here
    · rw [Function.comp_apply, modifySlot_other here, modifySlot_other here, modifySlot_other here]
  simp only [Cache.modify, List.map_map, twice]

theorem modify_id (same : ∀ o, change o = o) : s.modify id change = s := by
  have kept : modifySlot id change = fun slot => slot := by
    funext slot
    unfold modifySlot
    rw [same]
    split <;> rfl
  simp only [Cache.modify, kept, List.map_id']

/-- Pointers are unique, and later objects get other ones. -/
structure Tidy (s : Cache) : Prop where
  nodup : (s.live.map Slot.id).Nodup
  fresh : ∀ slot ∈ s.live, slot.id < s.nextObject

/-- The next pointer is new. -/
theorem Tidy.nextObject_notMem (tidy : Tidy s) : s.nextObject ∉ s.live.map Slot.id := by
  intro inside
  obtain ⟨slot, here, same⟩ := List.mem_map.mp inside
  have below := tidy.fresh slot here
  rw [same] at below
  exact Nat.lt_irrefl _ below

/-- The pointers stay unique when no pointer is new. -/
theorem Tidy.of_ids {s' : Cache} (tidy : Tidy s)
    (ids : (s'.live.map Slot.id).Perm (s.live.map Slot.id))
    (next : s.nextObject ≤ s'.nextObject) : Tidy s' where
  nodup := ids.nodup_iff.mpr tidy.nodup
  fresh slot inside := by
    have before := ids.mem_iff.mp (List.mem_map_of_mem inside)
    obtain ⟨old, here, same⟩ := List.mem_map.mp before
    have below := tidy.fresh old here
    rw [same] at below
    exact Nat.lt_of_lt_of_le below next

/-- The pointers stay unique when the next one is used. -/
theorem Tidy.of_next {s' : Cache} (tidy : Tidy s)
    (ids : (s'.live.map Slot.id).Perm (s.nextObject :: s.live.map Slot.id))
    (next : s'.nextObject = s.nextObject + 1) : Tidy s' where
  nodup := ids.nodup_iff.mpr (List.nodup_cons.mpr ⟨tidy.nextObject_notMem, tidy.nodup⟩)
  fresh slot inside := by
    rw [next]
    rcases List.mem_cons.mp (ids.mem_iff.mp (List.mem_map_of_mem inside)) with same | before
    · rw [same]
      exact Nat.lt_succ_self _
    · obtain ⟨old, here, same⟩ := List.mem_map.mp before
      rw [← same]
      exact Nat.lt_succ_of_lt (tidy.fresh old here)

/-- The pointers stay unique when objects leave. -/
theorem Tidy.of_gone {s' : Cache} {gone : List Slot} (tidy : Tidy s)
    (live : s.live.Perm (s'.live ++ gone)) (next : s'.nextObject = s.nextObject) : Tidy s' where
  nodup := by
    have whole := (live.map Slot.id).nodup_iff.mp tidy.nodup
    rw [List.map_append] at whole
    exact (List.nodup_append.mp whole).1
  fresh slot inside := by
    rw [next]
    exact tidy.fresh slot (live.mem_iff.mpr (List.mem_append_left gone inside))

@[simp] theorem live_setHandle (handle : Nat) (value : Option Handle) :
    (s.setHandle handle value).live = s.live := rfl

@[simp] theorem live_destroy : (s.destroy slot).live = s.live := rfl

@[simp] theorem live_store : (s.store slot).live = s.live.map (modifySlot slot.id markStored) :=
  live_modify

@[simp] theorem live_dropUser (now : Int) (user : ObjectUser) :
    (s.dropUser now id user).live = s.live.map (modifySlot id (removeUser now user)) := by
  unfold dropUser
  split <;> exact live_modify

@[simp] theorem live_addUser (user : ObjectUser) (handle : Handle) :
    (s.addUser id user handle).live = s.live.map (modifySlot id (pushUser user)) := live_modify

@[simp] theorem nextObject_modify : (s.modify id change).nextObject = s.nextObject := rfl

@[simp] theorem nextObject_dropUser (now : Int) (user : ObjectUser) :
    (s.dropUser now id user).nextObject = s.nextObject := by
  unfold dropUser
  split <;> rfl

@[simp] theorem handles_modify : (s.modify id change).handles = s.handles := rfl

/-- The live objects after the users of one moved to another one. -/
theorem live_moveUsers {now : Int} {source target : ObjectId} {redirects : Nat}
    (found : s.find source = some o) :
    (s.moveUsers now source target redirects).live =
      ((s.modify source (dropUsers now)).modify target (takeUsers o.users)).live := by
  unfold moveUsers
  rw [found]
  rfl

@[simp] theorem nextObject_moveUsers {now : Int} {source target : ObjectId} {redirects : Nat} :
    (s.moveUsers now source target redirects).nextObject = s.nextObject := by
  unfold moveUsers
  split <;> rfl

/-- The new object of a snapshot with its user. -/
def snapshotSlot (s : Cache) (user : ObjectUser) (o : LlcacheObject) : Slot :=
  ⟨s.nextObject, pushUser (if user.iteratorTarget then { handle := user.handle } else user)
    (snapshot o)⟩

/-- What a snapshot does to the users of the old object. -/
def snapshotUsers (now : Int) (user : ObjectUser) : LlcacheObject → LlcacheObject :=
  if user.iteratorTarget then changeUser user.handle loseHandle else removeUser now user

/-- The live objects after a snapshot. -/
theorem live_moveToSnapshot (tidy : Tidy s) {now : Int} {user : ObjectUser} {handle : Handle}
    (found : s.find handle.object = some o) :
    (s.moveToSnapshot now user handle o).live.Perm
      (snapshotSlot s user o :: s.live.map (modifySlot handle.object (snapshotUsers now user))) := by
  have older : handle.object ≠ s.nextObject := by
    have below := tidy.fresh _ (mem_of_find found)
    exact Nat.ne_of_lt below
  have others (slot : Slot) (inside : slot ∈ s.live) (change : LlcacheObject → LlcacheObject) :
      modifySlot s.nextObject change (modifySlot handle.object (snapshotUsers now user) slot) =
        modifySlot handle.object (snapshotUsers now user) slot := by
    refine modifySlot_other ?_
    rw [modifySlot_id]
    exact Nat.ne_of_lt (tidy.fresh slot inside)
  have pushed (new : ObjectUser) :
      (((⟨s.nextObject, snapshot o⟩ :: s.live).map
        (modifySlot handle.object (snapshotUsers now user))).map
          (modifySlot s.nextObject (pushUser new))) =
      ⟨s.nextObject, pushUser new (snapshot o)⟩ ::
        s.live.map (modifySlot handle.object (snapshotUsers now user)) := by
    have kept : modifySlot handle.object (snapshotUsers now user) ⟨s.nextObject, snapshot o⟩ =
        ⟨s.nextObject, snapshot o⟩ := modifySlot_other older.symm
    have grown : modifySlot s.nextObject (pushUser new) ⟨s.nextObject, snapshot o⟩ =
        ⟨s.nextObject, pushUser new (snapshot o)⟩ := modifySlot_same rfl
    rw [List.map_cons, List.map_cons, kept, grown, List.map_map]
    congr 1
    exact List.map_congr_left fun slot inside => others slot inside _
  unfold moveToSnapshot snapshotSlot
  by_cases targeted : user.iteratorTarget = true
  · simp only [targeted, if_true, live_addUser, live_modify]
    rw [← pushed]
    refine ((List.perm_middle.map _).map _).trans ?_
    simp only [snapshotUsers, targeted, if_true]
    exact List.Perm.refl _
  · simp only [targeted, Bool.false_eq_true, if_false, live_addUser, live_modify]
    rw [← pushed]
    refine ((List.perm_middle.map _).map _).trans ?_
    simp only [snapshotUsers, targeted, Bool.false_eq_true, if_false]
    exact List.Perm.refl _

/-- What counts about the candidates: the pointer of an object, its candidate and its count. -/
def Slot.ref (slot : Slot) : Ref ObjectId :=
  ⟨slot.id, slot.object.candidate, slot.object.candidateCount⟩

/-- The objects of the cache as nodes with pointers. -/
def Cache.refs (s : Cache) : List (Ref ObjectId) := s.live.map Slot.ref

theorem map_key_refs : s.refs.map Ref.key = s.live.map Slot.id := by
  rw [refs, List.map_map]
  rfl

/-- A change that keeps the candidate and the count does not show. -/
theorem refs_modify (tidy : Tidy s)
    (kept : ∀ o, s.find id = some o →
      (change o).candidate = o.candidate ∧ (change o).candidateCount = o.candidateCount) :
    (s.modify id change).refs = s.refs := by
  rw [refs, refs, live_modify, List.map_map]
  refine List.map_congr_left fun slot inside => ?_
  by_cases here : slot.id = id
  · obtain ⟨candidate, count⟩ := kept slot.object (here ▸ find_of_mem tidy.nodup inside)
    rw [Function.comp_apply, modifySlot_same here, Slot.ref, Slot.ref, candidate, count]
  · rw [Function.comp_apply, modifySlot_other here]

theorem refs_recount (count : Nat → Nat) :
    (s.modify id (recount count)).refs = s.refs.map (Ref.recount id count) := by
  rw [refs, refs, live_modify, List.map_map, List.map_map]
  refine List.map_congr_left fun slot _ => ?_
  by_cases here : slot.id = id
  · rw [Function.comp_apply, modifySlot_same here, Function.comp_apply, Ref.recount,
      if_pos (show (Slot.ref slot).key = id from here)]
    rfl
  · rw [Function.comp_apply, modifySlot_other here, Function.comp_apply, Ref.recount,
      if_neg (show (Slot.ref slot).key ≠ id from here)]

theorem refs_dropCandidate :
    (s.modify id dropCandidate).refs = s.refs.map (Ref.detach id) := by
  rw [refs, refs, live_modify, List.map_map, List.map_map]
  refine List.map_congr_left fun slot _ => ?_
  by_cases here : slot.id = id
  · rw [Function.comp_apply, modifySlot_same here, Function.comp_apply, Ref.detach,
      if_pos (show (Slot.ref slot).key = id from here)]
    rfl
  · rw [Function.comp_apply, modifySlot_other here, Function.comp_apply, Ref.detach,
      if_neg (show (Slot.ref slot).key ≠ id from here)]

end Neosurf.Llcache
