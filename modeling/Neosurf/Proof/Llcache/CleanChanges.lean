import Neosurf.Proof.Llcache.Frames

namespace Neosurf.Llcache

open Cache

variable {rules : Rules} {out : Outside} {s s' : Cache}

/-- A successful write hands the source data to the store. -/
theorem storeData_of_writeBackingStore {o : LlcacheObject} {written : Nat × Nat}
    (wrote : writeBackingStore out o = some written) : out.storeData o.url o.sourceData = .ok := by
  unfold writeBackingStore at wrote
  by_contra refused
  rw [if_pos refused] at wrote
  cases wrote

theorem still_of_isStorable {now lifetime : Int} {o : LlcacheObject}
    (storable : isStorable now lifetime o = true) : o.fetch.fetch = none := by
  simp only [isStorable, Bool.and_eq_true, decide_eq_true_eq] at storable
  exact storable.1.1.2

/-- A loop over objects that are as they were stores some of them. -/
theorem persistLoop_changes (list : List Slot) {written elapsed : Nat}
    (nodup : (list.map Slot.id).Nodup)
    (present : ∀ slot ∈ list, s.find slot.id = some slot.object ∧
      slot.object.fetch.fetch = none) :
    Changes rules out s (persistLoop out written elapsed s list) := by
  induction list generalizing s written elapsed with
  | nil => exact Relation.ReflTransGen.refl
  | cons slot rest ih =>
      rw [List.map_cons, List.nodup_cons] at nodup
      have later := List.forall_mem_cons.mp present
      unfold persistLoop
      cases wrote : writeBackingStore out slot.object with
      | none => exact ih nodup.2 later.2
      | some counts =>
          have stored : Change rules out s (s.store slot) :=
            Change.store later.1.1 later.1.2 (storeData_of_writeBackingStore wrote)
          dsimp only
          split
          · exact Relation.ReflTransGen.single stored
          · split
            · exact Relation.ReflTransGen.single stored
            · refine Relation.ReflTransGen.head stored (ih nodup.2 fun other inside => ?_)
              have apart : other.id ≠ slot.id := by
                intro same
                exact nodup.1 (List.mem_map.mpr ⟨other, inside, same⟩)
              obtain ⟨found, still⟩ := later.2 other inside
              exact ⟨(find_modify_other apart).trans found, still⟩

/-- Persisting stores some objects. -/
theorem persist_changes (tidy : Tidy s) : Changes rules out s (s.persist out) := by
  have sub : (candidateList out.clock.now s.parameters.minimumLifetime s.cachedObjects).Sublist
      s.live :=
    ((List.take_sublist _ _).trans List.filter_sublist).trans (List.sublist_append_left _ _)
  refine persistLoop_changes _ ((sub.map Slot.id).nodup tidy.nodup) fun slot inside => ?_
  refine ⟨find_of_mem tidy.nodup (sub.subset inside), ?_⟩
  exact still_of_isStorable (List.mem_filter.mp (List.mem_of_mem_take inside)).2

/-- An assignment changes one place of a list. -/
theorem map_modifySlot {list front back : List Slot} {slot : Slot}
    (change : LlcacheObject → LlcacheObject) (nodup : (list.map Slot.id).Nodup)
    (parts : list = front ++ slot :: back) :
    list.map (modifySlot slot.id change) =
      front ++ { slot with object := change slot.object } :: back := by
  subst parts
  rw [List.map_append, List.map_cons] at nodup
  have absent := (List.nodup_middle.mp nodup).notMem
  have others (part : List Slot) (inside : ∀ x ∈ part, x ∈ front ++ back) :
      part.map (modifySlot slot.id change) = part := by
    refine (List.map_congr_left fun x here => modifySlot_other fun same => ?_).trans (List.map_id' part)
    refine absent ?_
    rw [← List.map_append, ← same]
    exact List.mem_map_of_mem (inside x here)
  rw [List.map_append, List.map_cons, modifySlot_same rfl,
    others front fun _ => List.mem_append_left back,
    others back fun _ => List.mem_append_right front]

/-- Nothing is changed at a pointer that leads nowhere. -/
theorem map_modifySlot_of_notMem {list : List Slot} {id : ObjectId}
    (change : LlcacheObject → LlcacheObject) (absent : id ∉ list.map Slot.id) :
    list.map (modifySlot id change) = list := by
  refine (List.map_congr_left fun x here => modifySlot_other fun same => ?_).trans (List.map_id' list)
  exact absent (List.mem_map.mpr ⟨x, here, same⟩)

/-- An assignment to an object of the list of cached objects. -/
theorem modify_cached {front back : List Slot} {slot : Slot} (tidy : Tidy s)
    (change : LlcacheObject → LlcacheObject) (parts : s.cachedObjects = front ++ slot :: back) :
    s.modify slot.id change =
      { s with cachedObjects := front ++ { slot with object := change slot.object } :: back } := by
  have unique := tidy.nodup
  rw [live, List.map_append, List.nodup_append] at unique
  unfold Cache.modify
  rw [map_modifySlot change unique.1 parts, map_modifySlot_of_notMem]
  intro inside
  refine unique.2.2 slot.id ?_ slot.id inside rfl
  rw [parts, List.map_append, List.map_cons]
  exact List.mem_append_right _ (List.mem_cons_self ..)

/-- The cache with another list of cached objects. -/
def withCached (s : Cache) (cachedObjects : List Slot) : Cache := { s with cachedObjects }

/-- Releasing source data changes some objects of the list of cached objects. -/
theorem releasePass_changes (limit : UInt32)
    (permits : ∀ id o, rules.permits id o .release) (list front : List Slot) (size : UInt32)
    (tidy : Tidy (withCached s (front ++ list))) :
    Changes rules out (withCached s (front ++ list))
      (withCached s (front ++ (releasePass limit list size).1)) := by
  induction list generalizing front size with
  | nil => exact Relation.ReflTransGen.refl
  | cons slot rest ih =>
      have grow (slot : Slot) (tail : List Slot) :
          front ++ slot :: tail = (front ++ [slot]) ++ tail := by
        rw [List.append_assoc]
        rfl
      by_cases full : limit < size
      · by_cases backed : isBacked slot.object = true
        · have found : (withCached s (front ++ slot :: rest)).find slot.id = some slot.object :=
            find_of_mem tidy.nodup (List.mem_append_left _
              (List.mem_append_right _ (List.mem_cons_self ..)))
          have edit : Change rules out (withCached s (front ++ slot :: rest))
              (withCached s ((front ++ [releaseData slot]) ++ rest)) := by
            have step := @Change.edit rules out _ _ _ .release found backed
              (permits slot.id slot.object)
            rw [modify_cached tidy _ rfl] at step
            rw [← grow]
            exact step
          rw [releasePass, if_pos full, if_pos backed]
          dsimp only
          rw [grow (releaseData slot)]
          exact Relation.ReflTransGen.head edit (ih _ _ (edit.tidy tidy))
        · rw [releasePass, if_pos full, if_neg backed]
          dsimp only
          rw [grow slot rest] at tidy ⊢
          rw [grow slot (releasePass limit rest size).1]
          exact ih _ _ tidy
      · rw [releasePass, if_neg full]

/-- A loop that discards objects splits the list. -/
theorem discardPass_perm (limit : UInt32) (select : LlcacheObject → Bool)
    (weight : LlcacheObject → UInt32) (list : List Slot) (size : UInt32) :
    list.Perm ((discardPass limit select weight list size).kept ++
      (discardPass limit select weight list size).gone) := by
  induction list generalizing size with
  | nil => exact List.Perm.refl _
  | cons slot rest ih =>
      by_cases full : limit < size
      · by_cases selected : select slot.object = true
        · have parts := (ih (size - weight slot.object)).cons slot
          rw [discardPass, if_pos full, if_pos selected]
          exact parts.trans List.perm_middle.symm
        · have parts := (ih size).cons slot
          rw [discardPass, if_pos full, if_neg selected]
          exact parts
      · rw [discardPass, if_neg full, List.append_nil]

/-- A loop discards only what it selects. -/
theorem discardPass_selected {limit : UInt32} {select : LlcacheObject → Bool}
    {weight : LlcacheObject → UInt32} (list : List Slot) (size : UInt32) :
    ∀ slot ∈ (discardPass limit select weight list size).gone, select slot.object = true := by
  induction list generalizing size with
  | nil => exact fun slot inside => (List.not_mem_nil inside).elim
  | cons slot rest ih =>
      by_cases full : limit < size
      · by_cases selected : select slot.object = true
        · have gone := ih (size - weight slot.object)
          rw [discardPass, if_pos full, if_pos selected]
          exact List.forall_mem_cons.mpr ⟨selected, gone⟩
        · have gone := ih size
          rw [discardPass, if_pos full, if_neg selected]
          exact gone
      · rw [discardPass, if_neg full]
        exact fun slot inside => (List.not_mem_nil inside).elim

theorem destroyAll_eq (gone : List Slot) : s.destroyAll gone =
    { s with destroyed := gone.reverse ++ s.destroyed } := by
  induction gone generalizing s with
  | nil => rfl
  | cons slot rest ih =>
      rw [destroyAll, List.foldl_cons, ← destroyAll, ih, List.reverse_cons, List.append_assoc]
      rfl

theorem isIdle_of_isStale {now : Int} {o : LlcacheObject} (stale : isStale now o = true) :
    isIdle o = true := (Bool.and_eq_true_iff.mp stale).1

theorem isIdle_of_isBackedMetadata {o : LlcacheObject} (backed : isBackedMetadata o = true) :
    isIdle o = true := (Bool.and_eq_true_iff.mp (Bool.and_eq_true_iff.mp backed).1).1

theorem isIdle_of_isUnbacked {o : LlcacheObject} (unbacked : isUnbacked o = true) :
    isIdle o = true := (Bool.and_eq_true_iff.mp unbacked).1

/-- Unused uncached objects are swept. -/
theorem swept_uncached (s : Cache) (kept gone : List Slot)
    (parts : s.uncachedObjects.Perm (kept ++ gone)) :
    Swept s ({ s with uncachedObjects := kept }.destroyAll gone) gone := by
  rw [destroyAll_eq]
  refine ⟨?_, (List.reverse_perm gone).append_right _, rfl, rfl, rfl, rfl⟩
  show (s.cachedObjects ++ s.uncachedObjects).Perm ((s.cachedObjects ++ kept) ++ gone)
  rw [List.append_assoc]
  exact parts.append_left s.cachedObjects

/-- Unused cached objects are swept. -/
theorem swept_cached (s : Cache) (kept gone : List Slot)
    (parts : s.cachedObjects.Perm (kept ++ gone)) :
    Swept s ({ s with cachedObjects := kept }.destroyAll gone) gone := by
  rw [destroyAll_eq]
  refine ⟨?_, (List.reverse_perm gone).append_right _, rfl, rfl, rfl, rfl⟩
  show (s.cachedObjects ++ s.uncachedObjects).Perm ((kept ++ s.uncachedObjects) ++ gone)
  refine (parts.append_right _).trans ?_
  rw [List.append_assoc, List.append_assoc]
  exact List.perm_append_comm.append_left kept

/-- A list consists of what a filter keeps and what it leaves out. -/
theorem perm_filter_not (p : Slot → Bool) (list : List Slot) :
    list.Perm ((list.filter fun slot => !p slot) ++ list.filter p) :=
  (List.filter_append_perm p list).symm.trans List.perm_append_comm

theorem destroyAll_destroyAll (first second : List Slot) :
    (s.destroyAll first).destroyAll second = s.destroyAll (first ++ second) := by
  rw [destroyAll, destroyAll, destroyAll, List.foldl_append]

theorem sweep_uncached : Change rules out s ({ s with
    uncachedObjects := s.uncachedObjects.filter fun slot => !isIdle slot.object }.destroyAll
      (s.uncachedObjects.filter fun slot => isIdle slot.object)) :=
  Change.sweep (fun _ inside => (List.mem_filter.mp inside).2)
    (swept_uncached s _ _ (perm_filter_not (fun slot => isIdle slot.object) s.uncachedObjects))

theorem sweep_cached (now : Int) : Change rules out s ({ s with
    cachedObjects := s.cachedObjects.filter fun slot => !isStale now slot.object }.destroyAll
      (s.cachedObjects.filter fun slot => isStale now slot.object)) :=
  Change.sweep (fun _ inside => isIdle_of_isStale (List.mem_filter.mp inside).2)
    (swept_cached s _ _ (perm_filter_not (fun slot => isStale now slot.object) s.cachedObjects))

/-- The first loops of the cleaning sweep unused objects. -/
theorem dropUnused_changes (now : Int) : Changes rules out s (s.dropUnused now) :=
  Relation.ReflTransGen.head sweep_uncached (Relation.ReflTransGen.single (sweep_cached now))

/-- What two loops leave and discard makes up the list. -/
theorem perm_parts {list kept kept' gone gone' : List Slot} (first : list.Perm (kept ++ gone))
    (second : kept.Perm (kept' ++ gone')) : list.Perm (kept' ++ (gone ++ gone')) := by
  refine first.trans ((second.append_right gone).trans ?_)
  rw [List.append_assoc]
  exact List.perm_append_comm.append_left kept'

/-- The last loops of the cleaning release source data and sweep unused objects. -/
theorem shrink_changes (permits : ∀ id o, rules.permits id o .release) (limit size : UInt32)
    (tidy : Tidy s) : Changes rules out s (s.shrink out limit size).1 := by
  have released : Changes rules out s (withCached s (releasePass limit s.cachedObjects size).1) :=
    releasePass_changes limit permits s.cachedObjects [] size tidy
  unfold shrink
  dsimp only
  rw [destroyAll_destroyAll]
  refine Relation.ReflTransGen.tail released (Change.sweep ?_ (swept_cached (withCached s _) _ _ ?_))
  · intro slot inside
    rcases List.mem_append.mp inside with backed | unbacked
    · exact isIdle_of_isBackedMetadata (discardPass_selected _ _ slot backed)
    · exact isIdle_of_isUnbacked (discardPass_selected _ _ slot unbacked)
  · exact perm_parts (discardPass_perm _ _ _ _ _) (discardPass_perm _ _ _ _ _)

/-- The cleaning stores objects, releases source data and sweeps unused objects. -/
theorem clean_changes (permits : ∀ id o, rules.permits id o .release) (purge : Bool)
    (tidy : Tidy s) : Changes rules out s (s.clean out purge) := by
  have first : Changes rules out s (s.dropUnused out.clock.now) := dropUnused_changes _
  unfold Cache.clean cleanSize
  dsimp only
  split
  · have second : Changes rules out s ((s.dropUnused out.clock.now).persist out) :=
      first.trans (persist_changes (first.tidy tidy))
    exact second.trans (shrink_changes permits _ _ (second.tidy tidy))
  · exact first.trans (shrink_changes permits _ _ (first.tidy tidy))

end Neosurf.Llcache
