import Neosurf.Proof.Llcache.Frames
import Neosurf.Proof.Llcache.Metadata

namespace Neosurf.Llcache

open Cache

variable {rules : Rules} {out : Outside} {s s' : Cache} {retrieval : Retrieval} {o o' : LlcacheObject}

/-- A new object before its fetch. -/
structure Unborn (url : Nsurl) (o : LlcacheObject) : Prop where
  url : o.url = url
  users : o.users = []
  candidateCount : o.candidateCount = 0
  fetch : o.fetch.fetch = none
  storeState : o.storeState = .ram

theorem unborn_newObject (url : Nsurl) : Unborn url (newObject url) := ⟨rfl, rfl, rfl, rfl, rfl⟩

/-- The start of a fetch gives its object to the cache, or leaves it without use. -/
theorem objectFetch_unborn {parameters : Parameters} (unborn : Unborn retrieval.url o) :
    (objectFetch out parameters retrieval o).2.candidate = o.candidate ∧
      ((objectFetch out parameters retrieval o).1 = .ok →
        Newborn retrieval (objectFetch out parameters retrieval o).2 ∧
          (objectFetch out parameters retrieval o).2.fetch.fetch ≠ none) ∧
      ((objectFetch out parameters retrieval o).1 ≠ .ok →
        isIdle (objectFetch out parameters retrieval o).2 = true) := by
  unfold objectFetch
  obtain ⟨fetch, same, ok, failed⟩ := refetch_frame out { o with
    fetch := { o.fetch with
      flags := retrieval.flags
      referer := retrieval.referer
      post := retrieval.post
      redirectCount := retrieval.redirectCount
      retriesRemaining := parameters.fetchAttempts
      hstsInUse := retrieval.hstsInUse } }
  rw [same]
  refine ⟨rfl, fun done => ?_, fun error => ?_⟩
  · refine ⟨?_, ok done⟩
    exact {
      url := unborn.url
      users := unborn.users
      candidateCount := unborn.candidateCount
      redirectCount := rfl
      hstsInUse := fun _ => rfl
      noCache := fun _ => rfl
      stored := fun disc => by
        have ram := unborn.storeState
        rw [show o.storeState = .disc from disc] at ram
        cases ram
      ready := Or.inl (ok done) }
  · have still : fetch = none := (failed error).trans unborn.fetch
    simp [isIdle, still, unborn.users, unborn.candidateCount]

/-- Metadata changes the headers and the cache data of an object, and when it is read with success,
its source, its certificates and where it is stored. -/
theorem llcacheProcessMetadata_frame {clock : Clock} {junk : Nsurl.Buff}
    {stored : Except Nserror Bytes} {error : Nserror}
    (done : llcacheProcessMetadata clock junk stored o = some (error, o')) :
    (∃ cache headers, o' = { o with cache, headers }) ∨
      error = .ok ∧ ∃ cache headers metadatalen front chain,
        o' = updateObject { o with cache, headers } metadatalen front chain := by
  unfold llcacheProcessMetadata at done
  split at done
  · cases done
    exact Or.inl ⟨_, _, rfl⟩
  · split at done
    · rw [fail_eq_some done]
      exact Or.inl ⟨_, _, rfl⟩
    · split at done
      · rw [fail_eq_some done]
        exact Or.inl ⟨_, _, rfl⟩
      · rename_i lines _ _
        have frame := (foldl_processHeader_frame clock lines o).1
        dsimp only at done
        split at done
        · rw [fail_eq_some done]
          exact Or.inl ⟨_, _, frame⟩
        · cases done
          rw [frame]
          exact Or.inr ⟨rfl, _, _, _, _, _, rfl⟩

/-- An object from the backing store is complete, and otherwise it is still to be fetched. -/
theorem fetchPersistent_unborn {error : Nserror} (unborn : Unborn retrieval.url o)
    (loose : o.candidate = none) (done : fetchPersistent out retrieval o = some (error, o')) :
    o'.candidate = none ∧
      (error = .ok → Newborn retrieval o' ∧ o'.fetch.fetch = none) ∧
      (error ≠ .ok → Unborn retrieval.url o') := by
  unfold fetchPersistent at done
  dsimp only at done
  split at done
  · cases done
    exact ⟨loose, fun never => Nserror.noConfusion never, fun _ => unborn⟩
  · split at done
    · cases done
    · rename_i code read answer
      have frame := llcacheProcessMetadata_frame answer
      split at done
      · rename_i failed
        cases done
        rcases frame with ⟨cache, headers, rfl⟩ | ⟨ok, -⟩
        · exact ⟨loose, fun done => absurd done failed, fun _ =>
            ⟨unborn.url, unborn.users, unborn.candidateCount, unborn.fetch, unborn.storeState⟩⟩
        · exact absurd ok failed
      · cases done
        refine ⟨?_, fun _ => ⟨?_, rfl⟩, fun never => absurd rfl never⟩
        · rcases frame with ⟨cache, headers, rfl⟩ | ⟨-, cache, headers, length, front, chain, rfl⟩
          · exact loose
          · exact loose
        · have never {p : Prop} (running : (none : Option Fetch) ≠ none) : p := absurd rfl running
          rcases frame with ⟨cache, headers, rfl⟩ | ⟨-, cache, headers, length, front, chain, rfl⟩
          · exact ⟨unborn.url, unborn.users, unborn.candidateCount, rfl, never, never,
              fun _ => rfl, Or.inr loose⟩
          · exact ⟨unborn.url, unborn.users, unborn.candidateCount, rfl, never, never,
              fun _ => rfl, Or.inr loose⟩

/-- The object that answers a retrieval is there, with its data, and is new, at rest, or the newest
object of its URL as it was. -/
def Answers (retrieval : Retrieval) (s s' : Cache) (id : ObjectId) : Prop :=
  ∃ o, s'.find id = some o ∧ Readable o ∧
    (o.fetch.fetch = none ∨ o.fetch.redirectCount = retrieval.redirectCount ∨
      ∃ found, newest retrieval.url s.cachedObjects = some found ∧ o.fetch = found.object.fetch)

/-- A newborn object answers. -/
theorem answers_newborn {id : ObjectId} (new : Newborn retrieval o) (running : o.fetch.fetch ≠ none)
    (found : s'.find id = some o) : Answers retrieval s s' id :=
  ⟨o, found, Or.inr fun stored => running (new.stored stored), Or.inr (Or.inl new.redirectCount)⟩

theorem find_born (slot : Slot) (next : ObjectId) :
    Cache.find { s with nextObject := next, cachedObjects := slot :: s.cachedObjects } slot.id =
      some slot.object := by
  rw [find, live_born, List.find?_cons_of_pos (by simp), Option.map_some]

/-- The fetch of a new object adds it or destroys it. -/
theorem fetchCached_changes (asked : rules.asks retrieval) (unborn : Unborn retrieval.url o)
    (loose : o.candidate = none) :
    Changes rules out s (s.fetchCached out retrieval o).1 ∧
      ∀ s₀ id, (s.fetchCached out retrieval o).2 = .ok id →
        Answers retrieval s₀ (s.fetchCached out retrieval o).1 id := by
  obtain ⟨candidate, started, failed⟩ :=
    @objectFetch_unborn out retrieval o s.parameters unborn
  unfold fetchCached
  dsimp only
  by_cases ok : (objectFetch out s.parameters retrieval o).1 = .ok
  · obtain ⟨new, running⟩ := started ok
    rw [if_neg (not_not.mpr ok)]
    refine ⟨Relation.ReflTransGen.single (Change.born asked new (candidate.trans loose)), ?_⟩
    intro s₀ id same
    cases same
    exact answers_newborn new running (find_born _ _)
  · rw [if_pos ok]
    exact ⟨Relation.ReflTransGen.single (Change.stillborn (failed ok)),
      fun _ _ same => by cases same⟩

/-- A count that goes up and down again is as it was. -/
theorem modify_recount_cancel (id : ObjectId) :
    (s.modify id (recount (· + 1))).modify id (recount (· - 1)) = s := by
  rw [modify_modify]
  exact modify_id fun o => rfl

/-- A failed revalidation leaves the count of the candidate as it was. -/
theorem revalidate_eq (candidate : Slot) {answer : Nserror × LlcacheObject}
    (fetched : objectFetch out s.parameters retrieval (validator retrieval.url candidate) = answer) :
    s.revalidate out retrieval candidate =
      if answer.1 ≠ .ok then
        ({ s with nextObject := s.nextObject + 1,
                  destroyed := ⟨s.nextObject, answer.2⟩ :: s.destroyed }, .error answer.1)
      else
        ({ s.modify candidate.id (recount (· + 1)) with
            nextObject := s.nextObject + 1
            cachedObjects := ⟨s.nextObject, answer.2⟩ ::
              (s.modify candidate.id (recount (· + 1))).cachedObjects }, .ok s.nextObject) := by
  subst fetched
  unfold Cache.revalidate
  dsimp only
  rw [modify_recount_cancel]
  rfl

/-- The revalidation of a readable object adds a new object or destroys it. -/
theorem revalidate_changes {candidate : Slot} {found : LlcacheObject}
    (asked : rules.asks retrieval) (present : s.find candidate.id = some found)
    (readable : Readable found) :
    Changes rules out s (s.revalidate out retrieval candidate).1 ∧
      ∀ s₀ id, (s.revalidate out retrieval candidate).2 = .ok id →
        Answers retrieval s₀ (s.revalidate out retrieval candidate).1 id := by
  have unborn : Unborn retrieval.url (validator retrieval.url candidate) :=
    ⟨rfl, rfl, rfl, rfl, rfl⟩
  obtain ⟨points, started, failed⟩ :=
    @objectFetch_unborn out retrieval _ s.parameters unborn
  rw [revalidate_eq candidate rfl]
  by_cases ok : (objectFetch out s.parameters retrieval
      (validator retrieval.url candidate)).1 = .ok
  · obtain ⟨new, running⟩ := started ok
    rw [if_neg (not_not.mpr ok)]
    refine ⟨Relation.ReflTransGen.single
      (Change.revalidate asked new points present readable), ?_⟩
    intro s₀ id same
    cases same
    exact answers_newborn new running (@find_born (s.modify candidate.id _) _ _)
  · rw [if_pos ok]
    exact ⟨Relation.ReflTransGen.single (Change.stillborn (failed ok)),
      fun _ _ same => by cases same⟩

/-- An unreadable object is swept from the list of cached objects. -/
theorem swept_removeCached (tidy : Tidy s) {found : Slot} (inside : found ∈ s.cachedObjects) :
    Swept s ((s.removeCached found.id).destroy found) [found] := by
  refine ⟨?_, List.Perm.refl _, rfl, rfl, rfl, rfl⟩
  obtain ⟨front, back, parts⟩ := List.append_of_mem inside
  have unique := tidy.nodup
  rw [live, List.map_append, List.nodup_append] at unique
  have nodup := unique.1
  rw [parts, List.map_append, List.map_cons] at nodup
  have absent := (List.nodup_middle.mp nodup).notMem
  have others (part : List Slot) (sub : ∀ x ∈ part, x ∈ front ++ back) :
      part.filter (·.id ≠ found.id) = part := by
    refine List.filter_eq_self.mpr fun x here => decide_eq_true fun same => absent ?_
    rw [← List.map_append, ← same]
    exact List.mem_map_of_mem (sub x here)
  have kept : s.cachedObjects.filter (·.id ≠ found.id) = front ++ back := by
    rw [parts, List.filter_append, List.filter_cons_of_neg (by simp),
      others front fun _ => List.mem_append_left back,
      others back fun _ => List.mem_append_right front]
  show (s.cachedObjects ++ s.uncachedObjects).Perm
    (s.cachedObjects.filter (·.id ≠ found.id) ++ s.uncachedObjects ++ [found])
  rw [kept, parts]
  exact (List.perm_middle.append_right _).trans
    (List.perm_append_singleton found (front ++ back ++ s.uncachedObjects)).symm

/-- The newest object of a URL is used, revalidated or replaced. -/
theorem useNewest_changes (tidy : Tidy s) (asked : rules.asks retrieval)
    (reads : ∀ id o, rules.permits id o .read) {found : Slot}
    (inside : found ∈ s.cachedObjects) {s₀ : Cache}
    (old : found.object.fetch.fetch = none ∨ newest retrieval.url s₀.cachedObjects = some found) :
    Changes rules out s (s.useNewest out retrieval found).1 ∧
      ∀ id, (s.useNewest out retrieval found).2 = .ok id →
        Answers retrieval s₀ (s.useNewest out retrieval found).1 id := by
  have present : s.find found.id = some found.object :=
    find_of_mem tidy.nodup (List.mem_append_left _ inside)
  obtain ⟨data, length, same, readable⟩ := retrievePersistedData_frame out found.object
  unfold useNewest
  dsimp only
  by_cases ok : (retrievePersistedData out found.object).1 = .ok
  · have edit := @Change.edit rules out _ _ _ .read present ok (reads _ _)
    have now : (s.modify found.id (Act.apply out .read)).find found.id =
        some (retrievePersistedData out found.object).2 := find_modify_self present
    rw [if_pos ok]
    split
    · refine ⟨Relation.ReflTransGen.single edit, fun id done => ?_⟩
      cases done
      refine ⟨_, now, readable ok, ?_⟩
      rw [same]
      exact old.imp id fun newest => Or.inr ⟨found, newest, rfl⟩
    · obtain ⟨changes, answer⟩ := @revalidate_changes rules out _ _
        ⟨found.id, (retrievePersistedData out found.object).2⟩ _ asked now (readable ok)
      exact ⟨Relation.ReflTransGen.head edit changes, answer s₀⟩
  · have missing : found.object.sourceData = none ∧ found.object.storeState = .disc := by
      unfold retrievePersistedData at ok
      by_contra there
      rw [if_pos] at ok
      · exact ok rfl
      · by_contra neither
        rw [not_or, not_not, not_not] at neither
        exact there neither
    have gone := @Change.unreadable rules out _ found present missing.2 missing.1 _
      (swept_removeCached tidy inside)
    rw [if_neg ok]
    obtain ⟨changes, answer⟩ := @fetchCached_changes rules out
      ((s.removeCached found.id).destroy found) retrieval _ asked (unborn_newObject _) rfl
    exact ⟨Relation.ReflTransGen.head gone changes, answer s₀⟩

/-- One more object, and the newest one so far. -/
def newer (url : Nsurl) (found : Option Slot) (slot : Slot) : Option Slot :=
  let newer := match found with
    | none => true
    | some best => decide (best.object.cache.reqTime < slot.object.cache.reqTime)
  if newer && Nsurl.compare slot.object.url url Nsurl.COMPLETE then some slot else found

theorem newest_mem {url : Nsurl} {list : List Slot} {found : Slot}
    (selected : newest url list = some found) : found ∈ list := by
  have step (list : List Slot) (best : Option Slot) (found : Slot)
      (chosen : list.foldl (newer url) best = some found) : best = some found ∨ found ∈ list := by
    induction list generalizing best with
    | nil => exact Or.inl chosen
    | cons slot rest ih =>
        rcases ih _ chosen with same | later
        · simp only [newer, ite_eq_iff, Option.some.injEq] at same
          rcases same with ⟨_, rfl⟩ | ⟨_, same⟩
          · exact Or.inr (List.mem_cons_self ..)
          · exact Or.inl same
        · exact Or.inr (List.mem_cons_of_mem _ later)
  exact (step list none found selected).resolve_left nofun

/-- A retrieval opens an object or uses the newest one of its URL. -/
theorem retrieve_changes (tidy : Tidy s) (reads : ∀ id o, rules.permits id o .read)
    (asked : rules.asks { retrieval with url := Nsurl.defragment retrieval.url })
    (done : s.retrieve out retrieval = some (s', result)) :
    Changes rules out s s' ∧ ∀ id, result = .ok id →
      Answers { retrieval with url := Nsurl.defragment retrieval.url } s s' id := by
  unfold Cache.retrieve retrieveFromCache at done
  dsimp only at done
  obtain ⟨candidate, started, failed⟩ := @objectFetch_unborn out
    { retrieval with url := Nsurl.defragment retrieval.url } _ s.parameters (unborn_newObject _)
  split at done
  · split at done
    · rename_i error
      cases done
      exact ⟨Relation.ReflTransGen.single (Change.stillborn (failed error)), nofun⟩
    · rename_i ok
      cases done
      obtain ⟨new, running⟩ := started (not_not.mp ok)
      have born := @Change.bornUncached rules out s _ _ asked new candidate
      refine ⟨Relation.ReflTransGen.single born, fun id same => ?_⟩
      cases same
      refine answers_newborn new running (@find_of_mem _ ⟨s.nextObject, _⟩ (born.tidy tidy).nodup ?_)
      exact List.mem_append_right _ (List.mem_cons_self ..)
  · split at done
    · rename_i found selected
      obtain ⟨changes, answers⟩ := @useNewest_changes rules out s _ tidy asked reads found
        (newest_mem selected) s (Or.inr selected)
      rw [Option.some.inj done] at changes answers
      exact ⟨changes, answers⟩
    · split at done
      · cases done
      · rename_i error o answer
        obtain ⟨loose, ok, unborn⟩ := fetchPersistent_unborn (unborn_newObject _) rfl answer
        split at done
        · rename_i refused
          obtain ⟨changes, answers⟩ :=
            @fetchCached_changes rules out s _ o asked (unborn refused) loose
          rw [Option.some.inj done] at changes answers
          exact ⟨changes, answers s⟩
        · rename_i accepted
          obtain ⟨new, still⟩ := ok (not_not.mp accepted)
          have born := @Change.born rules out s _ _ asked new loose
          obtain ⟨changes, answers⟩ := @useNewest_changes rules out _ _ (born.tidy tidy) asked reads
            ⟨s.nextObject, o⟩ (List.mem_cons_self ..) s (Or.inl still)
          rw [Option.some.inj done] at changes answers
          exact ⟨Relation.ReflTransGen.head born changes, answers⟩

end Neosurf.Llcache
