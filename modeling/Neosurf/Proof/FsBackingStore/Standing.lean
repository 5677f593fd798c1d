import Neosurf.Proof.FsBackingStore.Invalidated

namespace Neosurf.FsBackingStore

variable {env : Environment} {state middle after : StoreState} {events : List Event}
  {url other : HashedUrl} {idx : ElemIdx} {bse : StoreEntry} {data : Bytes}
  {missing : HashedUrl → ElemIdx → Prop}

/-- The entry of a URL is there, and it does not wait for its removal. -/
def Standing (state : StoreState) (url : HashedUrl) : Prop :=
  ∃ se, state.entries.lookup url = some se ∧ se.invalid = false

/-- A call does not invalidate a URL: it is no such call for it, and it makes no eviction pass. -/
def Spares (url : HashedUrl) (state : StoreState) : Call → Prop
  | .store _ _ _ _ => state.totalAlloc.toNat < state.limit
  | .invalidate other => ¬ SameUrl other url
  | _ => True

/-- The states that calls and reloads which spare a URL reach from a state. -/
inductive Later (url : HashedUrl) (state : StoreState) : StoreState → Prop
  | refl : Later url state state
  | step {middle : StoreState} (env : Environment) (c : Call) (before : Later url state middle)
      (sound : Sound env middle c) (spares : Spares url middle c) :
      Later url state (call env middle c).1
  | reload {middle after : StoreState} (junk : Nsurl.Buff) (limit hysteresis : Nat)
      (useMap : ElemIdx → Nat → Bool) (before : Later url state middle)
      (readable : ReadsBack junk middle)
      (done : FsBackingStore.reload junk limit hysteresis useMap middle = .ok after) :
      Later url state after

/-- A change of an entry that leaves its flag alone. -/
theorem Standing.modify {change : StoreEntry → StoreEntry}
    (entries_eq : after.entries = state.entries.modify other change)
    (kept : ∀ se, (change se).invalid = se.invalid) (standing : Standing state url) :
    Standing after url := by
  obtain ⟨se, found, valid⟩ := standing
  rw [Standing, entries_eq, Hashmap.lookup_modify, found]
  split
  · exact ⟨change se, rfl, (kept se).trans valid⟩
  · exact ⟨se, rfl, valid⟩

theorem standing_getStoreEntry (found : getStoreEntry env state other = some (middle, bse))
    (standing : Standing state url) : Standing middle url := by
  obtain ⟨se, _, same⟩ := Option.map_eq_some_iff.mp found
  cases same
  have entries_eq : StoreState.entries { state with
      entries := state.entries.modify other fun ent =>
        { ent with lastUsed := env.now, useCount := ent.useCount + 1 } } =
      state.entries.modify other fun ent =>
        { ent with lastUsed := env.now, useCount := ent.useCount + 1 } :=
    rfl
  exact Standing.modify entries_eq (fun _ => rfl) standing

/-- The entry of another URL may be invalidated. -/
theorem standing_invalidateEntry (different : ¬ SameUrl bse.url url)
    (standing : Standing state url) : Standing (invalidateEntry state bse) url := by
  obtain ⟨se, found, valid⟩ := standing
  by_cases busy : bse.Busy
  · rw [invalidateEntry_busy busy, Standing]
    dsimp only
    rw [Hashmap.lookup_modify, if_neg different]
    exact ⟨se, found, valid⟩
  · rw [invalidateEntry_free busy, Standing]
    dsimp only
    rw [Hashmap.lookup_remove, if_neg different]
    exact ⟨se, found, valid⟩

theorem standing_setElement {elem : StoreEntryElement} (standing : Standing state url) :
    Standing (state.setElement other idx elem) url := by
  have entries_eq : (state.setElement other idx elem).entries =
      state.entries.modify other fun se => { se with elem := Function.update se.elem idx elem } :=
    rfl
  exact Standing.modify entries_eq (fun _ => rfl) standing

theorem standing_ensureEntry (standing : Standing state url) :
    Standing (ensureEntry state other) url := by
  unfold ensureEntry
  cases absent : state.entries.lookup other with
  | some se => exact standing
  | none =>
      obtain ⟨se, found, valid⟩ := standing
      refine ⟨se, ?_, valid⟩
      dsimp only
      rw [Hashmap.lookup_insert absent, if_neg, found]
      intro same
      rw [lookup_congr same, found] at absent
      cases absent

/-- An element that is set and written leaves the entries standing. -/
theorem standing_set {se : StoreEntry} {elem : StoreEntryElement} (written : Option Nat)
    (set : SetData env state middle se idx data elem) (standing : Standing state url) :
    Standing (writeElementUpTo middle other idx elem written).1 url := by
  have after : Standing middle url := Standing.modify set.entries (fun _ => rfl) standing
  unfold writeElementUpTo
  split
  · exact after
  · rw [writeElement_eq]
    exact after

/-- A release of an entry that does not wait for its removal only sets its element. -/
theorem release_standing (env : Environment) (idx : ElemIdx) (same : SameUrl other url)
    (standing : Standing state url) : ∃ middle bse,
      getStoreEntry env state other = some (middle, bse) ∧
      (release env state other idx).1 =
        middle.setElement bse.url idx (entryReleaseAlloc (bse.elem idx)) := by
  obtain ⟨se, found, valid⟩ := standing
  rw [← lookup_congr same] at found
  have touched : getStoreEntry env state other = some
      ({ state with entries := state.entries.modify other fun ent =>
          { ent with lastUsed := env.now, useCount := ent.useCount + 1 } },
        { se with lastUsed := env.now, useCount := se.useCount + 1 }) := by
    rw [getStoreEntry, found]
    rfl
  refine ⟨_, _, touched, ?_⟩
  unfold release
  rw [touched]
  dsimp only
  rw [if_neg (by simp [valid])]

/-- A call that spares a URL keeps its entry. -/
theorem standing_call {c : Call} (barred : Barred missing state) (spares : Spares url state c)
    (standing : Standing state url) : Standing (call env state c).1 url := by
  cases c with
  | store other idx data answer =>
      change Standing (storeWith answer env state other idx data).1 url
      have unevicted : storeEvict env state = state := if_pos spares
      have outcome := storeWith_outcome answer env state other idx data
      generalize storeWith answer env state other idx data = result at outcome
      cases outcome with
      | noList => exact standing
      | noEntry =>
          rw [unevicted]
          exact standing
      | inUse =>
          rw [unevicted]
          exact standing
      | set se middle elem late found free done =>
          rw [unevicted] at done
          exact standing_set _ (setElementData_set done) (standing_ensureEntry standing)
  | fetch other idx answer =>
      change Standing (fetchWith answer env state other idx).1 url
      rcases fetchWith_cases answer env state other idx with
        same | ⟨middle, bse, elem, found, _, _, set⟩
      · rw [same]
        exact standing
      · rw [set]
        exact standing_setElement (standing_getStoreEntry found standing)
  | release other idx =>
      change Standing (release env state other idx).1 url
      by_cases same : SameUrl other url
      · obtain ⟨middle, bse, found, released⟩ := release_standing env idx same standing
        rw [released]
        exact standing_setElement (standing_getStoreEntry found standing)
      · unfold release
        cases found : getStoreEntry env state other with
        | none => exact standing
        | some pair =>
            obtain ⟨middle, bse⟩ := pair
            obtain ⟨_, present, _⟩ := getStoreEntry_eq_some found
            have named := (closed_barred.getStoreEntry barred found).named other bse present
            have after : Standing (middle.setElement bse.url idx (entryReleaseAlloc (bse.elem idx)))
                url :=
              standing_setElement (standing_getStoreEntry found standing)
            dsimp only
            split
            · apply standing_invalidateEntry _ after
              exact fun here => same (sameUrl_trans (sameUrl_symm named) here)
            · exact after
  | invalidate other =>
      change Standing (FsBackingStore.invalidate env state other).1 url
      unfold FsBackingStore.invalidate
      cases found : getStoreEntry env state other with
      | none => exact standing
      | some pair =>
          obtain ⟨middle, bse⟩ := pair
          obtain ⟨_, present, _⟩ := getStoreEntry_eq_some found
          have same := (closed_barred.getStoreEntry barred found).named other bse present
          apply standing_invalidateEntry
          · exact fun here => spares (sameUrl_trans (sameUrl_symm same) here)
          · exact standing_getStoreEntry found standing

theorem standing_reload (loaded : LoadedFrom state after)
    (present : ∀ url, state.entries.lookup url ≠ none → after.entries.lookup url ≠ none)
    (standing : Standing state url) : Standing after url := by
  obtain ⟨se, found, valid⟩ := standing
  obtain ⟨se', found'⟩ := Option.ne_none_iff_exists'.mp (present url (by simp [found]))
  obtain ⟨_, old, before, same, _⟩ := loaded.entries url se' found'
  rw [found, Option.some.injEq] at before
  subst before
  exact ⟨se', found', same.trans valid⟩

/-- The entry of a URL that is spared stays. -/
theorem standing_later {later : StoreState} (barred : Barred (gone events) state)
    (standing : Standing state url) (run : Later url state later) :
    Standing later url ∧ ∃ events, Barred (gone events) later := by
  induction run with
  | refl => exact ⟨standing, events, barred⟩
  | step env c before sound spares ih =>
      obtain ⟨standing, events, barred⟩ := ih
      exact ⟨standing_call barred spares standing, _, barred_call barred sound⟩
  | reload junk limit hysteresis useMap before readable done ih =>
      obtain ⟨standing, events, barred⟩ := ih
      obtain ⟨loaded, present⟩ := reload_loaded barred.named barred.placed readable done
      exact ⟨standing_reload loaded present standing, events, barred_reload barred loaded⟩

/-- A successful call of `store` leaves an entry that does not wait for its removal. -/
theorem standing_store {answer : StoreAnswer}
    (sound : Sound env state (.store url idx data answer))
    (done : (storeWith answer env state url idx data).2 = .ok) :
    Standing (storeWith answer env state url idx data).1 url := by
  have outcome := storeWith_outcome answer env state url idx data
  generalize storeWith answer env state url idx data = result at outcome done
  cases outcome with
  | noList => cases done
  | noEntry => cases done
  | inUse => cases done
  | set se middle elem late found free set =>
      obtain ⟨_, valid, _⟩ := sound.resolve_left late
      apply standing_set _ (setElementData_set set)
      refine ⟨se, found, ?_⟩
      rcases ensureEntry_cases found with ⟨_, present⟩ | ⟨_, rfl⟩
      · exact valid se present
      · rfl

/-- A released entry that stands keeps its elements. -/
theorem kept_release (standing : Standing state url) (env : Environment) (idx idx' : ElemIdx) :
    ∃ elem elem', state.elementAt url idx' = some elem ∧
      (release env state url idx).1.elementAt url idx' = some elem' ∧ elem'.size = elem.size ∧
      elem'.block = elem.block := by
  obtain ⟨middle, bse, found, released⟩ := release_standing env idx (sameUrl_refl url) standing
  obtain ⟨_, present, _, se, before, elems, same⟩ := getStoreEntry_eq_some found
  obtain ⟨size, block, _⟩ := entryReleaseAlloc_keeps (bse.elem idx)
  have entries_eq : (middle.setElement bse.url idx (entryReleaseAlloc (bse.elem idx))).entries =
      middle.entries.modify bse.url fun se =>
        { se with elem := Function.update se.elem idx (entryReleaseAlloc (bse.elem idx)) } :=
    rfl
  have own : middle.elementAt url idx' = some (bse.elem idx') :=
    elementAt_eq_some.mpr ⟨bse, present, rfl⟩
  have old : state.elementAt url idx' = some (bse.elem idx') :=
    elementAt_eq_some.mpr ⟨se, before, by rw [elems]⟩
  rw [released]
  rcases elementAt_modify_element middle url bse.url idx idx' _ (fun _ => rfl) entries_eq with
    ⟨_, here, set⟩ | ⟨_, unchanged⟩
  · rw [own] at set
    subst here
    exact ⟨_, _, old, set, size, block⟩
  · exact ⟨_, _, old, unchanged.trans own, rfl, rfl⟩

/-- After an invalidation a fetch finds nothing until a call of `store` is successful. What is stored
then is not discarded when an older reference is released. -/
theorem invalidated_session (run : SessionRun Sound ReadsBack state events) :
    (∀ env url idx fetched, gone events url idx → fetched ≠ .noMemory →
      (fetchWith fetched env state url idx).2 = .error .notFound) ∧
    ∀ env url idx data answer later, Sound env state (.store url idx data answer) →
      (call env state (.store url idx data answer)).2 = .ok →
      Later url (call env state (.store url idx data answer)).1 later →
      ∀ env' idx₁ idx₂, ∃ elem elem', later.elementAt url idx₂ = some elem ∧
        (release env' later url idx₁).1.elementAt url idx₂ = some elem' ∧
        elem'.size = elem.size ∧ elem'.block = elem.block := by
  have barred := barred_session run
  constructor
  · intro env url idx fetched absent memory
    exact fetchWith_vacant barred absent memory
  · intro env url idx data answer later sound done after env' idx₁ idx₂
    have standing := standing_store sound done
    exact kept_release (standing_later (barred_call barred sound) standing after).1 env' idx₁ idx₂

/-- An element that was released is not found after an invalidation. -/
theorem invalidated_session_released : ∃ url : HashedUrl, ∃ state events,
    Nsurl.nsurlCreate (fun _ => 0) (str "http://h/a") = .ok url.1 ∧
      SessionRun Sound ReadsBack state events ∧ gone events url .data ∧
      (fetchWith .whole idleEnvironment state url .data).2 = .error .notFound := by
  have computed : ∃ url : HashedUrl, ∃ cs,
      Nsurl.nsurlCreate (fun _ => 0) (str "http://h/a") = .ok url.1 ∧
      cs = [.store url .data (str "a") { written := some 1 }, .release url .data] ∧
      ((makeCalls 100 10 cs).1.entries.lookup url).all
        (fun se => !((se.elem .data).heap || (se.elem .metadata).heap)) = true :=
    ⟨⟨_, rfl⟩, _, rfl, rfl, by decide +kernel⟩
  obtain ⟨url, cs, created, rfl, idle⟩ := computed
  have unevicted : storeEvict idleEnvironment (initialise [] 100 10) = initialise [] 100 10 := rfl
  have empty (other : HashedUrl) : (initialise [] 100 10).entries.lookup other = none := rfl
  have first : Sound idleEnvironment (initialise [] 100 10)
      (.store url .data (str "a") { written := some 1 }) := by
    right
    rw [unevicted]
    refine ⟨⟨1, rfl, by decide⟩, fun _ impossible => ?_, fun _ _ _ => rfl,
      Or.inr fun _ _ impossible => ?_⟩
    · rw [empty] at impossible
      cases impossible
    · rw [StoreState.elementAt, empty] at impossible
      cases impossible
  have once : SessionRun Sound ReadsBack _ _ :=
    .step idleEnvironment _ (.start [] 100 10) first
  have twice := SessionRun.step idleEnvironment (.release url .data) once trivial
  have last : Sound idleEnvironment (makeCalls 100 10
      [.store url .data (str "a") { written := some 1 }, .release url .data]).1
      (.invalidate url) := by
    intro se found busy
    rw [found, Option.all_some] at idle
    rw [StoreEntry.Busy] at busy
    rw [busy] at idle
    cases idle
  have run := SessionRun.step idleEnvironment (.invalidate url) twice last
  have absent : gone (⟨.invalidate url, (call idleEnvironment (makeCalls 100 10
      [.store url .data (str "a") { written := some 1 }, .release url .data]).1
      (.invalidate url)).2⟩ :: (makeCalls 100 10
      [.store url .data (str "a") { written := some 1 }, .release url .data]).2) url .data :=
    Or.inl (sameUrl_refl url)
  exact ⟨url, _, _, created, run, absent,
    (invalidated_session run).1 idleEnvironment url .data .whole absent fun impossible => by cases impossible⟩

/-- An element that is held is fetched after an invalidation. -/
theorem heldInvalid : ∃ url : HashedUrl, ∃ state events,
    Nsurl.nsurlCreate (fun _ => 0) (str "http://h/a") = .ok url.1 ∧
      SessionRun (fun _ _ _ => True) (fun _ _ => True) state events ∧ gone events url .data ∧
      (fetchWith .whole idleEnvironment state url .data).2 = .ok (str "a", 1) := by
  have computed : ∃ url : HashedUrl, ∃ cs,
      Nsurl.nsurlCreate (fun _ => 0) (str "http://h/a") = .ok url.1 ∧
      cs = [.store url .data (str "a") { written := some 1 }, .invalidate url] ∧
      (fetchWith .whole idleEnvironment (makeCalls 100 10 cs).1 url .data).2 = .ok (str "a", 1) :=
    ⟨⟨_, rfl⟩, _, rfl, rfl, by decide +kernel⟩
  obtain ⟨url, cs, created, rfl, answer⟩ := computed
  have once : SessionRun (fun _ _ _ => True) (fun _ _ => True) _ _ :=
    .step idleEnvironment (.store url .data (str "a") { written := some 1 }) (.start [] 100 10) trivial
  have run := SessionRun.step idleEnvironment (.invalidate url) once trivial
  exact ⟨url, _, _, created, run, Or.inl (sameUrl_refl url), answer⟩

end Neosurf.FsBackingStore
