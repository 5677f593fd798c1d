import Neosurf.Proof.FsBackingStore.Reload

namespace Neosurf.FsBackingStore

variable {env : Environment} {state middle after : StoreState} {events : List Event}
  {url other : HashedUrl} {idx idx' : ElemIdx} {bse : StoreEntry}

/-- A URL was invalidated, and no call of `store` for this element was successful since. -/
def gone (events : List Event) (url : HashedUrl) (idx : ElemIdx) : Prop :=
  events.foldr (fun event before =>
    match event.call with
    | .invalidate other => SameUrl other url ∨ before
    | .store other idx' _ _ => before ∧ ¬ (event.code = .ok ∧ SameUrl other url ∧ idx' = idx)
    | _ => before) False

/-- An element that is present is as it was made, and it has no file of its own. -/
def Vacant (state : StoreState) (url : HashedUrl) (idx : ElemIdx) : Prop :=
  ∀ elem, state.elementAt url idx = some elem →
    elem.Fresh ∧ state.files (state.elementName url idx) = none

/-- Every entry is where it is looked for, and these elements are vacant. -/
structure Barred (missing : HashedUrl → ElemIdx → Prop) (state : StoreState) : Prop where
  named : ∀ url se, state.entries.lookup url = some se → SameUrl se.url url
  placed : state.entries.Placed
  vacant : ∀ url idx, missing url idx → Vacant state url idx

variable {missing missing' : HashedUrl → ElemIdx → Prop}

theorem Barred.imp (barred : Barred missing state) (fewer : ∀ url idx, missing' url idx → missing url idx) :
    Barred missing' state where
  named := barred.named
  placed := barred.placed
  vacant url idx absent := barred.vacant url idx (fewer url idx absent)

theorem closed_barred : Closed (Barred missing) where
  named barred := barred.named
  modify {state} other change kept same barred := by
    constructor
    · exact named_modify rfl same barred.named
    · exact Hashmap.placed_modify barred.placed
    · intro url idx absent elem present
      have unchanged : StoreState.elementAt { state with
          entries := state.entries.modify other change } url idx = state.elementAt url idx :=
        elementAt_modify change kept rfl rfl
      rw [unchanged] at present
      exact barred.vacant url idx absent elem present
  drop {state bse} barred own free := by
    constructor
    · exact named_invalidateEntry free barred.named
    · rw [invalidateEntry_free free]
      exact Hashmap.placed_remove barred.placed
    · intro url idx absent elem present
      have path : (invalidateEntry state bse).path = state.path := by
        rw [invalidateEntry_free free]
        simp
      rcases elementAt_invalidateEntry state url idx free with ⟨_, removed⟩ | ⟨_, kept⟩
      · rw [removed] at present
        cases present
      · rw [kept] at present
        obtain ⟨fresh, none⟩ := barred.vacant url idx absent elem present
        refine ⟨fresh, ?_⟩
        rw [elementName_congr path (sameUrl_refl url)]
        rcases files_invalidateEntry free (state.elementName url idx) with same | ⟨removed, _⟩
        · exact same.trans none
        · exact removed

/-- A vacant element is set to one that is as it was made. -/
theorem Barred.setElement {elem : StoreEntryElement} (barred : Barred missing state)
    (fresh : ∀ other, SameUrl bse.url other → missing other idx → elem.Fresh) :
    Barred missing (state.setElement bse.url idx elem) := by
  have entries_eq : (state.setElement bse.url idx elem).entries =
      state.entries.modify bse.url fun se => { se with elem := Function.update se.elem idx elem } :=
    rfl
  constructor
  · exact named_modify entries_eq (fun _ => rfl) barred.named
  · rw [entries_eq]
    exact Hashmap.placed_modify barred.placed
  · intro other idx' absent elem' present
    rcases elementAt_modify_element state other bse.url idx idx' elem (fun _ => rfl) entries_eq with
      ⟨same, here, set⟩ | ⟨_, unchanged⟩
    · subst here
      rw [set] at present
      obtain ⟨old, before, rfl⟩ := Option.map_eq_some_iff.mp present
      exact ⟨fresh other same absent, (barred.vacant other idx' absent old before).2⟩
    · rw [unchanged] at present
      exact barred.vacant other idx' absent elem' present

theorem entryReleaseAlloc_fresh {elem : StoreEntryElement} (fresh : elem.Fresh) :
    entryReleaseAlloc elem = elem := by
  rw [entryReleaseAlloc, if_neg (by simp [fresh.2.2])]

/-- The element of an entry is vacant under its URL. -/
theorem Barred.entry (barred : Barred missing state) (found : state.entries.lookup url = some bse)
    (same : SameUrl bse.url other) (absent : missing other idx) :
    (bse.elem idx).Fresh ∧ state.files (state.elementName bse.url idx) = none := by
  have present : state.elementAt other idx = some (bse.elem idx) := by
    have here := sameUrl_trans (sameUrl_symm (barred.named url bse found)) same
    rw [← elementAt_congr here]
    exact elementAt_eq_some.mpr ⟨bse, found, rfl⟩
  obtain ⟨fresh, none⟩ := barred.vacant other idx absent _ present
  rw [elementName_congr rfl same]
  exact ⟨fresh, none⟩

/-- An element that is as it was made cannot be read without its file. -/
theorem readElement_fresh (fresh : (bse.elem idx).Fresh)
    (none : state.files (state.elementName bse.url idx) = none) :
    readElement state bse idx = .error .notFound := by
  rw [readElement, if_neg (not_not.mpr fresh.2.1), storeReadFile, none]

/-- A fetch of a vacant element does not find it. -/
theorem fetchWith_vacant {fetched : FetchAnswer} (barred : Barred missing state)
    (absent : missing url idx) (memory : fetched ≠ .noMemory) :
    (fetchWith fetched env state url idx).2 = .error .notFound := by
  unfold fetchWith
  cases found : getStoreEntry env state url with
  | none => rfl
  | some pair =>
      obtain ⟨middle, bse⟩ := pair
      obtain ⟨_, present, _⟩ := getStoreEntry_eq_some found
      have touched := closed_barred.getStoreEntry barred found
      obtain ⟨fresh, none⟩ := touched.entry present (touched.named url bse present) absent
      dsimp only
      rw [if_neg (by simp [fresh.2.2])]
      cases fetched with
      | noMemory => exact absurd rfl memory
      | unreadable =>
          dsimp only
          rw [if_neg (not_not.mpr fresh.2.1)]
      | whole =>
          dsimp only
          rw [readElement_fresh fresh none]

theorem Barred.fetch {fetched : FetchAnswer} (barred : Barred missing state) :
    Barred missing (fetchWith fetched env state url idx).1 := by
  have outcome := fetchWith_outcome fetched env state url idx
  generalize fetchWith fetched env state url idx = result at outcome
  cases outcome with
  | absent => exact barred
  | held middle bse found heap =>
      obtain ⟨_, present, _⟩ := getStoreEntry_eq_some found
      have touched := closed_barred.getStoreEntry barred found
      apply touched.setElement
      intro other same absent
      have fresh := (touched.entry present same absent).1
      rw [fresh.2.2] at heap
      cases heap
  | loaded middle bse data found free read =>
      obtain ⟨_, present, _⟩ := getStoreEntry_eq_some found
      have touched := closed_barred.getStoreEntry barred found
      apply touched.setElement
      intro other same absent
      obtain ⟨fresh, none⟩ := touched.entry present same absent
      rw [readElement_fresh fresh none] at read
      cases read
  | failed middle bse ref code found free =>
      obtain ⟨_, present, _⟩ := getStoreEntry_eq_some found
      have touched := closed_barred.getStoreEntry barred found
      apply touched.setElement
      intro other same absent
      obtain ⟨size, block, _⟩ := (touched.entry present same absent).1
      exact ⟨size, block, rfl⟩

theorem Barred.release (barred : Barred missing state) :
    Barred missing (FsBackingStore.release env state url idx).1 := by
  apply closed_barred.release env fun _ => barred
  intro middle bse found
  obtain ⟨_, present, _⟩ := getStoreEntry_eq_some found
  have touched := closed_barred.getStoreEntry barred found
  apply touched.setElement
  intro other same absent
  have fresh := (touched.entry present same absent).1
  rw [entryReleaseAlloc_fresh fresh]
  exact fresh

/-- An entry that is not busy is gone after an invalidation. -/
theorem Barred.invalidate (barred : Barred missing state)
    (free : ∀ se, state.entries.lookup url = some se → ¬ se.Busy) :
    Barred (fun other idx => missing other idx ∨ SameUrl url other)
      (FsBackingStore.invalidate env state url).1 := by
  have kept := closed_barred.invalidate env url barred
  refine ⟨kept.named, kept.placed, ?_⟩
  intro other idx absent
  rcases absent with absent | same
  · exact kept.vacant other idx absent
  · intro elem present
    rw [← elementAt_congr same] at present
    unfold FsBackingStore.invalidate at present
    cases found : getStoreEntry env state url with
    | none =>
        rw [found] at present
        dsimp only at present
        rw [StoreState.elementAt, Option.map_eq_none_iff.mp found] at present
        cases present
    | some pair =>
        obtain ⟨middle, bse⟩ := pair
        obtain ⟨_, here, _, se, before, elems, _⟩ := getStoreEntry_eq_some found
        have touched := closed_barred.getStoreEntry barred found
        have idle : ¬ bse.Busy := by
          rw [StoreEntry.Busy, elems]
          exact free se before
        rw [found] at present
        dsimp only at present
        rcases elementAt_invalidateEntry middle url idx idle with ⟨_, removed⟩ | ⟨away, _⟩
        · rw [removed] at present
          cases present
        · exact absurd (touched.named url bse here) away

/-- A call of `store` writes its data into a block. -/
def WritesBlock (env : Environment) (state : StoreState) (url : HashedUrl) (idx : ElemIdx)
    (data : Bytes) : Prop :=
  data.length % 2 ^ 32 ≤ 1 <<< log2BlockSize idx ∧
      (∃ block, freeBlock (storeEvict env state) idx = some block ∧ block ≠ 0) ∨
    1 <<< log2BlockSize idx < data.length % 2 ^ 32 ∧
      ∃ elem, (storeEvict env state).elementAt url idx = some elem ∧ elem.block ≠ 0

/-- These calls do not bring back an element that was invalidated, and they store nothing into an
entry that waits for its removal. A call of `store` that does not fail early writes all its data. It
finds no invalid entry. When it makes an entry, there is no file of the other element, and when it
writes a file, no other URL has an element for that file that is as it was made. An entry that is
invalidated is not busy. -/
def Sound (env : Environment) (state : StoreState) : Call → Prop
  | .store url idx data answer => FailsEarly answer env state url idx ∨
      (∃ count, answer.written = some count ∧ data.length % 2 ^ 32 ≤ count) ∧
      (∀ se, (storeEvict env state).entries.lookup url = some se → se.invalid = false) ∧
      ((storeEvict env state).entries.lookup url = none → ∀ idx' ≠ idx,
        (storeEvict env state).files ((storeEvict env state).elementName url idx') = none) ∧
      (WritesBlock env state url idx data ∨ ∀ other elem,
        (storeEvict env state).elementAt other idx = some elem → elem.Fresh →
          url.1.hash = other.1.hash → SameUrl url other)
  | .invalidate url => ∀ se, state.entries.lookup url = some se → ¬ se.Busy
  | _ => True

variable {data : Bytes}

theorem files_ensureEntry : (ensureEntry state url).files = state.files := by
  unfold ensureEntry
  split <;> rfl

theorem path_ensureEntry : (ensureEntry state url).path = state.path := by
  unfold ensureEntry
  split <;> rfl

theorem useMap_ensureEntry : (ensureEntry state url).useMap = state.useMap := by
  unfold ensureEntry
  split <;> rfl

/-- A new entry is vacant but for the element that is about to be set. -/
theorem Barred.ensureEntry (barred : Barred missing state)
    (unfiled : state.entries.lookup url = none → ∀ idx' ≠ idx,
      state.files (state.elementName url idx') = none) :
    Barred (fun other idx' => missing other idx' ∧ ¬ (SameUrl url other ∧ idx' = idx))
      (FsBackingStore.ensureEntry state url) := by
  unfold FsBackingStore.ensureEntry
  cases absent : state.entries.lookup url with
  | some se => exact barred.imp fun _ _ both => both.1
  | none =>
      constructor
      · exact named_insert absent barred.named
      · dsimp only
        rw [Hashmap.insert_eq_put absent]
        exact Hashmap.placed_put barred.placed
      · intro other idx' both elem present
        rw [elementAt_insert absent] at present
        split at present
        · rename_i same
          cases present
          have else_idx : idx' ≠ idx := fun here => both.2 ⟨same, here⟩
          refine ⟨⟨rfl, rfl, rfl⟩, ?_⟩
          have name : state.elementName other idx' = state.elementName url idx' :=
            elementName_congr rfl (sameUrl_symm same)
          change state.files (state.elementName other idx') = none
          rw [name]
          exact unfiled absent idx' else_idx
        · exact barred.vacant other idx' both.1 elem present

theorem elementAt_ensureEntry (different : ¬ SameUrl url other) :
    (ensureEntry state url).elementAt other idx = state.elementAt other idx := by
  unfold ensureEntry
  cases absent : state.entries.lookup url with
  | some se => rfl
  | none =>
      dsimp only
      rw [elementAt_insert absent, if_neg different]

/-- An element without a block was not to be written into one. -/
theorem not_writesBlock {se : StoreEntry} {elem : StoreEntryElement}
    (found : (ensureEntry (storeEvict env state) url).entries.lookup url = some se)
    (set : SetData env (ensureEntry (storeEvict env state) url) after se idx data elem)
    (noBlock : elem.block = 0) : ¬ WritesBlock env state url idx data := by
  have free : freeBlock (ensureEntry (storeEvict env state) url) idx =
      freeBlock (storeEvict env state) idx := by
    rw [freeBlock, freeBlock, useMap_ensureEntry]
  have place := set.place
  rw [free, set.size] at place
  rintro (⟨small, block, first, nonzero⟩ | ⟨large, old, present, inBlock⟩)
  · rcases place with ⟨_, taken, _⟩ | ⟨_, ⟨_, none, _⟩ | ⟨large, _⟩⟩
    · rw [first, Option.some.injEq] at taken
      exact nonzero (taken.trans noBlock)
    · rw [first] at none
      cases none
    · exact absurd small (not_le.mpr large)
  · rcases place with ⟨small, _⟩ | ⟨_, ⟨small, _⟩ | ⟨_, kept⟩⟩
    · exact absurd small (not_le.mpr large)
    · exact absurd small (not_le.mpr large)
    · obtain ⟨before, listed, rfl⟩ := elementAt_eq_some.mp present
      rcases ensureEntry_cases found with ⟨_, same⟩ | ⟨missing, _⟩
      · rw [same, Option.some.injEq] at listed
        rw [listed, noBlock] at kept
        exact inBlock kept.symm
      · rw [missing] at listed
        cases listed

/-- What is written does not fill the file of a vacant element. -/
theorem Barred.write {elem : StoreEntryElement} (written : Option Nat)
    (barred : Barred missing state)
    (apart : elem.block = 0 → ∀ other elem', missing other idx → state.elementAt other idx = some elem' →
      url.1.hash ≠ other.1.hash) :
    Barred missing (writeElementUpTo state url idx elem written).1 := by
  unfold writeElementUpTo
  split
  · exact barred
  · rw [writeElement_eq]
    refine ⟨barred.named, barred.placed, ?_⟩
    intro other idx' absent elem' present
    obtain ⟨fresh, none⟩ := barred.vacant other idx' absent elem' present
    refine ⟨fresh, ?_⟩
    change (state.write _ _ _).files (state.elementName other idx') = _
    rw [files_write, if_neg, none]
    intro name
    rw [writtenAt] at name
    dsimp only at name
    split at name
    · exact storeFname_element_ne_block name
    · rename_i noBlock
      obtain ⟨hash, rfl⟩ := storeFname_element_inj name
      exact apart (not_not.mp noBlock) other elem' absent present hash.symm

/-- A sound call of `store` bars what was barred, but for the element that it stores. -/
theorem barred_store {answer : StoreAnswer} (barred : Barred missing state)
    (sound : Sound env state (.store url idx data answer)) :
    Barred (fun other idx' => missing other idx' ∧
        ¬ ((storeWith answer env state url idx data).2 = .ok ∧ SameUrl url other ∧ idx = idx'))
      (storeWith answer env state url idx data).1 := by
  have evicted := closed_barred.storeEvict env barred
  have outcome := storeWith_outcome answer env state url idx data
  generalize storeWith answer env state url idx data = result at outcome
  cases outcome with
  | noList => exact barred.imp fun _ _ both => both.1
  | noEntry => exact evicted.imp fun _ _ both => both.1
  | inUse => exact evicted.imp fun _ _ both => both.1
  | set se middle elem late found free done =>
      obtain ⟨⟨count, answered, whole⟩, _, unfiled, apart⟩ := sound.resolve_left late
      have set := setElementData_set done
      have made := evicted.ensureEntry unfiled
      have same := made.named url se found
      have ok : (writeElementUpTo middle se.url idx elem answer.written).2 = .ok := by
        rw [answered]
        exact if_neg (not_lt.mpr (set.size ▸ whole))
      rw [ok]
      have away (other : HashedUrl) (idx' : ElemIdx)
          (outside : ¬ (SameUrl url other ∧ idx' = idx)) :
          middle.elementAt other idx' =
            (FsBackingStore.ensureEntry (storeEvict env state) url).elementAt other idx' := by
        rcases elementAt_modify_element _ other se.url idx idx' elem (fun _ => rfl) set.entries with
          ⟨here, this, _⟩ | ⟨_, unchanged⟩
        · exact absurd ⟨sameUrl_trans (sameUrl_symm same) here, this⟩ outside
        · exact unchanged
      have after : Barred (fun other idx' => missing other idx' ∧
          ¬ (SameUrl url other ∧ idx' = idx)) middle := by
        constructor
        · exact named_modify set.entries (fun _ => rfl) made.named
        · rw [set.entries]
          exact Hashmap.placed_modify made.placed
        · intro other idx' both elem' present
          rw [away other idx' both.2] at present
          rw [elementName_congr set.path (sameUrl_refl other), set.files]
          exact made.vacant other idx' both elem' present
      have fileless : elem.block = 0 → ∀ other elem',
          missing other idx ∧ ¬ (SameUrl url other ∧ idx = idx) →
          middle.elementAt other idx = some elem' → se.url.1.hash ≠ other.1.hash := by
        intro noBlock other elem' both present hash
        rw [away other idx both.2] at present
        have fresh := (made.vacant other idx both elem' present).1
        have different : ¬ SameUrl url other := fun here => both.2 ⟨here, rfl⟩
        rw [elementAt_ensureEntry different] at present
        rw [hash_eq_of_sameUrl same] at hash
        rcases apart with block | apart
        · exact not_writesBlock found set noBlock block
        · exact different (apart other elem' present fresh hash)
      have written := after.write answer.written fileless
      refine written.imp fun other idx' both => ⟨both.1, fun here => both.2 ?_⟩
      exact ⟨rfl, here.1, here.2.symm⟩

/-- A sound call bars what is gone after it. -/
theorem barred_call (barred : Barred (gone events) state) {c : Call} (sound : Sound env state c) :
    Barred (gone (⟨c, (call env state c).2⟩ :: events)) (call env state c).1 := by
  cases c with
  | store url idx data answer => exact barred_store barred sound
  | fetch url idx answer => exact barred.fetch
  | release url idx => exact barred.release
  | invalidate url =>
      refine (barred.invalidate sound).imp fun other idx absent => ?_
      exact absent.symm

variable {junk : Nsurl.Buff}

theorem barred_reload (barred : Barred missing state) (loaded : LoadedFrom state after) :
    Barred missing after where
  named url se found := (loaded.entries url se found).1
  placed := loaded.placed
  vacant url idx absent elem present := by
    obtain ⟨se', found, rfl⟩ := elementAt_eq_some.mp present
    obtain ⟨_, se, before, _, same⟩ := loaded.entries url se' found
    obtain ⟨size, block, heap⟩ := same idx
    obtain ⟨fresh, none⟩ := barred.vacant url idx absent _
      (elementAt_eq_some.mpr ⟨se, before, rfl⟩)
    refine ⟨⟨size.trans fresh.1, block.trans fresh.2.1, heap⟩, ?_⟩
    rw [elementName_congr loaded.path (sameUrl_refl url), loaded.files]
    exact none

theorem barred_session (run : SessionRun Sound ReadsBack state events) :
    Barred (gone events) state := by
  induction run with
  | start path limit hysteresis =>
      refine ⟨?_, Hashmap.placed_create, fun _ _ impossible => impossible.elim⟩
      intro url se impossible
      cases impossible
  | step env c before sound ih => exact barred_call ih sound
  | reload junk limit hysteresis useMap before readable done ih =>
      exact barred_reload ih (reload_loaded ih.named ih.placed readable done).1

end Neosurf.FsBackingStore
