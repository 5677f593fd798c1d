import Neosurf.Proof.FsBackingStore.FailedStore

namespace Neosurf.FsBackingStore

variable {env : Environment} {state middle after : StoreState} {events : List Event}
  {url other : HashedUrl} {idx idx' : ElemIdx} {bse : StoreEntry}

/-- The number of successful calls of `store` and `fetch` for an element that were not released
yet. -/
def outstanding (events : List Event) (url : HashedUrl) (idx : ElemIdx) : Nat :=
  events.foldr (fun event count =>
    match event.call with
    | .store other idx' _ _ =>
        if event.code = .ok ∧ SameUrl other url ∧ idx = idx' then count + 1 else count
    | .fetch other idx' _ =>
        if event.code = .ok ∧ SameUrl other url ∧ idx = idx' then count + 1 else count
    | .release other idx' => if SameUrl other url ∧ idx = idx' then count - 1 else count
    | .invalidate _ => count) 0

/-- The reference counts are these numbers. An element has an allocation while its number is not
zero. -/
structure Counted (count : HashedUrl → ElemIdx → Nat) (state : StoreState) : Prop where
  ref : ∀ url idx elem, state.elementAt url idx = some elem →
    elem.ref.toNat = count url idx ∧ (elem.heap = true ↔ 0 < count url idx)
  absent : ∀ url idx, state.elementAt url idx = none → count url idx = 0

/-- The entries also stand under their URLs. -/
structure NamedCounts (count : HashedUrl → ElemIdx → Nat) (state : StoreState) : Prop extends
    Counted count state where
  named : ∀ url se, state.entries.lookup url = some se → SameUrl se.url url

variable {count count' : HashedUrl → ElemIdx → Nat}

theorem sameUrl_comm_left (same : SameUrl bse.url url) : SameUrl bse.url other ↔ SameUrl url other :=
  ⟨sameUrl_trans (sameUrl_symm same), sameUrl_trans same⟩

/-- An element that is changed is counted anew. -/
theorem NamedCounts.change (idx : ElemIdx) (elem : StoreEntryElement)
    {change : StoreEntry → StoreEntry} (counts : NamedCounts count state)
    (found : state.entries.lookup url = some bse)
    (set : ∀ se, (change se).elem = Function.update se.elem idx elem)
    (kept : ∀ se, (change se).url = se.url)
    (entries_eq : after.entries = state.entries.modify bse.url change)
    (heap : elem.heap = true ↔ 0 < elem.ref.toNat)
    (counted : ∀ other idx', count' other idx' =
      if SameUrl url other ∧ idx' = idx then elem.ref.toNat else count other idx') :
    NamedCounts count' after where
  named := named_modify entries_eq kept counts.named
  ref other idx' elem' present := by
    rw [counted]
    rcases elementAt_modify_element state other bse.url idx idx' elem set entries_eq with
      ⟨same, here, changed⟩ | ⟨away, unchanged⟩
    · rw [changed] at present
      obtain ⟨_, _, rfl⟩ := Option.map_eq_some_iff.mp present
      rw [sameUrl_comm_left (counts.named url bse found)] at same
      rw [if_pos ⟨same, here⟩]
      exact ⟨rfl, heap⟩
    · rw [unchanged] at present
      rw [sameUrl_comm_left (counts.named url bse found)] at away
      rw [if_neg away]
      exact counts.ref other idx' elem' present
  absent other idx' missing := by
    rw [counted]
    rcases elementAt_modify_element state other bse.url idx idx' elem set entries_eq with
      ⟨same, _, changed⟩ | ⟨away, unchanged⟩
    · rw [sameUrl_comm_left (counts.named url bse found)] at same
      rw [changed, ← elementAt_congr same, elementAt_eq_some.mpr ⟨bse, found, rfl⟩] at missing
      cases missing
    · rw [unchanged] at missing
      rw [sameUrl_comm_left (counts.named url bse found)] at away
      rw [if_neg away]
      exact counts.absent other idx' missing

theorem NamedCounts.setElement {elem : StoreEntryElement} (counts : NamedCounts count state)
    (found : state.entries.lookup url = some bse) (heap : elem.heap = true ↔ 0 < elem.ref.toNat)
    (counted : ∀ other idx', count' other idx' =
      if SameUrl url other ∧ idx' = idx then elem.ref.toNat else count other idx') :
    NamedCounts count' (state.setElement bse.url idx elem) := by
  have entries_eq : (state.setElement bse.url idx elem).entries =
      state.entries.modify bse.url fun se => { se with elem := Function.update se.elem idx elem } :=
    rfl
  refine counts.change idx elem found ?_ ?_ entries_eq heap counted
  · intro se
    rfl
  · intro se
    rfl

/-- The count of the element of an entry. -/
theorem NamedCounts.of_entry (counts : NamedCounts count state)
    (found : state.entries.lookup url = some bse) (same : SameUrl url other) (idx : ElemIdx) :
    (bse.elem idx).ref.toNat = count other idx ∧
      ((bse.elem idx).heap = true ↔ 0 < count other idx) := by
  apply counts.ref other idx
  rw [← elementAt_congr same]
  exact elementAt_eq_some.mpr ⟨bse, found, rfl⟩

/-- An element without an allocation is not counted. -/
theorem NamedCounts.unheld (counts : NamedCounts count state)
    (found : state.entries.lookup url = some bse) (free : (bse.elem idx).heap = false)
    (same : SameUrl url other) : count other idx = 0 ∧ (bse.elem idx).ref.toNat = 0 := by
  obtain ⟨counted, positive⟩ := counts.of_entry found same idx
  rw [free] at positive
  have zero : count other idx = 0 := by simpa using positive
  exact ⟨zero, counted.trans zero⟩

/-- The parts of the calls that hand out no data keep the counts. -/
theorem closed_namedCounts : Closed (NamedCounts count) where
  named counts := counts.named
  modify {state} other change kept same counts := by
    have unchanged (url : HashedUrl) (idx : ElemIdx) :
        StoreState.elementAt { state with entries := state.entries.modify other change } url idx =
          state.elementAt url idx :=
      elementAt_modify change kept rfl rfl
    constructor
    · constructor
      · intro url idx elem present
        rw [unchanged] at present
        exact counts.ref url idx elem present
      · intro url idx missing
        rw [unchanged] at missing
        exact counts.absent url idx missing
    · exact named_modify rfl same counts.named
  drop {state bse} counts own free := by
    constructor
    · constructor
      · intro url idx elem present
        rcases elementAt_invalidateEntry state url idx free with ⟨_, gone⟩ | ⟨_, kept⟩
        · rw [gone] at present
          cases present
        · rw [kept] at present
          exact counts.ref url idx elem present
      · intro url idx missing
        rcases elementAt_invalidateEntry state url idx free with ⟨same, _⟩ | ⟨_, kept⟩
        · -- The elements of an entry that is not busy are not counted.
          have present : state.elementAt url idx = some (bse.elem idx) := by
            rw [← elementAt_congr same]
            exact elementAt_eq_some.mpr ⟨bse, own, rfl⟩
          have unheld := (counts.ref url idx _ present).2
          rw [not_busy free idx] at unheld
          simpa using unheld
        · rw [kept] at missing
          exact counts.absent url idx missing
    · exact named_invalidateEntry free counts.named

/-- A new entry is not counted. -/
theorem NamedCounts.ensureEntry (counts : NamedCounts count state) :
    NamedCounts count (FsBackingStore.ensureEntry state url) := by
  unfold FsBackingStore.ensureEntry
  cases absent : state.entries.lookup url with
  | some se => exact counts
  | none =>
      have seen := elementAt_insert absent
      constructor
      · constructor
        · intro other idx elem present
          rw [seen] at present
          split at present
          · rename_i same
            cases present
            have zero : count other idx = 0 := by
              apply counts.absent
              rw [← elementAt_congr same, StoreState.elementAt, absent]
              rfl
            rw [zero]
            simp
          · exact counts.ref other idx elem present
        · intro other idx missing
          rw [seen] at missing
          split at missing
          · cases missing
          · exact counts.absent other idx missing
      · exact named_insert absent counts.named

/-- What was written keeps the counts. -/
theorem NamedCounts.write {elem : StoreEntryElement} (written : Option Nat)
    (counts : NamedCounts count state) :
    NamedCounts count (writeElementUpTo state url idx elem written).1 := by
  unfold writeElementUpTo
  split
  · exact counts
  · rw [writeElement_eq]
    exact ⟨⟨counts.ref, counts.absent⟩, counts.named⟩

/-- The write of a call of `store` is whole when the call gets to it, and an element that is fetched
has less than 255 references. -/
def Countable (env : Environment) (state : StoreState) : Call → Prop
  | .store url idx data answer => FailsEarly answer env state url idx ∨
      ∃ count, answer.written = some count ∧ data.length % 2 ^ 32 ≤ count
  | .fetch url idx _ => ∀ elem, state.elementAt url idx = some elem → elem.heap = true →
      elem.ref.toNat < 255
  | _ => True

/-- A successful call hands out one more reference to an element. -/
theorem outstanding_handed {c : Call} {url : HashedUrl} {idx : ElemIdx} {n : Nat}
    (call : (∃ data answer, c = .store url idx data answer) ∨ ∃ answer, c = .fetch url idx answer)
    (before : ∀ other, SameUrl url other → outstanding events other idx = n) (other : HashedUrl)
    (idx' : ElemIdx) : outstanding (⟨c, .ok⟩ :: events) other idx' =
      if SameUrl url other ∧ idx' = idx then n + 1 else outstanding events other idx' := by
  have seen : outstanding (⟨c, .ok⟩ :: events) other idx' =
      if SameUrl url other ∧ idx' = idx then outstanding events other idx' + 1
      else outstanding events other idx' := by
    rcases call with ⟨data, answer, rfl⟩ | ⟨answer, rfl⟩
    · simp [outstanding]
    · simp [outstanding]
  rw [seen]
  split
  · rename_i here
    rw [here.2, before other here.1]
  · rfl

/-- A failed call of `fetch` hands out none. -/
theorem outstanding_failed {url : HashedUrl} {idx : ElemIdx} {answer : FetchAnswer} {code : Nserror}
    (failed : code ≠ .ok) : outstanding (⟨.fetch url idx answer, code⟩ :: events) =
      outstanding events := by
  funext other idx'
  simp [outstanding, failed]

/-- A release takes one reference. -/
theorem entryReleaseAlloc_counts {elem : StoreEntryElement} {n : Nat}
    (counted : elem.ref.toNat = n ∧ (elem.heap = true ↔ 0 < n)) :
    ((entryReleaseAlloc elem).heap = true ↔ 0 < (entryReleaseAlloc elem).ref.toNat) ∧
      (entryReleaseAlloc elem).ref.toNat = elem.ref.toNat - 1 := by
  obtain ⟨rfl, held⟩ := counted
  unfold entryReleaseAlloc
  by_cases heap : elem.heap = true
  · have positive := held.mp heap
    have less : (elem.ref - 1).toNat = elem.ref.toNat - 1 := by
      have one : (1 : UInt8).toNat = 1 := rfl
      rw [UInt8.toNat_sub_of_le]
      · rw [one]
      · rw [UInt8.le_iff_toNat_le, one]
        exact positive
    rw [if_pos heap]
    dsimp only
    split
    · rename_i none
      refine ⟨?_, less⟩
      simp [none]
    · rename_i some
      refine ⟨?_, less⟩
      have nonzero : (elem.ref - 1).toNat ≠ 0 := fun zero => some (UInt8.toNat_inj.mp zero)
      simp only [heap, true_iff]
      omega
  · rw [if_neg heap]
    have zero : elem.ref.toNat = 0 := by
      rw [held] at heap
      omega
    exact ⟨held, by rw [zero]⟩

theorem namedCounts_call (counts : NamedCounts (outstanding events) state) {c : Call}
    (allowed : Countable env state c) :
    NamedCounts (outstanding (⟨c, (call env state c).2⟩ :: events)) (call env state c).1 := by
  cases c with
  | store url idx data answer =>
      have evicted := closed_namedCounts.storeEvict env counts
      change NamedCounts (outstanding (⟨_, (storeWith answer env state url idx data).2⟩ :: events))
        (storeWith answer env state url idx data).1
      have outcome := storeWith_outcome answer env state url idx data
      generalize storeWith answer env state url idx data = result at outcome
      cases outcome with
      | noList => exact counts
      | noEntry => exact evicted
      | inUse => exact evicted
      | set se middle elem late found free done =>
          have made : NamedCounts (outstanding events) (ensureEntry (storeEvict env state) url) :=
            evicted.ensureEntry
          have set := setElementData_set done
          obtain ⟨written, answered, whole⟩ := allowed.resolve_left late
          have ok : (writeElementUpTo middle se.url idx elem answer.written).2 = .ok := by
            rw [answered]
            exact if_neg (not_lt.mpr (set.size ▸ whole))
          rw [ok]
          apply NamedCounts.write
          refine made.change idx elem found ?_ ?_ set.entries ?_ ?_
          · intro se
            rfl
          · intro se
            rfl
          · simp [set.heap, set.ref]
          · rw [set.ref]
            exact outstanding_handed (Or.inl ⟨data, answer, rfl⟩) fun other here =>
              (made.unheld found free here).1
  | fetch url idx answer =>
      change NamedCounts (outstanding (⟨_, fetchCode (fetchWith answer env state url idx).2⟩ :: events))
        (fetchWith answer env state url idx).1
      have outcome := fetchWith_outcome answer env state url idx
      generalize fetchWith answer env state url idx = result at outcome
      cases outcome with
      | absent =>
          have failed : fetchCode (.error .notFound : Except Nserror (Bytes × Nat)) ≠ .ok := by
            decide
          rw [outstanding_failed failed]
          exact counts
      | held middle bse found heap =>
          obtain ⟨_, present, _, se, before, elems, _⟩ := getStoreEntry_eq_some found
          have touched := closed_namedCounts.getStoreEntry counts found
          have few : (bse.elem idx).ref.toNat < 255 := by
            apply allowed _ _ heap
            rw [elems]
            exact elementAt_eq_some.mpr ⟨se, before, rfl⟩
          have one : (1 : UInt8).toNat = 1 := rfl
          have next : ((bse.elem idx).ref + 1).toNat = (bse.elem idx).ref.toNat + 1 := by
            rw [UInt8.toNat_add, one]
            exact Nat.mod_eq_of_lt (by omega)
          apply touched.setElement present
          · simp [heap, next]
          · rw [next]
            exact outstanding_handed (Or.inr ⟨answer, rfl⟩) fun other here =>
              (touched.of_entry present here idx).1.symm
      | loaded middle bse data found free read =>
          obtain ⟨_, present, _⟩ := getStoreEntry_eq_some found
          have touched := closed_namedCounts.getStoreEntry counts found
          apply touched.setElement present
          · simp
          · exact outstanding_handed (Or.inr ⟨answer, rfl⟩) fun other here =>
              (touched.unheld present free here).1
      | failed middle bse ref code found free count error =>
          obtain ⟨_, present, _⟩ := getStoreEntry_eq_some found
          have touched := closed_namedCounts.getStoreEntry counts found
          have none : ref.toNat = 0 := by
            rcases count with rfl | rfl
            · rfl
            · exact (touched.unheld present free (sameUrl_refl url)).2
          rw [fetchCode, outstanding_failed error]
          apply touched.setElement present
          · simp [none]
          · intro other idx'
            split
            · rename_i here
              rw [here.2, (touched.unheld present free here.1).1, none]
            · rfl
  | release url idx =>
      have counted (other : HashedUrl) (idx' : ElemIdx) :
          outstanding (⟨.release url idx, (release env state url idx).2⟩ :: events) other idx' =
            if SameUrl url other ∧ idx' = idx then outstanding events other idx' - 1
            else outstanding events other idx' := by
        simp [outstanding]
      change NamedCounts (outstanding (⟨.release url idx, (release env state url idx).2⟩ :: events))
        (release env state url idx).1
      apply closed_namedCounts.release
      · intro missing
        have same : outstanding (⟨.release url idx, (release env state url idx).2⟩ :: events) =
            outstanding events := by
          funext other idx'
          rw [counted]
          split
          · rename_i here
            have zero : outstanding events other idx' = 0 := by
              apply counts.absent
              rw [← elementAt_congr here.1, StoreState.elementAt, Option.map_eq_none_iff.mp missing]
              rfl
            rw [zero]
          · rfl
        rw [same]
        exact counts
      · intro middle bse found
        obtain ⟨_, present, _⟩ := getStoreEntry_eq_some found
        have touched := closed_namedCounts.getStoreEntry counts found
        have released : ((entryReleaseAlloc (bse.elem idx)).heap = true ↔
            0 < (entryReleaseAlloc (bse.elem idx)).ref.toNat) ∧
            (entryReleaseAlloc (bse.elem idx)).ref.toNat = (bse.elem idx).ref.toNat - 1 :=
          entryReleaseAlloc_counts (touched.of_entry present (sameUrl_refl url) idx)
        apply touched.setElement present released.1
        intro other idx'
        rw [counted]
        split
        · rename_i here
          rw [here.2, ← (touched.of_entry present here.1 idx).1, released.2]
        · rfl
  | invalidate url => exact closed_namedCounts.invalidate env url counts

theorem namedCounts_run (run : CallRun Countable state events) :
    NamedCounts (outstanding events) state := by
  induction run with
  | start path limit hysteresis =>
      constructor
      · constructor
        · intro url idx elem impossible
          cases impossible
        · intro url idx missing
          rfl
      · intro url se impossible
        cases impossible
  | step env c before allowed ih => exact namedCounts_call ih allowed

/-- An element that has an allocation has this data in it. -/
structure Retains (url : HashedUrl) (idx : ElemIdx) (data : Bytes) (state : StoreState) : Prop where
  named : ∀ url se, state.entries.lookup url = some se → SameUrl se.url url
  data : ∀ elem, state.elementAt url idx = some elem → elem.heap = true → elem.data = data

variable {data : Bytes}

theorem closed_retains : Closed (Retains url idx data) where
  named retains := retains.named
  modify {state} other change kept same retains := by
    constructor
    · exact named_modify rfl same retains.named
    · intro elem present
      have unchanged : StoreState.elementAt { state with
          entries := state.entries.modify other change } url idx = state.elementAt url idx :=
        elementAt_modify change kept rfl rfl
      rw [unchanged] at present
      exact retains.data elem present
  drop {state bse} retains own free := by
    constructor
    · exact named_invalidateEntry free retains.named
    · intro elem present
      rcases elementAt_invalidateEntry state url idx free with ⟨_, gone⟩ | ⟨_, kept⟩
      · rw [gone] at present
        cases present
      · rw [kept] at present
        exact retains.data elem present

theorem Retains.ensureEntry (retains : Retains url idx data state) :
    Retains url idx data (FsBackingStore.ensureEntry state other) := by
  unfold FsBackingStore.ensureEntry
  cases absent : state.entries.lookup other with
  | some se => exact retains
  | none =>
      constructor
      · exact named_insert absent retains.named
      · intro elem present heap
        dsimp only at present
        rw [elementAt_insert absent] at present
        split at present
        · cases present
          cases heap
        · exact retains.data elem present heap

/-- An element may change when it keeps its data, or when it is another one. -/
theorem Retains.change (idx' : ElemIdx) (elem : StoreEntryElement)
    {change : StoreEntry → StoreEntry} (retains : Retains url idx data state)
    (set : ∀ se, (change se).elem = Function.update se.elem idx' elem)
    (kept : ∀ se, (change se).url = se.url)
    (entries_eq : after.entries = state.entries.modify other change)
    (same : SameUrl other url → idx = idx' → elem.heap = true → elem.data = data) :
    Retains url idx data after where
  named := named_modify entries_eq kept retains.named
  data elem' present heap := by
    rcases elementAt_modify_element state url other idx' idx elem set entries_eq with
      ⟨here, this, changed⟩ | ⟨_, unchanged⟩
    · rw [changed] at present
      obtain ⟨_, _, rfl⟩ := Option.map_eq_some_iff.mp present
      exact same here this heap
    · rw [unchanged] at present
      exact retains.data elem' present heap

theorem Retains.setElement {elem : StoreEntryElement} (retains : Retains url idx data state)
    (same : SameUrl other url → idx = idx' → elem.heap = true → elem.data = data) :
    Retains url idx data (state.setElement other idx' elem) := by
  have entries_eq : (state.setElement other idx' elem).entries =
      state.entries.modify other fun se => { se with elem := Function.update se.elem idx' elem } :=
    rfl
  refine retains.change idx' elem ?_ ?_ entries_eq same
  · intro se
    rfl
  · intro se
    rfl

/-- The data of an element with references does not change while it has an allocation. -/
theorem retains_call (counts : NamedCounts (outstanding events) state) {c : Call}
    (held : 0 < outstanding events url idx) (retains : Retains url idx data state) :
    Retains url idx data (call env state c).1 := by
  -- An element of an entry that has no allocation is another element.
  have away {middle : StoreState} {bse : StoreEntry} {other : HashedUrl} {idx' : ElemIdx}
      (counts : NamedCounts (outstanding events) middle)
      (found : middle.entries.lookup other = some bse) (free : (bse.elem idx').heap = false)
      (same : SameUrl bse.url url) (this : idx = idx') : False := by
    subst this
    have here := sameUrl_trans (sameUrl_symm (counts.named other bse found)) same
    have zero := (counts.unheld found free here).1
    omega
  cases c with
  | store other idx' data' answer =>
      have evicted := closed_retains.storeEvict env retains
      change Retains url idx data (storeWith answer env state other idx' data').1
      have outcome := storeWith_outcome answer env state other idx' data'
      generalize storeWith answer env state other idx' data' = result at outcome
      cases outcome with
      | noList => exact retains
      | noEntry => exact evicted
      | inUse => exact evicted
      | set se middle elem late found free done =>
          have made : NamedCounts (outstanding events) (ensureEntry (storeEvict env state) other) :=
            (closed_namedCounts.storeEvict env counts).ensureEntry
          have set := setElementData_set done
          have after : Retains url idx data middle := by
            refine evicted.ensureEntry.change idx' elem ?_ ?_ set.entries ?_
            · intro se
              rfl
            · intro se
              rfl
            · exact fun same this => (away made found free same this).elim
          unfold writeElementUpTo
          split
          · exact after
          · rw [writeElement_eq]
            exact ⟨after.named, after.data⟩
  | fetch other idx' answer =>
      change Retains url idx data (fetchWith answer env state other idx').1
      have outcome := fetchWith_outcome answer env state other idx'
      generalize fetchWith answer env state other idx' = result at outcome
      cases outcome with
      | absent => exact retains
      | held middle bse found heap =>
          obtain ⟨_, present, _⟩ := getStoreEntry_eq_some found
          have touched := closed_retains.getStoreEntry retains found
          apply touched.setElement
          rintro same rfl _
          refine touched.data (bse.elem idx) ?_ heap
          rw [← elementAt_congr same]
          exact elementAt_eq_some.mpr ⟨bse, closed_retains.own touched present, rfl⟩
      | loaded middle bse data' found free read =>
          obtain ⟨_, present, _⟩ := getStoreEntry_eq_some found
          have touched := closed_namedCounts.getStoreEntry counts found
          apply (closed_retains.getStoreEntry retains found).setElement
          exact fun same this => (away touched present free same this).elim
      | failed middle bse ref code found free _ _ =>
          apply (closed_retains.getStoreEntry retains found).setElement
          intro same this impossible
          cases impossible
  | release other idx' =>
      apply closed_retains.release
      · exact fun _ => retains
      · intro middle bse found
        obtain ⟨_, present, _⟩ := getStoreEntry_eq_some found
        have touched := closed_retains.getStoreEntry retains found
        apply touched.setElement
        rintro same rfl still
        obtain ⟨heap, data_eq⟩ := (entryReleaseAlloc_keeps (bse.elem idx)).2.2 still
        rw [data_eq]
        refine touched.data (bse.elem idx) ?_ heap
        rw [← elementAt_congr same]
        exact elementAt_eq_some.mpr ⟨bse, closed_retains.own touched present, rfl⟩
  | invalidate other => exact closed_retains.invalidate env other retains

/-- In every state that such calls reach, the reference counts are the numbers of references that
were handed out and not released. A call frees no data that has references after it. -/
theorem counted_run (run : CallRun Countable state events) :
    Counted (outstanding events) state ∧ ∀ env c, Countable env state c → ∀ url idx elem,
      state.elementAt url idx = some elem → elem.heap = true →
      0 < outstanding (⟨c, (call env state c).2⟩ :: events) url idx →
        ∃ elem', (call env state c).1.elementAt url idx = some elem' ∧ elem'.heap = true ∧
          elem'.data = elem.data := by
  have counts := namedCounts_run run
  refine ⟨counts.toCounted, ?_⟩
  intro env c allowed url idx elem present heap held
  have after := namedCounts_call counts allowed
  have before : 0 < outstanding events url idx := (counts.ref url idx elem present).2.mp heap
  have retains : Retains url idx elem.data state := by
    refine ⟨counts.named, fun other found _ => ?_⟩
    rw [present] at found
    cases found
    rfl
  cases found : (call env state c).1.elementAt url idx with
  | none =>
      have zero := after.absent url idx found
      omega
  | some elem' =>
      have still := (after.ref url idx elem' found).2.mpr held
      exact ⟨elem', rfl, still, (retains_call counts before retains).data elem' found still⟩

/-- A stored element has one reference, and its data stays when it is fetched. -/
theorem counted_run_stored : ∃ url : HashedUrl, ∃ state events,
    Nsurl.nsurlCreate (fun _ => 0) (str "http://h/a") = .ok url.1 ∧
      CallRun Countable state events ∧ outstanding events url .data = 1 ∧
      Counted (outstanding events) state ∧ ∃ elem,
        (call idleEnvironment state (.fetch url .data .whole)).1.elementAt url .data = some elem ∧
          elem.heap = true ∧ elem.data = str "a" := by
  have computed : ∃ url : HashedUrl, ∃ c,
      Nsurl.nsurlCreate (fun _ => 0) (str "http://h/a") = .ok url.1 ∧
      c = .store url .data (str "a") { written := some 1 } ∧
      ((makeCalls 100 10 [c]).1.elementAt url .data).any (fun elem =>
        elem.ref == 1 && elem.heap && elem.data == str "a") = true ∧
      outstanding (makeCalls 100 10 [c]).2 url .data = 1 ∧
      outstanding (makeCalls 100 10 [c, .fetch url .data .whole]).2 url .data = 2 :=
    ⟨⟨_, rfl⟩, _, rfl, rfl, by decide +kernel, by decide +kernel, by decide +kernel⟩
  obtain ⟨url, c, created, rfl, set, one, two⟩ := computed
  have finds : Countable idleEnvironment (initialise [] 100 10)
      (.store url .data (str "a") { written := some 1 }) :=
    Or.inr ⟨1, rfl, by decide⟩
  have run := CallRun.step idleEnvironment _ (.start [] 100 10) finds
  obtain ⟨elem, present, set⟩ := (Option.any_eq_true _ _).mp set
  rw [Bool.and_eq_true, Bool.and_eq_true, beq_iff_eq, beq_iff_eq] at set
  obtain ⟨⟨ref, heap⟩, data⟩ := set
  obtain ⟨counted, kept⟩ := counted_run run
  have few : Countable idleEnvironment (makeCalls 100 10
      [.store url .data (str "a") { written := some 1 }]).1 (.fetch url .data .whole) := by
    intro found here _
    rw [present] at here
    cases here
    rw [ref]
    decide
  have positive := lt_of_lt_of_eq (Nat.zero_lt_succ 1) two.symm
  have held := kept idleEnvironment _ few url .data elem present heap positive
  rw [data] at held
  exact ⟨url, _, _, created, run, one, counted, held⟩

/-- With 257 references the count is one again, and the next release frees the data. -/
theorem freed : ∃ url : HashedUrl, ∃ state events,
    Nsurl.nsurlCreate (fun _ => 0) (str "http://h/a") = .ok url.1 ∧
      CallRun (fun _ _ _ => True) state events ∧ outstanding events url .data = 256 ∧
      ¬ Counted (outstanding events) state := by
  have computed : ∃ url : HashedUrl, ∃ cs,
      Nsurl.nsurlCreate (fun _ => 0) (str "http://h/a") = .ok url.1 ∧
      cs = .store url .data (str "a") { written := some 1 } ::
        (List.replicate 256 (.fetch url .data .whole) ++ [.release url .data]) ∧
      ((makeCalls 100 10 cs).1.elementAt url .data).any (fun elem => !elem.heap) = true ∧
      outstanding (makeCalls 100 10 cs).2 url .data = 256 :=
    ⟨⟨_, rfl⟩, _, rfl, rfl, by decide +kernel, by decide +kernel⟩
  obtain ⟨url, cs, created, _, freed, handed⟩ := computed
  refine ⟨url, _, _, created, callRun_makeCalls 100 10 cs, handed, ?_⟩
  intro counted
  obtain ⟨elem, present, unheld⟩ := (Option.any_eq_true _ _).mp freed
  have held := (counted.ref url .data elem present).2.mpr (by rw [handed]; decide)
  rw [held] at unheld
  cases unheld

end Neosurf.FsBackingStore
