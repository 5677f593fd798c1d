import Neosurf.Proof.FsBackingStore.Reload

namespace Neosurf.FsBackingStore

variable {env : Environment} {state middle after : StoreState} {events : List Event}
  {url other : HashedUrl} {idx : ElemIdx} {bse : StoreEntry}

/-- The size of both elements of an entry. -/
def StoreEntry.size (se : StoreEntry) : Nat := (se.elem .data).size + (se.elem .metadata).size

/-- The total allocation is the sum of the sizes of all entries. -/
structure Accounted (state : StoreState) : Prop where
  named : ∀ url se, state.entries.lookup url = some se → SameUrl se.url url
  total : state.totalAlloc.toNat = state.entries.sum StoreEntry.size

theorem toNat_sub_ofNat {a : UInt64} {n : Nat} (enough : n ≤ a.toNat) :
    (a - UInt64.ofNat n).toNat = a.toNat - n := by
  have small : (UInt64.ofNat n).toNat = n :=
    UInt64.toNat_ofNat_of_lt' (lt_of_le_of_lt enough a.toNat_lt)
  rw [UInt64.toNat_sub_of_le _ _ (UInt64.le_iff_toNat_le.mpr (by rwa [small])), small]

theorem toNat_add_ofNat {a : UInt64} {n : Nat} (small : a.toNat + n < 2 ^ 64) :
    (a + UInt64.ofNat n).toNat = a.toNat + n := by
  have fits : n < UInt64.size := lt_of_le_of_lt (Nat.le_add_left n a.toNat) small
  rw [UInt64.toNat_add, UInt64.toNat_ofNat_of_lt' fits]
  exact Nat.mod_eq_of_lt small

/-- An entry that is removed gives back its size. -/
theorem totalAlloc_drop (accounted : Accounted state)
    (own : state.entries.lookup bse.url = some bse) (free : ¬ bse.Busy) :
    (invalidateEntry state bse).totalAlloc.toNat + bse.size = state.totalAlloc.toNat ∧
      (invalidateEntry state bse).entries = state.entries.remove bse.url := by
  have removed := Hashmap.sum_remove (f := StoreEntry.size) own
  have total := accounted.total
  have change (state : StoreState) (idx : ElemIdx) : (invalidateElement state bse idx).totalAlloc =
      state.totalAlloc - UInt64.ofNat (bse.elem idx).size := by
    unfold invalidateElement
    dsimp only
    split <;> rfl
  rw [StoreEntry.size] at *
  rw [invalidateEntry_free free]
  dsimp only
  rw [change, change, toNat_sub_ofNat, toNat_sub_ofNat]
  · refine ⟨?_, rfl⟩
    omega
  · omega
  · rw [toNat_sub_ofNat]
    · omega
    · omega

theorem closed_accounted : Closed Accounted where
  named accounted := accounted.named
  modify other change kept same accounted := by
    constructor
    · exact named_modify rfl same accounted.named
    · dsimp only
      rw [Hashmap.sum_modify_kept, accounted.total]
      intro se
      rw [StoreEntry.size, StoreEntry.size, kept]
  drop accounted own free := by
    obtain ⟨less, entries⟩ := totalAlloc_drop accounted own free
    have removed := Hashmap.sum_remove (f := StoreEntry.size) own
    have total := accounted.total
    constructor
    · exact named_invalidateEntry free accounted.named
    · rw [entries]
      omega

/-- A new entry has no size. -/
theorem Accounted.ensureEntry (accounted : Accounted state) :
    Accounted (FsBackingStore.ensureEntry state url) := by
  unfold FsBackingStore.ensureEntry
  cases absent : state.entries.lookup url with
  | some se => exact accounted
  | none =>
      constructor
      · exact named_insert absent accounted.named
      · have new : StoreEntry.size (entriesHashmapParameters.valueAlloc url) = 0 := rfl
        dsimp only
        rw [Hashmap.insert_eq_put absent, Hashmap.sum_put absent, accounted.total, new, Nat.add_zero]

/-- An entry with a changed element has another size. -/
theorem sum_change {elem : StoreEntryElement} {change : StoreEntry → StoreEntry}
    (own : state.entries.lookup bse.url = some bse)
    (set : ∀ se, (change se).elem = Function.update se.elem idx elem) :
    (state.entries.modify bse.url change).sum StoreEntry.size + (bse.elem idx).size =
      state.entries.sum StoreEntry.size + elem.size := by
  have sums := Hashmap.sum_modify (f := StoreEntry.size) change own
  rw [StoreEntry.size, StoreEntry.size, set] at sums
  cases idx with
  | data =>
      simp only [Function.update_self, Function.update_of_ne, ne_eq, reduceCtorEq,
        not_false_eq_true] at sums
      omega
  | metadata =>
      simp only [Function.update_self, Function.update_of_ne, ne_eq, reduceCtorEq,
        not_false_eq_true] at sums
      omega

theorem Accounted.setElement {elem : StoreEntryElement} (accounted : Accounted state)
    (own : state.entries.lookup bse.url = some bse) (size : elem.size = (bse.elem idx).size) :
    Accounted (state.setElement bse.url idx elem) := by
  have entries_eq : (state.setElement bse.url idx elem).entries =
      state.entries.modify bse.url fun se => { se with elem := Function.update se.elem idx elem } :=
    rfl
  have total_eq : (state.setElement bse.url idx elem).totalAlloc = state.totalAlloc := rfl
  have sums : (state.setElement bse.url idx elem).entries.sum StoreEntry.size +
      (bse.elem idx).size = state.entries.sum StoreEntry.size + elem.size :=
    entries_eq ▸ sum_change own fun _ => rfl
  have total := accounted.total
  constructor
  · exact named_modify entries_eq (fun _ => rfl) accounted.named
  · rw [total_eq]
    omega

/-- The total allocation after a call of `store` that sets an element is less than 2^64. -/
def Fits (env : Environment) (state : StoreState) : Call → Prop
  | .store url idx data answer => FailsEarly answer env state url idx ∨
      (storeEvict env state).totalAlloc.toNat -
        (((storeEvict env state).elementAt url idx).elim 0 StoreEntryElement.size) +
          data.length % 2 ^ 32 < 2 ^ 64
  | _ => True

theorem Accounted.writeElementUpTo {elem : StoreEntryElement} (written : Option Nat)
    (accounted : Accounted state) :
    Accounted (FsBackingStore.writeElementUpTo state url idx elem written).1 := by
  unfold FsBackingStore.writeElementUpTo
  split
  · exact accounted
  · rw [writeElement_eq]
    exact ⟨accounted.named, accounted.total⟩

theorem accounted_call (accounted : Accounted state) {c : Call} (allowed : Fits env state c) :
    Accounted (call env state c).1 := by
  cases c with
  | store url idx data answer =>
      change Accounted (storeWith answer env state url idx data).1
      have evicted := closed_accounted.storeEvict env accounted
      have outcome := storeWith_outcome answer env state url idx data
      generalize storeWith answer env state url idx data = result at outcome
      cases outcome with
      | noList => exact accounted
      | noEntry => exact evicted
      | inUse => exact evicted
      | set se middle elem late found free done =>
          have made : Accounted (ensureEntry (storeEvict env state) url) := evicted.ensureEntry
          have own := closed_accounted.own made found
          have set := setElementData_set done
          have fits := allowed.resolve_left late
          -- The element that is overwritten counts in the sum.
          have same : (ensureEntry (storeEvict env state) url).totalAlloc =
              (storeEvict env state).totalAlloc := by
            unfold ensureEntry
            split <;> rfl
          have old : ((storeEvict env state).elementAt url idx).elim 0 StoreEntryElement.size =
              (se.elem idx).size := by
            rcases ensureEntry_cases found with ⟨_, present⟩ | ⟨missing, rfl⟩
            · rw [elementAt_eq_some.mpr ⟨se, present, rfl⟩]
              rfl
            · rw [StoreState.elementAt, missing]
              rfl
          have counted : (se.elem idx).size ≤ (storeEvict env state).totalAlloc.toNat := by
            have removed := Hashmap.sum_remove (f := StoreEntry.size) own
            have total := made.total
            rw [same] at total
            have part : (se.elem idx).size ≤ se.size := by
              rw [StoreEntry.size]
              cases idx <;> omega
            omega
          have sums : middle.entries.sum StoreEntry.size + (se.elem idx).size =
              (ensureEntry (storeEvict env state) url).entries.sum StoreEntry.size + elem.size :=
            set.entries ▸ sum_change own fun _ => rfl
          apply Accounted.writeElementUpTo
          constructor
          · exact named_modify set.entries (fun _ => rfl) made.named
          · have total := made.total
            rw [old, ← set.size] at fits
            rw [same] at total
            rw [set.totalAlloc, same, toNat_add_ofNat, toNat_sub_ofNat counted]
            · omega
            · rw [toNat_sub_ofNat counted]
              exact fits
  | fetch url idx answer =>
      change Accounted (fetchWith answer env state url idx).1
      rcases fetchWith_cases answer env state url idx with
        same | ⟨middle, bse, elem, found, size, _, set⟩
      · rw [same]
        exact accounted
      · obtain ⟨_, present, _⟩ := getStoreEntry_eq_some found
        have touched := closed_accounted.getStoreEntry accounted found
        rw [set]
        exact touched.setElement (closed_accounted.own touched present) size
  | release url idx =>
      apply closed_accounted.release env fun _ => accounted
      intro middle bse found
      have touched := closed_accounted.getStoreEntry accounted found
      obtain ⟨_, present, _⟩ := getStoreEntry_eq_some found
      exact touched.setElement (closed_accounted.own touched present)
        (entryReleaseAlloc_keeps (bse.elem idx)).1
  | invalidate url => exact closed_accounted.invalidate env url accounted

/-- The texts of two entries do not read back as equal URLs. -/
def ReadsApart (junk : Nsurl.Buff) (state : StoreState) : Prop :=
  (writeEntries state).Pairwise fun a b => ∀ u v, Nsurl.nsurlCreate junk a.1 = .ok u →
    Nsurl.nsurlCreate junk b.1 = .ok v → Nsurl.compare u v Nsurl.COMPLETE = false

variable {junk : Nsurl.Buff} {record : Bytes × StoreEntry} {records : Records}

/-- An entry that is loaded for a new URL counts in the sum. -/
theorem Accounted.loadEntry (ent : StoreEntry) (accounted : Accounted state)
    (absent : state.entries.lookup url = none) (room : state.totalAlloc.toNat + ent.size < 2 ^ 64) :
    Accounted (FsBackingStore.loadEntry state url ent) ∧
      (FsBackingStore.loadEntry state url ent).totalAlloc.toNat =
        state.totalAlloc.toNat + ent.size := by
  have total : (FsBackingStore.loadEntry state url ent).totalAlloc.toNat =
      state.totalAlloc.toNat + ent.size := by
    rw [StoreEntry.size] at room ⊢
    rw [FsBackingStore.loadEntry]
    dsimp only
    rw [toNat_add_ofNat, toNat_add_ofNat]
    · omega
    · omega
    · rw [toNat_add_ofNat]
      · omega
      · omega
  refine ⟨?_, total⟩
  constructor
  · intro other se found
    rw [FsBackingStore.loadEntry] at found
    dsimp only at found
    rw [Hashmap.lookup_put] at found
    split at found
    · rename_i same
      cases found
      exact same
    · exact accounted.named other se found
  · rw [total, FsBackingStore.loadEntry]
    dsimp only
    rw [Hashmap.sum_put absent, accounted.total]
    rfl

/-- Records whose URLs are apart from each other and from those in the table are counted. -/
theorem accounted_readEntries (accounted : Accounted state)
    (room : state.totalAlloc.toNat + (records.map fun record => record.2.size).sum < 2 ^ 64)
    (apart : records.Pairwise fun a b => ∀ u v, Nsurl.nsurlCreate junk a.1 = .ok u →
      Nsurl.nsurlCreate junk b.1 = .ok v → Nsurl.compare u v Nsurl.COMPLETE = false)
    (outside : ∀ url se, state.entries.lookup url = some se → ∀ record ∈ records, ∀ v,
      Nsurl.nsurlCreate junk record.1 = .ok v →
        Nsurl.compare url.1 v Nsurl.COMPLETE = false)
    (done : readEntries junk state records = .ok after) : Accounted after := by
  induction records generalizing state with
  | nil =>
      cases done
      exact accounted
  | cons record rest ih =>
      obtain ⟨url, created, done⟩ := readEntries_cons done
      obtain ⟨first, later⟩ := List.pairwise_cons.mp apart
      have absent : state.entries.lookup url = none := by
        cases found : state.entries.lookup url with
        | none => rfl
        | some se =>
            have other := outside url se found record List.mem_cons_self url.1 created
            have same : Nsurl.compare url.1 url.1 Nsurl.COMPLETE = true := sameUrl_refl url
            rw [same] at other
            cases other
      rw [List.map_cons, List.sum_cons] at room
      obtain ⟨next, total⟩ := accounted.loadEntry record.2 absent (by omega)
      refine ih next ?_ later ?_ done
      · rw [total]
        omega
      · intro other se found record' inside v created'
        rw [loadEntry] at found
        dsimp only at found
        rw [Hashmap.lookup_put] at found
        split at found
        · rename_i same
          have away := first record' inside url.1 v created created'
          rw [Bool.eq_false_iff] at away ⊢
          exact fun seen => away (Nsurl.compare_complete_iff.mpr
            ((Nsurl.compare_complete_iff.mp same).trans (Nsurl.compare_complete_iff.mp seen)))
        · exact outside other se found record' (List.mem_cons_of_mem _ inside) v created'

/-- The sizes in the records have the sum of the sizes in the store. -/
theorem sum_writeEntries (state : StoreState) :
    ((writeEntries state).map fun record => record.2.size).sum =
      state.entries.sum StoreEntry.size := by
  rw [writeEntries, List.map_map]
  rfl

/-- The total allocation is the sum of the sizes in every state of such a session. -/
theorem accounted_session (run : SessionRun Fits ReadsApart state events) : Accounted state := by
  induction run with
  | start path limit hysteresis =>
      constructor
      · intro url se impossible
        cases impossible
      · exact Hashmap.sum_create.symm
  | step env c before allowed ih => exact accounted_call ih allowed
  | @reload state after events junk limit hysteresis useMap before allowed done ih =>
      refine accounted_readEntries ?_ ?_ allowed ?_ done
      · constructor
        · intro url se impossible
          cases impossible
        · exact Hashmap.sum_create.symm
      · rw [sum_writeEntries, ← ih.total]
        change 0 + _ < _
        rw [Nat.zero_add]
        exact state.totalAlloc.toNat_lt
      · intro url se impossible
        cases impossible

/-- No element has an allocation. -/
def Unreferenced (state : StoreState) : Prop :=
  ∀ url idx elem, state.elementAt url idx = some elem → elem.heap = false

theorem not_busy_of_unreferenced (unreferenced : Unreferenced state)
    (own : state.entries.lookup bse.url = some bse) : ¬ bse.Busy := by
  have free (idx : ElemIdx) : (bse.elem idx).heap = false :=
    unreferenced bse.url idx _ (elementAt_eq_some.mpr ⟨bse, own, rfl⟩)
  rw [StoreEntry.Busy, free, free]
  decide

/-- The loop removes more than the hysteresis, or it removes every entry. -/
theorem evictEntries_enough (urls : List HashedUrl) (removed : Nat) (accounted : Accounted state)
    (unreferenced : Unreferenced state)
    (listed : ∀ url se, state.entries.lookup url = some se → ∃ u ∈ urls, SameUrl u url) :
    (evictEntries urls removed state).totalAlloc.toNat ≤ state.totalAlloc.toNat ∧
      (state.hysteresis < removed +
          (state.totalAlloc.toNat - (evictEntries urls removed state).totalAlloc.toNat) ∨
        ∀ url, (evictEntries urls removed state).entries.lookup url = none) := by
  induction urls generalizing state removed with
  | nil =>
      refine ⟨le_rfl, Or.inr fun url => ?_⟩
      cases found : state.entries.lookup url with
      | none => exact found
      | some se =>
          obtain ⟨_, impossible, _⟩ := listed url se found
          cases impossible
  | cons first rest ih =>
      rw [evictEntries]
      cases found : state.entries.lookup first with
      | none =>
          apply ih removed accounted unreferenced
          intro url se present
          obtain ⟨u, inside, same⟩ := listed url se present
          rcases List.mem_cons.mp inside with rfl | inside
          · rw [lookup_congr same, present] at found
            cases found
          · exact ⟨u, inside, same⟩
      | some bse =>
          have own := closed_accounted.own accounted found
          have free := not_busy_of_unreferenced unreferenced own
          obtain ⟨less, entries⟩ := totalAlloc_drop accounted own free
          have hysteresis : (invalidateEntry state bse).hysteresis = state.hysteresis := by
            rw [invalidateEntry_free free]
            unfold invalidateElement
            dsimp only
            split_ifs <;> rfl
          have kept (url : HashedUrl) (se : StoreEntry)
              (present : (invalidateEntry state bse).entries.lookup url = some se) :
              ¬ SameUrl bse.url url ∧ state.entries.lookup url = some se := by
            rw [entries, Hashmap.lookup_remove] at present
            split at present
            · cases present
            · rename_i different
              exact ⟨different, present⟩
          have size : (bse.elem .data).size + (bse.elem .metadata).size = bse.size := rfl
          dsimp only
          rw [Nat.add_assoc, size, hysteresis]
          split
          · refine ⟨by omega, Or.inl ?_⟩
            omega
          · obtain ⟨fewer, enough⟩ := ih (removed + bse.size) (closed_accounted.drop accounted own free)
              (fun url idx elem seen => by
                obtain ⟨se, present, rfl⟩ := elementAt_eq_some.mp seen
                exact unreferenced url idx _
                  (elementAt_eq_some.mpr ⟨se, (kept url se present).2, rfl⟩))
              (fun url se present => by
                obtain ⟨different, present⟩ := kept url se present
                obtain ⟨u, inside, same⟩ := listed url se present
                rcases List.mem_cons.mp inside with rfl | inside
                · have named := accounted.named u bse found
                  exact absurd (sameUrl_trans named same) different
                · exact ⟨u, inside, same⟩)
            refine ⟨by omega, ?_⟩
            rcases enough with enough | none
            · rw [hysteresis] at enough
              left
              omega
            · exact Or.inr none

/-- An eviction pass with no referenced elements frees more than the hysteresis, or it leaves no
entry. -/
theorem storeEvict_enough (sorted : ∀ entries, (env.qsort compar entries).Perm entries)
    (accounted : Accounted state) (unreferenced : Unreferenced state)
    (reached : state.limit ≤ state.totalAlloc.toNat) :
    (storeEvict env state).totalAlloc.toNat ≤ state.totalAlloc.toNat ∧
      (state.hysteresis < state.totalAlloc.toNat - (storeEvict env state).totalAlloc.toNat ∨
        ∀ url, (storeEvict env state).entries.lookup url = none) := by
  rw [storeEvict, if_neg (not_lt.mpr reached)]
  have enough := evictEntries_enough
    ((env.qsort compar state.entries.iterate).map StoreEntry.url) 0 accounted unreferenced ?_
  · rwa [Nat.zero_add] at enough
  · intro url se found
    refine ⟨se.url, ?_, accounted.named url se found⟩
    apply List.mem_map_of_mem
    exact (sorted _).mem_iff.mpr (Hashmap.mem_iterate found)

/-- The total allocation is the sum of the sizes, and an eviction pass with no referenced elements
frees enough of it. -/
theorem totalAlloc_session (sorted : ∀ entries, (env.qsort compar entries).Perm entries)
    (run : SessionRun Fits ReadsApart state events) :
    state.totalAlloc.toNat = state.entries.sum StoreEntry.size ∧
      (Unreferenced state → state.limit ≤ state.totalAlloc.toNat →
        (storeEvict env state).totalAlloc.toNat ≤ state.totalAlloc.toNat ∧
          (state.hysteresis < state.totalAlloc.toNat - (storeEvict env state).totalAlloc.toNat ∨
            ∀ url, (storeEvict env state).entries.lookup url = none)) := by
  have accounted := accounted_session run
  exact ⟨accounted.total, storeEvict_enough sorted accounted⟩

/-- One byte is stored, and the index is written and read back. -/
theorem totalAlloc_session_stored : ∃ state events,
    SessionRun Fits ReadsApart state events ∧ state.totalAlloc.toNat = 1 ∧
      state.totalAlloc.toNat = state.entries.sum StoreEntry.size ∧
      (Unreferenced state → state.limit ≤ state.totalAlloc.toNat →
        (storeEvict idleEnvironment state).totalAlloc.toNat ≤ state.totalAlloc.toNat ∧
          (state.hysteresis <
              state.totalAlloc.toNat - (storeEvict idleEnvironment state).totalAlloc.toNat ∨
            ∀ url, (storeEvict idleEnvironment state).entries.lookup url = none)) := by
  have computed : ∃ url : HashedUrl, ∃ c,
      Nsurl.nsurlCreate (fun _ => 0) (str "http://h/a") = .ok url.1 ∧
      c = Call.store url .data (str "a") { written := some 1 } ∧
      (writeEntries (makeCalls 1 0 [c]).1).length = 1 ∧
      (reload (fun _ => 0) 1 0 (fun _ block => block < 2) (makeCalls 1 0 [c]).1).toOption.any
        (fun state => state.totalAlloc.toNat == 1) = true :=
    ⟨⟨_, rfl⟩, _, rfl, rfl, by decide +kernel, by decide +kernel⟩
  obtain ⟨url, c, _, rfl, single, done⟩ := computed
  have finds : Fits idleEnvironment (initialise [] 1 0)
      (.store url .data (str "a") { written := some 1 }) := by
    right
    have unchanged : storeEvict idleEnvironment (initialise [] 1 0) = initialise [] 1 0 := rfl
    have empty : (initialise [] 1 0).elementAt url .data = none := rfl
    rw [unchanged, empty]
    decide
  have once : SessionRun Fits ReadsApart _ _ := .step idleEnvironment _ (.start [] 1 0) finds
  have apart : ReadsApart (fun _ => 0)
      (makeCalls 1 0 [.store url .data (str "a") { written := some 1 }]).1 := by
    obtain ⟨record, only⟩ := List.length_eq_one_iff.mp single
    rw [ReadsApart, only]
    exact List.pairwise_singleton _ _
  obtain ⟨after, run, one⟩ := session_reload once apart done
  exact ⟨after, _, run, beq_iff_eq.mp one,
    totalAlloc_session (fun _ => List.Perm.refl _) run⟩

/-- Two URLs whose texts read back as equal URLs are both counted, but only one entry stays. -/
theorem readTwice : ∃ u v : HashedUrl, ∃ state events,
    Nsurl.nsurlCreate (fun _ => 0) (str "http://h/%%34%31") = .ok u.1 ∧
      Nsurl.nsurlCreate (fun _ => 0) (str "http://h/A") = .ok v.1 ∧
      SessionRun (fun _ _ _ => True) (fun _ _ => True) state events ∧
      state.totalAlloc.toNat = 2 ∧ state.entries.sum StoreEntry.size = 1 := by
  have computed : ∃ u v : HashedUrl, ∃ cs,
      Nsurl.nsurlCreate (fun _ => 0) (str "http://h/%%34%31") = .ok u.1 ∧
      Nsurl.nsurlCreate (fun _ => 0) (str "http://h/A") = .ok v.1 ∧
      cs = [Call.store u .data (str "a") { written := some 1 },
        Call.store v .data (str "b") { written := some 1 }] ∧
      (reload (fun _ => 0) 100 10 (fun _ block => block < 3) (makeCalls 100 10 cs).1).toOption.any
        (fun state => state.totalAlloc.toNat == 2 && state.entries.sum StoreEntry.size == 1) = true :=
    ⟨⟨_, rfl⟩, ⟨_, rfl⟩, _, rfl, rfl, rfl, by decide +kernel⟩
  obtain ⟨u, v, cs, first, second, rfl, done⟩ := computed
  have once : SessionRun (fun _ _ _ => True) (fun _ _ => True) _ _ :=
    .step idleEnvironment (.store u .data (str "a") { written := some 1 }) (.start [] 100 10) trivial
  have twice := SessionRun.step idleEnvironment
    (.store v .data (str "b") { written := some 1 }) once trivial
  obtain ⟨after, run, sums⟩ := session_reload twice trivial done
  rw [Bool.and_eq_true, beq_iff_eq, beq_iff_eq] at sums
  exact ⟨u, v, after, _, first, second, run, sums⟩

end Neosurf.FsBackingStore
