import Neosurf.Proof.FsBackingStore.Store
import Neosurf.Construction.Nsurl.Create

namespace Neosurf.FsBackingStore

variable {env : Environment} {state middle after : StoreState} {history : History}
  {url : HashedUrl} {idx : ElemIdx} {data : Bytes} {length : Nat}

/-- An element has an allocation that was not released. -/
def InUse (state : StoreState) (url : HashedUrl) (idx : ElemIdx) : Prop :=
  ∃ elem, state.elementAt url idx = some elem ∧ elem.heap = true

/-- The data of a call of `store` finds room, or the call fails since the element is in use. An
element that was never stored has no old file when it is fetched. -/
def Allowed (state : StoreState) : Operation → Prop
  | .store url idx data =>
      InUse state url idx ∨ (data.length < 2 ^ 32 ∧ Room state url idx data)
  | .fetch url idx => ∀ elem, state.elementAt url idx = some elem → elem.Fresh →
      state.files (state.elementName url idx) = none
  | .release _ _ => True
  | .invalidate _ => True

/-- An element in use is not removed. -/
theorem inUse_invalidateEntry {bse : StoreEntry} (present : state.entries.lookup bse.url = some bse)
    (used : InUse state url idx) : InUse (invalidateEntry state bse) url idx := by
  obtain ⟨elem, found, heap⟩ := used
  refine ⟨elem, ?_, heap⟩
  by_cases busy : ((bse.elem .data).heap || (bse.elem .metadata).heap) = true
  · rw [invalidateEntry_busy busy, ← found]
    exact elementAt_modify (fun se => { se with invalid := true }) (fun _ => rfl) rfl rfl
  · rcases elementAt_invalidateEntry state url idx busy with ⟨same, _⟩ | ⟨_, unchanged⟩
    · have own : state.elementAt url idx = some (bse.elem idx) := by
        rw [← elementAt_congr same]
        exact elementAt_eq_some.mpr ⟨bse, present, rfl⟩
      rw [own, Option.some.injEq] at found
      rw [← found] at heap
      cases idx <;> simp [heap] at busy
    · rw [unchanged, found]

theorem inUse_evictEntries (urls : List HashedUrl) (removed : Nat)
    (isolated : Isolated state history) (used : InUse state url idx) :
    InUse (evictEntries urls removed state) url idx := by
  induction urls generalizing state removed with
  | nil => exact used
  | cons first rest ih =>
      rw [evictEntries]
      cases found : state.entries.lookup first with
      | none => exact ih removed isolated used
      | some bse =>
          have own : state.entries.lookup bse.url = some bse := by
            rw [lookup_congr (isolated.named first bse found), found]
          have still := inUse_invalidateEntry own used
          dsimp only
          split
          · exact still
          · have shrinks := shrinks_invalidateEntry isolated own
            exact ih _ (isolated_of_shrinks shrinks isolated) still

theorem inUse_storeEvict (isolated : Isolated state history) (used : InUse state url idx) :
    InUse (storeEvict env state) url idx := by
  unfold storeEvict
  split
  · exact used
  · exact inUse_evictEntries _ _ isolated used

theorem inUse_ensureEntry {other : HashedUrl} (used : InUse state url idx) :
    InUse (ensureEntry state other) url idx := by
  obtain ⟨elem, found, heap⟩ := used
  refine ⟨elem, ?_, heap⟩
  unfold ensureEntry
  cases absent : state.entries.lookup other with
  | some se => exact found
  | none =>
      dsimp only
      rw [← found, StoreState.elementAt, StoreState.elementAt, Hashmap.lookup_insert absent]
      split
      · rename_i same
        rw [StoreState.elementAt, ← lookup_congr same, absent] at found
        cases found
      · rfl

theorem latest_congr {other : HashedUrl} (same : SameUrl url other) :
    latest history other idx = latest history url idx := by
  have agree (stored : HashedUrl × ElemIdx × Bytes) :
      Nsurl.compare stored.1.1 other.1 Nsurl.COMPLETE =
        Nsurl.compare stored.1.1 url.1 Nsurl.COMPLETE := by
    rw [Bool.eq_iff_iff, ← sameUrl_iff, ← sameUrl_iff]
    exact ⟨fun first => sameUrl_trans first (sameUrl_symm same), fun first =>
      sameUrl_trans first same⟩
  simp only [latest, agree]

/-- A released element keeps its size and its block, and its data while it is in use. -/
theorem entryReleaseAlloc_keeps (elem : StoreEntryElement) :
    (entryReleaseAlloc elem).size = elem.size ∧ (entryReleaseAlloc elem).block = elem.block ∧
      ((entryReleaseAlloc elem).heap = true → elem.heap = true ∧
        (entryReleaseAlloc elem).data = elem.data) := by
  unfold entryReleaseAlloc
  by_cases heap : elem.heap = true
  · rw [if_pos heap]
    dsimp only
    split
    · exact ⟨rfl, rfl, fun impossible => by cases impossible⟩
    · exact ⟨rfl, rfl, fun used => ⟨used, rfl⟩⟩
  · rw [if_neg heap]
    exact ⟨rfl, rfl, fun used => ⟨used, rfl⟩⟩

theorem writtenAt_congr {other : HashedUrl} (same : SameUrl url other) (elem : StoreEntryElement) :
    writtenAt state url idx elem = writtenAt state other idx elem := by
  rw [writtenAt, writtenAt, elementName_congr rfl same]

/-- A call of `store` fails after it has made room, or it writes the element of its entry. -/
theorem store_cases (env : Environment) (state : StoreState) (url : HashedUrl) (idx : ElemIdx)
    (data : Bytes) :
    (∃ code, code ≠ .ok ∧
      store env state url idx data = (ensureEntry (storeEvict env state) url, code)) ∨
    ∃ se middle elem, (ensureEntry (storeEvict env state) url).entries.lookup url = some se ∧
      (se.elem idx).heap = false ∧
      setElementData env (ensureEntry (storeEvict env state) url) se idx data = (middle, elem) ∧
      store env state url idx data = (writeElement middle se.url idx elem, .ok) := by
  unfold store
  dsimp only
  cases found : (ensureEntry (storeEvict env state) url).entries.lookup url with
  | none => exact Or.inl ⟨.nomem, by decide, rfl⟩
  | some se =>
      dsimp only
      cases heap : (se.elem idx).heap with
      | true => exact Or.inl ⟨.permission, by decide, rfl⟩
      | false => exact Or.inr ⟨se, _, _, rfl, heap, rfl, rfl⟩

/-- A call of `store` keeps the elements isolated. -/
theorem isolated_store (isolated : Isolated state history)
    (allowed : Allowed state (.store url idx data)) :
    Isolated (store env state url idx data).1 (record env state history (.store url idx data)) := by
  have shrinks : Shrinks state (ensureEntry (storeEvict env state) url) :=
    shrinks_trans (shrinks_storeEvict isolated) shrinks_ensureEntry
  have ready := isolated_of_shrinks shrinks isolated
  have calls : record env state history (.store url idx data) =
      if (store env state url idx data).2 = .ok then (url, idx, data) :: history else history :=
    rfl
  rw [calls]
  rcases store_cases env state url idx data with
    ⟨code, failed, result⟩ | ⟨se, middle, elem, found, heap, done, result⟩
  · rw [result, if_neg failed]
    exact ready
  · rw [result, if_pos rfl]
    rcases allowed with used | ⟨short, room⟩
    · have still : InUse (ensureEntry (storeEvict env state) url) url idx :=
        inUse_ensureEntry (inUse_storeEvict isolated used)
      obtain ⟨elem, own, used⟩ := still
      obtain ⟨se', present, rfl⟩ := elementAt_eq_some.mp own
      rw [found, Option.some.injEq] at present
      rw [← present, heap] at used
      cases used
    · have room := Room.shrinks shrinks room
      have taken := setElementData_taken ready room found short done
      dsimp only
      rw [writeElement_eq, writtenAt_congr (ready.named url se found), taken.taken, taken.size,
        List.take_length]
      exact taken.isolated ready room

/-- What an element reads is the data that was stored last. -/
theorem readElement_latest {bse : StoreEntry} (isolated : Isolated state history)
    (present : state.entries.lookup url = some bse)
    (allowed : (bse.elem idx).Fresh → state.files (state.elementName url idx) = none)
    (done : readElement state bse idx = .ok data) :
    latest history url idx = some data ∧ data.length = (bse.elem idx).size := by
  have kept := isolated.kept url idx (bse.elem idx) (elementAt_eq_some.mpr ⟨bse, present, rfl⟩)
  have own : state.elementName bse.url idx = state.elementName url idx :=
    elementName_congr rfl (isolated.named url bse present)
  unfold readElement at done
  by_cases inBlock : (bse.elem idx).block ≠ 0
  · rw [if_pos inBlock] at done
    unfold storeReadBlock at done
    dsimp only at done
    split at done
    · rename_i whole
      cases done
      rcases kept with fresh | ⟨kept, last, length, _, disk⟩
      · exact absurd fresh.2.1 inBlock
      · rw [disk.1 inBlock] at whole ⊢
        exact ⟨last, whole⟩
    · cases done
  · rw [if_neg inBlock] at done
    unfold storeReadFile at done
    rw [own] at done
    cases found : state.files (state.elementName url idx) with
    | none =>
        rw [found] at done
        cases done
    | some file =>
        rw [found] at done
        dsimp only at done
        split at done
        · rename_i whole
          cases done
          refine ⟨?_, whole⟩
          rcases kept with fresh | ⟨kept, last, length, _, disk⟩
          · rw [allowed fresh] at found
            cases found
          · by_cases nothing : (bse.elem idx).size = 0
            · rw [nothing] at length ⊢
              rw [last, List.length_eq_zero_iff.mp length, PosixFile.pread_zero]
            · rw [last, disk.2 ⟨not_not.mp inBlock, nothing⟩ file found whole]
        · cases done

/-- A call of `fetch` keeps the elements isolated, and it answers with the data stored last. -/
theorem isolated_fetch (isolated : Isolated state history)
    (allowed : Allowed state (.fetch url idx)) :
    Isolated (fetch env state url idx).1 history ∧
      ∀ data length, (fetch env state url idx).2 = .ok (data, length) →
        latest history url idx = some data ∧ length = data.length := by
  unfold fetch
  cases found : getStoreEntry env state url with
  | none => exact ⟨isolated, fun _ _ impossible => by cases impossible⟩
  | some pair =>
      obtain ⟨middle, bse⟩ := pair
      obtain ⟨shrinks, present, files, se, before, elems, _⟩ := getStoreEntry_eq_some found
      have ready := isolated_of_shrinks shrinks isolated
      have own : middle.elementAt bse.url idx = some (bse.elem idx) := by
        rw [elementAt_congr (ready.named url bse present)]
        exact elementAt_eq_some.mpr ⟨bse, present, rfl⟩
      have unstored (fresh : (bse.elem idx).Fresh) :
          middle.files (middle.elementName url idx) = none := by
        rw [files, elementName_congr shrinks.path (sameUrl_refl url)]
        apply allowed (bse.elem idx) _ fresh
        exact elementAt_eq_some.mpr ⟨se, before, by rw [elems]⟩
      dsimp only
      by_cases heap : (bse.elem idx).heap = true
      · simp only [heap, if_true]
        constructor
        · apply isolated_of_shrinks _ ready
          exact calm_setElement own rfl rfl fun _ => Or.inl ⟨heap, rfl⟩
        · intro data length answer
          cases answer
          have kept := ready.kept url idx (bse.elem idx) (elementAt_eq_some.mpr ⟨bse, present, rfl⟩)
          rcases kept with fresh | ⟨kept, last, whole, same, _⟩
          · exact absurd (fresh.2.2.symm.trans heap) Bool.false_ne_true
          · rw [same heap]
            exact ⟨last, whole.symm⟩
      · simp only [heap, if_false, Bool.false_eq_true]
        cases read : readElement middle bse idx with
        | error code =>
            dsimp only
            refine ⟨?_, fun _ _ impossible => by cases impossible⟩
            apply isolated_of_shrinks _ ready
            obtain ⟨size, block, _⟩ := entryReleaseAlloc_keeps
              { bse.elem idx with data := [], heap := true, ref := 1 }
            apply calm_setElement own size block
            intro impossible
            simp [entryReleaseAlloc] at impossible
        | ok stored =>
            have last := readElement_latest ready present unstored read
            dsimp only
            constructor
            · have calm : Calm (fun other idx' elem' =>
                  latest history other idx' = some elem'.data ∧ elem'.data.length = elem'.size)
                  middle (middle.setElement bse.url idx
                    { bse.elem idx with data := stored, heap := true, ref := 1 }) := by
                apply calm_setElement own
                · rfl
                · rfl
                · intro _
                  refine Or.inr fun other same => ⟨?_, last.2⟩
                  have seen := sameUrl_trans (sameUrl_symm (ready.named url bse present)) same
                  rw [latest_congr seen, last.1]
              exact isolated_of_calm calm (fun _ _ _ read => read) ready
            · intro data length answer
              cases answer
              exact ⟨last.1, last.2.symm⟩

/-- A release keeps the elements isolated. -/
theorem isolated_release (isolated : Isolated state history) :
    Isolated (release env state url idx).1 history := by
  unfold release
  cases found : getStoreEntry env state url with
  | none => exact isolated
  | some pair =>
      obtain ⟨middle, bse⟩ := pair
      obtain ⟨shrinks, present, _⟩ := getStoreEntry_eq_some found
      have ready := isolated_of_shrinks shrinks isolated
      have own : middle.entries.lookup bse.url = some bse := by
        rw [lookup_congr (ready.named url bse present), present]
      obtain ⟨size, block, heap⟩ := entryReleaseAlloc_keeps (bse.elem idx)
      have released : Shrinks middle
          (middle.setElement bse.url idx (entryReleaseAlloc (bse.elem idx))) := by
        apply calm_setElement (elementAt_eq_some.mpr ⟨bse, own, rfl⟩) size block
        exact fun used => Or.inl (heap used)
      have after := isolated_of_shrinks released ready
      dsimp only
      split
      · apply isolated_of_shrinks _ after
        apply shrinks_invalidateEntry after
        rw [StoreState.setElement]
        dsimp only
        rw [Hashmap.lookup_modify, if_pos (sameUrl_refl bse.url), own]
        rfl
      · exact after

/-- An invalidation keeps the elements isolated. -/
theorem isolated_invalidate (isolated : Isolated state history) :
    Isolated (invalidate env state url).1 history := by
  unfold invalidate
  cases found : getStoreEntry env state url with
  | none => exact isolated
  | some pair =>
      obtain ⟨middle, bse⟩ := pair
      obtain ⟨shrinks, present, _⟩ := getStoreEntry_eq_some found
      have ready := isolated_of_shrinks shrinks isolated
      have own : middle.entries.lookup bse.url = some bse := by
        rw [lookup_congr (ready.named url bse present), present]
      exact isolated_of_shrinks (shrinks_invalidateEntry ready own) ready

/-- The elements are isolated in every state that allowed steps reach. -/
theorem isolated_run (run : Run Allowed state history) : Isolated state history := by
  induction run with
  | start path limit hysteresis => exact isolated_initialise path limit hysteresis
  | step env op before allowed ih =>
      cases op with
      | store url idx data => exact isolated_store ih allowed
      | fetch url idx => exact (isolated_fetch ih allowed).1
      | release url idx => exact isolated_release ih
      | invalidate url => exact isolated_invalidate ih

/-- A successful fetch answers with the data that was stored last, whatever was done with other
URLs. -/
theorem fetch_latest (run : Run Allowed state history)
    (allowed : Allowed state (.fetch url idx))
    (done : (fetch env state url idx).2 = .ok (data, length)) :
    latest history url idx = some data ∧ length = data.length :=
  (isolated_fetch (isolated_run run) allowed).2 data length done

/-- A world where the clock stands still and entries stay in their order. -/
def idleEnvironment : Environment where
  now := 0
  qsort _ entries := entries

/-- A list of calls is made on a new store. -/
def calls (limit hysteresis : Nat) (ops : List Operation) : StoreState × History :=
  ops.foldl (fun before op => (step idleEnvironment before.1 op,
    record idleEnvironment before.1 before.2 op)) (initialise [] limit hysteresis, [])

theorem run_calls (limit hysteresis : Nat) (ops : List Operation) :
    Run (fun _ _ => True) (calls limit hysteresis ops).1 (calls limit hysteresis ops).2 := by
  induction ops using List.reverseRecOn with
  | nil => exact .start [] limit hysteresis
  | append_singleton ops op ih =>
      rw [calls, List.foldl_append]
      exact .step idleEnvironment op ih trivial

/-- One byte is stored for a URL and fetched again. -/
theorem fetch_latest_stored : ∃ url : HashedUrl, ∃ state history,
    Nsurl.nsurlCreate (fun _ => 0) (str "http://h/a") = .ok url.1 ∧ Run Allowed state history ∧
      (fetch idleEnvironment state url .data).2 = .ok (str "a", 1) ∧
      latest history url .data = some (str "a") ∧ 1 = (str "a").length := by
  have computed : ∃ url : HashedUrl,
      Nsurl.nsurlCreate (fun _ => 0) (str "http://h/a") = .ok url.1 ∧
      (fetch idleEnvironment (calls 100 10 [.store url .data (str "a")]).1 url .data).2 =
        .ok (str "a", 1) ∧
      (((calls 100 10 [.store url .data (str "a")]).1.elementAt url .data).all fun elem =>
        elem.size == 1) = true :=
    ⟨⟨_, rfl⟩, rfl, by decide +kernel, by decide +kernel⟩
  obtain ⟨url, created, done, one⟩ := computed
  have room : Room (initialise [] 100 10) url .data (str "a") :=
    { block := fun _ impossible => by cases impossible
      file := fun _ _ _ _ impossible => by cases impossible }
  have finds : Allowed (initialise [] 100 10) (.store url .data (str "a")) :=
    Or.inr ⟨by decide, room⟩
  have run : Run Allowed (calls 100 10 [.store url .data (str "a")]).1
      (calls 100 10 [.store url .data (str "a")]).2 :=
    .step idleEnvironment (.store url .data (str "a")) (.start [] 100 10) finds
  have allowed : Allowed (calls 100 10 [.store url .data (str "a")]).1 (.fetch url .data) := by
    intro elem present fresh
    rw [present, Option.all_some, fresh.1] at one
    cases one
  exact ⟨url, _, _, created, run, done, fetch_latest run allowed done⟩

/-- An element keeps its block when it grows, and then it is written over the block of another
URL. -/
theorem fetch_other : ∃ u v : HashedUrl, ∃ state history,
    Nsurl.nsurlCreate (fun _ => 0) (str "http://h/a") = .ok u.1 ∧
      Nsurl.nsurlCreate (fun _ => 0) (str "http://h/b") = .ok v.1 ∧
      Nsurl.compare u.1 v.1 Nsurl.COMPLETE = false ∧ Run (fun _ _ => True) state history ∧
      latest history v .data = some (str "b") ∧
      (fetch idleEnvironment state v .data).2 = .ok (str "a", 1) := by
  have computed : ∃ u v : HashedUrl, ∃ ops,
      Nsurl.nsurlCreate (fun _ => 0) (str "http://h/a") = .ok u.1 ∧
      Nsurl.nsurlCreate (fun _ => 0) (str "http://h/b") = .ok v.1 ∧
      Nsurl.compare u.1 v.1 Nsurl.COMPLETE = false ∧
      ops = [.store u .data (str "a"), .release u .data, .store v .data (str "b"),
        .release v .data, .store u .data (List.replicate 8193 (chr 'a')), .release u .data] ∧
      latest (calls 100000 100 ops).2 v .data = some (str "b") ∧
      (fetch idleEnvironment (calls 100000 100 ops).1 v .data).2 = .ok (str "a", 1) :=
    ⟨⟨_, rfl⟩, ⟨_, rfl⟩, _, rfl, rfl, rfl, rfl, by decide +kernel, by decide +kernel⟩
  obtain ⟨u, v, ops, created, other, different, _, last, answer⟩ := computed
  exact ⟨u, v, _, _, created, other, different, run_calls 100000 100 ops, last, answer⟩

end Neosurf.FsBackingStore
