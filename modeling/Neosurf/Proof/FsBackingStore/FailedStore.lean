import Neosurf.Construction.FsBackingStore
import Neosurf.Proof.FsBackingStore.FetchLatest

namespace Neosurf.FsBackingStore

variable {env : Environment} {state middle : StoreState} {url : HashedUrl} {idx : ElemIdx}
  {bse : StoreEntry}

/-- An entry is busy while one of its elements has an allocation. -/
def StoreEntry.Busy (bse : StoreEntry) : Prop :=
  ((bse.elem .data).heap || (bse.elem .metadata).heap) = true

theorem not_busy (free : ¬ bse.Busy) (idx : ElemIdx) : (bse.elem idx).heap = false := by
  rw [StoreEntry.Busy, Bool.not_eq_true, Bool.or_eq_false_iff] at free
  cases idx with
  | data => exact free.1
  | metadata => exact free.2

/-- These properties are kept by the parts of the calls that hand out no data. -/
structure Closed (P : StoreState → Prop) : Prop where
  named : ∀ {state : StoreState}, P state → ∀ url se, state.entries.lookup url = some se →
    SameUrl se.url url
  modify : ∀ {state : StoreState} (url : HashedUrl) (change : StoreEntry → StoreEntry),
    (∀ se, (change se).elem = se.elem) → (∀ se, (change se).url = se.url) → P state →
      P { state with entries := state.entries.modify url change }
  drop : ∀ {state : StoreState} {bse : StoreEntry}, P state →
    state.entries.lookup bse.url = some bse → ¬ bse.Busy → P (invalidateEntry state bse)

variable {P : StoreState → Prop}

theorem Closed.own (closed : Closed P) (kept : P state) (found : state.entries.lookup url = some bse) :
    state.entries.lookup bse.url = some bse := by
  rw [lookup_congr (closed.named kept url bse found), found]

theorem Closed.invalidateEntry (closed : Closed P) (kept : P state)
    (own : state.entries.lookup bse.url = some bse) :
    P (FsBackingStore.invalidateEntry state bse) := by
  by_cases busy : bse.Busy
  · rw [invalidateEntry_busy busy]
    apply closed.modify
    · intro se
      rfl
    · intro se
      rfl
    · exact kept
  · exact closed.drop kept own busy

theorem Closed.evictEntries (closed : Closed P) (urls : List HashedUrl) (removed : Nat)
    (kept : P state) : P (FsBackingStore.evictEntries urls removed state) := by
  induction urls generalizing state removed with
  | nil => exact kept
  | cons url rest ih =>
      rw [FsBackingStore.evictEntries]
      cases found : state.entries.lookup url with
      | none => exact ih removed kept
      | some bse =>
          have after := closed.invalidateEntry kept (closed.own kept found)
          dsimp only
          split
          · exact after
          · exact ih _ after

theorem Closed.storeEvict (closed : Closed P) (env : Environment) (kept : P state) :
    P (FsBackingStore.storeEvict env state) := by
  unfold FsBackingStore.storeEvict
  split
  · exact kept
  · exact closed.evictEntries _ _ kept

theorem Closed.getStoreEntry (closed : Closed P) (kept : P state)
    (found : FsBackingStore.getStoreEntry env state url = some (middle, bse)) : P middle := by
  obtain ⟨se, present, same⟩ := Option.map_eq_some_iff.mp found
  cases same
  apply closed.modify
  · intro se
    rfl
  · intro se
    rfl
  · exact kept

/-- A call of `invalidate` only does this. -/
theorem Closed.invalidate (closed : Closed P) (env : Environment) (url : HashedUrl)
    (kept : P state) : P (FsBackingStore.invalidate env state url).1 := by
  unfold FsBackingStore.invalidate
  cases found : FsBackingStore.getStoreEntry env state url with
  | none => exact kept
  | some pair =>
      obtain ⟨middle, bse⟩ := pair
      have touched := closed.getStoreEntry kept found
      obtain ⟨_, present, _⟩ := getStoreEntry_eq_some found
      exact closed.invalidateEntry touched (closed.own touched present)

/-- A release does this around the release of the element. -/
theorem Closed.release (closed : Closed P) (env : Environment)
    (absent : FsBackingStore.getStoreEntry env state url = none → P state)
    (released : ∀ middle bse, FsBackingStore.getStoreEntry env state url = some (middle, bse) →
      P (middle.setElement bse.url idx (entryReleaseAlloc (bse.elem idx)))) :
    P (FsBackingStore.release env state url idx).1 := by
  unfold FsBackingStore.release
  cases found : FsBackingStore.getStoreEntry env state url with
  | none => exact absent found
  | some pair =>
      obtain ⟨middle, bse⟩ := pair
      obtain ⟨_, present, _⟩ := getStoreEntry_eq_some found
      have after := released middle bse found
      dsimp only
      split
      · apply closed.invalidateEntry after
        have seen := closed.named after url
        rw [StoreState.setElement] at seen ⊢
        dsimp only at seen ⊢
        rw [Hashmap.lookup_modify, present] at seen
        have same : SameUrl bse.url url := by
          split at seen
          · have kept := seen _ rfl
            exact kept
          · exact seen bse rfl
        rw [Hashmap.lookup_modify, if_pos (sameUrl_refl bse.url), lookup_congr same, present]
        rfl
      · exact after

variable {data : Bytes} {answer : StoreAnswer}

/-- A call of `store` fails before it sets an element: there is no memory for the list of an
eviction or for a new entry, or the element is in use. -/
def FailsEarly (answer : StoreAnswer) (env : Environment) (state : StoreState) (url : HashedUrl)
    (idx : ElemIdx) : Prop :=
  state.limit ≤ state.totalAlloc.toNat ∧ answer.listMemory = false ∨
    (storeEvict env state).entries.lookup url = none ∧ answer.entryMemory = false ∨
    InUse (storeEvict env state) url idx

/-- What a call of `store` comes to. -/
inductive StoreOutcome (answer : StoreAnswer) (env : Environment) (state : StoreState)
    (url : HashedUrl) (idx : ElemIdx) (data : Bytes) : StoreState × Nserror → Prop
  | noList : StoreOutcome answer env state url idx data (state, .nomem)
  | noEntry : StoreOutcome answer env state url idx data (storeEvict env state, .nomem)
  | inUse (used : InUse (storeEvict env state) url idx) :
      StoreOutcome answer env state url idx data (storeEvict env state, .permission)
  | set (se : StoreEntry) (middle : StoreState) (elem : StoreEntryElement)
      (late : ¬ FailsEarly answer env state url idx)
      (found : (ensureEntry (storeEvict env state) url).entries.lookup url = some se)
      (free : (se.elem idx).heap = false)
      (done : setElementData env (ensureEntry (storeEvict env state) url) se idx data =
        (middle, elem)) :
      StoreOutcome answer env state url idx data
        (writeElementUpTo middle se.url idx elem answer.written)

theorem lookup_ensureEntry (state : StoreState) (url : HashedUrl) :
    ∃ se, (ensureEntry state url).entries.lookup url = some se := by
  unfold ensureEntry
  cases found : state.entries.lookup url with
  | some se => exact ⟨se, found⟩
  | none =>
      dsimp only
      rw [Hashmap.lookup_insert found, if_pos (sameUrl_refl url)]
      exact ⟨_, rfl⟩

/-- An entry was there before, or it is as it was made. -/
theorem ensureEntry_cases {se : StoreEntry}
    (found : (ensureEntry state url).entries.lookup url = some se) :
    (ensureEntry state url = state ∧ state.entries.lookup url = some se) ∨
      (state.entries.lookup url = none ∧ se = { url }) := by
  unfold ensureEntry at found ⊢
  cases before : state.entries.lookup url with
  | some old =>
      rw [before] at found
      dsimp only at found
      exact Or.inl ⟨rfl, before.symm.trans found⟩
  | none =>
      rw [before] at found
      dsimp only at found
      rw [Hashmap.lookup_insert before, if_pos (sameUrl_refl url)] at found
      cases found
      exact Or.inr ⟨rfl, rfl⟩

theorem storeWith_outcome (answer : StoreAnswer) (env : Environment) (state : StoreState)
    (url : HashedUrl) (idx : ElemIdx) (data : Bytes) :
    StoreOutcome answer env state url idx data (storeWith answer env state url idx data) := by
  unfold storeWith
  dsimp only
  split_ifs with noList noEntry
  · exact .noList
  · exact .noEntry
  · obtain ⟨se, found⟩ := lookup_ensureEntry (storeEvict env state) url
    simp only [found]
    cases heap : (se.elem idx).heap with
    | true =>
        rcases ensureEntry_cases found with ⟨same, present⟩ | ⟨_, rfl⟩
        · rw [same]
          exact .inUse ⟨se.elem idx, elementAt_eq_some.mpr ⟨se, present, rfl⟩, heap⟩
        · cases heap
    | false =>
        refine .set se _ _ ?_ found heap rfl
        rintro (⟨reached, lacking⟩ | ⟨missing, lacking⟩ | ⟨elem, present, used⟩)
        · exact noList (by simp [reached, lacking])
        · exact noEntry (by simp [missing, lacking])
        · obtain ⟨old, before, rfl⟩ := elementAt_eq_some.mp present
          rcases ensureEntry_cases found with ⟨_, same⟩ | ⟨missing, _⟩
          · rw [same] at before
            cases before
            rw [heap] at used
            cases used
          · rw [missing] at before
            cases before

variable {fetched : FetchAnswer}

/-- What a call of `fetch` comes to. -/
inductive FetchOutcome (fetched : FetchAnswer) (env : Environment) (state : StoreState)
    (url : HashedUrl) (idx : ElemIdx) : StoreState × Except Nserror (Bytes × Nat) → Prop
  | absent (missing : state.entries.lookup url = none) :
      FetchOutcome fetched env state url idx (state, .error .notFound)
  | held (middle : StoreState) (bse : StoreEntry)
      (found : getStoreEntry env state url = some (middle, bse))
      (heap : (bse.elem idx).heap = true) :
      FetchOutcome fetched env state url idx
        (middle.setElement bse.url idx { bse.elem idx with ref := (bse.elem idx).ref + 1 },
          .ok ((bse.elem idx).data, (bse.elem idx).size))
  | loaded (middle : StoreState) (bse : StoreEntry) (data : Bytes)
      (found : getStoreEntry env state url = some (middle, bse))
      (free : (bse.elem idx).heap = false) (read : readElement middle bse idx = .ok data) :
      FetchOutcome fetched env state url idx
        (middle.setElement bse.url idx { bse.elem idx with data, heap := true, ref := 1 },
          .ok (data, (bse.elem idx).size))
  | failed (middle : StoreState) (bse : StoreEntry) (ref : UInt8) (code : Nserror)
      (found : getStoreEntry env state url = some (middle, bse))
      (free : (bse.elem idx).heap = false) (count : ref = 0 ∨ ref = (bse.elem idx).ref)
      (error : code ≠ .ok) :
      FetchOutcome fetched env state url idx
        (middle.setElement bse.url idx { bse.elem idx with data := [], heap := false, ref },
          .error code)

theorem readElement_error {code : Nserror} (failed : readElement state bse idx = .error code) :
    code ≠ .ok := by
  unfold readElement storeReadBlock storeReadFile at failed
  dsimp only at failed
  split at failed
  · split at failed
    · cases failed
    · cases failed
      decide
  · split at failed
    · cases failed
      decide
    · split at failed
      · cases failed
      · cases failed
        decide

theorem fetchWith_outcome (fetched : FetchAnswer) (env : Environment) (state : StoreState)
    (url : HashedUrl) (idx : ElemIdx) :
    FetchOutcome fetched env state url idx (fetchWith fetched env state url idx) := by
  have unread (elem : StoreEntryElement) :
      entryReleaseAlloc { elem with data := [], heap := true, ref := 1 } =
        { elem with data := [], heap := false, ref := 0 } := by
    simp [entryReleaseAlloc]
  unfold fetchWith
  cases found : getStoreEntry env state url with
  | none => exact .absent (Option.map_eq_none_iff.mp found)
  | some pair =>
      obtain ⟨middle, bse⟩ := pair
      dsimp only
      rw [unread]
      by_cases heap : (bse.elem idx).heap = true
      · rw [if_pos heap]
        exact .held middle bse found heap
      · rw [if_neg heap]
        have free : (bse.elem idx).heap = false := Bool.not_eq_true _ ▸ heap
        cases fetched with
        | noMemory =>
            have same : { bse.elem idx with data := [] } =
                { bse.elem idx with data := [], heap := false, ref := (bse.elem idx).ref } := by
              rw [← free]
            dsimp only at same ⊢
            rw [same]
            exact .failed middle bse _ _ found free (Or.inr rfl) (by decide)
        | unreadable =>
            refine .failed middle bse 0 _ found free (Or.inl rfl) ?_
            split <;> decide
        | whole =>
            dsimp only
            cases read : readElement middle bse idx with
            | ok data => exact .loaded middle bse data found free read
            | error code =>
                exact .failed middle bse 0 code found free (Or.inl rfl) (readElement_error read)

/-- A fetch sets at most its element, which keeps its size and its block. -/
theorem fetchWith_cases (fetched : FetchAnswer) (env : Environment) (state : StoreState)
    (url : HashedUrl) (idx : ElemIdx) :
    (fetchWith fetched env state url idx).1 = state ∨ ∃ middle bse elem,
      getStoreEntry env state url = some (middle, bse) ∧ elem.size = (bse.elem idx).size ∧
      elem.block = (bse.elem idx).block ∧
      (fetchWith fetched env state url idx).1 = middle.setElement bse.url idx elem := by
  have outcome := fetchWith_outcome fetched env state url idx
  generalize fetchWith fetched env state url idx = result at outcome
  cases outcome with
  | absent => exact Or.inl rfl
  | held middle bse found _ =>
      exact Or.inr ⟨middle, bse, { bse.elem idx with ref := (bse.elem idx).ref + 1 }, found, rfl, rfl,
        rfl⟩
  | loaded middle bse data found _ _ =>
      exact Or.inr ⟨middle, bse, { bse.elem idx with data, heap := true, ref := 1 }, found, rfl, rfl,
        rfl⟩
  | failed middle bse ref code found _ _ _ =>
      exact Or.inr ⟨middle, bse, { bse.elem idx with data := [], heap := false, ref }, found, rfl, rfl,
        rfl⟩

/-- A list of calls is made on a new store. -/
def makeCalls (limit hysteresis : Nat) (cs : List Call) : StoreState × List Event :=
  cs.foldl (fun before c => ((call idleEnvironment before.1 c).1,
    ⟨c, (call idleEnvironment before.1 c).2⟩ :: before.2)) (initialise [] limit hysteresis, [])

theorem callRun_makeCalls (limit hysteresis : Nat) (cs : List Call) :
    CallRun (fun _ _ _ => True) (makeCalls limit hysteresis cs).1
      (makeCalls limit hysteresis cs).2 := by
  induction cs using List.reverseRecOn with
  | nil => exact .start [] limit hysteresis
  | append_singleton cs c ih =>
      rw [makeCalls, List.foldl_append]
      exact .step idleEnvironment c ih trivial

end Neosurf.FsBackingStore

namespace Neosurf.FsBackingStore

variable {env : Environment} {state middle after : StoreState} {events : List Event}
  {history : History} {url other : HashedUrl} {idx : ElemIdx} {data : Bytes} {length : Nat}

/-- The successful calls of `store`, the latest first. -/
def stored (events : List Event) : History :=
  events.filterMap fun event =>
    match event.call with
    | .store url idx data _ => if event.code = .ok then some (url, idx, data) else none
    | _ => none

theorem stored_store {answer : StoreAnswer} {code : Nserror} :
    stored (⟨.store url idx data answer, code⟩ :: events) =
      if code = .ok then (url, idx, data) :: stored events else stored events := by
  rw [stored, List.filterMap_cons]
  split
  · rename_i none
    dsimp only at none
    split at none
    · cases none
    · rename_i failed
      rw [if_neg failed]
      rfl
  · rename_i some
    dsimp only at some
    split at some
    · rename_i done
      cases some
      rw [if_pos done]
      rfl
    · cases some

/-- A call that may be made: a call of `store` that does not fail early writes all its data where
they find room, and an element that was never stored has no old file when it is fetched. -/
def AllowedCall (env : Environment) (state : StoreState) : Call → Prop
  | .store url idx data answer => FailsEarly answer env state url idx ∨
      (∃ count, answer.written = some count ∧ data.length ≤ count) ∧ data.length < 2 ^ 32 ∧
        Room state url idx data
  | .fetch url idx _ => Allowed state (.fetch url idx)
  | _ => True

/-- A successful fetch is the plain operation. Another one only frees the data of its element. -/
theorem fetchWith_fetch (fetched : FetchAnswer) (env : Environment) (state : StoreState)
    (url : HashedUrl) (idx : ElemIdx) :
    fetchWith fetched env state url idx = fetch env state url idx ∨
      ∃ middle bse elem code, getStoreEntry env state url = some (middle, bse) ∧
        elem.size = (bse.elem idx).size ∧ elem.block = (bse.elem idx).block ∧ elem.heap = false ∧
        fetchWith fetched env state url idx =
          (middle.setElement bse.url idx elem, .error code) := by
  have outcome := fetchWith_outcome fetched env state url idx
  generalize fetchWith fetched env state url idx = result at outcome
  unfold fetch
  cases outcome with
  | absent missing =>
      have unfound : getStoreEntry env state url = none := Option.map_eq_none_iff.mpr missing
      rw [unfound]
      exact Or.inl rfl
  | held middle bse found heap =>
      left
      rw [found]
      dsimp only
      rw [if_pos heap]
  | loaded middle bse data found free read =>
      left
      rw [found]
      dsimp only
      rw [if_neg (Bool.not_eq_true _ ▸ free), read]
  | failed middle bse ref code found free =>
      exact Or.inr ⟨middle, bse, { bse.elem idx with data := [], heap := false, ref }, code, found,
        rfl, rfl, rfl, rfl⟩

/-- A whole write is the plain operation. -/
theorem storeWith_store {answer : StoreAnswer} {count : Nat}
    (late : ¬ FailsEarly answer env state url idx) (written : answer.written = some count)
    (enough : data.length ≤ count) :
    storeWith answer env state url idx data = store env state url idx data := by
  rw [← storeWith_whole enough]
  unfold storeWith
  have list : ¬ (decide (state.limit ≤ state.totalAlloc.toNat) && !answer.listMemory) = true := by
    intro lacking
    rw [Bool.and_eq_true, decide_eq_true_iff, Bool.not_eq_true'] at lacking
    exact late (Or.inl lacking)
  have entry : ¬ (((storeEvict env state).entries.lookup url).isNone && !answer.entryMemory) = true := by
    intro lacking
    rw [Bool.and_eq_true, Option.isNone_iff_eq_none, Bool.not_eq_true'] at lacking
    exact late (Or.inr (Or.inl lacking))
  simp only [if_neg list, if_neg entry, written, Bool.not_true, Bool.and_false, Bool.false_eq_true,
    if_false]

theorem isolated_storeWith {answer : StoreAnswer} (isolated : Isolated state (stored events))
    (allowed : AllowedCall env state (.store url idx data answer)) :
    Isolated (storeWith answer env state url idx data).1
      (stored (⟨.store url idx data answer, (storeWith answer env state url idx data).2⟩ :: events)) := by
  rw [stored_store]
  by_cases early : FailsEarly answer env state url idx
  · have evicted : Isolated (storeEvict env state) (stored events) :=
      isolated_of_shrinks (shrinks_storeEvict isolated) isolated
    have outcome := storeWith_outcome answer env state url idx data
    generalize storeWith answer env state url idx data = result at outcome
    cases outcome with
    | noList => exact isolated
    | noEntry => exact evicted
    | inUse => exact evicted
    | set _ _ _ late => exact absurd early late
  · obtain ⟨⟨count, written, enough⟩, short, room⟩ := allowed.resolve_left early
    rw [storeWith_store early written enough]
    exact isolated_store isolated (Or.inr ⟨short, room⟩)

theorem isolated_fetchWith {fetched : FetchAnswer} (isolated : Isolated state history)
    (allowed : Allowed state (.fetch url idx)) :
    Isolated (fetchWith fetched env state url idx).1 history ∧
      ∀ data length, (fetchWith fetched env state url idx).2 = .ok (data, length) →
        latest history url idx = some data ∧ length = data.length := by
  rcases fetchWith_fetch fetched env state url idx with
    same | ⟨middle, bse, elem, code, found, size, block, free, result⟩
  · rw [same]
    exact isolated_fetch isolated allowed
  · rw [result]
    obtain ⟨shrinks, present, _⟩ := getStoreEntry_eq_some found
    have ready := isolated_of_shrinks shrinks isolated
    refine ⟨?_, fun _ _ impossible => by cases impossible⟩
    apply isolated_of_shrinks _ ready
    apply calm_setElement _ size block
    · intro used
      rw [free] at used
      cases used
    · rw [elementAt_congr (ready.named url bse present)]
      exact elementAt_eq_some.mpr ⟨bse, present, rfl⟩

/-- The elements are isolated in every state that allowed calls reach. -/
theorem isolated_callRun (run : CallRun AllowedCall state events) :
    Isolated state (stored events) := by
  induction run with
  | start path limit hysteresis => exact isolated_initialise path limit hysteresis
  | step env c before allowed ih =>
      cases c with
      | store url idx data answer => exact isolated_storeWith ih allowed
      | fetch url idx answer => exact (isolated_fetchWith ih allowed).1
      | release url idx => exact isolated_release ih
      | invalidate url => exact isolated_invalidate ih

/-- A fetch answers with the data of the last successful call of `store`, or it fails. What a
failed call was given is never answered. -/
theorem fetchWith_latest {fetched : FetchAnswer} (run : CallRun AllowedCall state events)
    (allowed : AllowedCall env state (.fetch url idx fetched))
    (done : (fetchWith fetched env state url idx).2 = .ok (data, length)) :
    latest (stored events) url idx = some data ∧ length = data.length :=
  (isolated_fetchWith (isolated_callRun run) allowed).2 data length done

/-- A call that fails since the element is in use leaves the data that was stored before. -/
theorem fetchWith_latest_stored : ∃ url : HashedUrl, ∃ state events,
    Nsurl.nsurlCreate (fun _ => 0) (str "http://h/a") = .ok url.1 ∧ CallRun AllowedCall state events ∧
      events.map Event.code = [.permission, .ok] ∧
      (fetchWith .whole idleEnvironment state url .data).2 = .ok (str "a", 1) ∧
      latest (stored events) url .data = some (str "a") ∧ 1 = (str "a").length := by
  have computed : ∃ url : HashedUrl, ∃ first second,
      Nsurl.nsurlCreate (fun _ => 0) (str "http://h/a") = .ok url.1 ∧
      first = Call.store url .data (str "a") { written := some 1 } ∧
      second = Call.store url .data (str "b") { written := none } ∧
      (makeCalls 100 10 [first, second]).2.map Event.code = [.permission, .ok] ∧
      (fetchWith .whole idleEnvironment (makeCalls 100 10 [first, second]).1 url .data).2 =
        .ok (str "a", 1) ∧
      ((storeEvict idleEnvironment (makeCalls 100 10 [first]).1).elementAt url .data).any
        StoreEntryElement.heap = true ∧
      ((makeCalls 100 10 [first, second]).1.elementAt url .data).any
        StoreEntryElement.heap = true :=
    ⟨⟨_, rfl⟩, _, _, rfl, rfl, rfl, by decide +kernel, by decide +kernel, by decide +kernel,
      by decide +kernel⟩
  obtain ⟨url, first, second, created, rfl, rfl, codes, answer, before, after⟩ := computed
  have room : Room (initialise [] 100 10) url .data (str "a") :=
    { block := fun _ impossible => by cases impossible
      file := fun _ _ _ _ impossible => by cases impossible }
  have finds : AllowedCall idleEnvironment (initialise [] 100 10)
      (.store url .data (str "a") { written := some 1 }) :=
    Or.inr ⟨⟨1, rfl, le_rfl⟩, by decide, room⟩
  have once := CallRun.step idleEnvironment _ (.start [] 100 10) finds
  have busy : AllowedCall idleEnvironment (makeCalls 100 10
      [.store url .data (str "a") { written := some 1 }]).1
      (.store url .data (str "b") { written := none }) := by
    obtain ⟨elem, present, heap⟩ := (Option.any_eq_true _ _).mp before
    exact Or.inl (Or.inr (Or.inr ⟨elem, present, heap⟩))
  have run := CallRun.step idleEnvironment _ once busy
  have allowed : AllowedCall idleEnvironment (makeCalls 100 10
      [.store url .data (str "a") { written := some 1 },
        .store url .data (str "b") { written := none }]).1 (.fetch url .data .whole) := by
    intro elem present fresh
    rw [present, Option.any_some, fresh.2.2] at after
    cases after
  exact ⟨url, _, _, created, run, codes, answer, fetchWith_latest run allowed answer⟩

/-- The data of a call whose write fails is answered. -/
theorem unwritten : ∃ url : HashedUrl, ∃ state events,
    Nsurl.nsurlCreate (fun _ => 0) (str "http://h/a") = .ok url.1 ∧
      CallRun (fun _ _ _ => True) state events ∧ events.map Event.code = [.saveFailed, .ok, .ok] ∧
      latest (stored events) url .data = some (str "a") ∧
      (fetchWith .whole idleEnvironment state url .data).2 = .ok (str "b", 1) := by
  have computed : ∃ url : HashedUrl, ∃ cs,
      Nsurl.nsurlCreate (fun _ => 0) (str "http://h/a") = .ok url.1 ∧
      cs = [.store url .data (str "a") { written := some 1 }, .release url .data,
        .store url .data (str "b") { written := none }] ∧
      (makeCalls 100 10 cs).2.map Event.code = [.saveFailed, .ok, .ok] ∧
      latest (stored (makeCalls 100 10 cs).2) url .data = some (str "a") ∧
      (fetchWith .whole idleEnvironment (makeCalls 100 10 cs).1 url .data).2 = .ok (str "b", 1) :=
    ⟨⟨_, rfl⟩, _, rfl, rfl, by decide +kernel, by decide +kernel, by decide +kernel⟩
  obtain ⟨url, cs, created, _, codes, last, answer⟩ := computed
  exact ⟨url, _, _, created, callRun_makeCalls 100 10 cs, codes, last, answer⟩

end Neosurf.FsBackingStore
