import Neosurf.Proof.FsBackingStore.FailedStore

namespace Neosurf.FsBackingStore

variable {env : Environment} {state middle after : StoreState} {events : List Event}
  {url other : HashedUrl} {idx idx' : ElemIdx} {bse : StoreEntry}

/-- The elements in blocks have one block each, and the bits of these blocks are the ones that are
set. -/
structure WellPlaced (state : StoreState) : Prop where
  fits : ∀ url idx elem, state.elementAt url idx = some elem → elem.block ≠ 0 →
    elem.size ≤ 1 <<< log2BlockSize idx
  disjoint : ∀ url other idx idx' elem elem', state.elementAt url idx = some elem →
    state.elementAt other idx' = some elem' → elem.block ≠ 0 → elem'.block ≠ 0 →
    ¬ (SameUrl url other ∧ idx = idx') →
      state.blockName idx elem.block ≠ state.blockName idx' elem'.block ∨
      blockOffset idx elem.block + 1 <<< log2BlockSize idx ≤ blockOffset idx' elem'.block ∨
      blockOffset idx' elem'.block + 1 <<< log2BlockSize idx' ≤ blockOffset idx elem.block
  used : ∀ idx block, block ≠ 0 → (state.useMap idx block = true ↔
    ∃ url elem, state.elementAt url idx = some elem ∧ elem.block = block)

/-- The size of an element and its block. -/
def StoreState.placeAt (state : StoreState) (url : HashedUrl) (idx : ElemIdx) : Option (Nat × Nat) :=
  (state.elementAt url idx).map fun elem => (elem.size, elem.block)

theorem placeAt_eq_some {size block : Nat} : state.placeAt url idx = some (size, block) ↔
    ∃ elem, state.elementAt url idx = some elem ∧ elem.size = size ∧ elem.block = block := by
  simp [StoreState.placeAt]

theorem placeAt_congr (same : SameUrl url other) : state.placeAt url idx = state.placeAt other idx := by
  rw [StoreState.placeAt, StoreState.placeAt, elementAt_congr same]

/-- No two elements have one block, and a bit is set when its block is reserved or has an
element. -/
structure Placed (state : StoreState) : Prop where
  named : ∀ url se, state.entries.lookup url = some se → SameUrl se.url url
  reserved : ∀ idx, state.useMap idx 0 = true
  inside : ∀ url idx size block, state.placeAt url idx = some (size, block) → block ≠ 0 →
    block < BLOCK_FILE_COUNT * 2 ^ BLOCK_ENTRY_COUNT ∧ size ≤ 1 <<< log2BlockSize idx
  single : ∀ url other idx size size' block, state.placeAt url idx = some (size, block) →
    state.placeAt other idx = some (size', block) → block ≠ 0 → SameUrl url other
  used : ∀ idx block, block ≠ 0 → (state.useMap idx block = true ↔
    ∃ url size, state.placeAt url idx = some (size, block))

theorem Placed.wellPlaced (placed : Placed state) : WellPlaced state where
  fits url idx elem present inBlock :=
    (placed.inside url idx elem.size elem.block
      (placeAt_eq_some.mpr ⟨elem, present, rfl, rfl⟩) inBlock).2
  disjoint url other idx idx' elem elem' present present' inBlock inBlock' different := by
    have here := placeAt_eq_some.mpr ⟨elem, present, rfl, rfl⟩
    have there := placeAt_eq_some.mpr ⟨elem', present', rfl, rfl⟩
    by_cases name : state.blockName idx elem.block = state.blockName idx' elem'.block
    · obtain ⟨file, rfl⟩ := storeFname_block_inj (blockFile_lt _) (blockFile_lt _) name
      have apart : elem.block ≠ elem'.block := fun same =>
        different ⟨placed.single url other idx _ _ _ here (same ▸ there) inBlock, rfl⟩
      obtain ⟨small, _⟩ := placed.inside url idx _ _ here inBlock
      obtain ⟨small', _⟩ := placed.inside other idx _ _ there inBlock'
      exact Or.inr (blocks_disjoint small small' file apart le_rfl le_rfl)
    · exact Or.inl name
  used idx block inBlock := by
    rw [placed.used idx block inBlock]
    constructor
    · rintro ⟨url, size, present⟩
      obtain ⟨elem, present, _, same⟩ := placeAt_eq_some.mp present
      exact ⟨url, elem, present, same⟩
    · rintro ⟨url, elem, present, same⟩
      exact ⟨url, elem.size, placeAt_eq_some.mpr ⟨elem, present, rfl, same⟩⟩

theorem placed_initialise (path : Bytes) (limit hysteresis : Nat) :
    Placed (initialise path limit hysteresis) where
  named _ _ impossible := by cases impossible
  reserved _ := rfl
  inside _ _ _ _ impossible := by cases impossible
  single _ _ _ _ _ _ impossible := by cases impossible
  used idx block inBlock := by
    have unused : (initialise path limit hysteresis).useMap idx block = false :=
      beq_eq_false_iff_ne.mpr inBlock
    rw [unused]
    constructor
    · intro impossible
      cases impossible
    · rintro ⟨_, _, impossible⟩
      cases impossible

/-- The places and the bits are all that counts. -/
theorem Placed.congr (placed : Placed state)
    (named : ∀ url se, after.entries.lookup url = some se → SameUrl se.url url)
    (bits : after.useMap = state.useMap)
    (places : ∀ url idx, after.placeAt url idx = state.placeAt url idx) : Placed after where
  named := named
  reserved idx := by
    rw [bits]
    exact placed.reserved idx
  inside url idx size block present := by
    rw [places] at present
    exact placed.inside url idx size block present
  single url other idx size size' block first second := by
    rw [places] at first second
    exact placed.single url other idx size size' block first second
  used idx block inBlock := by
    simp only [bits, places]
    exact placed.used idx block inBlock

/-- An element may change when it keeps its place. -/
theorem placed_setElement {elem : StoreEntryElement} (placed : Placed state)
    (own : state.entries.lookup bse.url = some bse) (size : elem.size = (bse.elem idx).size)
    (block : elem.block = (bse.elem idx).block) : Placed (state.setElement bse.url idx elem) := by
  have entries_eq : (state.setElement bse.url idx elem).entries =
      state.entries.modify bse.url fun se => { se with elem := Function.update se.elem idx elem } :=
    rfl
  apply placed.congr
  · exact named_modify entries_eq (fun _ => rfl) placed.named
  · rfl
  · intro other idx'
    have seen := elementAt_modify_element state other bse.url idx idx' elem (fun _ => rfl) entries_eq
    rw [StoreState.placeAt, StoreState.placeAt]
    rcases seen with ⟨same, here, set⟩ | ⟨_, unchanged⟩
    · subst here
      have present : state.elementAt other idx' = some (bse.elem idx') := by
        rw [← elementAt_congr same]
        exact elementAt_eq_some.mpr ⟨bse, own, rfl⟩
      rw [set, present]
      simp [size, block]
    · rw [unchanged]

/-- An entry that is removed gives back its blocks. -/
theorem placed_drop (placed : Placed state) (own : state.entries.lookup bse.url = some bse)
    (free : ¬ bse.Busy) : Placed (invalidateEntry state bse) := by
  have removed (url : HashedUrl) (idx : ElemIdx) : (invalidateEntry state bse).placeAt url idx =
      if SameUrl bse.url url then none else state.placeAt url idx := by
    rw [StoreState.placeAt, StoreState.placeAt]
    rcases elementAt_invalidateEntry state url idx free with ⟨same, gone⟩ | ⟨different, kept⟩
    · rw [gone, if_pos same]
      rfl
    · rw [kept, if_neg different]
  have before (url : HashedUrl) (idx : ElemIdx) (place : Nat × Nat)
      (present : (invalidateEntry state bse).placeAt url idx = some place) :
      ¬ SameUrl bse.url url ∧ state.placeAt url idx = some place := by
    rw [removed] at present
    split at present
    · cases present
    · rename_i different
      exact ⟨different, present⟩
  have place (idx : ElemIdx) :
      state.placeAt bse.url idx = some ((bse.elem idx).size, (bse.elem idx).block) :=
    placeAt_eq_some.mpr ⟨_, elementAt_eq_some.mpr ⟨bse, own, rfl⟩, rfl, rfl⟩
  constructor
  · exact named_invalidateEntry free placed.named
  · intro idx
    rw [useMap_invalidateEntry free, if_neg (by simp)]
    exact placed.reserved idx
  · intro url idx size block present
    exact placed.inside url idx size block (before url idx _ present).2
  · intro url other idx size size' block first second
    exact placed.single url other idx size size' block (before url idx _ first).2
      (before other idx _ second).2
  · intro idx block inBlock
    rw [useMap_invalidateEntry free]
    by_cases here : block = (bse.elem idx).block
    · -- No other element has the block that is given back.
      rw [if_pos ⟨here, inBlock⟩]
      constructor
      · intro impossible
        cases impossible
      · rintro ⟨url, size, present⟩
        obtain ⟨different, present⟩ := before url idx _ present
        have same := placed.single bse.url url idx _ _ block (here ▸ place idx) present inBlock
        exact absurd same different
    · rw [if_neg fun both => here both.1, placed.used idx block inBlock]
      constructor
      · rintro ⟨url, size, present⟩
        refine ⟨url, size, ?_⟩
        rw [removed, if_neg, present]
        intro same
        rw [← placeAt_congr same, place, Option.some.injEq, Prod.mk.injEq] at present
        exact here present.2.symm
      · rintro ⟨url, size, present⟩
        exact ⟨url, size, (before url idx _ present).2⟩

/-- The parts of the calls that hand out no data keep the elements placed. -/
theorem closed_placed : Closed Placed where
  named placed := placed.named
  modify {state} other change kept same placed := by
    apply placed.congr
    · exact named_modify rfl same placed.named
    · rfl
    · intro url idx
      have unchanged : StoreState.elementAt { state with
          entries := state.entries.modify other change } url idx = state.elementAt url idx :=
        elementAt_modify change kept rfl rfl
      rw [StoreState.placeAt, unchanged]
      rfl
  drop placed own free := placed_drop placed own free

/-- A new entry has no blocks. -/
theorem placed_ensureEntry (placed : Placed state) : Placed (ensureEntry state url) := by
  unfold ensureEntry
  cases absent : state.entries.lookup url with
  | some se => exact placed
  | none =>
      have places (other : HashedUrl) (idx : ElemIdx) :
          StoreState.placeAt { state with entries := state.entries.insert url } other idx =
            if SameUrl url other then some (0, 0) else state.placeAt other idx := by
        rw [StoreState.placeAt, StoreState.placeAt, elementAt_insert absent]
        split <;> rfl
      have before (other : HashedUrl) (idx : ElemIdx) (size block : Nat) (inBlock : block ≠ 0) :
          StoreState.placeAt { state with entries := state.entries.insert url } other idx =
            some (size, block) ↔ state.placeAt other idx = some (size, block) := by
        rw [places]
        split
        · rename_i same
          rw [← placeAt_congr same, StoreState.placeAt, StoreState.elementAt, absent]
          simp [inBlock.symm]
        · rfl
      constructor
      · exact named_insert absent placed.named
      · exact placed.reserved
      · intro other idx size block present inBlock
        rw [before other idx size block inBlock] at present
        exact placed.inside other idx size block present inBlock
      · intro first second idx size size' block present present' inBlock
        rw [before _ _ _ _ inBlock] at present present'
        exact placed.single first second idx size size' block present present' inBlock
      · intro idx block inBlock
        simp only [before _ _ _ _ inBlock]
        exact placed.used idx block inBlock

/-- An element without a block may take one that is free. -/
theorem placed_set {se : StoreEntry} {data : Bytes} {elem : StoreEntryElement}
    (placed : Placed state) (found : state.entries.lookup url = some se)
    (noBlock : (se.elem idx).block = 0) (set : SetData env state after se idx data elem) :
    Placed after := by
  have same := placed.named url se found
  have places (other : HashedUrl) (idx' : ElemIdx) : after.placeAt other idx' =
      if SameUrl se.url other ∧ idx' = idx then some (elem.size, elem.block)
      else state.placeAt other idx' := by
    rw [StoreState.placeAt, StoreState.placeAt]
    rcases elementAt_modify_element state other se.url idx idx' elem (fun _ => rfl) set.entries with
      ⟨here, rfl, taken⟩ | ⟨different, unchanged⟩
    · have present : state.elementAt other idx' = some (se.elem idx') := by
        rw [← elementAt_congr (sameUrl_trans (sameUrl_symm same) here)]
        exact elementAt_eq_some.mpr ⟨se, found, rfl⟩
      rw [taken, present, if_pos ⟨here, rfl⟩]
      rfl
    · rw [unchanged, if_neg different]
  have old : state.placeAt se.url idx = some ((se.elem idx).size, 0) := by
    rw [placeAt_congr same]
    exact placeAt_eq_some.mpr ⟨_, elementAt_eq_some.mpr ⟨se, found, rfl⟩, rfl, noBlock⟩
  have named := named_modify set.entries (fun _ => rfl) placed.named
  have blocks : (elem.block ≠ 0 ∧ freeBlock state idx = some elem.block ∧
        elem.size ≤ 1 <<< log2BlockSize idx ∧
        after.useMap = (state.mark idx elem.block true).useMap) ∨
      (elem.block = 0 ∧ after.useMap = state.useMap) := by
    rcases set.place with ⟨small, free, useMap⟩ | ⟨useMap, ⟨_, _, none⟩ | ⟨_, kept⟩⟩
    · refine Or.inl ⟨?_, free, small, useMap⟩
      intro zero
      have unused := (freeBlock_eq_some free).2
      rw [zero, placed.reserved idx] at unused
      cases unused
    · exact Or.inr ⟨none, useMap⟩
    · exact Or.inr ⟨kept.trans noBlock, useMap⟩
  have unowned (inBlock : elem.block ≠ 0) (other : HashedUrl) (size : Nat) :
      state.placeAt other idx ≠ some (size, elem.block) := by
    intro present
    obtain ⟨_, free, _⟩ := blocks.resolve_right fun none => inBlock none.1
    have used := (placed.used idx elem.block inBlock).mpr ⟨other, size, present⟩
    rw [(freeBlock_eq_some free).2] at used
    cases used
  have cases_of (other : HashedUrl) (idx' : ElemIdx) (size block : Nat)
      (present : after.placeAt other idx' = some (size, block)) :
      (SameUrl se.url other ∧ idx' = idx) ∧ size = elem.size ∧ block = elem.block ∨
        state.placeAt other idx' = some (size, block) := by
    rw [places] at present
    split at present
    · rename_i here
      cases present
      exact Or.inl ⟨here, rfl, rfl⟩
    · exact Or.inr present
  constructor
  · exact named
  · intro idx'
    rcases blocks with ⟨_, _, _, useMap⟩ | ⟨_, useMap⟩
    · rw [useMap, StoreState.mark]
      dsimp only
      split
      · rfl
      · exact placed.reserved idx'
    · rw [useMap]
      exact placed.reserved idx'
  · intro other idx' size block present inBlock
    rcases cases_of other idx' size block present with ⟨⟨_, rfl⟩, rfl, rfl⟩ | before
    · obtain ⟨_, free, small, _⟩ := blocks.resolve_right fun none => inBlock none.1
      exact ⟨(freeBlock_eq_some free).1, small⟩
    · exact placed.inside other idx' size block before inBlock
  · intro first second idx' size size' block present present' inBlock
    rcases cases_of first idx' size block present with ⟨⟨here, rfl⟩, _, rfl⟩ | before
    · rcases cases_of second idx' size' elem.block present' with ⟨⟨there, _⟩, _⟩ | before'
      · exact sameUrl_trans (sameUrl_symm here) there
      · exact absurd before' (unowned inBlock second size')
    · rcases cases_of second idx' size' block present' with ⟨⟨_, rfl⟩, _, rfl⟩ | before'
      · exact absurd before (unowned inBlock first size)
      · exact placed.single first second idx' size size' block before before' inBlock
  · intro idx' block inBlock
    have kept : (∃ other size, ¬ (SameUrl se.url other ∧ idx' = idx) ∧
        state.placeAt other idx' = some (size, block)) ↔
          ∃ other size, state.placeAt other idx' = some (size, block) := by
      constructor
      · rintro ⟨other, size, _, present⟩
        exact ⟨other, size, present⟩
      · rintro ⟨other, size, present⟩
        refine ⟨other, size, ?_, present⟩
        rintro ⟨here, rfl⟩
        rw [← placeAt_congr here, old, Option.some.injEq, Prod.mk.injEq] at present
        exact inBlock present.2.symm
    have owners : (∃ other size, after.placeAt other idx' = some (size, block)) ↔
        idx' = idx ∧ block = elem.block ∨
          ∃ other size, state.placeAt other idx' = some (size, block) := by
      rw [← kept]
      constructor
      · rintro ⟨other, size, present⟩
        rw [places] at present
        split at present
        · rename_i here
          cases present
          exact Or.inl ⟨here.2, rfl⟩
        · rename_i away
          exact Or.inr ⟨other, size, away, present⟩
      · rintro (⟨rfl, rfl⟩ | ⟨other, size, away, present⟩)
        · refine ⟨se.url, elem.size, ?_⟩
          rw [places, if_pos ⟨sameUrl_refl se.url, rfl⟩]
        · refine ⟨other, size, ?_⟩
          rw [places, if_neg away, present]
    rw [owners, ← placed.used idx' block inBlock]
    rcases blocks with ⟨_, _, _, useMap⟩ | ⟨none, useMap⟩
    · rw [useMap, StoreState.mark]
      dsimp only
      by_cases here : idx' = idx ∧ block = elem.block
      · simp [here]
      · simp [here]
    · rw [useMap, none]
      simp [inBlock]

/-- A call that sets an element finds it without a block. -/
def SetsUnplaced (env : Environment) (state : StoreState) : Call → Prop
  | .store url idx _ answer => FailsEarly answer env state url idx ∨
      ∀ elem, (storeEvict env state).elementAt url idx = some elem → elem.block = 0
  | _ => True

theorem placed_writeElementUpTo {elem : StoreEntryElement} (written : Option Nat)
    (placed : Placed state) : Placed (writeElementUpTo state url idx elem written).1 := by
  unfold writeElementUpTo
  split
  · exact placed
  · rw [writeElement_eq]
    exact placed.congr placed.named rfl fun _ _ => rfl

/-- A call keeps the elements placed. -/
theorem placed_call (placed : Placed state) {c : Call} (allowed : SetsUnplaced env state c) :
    Placed (call env state c).1 := by
  cases c with
  | store url idx data answer =>
      change Placed (storeWith answer env state url idx data).1
      have evicted := closed_placed.storeEvict env placed
      have outcome := storeWith_outcome answer env state url idx data
      generalize storeWith answer env state url idx data = result at outcome
      cases outcome with
      | noList => exact placed
      | noEntry => exact evicted
      | inUse => exact evicted
      | set se middle elem late found free done =>
          have noBlock : (se.elem idx).block = 0 := by
            rcases ensureEntry_cases found with ⟨_, present⟩ | ⟨_, rfl⟩
            · exact allowed.resolve_left late (se.elem idx)
                (elementAt_eq_some.mpr ⟨se, present, rfl⟩)
            · rfl
          exact placed_writeElementUpTo _
            (placed_set (placed_ensureEntry evicted) found noBlock (setElementData_set done))
  | fetch url idx answer =>
      change Placed (fetchWith answer env state url idx).1
      rcases fetchWith_cases answer env state url idx with
        same | ⟨middle, bse, elem, found, size, block, set⟩
      · rw [same]
        exact placed
      · obtain ⟨_, present, _⟩ := getStoreEntry_eq_some found
        have touched := closed_placed.getStoreEntry placed found
        rw [set]
        exact placed_setElement touched (closed_placed.own touched present) size block
  | release url idx =>
      apply closed_placed.release env fun _ => placed
      intro middle bse found
      have touched := closed_placed.getStoreEntry placed found
      obtain ⟨_, present, _⟩ := getStoreEntry_eq_some found
      obtain ⟨size, block, _⟩ := entryReleaseAlloc_keeps (bse.elem idx)
      exact placed_setElement touched (closed_placed.own touched present) size block
  | invalidate url => exact closed_placed.invalidate env url placed

theorem placed_run (run : CallRun SetsUnplaced state events) : Placed state := by
  induction run with
  | start path limit hysteresis => exact placed_initialise path limit hysteresis
  | step env c before allowed ih => exact placed_call ih allowed

/-- The blocks are well placed in every state that such calls reach. -/
theorem wellPlaced_run (run : CallRun SetsUnplaced state events) : WellPlaced state :=
  (placed_run run).wellPlaced

/-- The first call of `store` for a URL places its element. -/
theorem wellPlaced_run_stored : ∃ url : HashedUrl, ∃ state events,
    Nsurl.nsurlCreate (fun _ => 0) (str "http://h/a") = .ok url.1 ∧
      CallRun SetsUnplaced state events ∧
      (state.elementAt url .data).map StoreEntryElement.block = some 1 ∧ WellPlaced state := by
  have computed : ∃ url : HashedUrl, ∃ c,
      Nsurl.nsurlCreate (fun _ => 0) (str "http://h/a") = .ok url.1 ∧
      c = .store url .data (str "a") { written := some 1 } ∧
      ((makeCalls 100 10 [c]).1.elementAt url .data).map StoreEntryElement.block = some 1 :=
    ⟨⟨_, rfl⟩, _, rfl, rfl, by decide +kernel⟩
  obtain ⟨url, c, created, rfl, block⟩ := computed
  have finds : SetsUnplaced idleEnvironment (initialise [] 100 10)
      (.store url .data (str "a") { written := some 1 }) :=
    Or.inr fun _ impossible => by cases impossible
  have run := CallRun.step idleEnvironment _ (.start [] 100 10) finds
  exact ⟨url, _, _, created, run, block, wellPlaced_run run⟩

/-- An element that grows keeps its block, where it does not fit. -/
theorem outgrown : ∃ url : HashedUrl, ∃ state events,
    Nsurl.nsurlCreate (fun _ => 0) (str "http://h/a") = .ok url.1 ∧
      CallRun (fun _ _ _ => True) state events ∧ ¬ WellPlaced state := by
  have computed : ∃ url : HashedUrl, ∃ cs,
      Nsurl.nsurlCreate (fun _ => 0) (str "http://h/a") = .ok url.1 ∧
      cs = [.store url .data (str "a") { written := some 1 }, .release url .data,
        .store url .data (List.replicate 8193 (chr 'a')) { written := some 8193 }] ∧
      ((makeCalls 100000 100 cs).1.elementAt url .data).any (fun elem =>
        elem.block == 1 && elem.size == 8193) = true :=
    ⟨⟨_, rfl⟩, _, rfl, rfl, by decide +kernel⟩
  obtain ⟨url, cs, created, _, outgrown⟩ := computed
  refine ⟨url, _, _, created, callRun_makeCalls 100000 100 cs, ?_⟩
  intro placed
  obtain ⟨elem, present, grown⟩ := (Option.any_eq_true _ _).mp outgrown
  rw [Bool.and_eq_true, beq_iff_eq, beq_iff_eq] at grown
  have fits := placed.fits url .data elem present (by simp [grown.1])
  rw [grown.2] at fits
  exact absurd fits (by decide)

end Neosurf.FsBackingStore
