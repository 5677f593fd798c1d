/-
This file proves that a successful call of `store` keeps the elements of the store isolated: each of
them has its data, and no two of them share a block or a file.
-/

import Neosurf.Proof.FsBackingStore.Elements

namespace Neosurf.FsBackingStore

variable {state after : StoreState} {history : History} {url : HashedUrl} {idx : ElemIdx}

/-- An element is as it was made. -/
def StoreEntryElement.Fresh (elem : StoreEntryElement) : Prop :=
  elem.size = 0 ∧ elem.block = 0 ∧ elem.heap = false

/-- The data of an element is in a file of its own. -/
def StoreEntryElement.InFile (elem : StoreEntryElement) : Prop := elem.block = 0 ∧ elem.size ≠ 0

/-- The block of an element holds the data, or its file does unless it was removed or cut. -/
def OnDisk (state : StoreState) (url : HashedUrl) (idx : ElemIdx) (elem : StoreEntryElement)
    (data : Bytes) : Prop :=
  (elem.block ≠ 0 → ((state.files (state.blockName idx elem.block)).getD .empty).pread elem.size
    (blockOffset idx elem.block) = data) ∧
  (elem.InFile → ∀ file, state.files (state.elementName url idx) = some file →
    (file.pread elem.size 0).length = elem.size → file.pread elem.size 0 = data)

/-- An element is as it was made, or it has the data that was stored last. -/
def Kept (state : StoreState) (history : History) (url : HashedUrl) (idx : ElemIdx)
    (elem : StoreEntryElement) : Prop :=
  elem.Fresh ∨ ∃ data, latest history url idx = some data ∧ data.length = elem.size ∧
    (elem.heap = true → elem.data = data) ∧ OnDisk state url idx elem data

/-- The elements have their data, and no two of them share a block or a file. -/
structure Isolated (state : StoreState) (history : History) : Prop where
  named : ∀ url se, state.entries.lookup url = some se → SameUrl se.url url
  reserved : ∀ idx, state.useMap idx 0 = true
  kept : ∀ url idx elem, state.elementAt url idx = some elem → Kept state history url idx elem
  blocks : ∀ url idx elem, state.elementAt url idx = some elem → elem.block ≠ 0 →
    elem.block < BLOCK_FILE_COUNT * 2 ^ BLOCK_ENTRY_COUNT ∧ state.useMap idx elem.block = true ∧
      elem.size ≤ 1 <<< log2BlockSize idx
  apart : ∀ url other idx elem elem', state.elementAt url idx = some elem →
    state.elementAt other idx = some elem' → ¬ SameUrl url other →
      (elem.block ≠ 0 → elem.block ≠ elem'.block) ∧
      (elem.InFile → elem'.InFile → url.1.hash ≠ other.1.hash)

theorem isolated_initialise (path : Bytes) (limit hysteresis : Nat) :
    Isolated (initialise path limit hysteresis) [] where
  named _ _ impossible := by cases impossible
  reserved _ := rfl
  kept _ _ _ impossible := by cases impossible
  blocks _ _ _ impossible := by cases impossible
  apart _ _ _ _ _ impossible := by cases impossible

/-- A step writes nothing. The elements after it are fresh or were there before it, with the data
that they had in use or with data that was read. -/
structure Calm (Read : HashedUrl → ElemIdx → StoreEntryElement → Prop) (state after : StoreState) :
    Prop where
  path : after.path = state.path
  named : (∀ url se, state.entries.lookup url = some se → SameUrl se.url url) →
    ∀ url se, after.entries.lookup url = some se → SameUrl se.url url
  elements : ∀ url idx elem', after.elementAt url idx = some elem' → elem'.Fresh ∨
    ∃ elem, state.elementAt url idx = some elem ∧ elem'.size = elem.size ∧
      elem'.block = elem.block ∧ (elem'.heap = true →
        elem.heap = true ∧ elem'.data = elem.data ∨ Read url idx elem')
  cleared : ∀ idx block, after.useMap idx block = true → state.useMap idx block = true
  held : ∀ url idx elem, after.elementAt url idx = some elem →
    state.useMap idx elem.block = true → after.useMap idx elem.block = true
  reserved : ∀ idx, state.useMap idx 0 = true → after.useMap idx 0 = true
  files : ∀ name, after.files name = state.files name ∨
    after.files name = none ∧ ∃ url idx, name = state.elementName url idx

/-- A step that reads nothing either only drops what was there. -/
abbrev Shrinks (state after : StoreState) : Prop := Calm (fun _ _ _ => False) state after

theorem shrinks_refl (state : StoreState) : Shrinks state state where
  path := rfl
  named := id
  elements _ _ elem present :=
    Or.inr ⟨elem, present, rfl, rfl, fun heap => Or.inl ⟨heap, rfl⟩⟩
  cleared _ _ := id
  held _ _ _ _ := id
  reserved _ := id
  files _ := Or.inl rfl

theorem shrinks_trans {middle : StoreState} (first : Shrinks state middle)
    (second : Shrinks middle after) : Shrinks state after where
  path := second.path.trans first.path
  named known := second.named (first.named known)
  elements url idx elem'' present := by
    rcases second.elements url idx elem'' present with fresh | ⟨elem', present, size, block, heap⟩
    · exact Or.inl fresh
    · have in_use (used : elem''.heap = true) : elem'.heap = true ∧ elem''.data = elem'.data :=
        (heap used).resolve_right id
      rcases first.elements url idx elem' present with fresh | ⟨elem, before, size', block', heap'⟩
      · left
        refine ⟨size.trans fresh.1, block.trans fresh.2.1, ?_⟩
        cases used : elem''.heap with
        | false => rfl
        | true => exact (fresh.2.2.symm.trans (in_use used).1).symm
      · refine Or.inr ⟨elem, before, size.trans size', block.trans block', fun used => Or.inl ?_⟩
        obtain ⟨used', data⟩ := in_use used
        obtain ⟨used'', data'⟩ := (heap' used').resolve_right id
        exact ⟨used'', data.trans data'⟩
  cleared idx block used := first.cleared idx block (second.cleared idx block used)
  held url idx elem present used := by
    apply second.held url idx elem present
    rcases second.elements url idx elem present with fresh | ⟨elem', before, _, block, _⟩
    · rw [fresh.2.1] at used ⊢
      exact first.reserved idx used
    · rw [block] at used ⊢
      exact first.held url idx elem' before used
  reserved idx used := second.reserved idx (first.reserved idx used)
  files name := by
    rcases second.files name with same | ⟨gone, url, idx, name_eq⟩
    · rcases first.files name with before | ⟨gone, owner⟩
      · exact Or.inl (same.trans before)
      · exact Or.inr ⟨same.trans gone, owner⟩
    · refine Or.inr ⟨gone, url, idx, ?_⟩
      rw [name_eq, StoreState.elementName, StoreState.elementName, first.path]

/-- A calm step keeps what is on the disk. -/
theorem OnDisk.calm {Read : HashedUrl → ElemIdx → StoreEntryElement → Prop}
    {elem elem' : StoreEntryElement} {data : Bytes} (calm : Calm Read state after)
    (size : elem'.size = elem.size) (block : elem'.block = elem.block)
    (before : OnDisk state url idx elem data) : OnDisk after url idx elem' data := by
  constructor
  · intro inBlock
    rw [size, block] at *
    have name : after.blockName idx elem.block = state.blockName idx elem.block := by
      rw [StoreState.blockName, StoreState.blockName, calm.path]
    rw [name]
    rcases calm.files (state.blockName idx elem.block) with same | ⟨_, url, idx', name_eq⟩
    · rw [same]
      exact before.1 inBlock
    · exact absurd name_eq.symm storeFname_element_ne_block
  · rintro ⟨noBlock, nonzero⟩ file present
    rw [block] at noBlock
    rw [size] at nonzero ⊢
    have name : after.elementName url idx = state.elementName url idx := by
      rw [StoreState.elementName, StoreState.elementName, calm.path]
    rw [name] at present
    apply before.2 ⟨noBlock, nonzero⟩ file
    rcases calm.files (state.elementName url idx) with same | ⟨gone, _⟩
    · rw [← same, present]
    · rw [gone] at present
      cases present

/-- A calm step that reads the data stored last keeps the elements isolated. -/
theorem isolated_of_calm {Read : HashedUrl → ElemIdx → StoreEntryElement → Prop}
    (calm : Calm Read state after)
    (read : ∀ url idx elem, Read url idx elem →
      latest history url idx = some elem.data ∧ elem.data.length = elem.size)
    (isolated : Isolated state history) : Isolated after history where
  named := calm.named isolated.named
  reserved idx := calm.reserved idx (isolated.reserved idx)
  kept url idx elem' present := by
    rcases calm.elements url idx elem' present with fresh | ⟨elem, before, size, block, heap⟩
    · exact Or.inl fresh
    · rcases isolated.kept url idx elem before with fresh | ⟨data, last, length, in_use, disk⟩
      · cases used : elem'.heap with
        | false => exact Or.inl ⟨size.trans fresh.1, block.trans fresh.2.1, used⟩
        | true =>
            rcases heap used with ⟨impossible, _⟩ | taken
            · exact absurd (fresh.2.2.symm.trans impossible) Bool.false_ne_true
            · obtain ⟨last, length⟩ := read url idx elem' taken
              refine Or.inr ⟨elem'.data, last, length, fun _ => rfl, ?_, ?_⟩
              · exact fun inBlock => absurd (block.trans fresh.2.1) inBlock
              · exact fun inFile => absurd (size.trans fresh.1) inFile.2
      · refine Or.inr ⟨data, last, length.trans size.symm, fun used => ?_, disk.calm calm size block⟩
        rcases heap used with ⟨used', same⟩ | taken
        · exact same.trans (in_use used')
        · exact Option.some.inj ((read url idx elem' taken).1.symm.trans last)
  blocks url idx elem' present inBlock := by
    rcases calm.elements url idx elem' present with fresh | ⟨elem, before, size, block, _⟩
    · exact absurd fresh.2.1 inBlock
    · have held := calm.held url idx elem' present
      rw [size]
      rw [block] at inBlock held ⊢
      obtain ⟨small, used, fits⟩ := isolated.blocks url idx elem before inBlock
      exact ⟨small, held used, fits⟩
  apart url other idx elem₁ elem₂ first second different := by
    rcases calm.elements url idx elem₁ first with fresh | ⟨before₁, present₁, size₁, block₁, _⟩
    · exact ⟨fun inBlock => absurd fresh.2.1 inBlock, fun inFile => absurd fresh.1 inFile.2⟩
    · rcases calm.elements other idx elem₂ second with fresh | ⟨before₂, present₂, size₂, block₂, _⟩
      · refine ⟨fun inBlock => ?_, fun _ inFile => absurd fresh.1 inFile.2⟩
        rw [fresh.2.1]
        exact inBlock
      · rw [StoreEntryElement.InFile, StoreEntryElement.InFile, size₁, size₂, block₁, block₂]
        exact isolated.apart url other idx before₁ before₂ present₁ present₂ different

theorem isolated_of_shrinks (shrinks : Shrinks state after) (isolated : Isolated state history) :
    Isolated after history :=
  isolated_of_calm shrinks (fun _ _ _ impossible => impossible.elim) isolated

end Neosurf.FsBackingStore

namespace Neosurf.FsBackingStore

variable {env : Environment} {state after : StoreState} {history : History} {url : HashedUrl}
  {idx : ElemIdx}

/-- A change of entries that leaves their URLs and elements alone drops nothing. -/
theorem shrinks_modify {change : StoreEntry → StoreEntry} (other : HashedUrl)
    (kept : ∀ se, (change se).elem = se.elem) (named : ∀ se, (change se).url = se.url) :
    Shrinks state { state with entries := state.entries.modify other change } := by
  have same (url : HashedUrl) (idx : ElemIdx) :
      StoreState.elementAt { state with entries := state.entries.modify other change } url idx =
        state.elementAt url idx :=
    elementAt_modify change kept rfl rfl
  constructor
  · rfl
  · exact named_modify rfl named
  · intro url idx elem present
    rw [same] at present
    exact Or.inr ⟨elem, present, rfl, rfl, fun heap => Or.inl ⟨heap, rfl⟩⟩
  · exact fun _ _ => id
  · exact fun _ _ _ _ => id
  · exact fun _ => id
  · exact fun _ => Or.inl rfl

/-- An element that keeps its size and block may be set. -/
theorem calm_setElement {Read : HashedUrl → ElemIdx → StoreEntryElement → Prop}
    {elem elem' : StoreEntryElement} (present : state.elementAt url idx = some elem)
    (size : elem'.size = elem.size) (block : elem'.block = elem.block)
    (heap : elem'.heap = true → elem.heap = true ∧ elem'.data = elem.data ∨
      ∀ other, SameUrl url other → Read other idx elem') :
    Calm Read state (state.setElement url idx elem') := by
  have entries_eq : (state.setElement url idx elem').entries = state.entries.modify url fun se =>
      { se with elem := Function.update se.elem idx elem' } :=
    rfl
  constructor
  · rfl
  · exact named_modify entries_eq fun _ => rfl
  · intro other idx' after found
    have seen := elementAt_modify_element state other url idx idx' elem' (fun _ => rfl) entries_eq
    rcases seen with ⟨same, here, set⟩ | ⟨_, unchanged⟩
    · subst here
      rw [set, ← elementAt_congr same, present] at found
      cases found
      rw [elementAt_congr same] at present
      exact Or.inr ⟨elem, present, size, block, fun used => (heap used).imp_right fun read =>
        read other same⟩
    · rw [unchanged] at found
      exact Or.inr ⟨after, found, rfl, rfl, fun used => Or.inl ⟨used, rfl⟩⟩
  · exact fun _ _ => id
  · exact fun _ _ _ _ => id
  · exact fun _ => id
  · exact fun _ => Or.inl rfl

theorem useMap_invalidateEntry {bse : StoreEntry}
    (free : ¬ ((bse.elem .data).heap || (bse.elem .metadata).heap) = true) (idx : ElemIdx)
    (block : Nat) : (invalidateEntry state bse).useMap idx block =
      if block = (bse.elem idx).block ∧ block ≠ 0 then false else state.useMap idx block := by
  rw [invalidateEntry_free free]
  dsimp only
  rw [useMap_invalidateElement, useMap_invalidateElement]
  cases idx <;> simp

theorem files_invalidateEntry {bse : StoreEntry}
    (free : ¬ ((bse.elem .data).heap || (bse.elem .metadata).heap) = true) (name : Bytes) :
    (invalidateEntry state bse).files name = state.files name ∨
      (invalidateEntry state bse).files name = none ∧
        ∃ url idx, name = state.elementName url idx := by
  rw [invalidateEntry_free free]
  dsimp only
  rcases files_invalidateElement (invalidateElement state bse .metadata) bse .data name with
    same | ⟨gone, name_eq⟩
  · rcases files_invalidateElement state bse .metadata name with before | ⟨gone, name_eq⟩
    · exact Or.inl (same.trans before)
    · exact Or.inr ⟨same.trans gone, bse.url, .metadata, name_eq⟩
  · refine Or.inr ⟨gone, bse.url, .data, ?_⟩
    rw [name_eq, StoreState.elementName, StoreState.elementName, path_invalidateElement]

/-- An invalidated entry is marked or removed. Its blocks are no one else's. -/
theorem shrinks_invalidateEntry {bse : StoreEntry} (isolated : Isolated state history)
    (present : state.entries.lookup bse.url = some bse) :
    Shrinks state (invalidateEntry state bse) := by
  by_cases busy : ((bse.elem .data).heap || (bse.elem .metadata).heap) = true
  · rw [invalidateEntry_busy busy]
    apply shrinks_modify
    · intro se
      rfl
    · intro se
      rfl
  · have removed (url : HashedUrl) (idx : ElemIdx) (elem : StoreEntryElement)
        (found : (invalidateEntry state bse).elementAt url idx = some elem) :
        ¬ SameUrl bse.url url ∧ state.elementAt url idx = some elem := by
      rcases elementAt_invalidateEntry state url idx busy with
        ⟨_, gone⟩ | ⟨different, same⟩
      · rw [gone] at found
        cases found
      · exact ⟨different, same ▸ found⟩
    constructor
    · rw [invalidateEntry_free busy]
      simp
    · exact named_invalidateEntry busy
    · intro url idx elem found
      exact Or.inr ⟨elem, (removed url idx elem found).2, rfl, rfl, fun heap => Or.inl ⟨heap, rfl⟩⟩
    · intro idx block used
      rw [useMap_invalidateEntry busy] at used
      split at used
      · cases used
      · exact used
    · intro url idx elem found used
      obtain ⟨different, before⟩ := removed url idx elem found
      rw [useMap_invalidateEntry busy, if_neg]
      · exact used
      · rintro ⟨same, nonzero⟩
        have own : state.elementAt bse.url idx = some (bse.elem idx) :=
          elementAt_eq_some.mpr ⟨bse, present, rfl⟩
        have apart := (isolated.apart url bse.url idx elem (bse.elem idx) before own
          fun same => different (sameUrl_symm same)).1 nonzero
        exact apart same
    · intro idx used
      rw [useMap_invalidateEntry busy, if_neg (by simp)]
      exact used
    · exact files_invalidateEntry busy

/-- The loop of an eviction invalidates one entry after another. -/
theorem shrinks_evictEntries (urls : List HashedUrl) (removed : Nat)
    (isolated : Isolated state history) : Shrinks state (evictEntries urls removed state) := by
  induction urls generalizing state removed with
  | nil => exact shrinks_refl state
  | cons url rest ih =>
      rw [evictEntries]
      cases found : state.entries.lookup url with
      | none => exact ih removed isolated
      | some bse =>
          have own : state.entries.lookup bse.url = some bse := by
            rw [lookup_congr (isolated.named url bse found), found]
          have step := shrinks_invalidateEntry isolated own
          dsimp only
          split
          · exact step
          · exact shrinks_trans step (ih _ (isolated_of_shrinks step isolated))

theorem shrinks_storeEvict (isolated : Isolated state history) :
    Shrinks state (storeEvict env state) := by
  unfold storeEvict
  split
  · exact shrinks_refl state
  · exact shrinks_evictEntries _ _ isolated

/-- A missing entry is made with fresh elements. -/
theorem shrinks_ensureEntry : Shrinks state (ensureEntry state url) := by
  unfold ensureEntry
  cases absent : state.entries.lookup url with
  | some se => exact shrinks_refl state
  | none =>
      constructor
      · rfl
      · exact named_insert absent
      · intro other idx elem found
        dsimp only at found
        rw [elementAt_insert absent] at found
        split at found
        · cases found
          exact Or.inl ⟨rfl, rfl, rfl⟩
        · exact Or.inr ⟨elem, found, rfl, rfl, fun heap => Or.inl ⟨heap, rfl⟩⟩
      · exact fun _ _ => id
      · exact fun _ _ _ _ => id
      · exact fun _ => id
      · exact fun _ => Or.inl rfl

/-- The lookup of an entry only updates its usage. -/
theorem getStoreEntry_eq_some {bse : StoreEntry}
    (found : getStoreEntry env state url = some (after, bse)) :
    Shrinks state after ∧ after.entries.lookup url = some bse ∧ after.files = state.files ∧
      ∃ se, state.entries.lookup url = some se ∧ bse.elem = se.elem ∧ bse.url = se.url := by
  obtain ⟨se, present, same⟩ := Option.map_eq_some_iff.mp found
  cases same
  refine ⟨?_, ?_, rfl, se, present, rfl, rfl⟩
  · apply shrinks_modify
    · intro se
      rfl
    · intro se
      rfl
  · dsimp only
    rw [Hashmap.lookup_modify, if_pos (sameUrl_refl url), present]
    rfl

end Neosurf.FsBackingStore

namespace Neosurf.FsBackingStore

variable {env : Environment} {state after : StoreState} {history : History} {url : HashedUrl}
  {idx : ElemIdx}

/-- The data of an element finds room: it fits in a block when the element has one, and when it
goes to a file, no other URL with the same hash has the data of this element in a file. -/
structure Room (state : StoreState) (url : HashedUrl) (idx : ElemIdx) (data : Bytes) : Prop where
  block : ∀ elem, state.elementAt url idx = some elem → elem.block ≠ 0 →
    data.length ≤ 1 <<< log2BlockSize idx
  file : data ≠ [] → 1 <<< log2BlockSize idx < data.length ∨ freeBlock state idx = none →
    ∀ other elem, state.elementAt other idx = some elem → elem.InFile → ¬ SameUrl url other →
      url.1.hash ≠ other.1.hash

theorem freeBlock_eq_some {block : Nat} (found : freeBlock state idx = some block) :
    block < BLOCK_FILE_COUNT * 2 ^ BLOCK_ENTRY_COUNT ∧ state.useMap idx block = false := by
  have unused := List.find?_some found
  have inside := List.mem_of_find?_eq_some found
  rw [Bool.not_eq_true'] at unused
  exact ⟨List.mem_range.mp inside, unused⟩

theorem freeBlock_eq_none : freeBlock state idx = none ↔
    ∀ block < BLOCK_FILE_COUNT * 2 ^ BLOCK_ENTRY_COUNT, state.useMap idx block = true := by
  simp [freeBlock]

/-- A state that drops something has as much room. -/
theorem Room.shrinks {data : Bytes} (shrinks : Shrinks state after)
    (room : Room state url idx data) : Room after url idx data where
  block elem' present inBlock := by
    rcases shrinks.elements url idx elem' present with fresh | ⟨elem, before, _, block, _⟩
    · exact absurd fresh.2.1 inBlock
    · exact room.block elem before (block ▸ inBlock)
  file nonempty full other elem' present inFile different := by
    rcases shrinks.elements other idx elem' present with fresh | ⟨elem, before, size, block, _⟩
    · exact absurd fresh.1 inFile.2
    · apply room.file nonempty _ other elem before ⟨block ▸ inFile.1, size ▸ inFile.2⟩ different
      apply full.imp_right
      rw [freeBlock_eq_none, freeBlock_eq_none]
      intro used block small
      exact shrinks.cleared idx block (used block small)

/-- What `set_store_entry` makes of the element of an entry. A small element takes a free block,
and a large one keeps the block that it had. -/
structure SetData (env : Environment) (state after : StoreState) (se : StoreEntry) (idx : ElemIdx)
    (data : Bytes) (elem : StoreEntryElement) : Prop where
  taken : elem.data = data
  size : elem.size = data.length % 2 ^ 32
  heap : elem.heap = true
  ref : elem.ref = 1
  path : after.path = state.path
  hysteresis : after.hysteresis = state.hysteresis
  files : after.files = state.files
  totalAlloc : after.totalAlloc =
    state.totalAlloc - UInt64.ofNat (se.elem idx).size + UInt64.ofNat elem.size
  entries : after.entries = state.entries.modify se.url fun se =>
    { se with useCount := 1, lastUsed := env.now, elem := Function.update se.elem idx elem }
  place : (elem.size ≤ 1 <<< log2BlockSize idx ∧ freeBlock state idx = some elem.block ∧
      after.useMap = (state.mark idx elem.block true).useMap) ∨
    (after.useMap = state.useMap ∧
      (elem.size ≤ 1 <<< log2BlockSize idx ∧ freeBlock state idx = none ∧ elem.block = 0 ∨
        1 <<< log2BlockSize idx < elem.size ∧ elem.block = (se.elem idx).block))

theorem setElementData_set {se : StoreEntry} {data : Bytes} {elem : StoreEntryElement}
    (done : setElementData env state se idx data = (after, elem)) :
    SetData env state after se idx data elem := by
  unfold setElementData allocBlock at done
  generalize size : data.length % 2 ^ 32 = length at done
  dsimp only at done
  by_cases small : length ≤ 1 <<< log2BlockSize idx
  · simp only [small, if_true] at done
    cases free : freeBlock state idx with
    | some block =>
        simp only [free] at done
        cases done
        exact ⟨rfl, size.symm, rfl, rfl, rfl, rfl, rfl, rfl, rfl, Or.inl ⟨small, free, rfl⟩⟩
    | none =>
        simp only [free] at done
        cases done
        exact ⟨rfl, size.symm, rfl, rfl, rfl, rfl, rfl, rfl, rfl,
          Or.inr ⟨rfl, Or.inl ⟨small, free, rfl⟩⟩⟩
  · simp only [small, if_false] at done
    cases done
    exact ⟨rfl, size.symm, rfl, rfl, rfl, rfl, rfl, rfl, rfl,
      Or.inr ⟨rfl, Or.inr ⟨not_le.mp small, rfl⟩⟩⟩

/-- The data of an element takes a free block, or it has none. -/
theorem setElementData_cases {se : StoreEntry} {data : Bytes} {elem : StoreEntryElement}
    (isolated : Isolated state history) (room : Room state url idx data)
    (present : state.elementAt url idx = some (se.elem idx)) (short : data.length < 2 ^ 32)
    (done : setElementData env state se idx data = (after, elem)) :
    elem.data = data ∧ elem.size = data.length ∧ elem.heap = true ∧ after.path = state.path ∧
      after.files = state.files ∧
      (after.entries = state.entries.modify se.url fun se =>
        { se with useCount := 1, lastUsed := env.now, elem := Function.update se.elem idx elem }) ∧
      ((elem.block ≠ 0 ∧ freeBlock state idx = some elem.block ∧
          data.length ≤ 1 <<< log2BlockSize idx ∧
          after.useMap = (state.mark idx elem.block true).useMap) ∨
        (elem.block = 0 ∧ after.useMap = state.useMap ∧
          (1 <<< log2BlockSize idx < data.length ∨ freeBlock state idx = none))) := by
  have set := setElementData_set done
  have size : elem.size = data.length := set.size.trans (Nat.mod_eq_of_lt short)
  refine ⟨set.taken, size, set.heap, set.path, set.files, set.entries, ?_⟩
  have place := set.place
  rw [size] at place
  rcases place with ⟨small, free, useMap⟩ | ⟨useMap, ⟨_, full, noBlock⟩ | ⟨large, same⟩⟩
  · refine Or.inl ⟨?_, free, small, useMap⟩
    intro zero
    have unused := (freeBlock_eq_some free).2
    rw [zero, isolated.reserved idx] at unused
    cases unused
  · exact Or.inr ⟨noBlock, useMap, Or.inr full⟩
  · refine Or.inr ⟨?_, useMap, Or.inl large⟩
    rw [same]
    by_contra inBlock
    exact not_le.mpr large (room.block _ present inBlock)

theorem blockFile_lt (block : Nat) : blockFile block < 64 := by
  have bits : blockFile block = (block >>> BLOCK_ENTRY_COUNT) % 2 ^ 6 := and_six_bits _
  rw [bits]
  exact Nat.mod_lt _ (by decide)

/-- A block is known by its file and its place. -/
theorem block_eq_of_places {block block' : Nat} (small : block < BLOCK_FILE_COUNT * 2 ^ BLOCK_ENTRY_COUNT)
    (small' : block' < BLOCK_FILE_COUNT * 2 ^ BLOCK_ENTRY_COUNT)
    (file : blockFile block = blockFile block') (place : blockIndex block = blockIndex block') :
    block = block' := by
  have high (block : Nat) : blockFile block = block / 2 ^ 10 % 2 ^ 6 := by
    rw [← Nat.shiftRight_eq_div_pow]
    exact and_six_bits _
  have low (block : Nat) : blockIndex block = block % 2 ^ 10 :=
    Nat.and_two_pow_sub_one_eq_mod block 10
  rw [high, high] at file
  rw [low, low] at place
  have bound : block < 6144 := small
  have bound' : block' < 6144 := small'
  omega

/-- The data in one block does not reach into another block of the same file. -/
theorem blocks_disjoint {block block' size size' : Nat}
    (small : block < BLOCK_FILE_COUNT * 2 ^ BLOCK_ENTRY_COUNT)
    (small' : block' < BLOCK_FILE_COUNT * 2 ^ BLOCK_ENTRY_COUNT)
    (file : blockFile block = blockFile block') (different : block ≠ block')
    (fits : size ≤ 1 <<< log2BlockSize idx) (fits' : size' ≤ 1 <<< log2BlockSize idx) :
    blockOffset idx block + size ≤ blockOffset idx block' ∨
      blockOffset idx block' + size' ≤ blockOffset idx block := by
  have places : blockIndex block ≠ blockIndex block' := fun place =>
    different (block_eq_of_places small small' file place)
  have scaled (block : Nat) : blockOffset idx block = blockIndex block * 8192 := by
    rw [blockOffset, Nat.shiftLeft_eq]
    cases idx <;> rfl
  have eight : 1 <<< log2BlockSize idx = 8192 := by cases idx <;> rfl
  rw [eight] at fits fits'
  rw [scaled, scaled]
  omega

theorem latest_cons_self {other : HashedUrl} (same : SameUrl url other) (data : Bytes) :
    latest ((url, idx, data) :: history) other idx = some data := by
  have compared : Nsurl.compare url.1 other.1 Nsurl.COMPLETE = true := same
  simp [latest, compared]

theorem latest_cons_other {other : HashedUrl} {idx' : ElemIdx}
    (different : ¬ (SameUrl url other ∧ idx' = idx)) (data : Bytes) :
    latest ((url, idx, data) :: history) other idx' = latest history other idx' := by
  have apart : (Nsurl.compare url.1 other.1 Nsurl.COMPLETE && idx == idx') = false := by
    rw [Bool.and_eq_false_iff, ← Bool.not_eq_true, ← Bool.not_eq_true, beq_iff_eq]
    by_cases same : SameUrl url other
    · exact Or.inr fun here => different ⟨same, here.symm⟩
    · exact Or.inl same
  simp [latest, apart]

/-- The place where an element is written: its block, or a file of its own. -/
def writtenAt (state : StoreState) (url : HashedUrl) (idx : ElemIdx) (elem : StoreEntryElement) :
    Bytes × Nat :=
  if elem.block ≠ 0 then (state.blockName idx elem.block, blockOffset idx elem.block)
  else (state.elementName url idx, 0)

theorem writeElement_eq (elem : StoreEntryElement) : writeElement state url idx elem =
    state.write (writtenAt state url idx elem).1 (elem.data.take elem.size)
      (writtenAt state url idx elem).2 := by
  unfold writeElement writtenAt
  split <;> rfl

/-- A file that is written shows the data, and no other file changes. -/
theorem files_write (state : StoreState) (name data other : Bytes) (offset : Nat) :
    (state.write name data offset).files other =
      if other = name then some (((state.files name).getD .empty).pwrite data offset)
      else state.files other := by
  simp only [StoreState.write, Function.update_apply]

/-- The data of an element stays on the disk when another element is written. -/
theorem OnDisk.write {other : HashedUrl} {idx' : ElemIdx} {elem elem' : StoreEntryElement}
    {data kept : Bytes} (before : OnDisk state other idx' elem' kept)
    (whole : kept.length = elem'.size) (size : elem.size = data.length)
    (inside : elem.block ≠ 0 → elem.block < BLOCK_FILE_COUNT * 2 ^ BLOCK_ENTRY_COUNT ∧
      elem.size ≤ 1 <<< log2BlockSize idx)
    (inside' : elem'.block ≠ 0 → elem'.block < BLOCK_FILE_COUNT * 2 ^ BLOCK_ENTRY_COUNT ∧
      elem'.size ≤ 1 <<< log2BlockSize idx')
    (blocks : idx' = idx → elem'.block ≠ 0 → elem.block ≠ elem'.block)
    (names : idx' = idx → elem.InFile → elem'.InFile → url.1.hash ≠ other.1.hash) :
    OnDisk (state.write (writtenAt state url idx elem).1 data (writtenAt state url idx elem).2)
      other idx' elem' kept := by
  constructor
  · intro inBlock
    change (((state.write _ data _).files (state.blockName idx' elem'.block)).getD .empty).pread _ _ = _
    rw [files_write]
    have read := before.1 inBlock
    unfold writtenAt
    by_cases block : elem.block ≠ 0
    · simp only [block, ne_eq, not_false_eq_true, if_true]
      split
      · rename_i same
        obtain ⟨file, rfl⟩ := storeFname_block_inj (blockFile_lt _) (blockFile_lt _) same
        obtain ⟨small', fits'⟩ := inside' inBlock
        obtain ⟨small, fits⟩ := inside block
        have apart := blocks_disjoint small' small file (blocks rfl inBlock).symm fits' fits
        rw [size] at apart
        rw [← same, Option.getD_some, PosixFile.pread_pwrite_other apart, read]
        rw [read, whole]
      · exact read
    · simp only [block, if_false]
      split
      · rename_i same
        exact absurd same.symm storeFname_element_ne_block
      · exact read
  · intro inFile file present length
    change (state.write _ data _).files (state.elementName other idx') = some file at present
    rw [files_write] at present
    unfold writtenAt at present
    by_cases block : elem.block ≠ 0
    · simp only [block, ne_eq, not_false_eq_true, if_true] at present
      split at present
      · rename_i same
        exact absurd same storeFname_element_ne_block
      · exact before.2 inFile file present length
    · simp only [block, if_false] at present
      split at present
      · rename_i same
        obtain ⟨hash, rfl⟩ := storeFname_element_inj same
        -- Only an element without data may share the file.
        by_cases nothing : data = []
        · have unchanged (f : PosixFile Byte) : f.pwrite data 0 = f := by
            rw [PosixFile.pwrite, if_pos nothing]
          rw [unchanged, Option.some.injEq] at present
          cases stored : state.files (state.elementName url idx') with
          | some f =>
              rw [stored, Option.getD_some] at present
              subst present
              have there : state.files (state.elementName other idx') = some f := by
                rw [← stored]
                exact congrArg state.files same
              exact before.2 inFile f there length
          | none =>
              rw [stored, Option.getD_none] at present
              subst present
              have short : ((PosixFile.empty : PosixFile Byte).pread elem'.size 0).length = 0 := by
                rw [PosixFile.length_pread]
                exact Nat.min_zero _
              exact absurd (length.symm.trans short) inFile.2
        · have own : elem.InFile := by
            refine ⟨not_not.mp block, ?_⟩
            rw [size]
            exact fun empty => nothing (List.length_eq_zero_iff.mp empty)
          exact absurd hash.symm (names rfl own inFile)
      · exact before.2 inFile file present length

end Neosurf.FsBackingStore

namespace Neosurf.FsBackingStore

variable {env : Environment} {state middle after : StoreState} {history : History}
  {url : HashedUrl} {idx : ElemIdx}

theorem elementName_congr {other : HashedUrl} (path : after.path = state.path)
    (same : SameUrl url other) : after.elementName url idx = state.elementName other idx := by
  rw [StoreState.elementName, StoreState.elementName, path, hash_eq_of_sameUrl same]

theorem blockName_congr (path : after.path = state.path) (block : Nat) :
    after.blockName idx block = state.blockName idx block := by
  rw [StoreState.blockName, StoreState.blockName, path]

/-- What is on the disk depends on the files only. -/
theorem OnDisk.congr {elem : StoreEntryElement} {data : Bytes} (path : after.path = state.path)
    (files : after.files = state.files) (before : OnDisk state url idx elem data) :
    OnDisk after url idx elem data := by
  rw [OnDisk, blockName_congr path, elementName_congr path (sameUrl_refl url), files]
  exact before

/-- What is written is on the disk. -/
theorem onDisk_written {other : HashedUrl} {elem : StoreEntryElement} {data : Bytes}
    (same : SameUrl url other) (size : elem.size = data.length) :
    OnDisk (state.write (writtenAt state url idx elem).1 data (writtenAt state url idx elem).2)
      other idx elem data := by
  constructor
  · intro inBlock
    change (((state.write _ data _).files (state.blockName idx elem.block)).getD .empty).pread _ _
      = _
    rw [writtenAt, if_pos inBlock, files_write, if_pos rfl, Option.getD_some, size]
    exact PosixFile.pread_pwrite_self _ _ _
  · rintro ⟨noBlock, _⟩ file present _
    change (state.write _ data _).files (state.elementName other idx) = some file at present
    rw [writtenAt, if_neg (not_not.mpr noBlock), files_write,
      elementName_congr rfl (sameUrl_symm same), if_pos rfl] at present
    cases present
    rw [size]
    exact PosixFile.pread_pwrite_self _ _ _

/-- A block that is free belongs to no element. -/
theorem not_taken {block : Nat} (isolated : Isolated state history)
    (free : freeBlock state idx = some block) {other : HashedUrl} {elem : StoreEntryElement}
    (present : state.elementAt other idx = some elem) (inBlock : elem.block ≠ 0) :
    block ≠ elem.block := by
  intro same
  have used := (isolated.blocks other idx elem present inBlock).2.1
  rw [← same, (freeBlock_eq_some free).2] at used
  cases used

/-- What `set_store_entry` makes of the element of an entry. -/
structure Taken (state middle : StoreState) (url : HashedUrl) (idx : ElemIdx) (data : Bytes)
    (elem : StoreEntryElement) : Prop where
  size : elem.size = data.length
  taken : elem.data = data
  path : middle.path = state.path
  files : middle.files = state.files
  named : (∀ url se, state.entries.lookup url = some se → SameUrl se.url url) →
    ∀ url se, middle.entries.lookup url = some se → SameUrl se.url url
  elements : ∀ other idx', (SameUrl url other ∧ idx' = idx ∧
      middle.elementAt other idx' = (state.elementAt other idx').map fun _ => elem) ∨
    (¬ (SameUrl url other ∧ idx' = idx) ∧
      middle.elementAt other idx' = state.elementAt other idx')
  used : ∀ idx' block, state.useMap idx' block = true → middle.useMap idx' block = true
  block : elem.block ≠ 0 → freeBlock state idx = some elem.block ∧
    data.length ≤ 1 <<< log2BlockSize idx ∧ middle.useMap idx elem.block = true
  noBlock : elem.block = 0 → 1 <<< log2BlockSize idx < data.length ∨ freeBlock state idx = none

theorem setElementData_taken {se : StoreEntry} {data : Bytes} {elem : StoreEntryElement}
    (isolated : Isolated state history) (room : Room state url idx data)
    (present : state.entries.lookup url = some se) (short : data.length < 2 ^ 32)
    (done : setElementData env state se idx data = (middle, elem)) :
    Taken state middle url idx data elem := by
  have same : SameUrl se.url url := isolated.named url se present
  have old : state.elementAt url idx = some (se.elem idx) :=
    elementAt_eq_some.mpr ⟨se, present, rfl⟩
  obtain ⟨taken, size, _, path, files, entries, place⟩ :=
    setElementData_cases isolated room old short done
  constructor
  · exact size
  · exact taken
  · exact path
  · exact files
  · apply named_modify entries
    intro se
    rfl
  · intro other idx'
    have seen := elementAt_modify_element state other se.url idx idx' elem (fun _ => rfl) entries
    have agree : SameUrl se.url other ↔ SameUrl url other :=
      ⟨sameUrl_trans (sameUrl_symm same), sameUrl_trans same⟩
    rwa [agree] at seen
  · intro idx' block used
    rcases place with ⟨_, _, _, useMap⟩ | ⟨_, useMap, _⟩
    · rw [useMap, StoreState.mark]
      dsimp only
      split
      · rfl
      · exact used
    · rw [useMap]
      exact used
  · intro inBlock
    rcases place with ⟨_, free, fits, useMap⟩ | ⟨noBlock, _⟩
    · refine ⟨free, fits, ?_⟩
      rw [useMap, StoreState.mark]
      simp
    · exact absurd noBlock inBlock
  · intro noBlock
    rcases place with ⟨inBlock, _⟩ | ⟨_, _, full⟩
    · exact absurd noBlock inBlock
    · exact full

variable {data : Bytes} {elem : StoreEntryElement}

/-- The element that takes the data is apart from the elements of the other URLs. -/
theorem Taken.apart (taken : Taken state middle url idx data elem)
    (isolated : Isolated state history) (room : Room state url idx data) {other : HashedUrl}
    {elem' : StoreEntryElement} (present : state.elementAt other idx = some elem')
    (different : ¬ SameUrl url other) :
    (elem.block ≠ 0 ∨ elem'.block ≠ 0 → elem.block ≠ elem'.block) ∧
      (elem.InFile → elem'.InFile → url.1.hash ≠ other.1.hash) := by
  constructor
  · intro inBlock same
    have inBlock' : elem'.block ≠ 0 := by
      rcases inBlock with own | theirs
      · rwa [same] at own
      · exact theirs
    have free := (taken.block (same ▸ inBlock')).1
    exact not_taken isolated free present inBlock' same
  · intro inFile inFile'
    apply room.file _ (taken.noBlock inFile.1) other elem' present inFile' different
    rintro rfl
    exact inFile.2 taken.size

/-- The element that takes the data has it, and the others keep theirs. -/
theorem Taken.kept (taken : Taken state middle url idx data elem)
    (isolated : Isolated state history) (room : Room state url idx data) {other : HashedUrl}
    {idx' : ElemIdx} {elem' : StoreEntryElement}
    (present : state.elementAt other idx' = some elem')
    (different : ¬ (SameUrl url other ∧ idx' = idx)) :
    Kept (middle.write (writtenAt middle url idx elem).1 data (writtenAt middle url idx elem).2)
      ((url, idx, data) :: history) other idx' elem' := by
  rcases isolated.kept other idx' elem' present with fresh | ⟨kept, last, whole, heap, disk⟩
  · exact Or.inl fresh
  · refine Or.inr ⟨kept, ?_, whole, heap, ?_⟩
    · rw [latest_cons_other different, last]
    · have inside : elem.block ≠ 0 → elem.block < BLOCK_FILE_COUNT * 2 ^ BLOCK_ENTRY_COUNT ∧
          elem.size ≤ 1 <<< log2BlockSize idx := by
        intro inBlock
        obtain ⟨free, fits, _⟩ := taken.block inBlock
        exact ⟨(freeBlock_eq_some free).1, taken.size ▸ fits⟩
      have inside' : elem'.block ≠ 0 → elem'.block < BLOCK_FILE_COUNT * 2 ^ BLOCK_ENTRY_COUNT ∧
          elem'.size ≤ 1 <<< log2BlockSize idx' := by
        intro inBlock
        obtain ⟨small, _, fits⟩ := isolated.blocks other idx' elem' present inBlock
        exact ⟨small, fits⟩
      apply (disk.congr taken.path taken.files).write whole taken.size inside inside'
      · rintro rfl inBlock
        have apart := taken.apart isolated room present fun same => different ⟨same, rfl⟩
        exact apart.1 (Or.inr inBlock)
      · rintro rfl
        exact (taken.apart isolated room present fun same => different ⟨same, rfl⟩).2

/-- A successful call of `store` keeps the elements isolated. -/
theorem Taken.isolated (taken : Taken state middle url idx data elem)
    (isolated : Isolated state history) (room : Room state url idx data) :
    Isolated
      (middle.write (writtenAt middle url idx elem).1 data (writtenAt middle url idx elem).2)
      ((url, idx, data) :: history) where
  named := taken.named isolated.named
  reserved idx' := taken.used idx' 0 (isolated.reserved idx')
  kept other idx' elem' present := by
    change middle.elementAt other idx' = some elem' at present
    rcases taken.elements other idx' with ⟨same, rfl, set⟩ | ⟨different, unchanged⟩
    · rw [set] at present
      obtain ⟨_, _, rfl⟩ := Option.map_eq_some_iff.mp present
      exact Or.inr ⟨data, latest_cons_self same data, taken.size.symm, fun _ => taken.taken,
        onDisk_written same taken.size⟩
    · rw [unchanged] at present
      exact taken.kept isolated room present different
  blocks other idx' elem' present inBlock := by
    change middle.elementAt other idx' = some elem' at present
    rcases taken.elements other idx' with ⟨same, rfl, set⟩ | ⟨different, unchanged⟩
    · rw [set] at present
      obtain ⟨_, _, rfl⟩ := Option.map_eq_some_iff.mp present
      obtain ⟨free, fits, used⟩ := taken.block inBlock
      exact ⟨(freeBlock_eq_some free).1, used, taken.size ▸ fits⟩
    · rw [unchanged] at present
      obtain ⟨small, used, fits⟩ := isolated.blocks other idx' elem' present inBlock
      exact ⟨small, taken.used idx' _ used, fits⟩
  apart first second idx' elem₁ elem₂ present₁ present₂ different := by
    change middle.elementAt first idx' = some elem₁ at present₁
    change middle.elementAt second idx' = some elem₂ at present₂
    rcases taken.elements first idx' with ⟨same₁, rfl, set₁⟩ | ⟨away₁, unchanged₁⟩
    · rcases taken.elements second idx' with ⟨same₂, _, _⟩ | ⟨away₂, unchanged₂⟩
      · exact absurd (sameUrl_trans (sameUrl_symm same₁) same₂) different
      · rw [set₁] at present₁
        obtain ⟨_, _, rfl⟩ := Option.map_eq_some_iff.mp present₁
        rw [unchanged₂] at present₂
        have apart := taken.apart isolated room present₂ fun same => away₂ ⟨same, rfl⟩
        rw [← hash_eq_of_sameUrl same₁]
        exact ⟨fun inBlock => apart.1 (Or.inl inBlock), apart.2⟩
    · rw [unchanged₁] at present₁
      rcases taken.elements second idx' with ⟨same₂, rfl, set₂⟩ | ⟨_, unchanged₂⟩
      · rw [set₂] at present₂
        obtain ⟨_, _, rfl⟩ := Option.map_eq_some_iff.mp present₂
        have apart := taken.apart isolated room present₁ fun same => away₁ ⟨same, rfl⟩
        rw [← hash_eq_of_sameUrl same₂]
        exact ⟨fun inBlock => (apart.1 (Or.inr inBlock)).symm,
          fun inFile inFile' => (apart.2 inFile' inFile).symm⟩
      · rw [unchanged₂] at present₂
        exact isolated.apart first second idx' elem₁ elem₂ present₁ present₂ different

end Neosurf.FsBackingStore
