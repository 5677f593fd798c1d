/-
This file models `content/fs_backing_store.c`: its state, the names of its files, its operations on
an initialised store, and what they do when memory is short or files cannot be opened or read.
-/

import Neosurf.Construction.Bytes
import Neosurf.Construction.Hashmap
import Neosurf.Construction.Nsurl.Markers
import Neosurf.Construction.Nsurl.Create
import Neosurf.ToMathlib.PosixFile

namespace Neosurf.FsBackingStore

/-- This is `enum store_entry_elem_idx`. -/
inductive ElemIdx where
  | data | metadata
  deriving DecidableEq, Repr

def ElemIdx.toNat : ElemIdx → Nat
  | .data => 0
  | .metadata => 1

def ENTRY_ELEM_COUNT : Nat := 2

/-- The loop of `vsnstrjoin` puts a separator after every element that does not end in one. -/
def joinElement (text elm : Bytes) : Bytes :=
  if (text ++ elm).getLast? = some (chr '/') then text ++ elm else text ++ elm ++ str "/"

/-- This is `neosurf_mkpath`. The last separator is cut off. -/
def mkpath (elms : List Bytes) : Bytes := (elms.foldl joinElement []).dropLast

/-- These are the first 32 entries of the encoding table, which have one character each. -/
def encoding : Bytes := str "ABCDEFGHIJKLMNOPQRSTUVWXYZ234567"

/-- This is one of the 64 entries of the encoding table. -/
def encodingTable (i : Nat) : Bytes :=
  if i < 32 then [byteAt encoding i] else [chr 'B', byteAt encoding (i - 32)]

/-- The identifier in base 32, the lowest digit first. -/
def identName (ident : UInt32) : Bytes :=
  (List.range 7).map fun digit => byteAt encoding ((ident.toNat >>> (5 * digit)) &&& 0x1f)

/-- One directory stands for six bits of the identifier. -/
def identDirectory (ident : UInt32) (level : Nat) : Bytes :=
  encodingTable ((ident.toNat >>> (6 * level)) &&& 0x3f)

/-- The directories that separate the elements. -/
def baseDirTable : List Bytes := [str "d", str "m", str "dblk", str "mblk"]

/-- This is `store_fname`. A block file is named by six bits. -/
def storeFname (path : Bytes) (ident : UInt32) (elemIdx : Nat) : Bytes :=
  let baseDir := baseDirTable.getD elemIdx []
  if elemIdx < ENTRY_ELEM_COUNT then
    mkpath (path :: baseDir :: (List.range 5).map (identDirectory ident) ++ [identName ident])
  else mkpath [path, baseDir, identDirectory ident 0]

end Neosurf.FsBackingStore

namespace Neosurf

namespace Nsurl

/-- These are the components of a complete URL, without its fragment. -/
def complete (url : Nsurl) : NsurlComponents :=
  { url.components with fragment := none, schemeType := .other }

/-- Two URLs compare equal exactly when they have the same complete URL. -/
theorem compare_complete_iff {a b : Nsurl} :
    compare a b COMPLETE = true ↔ a.complete = b.complete := by
  simp only [compare, complete, Bool.and_eq_true, NsurlComponents.mk.injEq, and_true]
  simp only [wants, COMPLETE, AUTHORITY, CREDENTIALS, SCHEME, USERNAME, PASSWORD, HOST, PORT, PATH,
    QUERY, FRAGMENT]
  simp only [Nat.reduceOr, Nat.reduceAnd, bne_self_eq_false, Nat.reduceBNe, Bool.not_true,
    Bool.not_false, Bool.false_or, Bool.true_or, and_true, componentCompare_iff]
  tauto

/-- The hash counts what a complete URL has. -/
theorem calcHash_complete (url : Nsurl) : calcHash url.complete = calcHash url.components := rfl

end Nsurl

namespace FsBackingStore

/-- Every URL object has the hash of its components. -/
abbrev HashedUrl := { url : Nsurl // url.hash = Nsurl.calcHash url.components }

/-- This is `struct store_entry_element`. Of its flags, only the one for an allocation on the
heap is ever set. -/
structure StoreEntryElement where
  data : Bytes := []
  size : Nat := 0
  block : Nat := 0
  ref : UInt8 := 0
  heap : Bool := false

/-- This is `struct store_entry`. -/
structure StoreEntry where
  url : HashedUrl
  lastUsed : Int := 0
  useCount : UInt16 := 0
  invalid : Bool := false
  elem : ElemIdx → StoreEntryElement := fun _ => {}

/-- The entries are found by their complete URLs. -/
def entriesHashmapParameters : HashmapParameters HashedUrl StoreEntry where
  keyHash url := url.1.hash
  keyEq a b := Nsurl.compare a.1 b.1 Nsurl.COMPLETE
  valueAlloc url := { url }
  refl a := Nsurl.compare_complete_iff.mpr rfl
  symm a b same := by
    rw [Nsurl.compare_complete_iff] at same ⊢
    exact same.symm
  trans a b c first second := by
    rw [Nsurl.compare_complete_iff] at first second ⊢
    exact first.trans second
  hash_eq a b same := by
    rw [Nsurl.compare_complete_iff] at same
    rw [a.2, b.2, ← Nsurl.calcHash_complete, same, Nsurl.calcHash_complete]

/-- The log of the number of entries in a block file. -/
def BLOCK_ENTRY_COUNT : Nat := 10

/-- The number of block files of an element. -/
def BLOCK_FILE_COUNT : Nat := 16 - BLOCK_ENTRY_COUNT

/-- The log of the size of a block. Both elements have the same. -/
def log2BlockSize : ElemIdx → Nat
  | .data => 13
  | .metadata => 13

/-- This is `struct store_state`. The bits of the use maps are in the order of their blocks. -/
structure StoreState where
  path : Bytes
  limit : Nat
  hysteresis : Nat
  entries : Hashmap entriesHashmapParameters
  useMap : ElemIdx → Nat → Bool
  totalAlloc : UInt64
  files : Bytes → Option (PosixFile Byte)

/-- The store that `initialise` makes in an empty directory. The block zero is never free. -/
def initialise (path : Bytes) (limit hysteresis : Nat) : StoreState where
  path := path
  limit := limit
  hysteresis := hysteresis
  entries := .create entriesHashmapParameters
  useMap _ block := block == 0
  totalAlloc := 0
  files _ := none

/-- The bit of a block in the use map is set or cleared. -/
def StoreState.mark (state : StoreState) (idx : ElemIdx) (block : Nat) (used : Bool) : StoreState :=
  { state with useMap := fun idx' block' =>
      if idx' = idx ∧ block' = block then used else state.useMap idx' block' }

/-- The first free block of an element. Its loops go over the files, their bytes and the bits. -/
def freeBlock (state : StoreState) (idx : ElemIdx) : Option Nat :=
  (List.range (BLOCK_FILE_COUNT * 2 ^ BLOCK_ENTRY_COUNT)).find? fun block =>
    !state.useMap idx block

/-- This is `alloc_block`. -/
def allocBlock (state : StoreState) (idx : ElemIdx) : StoreState × Nat :=
  match freeBlock state idx with
  | some block => (state.mark idx block true, block)
  | none => (state, 0)

end FsBackingStore
end Neosurf

namespace Neosurf.FsBackingStore

/-- The name of the file that an element of a URL has for itself. -/
def StoreState.elementName (state : StoreState) (url : HashedUrl) (idx : ElemIdx) : Bytes :=
  storeFname state.path url.1.hash idx.toNat

/-- The file where a block resides. -/
def blockFile (block : Nat) : Nat := (block >>> BLOCK_ENTRY_COUNT) &&& (1 <<< BLOCK_FILE_COUNT - 1)

/-- The place of a block in its file. -/
def blockIndex (block : Nat) : Nat := block &&& (1 <<< BLOCK_ENTRY_COUNT - 1)

/-- The offset of a block in its file. -/
def blockOffset (idx : ElemIdx) (block : Nat) : Nat := blockIndex block <<< log2BlockSize idx

/-- The name of the block file where a block of an element resides. -/
def StoreState.blockName (state : StoreState) (idx : ElemIdx) (block : Nat) : Bytes :=
  storeFname state.path (UInt32.ofNat (blockFile block)) (idx.toNat + ENTRY_ELEM_COUNT)

/-- A file is opened, made when it is missing, and written. -/
def StoreState.write (state : StoreState) (name data : Bytes) (offset : Nat) : StoreState :=
  let file := ((state.files name).getD .empty).pwrite data offset
  { state with files := Function.update state.files name (some file) }

/-- This is `invalidate_element`. The bit of its block is cleared, or its file is unlinked. -/
def invalidateElement (state : StoreState) (bse : StoreEntry) (idx : ElemIdx) : StoreState :=
  let elem := bse.elem idx
  let state :=
    if elem.block ≠ 0 then state.mark idx elem.block false
    else { state with files := Function.update state.files (state.elementName bse.url idx) none }
  { state with totalAlloc := state.totalAlloc - UInt64.ofNat elem.size }

/-- This is `invalidate_entry`. An entry with an allocation stays until it is released. -/
def invalidateEntry (state : StoreState) (bse : StoreEntry) : StoreState :=
  if (bse.elem .data).heap || (bse.elem .metadata).heap then
    { state with entries := state.entries.modify bse.url fun e => { e with invalid := true } }
  else
    let state := invalidateElement state bse .metadata
    let state := invalidateElement state bse .data
    { state with entries := state.entries.remove bse.url }

/-- The order of two numbers as C comparisons tell it. -/
def order {α : Type} [LT α] [DecidableLT α] (a b : α) : Int :=
  if a < b then -1 else if b < a then 1 else 0

/-- This is `compar`: entries without an allocation come first, then those that were used less,
and those that were used earlier. -/
def compar (a b : StoreEntry) : Int :=
  if !(a.elem .data).heap && (b.elem .data).heap then -1
  else if (a.elem .data).heap && !(b.elem .data).heap then 1
  else if !(a.elem .metadata).heap && (b.elem .metadata).heap then -1
  else if (a.elem .metadata).heap && !(b.elem .metadata).heap then 1
  else if a.useCount ≠ b.useCount then order a.useCount b.useCount
  else order a.lastUsed b.lastUsed

/-- What the store asks of the world. The C library leaves open how `qsort` orders entries that
compare the same. -/
structure Environment where
  now : Int
  qsort : (StoreEntry → StoreEntry → Int) → List StoreEntry → List StoreEntry

/-- The loop of `store_evict` over the sorted entries, which stops when it has removed enough. -/
def evictEntries : List HashedUrl → Nat → StoreState → StoreState
  | [], _, state => state
  | url :: rest, removed, state =>
      match state.entries.lookup url with
      | none => evictEntries rest removed state
      | some bse =>
          let removed := removed + (bse.elem .data).size + (bse.elem .metadata).size
          let state := invalidateEntry state bse
          if removed > state.hysteresis then state else evictEntries rest removed state

/-- This is `store_evict`. -/
def storeEvict (env : Environment) (state : StoreState) : StoreState :=
  if state.totalAlloc.toNat < state.limit then state
  else evictEntries ((env.qsort compar state.entries.iterate).map StoreEntry.url) 0 state

/-- This is `get_store_entry`, which updates the usage of the entry. -/
def getStoreEntry (env : Environment) (state : StoreState) (url : HashedUrl) :
    Option (StoreState × StoreEntry) :=
  (state.entries.lookup url).map fun ent =>
    ({ state with entries := state.entries.modify url fun ent =>
        { ent with lastUsed := env.now, useCount := ent.useCount + 1 } },
      { ent with lastUsed := env.now, useCount := ent.useCount + 1 })

/-- A missing entry enters the table. -/
def ensureEntry (state : StoreState) (url : HashedUrl) : StoreState :=
  match state.entries.lookup url with
  | some _ => state
  | none => { state with entries := state.entries.insert url }

/-- The element of an entry is changed. -/
def StoreState.setElement (state : StoreState) (url : HashedUrl) (idx : ElemIdx)
    (elem : StoreEntryElement) : StoreState :=
  { state with entries := state.entries.modify url fun se =>
      { se with elem := Function.update se.elem idx elem } }

/-- The last part of `set_store_entry`: the element takes the data, and a block when it fits in
one. Its size has 32 bits. -/
def setElementData (env : Environment) (state : StoreState) (se : StoreEntry) (idx : ElemIdx)
    (data : Bytes) : StoreState × StoreEntryElement :=
  let elem := se.elem idx
  let size := data.length % 2 ^ 32
  let totalAlloc := state.totalAlloc - UInt64.ofNat elem.size + UInt64.ofNat size
  let (state, block) :=
    if size ≤ 1 <<< log2BlockSize idx then allocBlock state idx else (state, elem.block)
  let elem := { elem with heap := true, data, ref := 1, size, block }
  let state := { state with
    totalAlloc
    entries := state.entries.modify se.url fun se =>
      { se with useCount := 1, lastUsed := env.now, elem := Function.update se.elem idx elem } }
  (state, elem)

/-- This is `store_write_block` or `store_write_file`. -/
def writeElement (state : StoreState) (url : HashedUrl) (idx : ElemIdx)
    (elem : StoreEntryElement) : StoreState :=
  if elem.block ≠ 0 then
    state.write (state.blockName idx elem.block) (elem.data.take elem.size)
      (blockOffset idx elem.block)
  else state.write (state.elementName url idx) (elem.data.take elem.size) 0

/-- This is `store`. An element that is in use is not overwritten. -/
def store (env : Environment) (state : StoreState) (url : HashedUrl) (idx : ElemIdx)
    (data : Bytes) : StoreState × Nserror :=
  let state := ensureEntry (storeEvict env state) url
  match state.entries.lookup url with
  | none => (state, .nomem)
  | some se =>
      if (se.elem idx).heap then (state, .permission)
      else
        let (state, elem) := setElementData env state se idx data
        (writeElement state se.url idx elem, .ok)

/-- This is `entry_release_alloc`. -/
def entryReleaseAlloc (elem : StoreEntryElement) : StoreEntryElement :=
  if elem.heap then
    let ref := elem.ref - 1
    if ref = 0 then { elem with ref, data := [], heap := false } else { elem with ref }
  else elem

/-- This is `store_read_block`: it fails when the file ends too early. A missing file is made and
reads as an empty one. -/
def storeReadBlock (state : StoreState) (bse : StoreEntry) (idx : ElemIdx) : Except Nserror Bytes :=
  let elem := bse.elem idx
  let file := (state.files (state.blockName idx elem.block)).getD .empty
  let data := file.pread elem.size (blockOffset idx elem.block)
  if data.length = elem.size then .ok data else .error .saveFailed

/-- This is `store_read_file`. -/
def storeReadFile (state : StoreState) (bse : StoreEntry) (idx : ElemIdx) : Except Nserror Bytes :=
  match state.files (state.elementName bse.url idx) with
  | none => .error .notFound
  | some file =>
      let data := file.pread (bse.elem idx).size 0
      if data.length = (bse.elem idx).size then .ok data else .error .notFound

/-- An element is read from its block or from its file. -/
def readElement (state : StoreState) (bse : StoreEntry) (idx : ElemIdx) : Except Nserror Bytes :=
  if (bse.elem idx).block ≠ 0 then storeReadBlock state bse idx else storeReadFile state bse idx

/-- This is `fetch`. It answers with the data and its length. -/
def fetch (env : Environment) (state : StoreState) (url : HashedUrl) (idx : ElemIdx) :
    StoreState × Except Nserror (Bytes × Nat) :=
  match getStoreEntry env state url with
  | none => (state, .error .notFound)
  | some (state, bse) =>
      let elem := bse.elem idx
      if elem.heap then
        (state.setElement bse.url idx { elem with ref := elem.ref + 1 }, .ok (elem.data, elem.size))
      else
        match readElement state bse idx with
        | .ok data =>
            (state.setElement bse.url idx { elem with data, heap := true, ref := 1 },
              .ok (data, elem.size))
        | .error code =>
            (state.setElement bse.url idx
              (entryReleaseAlloc { elem with data := [], heap := true, ref := 1 }), .error code)

/-- This is `release`. The last release of an invalid entry removes it. -/
def release (env : Environment) (state : StoreState) (url : HashedUrl) (idx : ElemIdx) :
    StoreState × Nserror :=
  match getStoreEntry env state url with
  | none => (state, .notFound)
  | some (state, bse) =>
      let elem := entryReleaseAlloc (bse.elem idx)
      let state := state.setElement bse.url idx elem
      if bse.invalid then
        (invalidateEntry state { bse with elem := Function.update bse.elem idx elem }, .ok)
      else (state, .ok)

/-- This is `invalidate`. -/
def invalidate (env : Environment) (state : StoreState) (url : HashedUrl) : StoreState × Nserror :=
  match getStoreEntry env state url with
  | none => (state, .notFound)
  | some (state, bse) => (invalidateEntry state bse, .ok)

/-- These are the calls in the table of the store. An eviction is part of a call of `store`. -/
inductive Operation where
  | store (url : HashedUrl) (idx : ElemIdx) (data : Bytes)
  | fetch (url : HashedUrl) (idx : ElemIdx)
  | release (url : HashedUrl) (idx : ElemIdx)
  | invalidate (url : HashedUrl)

/-- An operation leaves the store in a state. -/
def step (env : Environment) (state : StoreState) : Operation → StoreState
  | .store url idx data => (store env state url idx data).1
  | .fetch url idx => (fetch env state url idx).1
  | .release url idx => (release env state url idx).1
  | .invalidate url => (invalidate env state url).1

/-- The calls of `store` that were successful, the latest first. -/
abbrev History := List (HashedUrl × ElemIdx × Bytes)

/-- A successful call of `store` enters the history. -/
def record (env : Environment) (state : StoreState) (history : History) : Operation → History
  | .store url idx data =>
      if (store env state url idx data).2 = .ok then (url, idx, data) :: history else history
  | _ => history

/-- The data of the most recent successful call for an element of a URL. -/
def latest (history : History) (url : HashedUrl) (idx : ElemIdx) : Option Bytes :=
  (history.find? fun stored =>
    Nsurl.compare stored.1.1 url.1 Nsurl.COMPLETE && stored.2.1 == idx).map fun stored => stored.2.2

/-- The states that steps of one kind reach from a new store, with the calls on the way. -/
inductive Run (ok : StoreState → Operation → Prop) : StoreState → History → Prop
  | start (path : Bytes) (limit hysteresis : Nat) : Run ok (initialise path limit hysteresis) []
  | step {state : StoreState} {history : History} (env : Environment) (op : Operation)
      (before : Run ok state history) (allowed : ok state op) :
      Run ok (FsBackingStore.step env state op) (record env state history op)

/-- What the system answers to a call of `store`: whether there is memory for the list of an
eviction and for a new entry, and how many bytes are written when the file opens. -/
structure StoreAnswer where
  listMemory : Bool := true
  entryMemory : Bool := true
  written : Option Nat

/-- What the system answers to a call of `fetch` that has to read. -/
inductive FetchAnswer where
  | whole
  | noMemory
  | unreadable

/-- This is `store_write_block` or `store_write_file`, which may end early. -/
def writeElementUpTo (state : StoreState) (url : HashedUrl) (idx : ElemIdx)
    (elem : StoreEntryElement) : Option Nat → StoreState × Nserror
  | none => (state, .saveFailed)
  | some count =>
      (writeElement state url idx { elem with size := min count elem.size },
        if count < elem.size then .saveFailed else .ok)

/-- This is `store` with these answers. -/
def storeWith (answer : StoreAnswer) (env : Environment) (state : StoreState) (url : HashedUrl)
    (idx : ElemIdx) (data : Bytes) : StoreState × Nserror :=
  if state.limit ≤ state.totalAlloc.toNat && !answer.listMemory then (state, .nomem)
  else
    let state := storeEvict env state
    if (state.entries.lookup url).isNone && !answer.entryMemory then (state, .nomem)
    else
      let state := ensureEntry state url
      match state.entries.lookup url with
      | none => (state, .nomem)
      | some se =>
          if (se.elem idx).heap then (state, .permission)
          else
            let (state, elem) := setElementData env state se idx data
            writeElementUpTo state se.url idx elem answer.written

/-- This is `fetch` with this answer. -/
def fetchWith (answer : FetchAnswer) (env : Environment) (state : StoreState) (url : HashedUrl)
    (idx : ElemIdx) : StoreState × Except Nserror (Bytes × Nat) :=
  match getStoreEntry env state url with
  | none => (state, .error .notFound)
  | some (state, bse) =>
      let elem := bse.elem idx
      if elem.heap then
        (state.setElement bse.url idx { elem with ref := elem.ref + 1 }, .ok (elem.data, elem.size))
      else
        let unread (code : Nserror) :=
          (state.setElement bse.url idx
            (entryReleaseAlloc { elem with data := [], heap := true, ref := 1 }),
            (.error code : Except Nserror (Bytes × Nat)))
        match answer with
        | .noMemory => (state.setElement bse.url idx { elem with data := [] }, .error .nomem)
        | .unreadable => unread (if elem.block ≠ 0 then .saveFailed else .notFound)
        | .whole =>
            match readElement state bse idx with
            | .ok data =>
                (state.setElement bse.url idx { elem with data, heap := true, ref := 1 },
                  .ok (data, elem.size))
            | .error code => unread code

/-- The calls of the store with what the system answers. -/
inductive Call where
  | store (url : HashedUrl) (idx : ElemIdx) (data : Bytes) (answer : StoreAnswer)
  | fetch (url : HashedUrl) (idx : ElemIdx) (answer : FetchAnswer)
  | release (url : HashedUrl) (idx : ElemIdx)
  | invalidate (url : HashedUrl)

/-- The error code of a fetch. -/
def fetchCode : Except Nserror (Bytes × Nat) → Nserror
  | .ok _ => .ok
  | .error code => code

/-- A call leaves the store in a state and returns a code. -/
def call (env : Environment) (state : StoreState) : Call → StoreState × Nserror
  | .store url idx data answer => storeWith answer env state url idx data
  | .fetch url idx answer =>
      let (state, result) := fetchWith answer env state url idx
      (state, fetchCode result)
  | .release url idx => release env state url idx
  | .invalidate url => invalidate env state url

/-- A call that returned this code. -/
structure Event where
  call : Call
  code : Nserror

/-- The states that calls of one kind reach from a new store, with the calls so far, the latest
first. -/
inductive CallRun (ok : Environment → StoreState → Call → Prop) : StoreState → List Event → Prop
  | start (path : Bytes) (limit hysteresis : Nat) : CallRun ok (initialise path limit hysteresis) []
  | step {state : StoreState} {events : List Event} (env : Environment) (c : Call)
      (before : CallRun ok state events) (allowed : ok env state c) :
      CallRun ok (FsBackingStore.call env state c).1
        (⟨c, (FsBackingStore.call env state c).2⟩ :: events)

/-- With enough memory and a whole write the calls are the plain operations. -/
theorem storeWith_whole {env : Environment} {state : StoreState} {url : HashedUrl} {idx : ElemIdx}
    {data : Bytes} {count : Nat} (enough : data.length ≤ count) :
    storeWith { written := some count } env state url idx data = store env state url idx data := by
  have size (s : StoreState) (se : StoreEntry) :
      (setElementData env s se idx data).2.size ≤ count :=
    (Nat.mod_le _ _).trans enough
  unfold storeWith store
  simp only [Bool.not_true, Bool.and_false, Bool.false_eq_true, if_false]
  cases found : (ensureEntry (storeEvict env state) url).entries.lookup url with
  | none => rfl
  | some se =>
      have whole := size (ensureEntry (storeEvict env state) url) se
      simp only [writeElementUpTo, Nat.min_eq_right whole, if_neg (not_lt.mpr whole)]

end Neosurf.FsBackingStore

namespace Neosurf

namespace Nsurl

/-- A URL is made with the hash of its components. -/
theorem hash_nsurlCreate {junk : Buff} {text : Bytes} {url : Nsurl}
    (done : nsurlCreate junk text = .ok url) : url.hash = calcHash url.components := by
  unfold nsurlCreate at done
  cases components : createComponents junk (cstr text) with
  | error failure =>
      rw [components] at done
      cases done
  | ok c =>
      rw [components] at done
      change (if needsHost c ∧ c.host = none then _ else build c) = _ at done
      split at done
      · cases done
      · unfold build at done
        cases string : componentsToString c WITH_FRAGMENT with
        | error failure =>
            rw [string] at done
            cases done
        | ok pair =>
            rw [string] at done
            cases done
            rfl

end Nsurl

namespace FsBackingStore

/-- These are the records of the file of entries: the text of a URL with its entry. -/
abbrev Records := List (Bytes × StoreEntry)

/-- This is `write_entries`. -/
def writeEntries (state : StoreState) : Records :=
  state.entries.iterate.map fun ent => (ent.url.1.access, ent)

/-- A new entry takes what was read, and its elements are not in memory. -/
def loadEntry (state : StoreState) (url : HashedUrl) (ent : StoreEntry) : StoreState :=
  { state with
    entries := state.entries.put url fun _ =>
      { ent with url, elem := fun idx => { ent.elem idx with data := [], heap := false } }
    totalAlloc := state.totalAlloc + UInt64.ofNat (ent.elem .data).size +
      UInt64.ofNat (ent.elem .metadata).size }

/-- One round of the loop of `read_entries`. -/
def readEntry (junk : Nsurl.Buff) (state : StoreState) (record : Bytes × StoreEntry) :
    Except NsurlFailure StoreState :=
  match created : Nsurl.nsurlCreate junk record.1 with
  | .error failure => .error failure
  | .ok url => .ok (loadEntry state ⟨url, Nsurl.hash_nsurlCreate created⟩ record.2)

/-- This is `read_entries`. -/
def readEntries (junk : Nsurl.Buff) (state : StoreState) (records : Records) :
    Except NsurlFailure StoreState :=
  records.foldlM (readEntry junk) state

/-- The store is finalised and initialised again, with a use map that was read. -/
def reload (junk : Nsurl.Buff) (limit hysteresis : Nat) (useMap : ElemIdx → Nat → Bool)
    (state : StoreState) : Except NsurlFailure StoreState :=
  readEntries junk { initialise state.path limit hysteresis with useMap, files := state.files }
    (writeEntries state)

/-- The states that calls of one kind reach from a new store, where the store is also written and
read back in states of one kind. The calls are there with the latest first. -/
inductive SessionRun (ok : Environment → StoreState → Call → Prop)
    (readable : Nsurl.Buff → StoreState → Prop) : StoreState → List Event → Prop
  | start (path : Bytes) (limit hysteresis : Nat) :
      SessionRun ok readable (initialise path limit hysteresis) []
  | step {state : StoreState} {events : List Event} (env : Environment) (c : Call)
      (before : SessionRun ok readable state events) (allowed : ok env state c) :
      SessionRun ok readable (FsBackingStore.call env state c).1
        (⟨c, (FsBackingStore.call env state c).2⟩ :: events)
  | reload {state after : StoreState} {events : List Event} (junk : Nsurl.Buff)
      (limit hysteresis : Nat) (useMap : ElemIdx → Nat → Bool)
      (before : SessionRun ok readable state events) (allowed : readable junk state)
      (done : FsBackingStore.reload junk limit hysteresis useMap state = .ok after) :
      SessionRun ok readable after events

end FsBackingStore
end Neosurf
