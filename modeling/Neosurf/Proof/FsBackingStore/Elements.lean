import Neosurf.Construction.FsBackingStore
import Neosurf.Proof.Hashmap

namespace Neosurf.FsBackingStore

/-- An element of a path is not empty and has no separator. -/
def Clean (elm : Bytes) : Prop := elm ≠ [] ∧ chr '/' ∉ elm

theorem joinElement_clean {elm : Bytes} (clean : Clean elm) (text : Bytes) :
    joinElement text elm = text ++ elm ++ str "/" := by
  rw [joinElement, if_neg]
  intro ends
  rw [List.getLast?_append_of_ne_nil _ clean.1] at ends
  exact clean.2 (List.mem_of_getLast? ends)

theorem dropLast_foldl_joinElement {first : Bytes} {rest : List Bytes} (text : Bytes)
    (clean : ∀ elm ∈ first :: rest, Clean elm) :
    ((first :: rest).foldl joinElement text).dropLast =
      text ++ (str "/").intercalate (first :: rest) := by
  induction rest generalizing first text with
  | nil =>
      rw [List.foldl_cons, joinElement_clean (clean first List.mem_cons_self), List.foldl_nil]
      change (text ++ first ++ [chr '/']).dropLast = _
      rw [List.dropLast_concat, List.intercalate_singleton]
  | cons next rest ih =>
      have later : ∀ elm ∈ next :: rest, Clean elm := fun elm inside =>
        clean elm (List.mem_cons_of_mem _ inside)
      rw [List.foldl_cons, joinElement_clean (clean first List.mem_cons_self), ih _ later,
        List.intercalate_cons_cons]
      simp only [List.append_assoc]

/-- The elements of a path can be told from it. -/
theorem mkpath_inj {path first first' : Bytes} {rest rest' : List Bytes}
    (clean : ∀ elm ∈ first :: rest, Clean elm) (clean' : ∀ elm ∈ first' :: rest', Clean elm)
    (same : mkpath (path :: first :: rest) = mkpath (path :: first' :: rest')) :
    first :: rest = first' :: rest' := by
  rw [mkpath, mkpath, List.foldl_cons, List.foldl_cons (l := first' :: rest'),
    dropLast_foldl_joinElement _ clean, dropLast_foldl_joinElement _ clean',
    List.append_cancel_left_eq] at same
  have parts := congrArg (List.splitOn (chr '/')) same
  have split {elms : List Bytes} (nonempty : elms ≠ []) (clean : ∀ elm ∈ elms, Clean elm) :
      ((str "/").intercalate elms).splitOn (chr '/') = elms :=
    List.splitOn_intercalate (chr '/') (fun elm inside => (clean elm inside).2) nonempty
  rw [split (List.cons_ne_nil _ _) clean, split (List.cons_ne_nil _ _) clean'] at parts
  exact parts

/-- The digits of the encoding differ. -/
theorem encoding_inj : ∀ i < 32, ∀ j < 32, byteAt encoding i = byteAt encoding j → i = j := by
  decide

theorem encoding_clean : ∀ i < 32, byteAt encoding i ≠ chr '/' := by decide

theorem encodingTable_clean : ∀ i < 64, encodingTable i ≠ [] ∧ chr '/' ∉ encodingTable i := by
  decide

theorem encodingTable_inj : ∀ i < 64, ∀ j < 64, encodingTable i = encodingTable j → i = j := by
  intro i small j small' same
  rw [encodingTable, encodingTable] at same
  split at same
  next low =>
      split at same
      next low' => exact encoding_inj i low j low' (List.cons.inj same).1
      next => exact absurd (congrArg List.length same) (by simp)
  next high =>
      split at same
      next => exact absurd (congrArg List.length same) (by simp)
      next high' =>
          have digit := (List.cons.inj (List.cons.inj same).2).1
          have shifted := encoding_inj (i - 32) (by omega) (j - 32) (by omega) digit
          omega

theorem and_five_bits (n : Nat) : n &&& 0x1f = n % 2 ^ 5 := Nat.and_two_pow_sub_one_eq_mod n 5

theorem and_six_bits (n : Nat) : n &&& 0x3f = n % 2 ^ 6 := Nat.and_two_pow_sub_one_eq_mod n 6

theorem identDirectory_clean (ident : UInt32) (level : Nat) : Clean (identDirectory ident level) := by
  apply encodingTable_clean
  rw [and_six_bits]
  exact Nat.mod_lt _ (by decide)

theorem identName_clean (ident : UInt32) : Clean (identName ident) := by
  constructor
  · exact List.cons_ne_nil _ _
  · intro inside
    obtain ⟨digit, _, same⟩ := List.mem_map.mp inside
    refine encoding_clean _ ?_ same
    rw [and_five_bits]
    exact Nat.mod_lt _ (by decide)

/-- The last digits of a number determine its remainder. -/
theorem mod_pow_congr {base x y n : Nat} (digits : ∀ i < n, x / base ^ i % base = y / base ^ i % base) :
    x % base ^ n = y % base ^ n := by
  induction n with
  | zero => rw [pow_zero, Nat.mod_one, Nat.mod_one]
  | succ n inductionHypothesis =>
      rw [Nat.mod_pow_succ, Nat.mod_pow_succ, digits n (Nat.lt_succ_self n),
        inductionHypothesis fun i less => digits i (Nat.lt_succ_of_lt less)]

/-- An identifier can be told from its name. -/
theorem identName_inj {ident ident' : UInt32} (same : identName ident = identName ident') :
    ident = ident' := by
  have digits : ∀ digit < 7, ident.toNat / (2 ^ 5) ^ digit % 2 ^ 5 =
      ident'.toNat / (2 ^ 5) ^ digit % 2 ^ 5 := by
    intro digit inside
    have digit_eq := List.map_inj_left.mp same digit (List.mem_range.2 inside)
    rw [and_five_bits, and_five_bits, Nat.shiftRight_eq_div_pow, Nat.shiftRight_eq_div_pow,
      pow_mul] at digit_eq
    exact encoding_inj _ (Nat.mod_lt _ (by decide)) _ (Nat.mod_lt _ (by decide)) digit_eq
  have bits := mod_pow_congr digits
  rw [Nat.mod_eq_of_lt (lt_trans ident.toNat_lt (by decide)),
    Nat.mod_eq_of_lt (lt_trans ident'.toNat_lt (by decide))] at bits
  exact UInt32.toNat_inj.mp bits

theorem baseDir_clean (idx : ElemIdx) : Clean (baseDirTable.getD idx.toNat []) ∧
    Clean (baseDirTable.getD (idx.toNat + ENTRY_ELEM_COUNT) []) := by
  cases idx <;> exact ⟨⟨by decide, by decide⟩, ⟨by decide, by decide⟩⟩

theorem elementParts_clean (ident : UInt32) (idx : ElemIdx) :
    ∀ elm ∈ baseDirTable.getD idx.toNat [] :: (List.range 5).map (identDirectory ident) ++
      [identName ident], Clean elm := by
  intro elm inside
  rw [List.cons_append, List.mem_cons, List.mem_append, List.mem_singleton] at inside
  rcases inside with rfl | inside | rfl
  · exact (baseDir_clean idx).1
  · obtain ⟨level, _, rfl⟩ := List.mem_map.mp inside
    exact identDirectory_clean ident level
  · exact identName_clean ident

theorem storeFname_element (path : Bytes) (ident : UInt32) (idx : ElemIdx) :
    storeFname path ident idx.toNat = mkpath (path :: baseDirTable.getD idx.toNat [] ::
      ((List.range 5).map (identDirectory ident) ++ [identName ident])) := by
  cases idx <;> rfl

theorem storeFname_block (path : Bytes) (ident : UInt32) (idx : ElemIdx) :
    storeFname path ident (idx.toNat + ENTRY_ELEM_COUNT) =
      mkpath [path, baseDirTable.getD (idx.toNat + ENTRY_ELEM_COUNT) [], identDirectory ident 0] := by
  cases idx <;> rfl

/-- The file of an element can only be named by its identifier and its element. -/
theorem storeFname_element_inj {path : Bytes} {ident ident' : UInt32} {idx idx' : ElemIdx}
    (same : storeFname path ident idx.toNat = storeFname path ident' idx'.toNat) :
    ident = ident' ∧ idx = idx' := by
  rw [storeFname_element, storeFname_element] at same
  have parts := mkpath_inj (elementParts_clean ident idx) (elementParts_clean ident' idx') same
  obtain ⟨base, rest⟩ := List.cons.inj parts
  obtain ⟨_, last⟩ := List.append_inj' rest rfl
  refine ⟨identName_inj (List.cons.inj last).1, ?_⟩
  cases idx <;> cases idx' <;> first | rfl | exact absurd base (by decide)

theorem blockParts_clean (ident : UInt32) (idx : ElemIdx) :
    ∀ elm ∈ [baseDirTable.getD (idx.toNat + ENTRY_ELEM_COUNT) [], identDirectory ident 0],
      Clean elm := by
  intro elm inside
  rw [List.mem_cons, List.mem_singleton] at inside
  rcases inside with rfl | rfl
  · exact (baseDir_clean idx).2
  · exact identDirectory_clean ident 0

/-- A block file can only be named by its number and its element. -/
theorem storeFname_block_inj {path : Bytes} {file file' : Nat} {idx idx' : ElemIdx}
    (small : file < 64) (small' : file' < 64)
    (same : storeFname path (UInt32.ofNat file) (idx.toNat + ENTRY_ELEM_COUNT) =
      storeFname path (UInt32.ofNat file') (idx'.toNat + ENTRY_ELEM_COUNT)) :
    file = file' ∧ idx = idx' := by
  rw [storeFname_block, storeFname_block] at same
  have parts := mkpath_inj (blockParts_clean (UInt32.ofNat file) idx)
    (blockParts_clean (UInt32.ofNat file') idx') same
  obtain ⟨base, rest⟩ := List.cons.inj parts
  have directory := (List.cons.inj rest).1
  have low (file : Nat) (small : file < 64) :
      identDirectory (UInt32.ofNat file) 0 = encodingTable file := by
    have fits : file < UInt32.size := lt_trans small (by decide)
    have bits : file % 2 ^ 6 = file := Nat.mod_eq_of_lt small
    rw [identDirectory, Nat.mul_zero, Nat.shiftRight_zero, and_six_bits,
      UInt32.toNat_ofNat_of_lt' fits, bits]
  rw [low file small, low file' small'] at directory
  refine ⟨encodingTable_inj file small file' small' directory, ?_⟩
  cases idx <;> cases idx' <;> first | rfl | exact absurd base (by decide)

/-- No file of an element is a block file. -/
theorem storeFname_element_ne_block {path : Bytes} {ident file : UInt32} {idx idx' : ElemIdx} :
    storeFname path ident idx.toNat ≠ storeFname path file (idx'.toNat + ENTRY_ELEM_COUNT) := by
  rw [storeFname_element, storeFname_block]
  intro same
  have parts := mkpath_inj (elementParts_clean ident idx) (blockParts_clean file idx') same
  have size := congrArg List.length parts
  simp at size

variable {state after : StoreState} {url other : HashedUrl} {idx : ElemIdx}

/-- The element of a URL in the table. -/
def StoreState.elementAt (state : StoreState) (url : HashedUrl) (idx : ElemIdx) :
    Option StoreEntryElement :=
  (state.entries.lookup url).map fun se => se.elem idx

/-- Two URLs share their entry. -/
abbrev SameUrl (a b : HashedUrl) : Prop := entriesHashmapParameters.keyEq a b = true

/-- Two URLs share their entry exactly when they compare equal. -/
theorem sameUrl_iff {a b : HashedUrl} :
    SameUrl a b ↔ Nsurl.compare a.1 b.1 Nsurl.COMPLETE = true :=
  Iff.rfl

theorem sameUrl_refl (a : HashedUrl) : SameUrl a a := entriesHashmapParameters.refl a

theorem sameUrl_symm {a b : HashedUrl} (same : SameUrl a b) : SameUrl b a :=
  entriesHashmapParameters.symm a b same

theorem sameUrl_trans {a b c : HashedUrl} (first : SameUrl a b) (second : SameUrl b c) :
    SameUrl a c :=
  entriesHashmapParameters.trans a b c first second

theorem hash_eq_of_sameUrl {a b : HashedUrl} (same : SameUrl a b) : a.1.hash = b.1.hash :=
  entriesHashmapParameters.hash_eq a b same

theorem lookup_congr (same : SameUrl url other) :
    state.entries.lookup url = state.entries.lookup other :=
  Hashmap.lookup_congr same

theorem elementAt_congr (same : SameUrl url other) :
    state.elementAt url idx = state.elementAt other idx := by
  rw [StoreState.elementAt, StoreState.elementAt, lookup_congr same]

theorem elementAt_eq_some {elem : StoreEntryElement} : state.elementAt url idx = some elem ↔
    ∃ se, state.entries.lookup url = some se ∧ se.elem idx = elem :=
  Option.map_eq_some_iff

/-- A change of an entry that leaves its elements alone does not show. -/
theorem elementAt_modify {entries : Hashmap entriesHashmapParameters}
    (change : StoreEntry → StoreEntry) (kept : ∀ se, (change se).elem = se.elem)
    (entries_eq : after.entries = entries.modify other change) (before : state.entries = entries) :
    after.elementAt url idx = state.elementAt url idx := by
  rw [StoreState.elementAt, StoreState.elementAt, entries_eq, before, Hashmap.lookup_modify]
  split
  · rw [Option.map_map]
    congr 1
    funext se
    simp [kept]
  · rfl

/-- An element that is changed is seen at its URL. -/
theorem elementAt_modify_element (state : StoreState) (url other : HashedUrl) (idx idx' : ElemIdx)
    (elem : StoreEntryElement) {change : StoreEntry → StoreEntry}
    (set : ∀ se, (change se).elem = Function.update se.elem idx elem)
    (entries_eq : after.entries = state.entries.modify other change) :
    (SameUrl other url ∧ idx' = idx ∧ after.elementAt url idx' =
      (state.elementAt url idx').map fun _ => elem) ∨
    (¬ (SameUrl other url ∧ idx' = idx) ∧
      after.elementAt url idx' = state.elementAt url idx') := by
  rw [StoreState.elementAt, StoreState.elementAt, entries_eq, Hashmap.lookup_modify]
  by_cases same : SameUrl other url
  · rw [if_pos same, Option.map_map, Option.map_map]
    by_cases here : idx' = idx
    · refine Or.inl ⟨same, here, ?_⟩
      congr 1
      funext se
      simp [set, here]
    · refine Or.inr ⟨fun both => here both.2, ?_⟩
      congr 1
      funext se
      simp [set, here]
  · rw [if_neg same]
    exact Or.inr ⟨fun both => same both.1, rfl⟩

/-- The URLs of the entries stay when an entry is changed. -/
theorem named_modify {other : HashedUrl} {change : StoreEntry → StoreEntry}
    (entries_eq : after.entries = state.entries.modify other change)
    (kept : ∀ se, (change se).url = se.url)
    (known : ∀ url se, state.entries.lookup url = some se → SameUrl se.url url) :
    ∀ url se, after.entries.lookup url = some se → SameUrl se.url url := by
  intro url se present
  rw [entries_eq, Hashmap.lookup_modify] at present
  split at present
  · obtain ⟨before, old, rfl⟩ := Option.map_eq_some_iff.mp present
    rw [kept]
    exact known url before old
  · exact known url se present

@[simp] theorem entries_invalidateElement (bse : StoreEntry) :
    (invalidateElement state bse idx).entries = state.entries := by
  unfold invalidateElement
  dsimp only
  split <;> rfl

@[simp] theorem path_invalidateElement (bse : StoreEntry) :
    (invalidateElement state bse idx).path = state.path := by
  unfold invalidateElement
  dsimp only
  split <;> rfl

/-- Only the bit of its own block is cleared when an element is invalidated. -/
theorem useMap_invalidateElement (bse : StoreEntry) (idx' : ElemIdx) (block : Nat) :
    (invalidateElement state bse idx).useMap idx' block =
      if idx' = idx ∧ block = (bse.elem idx).block ∧ block ≠ 0 then false
      else state.useMap idx' block := by
  unfold invalidateElement StoreState.mark
  dsimp only
  by_cases inBlock : (bse.elem idx).block ≠ 0
  · rw [if_pos inBlock]
    dsimp only
    by_cases here : idx' = idx ∧ block = (bse.elem idx).block
    · rw [if_pos here, if_pos ⟨here.1, here.2, by rw [here.2]; exact inBlock⟩]
    · rw [if_neg here, if_neg fun both => here ⟨both.1, both.2.1⟩]
  · rw [if_neg inBlock]
    dsimp only
    rw [if_neg]
    rintro ⟨_, same, nonzero⟩
    exact inBlock (same ▸ nonzero)

/-- A file is as it was when an element is invalidated, or it is gone. It is the file of the
element. -/
theorem files_invalidateElement (state : StoreState) (bse : StoreEntry) (idx : ElemIdx)
    (name : Bytes) :
    (invalidateElement state bse idx).files name = state.files name ∨
      (invalidateElement state bse idx).files name = none ∧
        name = state.elementName bse.url idx := by
  unfold invalidateElement StoreState.mark
  dsimp only
  split
  · exact Or.inl rfl
  · dsimp only
    rw [Function.update_apply]
    split
    · rename_i same
      exact Or.inr ⟨rfl, same⟩
    · exact Or.inl rfl

/-- An entry that is invalidated keeps its elements when one is in use. -/
theorem invalidateEntry_busy {bse : StoreEntry}
    (busy : ((bse.elem .data).heap || (bse.elem .metadata).heap) = true) :
    invalidateEntry state bse = { state with entries := state.entries.modify bse.url fun se =>
      { se with invalid := true } } := by
  rw [invalidateEntry, if_pos busy]

/-- Otherwise its elements are invalidated and it is removed. -/
theorem invalidateEntry_free {bse : StoreEntry}
    (free : ¬ ((bse.elem .data).heap || (bse.elem .metadata).heap) = true) :
    invalidateEntry state bse =
      { invalidateElement (invalidateElement state bse .metadata) bse .data with
        entries := state.entries.remove bse.url } := by
  rw [invalidateEntry, if_neg free]
  simp

theorem elementAt_invalidateEntry (state : StoreState) (url : HashedUrl) (idx : ElemIdx)
    {bse : StoreEntry}
    (free : ¬ ((bse.elem .data).heap || (bse.elem .metadata).heap) = true) :
    (SameUrl bse.url url ∧ (invalidateEntry state bse).elementAt url idx = none) ∨
      (¬ SameUrl bse.url url ∧
        (invalidateEntry state bse).elementAt url idx = state.elementAt url idx) := by
  rw [invalidateEntry_free free, StoreState.elementAt, StoreState.elementAt]
  dsimp only
  rw [Hashmap.lookup_remove]
  by_cases same : SameUrl bse.url url
  · rw [if_pos same]
    exact Or.inl ⟨same, rfl⟩
  · rw [if_neg same]
    exact Or.inr ⟨same, rfl⟩

/-- The URLs of the entries stay when an entry is removed. -/
theorem named_invalidateEntry {bse : StoreEntry}
    (free : ¬ ((bse.elem .data).heap || (bse.elem .metadata).heap) = true)
    (known : ∀ url se, state.entries.lookup url = some se → SameUrl se.url url) :
    ∀ url se, (invalidateEntry state bse).entries.lookup url = some se → SameUrl se.url url := by
  intro url se found
  rw [invalidateEntry_free free] at found
  dsimp only at found
  rw [Hashmap.lookup_remove] at found
  split at found
  · cases found
  · exact known url se found

/-- A new entry stands under its URL. -/
theorem named_insert (absent : state.entries.lookup url = none)
    (known : ∀ url se, state.entries.lookup url = some se → SameUrl se.url url) :
    ∀ other se, (state.entries.insert url).lookup other = some se → SameUrl se.url other := by
  intro other se found
  rw [Hashmap.lookup_insert absent] at found
  split at found
  · rename_i same
    cases found
    exact same
  · exact known other se found

/-- The elements of a new entry are as they are made. -/
theorem elementAt_insert (absent : state.entries.lookup url = none) (other : HashedUrl)
    (idx : ElemIdx) :
    StoreState.elementAt { state with entries := state.entries.insert url } other idx =
      if SameUrl url other then some {} else state.elementAt other idx := by
  rw [StoreState.elementAt, StoreState.elementAt]
  dsimp only
  rw [Hashmap.lookup_insert absent]
  split <;> rfl

end Neosurf.FsBackingStore
