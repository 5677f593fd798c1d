import Neosurf.Construction.FsBackingStore
import Neosurf.Proof.FsBackingStore.FailedStore

namespace Neosurf.FsBackingStore

variable {state after base : StoreState} {events : List Event} {url other : HashedUrl}
  {idx : ElemIdx} {se : StoreEntry}

variable {junk : Nsurl.Buff} {record : Bytes × StoreEntry} {records : Records}

theorem readEntry_eq_ok (done : readEntry junk state record = .ok after) :
    ∃ url : HashedUrl, Nsurl.nsurlCreate junk record.1 = .ok url.1 ∧
      after = loadEntry state url record.2 := by
  unfold readEntry at done
  split at done
  · cases done
  · rename_i url created
    cases done
    exact ⟨⟨url, _⟩, created, rfl⟩

/-- The records are read one after the other. -/
theorem readEntries_cons (done : readEntries junk state (record :: records) = .ok after) :
    ∃ url : HashedUrl, Nsurl.nsurlCreate junk record.1 = .ok url.1 ∧
      readEntries junk (loadEntry state url record.2) records = .ok after := by
  rw [readEntries, List.foldlM_cons] at done
  cases read : readEntry junk state record with
  | error failure =>
      rw [read] at done
      cases done
  | ok next =>
      rw [read] at done
      obtain ⟨url, created, rfl⟩ := readEntry_eq_ok read
      exact ⟨url, created, done⟩

/-- A reload that succeeds is the last step of a session. -/
theorem session_reload {ok : Environment → StoreState → Call → Prop}
    {readable : Nsurl.Buff → StoreState → Prop} {limit hysteresis : Nat}
    {useMap : ElemIdx → Nat → Bool} {test : StoreState → Bool}
    (before : SessionRun ok readable state events) (allowed : readable junk state)
    (done : (reload junk limit hysteresis useMap state).toOption.any test = true) :
    ∃ after, SessionRun ok readable after events ∧ test after = true := by
  cases read : reload junk limit hysteresis useMap state with
  | error failure =>
      rw [read] at done
      cases done
  | ok after =>
      rw [read] at done
      exact ⟨after, .reload junk limit hysteresis useMap before allowed read, done⟩

/-- Every text of a URL that is written reads back as an equal URL. -/
def ReadsBack (junk : Nsurl.Buff) (state : StoreState) : Prop :=
  ∀ record ∈ writeEntries state, ∀ url, Nsurl.nsurlCreate junk record.1 = .ok url →
    Nsurl.compare record.2.url.1 url Nsurl.COMPLETE = true

/-- The entries come from another state, without their allocations. -/
structure LoadedFrom (base state : StoreState) : Prop where
  path : state.path = base.path
  files : state.files = base.files
  placed : state.entries.Placed
  entries : ∀ url se', state.entries.lookup url = some se' → SameUrl se'.url url ∧
    ∃ se, base.entries.lookup url = some se ∧ se'.invalid = se.invalid ∧
      ∀ idx, (se'.elem idx).size = (se.elem idx).size ∧
        (se'.elem idx).block = (se.elem idx).block ∧ (se'.elem idx).heap = false

theorem LoadedFrom.load (loaded : LoadedFrom base state) (own : base.entries.lookup se.url = some se)
    (same : SameUrl se.url url) : LoadedFrom base (loadEntry state url se) where
  path := loaded.path
  files := loaded.files
  placed := Hashmap.placed_put loaded.placed
  entries other se' found := by
    rw [loadEntry] at found
    dsimp only at found
    rw [Hashmap.lookup_put] at found
    split at found
    · rename_i here
      cases found
      refine ⟨here, se, ?_, rfl, fun idx => ⟨rfl, rfl, rfl⟩⟩
      rw [← lookup_congr (sameUrl_trans same here), own]
    · exact loaded.entries other se' found

/-- An entry that is present stays when another one is loaded. -/
theorem present_loadEntry (present : state.entries.lookup other ≠ none) :
    (loadEntry state url se).entries.lookup other ≠ none := by
  rw [loadEntry]
  dsimp only
  rw [Hashmap.lookup_put]
  split
  · exact Option.some_ne_none _
  · exact present

theorem present_readEntries (present : state.entries.lookup other ≠ none)
    (done : readEntries junk state records = .ok after) : after.entries.lookup other ≠ none := by
  induction records generalizing state with
  | nil =>
      cases done
      exact present
  | cons record rest ih =>
      obtain ⟨url, _, done⟩ := readEntries_cons done
      exact ih (present_loadEntry present) done

/-- Every record that is read makes an entry for its own URL. -/
theorem readEntries_loaded (loaded : LoadedFrom base state)
    (own : ∀ record ∈ records, base.entries.lookup record.2.url = some record.2)
    (same : ∀ record ∈ records, ∀ url, Nsurl.nsurlCreate junk record.1 = .ok url →
      Nsurl.compare record.2.url.1 url Nsurl.COMPLETE = true)
    (done : readEntries junk state records = .ok after) :
    LoadedFrom base after ∧ ∀ record ∈ records, after.entries.lookup record.2.url ≠ none := by
  induction records generalizing state with
  | nil =>
      cases done
      exact ⟨loaded, fun _ impossible => by cases impossible⟩
  | cons record rest ih =>
      obtain ⟨url, created, done⟩ := readEntries_cons done
      have here : SameUrl record.2.url url := same record List.mem_cons_self url.1 created
      have next := loaded.load (own record List.mem_cons_self) here
      obtain ⟨final, present⟩ := ih next (fun r inside => own r (List.mem_cons_of_mem _ inside))
        (fun r inside => same r (List.mem_cons_of_mem _ inside)) done
      refine ⟨final, fun r inside => ?_⟩
      rcases List.mem_cons.mp inside with rfl | inside
      · apply present_readEntries _ done
        rw [lookup_congr here, loadEntry]
        dsimp only
        rw [Hashmap.lookup_put, if_pos (sameUrl_refl url)]
        exact Option.some_ne_none _
      · exact present r inside

/-- A reload brings back the entries under their URLs. -/
theorem reload_loaded {limit hysteresis : Nat} {useMap : ElemIdx → Nat → Bool}
    (named : ∀ url se, state.entries.lookup url = some se → SameUrl se.url url)
    (placed : state.entries.Placed) (readable : ReadsBack junk state)
    (done : reload junk limit hysteresis useMap state = .ok after) :
    LoadedFrom state after ∧
      ∀ url, state.entries.lookup url ≠ none → after.entries.lookup url ≠ none := by
  have own (record : Bytes × StoreEntry) (inside : record ∈ writeEntries state) :
      state.entries.lookup record.2.url = some record.2 := by
    obtain ⟨se, listed, rfl⟩ := List.mem_map.mp inside
    rw [Hashmap.iterate_eq_map, List.mem_map] at listed
    obtain ⟨e, entry, rfl⟩ := listed
    have found := (Hashmap.lookup_eq_some placed).mpr
      ⟨e, entry, entriesHashmapParameters.refl e.key, rfl⟩
    have same : SameUrl e.value.url e.key := named e.key e.value found
    dsimp only
    rw [lookup_congr same, found]
  have start : LoadedFrom state { initialise state.path limit hysteresis with
      useMap, files := state.files } := by
    refine ⟨rfl, rfl, Hashmap.placed_create, ?_⟩
    intro url se impossible
    cases impossible
  obtain ⟨loaded, present⟩ := readEntries_loaded start own readable done
  refine ⟨loaded, fun url listed => ?_⟩
  obtain ⟨se, found⟩ := Option.ne_none_iff_exists'.mp listed
  have inside : (se.url.1.access, se) ∈ writeEntries state :=
    List.mem_map_of_mem (Hashmap.mem_iterate found)
  rw [← lookup_congr (named url se found)]
  exact present _ inside

end Neosurf.FsBackingStore
