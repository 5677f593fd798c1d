import Neosurf.Construction.Urldb.Operations
import Neosurf.Proof.Urldb.Listed

namespace Neosurf.Urldb

open SiblingTree

variable {env : Environment} {db : Database} {σ : Type} {callback : UrlCallback σ}

/-- A callback that always goes on. -/
def UrlCallback.Steady (callback : UrlCallback σ) : Prop := ∀ e s, (callback e s).2 = true

/-- A steady callback is called for these entries in this order. -/
def UrlCallback.run (callback : UrlCallback σ) (entries : List Entry) (s : σ) : σ :=
  entries.foldl (fun s e => (callback e s).1) s

/-- The entries of these nodes. -/
def entriesOf (parts : List Bytes) (nodes : List (List (LwcString × Nat × Bytes) × PathData)) :
    List Entry :=
  nodes.filterMap fun x => x.2.url.map fun url => ⟨url, ⟨parts, x.1⟩, x.2.urld⟩

/-- The entries of the host that a chain leads to. -/
def chainEntries (db : Database) (chain : Chain) : List Entry :=
  entriesOf (chain.reverse.map folded) ((hostAt db chain).paths.leavesAt PathData.key [])

/-- The entries below the chains of all search trees. -/
def Database.entries (db : Database) : List Entry :=
  (List.range NUM_SEARCH_TREES).flatMap fun i =>
    (db.searchTrees i).toList.flatMap (chainEntries db)

/-- All nodes, each with its place. -/
def Database.nodes (db : Database) : List (NodePlace × PathData) :=
  (db.hosts.nodesAt (fun h => folded h.part) []).flatMap fun x =>
    (x.2.paths.nodesAt PathData.key []).map fun y => (⟨x.1, y.1⟩, y.2)

/-- All nodes without children, each with its place. -/
def Database.leaves (db : Database) : List (NodePlace × PathData) :=
  (db.hosts.nodesAt (fun h => folded h.part) []).flatMap fun x =>
    (x.2.paths.leavesAt PathData.key []).map fun y => (⟨x.1, y.1⟩, y.2)

/-- This is the place of a URL. -/
def urlPlace (env : Environment) (url : Nsurl) : Option NodePlace :=
  match url.components.scheme, hostStr url, pathQuery url with
  | some scheme, some host, some path => some
      { parts := (hostParts env host).map folded
        keys := (segments path).map fun segment => (scheme, portInt url, segment) }
  | _, _, _ => none

/-- An entry is about a URL. -/
def Entry.isFor (url : Nsurl) (e : Entry) : Bool := Nsurl.compare e.url url Nsurl.COMPLETE

/-- A steady callback is called once for a URL, with the data of its own node. -/
def CalledOnce (env : Environment) (db : Database) (url : Nsurl) : Prop :=
  ∃ entries : List Entry,
    (∀ (σ : Type) (callback : UrlCallback σ) (s : σ), callback.Steady →
      iterateEntries callback db s = some (callback.run entries s)) ∧
    ∃ place d page, Placed env db url d ∧ urlPlace env url = some place ∧
      entries.filter (Entry.isFor url) = [⟨page, place, d.urld⟩]

/-- The own node of a URL holds it and has no children, and no other such node holds the URL. -/
def OnlyLeaf (env : Environment) (db : Database) (url : Nsurl) : Prop :=
  ∃ place d page, Placed env db url d ∧ urlPlace env url = some place ∧ (place, d) ∈ db.leaves ∧
    d.url = some page ∧ Nsurl.compare page url Nsurl.COMPLETE = true ∧
    ∀ x ∈ db.leaves, ∀ other, x.2.url = some other →
      Nsurl.compare other url Nsurl.COMPLETE = true → x.1 = place

theorem UrlCallback.run_append (entries more : List Entry) (s : σ) :
    callback.run (entries ++ more) s = callback.run more (callback.run entries s) :=
  List.foldl_append

theorem entriesOf_append (parts : List Bytes)
    (nodes more : List (List (LwcString × Nat × Bytes) × PathData)) :
    entriesOf parts (nodes ++ more) = entriesOf parts nodes ++ entriesOf parts more :=
  List.filterMap_append

theorem mem_entriesOf {parts : List Bytes}
    {nodes : List (List (LwcString × Nat × Bytes) × PathData)} {e : Entry} :
    e ∈ entriesOf parts nodes ↔ e.place.parts = parts ∧
      ∃ d, (e.place.keys, d) ∈ nodes ∧ d.url = some e.url ∧ e.data = d.urld := by
  simp only [entriesOf, List.mem_filterMap, Option.map_eq_some_iff]
  constructor
  · rintro ⟨⟨keys, d⟩, stored, url, url_eq, rfl⟩
    exact ⟨rfl, d, stored, url_eq, rfl⟩
  · rintro ⟨rfl, d, stored, url_eq, data⟩
    refine ⟨(e.place.keys, d), stored, e.url, url_eq, ?_⟩
    rw [← data]

theorem keys_entriesOf (parts : List Bytes)
    (nodes : List (List (LwcString × Nat × Bytes) × PathData)) :
    ((entriesOf parts nodes).map fun e => e.place.keys).Sublist (nodes.map Prod.fst) := by
  induction nodes with
  | nil => exact List.Sublist.refl []
  | cons x nodes ih =>
      rw [entriesOf, List.filterMap_cons]
      cases x.2.url with
      | none => exact ih.cons _
      | some url => exact ih.cons_cons _

/-- A steady callback visits the nodes without children. -/
theorem Paths.iterate_eq (steady : callback.Steady) {parts : List Bytes}
    {above : List (LwcString × Nat × Bytes)} {t : Paths} (urls : t.Tips fun d => d.url.isSome = true)
    (s : σ) : t.iterate callback parts above s =
      some (callback.run (entriesOf parts (t.leavesAt PathData.key above)) s, true) := by
  induction t generalizing above s with
  | nil => rfl
  | cons d children next children_ih next_ih =>
      obtain ⟨own, below, after⟩ := urls
      cases children with
      | nil =>
          obtain ⟨url, url_eq⟩ := Option.isSome_iff_exists.mp (own rfl)
          have goes_on := steady ⟨url, ⟨parts, above ++ [d.key]⟩, d.urld⟩ s
          rw [iterate, url_eq, leavesAt, entriesOf, List.filterMap_cons, url_eq]
          cases answer : callback ⟨url, ⟨parts, above ++ [d.key]⟩, d.urld⟩ s with
          | mk s' more =>
              rw [answer] at goes_on
              dsimp only at goes_on
              subst goes_on
              simp only [Option.map_some, UrlCallback.run, List.foldl_cons, answer]
              exact next_ih after s'
      | cons e inner later =>
          rw [iterate, children_ih below s, leavesAt, entriesOf_append, UrlCallback.run_append]
          exact next_ih after _

theorem iterateHosts_eq (steady : callback.Steady) {t : AATree Chain}
    (urls : ∀ chain ∈ t.toList, (hostAt db chain).paths.Tips fun d => d.url.isSome = true) (s : σ) :
    iterateHosts callback db t s =
      some (callback.run (t.toList.flatMap (chainEntries db)) s, true) := by
  induction t generalizing s with
  | empty => rfl
  | node level chain left right left_ih right_ih =>
      rw [AATree.toList] at urls
      rw [iterateHosts, left_ih fun chain stored => urls chain (List.mem_append_left _ stored),
        AATree.toList, List.flatMap_append, List.flatMap_cons, UrlCallback.run_append,
        UrlCallback.run_append]
      dsimp only
      rw [Paths.iterate_eq steady (urls chain (by simp))]
      apply right_ih
      intro chain stored
      exact urls chain (by simp [stored])

theorem iterateTrees_eq (steady : callback.Steady)
    (urls : ∀ i, ∀ chain ∈ (db.searchTrees i).toList,
      (hostAt db chain).paths.Tips fun d => d.url.isSome = true) (trees : List Nat) (s : σ) :
    iterateTrees callback db trees s = some (callback.run (trees.flatMap fun i =>
      (db.searchTrees i).toList.flatMap (chainEntries db)) s) := by
  induction trees generalizing s with
  | nil => rfl
  | cons i rest ih =>
      rw [iterateTrees, iterateHosts_eq steady (urls i), List.flatMap_cons, UrlCallback.run_append]
      exact ih _

theorem hostAt_nil : (hostAt db []).paths = .nil := rfl

/-- A chain of a search tree leads to its host. -/
theorem mem_hostAt {i : Nat} {chain : Chain} (indexed : Indexed db)
    (stored : chain ∈ (db.searchTrees i).toList) (filled : chain ≠ []) :
    (chain.reverse.map folded, hostAt db chain) ∈ db.hosts.nodesAt (fun h => folded h.part) [] := by
  obtain ⟨walked, found⟩ := Option.isSome_iff_exists.mp (indexed.walks i chain stored)
  have nonempty : walked ≠ [] := by
    rintro rfl
    have size := (forall₂_walk found).length_eq
    rw [List.length_reverse] at size
    exact filled (List.length_eq_zero_iff.mp size)
  have host : hostAt db chain = walked.getLast nonempty := by
    rw [hostAt, found, Option.bind_some, List.getLast?_eq_getLast_of_ne_nil nonempty,
      Option.getD_some]
  rw [← List.dropLast_append_getLast nonempty] at found
  rw [host]
  exact mem_nodesAt_of_walk part_of_isNamed found

theorem searchTreeOf_lt (host : Bytes) : searchTreeOf env host < NUM_SEARCH_TREES := by
  have letter (c : Byte) : isAlpha c = true → (toLower c - chr 'a').toNat < 26 := by
    revert c
    apply byte_cases
    decide
  unfold searchTreeOf
  split
  · decide
  · split
    · rename_i alpha
      have small := letter _ alpha
      unfold ST_DN NUM_SEARCH_TREES
      omega
    · decide

/-- The paths of all hosts that chains lead to are listed. -/
theorem listed_hostAt {i : Nat} {chain : Chain} (indexed : Indexed db) (listed : Listed env db)
    (stored : chain ∈ (db.searchTrees i).toList) :
    (hostAt db chain).paths.Ascending PathData.key (· ≠ ·) ∧
      (hostAt db chain).paths.Tips fun d => d.url.isSome = true := by
  by_cases filled : chain = []
  · rw [filled, hostAt_nil]
    exact ⟨trivial, trivial⟩
  · have known := allAt_iff.mp listed.hosts _ (mem_hostAt indexed stored filled)
    exact ⟨known.distinct, known.urls⟩

theorem mem_leaves {place : NodePlace} {d : PathData} : (place, d) ∈ db.leaves ↔
    ∃ h, (place.parts, h) ∈ db.hosts.nodesAt (fun h => folded h.part) [] ∧
      (place.keys, d) ∈ h.paths.leavesAt PathData.key [] := by
  simp only [Database.leaves, List.mem_flatMap, List.mem_map]
  constructor
  · rintro ⟨⟨parts, h⟩, inside, ⟨keys, d⟩, stored, same⟩
    cases same
    exact ⟨h, inside, stored⟩
  · rintro ⟨h, inside, stored⟩
    exact ⟨(place.parts, h), inside, (place.keys, d), stored, rfl⟩

theorem mem_nodes {place : NodePlace} {d : PathData} : (place, d) ∈ db.nodes ↔
    ∃ h, (place.parts, h) ∈ db.hosts.nodesAt (fun h => folded h.part) [] ∧
      (place.keys, d) ∈ h.paths.nodesAt PathData.key [] := by
  simp only [Database.nodes, List.mem_flatMap, List.mem_map]
  constructor
  · rintro ⟨⟨parts, h⟩, inside, ⟨keys, d⟩, stored, same⟩
    cases same
    exact ⟨h, inside, stored⟩
  · rintro ⟨h, inside, stored⟩
    exact ⟨(place.parts, h), inside, (place.keys, d), stored, rfl⟩

/-- Only one host is at a place. -/
theorem host_unique {parts : List Bytes} {h h' : HostData} (listed : Listed env db)
    (inside : (parts, h) ∈ db.hosts.nodesAt (fun h => folded h.part) [])
    (inside' : (parts, h') ∈ db.hosts.nodesAt (fun h => folded h.part) []) : h = h' := by
  have same := List.inj_on_of_nodup_map (nodup_nodesAt listed.distinct) inside inside' rfl
  cases same
  rfl

theorem filled_of_leaf {chain : Chain} {x : List (LwcString × Nat × Bytes) × PathData}
    (leaf : x ∈ (hostAt db chain).paths.leavesAt PathData.key []) : chain ≠ [] := by
  rintro rfl
  rw [hostAt_nil] at leaf
  cases leaf

/-- A chain leads to the host at its place. -/
theorem hostAt_eq {i : Nat} {chain : Chain} {parts : List Bytes} {h : HostData}
    (indexed : Indexed db) (listed : Listed env db) (stored : chain ∈ (db.searchTrees i).toList)
    (parts_eq : parts = chain.reverse.map folded)
    (inside : (parts, h) ∈ db.hosts.nodesAt (fun h => folded h.part) []) : hostAt db chain = h := by
  have filled : chain ≠ [] := by
    rintro rfl
    obtain ⟨g, _, start⟩ := start_of_mem_nodesAt inside
    have size := start.length_le
    rw [parts_eq] at size
    simp at size
  have host := mem_hostAt indexed stored filled
  rw [← parts_eq] at host
  exact host_unique listed host inside

/-- A chain leads to the leaves of its host. -/
theorem leaf_of_chain {i : Nat} {chain : Chain} {place : NodePlace} {d : PathData}
    (indexed : Indexed db) (stored : chain ∈ (db.searchTrees i).toList)
    (parts_eq : place.parts = chain.reverse.map folded)
    (leaf : (place.keys, d) ∈ (hostAt db chain).paths.leavesAt PathData.key []) :
    (place, d) ∈ db.leaves := by
  refine mem_leaves.mpr ⟨hostAt db chain, ?_, leaf⟩
  rw [parts_eq]
  exact mem_hostAt indexed stored (filled_of_leaf leaf)

/-- Some chain leads to each leaf. -/
theorem chain_of_leaf {place : NodePlace} {d : PathData} (indexed : Indexed db)
    (listed : Listed env db) (leaf : (place, d) ∈ db.leaves) :
    ∃ i, ∃ chain ∈ (db.searchTrees i).toList, place.parts = chain.reverse.map folded ∧
      (place.keys, d) ∈ (hostAt db chain).paths.leavesAt PathData.key [] := by
  obtain ⟨h, inside, leaf⟩ := mem_leaves.mp leaf
  have known := allAt_iff.mp listed.hosts _ inside
  have paths : h.paths ≠ .nil := by
    intro empty
    rw [empty] at leaf
    cases leaf
  obtain ⟨i, chain, stored, same⟩ := known.chained paths
  refine ⟨i, chain, stored, same.symm, ?_⟩
  rw [hostAt_eq indexed listed stored same.symm inside]
  exact leaf

/-- The entries are those of the nodes without children. -/
theorem mem_entries {e : Entry} (indexed : Indexed db) (listed : Listed env db) :
    e ∈ db.entries ↔ ∃ d, (e.place, d) ∈ db.leaves ∧ d.url = some e.url ∧ e.data = d.urld := by
  simp only [Database.entries, List.mem_flatMap, List.mem_range, chainEntries, mem_entriesOf]
  constructor
  · rintro ⟨i, _, chain, stored, parts_eq, d, leaf, url_eq, data⟩
    exact ⟨d, leaf_of_chain indexed stored parts_eq leaf, url_eq, data⟩
  · rintro ⟨d, leaf, url_eq, data⟩
    obtain ⟨i, chain, stored, parts_eq, below⟩ := chain_of_leaf indexed listed leaf
    refine ⟨i, ?_, chain, stored, parts_eq, d, below, url_eq, data⟩
    rw [← listed.trees i chain stored]
    exact searchTreeOf_lt _

theorem parts_of_mem_chainEntries {chain : Chain} {e : Entry} (inside : e ∈ chainEntries db chain) :
    e.place.parts = chain.reverse.map folded :=
  (mem_entriesOf.mp inside).1

/-- No entry is repeated in one search tree. -/
theorem nodup_treeEntries (indexed : Indexed db) (listed : Listed env db) (i : Nat) :
    ((db.searchTrees i).toList.flatMap (chainEntries db)).Nodup := by
  rw [List.nodup_flatMap]
  constructor
  · intro chain stored
    apply List.Nodup.of_map fun e => e.place.keys
    exact (nodup_leavesAt (listed_hostAt indexed listed stored).1).sublist (keys_entriesOf _ _)
  · refine (indexed.sorted i).imp fun {chain other} less e first second => ?_
    have same := (parts_of_mem_chainEntries first).symm.trans (parts_of_mem_chainEntries second)
    rw [List.map_reverse, List.map_reverse] at same
    rw [searchMatchHost_eq_iff.mpr (List.reverse_injective same)] at less
    cases less

/-- No entry is repeated. -/
theorem nodup_entries (blind : CaseBlind env) (indexed : Indexed db) (listed : Listed env db) :
    db.entries.Nodup := by
  rw [Database.entries, List.nodup_flatMap]
  refine ⟨fun i _ => nodup_treeEntries indexed listed i, ?_⟩
  refine List.nodup_range.imp fun {i j} apart e first second => ?_
  obtain ⟨chain, stored, inside⟩ := List.mem_flatMap.mp first
  obtain ⟨other, stored', inside'⟩ := List.mem_flatMap.mp second
  have same := (parts_of_mem_chainEntries inside).symm.trans (parts_of_mem_chainEntries inside')
  have head : folded (chain.headD []) = folded (other.reverse.getLastD []) := folded_headD same
  rw [List.getLastD_eq_getLast?, List.getLast?_reverse, ← List.headD_eq_head?_getD] at head
  have tree := searchTreeOf_congr blind head
  rw [listed.trees i chain stored, listed.trees j other stored'] at tree
  exact apart tree

theorem iterateEntries_eq (steady : callback.Steady) (indexed : Indexed db)
    (listed : Listed env db) (s : σ) :
    iterateEntries callback db s = some (callback.run db.entries s) :=
  iterateTrees_eq steady (fun _ _ stored => (listed_hostAt indexed listed stored).2) _ s

/-- A callback that keeps what it gets tells the entries. -/
theorem run_injective {entries known : List Entry}
    (same : UrlCallback.run (fun e (seen : List Entry) => (e :: seen, true)) entries [] =
      UrlCallback.run (fun e (seen : List Entry) => (e :: seen, true)) known []) :
    entries = known := by
  rwa [UrlCallback.run, UrlCallback.run, List.foldl_flip_cons_eq_append',
    List.foldl_flip_cons_eq_append', List.append_nil, List.append_nil, List.reverse_inj] at same

/-- The calls of a steady callback tell the entries. -/
theorem entries_unique {entries : List Entry} (indexed : Indexed db) (listed : Listed env db)
    (calls : ∀ (σ : Type) (callback : UrlCallback σ) (s : σ), callback.Steady →
      iterateEntries callback db s = some (callback.run entries s)) : entries = db.entries := by
  have steady : UrlCallback.Steady fun e (seen : List Entry) => (e :: seen, true) := fun _ _ => rfl
  have reported := calls (List Entry) _ [] steady
  rw [iterateEntries_eq steady indexed listed, Option.some.injEq] at reported
  exact run_injective reported.symm

/-- The own node of a URL is at its place. -/
theorem leaf_of_placed {url : Nsurl} {place : NodePlace} {d e : PathData} (listed : Listed env db)
    (placed : Placed env db url d) (place_eq : urlPlace env url = some place)
    (leaf : (place, e) ∈ db.leaves) : e = d := by
  obtain ⟨scheme, host, path, hosts, h, nodes, scheme_eq, host_eq, path_eq, walked, below⟩ := placed
  rw [urlPlace, scheme_eq, host_eq, path_eq, Option.some.injEq] at place_eq
  subst place_eq
  obtain ⟨h', inside, stored⟩ := mem_leaves.mp leaf
  have own : (_, h) ∈ db.hosts.nodesAt (fun h => folded h.part) [] :=
    mem_nodesAt_of_walk part_of_isNamed walked
  rw [host_unique listed inside own] at stored
  have known := allAt_iff.mp listed.hosts _ own
  have node : (_, d) ∈ h.paths.nodesAt PathData.key [] := mem_nodesAt_of_walk key_of_isAt below
  have same := List.inj_on_of_nodup_map (nodup_nodesAt known.distinct)
    (leavesAt_sublist.subset stored) node rfl
  cases same
  rfl

/-- In every run that only adds fitting hosts, a steady callback is called once for a URL exactly
when its own node is the only one without children that holds it. -/
theorem iterateEntries_once_iff (blind : CaseBlind env) (reached : Reachable env Fitting db)
    (url : Nsurl) : CalledOnce env db url ↔ OnlyLeaf env db url := by
  have indexed := (sound_run reached).toIndexed
  have listed := listed_run blind reached
  constructor
  · rintro ⟨entries, calls, place, d, page, placed, place_eq, once⟩
    have known := entries_unique indexed listed calls
    subst known
    have reported : ⟨page, place, d.urld⟩ ∈ db.entries.filter (Entry.isFor url) := by
      rw [once]
      exact List.mem_singleton_self _
    obtain ⟨inside, same⟩ := List.mem_filter.mp reported
    obtain ⟨e, leaf, page_eq, _⟩ := (mem_entries indexed listed).mp inside
    have node := leaf_of_placed listed placed place_eq leaf
    subst node
    refine ⟨place, e, page, placed, place_eq, leaf, page_eq, same, ?_⟩
    intro x other_leaf other other_eq other_same
    have again : ⟨other, x.1, x.2.urld⟩ ∈ db.entries.filter (Entry.isFor url) :=
      List.mem_filter.mpr ⟨(mem_entries indexed listed).mpr ⟨x.2, other_leaf, other_eq, rfl⟩,
        other_same⟩
    rw [once, List.mem_singleton] at again
    exact congrArg Entry.place again
  · rintro ⟨place, d, page, placed, place_eq, leaf, page_eq, same, only⟩
    refine ⟨db.entries, fun σ callback s steady => iterateEntries_eq steady indexed listed s,
      place, d, page, placed, place_eq, ?_⟩
    rw [← List.perm_singleton, List.perm_ext_iff_of_nodup
      ((nodup_entries blind indexed listed).filter _) (List.nodup_singleton _)]
    intro e
    rw [List.mem_filter, mem_entries indexed listed, List.mem_singleton]
    constructor
    · rintro ⟨⟨x, other_leaf, other_eq, data⟩, other_same⟩
      have place_same := only _ other_leaf e.url other_eq other_same
      dsimp only at place_same
      rw [place_same] at other_leaf
      have node := leaf_of_placed listed placed place_eq other_leaf
      subst node
      rw [page_eq, Option.some.injEq] at other_eq
      rw [other_eq, ← place_same, ← data]
    · rintro rfl
      exact ⟨⟨d, leaf, page_eq, rfl⟩, same⟩

theorem caseBlind_plainEnvironment : CaseBlind plainEnvironment where
  inetAton _ _ _ := rfl
  inetPton6 _ _ _ := rfl

/-- A URL for a short host may be added at the time of the plain environment. -/
theorem reachable_addUrl {url : Nsurl} {host : Bytes}
    (reached : Reachable plainEnvironment Fitting db) (host_eq : hostStr url = some host)
    (short : host.length < 256) :
    Reachable plainEnvironment Fitting (addUrl plainEnvironment db url).1 := by
  refine .step 100 (.addUrl url) reached ?_ rfl
  intro other added
  rw [Adds, host_eq, Option.some.injEq] at added
  rw [← added]
  exact fits_plainEnvironment short

/-- The URL `http://h/a` is reported once when it was added alone. -/
theorem iterateEntries_once_alone : ∃ url,
    Nsurl.nsurlCreate (fun _ => 0) (str "http://h/a") = .ok url ∧
      CalledOnce plainEnvironment (addUrl plainEnvironment {} url).1 url := by
  have computed : ∃ url place d page, Nsurl.nsurlCreate (fun _ => 0) (str "http://h/a") = .ok url ∧
      hostStr url = some (str "h") ∧
      Placed plainEnvironment (addUrl plainEnvironment {} url).1 url d ∧
      urlPlace plainEnvironment url = some place ∧
      (addUrl plainEnvironment {} url).1.leaves = [(place, d)] ∧ d.url = some page ∧
      Nsurl.compare page url Nsurl.COMPLETE = true :=
    ⟨_, _, _, _, rfl, rfl, ⟨_, _, _, [], _, [], rfl, rfl, rfl, rfl, rfl⟩, rfl, rfl, rfl, rfl⟩
  obtain ⟨url, place, d, page, created, host_eq, placed, place_eq, leaves, page_eq, same⟩ := computed
  refine ⟨url, created, ?_⟩
  apply (iterateEntries_once_iff caseBlind_plainEnvironment
    (reachable_addUrl .empty host_eq (by decide)) url).mpr
  refine ⟨place, d, page, placed, place_eq, ?_, page_eq, same, ?_⟩
  · rw [leaves]
    exact List.mem_singleton_self _
  · intro x leaf _ _ _
    rw [leaves, List.mem_singleton] at leaf
    rw [leaf]

/-- Once `http://h/a/b` was added, `http://h/a` is not reported. -/
theorem iterateEntries_skips : ∃ url below db,
    Nsurl.nsurlCreate (fun _ => 0) (str "http://h/a") = .ok url ∧
      Nsurl.nsurlCreate (fun _ => 0) (str "http://h/a/b") = .ok below ∧
      Reachable plainEnvironment Fitting db ∧
      db = (addUrl plainEnvironment (addUrl plainEnvironment {} url).1 below).1 ∧
      ¬ CalledOnce plainEnvironment db url := by
  have computed : ∃ url below, Nsurl.nsurlCreate (fun _ => 0) (str "http://h/a") = .ok url ∧
      Nsurl.nsurlCreate (fun _ => 0) (str "http://h/a/b") = .ok below ∧
      hostStr url = some (str "h") ∧ hostStr below = some (str "h") ∧
      (iterateEntries (fun e seen => (e :: seen, true))
        (addUrl plainEnvironment (addUrl plainEnvironment {} url).1 below).1 []).map
          (List.filter (Entry.isFor url)) = some [] :=
    ⟨_, _, rfl, rfl, rfl, rfl, by decide⟩
  obtain ⟨url, below, created, created_below, host_eq, host_below, checked⟩ := computed
  refine ⟨url, below, _, created, created_below, reachable_addUrl
    (reachable_addUrl .empty host_eq (by decide)) host_below (by decide), rfl, ?_⟩
  rintro ⟨entries, calls, place, d, page, _, _, once⟩
  have steady : UrlCallback.Steady fun e (seen : List Entry) => (e :: seen, true) := fun _ _ => rfl
  rw [calls (List Entry) _ [] steady, UrlCallback.run, List.foldl_flip_cons_eq_append',
    List.append_nil, Option.map_some, List.filter_reverse, once] at checked
  cases checked

end Neosurf.Urldb
