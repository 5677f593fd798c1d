/-
This file proves when the search for a prefix reports every URL that the prefix asks for.
-/

import Neosurf.Proof.Urldb.PartialPaths

namespace Neosurf.Urldb

open SiblingTree

variable {env : Environment} {db : Database} {σ : Type} {callback : UrlCallback σ}

/-- The name of a host, without the case of its letters. -/
def NodePlace.name (place : NodePlace) : Bytes := [chr '.'].intercalate place.parts.reverse

/-- The path of a node with its query. -/
def NodePlace.path (place : NodePlace) : Bytes :=
  [chr '/'].intercalate (place.keys.map fun key => key.2.2)

/-- A node has the URL and the data of an entry. -/
def Database.Holds (db : Database) (e : Entry) : Prop :=
  ∃ d, (e.place, d) ∈ db.nodes ∧ d.url = some e.url ∧ e.data = d.urld

/-- A search tree has a host of this name. -/
def Database.Knows (db : Database) (i : Nat) (host : Bytes) : Prop :=
  ∃ chain ∈ (db.searchTrees i).toList, folded ([chr '.'].intercalate chain) = folded host

/-- A prefix asks for the hosts that begin with it, also after `www.`. With a path it asks for one
host, after `www.` when no host has this name, and there for what begins with the path. -/
def Asks (db : Database) (text : Bytes) (place : NodePlace) : Prop :=
  let text := withoutScheme text
  let host := partialHost text
  if chr '/' ∈ text then
    (place.name = folded host ∨ lacksWww host = true ∧ (∀ i, ¬ db.Knows i host) ∧
      place.name = folded (str "www." ++ host)) ∧
      folded (text.drop (host.length + 1)) <+: folded place.path
  else folded text <+: place.name ∨
    lacksWww text = true ∧ folded (str "www." ++ text) <+: place.name

/-- A steady callback is called once for each entry that a prefix asks for, and for no other. -/
def CalledForAsked (env : Environment) (db : Database) (text : Bytes) : Prop :=
  ∃ entries : List Entry,
    (∀ (σ : Type) (callback : UrlCallback σ) (s : σ), callback.Steady →
      iteratePartial callback env db text s = some (callback.run entries s)) ∧
    entries.Nodup ∧ ∀ e, e ∈ entries ↔ db.Holds e ∧ Asks db text e.place

/-- The host of a place is in the search tree for a text. -/
def NodePlace.InTree (env : Environment) (text : Bytes) (place : NodePlace) : Prop :=
  searchTreeOf env (place.parts.getLastD []) = searchTreeOf env text

/-- The host of a place begins with a text and is in the tree for it. -/
def NodePlace.Begins (env : Environment) (text : Bytes) (place : NodePlace) : Prop :=
  place.InTree env text ∧ folded text <+: place.name

/-- The host of a place has the name before the path, as it fits in the buffer, and is in the tree
for the prefix. Without such a host, it has that name after `www.`. -/
def NodePlace.IsFound (env : Environment) (db : Database) (text : Bytes) (place : NodePlace) :
    Prop :=
  let host := (partialHost text).take 255
  place.InTree env text ∧ place.name = folded host ∨
    lacksWww (partialHost text) = true ∧ ¬ db.Knows (searchTreeOf env text) host ∧
      place.InTree env (withWww host) ∧ place.name = folded (withWww host)

/-- The search comes by a place: its host begins with the prefix, or it is the one before the path
and the segments lead to the node. -/
def ComesBy (env : Environment) (db : Database) (text : Bytes) (place : NodePlace) : Prop :=
  let text := withoutScheme text
  if chr '/' ∈ text then
    place.IsFound env db text ∧ ∃ h, (place.parts, h) ∈ db.hosts.nodesAt (fun h => folded h.part) [] ∧
      h.paths.Leads (steps (text.drop ((partialHost text).length + 1))) place.keys
  else place.Begins env text ∨ lacksWww text = true ∧ place.Begins env (withWww text)

/-- The nodes that a prefix asks for have no children and the search comes by them, it comes by no
other leaf, and no leaf begins both with the prefix and with `www.` before it. -/
structure Straight (env : Environment) (db : Database) (text : Bytes) : Prop where
  reached : ∀ x ∈ db.nodes, x.2.url ≠ none → Asks db text x.1 →
    x ∈ db.leaves ∧ ComesBy env db text x.1
  asked : ∀ x ∈ db.leaves, ComesBy env db text x.1 → Asks db text x.1
  once : chr '/' ∉ withoutScheme text → lacksWww (withoutScheme text) = true →
    ∀ x ∈ db.leaves, ¬ (x.1.Begins env (withoutScheme text) ∧
      x.1.Begins env (withWww (withoutScheme text)))

/-- This is the list of the entries that the search reports. -/
def partialEntries (env : Environment) (db : Database) (text : Bytes) : List Entry :=
  let text := withoutScheme text
  if chr '/' ∈ text then
    match findPartialHost env db text with
    | none => []
    | some chain => entriesOf (chain.reverse.map folded)
        ((hostAt db chain).paths.partialLeaves [] (text.drop ((partialHost text).length + 1)))
  else if lacksWww text then
    matchedEntries env db text ++ matchedEntries env db (withWww text)
  else matchedEntries env db text

theorem searchTreeOf_withWww (host : Bytes) : searchTreeOf env (withWww host) = WWW_TREE := by
  have name : hostIsIpAddress env (withWww host) = false := by
    rw [hostIsIpAddress]
    apply if_pos
    rfl
  rw [searchTreeOf, name, if_neg Bool.false_ne_true]
  rfl

/-- A chain tells the name and the tree of its place. -/
theorem name_of_chain {chain : Chain} {place : NodePlace}
    (parts_eq : place.parts = chain.reverse.map folded) :
    place.name = folded ([chr '.'].intercalate chain) := by
  rw [NodePlace.name, parts_eq, List.map_reverse, List.reverse_reverse, folded_intercalate]

theorem inTree_iff {i : Nat} {chain : Chain} {place : NodePlace} {text : Bytes}
    (blind : CaseBlind env) (listed : Listed env db) (stored : chain ∈ (db.searchTrees i).toList)
    (parts_eq : place.parts = chain.reverse.map folded) :
    place.InTree env text ↔ i = searchTreeOf env text := by
  have folded_parts : chain.reverse.map folded = place.parts.map folded := by
    rw [parts_eq, List.map_map]
    exact List.map_congr_left fun part _ => (folded_folded part).symm
  rw [NodePlace.InTree, ← searchTreeOf_congr blind (folded_headD folded_parts),
    listed.trees i chain stored]

theorem mem_chainEntries {chain : Chain} {e : Entry} : e ∈ chainEntries db chain ↔
    e.place.parts = chain.reverse.map folded ∧
      ∃ d, (e.place.keys, d) ∈ (hostAt db chain).paths.leavesAt PathData.key [] ∧
        d.url = some e.url ∧ e.data = d.urld :=
  mem_entriesOf

theorem matchedEntries_iff {text : Bytes} {e : Entry} (blind : CaseBlind env)
    (indexed : Indexed db) (listed : Listed env db) : e ∈ matchedEntries env db text ↔
      ∃ d, (e.place, d) ∈ db.leaves ∧ d.url = some e.url ∧ e.data = d.urld ∧
        e.place.Begins env text := by
  rw [mem_matchedEntries blind indexed listed]
  constructor
  · rintro ⟨chain, stored, start, inside⟩
    obtain ⟨parts_eq, d, below, url_eq, data⟩ := mem_chainEntries.mp inside
    refine ⟨d, leaf_of_chain indexed stored parts_eq below, url_eq, data,
      (inTree_iff blind listed stored parts_eq).mpr rfl, ?_⟩
    rw [name_of_chain parts_eq]
    exact start
  · rintro ⟨d, leaf, url_eq, data, tree, start⟩
    obtain ⟨i, chain, stored, parts_eq, below⟩ := chain_of_leaf indexed listed leaf
    rw [inTree_iff blind listed stored parts_eq] at tree
    rw [tree] at stored
    rw [name_of_chain parts_eq] at start
    exact ⟨chain, stored, start, mem_chainEntries.mpr ⟨parts_eq, d, below, url_eq, data⟩⟩

/-- A search finds nothing exactly when its tree does not know the host. -/
theorem find_eq_none_iff {i : Nat} {host : Bytes} (blind : CaseBlind env) (indexed : Indexed db)
    (listed : Listed env db) :
    (db.searchTrees i).find (searchMatchString env host) = none ↔ ¬ db.Knows i host := by
  constructor
  · rintro absent ⟨chain, stored, same⟩
    have found := AATree.find_isSome (cut_searchMatchString host) (indexed.sorted i) stored
      ((searchMatchString_eq_iff blind listed stored).mpr same)
    rw [absent] at found
    cases found
  · intro unknown
    rw [Option.eq_none_iff_forall_ne_some]
    intro chain found
    obtain ⟨stored, accepted⟩ := AATree.find_eq_some found
    exact unknown ⟨chain, stored, (searchMatchString_eq_iff blind listed stored).mp accepted⟩

/-- A search finds the chain to a place exactly when the place has the name looked for. -/
theorem find_place_iff {i : Nat} {chain : Chain} {place : NodePlace} {text host : Bytes}
    (blind : CaseBlind env) (indexed : Indexed db) (listed : Listed env db)
    (stored : chain ∈ (db.searchTrees i).toList)
    (parts_eq : place.parts = chain.reverse.map folded) :
    (∃ other, (db.searchTrees (searchTreeOf env text)).find (searchMatchString env host) =
      some other ∧ place.parts = other.reverse.map folded) ↔
      place.InTree env text ∧ place.name = folded host := by
  constructor
  · rintro ⟨other, found, parts_eq'⟩
    obtain ⟨stored', accepted⟩ := AATree.find_eq_some found
    refine ⟨(inTree_iff blind listed stored' parts_eq').mpr rfl, ?_⟩
    rw [name_of_chain parts_eq', (searchMatchString_eq_iff blind listed stored').mp accepted]
  · rintro ⟨tree, name⟩
    rw [inTree_iff blind listed stored parts_eq] at tree
    subst tree
    rw [name_of_chain parts_eq] at name
    have found := AATree.find_isSome (cut_searchMatchString host) (indexed.sorted _) stored
      ((searchMatchString_eq_iff blind listed stored).mpr name)
    obtain ⟨other, found⟩ := Option.isSome_iff_exists.mp found
    obtain ⟨stored', accepted⟩ := AATree.find_eq_some found
    have name' := (searchMatchString_eq_iff blind listed stored').mp accepted
    exact ⟨other, found,
      parts_eq.trans (parts_of_name blind listed stored stored' (name.trans name'.symm))⟩

/-- The host before a path is found exactly at these places. -/
theorem findPartialHost_iff {i : Nat} {chain : Chain} {place : NodePlace} {text : Bytes}
    (blind : CaseBlind env) (indexed : Indexed db) (listed : Listed env db)
    (stored : chain ∈ (db.searchTrees i).toList)
    (parts_eq : place.parts = chain.reverse.map folded) :
    (∃ other, findPartialHost env db text = some other ∧
      place.parts = other.reverse.map folded) ↔ place.IsFound env db text := by
  have first := @find_place_iff env db i chain place text ((partialHost text).take 255) blind
    indexed listed stored parts_eq
  have second := @find_place_iff env db i chain place (withWww ((partialHost text).take 255))
    (withWww ((partialHost text).take 255)) blind indexed listed stored parts_eq
  rw [searchTreeOf_withWww] at second
  have known := @find_eq_none_iff env db (searchTreeOf env text) ((partialHost text).take 255) blind
    indexed listed
  rw [NodePlace.IsFound, findPartialHost]
  rw [← first, ← second, ← known]
  cases (db.searchTrees (searchTreeOf env text)).find
      (searchMatchString env ((partialHost text).take 255)) with
  | some other => simp
  | none =>
      by_cases lacks : lacksWww (partialHost text) = true
      · simp [lacks]
      · simp [lacks]

/-- What the search finds for a path is in a tree. -/
theorem stored_of_findPartialHost {text : Bytes} {chain : Chain}
    (found : findPartialHost env db text = some chain) :
    ∃ i, chain ∈ (db.searchTrees i).toList := by
  rw [findPartialHost] at found
  split at found
  · rename_i other same
    cases found
    exact ⟨_, (AATree.find_eq_some same).1⟩
  · split at found
    · exact ⟨_, (AATree.find_eq_some found).1⟩
    · cases found

theorem iteratePartial_eq {text : Bytes} (steady : callback.Steady) (indexed : Indexed db)
    (listed : Listed env db) (s : σ) :
    iteratePartial callback env db text s = some (callback.run (partialEntries env db text) s) := by
  have urls (i : Nat) : ∀ chain ∈ (db.searchTrees i).toList,
      (hostAt db chain).paths.Tips fun d => d.url.isSome = true :=
    fun chain stored => (listed_hostAt indexed listed stored).2
  rw [iteratePartial, partialEntries]
  generalize withoutScheme text = text
  split
  · cases found : findPartialHost env db text with
    | none => rfl
    | some chain =>
        obtain ⟨i, stored⟩ := stored_of_findPartialHost found
        dsimp only
        rw [Paths.iteratePartialPath_eq steady (urls i chain stored), Option.map_some]
  · rw [iteratePartialHost_eq steady (urls _)]
    dsimp only
    split
    · rw [iteratePartialHost_eq steady (urls _), Option.map_some, UrlCallback.run_append,
        matchedEntries, matchedEntries, searchTreeOf_withWww]
    · rfl

/-- The entries are those of the leaves that the search comes by. -/
theorem mem_partialEntries {text : Bytes} {e : Entry} (blind : CaseBlind env)
    (indexed : Indexed db) (listed : Listed env db) : e ∈ partialEntries env db text ↔
      ∃ d, (e.place, d) ∈ db.leaves ∧ d.url = some e.url ∧ e.data = d.urld ∧
        ComesBy env db text e.place := by
  have matched := fun text => @matchedEntries_iff env db text e blind indexed listed
  rw [partialEntries]
  simp only [ComesBy]
  generalize withoutScheme text = text
  by_cases path : chr '/' ∈ text
  · simp only [if_pos path]
    constructor
    · intro inside
      cases found : findPartialHost env db text with
      | none =>
          rw [found] at inside
          cases inside
      | some chain =>
          rw [found] at inside
          obtain ⟨i, stored⟩ := stored_of_findPartialHost found
          obtain ⟨parts_eq, d, met, url_eq, data⟩ := mem_entriesOf.mp inside
          have distinct := (listed_hostAt indexed listed stored).1
          obtain ⟨below, leads⟩ := (Paths.partialLeaves_iff distinct).mp met
          have found_place := (findPartialHost_iff blind indexed listed stored parts_eq).mp
            ⟨chain, found, parts_eq⟩
          have host := mem_hostAt indexed stored (filled_of_leaf below)
          rw [← parts_eq] at host
          exact ⟨d, leaf_of_chain indexed stored parts_eq below, url_eq, data, found_place,
            hostAt db chain, host, leads⟩
    · rintro ⟨d, leaf, url_eq, data, found_place, h, host, leads⟩
      obtain ⟨i, chain, stored, parts_eq, -⟩ := chain_of_leaf indexed listed leaf
      obtain ⟨other, found, parts_eq'⟩ :=
        (findPartialHost_iff blind indexed listed stored parts_eq).mpr found_place
      obtain ⟨j, stored'⟩ := stored_of_findPartialHost found
      obtain ⟨h', host', below⟩ := mem_leaves.mp leaf
      rw [found, mem_entriesOf]
      refine ⟨parts_eq', d, ?_, url_eq, data⟩
      rw [Paths.partialLeaves_iff (listed_hostAt indexed listed stored').1,
        hostAt_eq indexed listed stored' parts_eq' host]
      rw [host_unique listed host' host] at below
      exact ⟨below, leads⟩
  · simp only [if_neg path]
    cases lacks : lacksWww text with
    | true =>
        rw [if_pos rfl, List.mem_append, matched, matched]
        simp only [true_and, ← exists_or, ← and_or_left]
    | false =>
        rw [if_neg Bool.false_ne_true, matched]
        simp only [Bool.false_eq_true, false_and, or_false]

theorem nodup_partialEntries {text : Bytes} (indexed : Indexed db) (listed : Listed env db)
    (disjoint : chr '/' ∉ withoutScheme text → lacksWww (withoutScheme text) = true →
      List.Disjoint (matchedEntries env db (withoutScheme text))
        (matchedEntries env db (withWww (withoutScheme text)))) :
    (partialEntries env db text).Nodup := by
  rw [partialEntries]
  generalize withoutScheme text = text at disjoint ⊢
  by_cases path : chr '/' ∈ text
  · rw [if_pos path]
    cases found : findPartialHost env db text with
    | none => exact List.nodup_nil
    | some chain =>
        obtain ⟨i, stored⟩ := stored_of_findPartialHost found
        apply List.Nodup.of_map fun e => e.place.keys
        exact ((nodup_leavesAt (listed_hostAt indexed listed stored).1).sublist
          (Paths.partialLeaves_sublist.map _)).sublist (keys_entriesOf _ _)
  · rw [if_neg path]
    split
    · rename_i lacks
      exact (nodup_matchedEntries indexed listed).append (nodup_matchedEntries indexed listed)
        (disjoint path lacks)
    · exact nodup_matchedEntries indexed listed

theorem partialEntries_unique {text : Bytes} {entries : List Entry} (indexed : Indexed db)
    (listed : Listed env db)
    (calls : ∀ (σ : Type) (callback : UrlCallback σ) (s : σ), callback.Steady →
      iteratePartial callback env db text s = some (callback.run entries s)) :
    entries = partialEntries env db text := by
  have steady : UrlCallback.Steady fun e (seen : List Entry) => (e :: seen, true) := fun _ _ => rfl
  have reported := calls (List Entry) _ [] steady
  rw [iteratePartial_eq steady indexed listed, Option.some.injEq] at reported
  exact run_injective reported.symm

theorem node_of_leaf {x : NodePlace × PathData} (leaf : x ∈ db.leaves) : x ∈ db.nodes := by
  obtain ⟨h, inside, stored⟩ := mem_leaves.mp leaf
  exact mem_nodes.mpr ⟨h, inside, leavesAt_sublist.subset stored⟩

/-- Only one node is at a place. -/
theorem node_unique {place : NodePlace} {d e : PathData} (listed : Listed env db)
    (node : (place, d) ∈ db.nodes) (node' : (place, e) ∈ db.nodes) : d = e := by
  obtain ⟨h, inside, stored⟩ := mem_nodes.mp node
  obtain ⟨h', inside', stored'⟩ := mem_nodes.mp node'
  rw [host_unique listed inside' inside] at stored'
  have known := allAt_iff.mp listed.hosts _ inside
  have same := List.inj_on_of_nodup_map (nodup_nodesAt known.distinct) stored stored' rfl
  cases same
  rfl

theorem url_of_leaf {x : NodePlace × PathData} (listed : Listed env db) (leaf : x ∈ db.leaves) :
    ∃ url, x.2.url = some url := by
  obtain ⟨h, inside, stored⟩ := mem_leaves.mp leaf
  have known := allAt_iff.mp listed.hosts _ inside
  exact Option.isSome_iff_exists.mp (tips_iff.mp known.urls _ stored)

/-- In every run that only adds fitting hosts, the search for a prefix calls a steady callback once
for each entry that the prefix asks for exactly when it goes straight. -/
theorem iteratePartial_asked_iff (blind : CaseBlind env) (reached : Reachable env Fitting db)
    (text : Bytes) : CalledForAsked env db text ↔ Straight env db text := by
  have indexed := (sound_run reached).toIndexed
  have listed := listed_run blind reached
  constructor
  · rintro ⟨entries, calls, nodup, asked⟩
    have known := partialEntries_unique indexed listed calls
    subst known
    refine ⟨?_, ?_, ?_⟩
    · intro x node present asks
      obtain ⟨url, url_eq⟩ := Option.ne_none_iff_exists'.mp present
      have reported := (asked ⟨url, x.1, x.2.urld⟩).mpr ⟨⟨x.2, node, url_eq, rfl⟩, asks⟩
      obtain ⟨d, leaf, -, -, comes⟩ := (mem_partialEntries blind indexed listed).mp reported
      have same := node_unique listed (node_of_leaf leaf) node
      subst same
      exact ⟨leaf, comes⟩
    · intro x leaf comes
      obtain ⟨url, url_eq⟩ := url_of_leaf listed leaf
      have reported : ⟨url, x.1, x.2.urld⟩ ∈ partialEntries env db text :=
        (mem_partialEntries blind indexed listed).mpr ⟨x.2, leaf, url_eq, rfl, comes⟩
      exact ((asked _).mp reported).2
    · rintro path lacks x leaf ⟨first, second⟩
      obtain ⟨url, url_eq⟩ := url_of_leaf listed leaf
      have matched (text : Bytes) (begins : x.1.Begins env text) :
          ⟨url, x.1, x.2.urld⟩ ∈ matchedEntries env db text :=
        (matchedEntries_iff blind indexed listed).mpr ⟨x.2, leaf, url_eq, rfl, begins⟩
      rw [partialEntries, if_neg path, if_pos lacks] at nodup
      exact List.disjoint_of_nodup_append nodup (matched _ first) (matched _ second)
  · intro straight
    refine ⟨partialEntries env db text,
      fun σ callback s steady => iteratePartial_eq steady indexed listed s, ?_, ?_⟩
    · apply nodup_partialEntries indexed listed
      intro path lacks e first second
      obtain ⟨d, leaf, -, -, begins⟩ := (matchedEntries_iff blind indexed listed).mp first
      obtain ⟨d', -, -, -, begins'⟩ := (matchedEntries_iff blind indexed listed).mp second
      exact straight.once path lacks _ leaf ⟨begins, begins'⟩
    · intro e
      rw [mem_partialEntries blind indexed listed]
      constructor
      · rintro ⟨d, leaf, url_eq, data, comes⟩
        exact ⟨⟨d, node_of_leaf leaf, url_eq, data⟩, straight.asked _ leaf comes⟩
      · rintro ⟨⟨d, node, url_eq, data⟩, asks⟩
        have present : d.url ≠ none := by
          rw [url_eq]
          exact Option.some_ne_none _
        obtain ⟨leaf, comes⟩ := straight.reached _ node present asks
        exact ⟨d, leaf, url_eq, data, comes⟩

/-- The URL `http://h/a` is reported for `h/a` when it was added alone. -/
theorem iteratePartial_asked_alone : ∃ url,
    Nsurl.nsurlCreate (fun _ => 0) (str "http://h/a") = .ok url ∧
      CalledForAsked plainEnvironment (addUrl plainEnvironment {} url).1 (str "h/a") := by
  have computed : ∃ url d h, Nsurl.nsurlCreate (fun _ => 0) (str "http://h/a") = .ok url ∧
      hostStr url = some (str "h") ∧
      (addUrl plainEnvironment {} url).1.nodes = [(⟨[str "h"], [(str "http", 0, str "a")]⟩, d)] ∧
      (addUrl plainEnvironment {} url).1.leaves = [(⟨[str "h"], [(str "http", 0, str "a")]⟩, d)] ∧
      (addUrl plainEnvironment {} url).1.hosts.nodesAt (fun h => folded h.part) [] =
        [([str "h"], h)] :=
    ⟨_, _, _, rfl, rfl, rfl, rfl, rfl⟩
  obtain ⟨url, d, h, created, host_eq, nodes, leaves, hosts⟩ := computed
  refine ⟨url, created, ?_⟩
  apply (iteratePartial_asked_iff caseBlind_plainEnvironment
    (reachable_addUrl .empty host_eq (by decide)) _).mpr
  have comes : ComesBy plainEnvironment (addUrl plainEnvironment {} url).1 (str "h/a")
      ⟨[str "h"], [(str "http", 0, str "a")]⟩ := by
    rw [ComesBy, hosts, if_pos (by decide)]
    refine ⟨.inl ⟨rfl, by decide⟩, h, List.mem_singleton_self _, ?_⟩
    change folded (str "a") <+: folded (str "a")
    exact List.prefix_rfl
  have asks : Asks (addUrl plainEnvironment {} url).1 (str "h/a")
      ⟨[str "h"], [(str "http", 0, str "a")]⟩ := by
    rw [Asks, if_pos (by decide)]
    exact ⟨.inl (by decide), by decide⟩
  refine ⟨?_, ?_, ?_⟩
  · intro x node _ _
    rw [nodes, List.mem_singleton] at node
    rw [node, leaves]
    exact ⟨List.mem_singleton_self _, comes⟩
  · intro x leaf _
    rw [leaves, List.mem_singleton] at leaf
    rw [leaf]
    exact asks
  · intro impossible
    exact absurd (by decide) impossible

/-- Once `http://h/a/b` and `https://h/a/c` were added, the second is not reported for `h/a/`. -/
theorem iteratePartial_misses : ∃ url other db,
    Nsurl.nsurlCreate (fun _ => 0) (str "http://h/a/b") = .ok url ∧
      Nsurl.nsurlCreate (fun _ => 0) (str "https://h/a/c") = .ok other ∧
      Reachable plainEnvironment Fitting db ∧
      db = (addUrl plainEnvironment (addUrl plainEnvironment {} url).1 other).1 ∧
      ¬ CalledForAsked plainEnvironment db (str "h/a/") := by
  have computed : ∃ url other, Nsurl.nsurlCreate (fun _ => 0) (str "http://h/a/b") = .ok url ∧
      Nsurl.nsurlCreate (fun _ => 0) (str "https://h/a/c") = .ok other ∧
      hostStr url = some (str "h") ∧ hostStr other = some (str "h") ∧
      (∃ d page, ((⟨[str "h"], [(str "https", 0, str "a"), (str "https", 0, str "c")]⟩ : NodePlace),
          d) ∈ (addUrl plainEnvironment (addUrl plainEnvironment {} url).1 other).1.nodes ∧
        d.url = some page) ∧
      (iteratePartial (fun e seen => (e.place.keys :: seen, true)) plainEnvironment
        (addUrl plainEnvironment (addUrl plainEnvironment {} url).1 other).1 (str "h/a/") []) =
          some [[(str "http", 0, str "a"), (str "http", 0, str "b")]] :=
    ⟨_, _, rfl, rfl, rfl, rfl, ⟨_, _, List.mem_cons_of_mem _ (List.mem_cons_of_mem _
      (List.mem_cons_of_mem _ List.mem_cons_self)), rfl⟩, by decide⟩
  obtain ⟨url, other, created, created_other, host_eq, host_other, ⟨d, page, node, page_eq⟩,
    checked⟩ := computed
  refine ⟨url, other, _, created, created_other, reachable_addUrl
    (reachable_addUrl .empty host_eq (by decide)) host_other (by decide), rfl, ?_⟩
  rintro ⟨entries, calls, -, asked⟩
  have asks : Asks (addUrl plainEnvironment (addUrl plainEnvironment {} url).1 other).1 (str "h/a/")
      ⟨[str "h"], [(str "https", 0, str "a"), (str "https", 0, str "c")]⟩ := by
    rw [Asks, if_pos (by decide)]
    exact ⟨.inl (by decide), by decide⟩
  have reported := (asked ⟨page, _, d.urld⟩).mpr ⟨⟨d, node, page_eq, rfl⟩, asks⟩
  have steady : UrlCallback.Steady fun e (seen : List (List (LwcString × Nat × Bytes))) =>
      (e.place.keys :: seen, true) := fun _ _ => rfl
  have reported_keys : [(str "https", 0, str "a"), (str "https", 0, str "c")] ∈
      entries.map fun e => e.place.keys := List.mem_map_of_mem reported
  rw [calls _ _ [] steady, UrlCallback.run, Option.some.injEq,
    List.foldl_flip_cons_eq_append, List.append_nil, List.reverse_eq_iff] at checked
  rw [checked] at reported_keys
  exact absurd reported_keys (by decide)

end Neosurf.Urldb