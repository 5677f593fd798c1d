import Neosurf.Proof.Urldb.Divert
import Neosurf.Proof.Urldb.GetCookie
import Neosurf.Proof.Urldb.PathTree
import Neosurf.Proof.Urldb.SoundRuns

namespace Neosurf.Urldb

open SiblingTree

variable {env : Environment} {db : Database}

theorem segments_eq (path : Bytes) : ∃ segment rest, segments path = segment :: rest := by
  cases parts : segments path with
  | nil => exact absurd parts (List.splitOn_ne_nil _ _)
  | cons segment rest => exact ⟨segment, rest, rfl⟩

/-- A lookup below a host succeeds when its walk does. -/
theorem findPath_isSome {hosts : List HostData} {scheme : LwcString} {port : Nat} {path : Bytes} :
    (findPath hosts scheme port path).isSome = true ↔
      byteAt path 0 = chr '/' ∧ ∃ h, hosts.getLast? = some h ∧
        (h.paths.walk (PathData.matches scheme (narrow port)) (segments path)).isSome = true := by
  obtain ⟨segment, rest, split⟩ := segments_eq path
  constructor
  · intro present
    obtain ⟨found, done⟩ := Option.isSome_iff_exists.mp present
    obtain ⟨_, slash, h, last, matched⟩ := findPath_eq_some.mp done
    refine ⟨slash, h, last, ?_⟩
    rw [split] at matched ⊢
    have node : (matchPath scheme (narrow port) ⟨none, h.paths⟩ [] h.paths
        (segment :: rest)).map Prod.fst = _ := matchPath_node segment rest
    rw [matched, Option.map_some] at node
    cases walked : h.paths.walk (PathData.matches scheme (narrow port)) (segment :: rest) with
    | none => simp [walked] at node
    | some nodes => rfl
  · rintro ⟨slash, h, last, present⟩
    obtain ⟨nodes, walked⟩ := Option.isSome_iff_exists.mp present
    rw [split] at walked
    obtain ⟨d, _, below, _, _, rfl⟩ := walk_cons.mp walked
    have node : (matchPath scheme (narrow port) ⟨none, h.paths⟩ [] h.paths
        (segment :: rest)).map Prod.fst = (d :: below).getLast? := by
      rw [matchPath_node, walked, Option.bind_some]
    rw [List.getLast?_cons] at node
    obtain ⟨⟨found, levels⟩, matched, _⟩ := Option.map_eq_some_iff.mp node
    rw [← split] at matched
    have done : findPath hosts scheme port path = some ⟨hosts, found, levels⟩ :=
      findPath_eq_some.mpr ⟨rfl, slash, h, last, matched⟩
    rw [done]
    rfl

@[simp] theorem bloom_addHost (env : Environment) (db : Database) (host : Bytes) :
    (addHost env db host).bloom = db.bloom := by
  unfold addHost
  dsimp only
  split <;> rfl

/-- Every walk goes on as before when a host is added. -/
theorem walk_addHost {host : Bytes} {parts : List Bytes} {walked : List HostData}
    (found : db.hosts.walk parts = some walked) :
    (addHost env db host).hosts.walk parts = some walked := by
  rcases addHost_cases env db host with ⟨_, _, same⟩ | ⟨_, _, after⟩
  · rw [same, found]
  · rw [after]
    exact Hosts.walk_add found

/-- A host that was added is in the tree. Its node was there before, or it is fresh. -/
theorem walk_addHost_self (env : Environment) (db : Database) (host : Bytes) :
    ∃ above h, (addHost env db host).hosts.walk (hostParts env host) = some (above ++ [h]) ∧
      ((∃ before, db.hosts.walk (hostParts env host) = some (before ++ [h])) ∨
        db.hosts.walk (hostParts env host) = none ∧ ∃ part, h = { part }) := by
  rcases addHost_cases env db host with ⟨address, present, same⟩ | ⟨_, _, after⟩
  · rw [has_eq_isSome] at present
    obtain ⟨⟨h, children⟩, first⟩ := Option.isSome_iff_exists.mp present
    have walked : db.hosts.walk (hostParts env host) = some ([] ++ [h]) := by
      rw [hostParts, if_pos address]
      exact walk_cons.mpr ⟨h, children, [], first, rfl, rfl⟩
    exact ⟨[], h, by rw [same, walked], Or.inl ⟨[], walked⟩⟩
  · rw [after]
    exact Hosts.walk_add_self (hostParts_ne_nil host) db.hosts

theorem mem_addHost {host : Bytes} {i : Nat} {chain : Chain}
    (stored : chain ∈ (db.searchTrees i).toList) :
    chain ∈ ((addHost env db host).searchTrees i).toList := by
  rcases addHost_cases env db host with ⟨_, _, same⟩ | ⟨_, _, after⟩
  · rw [same]
    exact stored
  · rw [after]
    exact mem_searchInsert_of_mem stored

/-- A findable host is found once it was added. -/
theorem searchFind_addHost {host : Bytes} (findable : Findable env host) (sound : Sound env db) :
    ∃ chain, searchFind env (addHost env db host) host = some chain ∧
      chain.reverse.map folded = (hostParts env host).map folded := by
  have indexed := indexed_addHost findable sound.toIndexed
  rw [hostParts_eq findable]
  by_cases address : hostIsIpAddress env host = true
  · obtain ⟨part, stored, same⟩ := address_addHost address sound
    rw [← searchTreeOf_eq_ip_iff.mpr address] at stored
    refine searchFind_isSome indexed stored ?_
    rw [lookedParts, if_pos address, List.reverse_singleton, List.map_singleton,
      List.map_singleton, same]
  · rcases addHost_cases env db host with ⟨impossible, _, _⟩ | ⟨walked, found, after⟩
    · exact absurd impossible address
    · rw [searchTreeOf_first findable] at after
      obtain ⟨x, stored, same⟩ := exists_mem_searchInsert
        { db with hosts := db.hosts.add (hostParts env host) } (searchTreeOf env host)
        (walked.reverse.map HostData.part)
      rw [← after] at stored
      refine searchFind_isSome indexed stored ?_
      rw [List.map_reverse, same, ← List.map_reverse, folded_chain found, hostParts_eq findable]

/-- These parts of a URL name what is stored for it. -/
def pageParts : Nsurl.Parts :=
  Nsurl.SCHEME ||| Nsurl.HOST ||| Nsurl.PORT ||| Nsurl.PATH ||| Nsurl.QUERY

/-- This is the node of a URL, where one is in the trees. -/
def Placed (env : Environment) (db : Database) (url : Nsurl) (d : PathData) : Prop :=
  ∃ scheme host path hosts h nodes, url.components.scheme = some scheme ∧
    hostStr url = some host ∧ pathQuery url = some path ∧
    db.hosts.walk (hostParts env host) = some (hosts ++ [h]) ∧
    h.paths.walk (PathData.isAt scheme (portInt url)) (segments path) = some (nodes ++ [d])

/-- The new nodes of a URL come in the way of the lookup that found another one. -/
def Diverted (env : Environment) (url other : Nsurl) (found : Found) : Prop :=
  ∃ scheme host path otherPath h, url.components.scheme = some scheme ∧
    other.components.scheme = some scheme ∧ hostStr url = some host ∧
    (found.hosts.map HostData.part).map folded = (hostParts env host).map folded ∧
    narrow (portInt other) = portInt url ∧ pathQuery url = some path ∧
    pathQuery other = some otherPath ∧ found.hosts.getLast? = some h ∧
    Paths.diverts scheme (portInt url) (segments path) (segments otherPath) h.paths = true

/-- These are the conditions for a URL that is added to a database. -/
structure AddFits (env : Environment) (db : Database) (url : Nsurl) : Prop where
  scheme : url.components.scheme ≠ some (str "mailto")
  port : portInt url < 2 ^ 16
  path : ∀ path, pathQuery url = some path → byteAt path 0 = chr '/'
  host : ∀ host, hostStr url = some host → Findable env host
  node : ∀ d page, Placed env db url d → d.url = some page →
    Nsurl.compare page url pageParts = true
  filter : db.bloom = none → ∀ other, (findUrl env db other).isSome = true →
    bloomIndex other.hash = bloomIndex url.hash
  others : ∀ other found, findUrl env db other = some found → ¬ Diverted env url other found

/-- A URL that was added is found with its own page, and what was found before still is. -/
def AddFound (env : Environment) (db : Database) (url : Nsurl) : Prop :=
  (addUrl env db url).2 = true →
    (∃ found page, findUrl env (addUrl env db url).1 url = some found ∧
      found.node.url = some page ∧ Nsurl.compare page url pageParts = true) ∧
    ∀ other, (findUrl env db other).isSome = true →
      (findUrl env (addUrl env db url).1 other).isSome = true

/-- The database after a URL with these parts was added. -/
theorem addUrl_eq {url : Nsurl} {scheme : LwcString} {host path : Bytes}
    (scheme_eq : url.components.scheme = some scheme) (host_eq : hostStr url = some host)
    (path_eq : pathQuery url = some path) :
    addUrl env db url = (addPath (hostParts env host) scheme (portInt url) path (setUrl url)
      (addHost env (bloomInsert db url.hash) host), true) := by
  unfold addUrl
  simp only [scheme_eq, host_eq, path_eq]

theorem addUrl_cases {url : Nsurl} (added : (addUrl env db url).2 = true) :
    ∃ scheme host path, url.components.scheme = some scheme ∧ hostStr url = some host ∧
      pathQuery url = some path := by
  unfold addUrl at added
  dsimp only at added
  split at added
  · rename_i path scheme host path_eq scheme_eq host_eq
    exact ⟨scheme, host, path, scheme_eq, host_eq, path_eq⟩
  · cases added

/-- A page is its own page, whatever its fragment. -/
theorem compare_defragment (url : Nsurl) :
    Nsurl.compare (Nsurl.defragment url) url pageParts = true := by
  have same (c : Option LwcString) : Nsurl.componentCompare c c = true := by
    cases c <;> simp [Nsurl.componentCompare, lwcStringIsequal]
  have parts : (Nsurl.defragment url).components =
      { url.components with fragment := (Nsurl.defragment url).components.fragment } := by
    unfold Nsurl.defragment
    dsimp only
    split <;> rfl
  unfold Nsurl.compare
  rw [parts]
  simp [same, pageParts, Nsurl.wants, Nsurl.SCHEME, Nsurl.HOST, Nsurl.PORT, Nsurl.PATH,
    Nsurl.QUERY, Nsurl.USERNAME, Nsurl.PASSWORD, Nsurl.FRAGMENT]

/-- A walk goes on as before when a path is added, but for the host of the path. -/
theorem walk_addPath {parts others : List Bytes} {scheme : LwcString} {port : Nat} {path : Bytes}
    {change : PathData → PathData} {walked : List HostData}
    (found : db.hosts.walk others = some walked) :
    (addPath parts scheme port path change db).hosts.walk others =
      some (alter HostData.isNamed (HostData.addPath scheme port path change) parts walked) := by
  apply Hosts.walk_modifyAt _ found
  intro h
  rfl

/-- The host of an added path gets the path. -/
theorem walk_addPath_self {parts : List Bytes} {scheme : LwcString} {port : Nat} {path : Bytes}
    {change : PathData → PathData} {above : List HostData} {h : HostData}
    (found : db.hosts.walk parts = some (above ++ [h])) :
    (addPath parts scheme port path change db).hosts.walk parts =
      some (above ++ [h.addPath scheme port path change]) := by
  rw [walk_addPath found, alter_of_forall₂ (forall₂_walk found)]

theorem isAt_setUrl (url : Nsurl) (scheme : LwcString) (port : Nat) (segment : Bytes)
    (d : PathData) : (setUrl url d).isAt scheme port segment = d.isAt scheme port segment := by
  unfold setUrl
  split <;> rfl

theorem matches_setUrl (url : Nsurl) (scheme : LwcString) (port : Nat) (segment : Bytes)
    (d : PathData) : (setUrl url d).matches scheme port segment = d.matches scheme port segment := by
  unfold setUrl
  split <;> rfl

/-- What a lookup of a URL shows that was just added: the hosts on the way to its own, which
now has its path, and the levels along the path. -/
theorem findUrl_addUrl_shape {url : Nsurl} {scheme : LwcString} {host path : Bytes}
    (sound : Sound env db) (scheme_eq : url.components.scheme = some scheme)
    (host_eq : hostStr url = some host) (path_eq : pathQuery url = some path)
    (web : scheme ≠ str "mailto") (small : portInt url < 2 ^ 16) (slash : byteAt path 0 = chr '/')
    (findable : Findable env host) :
    ∃ above h nodes d,
      (addHost env (bloomInsert db url.hash) host).hosts.walk (hostParts env host) =
        some (above ++ [h]) ∧
      ((∃ before, db.hosts.walk (hostParts env host) = some (before ++ [h])) ∨
        ∃ part, h = { part }) ∧
      (h.addPath scheme (portInt url) path (setUrl url)).paths.walk
        (PathData.isAt scheme (portInt url)) (segments path) = some (nodes ++ [setUrl url d]) ∧
      ((∃ before, h.paths.walk (PathData.isAt scheme (portInt url)) (segments path) =
        some (before ++ [d])) ∨ d.url = none) ∧
      findUrl env (addUrl env db url).1 url =
        some ⟨above ++ [h.addPath scheme (portInt url) path (setUrl url)], setUrl url d,
          (levelsOf scheme (portInt url) none (segments path)
            (h.addPath scheme (portInt url) path (setUrl url)).paths).reverse⟩ := by
  rw [addUrl_eq scheme_eq host_eq path_eq]
  have sound_filter : Sound env (bloomInsert db url.hash) := sound_bloomInsert url.hash sound
  obtain ⟨chain, searched, chain_eq⟩ := searchFind_addHost findable sound_filter
  obtain ⟨above, h, walked, old⟩ := walk_addHost_self env (bloomInsert db url.hash) host
  obtain ⟨segment, rest, split⟩ := segments_eq path
  have sorted : Paths.Ordered h.paths :=
    all_walk (indexed_addHost findable sound_filter.toIndexed).ordered walked h (by simp)
  obtain ⟨nodes, d, way, node⟩ := @Paths.walk_addPath_self scheme (portInt url) (setUrl url) h.paths
    segment rest (isAt_setUrl url scheme (portInt url))
  rw [← split] at way node
  refine ⟨above, h, nodes, d, walked, ?_, way, ?_, ?_⟩
  · rcases old with present | ⟨_, new⟩
    · exact Or.inl present
    · exact Or.inr new
  · rcases node with present | ⟨_, k, rfl⟩
    · exact Or.inl present
    · exact Or.inr rfl
  · have below : findPath (above ++ [h.addPath scheme (portInt url) path (setUrl url)]) scheme
        (portInt url) path = some ⟨above ++ [h.addPath scheme (portInt url) path (setUrl url)],
          setUrl url d, (levelsOf scheme (portInt url) none (segments path)
            (h.addPath scheme (portInt url) path (setUrl url)).paths).reverse⟩ := by
      apply findPath_eq_some.mpr
      refine ⟨rfl, slash, _, List.getLast?_concat, ?_⟩
      have shown : matchPath scheme (portInt url)
          ⟨none, (h.addPath scheme (portInt url) path (setUrl url)).paths⟩ []
          (h.addPath scheme (portInt url) path (setUrl url)).paths (segments path) = _ :=
        matchPath_levels (Paths.ordered_addPath (setUrl_segment url) sorted) way
      rw [narrow, Nat.mod_eq_of_lt small, shown, List.append_nil]
    refine findUrl_eq_some.mpr ⟨?_, scheme, host, chain, path, scheme_eq, web, host_eq, searched,
      ?_, path_eq, below⟩
    · change bloomSearch (addHost env (bloomInsert db url.hash) host) url.hash = true
      rw [bloomSearch, bloom_addHost]
      simp [bloomInsert]
    · rw [Hosts.walk_congr chain_eq]
      exact walk_addPath_self walked

/-- A fitting URL that was added is found with its own page. -/
theorem findUrl_addUrl {url : Nsurl} (sound : Sound env db) (fits : AddFits env db url)
    (added : (addUrl env db url).2 = true) :
    ∃ found page, findUrl env (addUrl env db url).1 url = some found ∧
      found.node.url = some page ∧ Nsurl.compare page url pageParts = true := by
  obtain ⟨scheme, host, path, scheme_eq, host_eq, path_eq⟩ := addUrl_cases added
  have web : scheme ≠ str "mailto" := by
    intro mail
    exact fits.scheme (by rw [scheme_eq, mail])
  obtain ⟨above, h, nodes, d, _, old, _, node, here⟩ := findUrl_addUrl_shape sound scheme_eq
    host_eq path_eq web fits.port (fits.path path path_eq) (fits.host host host_eq)
  cases url_eq : d.url with
  | none =>
      refine ⟨_, Nsurl.defragment url, here, ?_, compare_defragment url⟩
      simp [setUrl, url_eq]
  | some page =>
      refine ⟨_, page, here, ?_, ?_⟩
      · simp [setUrl, url_eq]
      · rcases node with ⟨nodes, there⟩ | fresh
        · rcases old with ⟨before, present⟩ | ⟨part, rfl⟩
          · exact fits.node d page
              ⟨scheme, host, path, before, h, nodes, scheme_eq, host_eq, path_eq, present, there⟩
              url_eq
          · obtain ⟨segment, rest, split⟩ := segments_eq path
            rw [split] at there
            obtain ⟨_, _, _, impossible, _⟩ := walk_cons.mp there
            cases impossible
        · rw [fresh] at url_eq
          cases url_eq

/-- A lookup below the host of an added path still succeeds, unless it is diverted. -/
theorem walk_setUrl {url : Nsurl} {scheme scheme' : LwcString} {port port' : Nat} {path : Bytes}
    {looked : List Bytes} {h : HostData} (sorted : Paths.Ordered h.paths)
    (present : (h.paths.walk (PathData.matches scheme' port') looked).isSome = true)
    (undiverted : scheme' = scheme → port' = port →
      Paths.diverts scheme port (segments path) looked h.paths = false) :
    ((h.addPath scheme port path (setUrl url)).paths.walk (PathData.matches scheme' port')
      looked).isSome = true := by
  rw [HostData.addPath]
  by_cases same : scheme' = scheme ∧ port' = port
  · obtain ⟨rfl, rfl⟩ := same
    exact Paths.walk_addPath sorted (matches_setUrl url scheme' port') present (undiverted rfl rfl)
  · change ((Paths.addPath scheme port (setUrl url) (segments path) h.paths).walk _ _).isSome = true
    rw [Paths.walk_addPath_other same (matches_setUrl url scheme' port')]
    exact present

/-- What was found before a fitting URL was added is still found. -/
theorem findUrl_addUrl_other {url other : Nsurl} (sound : Sound env db)
    (fits : AddFits env db url) (added : (addUrl env db url).2 = true)
    (present : (findUrl env db other).isSome = true) :
    (findUrl env (addUrl env db url).1 other).isSome = true := by
  obtain ⟨scheme, host, path, scheme_eq, host_eq, path_eq⟩ := addUrl_cases added
  rw [addUrl_eq scheme_eq host_eq path_eq]
  have sound_filter : Sound env (bloomInsert db url.hash) := sound_bloomInsert url.hash sound
  have indexed := indexed_addHost (fits.host host host_eq) sound_filter.toIndexed
  obtain ⟨found, here⟩ := Option.isSome_iff_exists.mp present
  obtain ⟨passes, scheme', host', chain, path', scheme_eq', mail, host_eq', searched, walked,
    path_eq', below⟩ := findUrl_eq_some.mp here
  have filter : bloomSearch (addHost env (bloomInsert db url.hash) host) other.hash = true := by
    rw [bloomSearch, bloom_addHost]
    cases bloom : db.bloom with
    | none => simp [bloomInsert, fits.filter bloom other present]
    | some bits =>
        rw [bloomSearch, bloom] at passes
        simp only [bloomInsert, bloom, Option.getD_some, List.contains_cons, Bool.or_eq_true]
        exact Or.inr passes
  obtain ⟨stored, chain_eq⟩ := searchFind_spec sound.toIndexed searched
  obtain ⟨chain', searched', chain_eq'⟩ := searchFind_isSome indexed (mem_addHost stored) chain_eq
  have walkedAfter : (addPath (hostParts env host) scheme (portInt url) path (setUrl url)
      (addHost env (bloomInsert db url.hash) host)).hosts.walk chain'.reverse =
        some (alter HostData.isNamed (HostData.addPath scheme (portInt url) path (setUrl url))
          (hostParts env host) found.hosts) := by
    apply walk_addPath
    rw [Hosts.walk_congr (chain_eq'.trans chain_eq.symm)]
    exact walk_addHost walked
  obtain ⟨slash, h, last, matched⟩ := findPath_isSome.mp (Option.isSome_iff_exists.mpr ⟨_, below⟩)
  have reached : (findPath (alter HostData.isNamed
      (HostData.addPath scheme (portInt url) path (setUrl url)) (hostParts env host) found.hosts)
      scheme' (portInt other) path').isSome = true := by
    apply findPath_isSome.mpr
    refine ⟨slash, ?_⟩
    by_cases along : List.Forall₂ (fun part h => HostData.isNamed part h = true)
        (hostParts env host) found.hosts
    · obtain ⟨above, same⟩ := List.getLast?_eq_some_iff.mp last
      have sorted : Paths.Ordered h.paths :=
        all_walk sound.ordered walked h (List.mem_of_getLast? last)
      refine ⟨h.addPath scheme (portInt url) path (setUrl url), ?_, ?_⟩
      · rw [same] at along ⊢
        rw [alter_of_forall₂ along, List.getLast?_concat]
      · refine walk_setUrl sorted matched fun scheme_same port_same => ?_
        rw [Bool.eq_false_iff]
        intro diverted
        refine fits.others other found here ⟨scheme, host, path, path', h, scheme_eq, ?_, host_eq,
          Hosts.folded_of_forall₂ along, port_same, path_eq, path_eq', last, diverted⟩
        rw [scheme_eq', scheme_same]
    · exact ⟨h, by rw [getLast?_alter along, last], matched⟩
  obtain ⟨found', below'⟩ := Option.isSome_iff_exists.mp reached
  have hosts' := (findPath_eq_some.mp below').1
  apply Option.isSome_iff_exists.mpr
  refine ⟨found', findUrl_eq_some.mpr ⟨filter, scheme', host', chain', path', scheme_eq', mail,
    host_eq', searched', ?_, path_eq', ?_⟩⟩
  · rw [hosts', walkedAfter]
  · rw [hosts', below']

/-- In every run that only adds fitting hosts, a fitting URL that is added is found with its
own page, and what was found before still is. -/
theorem addUrl_found {db : Database} (reached : Reachable env Fitting db) (now : Int) {url : Nsurl}
    (fits : AddFits (env.at now) db url) : AddFound (env.at now) db url := by
  have sound : Sound (env.at now) db := (sound_at now).mpr (sound_run reached)
  intro added
  exact ⟨findUrl_addUrl sound fits added, fun other => findUrl_addUrl_other sound fits added⟩

/-- The URL `http://h/x` may be added to the empty database. -/
theorem addUrl_found_empty : ∃ url, Nsurl.nsurlCreate (fun _ => 0) (str "http://h/x") = .ok url ∧
    (addUrl (plainEnvironment.at 100) {} url).2 = true ∧
      AddFound (plainEnvironment.at 100) {} url := by
  have created : ∃ url, Nsurl.nsurlCreate (fun _ => 0) (str "http://h/x") = .ok url ∧
      url.components.scheme ≠ some (str "mailto") ∧ portInt url < 2 ^ 16 ∧
      pathQuery url = some (str "/x") ∧ hostStr url = some (str "h") ∧
      (addUrl (plainEnvironment.at 100) {} url).2 = true :=
    ⟨_, rfl, by decide, by decide, rfl, rfl, rfl⟩
  obtain ⟨url, done, scheme, port, path_eq, host_eq, added⟩ := created
  have nothing (other : Nsurl) (found : Found) :
      findUrl (plainEnvironment.at 100) {} other ≠ some found := by
    intro here
    obtain ⟨_, _, _, _, _, _, _, _, impossible, _⟩ := findUrl_eq_some.mp here
    cases impossible
  have fits : AddFits (plainEnvironment.at 100) {} url :=
    { scheme, port
      path := fun path same => by
        rw [path_eq, Option.some.injEq] at same
        rw [← same]
        decide
      host := fun host same => by
        rw [host_eq, Option.some.injEq] at same
        rw [← same]
        exact Or.inr ⟨by decide, by decide⟩
      node := fun d page placed _ => by
        obtain ⟨_, host, _, hosts, h, _, _, _, _, impossible, _⟩ := placed
        cases parts : hostParts (plainEnvironment.at 100) host with
        | nil => exact absurd parts (hostParts_ne_nil host)
        | cons part rest =>
            rw [parts] at impossible
            obtain ⟨_, _, _, impossible, _⟩ := walk_cons.mp impossible
            cases impossible
      filter := fun _ other present => by
        obtain ⟨found, here⟩ := Option.isSome_iff_exists.mp present
        exact absurd here (nothing other found)
      others := fun other found here => absurd here (nothing other found) }
  exact ⟨url, done, added, addUrl_found .empty 100 fits⟩

/-- A cookie of `http://h/x/y` with the path `/x` leaves its page at the node of `http://h/x`. -/
theorem addUrl_finds_page : ∃ page url db,
    Nsurl.nsurlCreate (fun _ => 0) (str "http://h/x/y") = .ok page ∧
      Nsurl.nsurlCreate (fun _ => 0) (str "http://h/x") = .ok url ∧
      setCookie plainEnvironment {} (str "a=b; Path=/x") page none = .done db true ∧
      Reachable plainEnvironment (fun _ _ _ => True) db ∧
      (addUrl plainEnvironment db url).2 = true ∧ ¬ AddFound plainEnvironment db url := by
  have computed : ∃ page url, Nsurl.nsurlCreate (fun _ => 0) (str "http://h/x/y") = .ok page ∧
      Nsurl.nsurlCreate (fun _ => 0) (str "http://h/x") = .ok url ∧
      (setCookie plainEnvironment {} (str "a=b; Path=/x") page none).check (fun db =>
        (addUrl plainEnvironment db url).2 &&
        (findUrl plainEnvironment (addUrl plainEnvironment db url).1 url).all fun found =>
          found.node.url.all fun page => !Nsurl.compare page url pageParts) = true :=
    ⟨_, _, rfl, rfl, by decide⟩
  obtain ⟨page, url, created, other, checked⟩ := computed
  obtain ⟨db, done, checked⟩ := SetResult.check_eq_true checked
  rw [Bool.and_eq_true] at checked
  obtain ⟨added, differs⟩ := checked
  refine ⟨page, url, db, created, other, done, reachable_setCookie done, added, fun found => ?_⟩
  obtain ⟨found, stored, here, url_eq, same⟩ := (found added).1
  rw [here, Option.all_some, url_eq, Option.all_some, same] at differs
  cases differs

end Neosurf.Urldb
