import Neosurf.Proof.Urldb.Stowed
import Neosurf.Proof.Urldb.SearchTrees
import Neosurf.Proof.Urldb.UrlRecords
import Neosurf.ToMathlib.SiblingTree.Places

namespace Neosurf.Urldb

open SiblingTree

variable {env : Environment} {db : Database}

/-- This is the place of a URL: the labels on the way to it spell the host, whatever the case of
their letters, and the keys name the scheme, the port and the path with its query. -/
def NodePlace.IsOf (url : Nsurl) (place : NodePlace) : Prop :=
  ∃ scheme host path names, url.components.scheme = some scheme ∧ hostStr url = some host ∧
    pathQuery url = some path ∧ [chr '.'].intercalate place.parts.reverse = folded host ∧
    path = str "/" ++ [chr '/'].intercalate names ∧
    place.keys = names.map fun segment => (scheme, portInt url, segment)

/-- Every URL is stored at its own place. -/
def OwnUrls (db : Database) : Prop :=
  db.hosts.AllAt (fun h => folded h.part) (fun parts h => h.paths.AllAt PathData.key
    (fun keys d => ∀ url, d.url = some url → (⟨parts, keys⟩ : NodePlace).IsOf url) []) []

/-- The node at the end of a path below a host has a URL. -/
def HasUrl (db : Database) (parts : List Bytes) (scheme : LwcString) (port : Nat) (path : Bytes) :
    Prop :=
  ∃ above h nodes d, db.hosts.walk parts = some (above ++ [h]) ∧
    h.paths.walk (PathData.isAt scheme port) (segments path) = some (nodes ++ [d]) ∧ d.url ≠ none

/-- A host is entered under its whole name. -/
def EnteredWhole (env : Environment) (host : Bytes) : Prop :=
  hostIsIpAddress env host = true ∨ host.length < 256

/-- A URL that is added has a host that is entered under its whole name and a path from the
root, or its node has a URL. -/
def UrlOwns (env : Environment) (db : Database) (url : Nsurl) : Prop :=
  ∀ scheme host path, url.components.scheme = some scheme → hostStr url = some host →
    pathQuery url = some path → EnteredWhole env host ∧ byteAt path 0 = chr '/' ∨
      HasUrl db (hostParts env host) scheme (portInt url) path

/-- The host of a cookie is found under its name alone, or it is entered under its whole name. -/
def HostOwns (env : Environment) (db : Database) (host : Bytes) : Prop :=
  match searchFind env db host with
  | some chain => hostIsIpAddress env host = true → chain.length = 1
  | none => EnteredWhole env host

/-- A cookie is for a domain, or its host and its path are those of its page, which has no port,
or its node has a URL. -/
def CookieOwns (env : Environment) (scheme : LwcString) (page : Nsurl) (db : Database) (c : Cookie) :
    Prop :=
  byteAt c.domain 0 = chr '.' ∨
    (page.components.scheme = some scheme ∧ (∃ host, hostStr page = some host ∧
      folded host = folded c.domain) ∧ portInt page = 0 ∧ pathQuery page = some c.path ∧
      byteAt c.path 0 = chr '/' ∧ HostOwns env db c.domain) ∨
    HasUrl db (findOrAddHost env db c.domain).2 scheme 0 c.path

/-- So are the cookies that are stored one after the other. -/
def CookiesOwn (env : Environment) (scheme : LwcString) (page : Nsurl) : List Cookie → Database → Prop
  | [], _ => True
  | c :: rest, db =>
      CookieOwns env scheme page db c ∧ CookiesOwn env scheme page rest (insertCookie env db c scheme page)

/-- A referrer has a host that is accepted. -/
def RefererAccepted (env : Environment) (host : Bytes) (referer : Option Nsurl) : Prop :=
  ∀ page, referer = some page →
    ∃ rhost, page.components.host = some rhost ∧ refererMatches env host rhost = true

/-- An operation stores URLs at their own places only. -/
def Owning (env : Environment) (db : Database) : Operation → Prop
  | .addUrl url => UrlOwns env db url
  | .getCookie url _ => UrlOwns env db url
  | .setCookie header url referer => ∀ scheme host path, url.components.scheme = some scheme →
      url.components.host = some host → url.components.path = some path →
      RefererAccepted env host referer → CookiesOwn env scheme (Nsurl.defragment url)
        (storedCookies env url host path (header.length + 1) header) db
  | .loadUrl junk host scheme ports rest => ∀ url path,
      Nsurl.nsurlCreate junk (loadedText host scheme ports rest) = .ok url →
      pathQuery url = some path →
      (∃ own, hostStr url = some own ∧ folded own = folded host) ∧ EnteredWhole env host ∧
        portInt url = (atoi ports % 2 ^ 32).toNat ∧ byteAt path 0 = chr '/' ∨
      ∀ scheme, url.components.scheme = some scheme →
        HasUrl db (hostParts env host) scheme (atoi ports % 2 ^ 32).toNat path
  | .loadCookie c scheme page => CookieOwns env scheme page db c
  | op => ∀ url, op.noteUrl = some url → UrlOwns env db url

theorem defragment_components (url : Nsurl) : (Nsurl.defragment url).components =
    { url.components with fragment := (Nsurl.defragment url).components.fragment } := by
  unfold Nsurl.defragment
  dsimp only
  split <;> rfl

/-- Only the path and the query are among the parts of the database. -/
theorem getStringFlags_pathQuery (c : NsurlComponents) :
    Nsurl.getStringFlags c (Nsurl.PATH ||| Nsurl.QUERY) =
      { scheme := false, schemePunctuation := false, authorityPunctuation := false,
        username := false, password := false, credentialsPunctuation := false, host := false,
        port := false, path := c.path.isSome, queryPunctuation := c.path.isSome && c.query.isSome,
        query := c.query.isSome, fragmentPunctuation := false, fragment := false } := by
  have scheme : Nsurl.wants (Nsurl.PATH ||| Nsurl.QUERY) Nsurl.SCHEME = false := rfl
  have username : Nsurl.wants (Nsurl.PATH ||| Nsurl.QUERY) Nsurl.USERNAME = false := rfl
  have password : Nsurl.wants (Nsurl.PATH ||| Nsurl.QUERY) Nsurl.PASSWORD = false := rfl
  have host : Nsurl.wants (Nsurl.PATH ||| Nsurl.QUERY) Nsurl.HOST = false := rfl
  have port : Nsurl.wants (Nsurl.PATH ||| Nsurl.QUERY) Nsurl.PORT = false := rfl
  have path : Nsurl.wants (Nsurl.PATH ||| Nsurl.QUERY) Nsurl.PATH = true := rfl
  have query : Nsurl.wants (Nsurl.PATH ||| Nsurl.QUERY) Nsurl.QUERY = true := rfl
  have fragment : Nsurl.wants (Nsurl.PATH ||| Nsurl.QUERY) Nsurl.FRAGMENT = false := rfl
  simp only [Nsurl.getStringFlags, scheme, username, password, host, port, path, query, fragment,
    Bool.and_false, Bool.and_true, Bool.false_and, Bool.false_or]

/-- The path with its query only depends on the path and the query. -/
theorem pathQuery_congr {url other : Nsurl} (path : url.components.path = other.components.path)
    (query : url.components.query = other.components.query) : pathQuery url = pathQuery other := by
  simp only [pathQuery, Nsurl.get, Nsurl.componentsToString, getStringFlags_pathQuery,
    Nsurl.getStringLength, Nsurl.getString, Nsurl.pieceLength, Nsurl.piece, Bool.false_eq_true,
    if_false, path, query]
theorem isOf_defragment {url : Nsurl} {place : NodePlace} (own : place.IsOf url) :
    place.IsOf (Nsurl.defragment url) := by
  obtain ⟨scheme, host, path, names, scheme_eq, host_eq, path_eq, own⟩ := own
  have parts := defragment_components url
  refine ⟨scheme, host, path, names, ?_, ?_, ?_, ?_⟩
  · rw [parts]
    exact scheme_eq
  · rw [← host_eq, hostStr, hostStr, parts]
  · rw [← path_eq]
    apply pathQuery_congr
    · rw [parts]
    · rw [parts]
  · rw [portInt, parts]
    exact own

/-- The labels of a host that is entered under its whole name spell it. -/
theorem text_hostParts {host : Bytes} (whole : EnteredWhole env host) :
    [chr '.'].intercalate ((hostParts env host).map folded).reverse = folded host := by
  have looked : hostParts env host = lookedParts env host := by
    rw [hostParts, lookedParts]
    split
    · rfl
    · rename_i name
      rw [List.take_of_length_le (Nat.le_of_lt_succ (whole.resolve_left name))]
  rw [looked, ← List.map_reverse, ← folded_intercalate, intercalate_lookedParts]

/-- A path from the root is spelt by its segments. -/
theorem text_segments {path : Bytes} (root : byteAt path 0 = chr '/') :
    path = str "/" ++ [chr '/'].intercalate (segments path) := by
  rw [segments, if_pos root, List.intercalate_splitOn]
  cases path with
  | nil => cases root
  | cons c rest =>
      have first : c = chr '/' := root
      rw [first]
      rfl

/-- What the search for the host of a cookie ends at spells it. -/
theorem text_findOrAddHost {host : Bytes} (owns : HostOwns env db host) :
    [chr '.'].intercalate ((findOrAddHost env db host).2.map folded).reverse = folded host := by
  unfold findOrAddHost
  unfold HostOwns at owns
  cases found : searchFind env db host with
  | none =>
      rw [found] at owns
      exact text_hostParts owns
  | some chain =>
      rw [found] at owns
      have same := (AATree.find_eq_some found).2
      dsimp only
      rw [← List.map_reverse, List.reverse_reverse, ← folded_intercalate]
      rw [searchMatchString] at same
      split at same
      · rename_i address
        obtain ⟨label, rfl⟩ := List.length_eq_one_iff.mp (owns address)
        rw [List.intercalate_singleton]
        exact strcasecmp_eq_iff.mp same
      · rw [folded_intercalate, searchMatchHost_eq_iff.mp same, ← folded_intercalate,
          List.intercalate_splitOn]

theorem isOf_urlPlace {url : Nsurl} {scheme : LwcString} {host path : Bytes}
    (scheme_eq : url.components.scheme = some scheme) (host_eq : hostStr url = some host)
    (path_eq : pathQuery url = some path) (whole : EnteredWhole env host)
    (root : byteAt path 0 = chr '/') : NodePlace.IsOf url ⟨(hostParts env host).map folded,
      (segments path).map fun segment => (scheme, portInt url, segment)⟩ :=
  ⟨scheme, host, path, segments path, scheme_eq, host_eq, path_eq, text_hostParts whole,
    text_segments root, rfl⟩

theorem first_eq_ensure {scheme : LwcString} {port : Nat} (segment : Bytes) (t : Paths)
    (present : (t.first (PathData.isAt scheme port segment)).isSome = true) :
    Paths.ensure scheme port segment t = t := by
  rw [Paths.ensure, has_eq_isSome, if_pos present]

/-- A URL that is stored at its own place, or not stored at all, leaves all URLs at their own
places. -/
theorem ownUrls_addPath {parts : List Bytes} {scheme : LwcString} {port : Nat} {path : Bytes}
    {change : PathData → PathData} {url : Nsurl} (kept : ∀ d, (change d).key = d.key)
    (changed : ∀ d, (change d).url = (setUrl url d).url)
    (owns : NodePlace.IsOf url ⟨parts.map folded,
      (segments path).map fun segment => (scheme, port, segment)⟩ ∨ HasUrl db parts scheme port path)
    (own : OwnUrls db) : OwnUrls (addPath parts scheme port path change db) := by
  have name (h : HostData) : folded (h.addPath scheme port path change).part = folded h.part := rfl
  rcases owns with owns | ⟨above, h, nodes, d, walked, below, filled⟩
  · refine allAt_extend parts part_of_isNamed name (fun _ _ _ _ known => known) ?_ own
    intro h known
    refine allAt_extend (segments path) key_of_isAt kept ?_ ?_ known
    · intro dirs segment t _ known
      rw [Paths.ensure]
      split
      · exact known
      · apply Paths.allAt_addNode _ known
        intro url impossible
        cases impossible
    · intro d known page stored
      rw [changed, setUrl] at stored
      split at stored
      · cases stored
        exact isOf_defragment owns
      · exact known page stored
  · refine allAt_extend_present part_of_isNamed name (fun _ _ _ => rfl) walked ?_ own
    intro known
    refine allAt_extend_present key_of_isAt kept first_eq_ensure below ?_ known
    intro known page stored
    rw [changed, setUrl, if_neg filled] at stored
    exact known page stored

theorem ownUrls_modifyAt {change : HostData → HostData} {parts : List Bytes}
    (kept : ∀ h, (change h).part = h.part)
    (paths : ∀ h, (change h).paths = h.paths) (own : OwnUrls db) :
    OwnUrls { db with hosts := db.hosts.modifyAt change parts } := by
  refine allAt_extend_kept parts (fun h => congrArg folded (kept h)) ?_ own
  intro place h known
  rw [paths]
  exact known

theorem ownUrls_addHost (host : Bytes) (own : OwnUrls db) : OwnUrls (addHost env db host) := by
  unfold addHost
  dsimp only
  split
  · exact own
  · refine allAt_extend (hostParts env host) part_of_isNamed (fun _ => rfl) ?_ (fun _ known => known)
      own
    intro above part t _ known
    rw [Hosts.ensure]
    split
    · exact known
    · exact ⟨trivial, trivial, known⟩

theorem hasUrl_addHost {host : Bytes} {parts : List Bytes} {scheme : LwcString} {port : Nat}
    {path : Bytes} (here : HasUrl db parts scheme port path) :
    HasUrl (addHost env db host) parts scheme port path := by
  obtain ⟨above, h, nodes, d, walked, below⟩ := here
  exact ⟨above, h, nodes, d, walk_addHost walked, below⟩

theorem ownUrls_addUrl {url : Nsurl} (owns : UrlOwns env db url) (own : OwnUrls db) :
    OwnUrls (addUrl env db url).1 := by
  unfold addUrl
  dsimp only
  split
  · rename_i path scheme host path_eq scheme_eq host_eq
    apply ownUrls_addPath (key_setUrl url) (fun _ => rfl) _
      (@ownUrls_addHost env (bloomInsert db url.hash) host own)
    rcases owns scheme host path scheme_eq host_eq path_eq with ⟨whole, root⟩ | here
    · exact Or.inl (isOf_urlPlace scheme_eq host_eq path_eq whole root)
    · exact Or.inr (@hasUrl_addHost env (bloomInsert db url.hash) _ _ _ _ _ here)
  · exact own

theorem ownUrls_findOrAddHost (host : Bytes) (own : OwnUrls db) :
    OwnUrls (findOrAddHost env db host).1 := by
  unfold findOrAddHost
  split
  · exact own
  · exact ownUrls_addHost host own

theorem hasUrl_findOrAddHost {host : Bytes} {parts : List Bytes} {scheme : LwcString} {port : Nat}
    {path : Bytes} (here : HasUrl db parts scheme port path) :
    HasUrl (findOrAddHost env db host).1 parts scheme port path := by
  unfold findOrAddHost
  split
  · exact here
  · exact hasUrl_addHost here

theorem ownUrls_insertCookie {c : Cookie} {scheme : LwcString} {page : Nsurl}
    (owns : CookieOwns env scheme page db c) (own : OwnUrls db) :
    OwnUrls (insertCookie env db c scheme page) := by
  unfold insertCookie
  dsimp only
  split
  · apply ownUrls_modifyAt _ _ (ownUrls_findOrAddHost _ own)
    · intro h
      rfl
    · intro h
      rfl
  · rename_i noDot
    refine @ownUrls_addPath _ _ _ _ _ _ page (key_setUrl page) (fun _ => rfl) ?_
      (ownUrls_findOrAddHost _ own)
    rcases owns.resolve_left noDot with
      ⟨scheme_eq, ⟨host, host_eq, same⟩, port_eq, path_eq, root, found⟩ | here
    · refine Or.inl ⟨scheme, host, c.path, segments c.path, scheme_eq, host_eq, path_eq, ?_,
        text_segments root, by rw [port_eq]⟩
      rw [same]
      exact text_findOrAddHost found
    · exact Or.inr (hasUrl_findOrAddHost here)

theorem ownUrls_insertCookies {cookies : List Cookie} {scheme : LwcString} {page : Nsurl}
    (owns : CookiesOwn env scheme page cookies db) (own : OwnUrls db) :
    OwnUrls (cookies.foldl (fun db c => insertCookie env db c scheme page) db) := by
  induction cookies generalizing db with
  | nil => exact own
  | cons c rest ih => exact ih owns.2 (ownUrls_insertCookie owns.1 own)

/-- The loop over the cookies of a header stores them one after the other. -/
theorem setCookies_eq_foldl {url : Nsurl} {scheme host path : Bytes} {rounds : Nat} {cur : Bytes}
    {after : Database} {answer : Bool}
    (done : setCookies env url scheme host path rounds cur db = .done after answer) :
    after = (storedCookies env url host path rounds cur).foldl
      (fun db c => insertCookie env db c scheme (Nsurl.defragment url)) db := by
  induction rounds generalizing cur db with
  | zero => cases done
  | succ rounds ih =>
      rw [setCookies] at done
      rw [storedCookies]
      cases parsed : parseCookie env url cur with
      | none =>
          simp only [parsed] at done
          cases done
          rfl
      | some pair =>
          obtain ⟨c, rest⟩ := pair
          simp only [parsed] at done ⊢
          split at done
          · rename_i valid
            rw [if_pos valid, List.foldl_cons]
            split at done
            · rename_i last
              cases done
              rw [if_pos last]
              rfl
            · rename_i more
              rw [if_neg more]
              split at done
              · cases done
              · exact ih done
          · rename_i invalid
            cases done
            rw [if_neg invalid]
            rfl

/-- A call of `urldb_set_cookie` changes nothing, or it stores its cookies one after the other. -/
theorem setCookie_eq_foldl {header : Bytes} {url : Nsurl} {referer : Option Nsurl}
    {after : Database} {answer : Bool}
    (done : setCookie env db header url referer = .done after answer) :
    after = db ∨ ∃ scheme host path, url.components.scheme = some scheme ∧
      url.components.host = some host ∧ url.components.path = some path ∧
      RefererAccepted env host referer ∧
      after = (storedCookies env url host path (header.length + 1) header).foldl
        (fun db c => insertCookie env db c scheme (Nsurl.defragment url)) db := by
  unfold setCookie at done
  split at done
  · rename_i scheme path host scheme_eq path_eq host_eq
    cases referer with
    | none =>
        refine Or.inr ⟨scheme, host, path, scheme_eq, host_eq, path_eq, ?_, setCookies_eq_foldl done⟩
        intro page impossible
        cases impossible
    | some page =>
        cases rhost_eq : page.components.host with
        | none =>
            simp only [rhost_eq] at done
            cases done
            exact Or.inl rfl
        | some rhost =>
            simp only [rhost_eq] at done
            by_cases accepted : refererMatches env host rhost = true
            · rw [if_pos accepted] at done
              refine Or.inr ⟨scheme, host, path, scheme_eq, host_eq, path_eq, ?_,
                setCookies_eq_foldl done⟩
              rintro other ⟨⟩
              exact ⟨rhost, rhost_eq, accepted⟩
            · rw [if_neg accepted] at done
              cases done
              exact Or.inl rfl
  · cases done
    exact Or.inl rfl

theorem ownUrls_deleteCookie (domain path name : Bytes) (own : OwnUrls db) :
    OwnUrls (deleteCookie db domain path name) := by
  have kept (h : HostData) : folded (h.deleteCookie domain path name).part = folded h.part := by
    rw [Hosts.part_deleteCookie]
  change (db.hosts.deleteCookie domain path name).AllAt _ _ []
  rw [Hosts.deleteCookie_eq_map]
  refine allAt_mapTree kept ?_ own
  intro parts h known
  rw [HostData.deleteCookie]
  split
  · exact known
  · cases done : h.paths.deleteCookie domain path name with
    | none => exact known
    | some after => exact Paths.allAt_deleteCookie (fun _ _ _ known _ => known) known done

theorem ownUrls_annotated {after : Database} (own : OwnUrls db) (noted : Annotated db after) :
    OwnUrls after := by
  obtain ⟨change, parts, annotation, rfl⟩ := noted
  obtain ⟨test, changeNode, keys, node, paths⟩ := annotation.paths
  refine allAt_extend_kept parts (fun h => congrArg folded <| annotation.part h) ?_ own
  intro place h known
  rw [paths]
  refine allAt_extend_kept keys ?_ ?_ known
  · intro d
    rw [PathData.key, PathData.key, node.scheme, node.port, node.segment]
  · intro path d known url stored
    rw [node.url] at stored
    exact known url stored

/-- A step that stores URLs at their own places leaves all URLs at their own places. -/
theorem ownUrls_step {op : Operation} {after : Database} (owning : Owning env db op)
    (own : OwnUrls db) (done : step env db op = some after) : OwnUrls after := by
  cases op with
  | addUrl url =>
      cases done
      exact ownUrls_addUrl owning own
  | getCookie url includeHttpOnly =>
      cases done
      exact ownUrls_addUrl owning own
  | setCookie header url referer =>
      rw [step] at done
      cases answer : setCookie env db header url referer with
      | done db answered =>
          simp only [answer] at done
          cases done
          rcases setCookie_eq_foldl answer with
            rfl | ⟨scheme, host, path, scheme_eq, host_eq, path_eq, accepted, rfl⟩
          · exact own
          · exact ownUrls_insertCookies (owning scheme host path scheme_eq host_eq path_eq accepted)
              own
      | diverges => simp [answer] at done
  | deleteCookie domain path name =>
      cases done
      exact ownUrls_deleteCookie domain path name own
  | loadFilter =>
      cases done
      exact own
  | loadHost host =>
      cases done
      exact ownUrls_addHost host own
  | loadUrl junk host scheme ports rest =>
      cases done
      have added := @ownUrls_addHost env db host own
      unfold loadUrl
      split
      · exact added
      · rename_i url created
        dsimp only
        split
        · rename_i path own_scheme path_eq scheme_eq
          apply ownUrls_addPath (key_setUrl url) (fun _ => rfl) _ added
          rcases owning url path created path_eq with ⟨⟨name, name_eq, same⟩, whole, port, root⟩ | here
          · refine Or.inl ⟨own_scheme, name, path, segments path, scheme_eq, name_eq, path_eq, ?_,
              text_segments root, by rw [port]⟩
            rw [same]
            exact text_hostParts whole
          · exact Or.inr (hasUrl_addHost (here own_scheme scheme_eq))
        · exact added
  | loadCookie c scheme page =>
      cases done
      exact ownUrls_insertCookie owning own
  | destroy =>
      cases done
      exact trivial
  | setAuthDetails | getAuthDetails | setCertPermissions | setHstsPolicy | getHstsEnabled
  | changeUrl | loadHsts | loadUrlData =>
      rcases annotated_step (by exact trivial) done with noted | ⟨url, added, noted⟩
      · exact ownUrls_annotated own noted
      · exact ownUrls_annotated (ownUrls_addUrl (owning url added) own) noted

/-- In every run whose steps store URLs at their own places, each node with a URL is at the place
of that URL. -/
theorem ownUrls_run (reached : Reachable env Owning db) : OwnUrls db := by
  induction reached with
  | empty => exact trivial
  | step now op before owning done ih => exact ownUrls_step owning ih done

/-- The URL `http://h/a` that was added is at its own place. -/
theorem ownUrls_run_added : ∃ url, Nsurl.nsurlCreate (fun _ => 0) (str "http://h/a") = .ok url ∧
    OwnUrls (addUrl plainEnvironment {} url).1 := by
  have computed : ∃ url, Nsurl.nsurlCreate (fun _ => 0) (str "http://h/a") = .ok url ∧
      hostStr url = some (str "h") ∧ pathQuery url = some (str "/a") := ⟨_, rfl, rfl, rfl⟩
  obtain ⟨url, created, host_eq, path_eq⟩ := computed
  refine ⟨url, created, @ownUrls_run plainEnvironment _ (.step 100 (.addUrl url) .empty ?_ rfl)⟩
  intro scheme host path _ same same_path
  rw [host_eq, Option.some.injEq] at same
  rw [path_eq, Option.some.injEq] at same_path
  rw [← same, ← same_path]
  exact Or.inl ⟨Or.inr (by decide), by decide⟩

/-- A cookie of `http://h/x` leaves this URL at the place of `http://h/`. -/
theorem setCookie_misplaces : ∃ page db,
    Nsurl.nsurlCreate (fun _ => 0) (str "http://h/x") = .ok page ∧
      setCookie plainEnvironment {} (str "a=b") page none = .done db true ∧
      Reachable plainEnvironment (fun _ _ _ => True) db ∧ ¬ OwnUrls db := by
  have computed : ∃ page, Nsurl.nsurlCreate (fun _ => 0) (str "http://h/x") = .ok page ∧
      (setCookie plainEnvironment {} (str "a=b") page none).check (fun db =>
        (db.hosts.nodesAt (fun h => folded h.part) []).any fun x =>
          (x.2.paths.nodesAt PathData.key []).any fun y => y.1 == [(str "http", 0, [])] &&
            y.2.url.any fun url => pathQuery url == some (str "/x")) = true :=
    ⟨_, rfl, by decide⟩
  obtain ⟨page, created, checked⟩ := computed
  obtain ⟨db, done, checked⟩ := SetResult.check_eq_true checked
  refine ⟨page, db, created, done, reachable_setCookie done, fun own => ?_⟩
  obtain ⟨⟨parts, h⟩, host, checked⟩ := List.any_eq_true.mp checked
  obtain ⟨⟨keys, d⟩, node, checked⟩ := List.any_eq_true.mp checked
  rw [Bool.and_eq_true, beq_iff_eq] at checked
  obtain ⟨keys_eq, checked⟩ := checked
  dsimp only at keys_eq checked
  obtain ⟨url, stored, checked⟩ := (Option.any_eq_true _ _).mp checked
  obtain ⟨_, _, path, names, _, _, path_eq, _, text, place⟩ :=
    allAt_iff.mp (allAt_iff.mp own _ host) _ node url stored
  rw [beq_iff_eq, path_eq, Option.some.injEq] at checked
  dsimp only at place
  rw [keys_eq] at place
  obtain ⟨name, rfl⟩ : ∃ name, names = [name] := by
    apply List.length_eq_one_iff.mp
    have size := congrArg List.length place
    rw [List.length_map] at size
    exact size.symm
  rw [List.map_singleton, List.singleton_inj, Prod.mk.injEq, Prod.mk.injEq] at place
  rw [checked, ← place.2.2] at text
  exact absurd text (by decide)

end Neosurf.Urldb
