import Neosurf.Proof.Urldb.StoredCookies

namespace Neosurf.Urldb

section FindUrl

variable {env : Environment} {db : Database}

/-- A lookup below a host walks down the path tree of the last part. -/
theorem findPath_eq_some {hosts : List HostData} {scheme : LwcString} {port : Nat} {path : Bytes}
    {found : Found} : findPath hosts scheme port path = some found ↔
      found.hosts = hosts ∧ byteAt path 0 = chr '/' ∧ ∃ host, hosts.getLast? = some host ∧
        matchPath scheme (narrow port) ⟨none, host.paths⟩ [] host.paths (segments path) =
          some (found.node, found.levels) := by
  unfold findPath
  cases last : hosts.getLast? with
  | none => simp
  | some host =>
      by_cases slash : byteAt path 0 = chr '/'
      · cases step : matchPath scheme (narrow port) ⟨none, host.paths⟩ [] host.paths
            (segments path) with
        | none => simp [step, slash]
        | some pair =>
            obtain ⟨node, levels⟩ := pair
            obtain ⟨foundHosts, foundNode, foundLevels⟩ := found
            simp only [Option.bind_eq_bind, Option.bind_some, slash, ne_eq, not_true_eq_false,
              if_false, step, Option.some.injEq, Found.mk.injEq, true_and, exists_eq_left',
              Prod.mk.injEq]
            constructor
            · rintro ⟨rfl, rfl, rfl⟩
              exact ⟨rfl, rfl, rfl⟩
            · rintro ⟨rfl, rfl, rfl⟩
              exact ⟨rfl, rfl, rfl⟩
      · simp [slash]

/-- A URL is found when the filter lets it pass, its host is found, and its path below it. -/
theorem findUrl_eq_some {url : Nsurl} {found : Found} : findUrl env db url = some found ↔
    bloomSearch db url.hash = true ∧ ∃ scheme host chain path, url.components.scheme = some scheme ∧
      scheme ≠ str "mailto" ∧ hostStr url = some host ∧ searchFind env db host = some chain ∧
      db.hosts.walk chain.reverse = some found.hosts ∧ pathQuery url = some path ∧
      findPath found.hosts scheme (portInt url) path = some found := by
  unfold findUrl
  by_cases passes : bloomSearch db url.hash = true
  · rw [if_neg (by rw [passes]; decide)]
    simp only [passes, true_and, Option.bind_eq_bind]
    cases url.components.scheme with
    | none => simp
    | some scheme =>
        by_cases mail : scheme = str "mailto"
        · simp [mail]
        · simp only [Option.bind_some, mail, if_false, Option.bind_eq_some_iff]
          constructor
          · rintro ⟨host, host_eq, chain, chain_eq, hosts, hosts_eq, path, path_eq, done⟩
            have same := (findPath_eq_some.mp done).1
            subst same
            exact ⟨scheme, host, chain, path, rfl, mail, host_eq, chain_eq, hosts_eq, path_eq, done⟩
          · rintro ⟨_, host, chain, path, ⟨⟩, _, host_eq, chain_eq, hosts_eq, path_eq, done⟩
            exact ⟨host, host_eq, chain, chain_eq, found.hosts, hosts_eq, path, path_eq, done⟩
  · rw [Bool.not_eq_true] at passes
    simp [passes]

/-- What a lookup shows is in the database. -/
theorem findUrl_all {P : HostData → Prop} {D : PathData → Prop} {url : Nsurl} {found : Found}
    (all : db.hosts.All fun h => P h ∧ h.paths.All D) (done : findUrl env db url = some found) :
    (∀ h ∈ found.hosts, P h) ∧ D found.node ∧ ∀ level ∈ found.levels, level.All D := by
  obtain ⟨_, scheme, host, chain, path, _, _, _, _, walked, _, below⟩ := findUrl_eq_some.mp done
  obtain ⟨_, _, leaf, last, matched⟩ := findPath_eq_some.mp below
  have hosts := SiblingTree.all_walk all walked
  have inside := (hosts leaf (List.mem_of_getLast? last)).2
  have nodes := matchPath_all ⟨inside, fun p absent => by cases absent⟩
    (fun l absent => by cases absent) inside matched
  exact ⟨fun h stored => (hosts h stored).1, nodes⟩

/-- The nodes on the way of a lookup have its scheme and port. -/
theorem matchPath_along {scheme : LwcString} {port : Nat} {level : Level} {above levels : List Level}
    {t : Paths} {path : List Bytes} {node : PathData}
    (before : ∀ p ∈ (level :: above).filterMap Level.parent, p.scheme = scheme ∧ p.port = port)
    (found : matchPath scheme port level above t path = some (node, levels)) :
    ∀ p ∈ node :: levels.filterMap Level.parent, p.scheme = scheme ∧ p.port = port := by
  induction t generalizing level above path with
  | nil => cases found
  | cons d children next children_ih next_ih =>
      cases path with
      | nil => cases found
      | cons segment rest =>
          rw [matchPath] at found
          split at found
          · rename_i here
            have own : d.scheme = scheme ∧ d.port = port := by
              simp only [PathData.matches, lwcStringIsequal, Bool.and_eq_true, beq_iff_eq] at here
              exact ⟨here.1.2, here.2⟩
            split at found
            · cases found
              intro p inside
              rcases List.mem_cons.mp inside with rfl | inside
              · exact own
              · exact before p inside
            · apply children_ih _ found
              intro p inside
              have both : p ∈ d :: (level :: above).filterMap Level.parent := inside
              rcases List.mem_cons.mp both with rfl | inside
              · exact own
              · exact before p inside
          · exact next_ih before found

/-- The node that a URL leads to and those above it have its scheme and its narrowed port. -/
theorem findUrl_upward {url : Nsurl} {found : Found} {scheme : LwcString}
    (done : findUrl env db url = some found) (scheme_eq : url.components.scheme = some scheme) :
    ∀ p ∈ found.upward, p.scheme = scheme ∧ p.port = narrow (portInt url) := by
  obtain ⟨_, scheme', _, _, _, scheme_eq', _, _, _, _, _, below⟩ := findUrl_eq_some.mp done
  obtain ⟨_, _, _, _, matched⟩ := findPath_eq_some.mp below
  rw [scheme_eq, Option.some.injEq] at scheme_eq'
  subst scheme_eq'
  apply matchPath_along _ matched
  intro p absent
  cases absent

end FindUrl

section GetCookie

/-- The four loops of `urldb_get_cookie` read these places. -/
inductive Place where
  | exact | directory | parent | domain
  deriving DecidableEq, Repr

/-- A cookie is stored at a place on the path or host chain of a URL. -/
def StoredAt (found : Found) (path : Bytes) (c : Cookie) : Place → Prop
  | .exact => found.node.segment ≠ [] ∧ ∃ level, found.levels.head? = some level ∧
      ∃ q ∈ level.siblings.toList, q.segment = found.node.segment ∧ c ∈ q.cookies
  | .directory => ∃ level ∈ found.levels, ∃ q ∈ level.siblings.toList,
      q.segment = [] ∧ c ∈ q.cookies
  | .parent => ∃ level ∈ found.levels, ∃ p, level.parent = some p ∧ c ∈ p.cookies ∧
      pathMatches path c = true
  | .domain => ∃ h ∈ found.hosts, c ∈ h.cookies ∧ pathMatches path c = true

/-- The filter for secure cookies never takes effect. -/
@[simp] theorem secureIgnored_eq_false (scheme : LwcString) (c : Cookie) :
    secureIgnored scheme c = false := by
  simp [secureIgnored, lwcStringIsequal, lwcErrorOk]

theorem mem_exactPathCookies {now : Int} {includeHttpOnly : Bool} {p : PathData}
    {siblings : Paths} {c : Cookie} :
    c ∈ exactPathCookies now includeHttpOnly p siblings ↔
      (∃ q ∈ siblings.toList, q.segment = p.segment ∧ c ∈ q.cookies) ∧
        c.expired now = false ∧ (c.httpOnly = true → includeHttpOnly = true) := by
  have filters : (!(c.httpOnly && !includeHttpOnly)) = true ↔
      (c.httpOnly = true → includeHttpOnly = true) := by
    cases c.httpOnly <;> cases includeHttpOnly <;> simp
  simp only [exactPathCookies, List.mem_flatMap, List.mem_ite_nil_right, List.mem_filter,
    secureIgnored_eq_false, Bool.not_false, Bool.and_true, Bool.and_eq_true, filters,
    Bool.not_eq_true']
  constructor
  · rintro ⟨q, sibling, segment, stored, live, allowed⟩
    exact ⟨⟨q, sibling, segment, stored⟩, live, allowed⟩
  · rintro ⟨⟨q, sibling, segment, stored⟩, live, allowed⟩
    exact ⟨q, sibling, segment, stored, live, allowed⟩

theorem mem_directoryCookies {now : Int} {siblings : Paths} {c : Cookie} :
    c ∈ directoryCookies now siblings ↔
      (∃ q ∈ siblings.toList, q.segment = [] ∧ c ∈ q.cookies) ∧ c.expired now = false := by
  simp only [directoryCookies, List.mem_flatMap, List.mem_ite_nil_right, List.mem_filter,
    secureIgnored_eq_false, Bool.not_false, Bool.and_true, Bool.not_eq_true']
  constructor
  · rintro ⟨q, sibling, segment, stored, live⟩
    exact ⟨⟨q, sibling, segment, stored⟩, live⟩
  · rintro ⟨⟨q, sibling, segment, stored⟩, live⟩
    exact ⟨q, sibling, segment, stored, live⟩

theorem mem_parentCookies {now : Int} {path : Bytes} {parent : Option PathData} {c : Cookie} :
    c ∈ parentCookies now path parent ↔
      (∃ p, parent = some p ∧ c ∈ p.cookies ∧ pathMatches path c = true) ∧
        c.expired now = false := by
  cases parent with
  | none => simp [parentCookies]
  | some p =>
      simp only [parentCookies, List.mem_filter, secureIgnored_eq_false, Bool.not_false,
        Bool.and_true, Bool.and_eq_true, Bool.not_eq_true', Option.some.injEq, exists_eq_left']
      tauto

theorem mem_domainCookies {now : Int} {path : Bytes} {scheme : LwcString} {h : HostData}
    {c : Cookie} : c ∈ domainCookies now path scheme h ↔
      (c ∈ h.cookies ∧ pathMatches path c = true) ∧ c.expired now = false := by
  simp only [domainCookies, List.mem_filter, secureIgnored_eq_false, Bool.not_false,
    Bool.and_true, Bool.and_eq_true, Bool.not_eq_true']
  tauto

/-- A cookie is sent when it is live and stored at one of the places. Only the exact path
leaves out HttpOnly cookies. -/
theorem mem_matchedCookies {now : Int} {includeHttpOnly : Bool} {path : Bytes} {found : Found}
    {c : Cookie} : c ∈ matchedCookies now includeHttpOnly path found ↔
      c.expired now = false ∧
        ((StoredAt found path c .exact ∧ (c.httpOnly = true → includeHttpOnly = true)) ∨
          StoredAt found path c .directory ∨ StoredAt found path c .parent ∨
          StoredAt found path c .domain) := by
  have first : c ∈ (if found.node.segment = [] then [] else exactPathCookies now includeHttpOnly
      found.node ((found.levels.head?.map Level.siblings).getD .nil)) ↔
      (StoredAt found path c .exact ∧ (c.httpOnly = true → includeHttpOnly = true)) ∧
        c.expired now = false := by
    by_cases empty : found.node.segment = []
    · simp [StoredAt, empty]
    · rw [if_neg empty, mem_exactPathCookies, StoredAt]
      cases found.levels.head? with
      | none => simp [SiblingTree.toList]
      | some level =>
          simp only [Option.map_some, Option.getD_some, Option.some.injEq, exists_eq_left',
            ne_eq, empty, not_false_eq_true, true_and]
          tauto
  rw [matchedCookies]
  simp only [List.mem_append, first, List.mem_flatMap, mem_directoryCookies, mem_parentCookies,
    mem_domainCookies, List.mem_reverse]
  constructor
  · rintro ((⟨place, live⟩ | ⟨level, inside, ⟨place, live⟩ | ⟨place, live⟩⟩) | ⟨h, inside, place, live⟩)
    · exact ⟨live, Or.inl place⟩
    · exact ⟨live, Or.inr (Or.inl ⟨level, inside, place⟩)⟩
    · exact ⟨live, Or.inr (Or.inr (Or.inl ⟨level, inside, place⟩))⟩
    · exact ⟨live, Or.inr (Or.inr (Or.inr ⟨h, inside, place⟩))⟩
  · rintro ⟨live, place | ⟨level, inside, place⟩ | ⟨level, inside, place⟩ | ⟨h, inside, place⟩⟩
    · exact Or.inl (Or.inl ⟨place, live⟩)
    · exact Or.inl (Or.inr ⟨level, inside, Or.inl ⟨place, live⟩⟩)
    · exact Or.inl (Or.inr ⟨level, inside, Or.inr ⟨place, live⟩⟩)
    · exact Or.inr ⟨h, inside, place, live⟩

/-- A URL gets a cookie exactly when it is live and stored at one of the places. -/
theorem mem_cookiesFor {env : Environment} {db : Database} {url : Nsurl} {includeHttpOnly : Bool}
    {c : Cookie} : c ∈ cookiesFor env db url includeHttpOnly ↔
      ∃ found path, findUrl env (addUrl env db url).1 url = some found ∧
        url.components.path = some path ∧ c.expired env.now = false ∧
        ∃ place, StoredAt found path c place ∧
          (place = .exact → c.httpOnly = true → includeHttpOnly = true) := by
  have places (found : Found) (path : Bytes) :
      (∃ place, StoredAt found path c place ∧
        (place = .exact → c.httpOnly = true → includeHttpOnly = true)) ↔
      (StoredAt found path c .exact ∧ (c.httpOnly = true → includeHttpOnly = true)) ∨
        StoredAt found path c .directory ∨ StoredAt found path c .parent ∨
        StoredAt found path c .domain := by
    constructor
    · rintro ⟨place, stored, allowed⟩
      cases place with
      | exact => exact Or.inl ⟨stored, allowed rfl⟩
      | directory => exact Or.inr (Or.inl stored)
      | parent => exact Or.inr (Or.inr (Or.inl stored))
      | domain => exact Or.inr (Or.inr (Or.inr stored))
    · rintro (⟨stored, allowed⟩ | stored | stored | stored)
      · exact ⟨.exact, stored, fun _ => allowed⟩
      · exact ⟨.directory, stored, fun other => by cases other⟩
      · exact ⟨.parent, stored, fun other => by cases other⟩
      · exact ⟨.domain, stored, fun other => by cases other⟩
  unfold cookiesFor
  generalize findUrl env (addUrl env db url).1 url = result
  generalize url.components.path = urlPath
  cases result with
  | none => simp
  | some found =>
      cases urlPath with
      | none => simp
      | some path =>
          change c ∈ matchedCookies env.now includeHttpOnly path found ↔ _
          rw [mem_matchedCookies, ← places]
          constructor
          · rintro ⟨live, stored⟩
            exact ⟨found, path, rfl, rfl, live, stored⟩
          · rintro ⟨_, _, ⟨⟩, ⟨⟩, live, stored⟩
            exact ⟨live, stored⟩

/-- What a cookie is read from is in the database. -/
theorem stored_cookiesAll {P : Cookie → Prop} {env : Environment} {db : Database} {url : Nsurl}
    {found : Found} {path : Bytes} {c : Cookie} {place : Place} (all : CookiesAll P db)
    (present : findUrl env db url = some found) (stored : StoredAt found path c place) : P c := by
  obtain ⟨hosts, node, levels⟩ := findUrl_all all present
  cases place with
  | exact =>
      obtain ⟨_, level, first, q, sibling, _, stored⟩ := stored
      exact SiblingTree.all_toList (levels level (List.mem_of_head? first)).1 q sibling c stored
  | directory =>
      obtain ⟨level, inside, q, sibling, _, stored⟩ := stored
      exact SiblingTree.all_toList (levels level inside).1 q sibling c stored
  | parent =>
      obtain ⟨level, inside, p, above, stored, _⟩ := stored
      exact (levels level inside).2 p above c stored
  | domain =>
      obtain ⟨h, inside, stored, _⟩ := stored
      exact hosts h inside c stored

/-- No secure cookie is in the text that a URL of another scheme than https gets. -/
def NoSecureSent (env : Environment) (db : Database) (url : Nsurl) (includeHttpOnly : Bool) :
    Prop :=
  url.components.scheme ≠ some (str "https") →
    ∀ c ∈ cookiesFor env db url includeHttpOnly, c.secure = false

/-- No live secure cookie is stored at a place that is read for a URL of another scheme than
https, but for HttpOnly cookies at the exact path that are left out. -/
def NoSecureStored (env : Environment) (db : Database) (url : Nsurl) (includeHttpOnly : Bool) :
    Prop :=
  url.components.scheme ≠ some (str "https") →
    ∀ found path c place, findUrl env (addUrl env db url).1 url = some found →
      url.components.path = some path → StoredAt found path c place →
      c.expired env.now = false → (place = .exact → c.httpOnly = true → includeHttpOnly = true) →
      c.secure = false

/-- Secure cookies are kept from a URL exactly when none is stored where it is looked for. -/
theorem noSecureSent_iff {env : Environment} {db : Database} {url : Nsurl}
    {includeHttpOnly : Bool} :
    NoSecureSent env db url includeHttpOnly ↔ NoSecureStored env db url includeHttpOnly := by
  apply imp_congr_right
  intro _
  simp only [mem_cookiesFor]
  constructor
  · intro none_secure found path c place present stored_path stored live allowed
    exact none_secure c ⟨found, path, present, stored_path, live, place, stored, allowed⟩
  · rintro none_secure c ⟨found, path, present, stored_path, live, place, stored, allowed⟩
    exact none_secure found path c place present stored_path stored live allowed

/-- In every state, secure cookies are kept from a URL exactly when none is stored where it is
looked for, as in every state that a run reaches without storing a secure cookie. -/
theorem getCookie_noSecure (env : Environment) (db : Database) (url : Nsurl)
    (includeHttpOnly : Bool) :
    (NoSecureSent env db url includeHttpOnly ↔ NoSecureStored env db url includeHttpOnly) ∧
      (Reachable env (fun env _ op => ∀ c, Stores env c op → c.secure = false) db →
        ∀ now, NoSecureSent (env.at now) db url includeHttpOnly) := by
  refine ⟨noSecureSent_iff, ?_⟩
  intro reached now
  apply noSecureSent_iff.mpr
  intro _ found path c place present _ stored _ _
  exact stored_cookiesAll (cookiesAll_addUrl url (cookiesAll_run reached)) present stored

/-- A secure cookie of `https://h/x` is sent to `http://h/x`. -/
theorem getCookie_leaks_secure : ∃ page url db,
    Nsurl.nsurlCreate (fun _ => 0) (str "https://h/x") = .ok page ∧
      Nsurl.nsurlCreate (fun _ => 0) (str "http://h/x") = .ok url ∧
      setCookie plainEnvironment {} (str "a=b; Secure") page none = .done db true ∧
      Reachable plainEnvironment (fun _ _ _ => True) db ∧
      (getCookie plainEnvironment db url true).2 = some (str "a=b") ∧
      ¬ NoSecureSent plainEnvironment db url true := by
  have computed : ∃ page url, Nsurl.nsurlCreate (fun _ => 0) (str "https://h/x") = .ok page ∧
      Nsurl.nsurlCreate (fun _ => 0) (str "http://h/x") = .ok url ∧
      (setCookie plainEnvironment {} (str "a=b; Secure") page none).check (fun db =>
        (getCookie plainEnvironment db url true).2 == some (str "a=b") &&
        (url.components.scheme != some (str "https") &&
          (cookiesFor plainEnvironment db url true).any Cookie.secure)) = true :=
    ⟨_, _, rfl, rfl, by decide⟩
  obtain ⟨page, url, created, other, checked⟩ := computed
  obtain ⟨db, done, checked⟩ := SetResult.check_eq_true checked
  simp only [Bool.and_eq_true, beq_iff_eq, bne_iff_ne, List.any_eq_true] at checked
  obtain ⟨text, scheme, c, sent, secure⟩ := checked
  refine ⟨page, url, db, created, other, done, reachable_setCookie done, text, fun none_sent => ?_⟩
  rw [none_sent scheme c sent] at secure
  cases secure

/-- Without HttpOnly cookies asked for, none is in the text that a URL gets. -/
def NoHttpOnlySent (env : Environment) (db : Database) (url : Nsurl) : Prop :=
  ∀ c ∈ cookiesFor env db url false, c.httpOnly = false

/-- No live HttpOnly cookie is stored in a directory, at a parent or at a domain that is read
for a URL. -/
def NoHttpOnlyStored (env : Environment) (db : Database) (url : Nsurl) : Prop :=
  ∀ found path c place, findUrl env (addUrl env db url).1 url = some found →
    url.components.path = some path → StoredAt found path c place → place ≠ .exact →
    c.expired env.now = false → c.httpOnly = false

/-- HttpOnly cookies are kept from a script exactly when none is stored away from the exact
path where it is looked for. -/
theorem noHttpOnlySent_iff {env : Environment} {db : Database} {url : Nsurl} :
    NoHttpOnlySent env db url ↔ NoHttpOnlyStored env db url := by
  unfold NoHttpOnlySent NoHttpOnlyStored
  simp only [mem_cookiesFor]
  constructor
  · intro none_hidden found path c place present stored_path stored other live
    exact none_hidden c ⟨found, path, present, stored_path, live, place, stored,
      fun same => absurd same other⟩
  · rintro none_hidden c ⟨found, path, present, stored_path, live, place, stored, allowed⟩
    by_cases same : place = .exact
    · cases hidden : c.httpOnly with
      | false => rfl
      | true => cases allowed same hidden
    · exact none_hidden found path c place present stored_path stored same live

/-- In every state, HttpOnly cookies are kept from a script exactly when none is stored away
from the exact path where it is looked for, as in every state that a run reaches without
storing an HttpOnly cookie. -/
theorem getCookie_noHttpOnly (env : Environment) (db : Database) (url : Nsurl) :
    (NoHttpOnlySent env db url ↔ NoHttpOnlyStored env db url) ∧
      (Reachable env (fun env _ op => ∀ c, Stores env c op → c.httpOnly = false) db →
        ∀ now, NoHttpOnlySent (env.at now) db url) := by
  refine ⟨noHttpOnlySent_iff, ?_⟩
  intro reached now
  apply noHttpOnlySent_iff.mpr
  intro found path c place present _ stored _ _
  exact stored_cookiesAll (cookiesAll_addUrl url (cookiesAll_run reached)) present stored

/-- The document of `http://h/x` reads an HttpOnly cookie that it got. -/
theorem getCookie_leaks_httpOnly : ∃ page db,
    Nsurl.nsurlCreate (fun _ => 0) (str "http://h/x") = .ok page ∧
      setCookie plainEnvironment {} (str "a=b; HttpOnly") page none = .done db true ∧
      Reachable plainEnvironment (fun _ _ _ => True) db ∧
      (getCookie plainEnvironment db page false).2 = some (str "a=b") ∧
      ¬ NoHttpOnlySent plainEnvironment db page := by
  have computed : ∃ page, Nsurl.nsurlCreate (fun _ => 0) (str "http://h/x") = .ok page ∧
      (setCookie plainEnvironment {} (str "a=b; HttpOnly") page none).check (fun db =>
        (getCookie plainEnvironment db page false).2 == some (str "a=b") &&
        (cookiesFor plainEnvironment db page false).any Cookie.httpOnly) = true :=
    ⟨_, rfl, by decide⟩
  obtain ⟨page, created, checked⟩ := computed
  obtain ⟨db, done, checked⟩ := SetResult.check_eq_true checked
  simp only [Bool.and_eq_true, beq_iff_eq, List.any_eq_true] at checked
  obtain ⟨text, c, sent, hidden⟩ := checked
  refine ⟨page, db, created, done, reachable_setCookie done, text, fun none_sent => ?_⟩
  rw [none_sent c sent] at hidden
  cases hidden

end GetCookie

end Neosurf.Urldb
