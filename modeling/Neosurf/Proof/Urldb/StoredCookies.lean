import Neosurf.Proof.Urldb.PathTree
import Neosurf.Proof.Urldb.Annotated
import Neosurf.Construction.Urldb.Operations

namespace Neosurf.Urldb

section SetCookie

variable {P : Database → Prop} {env : Environment} {db : Database}

/-- What every stored cookie preserves, the loop of `urldb_set_cookie` preserves. -/
theorem setCookies_rule {url : Nsurl} {scheme host path cur : Bytes} {rounds : Nat}
    {after : Database} {answer : Bool}
    (insert : ∀ c ∈ storedCookies env url host path rounds cur, ∀ db, P db →
      P (insertCookie env db c scheme (Nsurl.defragment url)))
    (before : P db) (done : setCookies env url scheme host path rounds cur db = .done after answer) :
    P after := by
  induction rounds generalizing cur db with
  | zero => cases done
  | succ rounds ih =>
      rw [setCookies] at done
      rw [storedCookies] at insert
      cases parsed : parseCookie env url cur with
      | none =>
          simp only [parsed] at done
          cases done
          exact before
      | some pair =>
          obtain ⟨c, rest⟩ := pair
          simp only [parsed] at done insert
          by_cases valid : validCookie env host path c = true
          · rw [if_pos valid] at insert
            simp only [valid, if_true] at done
            have kept : P (insertCookie env db c scheme (Nsurl.defragment url)) :=
              insert c List.mem_cons_self db before
            split at done
            · cases done
              exact kept
            · rename_i more
              rw [if_neg more] at insert
              split at done
              · cases done
              · exact ih (fun d stored => insert d (List.mem_cons_of_mem _ stored)) kept done
          · simp only [valid] at done
            cases done
            exact before

/-- A call of `urldb_set_cookie` changes nothing, or runs its loop. -/
theorem setCookie_cases {header : Bytes} {url : Nsurl} {referer : Option Nsurl}
    {after : Database} {answer : Bool}
    (done : setCookie env db header url referer = .done after answer) :
    after = db ∧ answer = false ∨ ∃ scheme path host, url.components.scheme = some scheme ∧
      url.components.path = some path ∧ url.components.host = some host ∧
      setCookies env url scheme host path (header.length + 1) header db = .done after answer := by
  unfold setCookie at done
  cases scheme_eq : url.components.scheme with
  | none =>
      simp only [scheme_eq] at done
      cases done
      exact Or.inl ⟨rfl, rfl⟩
  | some scheme =>
      cases path_eq : url.components.path with
      | none =>
          simp only [scheme_eq, path_eq] at done
          cases done
          exact Or.inl ⟨rfl, rfl⟩
      | some path =>
          cases host_eq : url.components.host with
          | none =>
              simp only [scheme_eq, path_eq, host_eq] at done
              cases done
              exact Or.inl ⟨rfl, rfl⟩
          | some host =>
              simp only [scheme_eq, path_eq, host_eq] at done
              split_ifs at done with accepted
              · exact Or.inr ⟨scheme, path, host, rfl, rfl, rfl, done⟩
              · cases done
                exact Or.inl ⟨rfl, rfl⟩

/-- What every stored cookie preserves, a call of `urldb_set_cookie` preserves. -/
theorem setCookie_rule {header : Bytes} {url : Nsurl} {referer : Option Nsurl}
    {after : Database} {answer : Bool}
    (insert : ∀ c scheme db, Stores env c (.setCookie header url referer) → P db →
      P (insertCookie env db c scheme (Nsurl.defragment url)))
    (before : P db) (done : setCookie env db header url referer = .done after answer) : P after := by
  rcases setCookie_cases done with ⟨rfl, _⟩ | ⟨scheme, path, host, _, path_eq, host_eq, done⟩
  · exact before
  · refine setCookies_rule (fun c stored db known => ?_) before done
    exact insert c scheme db ⟨host, path, host_eq, path_eq, stored⟩ known

/-- A plain environment: no date, public suffix or IP address is known. -/
def plainEnvironment : Environment where
  now := 100
  curlGetdate := fun _ => -1
  isPublicSuffix := fun _ => false
  inetAton := fun _ => false
  inetPton6 := fun _ => false

/-- A test of the database where a call of `urldb_set_cookie` stored its cookies. -/
def SetResult.check (test : Database → Bool) : SetResult → Bool
  | .done db answer => answer && test db
  | .diverges => false

theorem SetResult.check_eq_true {test : Database → Bool} {result : SetResult}
    (checked : result.check test = true) : ∃ db, result = .done db true ∧ test db = true := by
  cases result with
  | done db answer =>
      rw [check, Bool.and_eq_true] at checked
      exact ⟨db, by rw [checked.1], checked.2⟩
  | diverges => cases checked

/-- A call of `urldb_set_cookie` on the empty database is a run. -/
theorem reachable_setCookie {env : Environment} {header : Bytes} {page : Nsurl} {db : Database}
    {answer : Bool} (done : setCookie env {} header page none = .done db answer) :
    Reachable env (fun _ _ _ => True) db := by
  refine .step env.now (.setCookie header page none) .empty trivial ?_
  change (match setCookie env {} header page none with
    | .done db _ => some db
    | .diverges => none) = some db
  rw [done]

end SetCookie

section StoredCookies

variable {P : Cookie → Prop} {env : Environment} {db : Database}

/-- A property of every cookie of a node. -/
def PathData.CookiesAll (P : Cookie → Prop) (d : PathData) : Prop := ∀ c ∈ d.cookies, P c

/-- A property of every cookie of a host and of its paths. -/
def HostData.CookiesAll (P : Cookie → Prop) (h : HostData) : Prop :=
  (∀ c ∈ h.cookies, P c) ∧ h.paths.All (PathData.CookiesAll P)

/-- A property of every cookie in the database. -/
def CookiesAll (P : Cookie → Prop) (db : Database) : Prop := db.hosts.All (HostData.CookiesAll P)

theorem cookiesAll_iff : CookiesAll P db ↔ ∀ c ∈ db.cookies, P c := by
  simp only [CookiesAll, HostData.CookiesAll, PathData.CookiesAll, SiblingTree.all_iff,
    Database.cookies, HostData.allCookies, List.mem_flatMap, List.mem_append]
  constructor
  · rintro all c ⟨h, inside, own | ⟨d, below, stored⟩⟩
    · exact (all h inside).1 c own
    · exact (all h inside).2 d below c stored
  · intro all h inside
    exact ⟨fun c own => all c ⟨h, inside, Or.inl own⟩, fun d below c stored =>
      all c ⟨h, inside, Or.inr ⟨d, below, stored⟩⟩⟩

theorem cookiesAll_empty : CookiesAll P {} := trivial

theorem mem_insertInto {now : Int} {c d : Cookie} {cookies : List Cookie}
    (stored : d ∈ insertInto now c cookies) : d = c ∨ d ∈ cookies := by
  induction cookies with
  | nil => exact Or.inl (List.mem_singleton.mp stored)
  | cons e rest ih =>
      rw [insertInto] at stored
      split at stored
      · split at stored
        · exact Or.inr (List.mem_cons_of_mem _ stored)
        · exact (List.mem_cons.mp stored).imp_right (List.mem_cons_of_mem _)
      · rcases List.mem_cons.mp stored with rfl | stored
        · exact Or.inr List.mem_cons_self
        · exact (ih stored).imp_right (List.mem_cons_of_mem _)

theorem mem_removeFrom {domain path name : Bytes} {d : Cookie} {cookies after : List Cookie}
    (done : removeFrom domain path name cookies = some after) (stored : d ∈ after) :
    d ∈ cookies := by
  induction cookies generalizing after with
  | nil => cases done
  | cons e rest ih =>
      rw [removeFrom] at done
      split at done
      · cases done
        exact List.mem_cons_of_mem _ stored
      · obtain ⟨kept, removed, rfl⟩ := Option.map_eq_some_iff.mp done
        rcases List.mem_cons.mp stored with rfl | stored
        · exact List.mem_cons_self
        · exact List.mem_cons_of_mem _ (ih removed stored)

theorem cookiesAll_addHost (host : Bytes) (all : CookiesAll P db) :
    CookiesAll P (addHost env db host) := by
  unfold addHost
  dsimp only
  split
  · exact all
  · exact Hosts.all_add (fun part => ⟨by simp, trivial⟩) _ all

theorem cookiesAll_addPath {change : PathData → PathData} (parts : List Bytes) (scheme : LwcString)
    (port : Nat) (path : Bytes) (keeps : ∀ d : PathData, d.CookiesAll P → (change d).CookiesAll P)
    (all : CookiesAll P db) : CookiesAll P (addPath parts scheme port path change db) := by
  apply Hosts.all_modifyAt _ _ all
  intro h known
  exact ⟨known.1, Paths.all_addPath keeps (fun segment => by simp [PathData.CookiesAll]) _ known.2⟩

@[simp] theorem setUrl_cookies (url : Nsurl) (d : PathData) : (setUrl url d).cookies = d.cookies := by
  unfold setUrl
  split <;> rfl

theorem cookiesAll_setUrl (url : Nsurl) (d : PathData) (known : d.CookiesAll P) :
    (setUrl url d).CookiesAll P := by
  intro c stored
  rw [setUrl_cookies] at stored
  exact known c stored

theorem cookiesAll_addUrl (url : Nsurl) (all : CookiesAll P db) :
    CookiesAll P (addUrl env db url).1 := by
  unfold addUrl
  dsimp only
  split
  · exact cookiesAll_addPath _ _ _ _ (cookiesAll_setUrl url) (cookiesAll_addHost _ all)
  · exact all

theorem cookiesAll_insertCookie {c : Cookie} (scheme : LwcString) (url : Nsurl) (new : P c)
    (all : CookiesAll P db) : CookiesAll P (insertCookie env db c scheme url) := by
  have found (host : Bytes) : CookiesAll P (findOrAddHost env db host).1 := by
    unfold findOrAddHost
    split
    · exact all
    · exact cookiesAll_addHost host all
  have inserted (cookies : List Cookie) (known : ∀ d ∈ cookies, P d) :
      ∀ d ∈ insertInto env.now c cookies, P d := by
    intro d stored
    rcases mem_insertInto stored with rfl | old
    · exact new
    · exact known d old
  unfold insertCookie
  split
  · exact Hosts.all_modifyAt (fun h known => ⟨inserted h.cookies known.1, known.2⟩) _ (found _)
  · exact cookiesAll_addPath _ _ _ _ (fun d known => inserted d.cookies known) (found _)

theorem cookiesAll_setCookie {header : Bytes} {url : Nsurl} {referer : Option Nsurl}
    {after : Database} {answer : Bool}
    (new : ∀ c, Stores env c (.setCookie header url referer) → P c) (all : CookiesAll P db)
    (done : setCookie env db header url referer = .done after answer) : CookiesAll P after := by
  refine setCookie_rule ?_ all done
  intro c scheme db stored known
  exact cookiesAll_insertCookie scheme (Nsurl.defragment url) (new c stored) known

theorem cookiesAll_deleteCookie (domain path name : Bytes) (all : CookiesAll P db) :
    CookiesAll P (deleteCookie db domain path name) := by
  apply Hosts.all_deleteCookie _ all
  intro h known
  rw [HostData.deleteCookie]
  split
  · rename_i cookies removed
    exact ⟨fun c stored => known.1 c (mem_removeFrom removed stored), known.2⟩
  · refine ⟨known.1, ?_⟩
    cases done : h.paths.deleteCookie domain path name with
    | none => exact known.2
    | some after =>
        exact Paths.all_deleteCookie
          (fun d cookies old removed c stored => old c (mem_removeFrom removed stored)) known.2 done

theorem cookiesAll_loadUrl {junk : Nsurl.Buff} {host scheme ports rest : Bytes}
    (all : CookiesAll P db) : CookiesAll P (loadUrl env db junk host scheme ports rest) := by
  unfold loadUrl
  split
  · exact all
  · dsimp only
    split
    · exact cookiesAll_addPath _ _ _ _ (cookiesAll_setUrl _) all
    · exact all

theorem cookiesAll_annotated {after : Database} (all : CookiesAll P db)
    (noted : Annotated db after) : CookiesAll P after := by
  obtain ⟨change, parts, annotation, rfl⟩ := noted
  obtain ⟨test, changeNode, keys, node, paths⟩ := annotation.paths
  apply SiblingTree.all_extend _ (fun _ _ known => known) parts all
  intro _ h _ known
  rw [HostData.CookiesAll, annotation.cookies, paths]
  refine ⟨known.1, SiblingTree.all_extend ?_ (fun _ _ known => known) keys known.2⟩
  intro _ d _ stored
  rw [PathData.CookiesAll, node.cookies]
  exact stored

/-- A step keeps a property of all cookies when the cookies that it stores have it. -/
theorem cookiesAll_step {op : Operation} {after : Database} (new : ∀ c, Stores env c op → P c)
    (all : CookiesAll P db) (done : step env db op = some after) : CookiesAll P after := by
  cases op with
  | addUrl url =>
      cases done
      exact cookiesAll_addUrl url all
  | getCookie url includeHttpOnly =>
      cases done
      exact cookiesAll_addUrl url all
  | setCookie header url referer =>
      rw [step] at done
      cases answer : setCookie env db header url referer with
      | done db answered =>
          simp only [answer] at done
          cases done
          exact cookiesAll_setCookie new all answer
      | diverges => simp [answer] at done
  | deleteCookie domain path name =>
      cases done
      exact cookiesAll_deleteCookie domain path name all
  | loadFilter =>
      cases done
      exact all
  | loadHost host =>
      cases done
      exact cookiesAll_addHost host all
  | loadUrl junk host scheme ports rest =>
      cases done
      exact cookiesAll_loadUrl (cookiesAll_addHost host all)
  | loadCookie c scheme page =>
      cases done
      exact cookiesAll_insertCookie scheme page (new c rfl) all
  | destroy =>
      cases done
      exact cookiesAll_empty
  | setAuthDetails | getAuthDetails | setCertPermissions | setHstsPolicy | getHstsEnabled
  | changeUrl | loadHsts | loadUrlData =>
      rcases annotated_step (by exact trivial) done with noted | ⟨url, _, noted⟩
      · exact cookiesAll_annotated all noted
      · exact cookiesAll_annotated (cookiesAll_addUrl url all) noted

/-- A run keeps a property of all cookies when every step only stores cookies that have it. -/
theorem cookiesAll_run
    (reached : Reachable env (fun env _ op => ∀ c, Stores env c op → P c) db) :
    CookiesAll P db := by
  induction reached with
  | empty => exact cookiesAll_empty
  | step now op before allowed done ih => exact cookiesAll_step allowed ih done

end StoredCookies

end Neosurf.Urldb
