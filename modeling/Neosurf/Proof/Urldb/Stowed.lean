import Neosurf.ToMathlib.SiblingTree.Places
import Neosurf.Proof.Urldb.AddUrl

namespace Neosurf.Urldb

open SiblingTree

variable {env : Environment} {db : Database}

/-- A live cookie is in the list that it enters. -/
theorem mem_insertInto_self {now : Int} {c : Cookie} (live : c.expired now = false)
    (cookies : List Cookie) : c ∈ insertInto now c cookies := by
  induction cookies with
  | nil => exact List.mem_cons_self
  | cons d rest ih =>
      rw [insertInto]
      split
      · rw [live]
        exact List.mem_cons_self
      · exact List.mem_cons_of_mem _ ih

/-- The host of a cookie is in the tree once it was found or added. -/
theorem walk_findOrAddHost {host : Bytes} (findable : Findable env host) (sound : Sound env db) :
    (findOrAddHost env db host).2.map folded = (lookedParts env host).map folded ∧
      ∃ above h, (findOrAddHost env db host).1.hosts.walk (findOrAddHost env db host).2 =
        some (above ++ [h]) := by
  unfold findOrAddHost
  cases found : searchFind env db host with
  | none =>
      obtain ⟨above, h, walked, _⟩ := walk_addHost_self env db host
      exact ⟨by rw [hostParts_eq findable], above, h, walked⟩
  | some chain =>
      obtain ⟨stored, same⟩ := searchFind_spec sound.toIndexed found
      obtain ⟨walked, present⟩ := Option.isSome_iff_exists.mp (sound.walks _ chain stored)
      refine ⟨same, ?_⟩
      have nonempty : walked ≠ [] := by
        rintro rfl
        have size := congrArg List.length ((Hosts.folded_walk present).trans same)
        have parts : hostParts env host ≠ [] := hostParts_ne_nil host
        rw [hostParts_eq findable] at parts
        exact parts (List.length_eq_zero_iff.mp (by simpa using size.symm))
      exact ⟨walked.dropLast, walked.getLast nonempty, by
        rw [List.dropLast_append_getLast nonempty, present]⟩

/-- A live domain cookie is stored at its domain. -/
theorem insertCookie_domain {c : Cookie} (scheme : LwcString) (page : Nsurl)
    (dot : byteAt c.domain 0 = chr '.') (live : c.expired env.now = false)
    (findable : Findable env (c.domain.drop 1)) (sound : Sound env db) :
    ∃ above h, (insertCookie env db c scheme page).hosts.walk (lookedParts env (c.domain.drop 1)) =
      some (above ++ [h]) ∧ c ∈ h.cookies := by
  obtain ⟨parts, above, h, walked⟩ := walk_findOrAddHost findable sound
  unfold insertCookie
  rw [if_pos dot]
  dsimp only
  refine ⟨above, { h with cookies := insertInto env.now c h.cookies }, ?_,
    mem_insertInto_self live h.cookies⟩
  rw [← Hosts.walk_congr parts]
  have after : ((findOrAddHost env db (c.domain.drop 1)).1.hosts.modifyAt (fun h =>
      { h with cookies := insertInto env.now c h.cookies })
        (findOrAddHost env db (c.domain.drop 1)).2).walk
          (findOrAddHost env db (c.domain.drop 1)).2 = some (alter HostData.isNamed (fun h =>
      { h with cookies := insertInto env.now c h.cookies })
        (findOrAddHost env db (c.domain.drop 1)).2 (above ++ [h])) := by
    apply Hosts.walk_modifyAt _ walked
    intro h
    rfl
  rw [after, alter_of_forall₂ (forall₂_walk walked)]

/-- The change of the node of a cookie. -/
def storeCookie (now : Int) (page : Nsurl) (c : Cookie) (d : PathData) : PathData :=
  { setUrl page d with cookies := insertInto now c d.cookies }

theorem isAt_storeCookie (now : Int) (page : Nsurl) (c : Cookie) (scheme : LwcString) (port : Nat)
    (segment : Bytes) (d : PathData) :
    (storeCookie now page c d).isAt scheme port segment = d.isAt scheme port segment :=
  isAt_setUrl page scheme port segment d

/-- Another live cookie is stored at its path under the port zero. -/
theorem insertCookie_path {c : Cookie} (scheme : LwcString) (page : Nsurl)
    (noDot : byteAt c.domain 0 ≠ chr '.') (live : c.expired env.now = false)
    (findable : Findable env c.domain) (sound : Sound env db) :
    ∃ above h nodes d, (insertCookie env db c scheme page).hosts.walk (lookedParts env c.domain) =
        some (above ++ [h]) ∧
      h.paths.walk (PathData.isAt scheme 0) (segments c.path) = some (nodes ++ [d]) ∧
      c ∈ d.cookies := by
  obtain ⟨parts, above, h, walked⟩ := walk_findOrAddHost findable sound
  obtain ⟨segment, rest, split⟩ := segments_eq c.path
  obtain ⟨nodes, d, way, _⟩ := @Paths.walk_addPath_self scheme 0 (storeCookie env.now page c) h.paths
    segment rest (isAt_storeCookie env.now page c scheme 0)
  rw [← split] at way
  unfold insertCookie
  rw [if_neg noDot]
  refine ⟨above, h.addPath scheme 0 c.path (storeCookie env.now page c), nodes,
    storeCookie env.now page c d, ?_, way, mem_insertInto_self live d.cookies⟩
  rw [← Hosts.walk_congr parts]
  exact walk_addPath_self walked

/-- Every host keeps its cookies when a URL is added. -/
theorem walk_addUrl_cookies (env : Environment) {db : Database} (url : Nsurl) {parts : List Bytes}
    {walked : List HostData} (found : db.hosts.walk parts = some walked) :
    ∃ walked', (addUrl env db url).1.hosts.walk parts = some walked' ∧
      walked'.map HostData.cookies = walked.map HostData.cookies := by
  unfold addUrl
  dsimp only
  split
  · rename_i path scheme host path_eq scheme_eq host_eq
    have added : (addHost env (bloomInsert db url.hash) host).hosts.walk parts = some walked :=
      walk_addHost found
    refine ⟨_, walk_addPath added, ?_⟩
    apply map_alter
    intro h
    rfl
  · exact ⟨walked, found, rfl⟩

/-- A node keeps its cookies when the path of a URL is added. -/
theorem walk_setUrl_cookies {scheme scheme' : LwcString} {port port' : Nat} {looked own : List Bytes}
    {url : Nsurl} {t : Paths} {nodes : List PathData} {d : PathData}
    (found : t.walk (PathData.isAt scheme' port') own = some (nodes ++ [d])) :
    ∃ nodes' d', (Paths.addPath scheme port (setUrl url) looked t).walk
      (PathData.isAt scheme' port') own = some (nodes' ++ [d']) ∧ d'.cookies = d.cookies := by
  let test (key : LwcString × Nat × Bytes) (d : PathData) : Bool := d.isAt key.1 key.2.1 key.2.2
  let ensure (key : LwcString × Nat × Bytes) (t : Paths) : Paths :=
    Paths.ensure key.1 key.2.1 key.2.2 t
  have agree (k k' : LwcString × Nat × Bytes) (d e : PathData) (first : test k d = true)
      (second : test k e = true) : test k' d = test k' e := by
    have first := isAt_iff.mp first
    have second := isAt_iff.mp second
    rw [Bool.eq_iff_iff, isAt_iff, isAt_iff, first.1, second.1, first.2.2, second.2.2,
      ← first.2.1, ← second.2.1]
  have before : t.walk test (own.map fun s => (scheme', port', s)) = some (nodes ++ [d]) := by
    rw [← walk_map]
    exact found
  have after : (Paths.addPath scheme port (setUrl url) looked t).walk (PathData.isAt scheme' port')
      own = some (alter test (setUrl url) (looked.map fun s => (scheme, port, s))
        (nodes ++ [d])) := by
    have walked := @walk_extend _ _ test ensure (setUrl url) agree
      (fun k d => isAt_setUrl url k.1 k.2.1 k.2.2 d)
      (fun k k' t p => Paths.first_ensure_of_first) (looked.map fun s => (scheme, port, s)) _ _ _
      before
    rw [← extend_map, ← walk_map] at walked
    exact walked
  have kept := @map_alter _ _ test (setUrl url) _ PathData.cookies (setUrl_cookies url)
    (looked.map fun s => (scheme, port, s)) (nodes ++ [d])
  rw [List.map_append, List.map_singleton] at kept
  obtain ⟨nodes', last, same, _, last_eq⟩ := List.map_eq_append_iff.mp kept
  obtain ⟨d', rfl, cookies_eq⟩ := List.map_eq_singleton_iff.mp last_eq
  exact ⟨nodes', d', by rw [after, same], cookies_eq⟩

/-- The cookies of a node have this path and no dot at the start of their domain. They are filed
under the port zero. -/
def PathData.Stowed (keys : List (LwcString × Nat × Bytes)) (d : PathData) : Prop :=
  ∀ c ∈ d.cookies, byteAt c.domain 0 ≠ chr '.' ∧
    ∃ scheme, keys = (segments c.path).map fun segment => (scheme, 0, segment)

/-- The cookies of a host itself have it as their domain, after a dot. -/
def HostData.Stowed (env : Environment) (parts : List Bytes) (h : HostData) : Prop :=
  (∀ c ∈ h.cookies, byteAt c.domain 0 = chr '.' ∧
    (lookedParts env (cookieHost c)).map folded = parts) ∧
  h.paths.AllAt PathData.key PathData.Stowed []

/-- Every cookie is filed by its domain and path. -/
def Stowed (env : Environment) (db : Database) : Prop :=
  db.hosts.AllAt (fun h => folded h.part) (HostData.Stowed env) []

section Paths

variable {P : List (LwcString × Nat × Bytes) → PathData → Prop}
  {keys : List (LwcString × Nat × Bytes)}

theorem key_of_isAt {scheme : LwcString} {port : Nat} (segment : Bytes) (d : PathData)
    (passed : d.isAt scheme port segment = true) : d.key = (scheme, port, segment) := by
  obtain ⟨segment_eq, scheme_eq, port_eq⟩ := isAt_iff.mp passed
  rw [PathData.key, segment_eq, ← scheme_eq, port_eq]

theorem Paths.allAt_addNode {new : PathData} {t : Paths} (fresh : P (keys ++ [new.key]) new)
    (all : t.AllAt PathData.key P keys) : (addNode new t).AllAt PathData.key P keys := by
  induction t with
  | nil => exact ⟨fresh, trivial, trivial⟩
  | cons e children next children_ih next_ih =>
      rw [addNode]
      split
      · exact ⟨fresh, trivial, all⟩
      · exact ⟨all.1, all.2.1, next_ih all.2.2⟩

/-- A path only adds nodes without cookies and changes one. -/
theorem Paths.stowed_addPath {scheme : LwcString} {port : Nat} {change : PathData → PathData}
    {path : List Bytes} {t : Paths} (kept : ∀ d, (change d).key = d.key)
    (changed : ∀ d, PathData.Stowed (path.map fun segment => (scheme, port, segment)) d →
      PathData.Stowed (path.map fun segment => (scheme, port, segment)) (change d))
    (all : t.AllAt PathData.key PathData.Stowed []) :
    (addPath scheme port change path t).AllAt PathData.key PathData.Stowed [] := by
  apply allAt_extend path key_of_isAt kept _ _ all
  · intro above segment t _ known
    rw [Paths.ensure]
    split
    · exact known
    · apply Paths.allAt_addNode _ known
      intro c stored
      cases stored
  · exact changed

theorem Paths.allAt_deleteCookie {domain path name : Bytes} {t after : Paths}
    (keeps : ∀ keys d cookies, P keys d → removeFrom domain path name d.cookies = some cookies →
      P keys { d with cookies }) (all : t.AllAt PathData.key P keys)
    (done : t.deleteCookie domain path name = some after) : after.AllAt PathData.key P keys := by
  induction t generalizing keys after with
  | nil => cases done
  | cons d children next children_ih next_ih =>
      rw [deleteCookie] at done
      split at done
      · rename_i cookies removed
        cases done
        exact ⟨keeps _ d cookies all.1 removed, all.2.1, all.2.2⟩
      · split at done
        · rename_i inside
          cases done
          exact ⟨all.1, children_ih all.2.1 inside, all.2.2⟩
        · obtain ⟨rest, found, rfl⟩ := Option.map_eq_some_iff.mp done
          exact ⟨all.1, all.2.1, next_ih all.2.2 found⟩

/-- A level on the way down a path shows the nodes after the first keys of the way. -/
theorem allAt_level {scheme : LwcString} {port : Nat} {path : List Bytes} {t : Paths}
    {parent : Option PathData} {walked : List PathData} {before after : List Level} {level : Level}
    (all : t.AllAt PathData.key P keys)
    (found : t.walk (PathData.isAt scheme port) path = some walked)
    (split : levelsOf scheme port parent path t = before ++ level :: after) :
    ∃ dirs segment rest, path = dirs ++ segment :: rest ∧ rest.length = after.length ∧
      (∀ d ∈ level.siblings.toList,
        P (keys ++ (dirs.map fun segment => (scheme, port, segment)) ++ [d.key]) d) ∧
      (dirs = [] ∧ level.parent = parent ∨ ∃ p, level.parent = some p ∧
        P (keys ++ dirs.map fun segment => (scheme, port, segment)) p) := by
  induction before generalizing path t parent walked keys with
  | nil =>
      cases path with
      | nil => cases split
      | cons segment rest =>
          have size := length_levelsOf parent found
          rw [split] at size
          rw [levelsOf] at split
          cases split
          refine ⟨[], segment, rest, rfl, (Nat.succ.inj size).symm, ?_, Or.inl ⟨rfl, rfl⟩⟩
          rw [List.map_nil, List.append_nil]
          exact allAt_toList all
  | cons first before ih =>
      cases path with
      | nil => cases split
      | cons segment rest =>
          obtain ⟨d, children, below, here, deeper, rfl⟩ := walk_cons.mp found
          obtain ⟨known, inner⟩ := allAt_first all here
          rw [key_of_isAt _ _ (first_passes here)] at known inner
          rw [levelsOf, here] at split
          obtain ⟨dirs, segment', rest', rfl, size, siblings, above⟩ :=
            ih inner deeper (List.cons.inj split).2
          refine ⟨segment :: dirs, segment', rest', rfl, size, ?_, Or.inr ?_⟩
          · rw [List.map_cons, List.append_cons]
            exact siblings
          · rw [List.map_cons, List.append_cons]
            rcases above with ⟨rfl, same⟩ | above
            · rw [List.map_nil, List.append_nil]
              exact ⟨d, same, known⟩
            · exact above

end Paths

theorem part_of_isNamed (part : Bytes) (h : HostData) (passed : h.isNamed part = true) :
    folded h.part = folded part :=
  (isNamed_iff.mp passed).symm

theorem stowed_modifyAt {change : HostData → HostData} {parts : List Bytes}
    (kept : ∀ h, (change h).part = h.part)
    (changed : ∀ h : HostData, h.Stowed env (parts.map folded) →
      (change h).Stowed env (parts.map folded)) (stowed : Stowed env db) :
    Stowed env { db with hosts := db.hosts.modifyAt change parts } := by
  apply allAt_extend parts part_of_isNamed _ _ _ stowed
  · intro h
    exact congrArg folded (kept h)
  · intro above part t _ known
    exact known
  · exact changed

theorem stowed_addPath {change : PathData → PathData} {parts : List Bytes} {scheme : LwcString}
    {port : Nat} {path : Bytes} (kept : ∀ d, (change d).key = d.key)
    (changed : ∀ d, PathData.Stowed ((segments path).map fun segment => (scheme, port, segment)) d →
      PathData.Stowed ((segments path).map fun segment => (scheme, port, segment)) (change d))
    (stowed : Stowed env db) : Stowed env (addPath parts scheme port path change db) := by
  apply stowed_modifyAt _ _ stowed
  · intro h
    rfl
  · intro h known
    exact ⟨known.1, Paths.stowed_addPath kept changed known.2⟩

theorem stowed_addHost (host : Bytes) (stowed : Stowed env db) : Stowed env (addHost env db host) := by
  unfold addHost
  dsimp only
  split
  · exact stowed
  · apply allAt_extend (hostParts env host) part_of_isNamed _ _ _ stowed
    · intro h
      rfl
    · intro above part t _ known
      rw [Hosts.ensure]
      split
      · exact known
      · exact ⟨⟨by simp, trivial⟩, trivial, known⟩
    · intro h known
      exact known

theorem stowed_setUrl {url : Nsurl} {keys : List (LwcString × Nat × Bytes)} {d : PathData}
    (known : PathData.Stowed keys d) : PathData.Stowed keys (setUrl url d) := by
  intro c stored
  rw [setUrl_cookies] at stored
  exact known c stored

@[simp] theorem key_setUrl (url : Nsurl) (d : PathData) : (setUrl url d).key = d.key := by
  unfold setUrl
  split <;> rfl

theorem stowed_addUrl (url : Nsurl) (stowed : Stowed env db) : Stowed env (addUrl env db url).1 := by
  unfold addUrl
  dsimp only
  split
  · exact stowed_addPath (key_setUrl url) (fun _ known => stowed_setUrl known)
      (stowed_addHost _ stowed)
  · exact stowed

theorem stowed_findOrAddHost (host : Bytes) (stowed : Stowed env db) :
    Stowed env (findOrAddHost env db host).1 := by
  unfold findOrAddHost
  split
  · exact stowed
  · exact stowed_addHost host stowed

/-- A stored cookie is filed by its domain and path. -/
theorem stowed_insertCookie {c : Cookie} (scheme : LwcString) (url : Nsurl)
    (findable : Findable env (cookieHost c)) (sound : Sound env db) (stowed : Stowed env db) :
    Stowed env (insertCookie env db c scheme url) := by
  have parts := (walk_findOrAddHost findable sound).1
  have before := stowed_findOrAddHost (cookieHost c) stowed
  unfold insertCookie
  split
  · rename_i dot
    have host_eq : cookieHost c = c.domain.drop 1 := if_pos dot
    rw [host_eq] at parts before
    apply stowed_modifyAt _ _ before
    · intro h
      rfl
    · intro h known
      refine ⟨fun d stored => ?_, known.2⟩
      rcases mem_insertInto stored with rfl | old
      · rw [host_eq]
        exact ⟨dot, parts.symm⟩
      · exact known.1 d old
  · rename_i noDot
    have host_eq : cookieHost c = c.domain := if_neg noDot
    rw [host_eq] at before
    apply stowed_addPath _ _ before
    · exact key_setUrl url
    · intro d known e stored
      rcases mem_insertInto stored with rfl | old
      · exact ⟨noDot, scheme, rfl⟩
      · exact known e old

theorem stowed_deleteCookie (domain path name : Bytes) (stowed : Stowed env db) :
    Stowed env (deleteCookie db domain path name) := by
  have deleted (parts : List Bytes) (h : HostData) (known : h.Stowed env parts) :
      (h.deleteCookie domain path name).Stowed env parts := by
    rw [HostData.deleteCookie]
    split
    · rename_i cookies removed
      exact ⟨fun c stored => known.1 c (mem_removeFrom removed stored), known.2⟩
    · refine ⟨known.1, ?_⟩
      cases done : h.paths.deleteCookie domain path name with
      | none => exact known.2
      | some after =>
          refine Paths.allAt_deleteCookie ?_ known.2 done
          intro keys d cookies old removed c stored
          exact old c (mem_removeFrom removed stored)
  have everywhere (parts : List Bytes) (t : Hosts)
      (known : t.AllAt (fun h => folded h.part) (HostData.Stowed env) parts) :
      (t.deleteCookie domain path name).AllAt (fun h => folded h.part) (HostData.Stowed env)
        parts := by
    induction t generalizing parts with
    | nil => exact trivial
    | cons h children next children_ih next_ih =>
        rw [Hosts.deleteCookie, AllAt, Hosts.part_deleteCookie]
        exact ⟨deleted _ h known.1, children_ih _ known.2.1, next_ih _ known.2.2⟩
  exact everywhere [] db.hosts stowed

theorem stowed_loadUrl {junk : Nsurl.Buff} {host scheme ports rest : Bytes}
    (stowed : Stowed env db) : Stowed env (loadUrl env db junk host scheme ports rest) := by
  unfold loadUrl
  split
  · exact stowed
  · dsimp only
    split
    · exact stowed_addPath (key_setUrl _) (fun _ known => stowed_setUrl known) stowed
    · exact stowed

theorem stowed_annotated {after : Database} (stowed : Stowed env db) (noted : Annotated db after) :
    Stowed env after := by
  obtain ⟨change, parts, annotation, rfl⟩ := noted
  obtain ⟨test, changeNode, keys, node, paths⟩ := annotation.paths
  apply stowed_modifyAt annotation.part _ stowed
  intro h known
  rw [HostData.Stowed, annotation.cookies, paths]
  refine ⟨known.1, allAt_extend_kept keys ?_ ?_ known.2⟩
  · intro d
    rw [PathData.key, PathData.key, node.scheme, node.port, node.segment]
  · intro path d known c stored
    rw [node.cookies] at stored
    exact known c stored

/-- A step that adds fitting hosts files its cookies by their domains and paths. -/
theorem stowed_step {op : Operation} {after : Database} (fitting : Fitting env db op)
    (sound : Sound env db) (stowed : Stowed env db) (done : step env db op = some after) :
    Stowed env after := by
  cases op with
  | addUrl url =>
      cases done
      exact stowed_addUrl url stowed
  | getCookie url includeHttpOnly =>
      cases done
      exact stowed_addUrl url stowed
  | setCookie header url referer =>
      rw [step] at done
      cases answer : setCookie env db header url referer with
      | done db answered =>
          simp only [answer] at done
          cases done
          have both : Sound env after ∧ Stowed env after := by
            refine @setCookie_rule (fun db => Sound env db ∧ Stowed env db) _ _ _ _ _ _ _ ?_
              ⟨sound, stowed⟩ answer
            intro c scheme db stored known
            have fits := fitting _ ⟨c, stored, rfl⟩
            exact ⟨sound_insertCookie scheme _ fits known.1,
              stowed_insertCookie scheme _ fits.1 known.1 known.2⟩
          exact both.2
      | diverges => simp [answer] at done
  | deleteCookie domain path name =>
      cases done
      exact stowed_deleteCookie domain path name stowed
  | loadFilter =>
      cases done
      exact stowed
  | loadHost host =>
      cases done
      exact stowed_addHost host stowed
  | loadUrl junk host scheme ports rest =>
      cases done
      exact stowed_loadUrl (stowed_addHost host stowed)
  | loadCookie c scheme page =>
      cases done
      exact stowed_insertCookie scheme page (fitting _ rfl).1 sound stowed
  | destroy =>
      cases done
      exact trivial
  | setAuthDetails | getAuthDetails | setCertPermissions | setHstsPolicy | getHstsEnabled
  | changeUrl | loadHsts | loadUrlData =>
      rcases annotated_step (by exact trivial) done with noted | ⟨url, _, noted⟩
      · exact stowed_annotated stowed noted
      · exact stowed_annotated (stowed_addUrl url stowed) noted

/-- A later time does not change where cookies are filed. -/
theorem stowed_at (now : Int) : Stowed (env.at now) db ↔ Stowed env db := Iff.rfl

/-- Every run that only adds fitting hosts files its cookies by their domains and paths. -/
theorem stowed_run (reached : Reachable env Fitting db) : Stowed env db := by
  induction reached with
  | empty => exact trivial
  | step now op before fitting done ih =>
      have sound := (sound_at now).mpr (sound_run before)
      exact (stowed_at now).mp (stowed_step fitting sound ((stowed_at now).mpr ih) done)

end Neosurf.Urldb
