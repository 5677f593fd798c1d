import Neosurf.Proof.Urldb.DeleteCookie
import Neosurf.Proof.Urldb.SearchTrees
import Neosurf.ToMathlib.SiblingTree.Places

namespace Neosurf.Urldb

open SiblingTree

variable {env : Environment} {db : Database}

/-- A chain of some search tree leads to these parts. -/
def Chained (db : Database) (parts : List Bytes) : Prop :=
  ∃ i, ∃ chain ∈ (db.searchTrees i).toList, chain.reverse.map folded = parts

/-- The keys on the way to a node name its scheme and port, and segments without a slash. -/
def PathData.Filed (keys : List (LwcString × Nat × Bytes)) (d : PathData) : Prop :=
  ∃ segments : List Bytes, keys = segments.map (fun segment => (d.scheme, d.port, segment)) ∧
    ∀ segment ∈ segments, chr '/' ∉ segment

/-- A host with paths is in a search tree. Its nodes are told apart by their keys, and those
without children have a URL. -/
structure HostData.Listed (chained : List Bytes → Prop) (parts : List Bytes) (h : HostData) :
    Prop where
  chained : h.paths ≠ .nil → chained parts
  distinct : h.paths.Ascending PathData.key (· ≠ ·)
  urls : h.paths.Tips fun d => d.url.isSome = true
  filed : h.paths.AllAt PathData.key PathData.Filed []

/-- Every chain names a host and is in the tree of its first label, and the hosts are told apart
by their names. -/
structure Listed (env : Environment) (db : Database) : Prop where
  names : ∀ i, ∀ chain ∈ (db.searchTrees i).toList, ∃ host, Findable env host ∧
    chain.reverse.map folded = (lookedParts env host).map folded
  trees : ∀ i, ∀ chain ∈ (db.searchTrees i).toList, searchTreeOf env (chain.headD []) = i
  distinct : db.hosts.Ascending (fun h => folded h.part) (· ≠ ·)
  hosts : db.hosts.AllAt (fun h => folded h.part) (HostData.Listed (Chained db)) []

namespace Paths

variable {scheme : LwcString} {port : Nat} {P : PathData → Prop}

theorem distinct_addNode {new : PathData} {t : Paths} (fresh : ∀ d ∈ t.toList, d.key ≠ new.key)
    (distinct : t.Ascending PathData.key (· ≠ ·)) :
    (addNode new t).Ascending PathData.key (· ≠ ·) := by
  induction t with
  | nil =>
      refine ⟨fun e impossible => ?_, trivial, trivial⟩
      cases impossible
  | cons e children next children_ih next_ih =>
      obtain ⟨own, inside, after⟩ := distinct
      rw [addNode]
      split
      · exact ⟨fun d stored => (fresh d stored).symm, trivial, own, inside, after⟩
      · refine ⟨fun d stored => ?_, inside,
          next_ih (fun d stored => fresh d (List.mem_cons_of_mem _ stored)) after⟩
        rcases mem_addNode stored with rfl | old
        · exact fresh e List.mem_cons_self
        · exact own d old

theorem distinct_ensure {segment : Bytes} {t : Paths}
    (distinct : t.Ascending PathData.key (· ≠ ·)) :
    (ensure scheme port segment t).Ascending PathData.key (· ≠ ·) := by
  rw [ensure]
  split
  · exact distinct
  · rename_i absent
    apply distinct_addNode _ distinct
    intro d stored same
    simp only [PathData.key, Prod.mk.injEq] at same
    apply absent
    exact has_iff.mpr ⟨d, stored, isAt_iff.mpr ⟨same.2.2, same.1.symm, same.2.1⟩⟩

theorem distinct_addPath {change : PathData → PathData} {path : List Bytes} {t : Paths}
    (kept : ∀ d, (change d).key = d.key) (distinct : t.Ascending PathData.key (· ≠ ·)) :
    (addPath scheme port change path t).Ascending PathData.key (· ≠ ·) :=
  ascending_extend kept (fun _ _ known => distinct_ensure known) path distinct

theorem addNode_ne_nil (new : PathData) (t : Paths) : addNode new t ≠ .nil := by
  cases t with
  | nil => simp [addNode]
  | cons e children next =>
      rw [addNode]
      split <;> simp

/-- An added path leaves some node. -/
theorem addPath_ne_nil {change : PathData → PathData} (segment : Bytes) (rest : List Bytes)
    (t : Paths) : addPath scheme port change (segment :: rest) t ≠ .nil := by
  intro empty
  have before : ensure scheme port segment t = .nil := modifyFirst_eq_nil.mp empty
  rw [ensure] at before
  split at before
  · rename_i present
    rw [before] at present
    cases present
  · exact addNode_ne_nil _ t before

/-- A new node only matters for the tips once it was changed. -/
theorem tips_modifyFirst_addNode {new : PathData} {test : PathData → Bool}
    {change : PathData → PathData} {inner : Paths → Paths} {t : Paths} (passed : test new = true)
    (absent : t.has test = false) (own : inner .nil = .nil → P (change new))
    (below : (inner .nil).Tips P) (tips : t.Tips P) :
    ((addNode new t).modifyFirst test change inner).Tips P := by
  induction t with
  | nil =>
      rw [addNode, modifyFirst, if_pos passed]
      exact ⟨own, below, trivial⟩
  | cons e children next children_ih next_ih =>
      rw [has, Bool.or_eq_false_iff] at absent
      rw [addNode]
      split
      · rw [modifyFirst, if_pos passed]
        exact ⟨own, below, tips⟩
      · rw [modifyFirst, absent.1, if_neg Bool.false_ne_true]
        exact ⟨tips.1, tips.2.1, next_ih absent.2 tips.2.2⟩

/-- The last node of an added path is the only new node without children. -/
theorem tips_addPath {change : PathData → PathData} (changed : ∀ d, P (change d)) (segment : Bytes)
    (rest : List Bytes) {t : Paths} (tips : t.Tips P) :
    (addPath scheme port change (segment :: rest) t).Tips P := by
  induction rest generalizing segment t with
  | nil =>
      change ((ensure scheme port segment t).modifyFirst (PathData.isAt scheme port segment) change
        id).Tips P
      rw [ensure]
      split
      · exact tips_modifyFirst (fun d _ _ _ => changed d) (fun t known => known) tips
      · rename_i absent
        exact tips_modifyFirst_addNode (isAt_iff.mpr ⟨rfl, rfl, rfl⟩) (by simpa using absent)
          (fun _ => changed _) trivial tips
  | cons next rest ih =>
      change ((ensure scheme port segment t).modifyFirst (PathData.isAt scheme port segment) id
        (addPath scheme port change (next :: rest))).Tips P
      rw [ensure]
      split
      · exact tips_modifyFirst (fun d children _ empty => absurd empty (addPath_ne_nil next rest _))
          (fun t known => ih next known) tips
      · rename_i absent
        exact tips_modifyFirst_addNode (isAt_iff.mpr ⟨rfl, rfl, rfl⟩) (by simpa using absent)
          (fun empty => absurd empty (addPath_ne_nil next rest _)) (ih next trivial) tips

/-- The nodes of an added path are filed by its segments. -/
theorem filed_addPath {change : PathData → PathData} {path : List Bytes} {t : Paths}
    (kept : ∀ d, (change d).key = d.key) (plain : ∀ segment ∈ path, chr '/' ∉ segment)
    (filed : t.AllAt PathData.key PathData.Filed []) :
    (addPath scheme port change path t).AllAt PathData.key PathData.Filed [] := by
  apply allAt_extend path key_of_isAt kept _ _ filed
  · intro above segment t start known
    rw [ensure]
    split
    · exact known
    · apply Paths.allAt_addNode _ known
      refine ⟨above ++ [segment], ?_, fun segment inside => plain segment (start.subset inside)⟩
      rw [List.map_append, List.nil_append]
      rfl
  · intro d known
    have same := kept d
    simp only [PathData.key, Prod.mk.injEq] at same
    rw [PathData.Filed, same.1, same.2.1]
    exact known

end Paths

theorem Hosts.distinct_ensure {part : Bytes} {t : Hosts}
    (distinct : t.Ascending (fun h => folded h.part) (· ≠ ·)) :
    (ensure part t).Ascending (fun h => folded h.part) (· ≠ ·) := by
  rw [ensure]
  split
  · exact distinct
  · rename_i absent
    refine ⟨fun h stored same => ?_, trivial, distinct⟩
    exact absent (has_iff.mpr ⟨h, stored, isNamed_iff.mpr same⟩)

theorem listed_empty : Listed env {} where
  names _ _ impossible := by cases impossible
  trees _ _ impossible := by cases impossible
  distinct := trivial
  hosts := trivial

theorem HostData.Listed.mono {chained chained' : List Bytes → Prop} {parts : List Bytes}
    {h : HostData} (more : ∀ parts, chained parts → chained' parts)
    (listed : h.Listed chained parts) : h.Listed chained' parts where
  chained filled := more parts (listed.chained filled)
  distinct := listed.distinct
  urls := listed.urls
  filed := listed.filed

theorem chained_addHost {host : Bytes} {parts : List Bytes} (chained : Chained db parts) :
    Chained (addHost env db host) parts := by
  obtain ⟨i, chain, stored, same⟩ := chained
  exact ⟨i, chain, mem_addHost stored, same⟩

/-- A host that was added has a chain. -/
theorem chained_addHost_self {host : Bytes} (findable : Findable env host) (sound : Sound env db) :
    Chained (addHost env db host) ((hostParts env host).map folded) := by
  obtain ⟨chain, found, same⟩ := searchFind_addHost findable sound
  have stored := (searchFind_spec (indexed_addHost findable sound.toIndexed) found).1
  exact ⟨_, chain, stored, same⟩

theorem listed_addHost {host : Bytes} (blind : CaseBlind env) (findable : Findable env host)
    (listed : Listed env db) : Listed env (addHost env db host) := by
  have hosts : db.hosts.AllAt (fun h => folded h.part)
      (HostData.Listed (Chained (addHost env db host))) [] :=
    allAt_mono (fun _ _ known => known.mono fun _ => chained_addHost) listed.hosts
  rcases addHost_cases env db host with ⟨_, _, same⟩ | ⟨walked, found, after⟩
  · rw [same]
    exact listed
  · rw [after] at hosts ⊢
    refine ⟨?_, ?_, ?_, ?_⟩
    · intro i chain stored
      rcases mem_searchInsert stored with old | ⟨rfl, rfl⟩
      · exact listed.names i chain old
      · exact ⟨host, findable, by rw [folded_chain found, hostParts_eq findable]⟩
    · intro i chain stored
      rcases mem_searchInsert stored with old | ⟨rfl, rfl⟩
      · exact listed.trees i chain old
      · exact searchTreeOf_congr blind (folded_headD (folded_chain found))
    · exact ascending_extend (fun _ => rfl) (fun _ _ known => Hosts.distinct_ensure known) _
        listed.distinct
    · apply allAt_extend (hostParts env host) part_of_isNamed _ _ _ hosts
      · intro h
        rfl
      · intro above part t _ known
        rw [Hosts.ensure]
        split
        · exact known
        · exact ⟨⟨fun filled => absurd rfl filled, trivial, trivial, trivial⟩, trivial, known⟩
      · intro h known
        exact known

theorem listed_modifyAt {change : HostData → HostData} {parts : List Bytes}
    (kept : ∀ h, (change h).part = h.part)
    (changed : ∀ h : HostData, h.Listed (Chained db) (parts.map folded) →
      (change h).Listed (Chained db) (parts.map folded)) (listed : Listed env db) :
    Listed env { db with hosts := db.hosts.modifyAt change parts } where
  names := listed.names
  trees := listed.trees
  distinct := by
    refine ascending_extend ?_ (fun _ _ known => known) parts listed.distinct
    intro h
    exact congrArg folded (kept h)
  hosts := by
    apply allAt_extend parts part_of_isNamed _ _ _ listed.hosts
    · intro h
      exact congrArg folded (kept h)
    · intro above part t _ known
      exact known
    · exact changed

theorem listed_addPath {change : PathData → PathData} {parts : List Bytes} {scheme : LwcString}
    {port : Nat} {path : Bytes} (kept : ∀ d, (change d).key = d.key)
    (url : ∀ d, (change d).url.isSome = true) (chained : Chained db (parts.map folded))
    (listed : Listed env db) : Listed env (addPath parts scheme port path change db) := by
  obtain ⟨segment, rest, way⟩ := segments_eq path
  apply listed_modifyAt _ _ listed
  · intro h
    rfl
  · intro h known
    have plain : ∀ segment ∈ segments path, chr '/' ∉ segment :=
      fun _ inside => List.not_mem_of_mem_splitOn inside
    refine ⟨fun _ => chained, Paths.distinct_addPath kept known.distinct, ?_,
      Paths.filed_addPath kept plain known.filed⟩
    change Tips _ (h.paths.addPath scheme port change (segments path))
    rw [way]
    exact Paths.tips_addPath url segment rest known.urls

theorem isSome_setUrl (url : Nsurl) (d : PathData) : (setUrl url d).url.isSome = true := by
  unfold setUrl
  split
  · rfl
  · rename_i present
    exact Option.isSome_iff_ne_none.mpr present

theorem listed_addUrl {url : Nsurl} (blind : CaseBlind env)
    (fits : ∀ host, hostStr url = some host → Fits env host) (sound : Sound env db)
    (listed : Listed env db) : Listed env (addUrl env db url).1 := by
  have known : Listed env (bloomInsert db url.hash) :=
    ⟨listed.names, listed.trees, listed.distinct, listed.hosts⟩
  unfold addUrl
  dsimp only
  split
  · rename_i host _ _ host_eq
    exact listed_addPath (key_setUrl url) (isSome_setUrl url)
      (chained_addHost_self (fits host host_eq).1 (sound_bloomInsert _ sound))
      (listed_addHost blind (fits host host_eq).1 known)
  · exact known

theorem chained_findOrAddHost {host : Bytes} (findable : Findable env host) (sound : Sound env db) :
    Chained (findOrAddHost env db host).1 ((findOrAddHost env db host).2.map folded) := by
  unfold findOrAddHost
  cases found : searchFind env db host with
  | none => exact chained_addHost_self findable sound
  | some chain => exact ⟨_, chain, (searchFind_spec sound.toIndexed found).1, rfl⟩

theorem listed_findOrAddHost {host : Bytes} (blind : CaseBlind env) (findable : Findable env host)
    (listed : Listed env db) : Listed env (findOrAddHost env db host).1 := by
  unfold findOrAddHost
  split
  · exact listed
  · exact listed_addHost blind findable listed

theorem listed_insertCookie {c : Cookie} (scheme : LwcString) (url : Nsurl) (blind : CaseBlind env)
    (findable : Findable env (cookieHost c)) (sound : Sound env db) (listed : Listed env db) :
    Listed env (insertCookie env db c scheme url) := by
  have before := listed_findOrAddHost blind findable listed
  have chained := chained_findOrAddHost findable sound
  unfold insertCookie
  split
  · rename_i dot
    have host_eq : cookieHost c = c.domain.drop 1 := if_pos dot
    rw [host_eq] at before
    apply listed_modifyAt _ _ before
    · intro h
      rfl
    · intro h known
      exact ⟨known.chained, known.distinct, known.urls, known.filed⟩
  · rename_i noDot
    have host_eq : cookieHost c = c.domain := if_neg noDot
    rw [host_eq] at before chained
    exact listed_addPath (key_setUrl url) (isSome_setUrl url) chained before

/-- A deleted cookie leaves the shape of the paths. -/
theorem Paths.listed_deleteCookie {domain path name : Bytes} {t after : Paths}
    (done : t.deleteCookie domain path name = some after) :
    (after = .nil ↔ t = .nil) ∧
      (after.Ascending PathData.key (· ≠ ·) ↔ t.Ascending PathData.key (· ≠ ·)) ∧
      (after.Tips (fun d => d.url.isSome = true) ↔ t.Tips fun d => d.url.isSome = true) := by
  have same := (Paths.deleteCookie_spec done).2
  have key_eq (d : PathData) : (d.without domain path name).key = d.key := rfl
  have tips (t : Paths) : (t.map (PathData.without domain path name)).Tips
      (fun d => d.url.isSome = true) ↔ t.Tips fun d => d.url.isSome = true :=
    tips_mapTree fun _ => Iff.rfl
  have empty := @map_eq_nil _ after _ (PathData.without domain path name)
  rw [same, map_eq_nil] at empty
  refine ⟨empty.symm, ?_, ?_⟩
  · rw [← ascending_mapTree key_eq after, same, ascending_mapTree key_eq t]
  · rw [← tips after, same, tips t]

theorem listed_deleteCookie (domain path name : Bytes) (listed : Listed env db) :
    Listed env (deleteCookie db domain path name) := by
  have kept (h : HostData) : folded (h.deleteCookie domain path name).part = folded h.part := by
    rw [Hosts.part_deleteCookie]
  have order (t : Hosts) : (t.map (HostData.deleteCookie domain path name)).Ascending
      (fun h => folded h.part) (· ≠ ·) ↔ t.Ascending (fun h => folded h.part) (· ≠ ·) := by
    apply ascending_mapTree
    exact kept
  have deleted (parts : List Bytes) (h : HostData) (known : h.Listed (Chained db) parts) :
      (h.deleteCookie domain path name).Listed (Chained db) parts := by
    rw [HostData.deleteCookie]
    split
    · exact ⟨known.chained, known.distinct, known.urls, known.filed⟩
    · cases done : h.paths.deleteCookie domain path name with
      | none => exact ⟨known.chained, known.distinct, known.urls, known.filed⟩
      | some after =>
          obtain ⟨empty, distinct, urls⟩ := Paths.listed_deleteCookie done
          exact ⟨fun filled => known.chained (fun before => filled (empty.mpr before)),
            distinct.mpr known.distinct, urls.mpr known.urls,
            Paths.allAt_deleteCookie (fun _ _ _ filed _ => filed) known.filed done⟩
  refine ⟨listed.names, listed.trees, ?_, ?_⟩
  · rw [deleteCookie, Hosts.deleteCookie_eq_map]
    exact (order db.hosts).mpr listed.distinct
  · rw [deleteCookie, Hosts.deleteCookie_eq_map]
    exact allAt_mapTree kept deleted listed.hosts

theorem listed_loadUrl {junk : Nsurl.Buff} {host scheme ports rest : Bytes}
    (chained : Chained db ((hostParts env host).map folded)) (listed : Listed env db) :
    Listed env (loadUrl env db junk host scheme ports rest) := by
  unfold loadUrl
  split
  · exact listed
  · have known (hash : UInt32) : Listed env (bloomInsert db hash) :=
      ⟨listed.names, listed.trees, listed.distinct, listed.hosts⟩
    dsimp only
    split
    · exact listed_addPath (key_setUrl _) (isSome_setUrl _) chained (known _)
    · exact known _

theorem listed_annotated {after : Database} (listed : Listed env db) (noted : Annotated db after) :
    Listed env after := by
  obtain ⟨change, parts, annotation, rfl⟩ := noted
  obtain ⟨test, changeNode, keys, node, paths⟩ := annotation.paths
  have key_eq (d : PathData) : (changeNode d).key = d.key := by
    rw [PathData.key, PathData.key, node.scheme, node.port, node.segment]
  apply listed_modifyAt annotation.part _ listed
  intro h known
  constructor
  · intro filled
    apply known.chained
    rintro empty
    rw [paths, empty] at filled
    cases keys <;> exact filled rfl
  · rw [paths]
    exact ascending_extend key_eq (fun _ _ known => known) keys known.distinct
  · rw [paths]
    apply tips_extend_kept keys _ known.urls
    intro d present
    rw [node.url]
    exact present
  · rw [paths]
    apply allAt_extend_kept keys key_eq _ known.filed
    intro path d filed
    rw [PathData.Filed, node.scheme, node.port]
    exact filed

/-- A step that adds fitting hosts keeps all places listed. -/
theorem listed_step {op : Operation} {after : Database} (blind : CaseBlind env)
    (fitting : Fitting env db op) (sound : Sound env db) (listed : Listed env db)
    (done : step env db op = some after) : Listed env after := by
  cases op with
  | addUrl url =>
      cases done
      exact listed_addUrl blind fitting sound listed
  | getCookie url includeHttpOnly =>
      cases done
      exact listed_addUrl blind fitting sound listed
  | setCookie header url referer =>
      rw [step] at done
      cases answer : setCookie env db header url referer with
      | done db answered =>
          simp only [answer] at done
          cases done
          have both : Sound env after ∧ Listed env after := by
            refine @setCookie_rule (fun db => Sound env db ∧ Listed env db) _ _ _ _ _ _ _ ?_
              ⟨sound, listed⟩ answer
            intro c scheme db stored known
            have fits := fitting _ ⟨c, stored, rfl⟩
            exact ⟨sound_insertCookie scheme _ fits known.1,
              listed_insertCookie scheme _ blind fits.1 known.1 known.2⟩
          exact both.2
      | diverges => simp [answer] at done
  | deleteCookie domain path name =>
      cases done
      exact listed_deleteCookie domain path name listed
  | loadFilter =>
      cases done
      exact ⟨listed.names, listed.trees, listed.distinct, listed.hosts⟩
  | loadHost host =>
      cases done
      exact listed_addHost blind (fitting host rfl).1 listed
  | loadUrl junk host scheme ports rest =>
      cases done
      exact listed_loadUrl (chained_addHost_self (fitting host rfl).1 sound)
        (listed_addHost blind (fitting host rfl).1 listed)
  | loadCookie c scheme page =>
      cases done
      exact listed_insertCookie scheme page blind (fitting _ rfl).1 sound listed
  | destroy =>
      cases done
      exact listed_empty
  | setAuthDetails | getAuthDetails | setCertPermissions | setHstsPolicy | getHstsEnabled
  | changeUrl | loadHsts | loadUrlData =>
      rcases annotated_step (by exact trivial) done with noted | ⟨url, added, noted⟩
      · exact listed_annotated listed noted
      · apply listed_annotated _ noted
        exact listed_addUrl blind (fun host host_eq => fitting host ⟨url, added, host_eq⟩) sound
          listed

theorem caseBlind_at (now : Int) : CaseBlind (env.at now) ↔ CaseBlind env :=
  ⟨fun blind => ⟨blind.inetAton, blind.inetPton6⟩, fun blind => ⟨blind.inetAton, blind.inetPton6⟩⟩

theorem listed_at (now : Int) : Listed (env.at now) db ↔ Listed env db :=
  ⟨fun listed => ⟨listed.names, listed.trees, listed.distinct, listed.hosts⟩,
    fun listed => ⟨listed.names, listed.trees, listed.distinct, listed.hosts⟩⟩

/-- Every run that only adds fitting hosts keeps all places listed. -/
theorem listed_run (blind : CaseBlind env) (reached : Reachable env Fitting db) : Listed env db := by
  induction reached with
  | empty => exact listed_empty
  | step now op before fitting done ih =>
      have sound := (sound_at now).mpr (sound_run before)
      have blind_now := (caseBlind_at now).mpr blind
      exact (listed_at now).mp (listed_step blind_now fitting sound ((listed_at now).mpr ih) done)

end Neosurf.Urldb
