import Neosurf.Proof.Urldb.StoredCookies
import Neosurf.Proof.Urldb.HostTree
import Neosurf.Proof.Urldb.PathTree
import Neosurf.ToMathlib.SplitOn
import Neosurf.Proof.Urldb.CookieRules

namespace Neosurf.Urldb

section SoundRuns

open SiblingTree

variable {env : Environment} {db : Database}

instance : Std.TransCmp searchMatchHost :=
  inferInstanceAs (Std.TransCmp (List.compareLex strcasecmp))

theorem searchMatchHost_eq_iff {a b : Chain} :
    searchMatchHost a b = .eq ↔ a.map folded = b.map folded := by
  rw [searchMatchHost, List.compareLex_eq_eq_iff, ← List.forall₂_image_iff]
  simp only [strcasecmp_eq_iff]

/-- The heads of chains in order are in order. -/
theorem headD_isLE {a b : Chain} (less : searchMatchHost a b = .lt) :
    (strcasecmp (a.headD []) (b.headD [])).isLE = true := by
  cases a with
  | nil => exact List.isLE_compareLex_nil_left
  | cons x xs =>
      cases b with
      | nil => cases less
      | cons y ys => exact Ordering.isLE_iff_ne_gt.mpr (List.ne_gt_of_compareLex_eq_lt less)

/-- The search for a host respects the order of the tree. -/
theorem cut_searchMatchString (host : Bytes) :
    AATree.Cut searchMatchHost (searchMatchString env host) := by
  by_cases address : hostIsIpAddress env host = true
  · constructor
    · intro a b less greater
      rw [searchMatchString, if_pos address] at *
      have before : strcasecmp host (a.headD []) = .lt := Std.OrientedCmp.gt_iff_lt.mp greater
      exact Std.OrientedCmp.gt_iff_lt.mpr (Std.TransCmp.lt_of_lt_of_isLE before (headD_isLE less))
    · intro a b less smaller
      rw [searchMatchString, if_pos address] at *
      exact Std.TransCmp.lt_of_isLE_of_lt (headD_isLE less) smaller
  · constructor
    · intro a b less greater
      rw [searchMatchString, if_neg address] at *
      have before : searchMatchHost (host.splitOn (chr '.')) a = .lt :=
        Std.OrientedCmp.gt_iff_lt.mp greater
      have whole : searchMatchHost (host.splitOn (chr '.')) b = .lt :=
        Std.TransCmp.lt_trans before less
      exact Std.OrientedCmp.gt_iff_lt.mpr whole
    · intro a b less smaller
      rw [searchMatchString, if_neg address] at *
      have after : searchMatchHost b (host.splitOn (chr '.')) = .lt := smaller
      have whole : searchMatchHost a (host.splitOn (chr '.')) = .lt :=
        Std.TransCmp.lt_trans less after
      exact whole

/-- The parts that a search looks for, from the root. An address is one part. -/
def lookedParts (env : Environment) (host : Bytes) : List Bytes :=
  if hostIsIpAddress env host then [host] else (host.splitOn (chr '.')).reverse

/-- A host that is no address fits in the buffer, and its first label is no address. -/
def Findable (env : Environment) (host : Bytes) : Prop :=
  hostIsIpAddress env host = true ∨
    host.length < 256 ∧ hostIsIpAddress env ((host.splitOn (chr '.')).headD []) = false

/-- Neither is the last label of a fitting host an address, whatever the case of its letters. -/
def Fits (env : Environment) (host : Bytes) : Prop :=
  Findable env host ∧ (hostIsIpAddress env host = true ∨
    ∀ address, folded address = folded ((host.splitOn (chr '.')).getLastD []) →
      hostIsIpAddress env address = false)

theorem hostParts_eq {host : Bytes} (findable : Findable env host) :
    hostParts env host = lookedParts env host := by
  rw [hostParts, lookedParts]
  rcases findable with address | ⟨short, _⟩
  · rw [if_pos address, if_pos address]
  · rw [List.take_of_length_le (by omega)]

theorem hostParts_ne_nil (host : Bytes) : hostParts env host ≠ [] := by
  rw [hostParts]
  split
  · exact List.cons_ne_nil _ _
  · rw [ne_eq, List.reverse_eq_nil_iff]
    exact List.splitOn_ne_nil _ _

theorem searchTreeOf_eq_ip_iff {host : Bytes} :
    searchTreeOf env host = ST_IP ↔ hostIsIpAddress env host = true := by
  unfold searchTreeOf
  split
  · rename_i address
    simp [address]
  · rename_i name
    simp only [name]
    split <;> simp [ST_IP, ST_DN, ST_EE]

/-- A findable host is searched for in the tree that it enters. -/
theorem searchTreeOf_first {host : Bytes} (findable : Findable env host) :
    searchTreeOf env ((hostParts env host).getLastD []) = searchTreeOf env host := by
  rw [hostParts_eq findable, lookedParts]
  by_cases address : hostIsIpAddress env host = true
  · rw [if_pos address, List.getLastD_cons]
    rfl
  · have name := (findable.resolve_left address).2
    have first : ((host.splitOn (chr '.')).reverse).getLastD [] = (host.splitOn (chr '.')).headD [] := by
      rw [List.getLastD_eq_getLast?, List.getLast?_reverse, List.headD_eq_head?_getD]
    rw [if_neg address, first, searchTreeOf, searchTreeOf, if_neg address,
      if_neg (by rw [name]; exact Bool.false_ne_true), List.headD_splitOn]
    have same : isAlpha (byteAt (host.takeWhile (· != chr '.')) 0) = isAlpha (byteAt host 0) ∧
        (isAlpha (byteAt host 0) = true →
          byteAt (host.takeWhile (· != chr '.')) 0 = byteAt host 0) := by
      cases host with
      | nil => exact ⟨rfl, fun _ => rfl⟩
      | cons c rest =>
          rw [List.takeWhile_cons]
          by_cases dot : c = chr '.'
          · subst dot
            exact ⟨rfl, fun impossible => by cases impossible⟩
          · simp [dot, byteAt]
    by_cases letter : isAlpha (byteAt host 0) = true
    · rw [same.2 letter]
    · rw [same.1, if_neg letter, if_neg letter]

/-- The search trees are sorted, their chains lead to hosts and the addresses have one part.
All paths are ordered. -/
structure Indexed (db : Database) : Prop where
  sorted : ∀ i, (db.searchTrees i).Sorted searchMatchHost
  walks : ∀ i, ∀ chain ∈ (db.searchTrees i).toList, (db.hosts.walk chain.reverse).isSome = true
  single : ∀ chain ∈ (db.searchTrees ST_IP).toList, ∃ part, chain = [part]
  ordered : db.hosts.All fun h => Paths.Ordered h.paths

/-- Every address at the top of the host tree is in the search tree for addresses. -/
structure Sound (env : Environment) (db : Database) : Prop extends Indexed db where
  addresses : ∀ host, hostIsIpAddress env host = true →
    db.hosts.has (HostData.isNamed host) = true →
      ∃ part, [part] ∈ (db.searchTrees ST_IP).toList ∧ folded part = folded host

theorem sound_empty : Sound env {} where
  sorted _ := List.Pairwise.nil
  walks _ _ impossible := by cases impossible
  single _ impossible := by cases impossible
  ordered := trivial
  addresses _ _ impossible := by cases impossible

/-- What is found in a search is stored, and it leads to the parts looked for. -/
theorem searchFind_spec {host : Bytes} {chain : Chain} (indexed : Indexed db)
    (found : searchFind env db host = some chain) :
    chain ∈ (db.searchTrees (searchTreeOf env host)).toList ∧
      chain.reverse.map folded = (lookedParts env host).map folded := by
  obtain ⟨stored, same⟩ := AATree.find_eq_some found
  refine ⟨stored, ?_⟩
  rw [searchMatchString] at same
  rw [lookedParts]
  split at same
  · rename_i address
    rw [searchTreeOf_eq_ip_iff.mpr address] at stored
    obtain ⟨part, rfl⟩ := indexed.single chain stored
    have part_eq : folded part = folded host := strcasecmp_eq_iff.mp same
    rw [if_pos address, List.reverse_singleton, List.map_singleton, List.map_singleton, part_eq]
  · rename_i name
    rw [if_neg name, List.map_reverse, List.map_reverse, searchMatchHost_eq_iff.mp same]

/-- A chain with the parts looked for is found, or one like it. -/
theorem searchFind_isSome {host : Bytes} {chain : Chain} (indexed : Indexed db)
    (stored : chain ∈ (db.searchTrees (searchTreeOf env host)).toList)
    (same : chain.reverse.map folded = (lookedParts env host).map folded) :
    ∃ other, searchFind env db host = some other ∧
      other.reverse.map folded = (lookedParts env host).map folded := by
  have accepted : searchMatchString env host chain = .eq := by
    rw [searchMatchString]
    rw [lookedParts] at same
    split
    · rename_i address
      rw [searchTreeOf_eq_ip_iff.mpr address] at stored
      obtain ⟨part, rfl⟩ := indexed.single chain stored
      rw [if_pos address] at same
      exact strcasecmp_eq_iff.mpr (List.cons.inj same).1
    · rename_i name
      rw [if_neg name, List.map_reverse, List.map_reverse] at same
      exact searchMatchHost_eq_iff.mpr (List.reverse_injective same)
  have found := AATree.find_isSome (cut_searchMatchString host) (indexed.sorted _) stored accepted
  obtain ⟨other, found⟩ := Option.isSome_iff_exists.mp found
  exact ⟨other, found, (searchFind_spec indexed found).2⟩

/-- What `urldb_add_host` does to a host that it does not know as an address. -/
theorem addHost_cases (env : Environment) (db : Database) (host : Bytes) :
    hostIsIpAddress env host = true ∧ db.hosts.has (HostData.isNamed host) = true ∧
        addHost env db host = db ∨
      ∃ walked, (db.hosts.add (hostParts env host)).walk (hostParts env host) = some walked ∧
        addHost env db host = searchInsert { db with hosts := db.hosts.add (hostParts env host) }
          (searchTreeOf env ((hostParts env host).getLastD [])) (walked.reverse.map HostData.part) := by
  by_cases known : hostIsIpAddress env host = true ∧ db.hosts.has (HostData.isNamed host) = true
  · refine Or.inl ⟨known.1, known.2, ?_⟩
    unfold addHost
    rw [if_pos known]
  · have parts : hostParts env host ≠ [] := hostParts_ne_nil host
    obtain ⟨above, h, walked, _⟩ := Hosts.walk_add_self parts db.hosts
    refine Or.inr ⟨above ++ [h], walked, ?_⟩
    unfold addHost
    dsimp only
    rw [if_neg known, walked, Option.getD_some]

/-- The chain of an added host leads to it. -/
theorem folded_chain {parts : List Bytes} {t : Hosts} {walked : List HostData}
    (found : t.walk parts = some walked) :
    (walked.reverse.map HostData.part).reverse.map folded = parts.map folded := by
  rw [← List.map_reverse, List.reverse_reverse, Hosts.folded_walk found]

theorem mem_searchInsert {tree i : Nat} {chain x : Chain}
    (stored : x ∈ ((searchInsert db tree chain).searchTrees i).toList) :
    x ∈ (db.searchTrees i).toList ∨ i = tree ∧ x = chain := by
  change x ∈ (if i = tree then _ else _ : AATree Chain).toList at stored
  split at stored
  · rename_i same
    subst same
    exact (AATree.mem_insert stored).imp_right fun new => ⟨rfl, new⟩
  · exact Or.inl stored

theorem mem_searchInsert_of_mem {tree i : Nat} {chain x : Chain}
    (stored : x ∈ (db.searchTrees i).toList) :
    x ∈ ((searchInsert db tree chain).searchTrees i).toList := by
  change x ∈ (if i = tree then _ else _ : AATree Chain).toList
  split
  · rename_i same
    subst same
    exact AATree.mem_insert_of_mem stored
  · exact stored

/-- After an insertion, a chain with the inserted parts is stored. -/
theorem exists_mem_searchInsert (db : Database) (tree : Nat) (chain : Chain) :
    ∃ x ∈ ((searchInsert db tree chain).searchTrees tree).toList,
      x.map folded = chain.map folded := by
  change ∃ x ∈ (if tree = tree then _ else _ : AATree Chain).toList, _
  rw [if_pos rfl]
  obtain ⟨x, stored, same⟩ :=
    @AATree.exists_mem_insert _ searchMatchHost _ chain (db.searchTrees tree)
  exact ⟨x, stored, searchMatchHost_eq_iff.mp same⟩

theorem indexed_addHost {host : Bytes} (findable : Findable env host) (indexed : Indexed db) :
    Indexed (addHost env db host) := by
  rcases addHost_cases env db host with ⟨_, _, same⟩ | ⟨walked, found, after⟩
  · rw [same]
    exact indexed
  · rw [after]
    constructor
    · intro i
      change (if i = _ then _ else _ : AATree Chain).Sorted searchMatchHost
      split
      · exact AATree.sorted_insert _ (indexed.sorted _)
      · exact indexed.sorted i
    · intro i chain stored
      change ((db.hosts.add (hostParts env host)).walk chain.reverse).isSome = true
      rcases mem_searchInsert stored with old | ⟨rfl, rfl⟩
      · obtain ⟨walkedBefore, before⟩ := Option.isSome_iff_exists.mp (indexed.walks i chain old)
        rw [Hosts.walk_add before]
        rfl
      · rw [Hosts.walk_congr (folded_chain found), found]
        rfl
    · intro chain stored
      rcases mem_searchInsert stored with old | ⟨tree, rfl⟩
      · exact indexed.single chain old
      · rw [searchTreeOf_first findable] at tree
        have address := searchTreeOf_eq_ip_iff.mp tree.symm
        have single := congrArg List.length (Hosts.folded_walk found)
        rw [hostParts_eq findable, lookedParts, if_pos address] at single
        simp only [List.length_map, List.length_singleton] at single
        obtain ⟨h, rfl⟩ := List.length_eq_one_iff.mp single
        exact ⟨h.part, rfl⟩
    · refine Hosts.all_add (fun part => trivial) _ indexed.ordered

/-- A known address is in its search tree after it was added. -/
theorem address_addHost {host : Bytes} (address : hostIsIpAddress env host = true)
    (sound : Sound env db) :
    ∃ part, [part] ∈ ((addHost env db host).searchTrees ST_IP).toList ∧ folded part = folded host := by
  have indexed := indexed_addHost (Or.inl address) sound.toIndexed
  rcases addHost_cases env db host with ⟨_, present, same⟩ | ⟨walked, found, after⟩
  · rw [same]
    exact sound.addresses host address present
  · have tree : searchTreeOf env ((hostParts env host).getLastD []) = ST_IP := by
      rw [searchTreeOf_first (Or.inl address), searchTreeOf_eq_ip_iff.mpr address]
    rw [after, tree] at indexed ⊢
    obtain ⟨x, stored, same⟩ := exists_mem_searchInsert
      { db with hosts := db.hosts.add (hostParts env host) } ST_IP
      (walked.reverse.map HostData.part)
    obtain ⟨part, rfl⟩ := indexed.single x stored
    refine ⟨part, stored, ?_⟩
    have single : hostParts env host = [host] := by
      rw [hostParts_eq (Or.inl address), lookedParts, if_pos address]
    have folded_eq := congrArg List.reverse same
    rw [← List.map_reverse, ← List.map_reverse, folded_chain found, single] at folded_eq
    exact (List.cons.inj folded_eq).1

/-- A fitting host keeps the database sound. -/
theorem sound_addHost {host : Bytes} (fits : Fits env host) (sound : Sound env db) :
    Sound env (addHost env db host) := by
  refine { toIndexed := indexed_addHost fits.1 sound.toIndexed, addresses := ?_ }
  intro other other_address present
  have known (before : db.hosts.has (HostData.isNamed other) = true) : ∃ part,
      [part] ∈ ((addHost env db host).searchTrees ST_IP).toList ∧ folded part = folded other := by
    obtain ⟨part, stored, same⟩ := sound.addresses other other_address before
    refine ⟨part, ?_, same⟩
    rcases addHost_cases env db host with ⟨_, _, unchanged⟩ | ⟨walked, _, after⟩
    · rw [unchanged]
      exact stored
    · rw [after]
      exact mem_searchInsert_of_mem stored
  rcases addHost_cases env db host with ⟨_, _, unchanged⟩ | ⟨walked, _, after⟩
  · rw [unchanged] at present
    exact known present
  · have inside : (db.hosts.add (hostParts env host)).has (HostData.isNamed other) = true := by
      rw [after] at present
      exact present
    have parts := hostParts_eq fits.1
    rw [lookedParts] at parts
    by_cases address : hostIsIpAddress env host = true
    · rw [if_pos address] at parts
      rw [parts] at inside
      rcases Hosts.has_add inside with before | same
      · exact known before
      · obtain ⟨part, stored, part_eq⟩ := address_addHost address sound
        exact ⟨part, stored, part_eq.trans same.symm⟩
    · rw [if_neg address] at parts
      cases labels : (host.splitOn (chr '.')).reverse with
      | nil => exact absurd (List.reverse_eq_nil_iff.mp labels) (List.splitOn_ne_nil _ _)
      | cons top rest =>
          rw [parts, labels] at inside
          rcases Hosts.has_add inside with before | same
          · exact known before
          · have last : (host.splitOn (chr '.')).getLastD [] = top := by
              rw [List.getLastD_eq_getLast?, ← List.head?_reverse, labels]
              rfl
            have name := fits.2.resolve_left address other (by rw [last, same])
            rw [name] at other_address
            cases other_address

/-- A change of one host keeps the index when the host keeps its name and its order. -/
theorem sound_modifyAt {change : HostData → HostData} (parts : List Bytes)
    (kept : ∀ h, (change h).part = h.part)
    (ordered : ∀ h : HostData, Paths.Ordered h.paths → Paths.Ordered (change h).paths)
    (sound : Sound env db) : Sound env { db with hosts := db.hosts.modifyAt change parts } where
  sorted := sound.sorted
  walks i chain stored := by
    obtain ⟨walked, before⟩ := Option.isSome_iff_exists.mp (sound.walks i chain stored)
    change ((db.hosts.modifyAt change parts).walk chain.reverse).isSome = true
    rw [Hosts.walk_modifyAt kept before]
    rfl
  single := sound.single
  ordered := Hosts.all_modifyAt ordered parts sound.ordered
  addresses host address present := by
    change (db.hosts.modifyAt change parts).has (HostData.isNamed host) = true at present
    rw [Hosts.has_modifyAt kept] at present
    exact sound.addresses host address present

theorem sound_addPath {change : PathData → PathData} (parts : List Bytes) (scheme : LwcString)
    (port : Nat) (path : Bytes) (kept : ∀ d, (change d).segment = d.segment)
    (sound : Sound env db) : Sound env (addPath parts scheme port path change db) :=
  sound_modifyAt parts (fun _ => rfl) (fun _ sorted => Paths.ordered_addPath kept sorted) sound

@[simp] theorem setUrl_segment (url : Nsurl) (d : PathData) : (setUrl url d).segment = d.segment := by
  unfold setUrl
  split <;> rfl

theorem sound_bloomInsert (hash : UInt32) (sound : Sound env db) :
    Sound env (bloomInsert db hash) where
  sorted := sound.sorted
  walks := sound.walks
  single := sound.single
  ordered := sound.ordered
  addresses := sound.addresses

theorem sound_addUrl {url : Nsurl} (fits : ∀ host, hostStr url = some host → Fits env host)
    (sound : Sound env db) : Sound env (addUrl env db url).1 := by
  unfold addUrl
  dsimp only
  split
  · rename_i host_eq
    exact sound_addPath _ _ _ _ (setUrl_segment url)
      (sound_addHost (fits _ host_eq) (sound_bloomInsert url.hash sound))
  · exact sound_bloomInsert url.hash sound

/-- The host where a cookie is stored. -/
def cookieHost (c : Cookie) : Bytes :=
  if byteAt c.domain 0 = chr '.' then c.domain.drop 1 else c.domain

theorem sound_findOrAddHost {host : Bytes} (fits : Fits env host) (sound : Sound env db) :
    Sound env (findOrAddHost env db host).1 := by
  unfold findOrAddHost
  split
  · exact sound
  · exact sound_addHost fits sound

theorem sound_insertCookie {c : Cookie} (scheme : LwcString) (url : Nsurl)
    (fits : Fits env (cookieHost c)) (sound : Sound env db) :
    Sound env (insertCookie env db c scheme url) := by
  unfold insertCookie
  rw [cookieHost] at fits
  split
  · rename_i dot
    rw [if_pos dot] at fits
    exact sound_modifyAt _ (fun _ => rfl) (fun _ sorted => sorted) (sound_findOrAddHost fits sound)
  · rename_i noDot
    rw [if_neg noDot] at fits
    exact sound_addPath _ _ _ _ (setUrl_segment url) (sound_findOrAddHost fits sound)

theorem sound_setCookie {header : Bytes} {url : Nsurl} {referer : Option Nsurl} {after : Database}
    {answer : Bool}
    (fits : ∀ c, Stores env c (.setCookie header url referer) → Fits env (cookieHost c))
    (sound : Sound env db) (done : setCookie env db header url referer = .done after answer) :
    Sound env after := by
  refine setCookie_rule ?_ sound done
  intro c scheme db stored known
  exact sound_insertCookie scheme (Nsurl.defragment url) (fits c stored) known

theorem sound_deleteCookie (domain path name : Bytes) (sound : Sound env db) :
    Sound env (deleteCookie db domain path name) where
  sorted := sound.sorted
  walks i chain stored := by
    obtain ⟨walked, before⟩ := Option.isSome_iff_exists.mp (sound.walks i chain stored)
    change ((db.hosts.deleteCookie domain path name).walk chain.reverse).isSome = true
    rw [Hosts.walk_deleteCookie before]
    rfl
  single := sound.single
  ordered := by
    refine Hosts.all_deleteCookie (fun h sorted => ?_) sound.ordered
    rw [HostData.deleteCookie]
    split
    · exact sorted
    · cases done : h.paths.deleteCookie domain path name with
      | none => exact sorted
      | some after => exact Paths.ordered_deleteCookie sorted done
  addresses host address present := by
    change (db.hosts.deleteCookie domain path name).has (HostData.isNamed host) = true at present
    rw [Hosts.has_deleteCookie] at present
    exact sound.addresses host address present

theorem sound_loadUrl {junk : Nsurl.Buff} {host scheme ports rest : Bytes} (sound : Sound env db) :
    Sound env (loadUrl env db junk host scheme ports rest) := by
  unfold loadUrl
  split
  · exact sound
  · dsimp only
    split
    · exact sound_addPath _ _ _ _ (setUrl_segment _) (sound_bloomInsert _ sound)
    · exact sound_bloomInsert _ sound

theorem sound_annotated {after : Database} (sound : Sound env db) (noted : Annotated db after) :
    Sound env after := by
  obtain ⟨change, parts, annotation, rfl⟩ := noted
  obtain ⟨test, changeNode, keys, node, paths⟩ := annotation.paths
  apply sound_modifyAt parts annotation.part _ sound
  intro h sorted
  rw [paths]
  exact ascending_extend node.segment (fun _ _ known => known) keys sorted

/-- An operation adds a host, or looks it up in order to add it. -/
def Adds (env : Environment) (host : Bytes) : Operation → Prop
  | .addUrl url => hostStr url = some host
  | .getCookie url _ => hostStr url = some host
  | .setCookie header url referer =>
      ∃ c, Stores env c (.setCookie header url referer) ∧ host = cookieHost c
  | .loadHost added => host = added
  | .loadUrl _ added _ _ _ => host = added
  | .loadCookie c _ _ => host = cookieHost c
  | op => ∃ url, op.noteUrl = some url ∧ hostStr url = some host

/-- All hosts that an operation adds fit. -/
def Fitting (env : Environment) (_ : Database) (op : Operation) : Prop :=
  ∀ host, Adds env host op → Fits env host

/-- A step that adds fitting hosts keeps the database sound. -/
theorem sound_step {op : Operation} {after : Database} (fitting : Fitting env db op)
    (sound : Sound env db) (done : step env db op = some after) : Sound env after := by
  cases op with
  | addUrl url =>
      cases done
      exact sound_addUrl fitting sound
  | getCookie url includeHttpOnly =>
      cases done
      exact sound_addUrl fitting sound
  | setCookie header url referer =>
      rw [step] at done
      cases answer : setCookie env db header url referer with
      | done db answered =>
          simp only [answer] at done
          cases done
          exact sound_setCookie (fun c stored => fitting _ ⟨c, stored, rfl⟩) sound answer
      | diverges => simp [answer] at done
  | deleteCookie domain path name =>
      cases done
      exact sound_deleteCookie domain path name sound
  | loadFilter =>
      cases done
      exact ⟨⟨sound.sorted, sound.walks, sound.single, sound.ordered⟩, sound.addresses⟩
  | loadHost host =>
      cases done
      exact sound_addHost (fitting host rfl) sound
  | loadUrl junk host scheme ports rest =>
      cases done
      exact sound_loadUrl (sound_addHost (fitting host rfl) sound)
  | loadCookie c scheme page =>
      cases done
      exact sound_insertCookie scheme page (fitting _ rfl) sound
  | destroy =>
      cases done
      exact sound_empty
  | setAuthDetails | getAuthDetails | setCertPermissions | setHstsPolicy | getHstsEnabled
  | changeUrl | loadHsts | loadUrlData =>
      rcases annotated_step (by exact trivial) done with noted | ⟨url, added, noted⟩
      · exact sound_annotated sound noted
      · apply sound_annotated _ noted
        exact sound_addUrl (fun host host_eq => fitting host ⟨url, added, host_eq⟩) sound

/-- A later time does not change what an address is. -/
theorem sound_at (now : Int) : Sound (env.at now) db ↔ Sound env db :=
  ⟨fun sound => ⟨sound.toIndexed, sound.addresses⟩, fun sound => ⟨sound.toIndexed, sound.addresses⟩⟩

/-- Every run that only adds fitting hosts keeps the database sound. -/
theorem sound_run (reached : Reachable env Fitting db) : Sound env db := by
  induction reached with
  | empty => exact sound_empty
  | step now op before fitting done ih =>
      exact (sound_at now).mp (sound_step fitting ((sound_at now).mpr ih) done)

/-- In a plain environment, every short host fits. -/
theorem fits_plainEnvironment {host : Bytes} (short : host.length < 256) :
    Fits plainEnvironment host := by
  have name (host : Bytes) : hostIsIpAddress plainEnvironment host = false := by
    unfold hostIsIpAddress
    dsimp only
    split_ifs <;> first | rfl | contradiction
  exact ⟨Or.inr ⟨short, name _⟩, Or.inr fun address _ => name address⟩

end SoundRuns

section AcceptableCookie

variable {env : Environment} {db after : Database} {url : Nsurl}

/-- A cookie may be stored for a URL: its path starts the path of the URL, its domain is the host,
or the dotted end or whole of a host that is no IP address, and no public suffix. -/
def Cookie.Acceptable (env : Environment) (url : Nsurl) (c : Cookie) : Prop :=
  ∃ host path, url.components.host = some host ∧ url.components.path = some path ∧
    c.path <+: path ∧ env.isPublicSuffix (cookieHost c) = false ∧
    (folded c.domain = folded (cstr host) ∨
      byteAt c.domain 0 = chr '.' ∧ hostIsIpAddress env (cstr host) = false ∧
        (folded c.domain <:+ folded host ∨ folded (c.domain.drop 1) = folded host))

/-- The comparison of the end of a host reads no terminator inside. -/
theorem suffix_of_strcasecmp {host domain : Bytes} (short : domain.length ≤ host.length)
    (same : strcasecmp (cstr (host.drop (host.length - domain.length))) domain = .eq) :
    folded domain <:+ folded host := by
  rw [strcasecmp_eq_iff] at same
  have ends : cstr (host.drop (host.length - domain.length)) =
      host.drop (host.length - domain.length) := by
    apply (List.takeWhile_prefix _).eq_of_length
    have length : (folded (cstr (host.drop (host.length - domain.length)))).length =
        (folded domain).length := by rw [same]
    rw [folded, folded, List.length_map, List.length_map] at length
    rw [cstr] at length
    rw [length, List.length_drop]
    omega
  rw [ends] at same
  rw [← same, folded, folded]
  exact (List.drop_suffix _ _).map _

/-- A cookie that passes the checks is for the host or for an end of it. -/
theorem domain_of_validCookie {host path : Bytes} {c : Cookie}
    (dotted : byteAt c.domain 0 = chr '.' ∨ cstr host = c.domain)
    (valid : validCookie env host path c = true) :
    folded c.domain = folded (cstr host) ∨
      byteAt c.domain 0 = chr '.' ∧ hostIsIpAddress env (cstr host) = false ∧
        (folded c.domain <:+ folded host ∨ folded (c.domain.drop 1) = folded host) := by
  have matched : domainMatches env host c.domain = true := by
    rw [validCookie, Bool.and_eq_true] at valid
    exact valid.2
  unfold domainMatches at matched
  split at matched
  · rename_i whole
    exact Or.inl (strcasecmp_eq_iff.mp whole).symm
  · rename_i different
    have dot : byteAt c.domain 0 = chr '.' := by
      apply dotted.resolve_right
      rintro whole
      rw [whole] at different
      exact different (strcasecmp_eq_iff.mpr rfl)
    split at matched
    · cases matched
    · rename_i name
      split at matched
      · cases matched
      · rename_i lengths
        rw [Bool.not_eq_true] at name
        refine Or.inr ⟨dot, name, ?_⟩
        rw [beq_iff_eq] at matched
        by_cases longer : host.length + 1 = c.domain.length
        · rw [if_pos longer] at matched
          have same : (c.domain.drop 1).length = host.length := by
            rw [List.length_drop]
            omega
          have ends := suffix_of_strcasecmp same.le matched
          right
          apply ends.eq_of_length
          rw [folded, folded, List.length_map, List.length_map, same]
        · rw [if_neg longer] at matched
          exact Or.inl (suffix_of_strcasecmp (by omega) matched)

/-- A cookie that the loop stores was parsed from a part of the header, and it passed the checks. -/
theorem parsed_of_stored {host path cur : Bytes} {rounds : Nat} {c : Cookie}
    (stored : c ∈ storedCookies env url host path rounds cur) :
    ∃ part rest, parseCookie env url part = some (c, rest) ∧ validCookie env host path c = true := by
  induction rounds generalizing cur with
  | zero => cases stored
  | succ rounds ih =>
      rw [storedCookies] at stored
      cases parsed : parseCookie env url cur with
      | none =>
          rw [parsed] at stored
          cases stored
      | some pair =>
          obtain ⟨d, rest⟩ := pair
          rw [parsed] at stored
          dsimp only at stored
          split at stored
          · rename_i valid
            rcases List.mem_cons.mp stored with rfl | later
            · exact ⟨cur, rest, parsed, valid⟩
            · split at later
              · cases later
              · exact ih later
          · cases stored

/-- Every cookie that a call of `urldb_set_cookie` stores is acceptable. -/
theorem acceptable_of_stores {c : Cookie} {header : Bytes} {referer : Option Nsurl}
    (stores : Stores env c (.setCookie header url referer)) : c.Acceptable env url := by
  obtain ⟨host, path, host_eq, path_eq, stored⟩ := stores
  obtain ⟨part, rest, parsed, valid⟩ := parsed_of_stored stored
  have checks := valid
  rw [validCookie, Bool.and_eq_true, Bool.and_eq_true, Bool.not_eq_true'] at checks
  refine ⟨host, path, host_eq, path_eq, ?_, checks.1.2, ?_⟩
  · rw [← List.isPrefixOf_iff_prefix]
    exact checks.1.1
  · apply domain_of_validCookie _ valid
    have domain := parseCookie_domain parsed
    rw [host_eq, Option.map_some, Option.some.injEq] at domain
    exact domain

/-- Every cookie that a call of `urldb_set_cookie` inserts is acceptable for its URL, and a call
that ends leaves only such cookies beside those that were there before. -/
theorem setCookie_acceptable (env : Environment) (db : Database) (header : Bytes) (url : Nsurl)
    (referer : Option Nsurl) :
    (∀ c, Stores env c (.setCookie header url referer) → c.Acceptable env url) ∧
      ∀ after answer, setCookie env db header url referer = .done after answer →
        ∀ c ∈ after.cookies, c ∈ db.cookies ∨ Stores env c (.setCookie header url referer) := by
  refine ⟨fun c => acceptable_of_stores, fun after answer done => ?_⟩
  have all : CookiesAll (fun c => c ∈ db.cookies ∨ Stores env c (.setCookie header url referer))
      after := by
    apply cookiesAll_setCookie _ _ done
    · exact fun c stores => Or.inr stores
    · exact cookiesAll_iff.mpr fun c stored => Or.inl stored
  exact cookiesAll_iff.mp all

end AcceptableCookie

end Neosurf.Urldb
