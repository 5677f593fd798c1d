import Neosurf.Proof.Urldb.IterateEntries
import Neosurf.Proof.Urldb.UrlFileHosts

namespace Neosurf.Urldb

open SiblingTree

variable {env : Environment} {db after : Database}

/-- The chains of all search trees. -/
def Database.chains (db : Database) : List Chain :=
  (List.range NUM_SEARCH_TREES).flatMap fun i => (db.searchTrees i).toList

/-- A database shows the saved URLs of another one, each with its page and its data, no other URL,
and the same policies as far as they have not expired. -/
structure Restored (env : Environment) (expireUrl : Int) (db after : Database) : Prop where
  saved : ∀ x ∈ db.nodes, x.2.isSaved (expiryTime env expireUrl) = true → x.2.url.isSome = true →
    Recorded x.2 (after.seen x.1)
  only : ∀ place : NodePlace, (after.seen place).1.isSome = true → ∃ x ∈ db.nodes,
    x.1 = ⟨place.parts.map folded, place.keys⟩ ∧
      x.2.isSaved (expiryTime env expireUrl) = true ∧ x.2.url.isSome = true
  policies : ∀ parts : List Bytes, env.now < (db.hosts.policy parts).expires ∨
    env.now < (after.hosts.policy parts).expires →
      after.hosts.policy parts = db.hosts.policy parts

/-- All saved URLs are at nodes without children, all lines fit and are read as they were written,
and all policies that have not expired are saved with times of the calendar. -/
structure Savable (env : Environment) (junk : Bytes → Nsurl.Buff) (expireUrl : Int)
    (db : Database) : Prop where
  clock : 0 ≤ env.now
  leaves : ∀ x ∈ db.nodes, x.2.isSaved (expiryTime env expireUrl) = true →
    x.2.url.isSome = true → x ∈ db.leaves
  urls : ∀ chain ∈ db.chains, ∀ x ∈ savedLeaves (expiryTime env expireUrl) []
    (hostAt db chain).paths, UrlFits junk (chainName chain) x.1 x.2
  hosts : ∀ chain ∈ db.chains, IsWritten (expiryTime env expireUrl) (hostAt db chain) →
    HostFits (expiryTime env expireUrl) chain (hostAt db chain)
  policies : ∀ parts : List Bytes, env.now < (db.hosts.policy parts).expires →
    expiryTime env expireUrl < (db.hosts.policy parts).expires ∧
      (db.hosts.policy parts).expires ≤ Llcache.LAST_SECOND

theorem mem_chains {chain : Chain} (listed : Listed env db) :
    chain ∈ db.chains ↔ ∃ i, chain ∈ (db.searchTrees i).toList := by
  rw [Database.chains, List.mem_flatMap]
  constructor
  · rintro ⟨i, _, stored⟩
    exact ⟨i, stored⟩
  · rintro ⟨i, stored⟩
    refine ⟨i, List.mem_range.mpr ?_, stored⟩
    rw [← listed.trees i chain stored]
    exact searchTreeOf_lt _

theorem chained_iff {parts : List Bytes} (listed : Listed env db) : Chained db parts ↔
    ∃ chain ∈ db.chains, chain.reverse.map folded = parts := by
  simp only [mem_chains listed]
  constructor
  · rintro ⟨i, chain, stored, same⟩
    exact ⟨chain, ⟨i, stored⟩, same⟩
  · rintro ⟨chain, ⟨i, stored⟩, same⟩
    exact ⟨i, chain, stored, same⟩

/-- No two chains lead to the same host. -/
theorem pairwise_chains (blind : CaseBlind env) (indexed : Indexed db) (listed : Listed env db) :
    db.chains.Pairwise fun a b => a.reverse.map folded ≠ b.reverse.map folded := by
  rw [Database.chains, List.pairwise_flatMap]
  constructor
  · intro i _
    refine (indexed.sorted i).imp fun {chain other} less same => ?_
    rw [List.map_reverse, List.map_reverse] at same
    rw [searchMatchHost_eq_iff.mpr (List.reverse_injective same)] at less
    cases less
  · refine List.nodup_range.imp fun {i j} apart chain stored other stored' same => ?_
    have head : folded (chain.headD []) = folded (other.reverse.getLastD []) := folded_headD same
    rw [List.getLastD_eq_getLast?, List.getLast?_reverse, ← List.headD_eq_head?_getD] at head
    have tree := searchTreeOf_congr blind head
    rw [listed.trees i chain stored, listed.trees j other stored'] at tree
    exact apart tree

theorem map_folded_folded (parts : List Bytes) : (parts.map folded).map folded = parts.map folded := by
  rw [List.map_map]
  exact List.map_congr_left fun part _ => folded_folded part

theorem findable_congr (blind : CaseBlind env) {a b : Bytes} (same : folded a = folded b)
    (findable : Findable env a) : Findable env b := by
  have size := congrArg List.length same
  rw [folded, folded, List.length_map, List.length_map] at size
  have labels : folded ((a.splitOn (chr '.')).headD []) = folded ((b.splitOn (chr '.')).headD []) := by
    have split := (folded_splitOn a).trans ((congrArg (List.splitOn (chr '.')) same).trans
      (folded_splitOn b).symm)
    cases first : a.splitOn (chr '.') <;> cases second : b.splitOn (chr '.') <;>
      simp_all
  rcases findable with address | ⟨short, name⟩
  · exact Or.inl ((hostIsIpAddress_congr blind same).symm.trans address)
  · exact Or.inr ⟨size ▸ short, (hostIsIpAddress_congr blind labels).symm.trans name⟩

/-- The name of a chain is entered at the end of the chain. -/
theorem hostParts_chainName (blind : CaseBlind env) (listed : Listed env db) {i : Nat}
    {chain : Chain} (stored : chain ∈ (db.searchTrees i).toList) :
    (hostParts env (chainName chain)).map folded = chain.reverse.map folded ∧ chain ≠ [] := by
  obtain ⟨host, findable, same⟩ := listed.names i chain stored
  have text : folded (chainName chain) = folded host := folded_chain_text same
  constructor
  · rw [hostParts_eq (findable_congr blind text.symm findable), lookedParts_congr blind text, same]
  · rintro rfl
    have size := congrArg List.length same
    rw [← hostParts_eq findable, List.length_map, List.length_map] at size
    exact hostParts_ne_nil host (List.eq_nil_of_length_eq_zero size.symm)

/-- What a host in a search tree needs so that its lines are read again. -/
theorem hostReads_of_savable {junk : Bytes → Nsurl.Buff} {expireUrl : Int} (blind : CaseBlind env)
    (indexed : Indexed db) (listed : Listed env db) (savable : Savable env junk expireUrl db)
    {chain : Chain} (stored : chain ∈ db.chains) :
    HostReads env junk (expiryTime env expireUrl) db chain := by
  obtain ⟨i, inside⟩ := (mem_chains listed).mp stored
  obtain ⟨parts, filled⟩ := hostParts_chainName blind listed inside
  have known := allAt_iff.mp listed.hosts _ (mem_hostAt indexed inside filled)
  refine ⟨savable.hosts chain stored, savable.urls chain stored, ?_, ?_, parts⟩
  · intro x leaf
    have node := leavesAt_sublist.subset (List.mem_filter.mp leaf).1
    refine ⟨?_, allAt_iff.mp known.filed x node⟩
    rintro empty
    obtain ⟨d, _, start⟩ := start_of_mem_nodesAt node
    rw [empty] at start
    simpa using start.length_le
  · exact (nodup_leavesAt known.distinct).sublist (List.filter_sublist.map _)

theorem policy_hostAt {parts : List Bytes} {chain : Chain}
    (same : parts.map folded = chain.reverse.map folded) :
    db.hosts.policy parts = (hostAt db chain).hsts := by
  rw [Hosts.policy, Hosts.view_congr same, Hosts.view, seenAt, hostAt, Hosts.walk]
  cases (SiblingTree.walk HostData.isNamed chain.reverse db.hosts).bind List.getLast? <;> rfl

theorem seen_empty {bloom : Option (List Nat)} (place : NodePlace) :
    Database.seen { bloom } place = (none, {}) := by
  obtain ⟨parts, keys⟩ := place
  cases parts <;> cases keys <;> rfl

theorem policy_empty (parts : List Bytes) : Hosts.policy parts .nil = {} := by
  cases parts <;> rfl

/-- The file of a database is read again into the empty database. -/
theorem loadUrls_saveUrls_eq {junk : Bytes → Nsurl.Buff} {expireUrl : Int} (blind : CaseBlind env)
    (indexed : Indexed db) (listed : Listed env db) (savable : Savable env junk expireUrl db) :
    ∃ after, loadUrls env junk (saveUrls env expireUrl db) {} = (after, .ok) ∧
      RestoredHosts (expiryTime env expireUrl) db db.chains { bloom := some [] } after := by
  have text : saveUrls env expireUrl db = line (printInt 107) ++
      db.chains.flatMap (writeHost (expiryTime env expireUrl) db) := by
    rw [saveUrls, Database.chains, List.flatMap_assoc]
    simp only [writeTree_eq]
    rfl
  have enough : (db.chains.flatMap (writeHost (expiryTime env expireUrl) db)).length <
      (db.chains.flatMap (writeHost (expiryTime env expireUrl) db)).length + 1 := Nat.lt_succ_self _
  obtain ⟨after, loaded, restored⟩ := @loadHosts_writeHosts env { bloom := some [] } junk
    (expiryTime env expireUrl) db db.chains
    (fun chain stored => hostReads_of_savable blind indexed listed savable stored)
    (pairwise_chains blind indexed listed)
    (fun _ _ => ⟨fun place _ => seen_empty place, fun parts _ => policy_empty parts⟩) _ enough
  refine ⟨after, ?_, restored⟩
  have version : atoi (cstr (printInt 107 ++ [LF])) = 107 := atoi_line (by omega) (by omega)
  have known : ¬ ((107 : Int) < MIN_URL_FILE_VERSION ∨ URL_FILE_VERSION < (107 : Int)) := by decide
  rw [loadUrls, text, fgets_printInt (by decide)]
  dsimp only
  rw [version, if_neg known]
  exact loaded

/-- The node of a saved URL is among the lines of a host in a search tree. -/
theorem savedLeaf_of_node {junk : Bytes → Nsurl.Buff} {expireUrl : Int} (indexed : Indexed db)
    (blind : CaseBlind env) (listed : Listed env db) (savable : Savable env junk expireUrl db)
    {x : NodePlace × PathData} (node : x ∈ db.nodes)
    (saved : x.2.isSaved (expiryTime env expireUrl) = true) (url : x.2.url.isSome = true) :
    ∃ chain ∈ db.chains, x.1.parts = chain.reverse.map folded ∧
      (x.1.keys, x.2) ∈ savedLeaves (expiryTime env expireUrl) [] (hostAt db chain).paths := by
  obtain ⟨h, inside, leaf⟩ := mem_leaves.mp (savable.leaves x node saved url)
  have known := allAt_iff.mp listed.hosts _ inside
  have filled : h.paths ≠ .nil := by
    intro empty
    rw [empty] at leaf
    cases leaf
  obtain ⟨chain, stored, same⟩ := (chained_iff listed).mp (known.chained filled)
  obtain ⟨i, here⟩ := (mem_chains listed).mp stored
  have host := mem_hostAt indexed here (hostParts_chainName blind listed here).2
  rw [same] at host
  refine ⟨chain, stored, same.symm, List.mem_filter.mpr ⟨?_, saved⟩⟩
  rw [host_unique listed host inside]
  exact leaf

/-- The lines of a host stem from nodes with saved URLs. -/
theorem node_of_savedLeaf {expiry : Int} (indexed : Indexed db) (blind : CaseBlind env)
    (listed : Listed env db) {chain : Chain} (stored : chain ∈ db.chains)
    {x : List (LwcString × Nat × Bytes) × PathData}
    (leaf : x ∈ savedLeaves expiry [] (hostAt db chain).paths) :
    ((⟨chain.reverse.map folded, x.1⟩ : NodePlace), x.2) ∈ db.nodes ∧
      x.2.isSaved expiry = true ∧ x.2.url.isSome = true := by
  obtain ⟨inside, saved⟩ := List.mem_filter.mp leaf
  obtain ⟨i, here⟩ := (mem_chains listed).mp stored
  have host := mem_hostAt indexed here (hostParts_chainName blind listed here).2
  have known := allAt_iff.mp listed.hosts _ host
  exact ⟨mem_nodes.mpr ⟨_, host, leavesAt_sublist.subset inside⟩, saved,
    tips_iff.mp known.urls x inside⟩

/-- A policy is restored when it has not expired. -/
theorem policy_restored {junk : Bytes → Nsurl.Buff} {expireUrl : Int} (listed : Listed env db)
    (chained : PoliciesChained db) (savable : Savable env junk expireUrl db)
    (restored : RestoredHosts (expiryTime env expireUrl) db db.chains { bloom := some [] } after)
    {parts : List Bytes} (unexpired : env.now < (db.hosts.policy parts).expires ∨
      env.now < (after.hosts.policy parts).expires) :
    after.hosts.policy parts = db.hosts.policy parts := by
  have clock := savable.clock
  by_cases here : ∃ chain ∈ db.chains, parts.map folded = chain.reverse.map folded
  · obtain ⟨chain, stored, same⟩ := here
    obtain ⟨time, flag⟩ := restored.policy chain stored parts same
    have known := savable.policies parts
    have own : db.hosts.policy parts = (hostAt db chain).hsts := policy_hostAt same
    rw [own] at known unexpired ⊢
    rw [readTime_printInt] at time
    have kept : savedHsts (expiryTime env expireUrl) (hostAt db chain) = (hostAt db chain).hsts := by
      unfold savedHsts
      split
      · rfl
      · rename_i old
        rcases unexpired with unexpired | unexpired
        · exact absurd (known unexpired).1 old
        · rw [savedHsts, if_neg old] at time
          simp only [ite_self] at time
          omega
    rw [kept] at time flag
    have calendar : 0 ≤ (hostAt db chain).hsts.expires ∧
        (hostAt db chain).hsts.expires ≤ Llcache.LAST_SECOND := by
      rcases unexpired with unexpired | unexpired
      · exact ⟨by omega, (known unexpired).2⟩
      · by_contra outside
        rw [if_neg outside] at time
        omega
    rw [if_pos calendar] at time
    have nonzero : (hostAt db chain).hsts.expires ≠ 0 := by
      rcases unexpired with unexpired | unexpired <;> omega
    cases answer : after.hosts.policy parts with
    | mk expires includeSubDomains =>
        rw [answer] at time flag
        dsimp only at time flag
        rw [time, flag nonzero]
  · have same := restored.policies parts fun chain stored same => here ⟨chain, stored, same⟩
    rw [policy_empty] at same
    rw [same] at unexpired ⊢
    rcases unexpired with unexpired | unexpired
    · exfalso
      apply here
      have filled : db.hosts.policy parts ≠ {} := by
        intro empty
        rw [empty] at unexpired
        exact absurd clock (not_le.mpr unexpired)
      obtain ⟨chain, stored, same⟩ := (chained_iff listed).mp (chained parts filled)
      exact ⟨chain, stored, same.symm⟩
    · exact absurd clock (not_le.mpr unexpired)

/-- In every run that only adds fitting hosts, the URLs and the policies of a savable database are
saved and loaded again. -/
theorem loadUrls_saveUrls {junk : Bytes → Nsurl.Buff} {expireUrl : Int} (blind : CaseBlind env)
    (reached : Reachable env Filing db) (savable : Savable env junk expireUrl db) :
    Restored env expireUrl db (loadUrls env junk (saveUrls env expireUrl db) {}).1 := by
  have fitting := reachable_fitting reached
  have indexed := (sound_run fitting).toIndexed
  have listed := listed_run blind fitting
  obtain ⟨after, loaded, restored⟩ := loadUrls_saveUrls_eq blind indexed listed savable
  rw [loaded]
  refine ⟨?_, ?_, fun parts => policy_restored listed (policiesChained_run reached) savable restored⟩
  · intro x node saved url
    obtain ⟨chain, stored, parts, leaf⟩ := savedLeaf_of_node indexed blind listed savable node saved url
    refine restored.recorded chain stored _ leaf x.1 ?_ rfl
    rw [parts, map_folded_folded]
  · intro place shown
    by_contra absent
    have missing := restored.others place (by
      intro chain stored parts inside
      obtain ⟨x, leaf, keys⟩ := List.mem_map.mp inside
      obtain ⟨node, saved, url⟩ := node_of_savedLeaf indexed blind listed stored leaf
      exact absent ⟨_, node, by rw [parts, keys], saved, url⟩)
    rw [missing, seen_empty] at shown
    cases shown

/-- A URL that was added and visited at the time of the plain environment. -/
def visited (url : Nsurl) : Database :=
  changeUrl plainEnvironment (addUrl plainEnvironment {} url).1 url .visit

theorem filing_addUrl {url : Nsurl} {host : Bytes} (host_eq : hostStr url = some host)
    (short : host.length < 256) : Filing plainEnvironment db (.addUrl url) := by
  refine ⟨fun other added => ?_, fun _ _ impossible => by cases impossible⟩
  rw [Adds, host_eq, Option.some.injEq] at added
  rw [← added]
  exact fits_plainEnvironment short

theorem reachable_visited {url : Nsurl} {host : Bytes} (host_eq : hostStr url = some host)
    (short : host.length < 256) : Reachable plainEnvironment Filing (visited url) := by
  refine .step 100 (.changeUrl url .visit) (.step 100 (.addUrl url) .empty
    (filing_addUrl host_eq short) rfl) ⟨?_, fun _ _ impossible => by cases impossible⟩ rfl
  rintro other ⟨_, impossible, _⟩
  cases impossible

/-- In every run that only adds fitting hosts, the search trees are sorted and lead to all hosts with
URLs, and cookies and policies are where they are looked for. -/
theorem reachable_invariants (blind : CaseBlind env) (reached : Reachable env Filing db) :
    Sound env db ∧ Listed env db ∧ Stowed env db ∧ PoliciesChained db := by
  have fitting := reachable_fitting reached
  have listed := listed_run blind fitting
  exact ⟨sound_run fitting, listed, stowed_run fitting, policiesChained_run reached⟩

/-- The database with the URL `http://h/a` alone. -/
theorem reachable_invariants_visited : ∃ url,
    Nsurl.nsurlCreate (fun _ => 0) (str "http://h/a") = .ok url ∧
      Sound plainEnvironment (visited url) ∧ Listed plainEnvironment (visited url) ∧
      Stowed plainEnvironment (visited url) ∧ PoliciesChained (visited url) := by
  have computed : ∃ url, Nsurl.nsurlCreate (fun _ => 0) (str "http://h/a") = .ok url ∧
      hostStr url = some (str "h") := ⟨_, rfl, rfl⟩
  obtain ⟨url, created, host_eq⟩ := computed
  exact ⟨url, created, reachable_invariants caseBlind_plainEnvironment
    (reachable_visited host_eq (by decide))⟩

theorem policy_visited (url : Nsurl) (parts : List Bytes) :
    (visited url).hosts.policy parts = {} := by
  have added : HostsKept {} (addUrl plainEnvironment {} url).1 := hostsKept_addUrl url
  have changed : HostsKept (addUrl plainEnvironment {} url).1 (visited url) :=
    hostsKept_annotate url (fun _ => rfl) (fun _ => rfl)
  rw [Hosts.policy_eq, (added.trans changed) parts, ← Hosts.policy_eq, policy_empty]

/-- The URL `http://h/a` that was visited is saved and loaded again. -/
theorem loadUrls_saveUrls_visited : ∃ url,
    Nsurl.nsurlCreate (fun _ => 0) (str "http://h/a") = .ok url ∧
      Restored plainEnvironment 28 (visited url)
        (loadUrls plainEnvironment (fun _ _ => 0) (saveUrls plainEnvironment 28 (visited url)) {}).1 := by
  have computed : ∃ url x page read,
      Nsurl.nsurlCreate (fun _ => 0) (str "http://h/a") = .ok url ∧ hostStr url = some (str "h") ∧
      (visited url).nodes = [x] ∧ (visited url).leaves = [x] ∧ (visited url).chains = [[str "h"]] ∧
      savedLeaves (expiryTime plainEnvironment 28) [] (hostAt (visited url) [str "h"]).paths =
        [(x.1.keys, x.2)] ∧ x.1.keys = [(str "http", 0, str "a")] ∧ x.2.scheme = str "http" ∧
      x.2.port = 0 ∧ x.2.urld = { visits := 1, lastVisit := 100 } ∧ x.2.url = some page ∧
      (hostAt (visited url) [str "h"]).hsts = {} ∧
      countUrls (expiryTime plainEnvironment 28) (hostAt (visited url) [str "h"]).paths = 1 ∧
      Nsurl.nsurlCreate (fun _ => 0) (loadedText (str "h") (str "http") [] (str "/a")) = .ok read ∧
      read.components.scheme = some (str "http") ∧ pathQuery read = some (str "/a") ∧
      Nsurl.compare read page pageParts = true :=
    ⟨_, _, _, _, rfl, rfl, rfl, rfl, rfl, rfl, rfl, rfl, rfl, rfl, rfl, rfl, rfl, rfl, rfl, rfl, rfl⟩
  obtain ⟨url, x, page, read, created, host_eq, nodes, leaves, chains, saved, keys, scheme, port, data,
    page_eq, hsts, count, created_again, read_scheme, read_path, same⟩ := computed
  refine ⟨url, created, loadUrls_saveUrls caseBlind_plainEnvironment
    (reachable_visited host_eq (by decide)) ⟨by decide, ?_, ?_, ?_, ?_⟩⟩
  · intro y node _ _
    rw [leaves, ← nodes]
    exact node
  · rw [chains]
    intro chain stored y leaf
    rw [List.mem_singleton.mp stored] at leaf ⊢
    rw [saved] at leaf
    rw [List.mem_singleton.mp leaf]
    have path : pathOf x.1.keys = str "/a" := by rw [keys]; rfl
    refine ⟨?_, ?_, ?_, ?_, ?_, ?_, read, ?_, ?_, ?_, ?_⟩
    · rw [scheme]
      exact ⟨by decide, by decide⟩
    · rw [port]
      decide
    · rw [path]
      exact ⟨by decide, by decide⟩
    · rw [data]
      decide
    · rw [data]
      decide
    · rw [data]
      intro title impossible
      cases impossible
    · rw [scheme, port, path]
      exact created_again
    · rw [scheme]
      exact read_scheme
    · rw [path]
      exact read_path
    · intro other other_eq
      rw [page_eq, Option.some.injEq] at other_eq
      rw [← other_eq]
      exact same
  · rw [chains]
    intro chain stored _
    have policy : savedHsts (expiryTime plainEnvironment 28) (hostAt (visited url) [str "h"]) = {} := by
      rw [savedHsts, hsts, ite_self]
    rw [List.mem_singleton.mp stored]
    refine ⟨by decide, by decide, ?_, ?_⟩
    · rw [policy]
      decide
    · rw [count]
      decide
  · intro parts unexpired
    rw [policy_visited] at unexpired
    exact absurd unexpired (by decide)

/-- Once `http://h/a/b` was added, the visited URL `http://h/a` is not saved. -/
theorem loadUrls_saveUrls_loses : ∃ url below db,
    Nsurl.nsurlCreate (fun _ => 0) (str "http://h/a") = .ok url ∧
      Nsurl.nsurlCreate (fun _ => 0) (str "http://h/a/b") = .ok below ∧
      Reachable plainEnvironment Filing db ∧ db = (addUrl plainEnvironment (visited url) below).1 ∧
      ¬ Restored plainEnvironment 28 db
        (loadUrls plainEnvironment (fun _ _ => 0) (saveUrls plainEnvironment 28 db) {}).1 := by
  have computed : ∃ url below, Nsurl.nsurlCreate (fun _ => 0) (str "http://h/a") = .ok url ∧
      Nsurl.nsurlCreate (fun _ => 0) (str "http://h/a/b") = .ok below ∧
      hostStr url = some (str "h") ∧ hostStr below = some (str "h") ∧
      ((addUrl plainEnvironment (visited url) below).1.nodes.any fun x =>
        x.2.isSaved (expiryTime plainEnvironment 28) && (x.2.url.isSome &&
          ((loadUrls plainEnvironment (fun _ _ => 0) (saveUrls plainEnvironment 28
            (addUrl plainEnvironment (visited url) below).1) {}).1.seen x.1).1.isNone)) = true :=
    ⟨_, _, rfl, rfl, rfl, rfl, by decide⟩
  obtain ⟨url, below, created, created_below, host_eq, host_below, checked⟩ := computed
  refine ⟨url, below, (addUrl plainEnvironment (visited url) below).1, created, created_below,
    .step 100 (.addUrl below) (reachable_visited host_eq (by decide))
      (filing_addUrl host_below (by decide)) rfl, rfl, ?_⟩
  intro restored
  obtain ⟨x, node, checked⟩ := List.any_eq_true.mp checked
  rw [Bool.and_eq_true, Bool.and_eq_true] at checked
  obtain ⟨saved, url_some, missing⟩ := checked
  obtain ⟨_, page, shown, _⟩ := restored.saved x node saved url_some
  rw [shown] at missing
  cases missing

end Neosurf.Urldb
