import Neosurf.Proof.Urldb.ChainedPolicies
import Neosurf.Proof.Urldb.UrlFileText
import Neosurf.Proof.Urldb.UrlRecords

namespace Neosurf.Urldb

open SiblingTree

variable {env : Environment} {db after : Database}

/-- These parts lead to a host. -/
def HasHost (db : Database) (parts : List Bytes) : Prop :=
  ∃ above h, db.hosts.walk parts = some (above ++ [h])

/-- What is shown of a node that was restored: its own page and its own data. -/
def Recorded (d : PathData) (shown : Option Nsurl × UrlData) : Prop :=
  shown.2 = d.urld ∧ ∃ url, shown.1 = some url ∧
    ∀ page, d.url = some page → Nsurl.compare url page pageParts = true

/-- The nodes of these entries below a host were restored. Everything else is shown as before. -/
structure RestoredBelow (parts : List Bytes)
    (entries : List (List (LwcString × Nat × Bytes) × PathData)) (db after : Database) : Prop where
  host : HasHost after parts
  policies : ∀ others, after.hosts.policy others = db.hosts.policy others
  recorded : ∀ x ∈ entries, ∀ place : NodePlace, place.parts.map folded = parts.map folded →
    place.keys = x.1 → Recorded x.2 (after.seen place)
  others : ∀ place : NodePlace, (place.parts.map folded = parts.map folded →
    place.keys ∉ entries.map Prod.fst) → after.seen place = db.seen place

theorem hasHost_modifyAt {change : HostData → HostData} {parts others : List Bytes}
    (kept : ∀ h, (change h).part = h.part) (here : HasHost db others) :
    HasHost { db with hosts := db.hosts.modifyAt change parts } others := by
  obtain ⟨above, h, walked⟩ := here
  have after : (db.hosts.modifyAt change parts).walk others = some _ :=
    Hosts.walk_modifyAt kept walked
  have size := @length_alter _ _ HostData.isNamed change parts (above ++ [h])
  cases nodes : alter HostData.isNamed change parts (above ++ [h]) using List.reverseRecOn with
  | nil =>
      rw [nodes] at size
      simp at size
  | append_singleton above h _ =>
      rw [nodes] at after
      exact ⟨above, h, after⟩

theorem hasHost_addHost_self (host : Bytes) : HasHost (addHost env db host) (hostParts env host) := by
  obtain ⟨above, h, walked, _⟩ := walk_addHost_self env db host
  exact ⟨above, h, walked⟩

theorem hasHost_restoreUrl {host : Bytes} {scheme : LwcString} {port : Nat} {path : Bytes}
    {url : Nsurl} {change : UrlData → UrlData} {parts : List Bytes} (here : HasHost db parts) :
    HasHost (restoreUrl env host scheme port path url change db) parts := by
  apply hasHost_modifyAt
  · intro h
    rfl
  · apply @hasHost_modifyAt (bloomInsert db url.hash) _ _ _ _ here
    intro h
    rfl

/-- A path that is restored changes no policy. -/
theorem policy_restoreUrl {host : Bytes} {scheme : LwcString} {port : Nat} {path : Bytes}
    {url : Nsurl} {change : UrlData → UrlData} (parts : List Bytes) :
    (restoreUrl env host scheme port path url change db).hosts.policy parts =
      db.hosts.policy parts := by
  have updated : (restoreUrl env host scheme port path url change db).hosts.policy parts =
      (addPath (hostParts env host) scheme port path (setUrl url)
        (bloomInsert db url.hash)).hosts.policy parts := by
    apply Hosts.view_modifyAt_kept
    · intro h
      rfl
    · intro h
      rfl
  rw [updated]
  apply Hosts.view_modifyAt_kept
  · intro h
    rfl
  · intro h
    rfl

theorem compare_defragment_left (url page : Nsurl) :
    Nsurl.compare (Nsurl.defragment url) page pageParts = Nsurl.compare url page pageParts := by
  have parts : (Nsurl.defragment url).components =
      { url.components with fragment := (Nsurl.defragment url).components.fragment } := by
    unfold Nsurl.defragment
    dsimp only
    split <;> rfl
  unfold Nsurl.compare
  rw [parts]
  simp [pageParts, Nsurl.wants, Nsurl.SCHEME, Nsurl.HOST, Nsurl.PORT, Nsurl.PATH, Nsurl.QUERY,
    Nsurl.USERNAME, Nsurl.PASSWORD, Nsurl.FRAGMENT]

/-- The keys of a node are those of its path. -/
theorem keys_of_filed {keys : List (LwcString × Nat × Bytes)} {d : PathData} (filled : keys ≠ [])
    (filed : d.Filed keys) :
    keys = (segments (pathOf keys)).map fun segment => (d.scheme, d.port, segment) := by
  obtain ⟨names, rfl, plain⟩ := filed
  have nonempty : names ≠ [] := by simpa using filled
  have text : (names.map fun segment => (d.scheme, d.port, segment)).map (fun key => key.2.2) =
      names := by
    rw [List.map_map]
    exact List.map_id names
  have split : segments (pathOf (names.map fun segment => (d.scheme, d.port, segment))) = names := by
    have root : byteAt (str "/" ++ [chr '/'].intercalate names) 0 = chr '/' := rfl
    rw [pathOf, text, segments, if_pos root]
    exact List.splitOn_intercalate _ plain nonempty
  rw [split]

/-- The entries of a host are read again one after the other. -/
theorem loadEntries_writeUrls {junk : Bytes → Nsurl.Buff} {host rest : Bytes}
    {entries : List (List (LwcString × Nat × Bytes) × PathData)}
    (here : HasHost db (hostParts env host)) (fits : ∀ x ∈ entries, UrlFits junk host x.1 x.2)
    (filed : ∀ x ∈ entries, x.1 ≠ [] ∧ x.2.Filed x.1) (distinct : (entries.map Prod.fst).Nodup)
    (fresh : ∀ place : NodePlace, place.parts.map folded = (hostParts env host).map folded →
      place.keys ∈ entries.map Prod.fst → db.seen place = (none, {})) :
    ∃ after, loadEntries env junk host entries.length
        (entries.flatMap (fun x => writeUrl (pathAt x.1) x.2) ++ rest) db = (after, .ok rest) ∧
      RestoredBelow (hostParts env host) entries db after := by
  induction entries generalizing db with
  | nil =>
      refine ⟨db, rfl, here, fun _ => rfl, fun x impossible => ?_, fun _ _ => rfl⟩
      cases impossible
  | cons x entries ih =>
      rw [List.forall_mem_cons] at fits filed
      rw [List.map_cons, List.nodup_cons] at distinct
      obtain ⟨url, change, loaded, data, same⟩ := @loadEntry_writeUrl env junk host
        (entries.flatMap (fun x => writeUrl (pathAt x.1) x.2) ++ rest) x.1 x.2 fits.1 db
      have keys_eq := keys_of_filed filed.1.1 filed.1.2
      have shown (place : NodePlace) : (restoreUrl env host x.2.scheme x.2.port (pathOf x.1) url
          change db).seen place = if place.isAt (hostParts env host) x.2.scheme x.2.port (pathOf x.1)
            then (some ((db.seen place).1.getD (Nsurl.defragment url)), change (db.seen place).2)
            else db.seen place := by
        obtain ⟨above, h, present⟩ := here
        exact @seen_updateUrlData _ _ (bloomInsert db url.hash) _ _ url change _ _ present place
      have at_iff (place : NodePlace) : place.isAt (hostParts env host) x.2.scheme x.2.port
          (pathOf x.1) ↔ place.parts.map folded = (hostParts env host).map folded ∧
            place.keys = x.1 := by
        rw [NodePlace.isAt, ← keys_eq]
      obtain ⟨after, rest_loaded, restored⟩ := ih (hasHost_restoreUrl here) fits.2 filed.2 distinct.2
        (by
          intro place parts inside
          rw [shown, if_neg]
          · exact fresh place parts (List.mem_cons_of_mem _ inside)
          · rw [at_iff]
            rintro ⟨_, keys⟩
            exact distinct.1 (keys ▸ inside))
      refine ⟨after, ?_, restored.host, ?_, ?_, ?_⟩
      · rw [List.flatMap_cons, List.append_assoc, List.length_cons, loadEntries, loaded]
        exact rest_loaded
      · intro others
        rw [restored.policies, policy_restoreUrl]
      · rw [List.forall_mem_cons]
        refine ⟨fun place parts keys => ?_, restored.recorded⟩
        have own : after.seen place = _ := (restored.others place fun _ inside =>
          distinct.1 (keys ▸ inside)).trans (shown place)
        rw [if_pos ((at_iff place).mpr ⟨parts, keys⟩), fresh place parts (by simp [keys])] at own
        rw [own]
        refine ⟨data, _, rfl, fun page page_eq => ?_⟩
        rw [Option.getD_none, compare_defragment_left]
        exact same page page_eq
      · intro place outside
        rw [restored.others place fun parts inside => outside parts (List.mem_cons_of_mem _ inside),
          shown, if_neg]
        rw [at_iff]
        rintro ⟨parts, keys⟩
        apply outside parts
        rw [List.map_cons, ← keys]
        exact List.mem_cons_self

/-- The name of a host as a text. -/
def chainName (chain : Chain) : Bytes := [chr '.'].intercalate chain

/-- A host is written in a line that is read as a whole, with a number of URLs that can be read. -/
structure HostFits (expiry : Int) (chain : Chain) (h : HostData) : Prop where
  name : Unbroken (chainName chain)
  oneWord : chr ' ' ∉ chainName chain
  short : (chainName chain).length + (printInt (savedHsts expiry h).expires).length + 4 < 256
  count : countUrls expiry h.paths < 2 ^ 31

theorem hostText_eq {expiry : Int} {chain : Chain} {h : HostData} (fits : HostFits expiry chain h) :
    hostText chain = chainName chain := by
  have short := fits.short
  rw [hostText, map_cstr_eq fits.name]
  exact List.take_of_length_le (by rw [← chainName]; omega)

/-- A time that was printed is read again if it is in the calendar. -/
theorem readTime_printInt (time : Int) : readTime (printInt time) 0 =
    if 0 ≤ time ∧ time ≤ Llcache.LAST_SECOND then time else 0 := by
  have whole (n : Nat) : (str (toString n)).takeWhile isDigit = str (toString n) := by
    have run := @takeWhile_str_toString n [] (by simp)
    rwa [List.append_nil] at run
  by_cases negative : time < 0
  · have none : (str "-" ++ str (toString time.natAbs)).takeWhile isDigit = [] := rfl
    rw [readTime, printInt, if_pos negative, Llcache.snptimet, none, if_pos (Or.inl rfl),
      if_neg (by omega)]
  · rw [readTime, printInt, if_neg negative, Llcache.snptimet, whole, foldl_str_toString]
    simp only [str_toString_ne_nil, false_or]
    by_cases late : Llcache.LAST_SECOND < time.natAbs
    · rw [if_pos late, if_neg (by omega)]
    · rw [if_neg late, if_pos (by omega)]
      dsimp only
      omega

/-- A word ends before the space after it. -/
theorem splitWord {text : Bytes} (oneWord : chr ' ' ∉ text) (rest : Bytes) :
    (text ++ chr ' ' :: rest).takeWhile (· ≠ chr ' ') = text ∧
      (text ++ chr ' ' :: rest).dropWhile (· ≠ chr ' ') = chr ' ' :: rest := by
  have inside : ∀ c ∈ text, (decide (c ≠ chr ' ')) = true := by
    intro c stored
    rw [decide_eq_true_iff]
    rintro rfl
    exact oneWord stored
  rw [List.takeWhile_append_of_pos inside, List.dropWhile_append_of_pos inside]
  simp

/-- One space before a word is skipped. -/
theorem skipSpace {text : Bytes} (word : chr ' ' ∉ text) :
    (chr ' ' :: text).dropWhile (· == chr ' ') = text := by
  rw [List.dropWhile_cons, if_pos BEq.rfl]
  cases text with
  | nil => rfl
  | cons c text =>
      apply List.dropWhile_cons_of_neg
      intro space
      rw [beq_iff_eq] at space
      exact word (space ▸ List.mem_cons_self)

/-- The line of a host is taken apart again. -/
theorem readHost_header {name : Bytes} (flag : Bool) (time : Int) (oneWord : chr ' ' ∉ name) :
    readHost 107 (name ++ chr ' ' :: (printInt (if flag then 1 else 0) ++
      chr ' ' :: printInt time)) =
        (name, { expires := readTime (printInt time) 0, includeSubDomains := flag }) := by
  have digit : ∃ c, printInt (if flag then 1 else 0) = [c] ∧ c ≠ chr ' ' ∧ (c == chr '1') = flag := by
    cases flag
    · exact ⟨chr '0', rfl, by decide, rfl⟩
    · exact ⟨chr '1', rfl, by decide, rfl⟩
  obtain ⟨c, text, other, value⟩ := digit
  have first (rest : Bytes) : (chr ' ' :: c :: chr ' ' :: rest).dropWhile (· == chr ' ') =
      c :: chr ' ' :: rest := by
    rw [List.dropWhile_cons, if_pos BEq.rfl]
    exact List.dropWhile_cons_of_neg (by simpa using other)
  have second (rest : Bytes) : (c :: chr ' ' :: rest).dropWhile (· ≠ chr ' ') = chr ' ' :: rest :=
    (@splitWord [c] (by simpa using other.symm) rest).2
  have later : ¬ (107 : Int) < 107 := by omega
  rw [readHost, if_neg later, text]
  simp only [List.singleton_append, (splitWord oneWord _).1, (splitWord oneWord _).2, first, second,
    skipSpace (space_not_mem_printInt time)]
  rw [← value]
  rfl

/-- The header of a host is read again: the host is added with its policy, and its entries are
loaded. -/
theorem loadHosts_header {junk : Bytes → Nsurl.Buff} {expiry : Int} {chain : Chain} {h : HostData}
    (fits : HostFits expiry chain h) {count : Nat} (small : count < 2 ^ 31) {rounds : Nat}
    {rest file : Bytes} (loaded : loadEntries env junk (chainName chain) count rest
      (loadHsts env (addHost env db (chainName chain)) (chainName chain)
        { savedHsts expiry h with
          expires := readTime (printInt (savedHsts expiry h).expires) 0 }) = (after, .ok file)) :
    loadHosts env junk 107 (rounds + 1) (hostHeader chain (savedHsts expiry h) count ++ rest) db =
      loadHosts env junk 107 rounds file after := by
  have flag : (printInt (if (savedHsts expiry h).includeSubDomains then 1 else 0)).length = 1 := by
    split <;> rfl
  have space : Unbroken [chr ' '] := by decide
  have short := fits.short
  have number : toInt32 count = count := toInt32_eq (by omega) (by omega)
  have plain : Unbroken (chainName chain ++ chr ' ' :: (printInt (if (savedHsts expiry h).includeSubDomains
      then 1 else 0) ++ chr ' ' :: printInt (savedHsts expiry h).expires)) := by
    have words (a b : Bytes) : a ++ chr ' ' :: b = a ++ ([chr ' '] ++ b) := rfl
    rw [words, words]
    simp only [unbroken_append]
    exact ⟨fits.name, space, unbroken_printInt _, space, unbroken_printInt _⟩
  have header : hostHeader chain (savedHsts expiry h) count ++ rest =
      line (chainName chain ++ chr ' ' :: (printInt (if (savedHsts expiry h).includeSubDomains
        then 1 else 0) ++ chr ' ' :: printInt (savedHsts expiry h).expires)) ++
          (line (printInt count) ++ rest) := by
    have spaces : str " " = [chr ' '] := rfl
    rw [hostHeader, hostText_eq fits, number, line_append plain, line, line,
      cstr_of_unbroken (unbroken_printInt _), cstr_of_unbroken (unbroken_printInt _), spaces]
    simp only [List.append_assoc, List.cons_append, List.nil_append]
  rw [header, loadHosts, fgets_line_append plain]
  · dsimp only
    rw [chomp_line plain, if_neg (by simp), readHost_header _ _ fits.oneWord]
    dsimp only
    rw [fgets_printInt (by omega)]
    dsimp only
    rw [atoi_line (by omega) (by omega), Int.toNat_natCast, loaded]
  · simp only [List.length_append, List.length_cons, flag]
    omega

/-- A host is written when it has URLs that are saved, or a policy that is. -/
def IsWritten (expiry : Int) (h : HostData) : Prop :=
  0 < countUrls expiry h.paths ∨ (savedHsts expiry h).expires ≠ 0

/-- The text of a host that is written. -/
theorem writeHost_eq {expiry : Int} {chain : Chain} (written : IsWritten expiry (hostAt db chain)) :
    writeHost expiry db chain = hostHeader chain (savedHsts expiry (hostAt db chain))
        (countUrls expiry (hostAt db chain).paths) ++
      (savedLeaves expiry [] (hostAt db chain).paths).flatMap fun x => writeUrl (pathAt x.1) x.2 := by
  have count := countUrls_eq expiry [] (hostAt db chain).paths
  have buffer : bufferAt [] = str "/" := rfl
  unfold writeHost
  dsimp only
  split
  · rw [← buffer, writePaths_eq]
  · rename_i none
    have empty : savedLeaves expiry [] (hostAt db chain).paths = [] := by
      apply List.eq_nil_of_length_eq_zero
      omega
    have zero : countUrls expiry (hostAt db chain).paths = 0 := by omega
    rw [if_pos (written.resolve_left none), empty, zero, List.flatMap_nil, List.append_nil]

theorem writeHost_eq_nil {expiry : Int} {chain : Chain}
    (skipped : ¬ IsWritten expiry (hostAt db chain)) : writeHost expiry db chain = [] := by
  rw [IsWritten, not_or] at skipped
  unfold writeHost
  dsimp only
  rw [if_neg skipped.1, if_neg skipped.2]

/-- A host was restored: the nodes of its saved URLs and its policy. -/
structure RestoredHost (expiry : Int) (chain : Chain) (h : HostData) (db after : Database) : Prop where
  recorded : ∀ x ∈ savedLeaves expiry [] h.paths, ∀ place : NodePlace,
    place.parts.map folded = chain.reverse.map folded → place.keys = x.1 →
      Recorded x.2 (after.seen place)
  others : ∀ place : NodePlace, (place.parts.map folded = chain.reverse.map folded →
    place.keys ∉ (savedLeaves expiry [] h.paths).map Prod.fst) → after.seen place = db.seen place
  policy : ∀ parts : List Bytes, parts.map folded = chain.reverse.map folded →
    (after.hosts.policy parts).expires = readTime (printInt (savedHsts expiry h).expires) 0 ∧
      ((savedHsts expiry h).expires ≠ 0 →
        (after.hosts.policy parts).includeSubDomains = (savedHsts expiry h).includeSubDomains)
  policies : ∀ parts : List Bytes, parts.map folded ≠ chain.reverse.map folded →
    after.hosts.policy parts = db.hosts.policy parts

/-- The policy that is loaded for a host that was added. -/
theorem policy_loadHsts {host : Bytes} {hsts : HstsData} (parts : List Bytes) :
    (loadHsts env (addHost env db host) host hsts).hosts.policy parts =
      if parts.map folded = (hostParts env host).map folded then hsts
      else db.hosts.policy parts := by
  obtain ⟨above, h, present⟩ := @hasHost_addHost_self env db host
  have loaded : (loadHsts env (addHost env db host) host hsts).hosts.policy parts =
      if parts.map folded = (hostParts env host).map folded then hsts
      else (addHost env db host).hosts.policy parts := by
    apply Hosts.view_modifyAt (fun _ => hsts) _ _ present
    · intro h
      rfl
    · intro h
      rfl
  have added := @hostsKept_addHost env db host parts
  rw [loaded, Hosts.policy_eq, added, ← Hosts.policy_eq]

/-- The lines of a host are read again. -/
theorem loadHosts_writeHost {junk : Bytes → Nsurl.Buff} {expiry : Int} {source : Database}
    {chain : Chain} (written : IsWritten expiry (hostAt source chain))
    (fits : HostFits expiry chain (hostAt source chain))
    (urls : ∀ x ∈ savedLeaves expiry [] (hostAt source chain).paths,
      UrlFits junk (chainName chain) x.1 x.2)
    (filed : ∀ x ∈ savedLeaves expiry [] (hostAt source chain).paths, x.1 ≠ [] ∧ x.2.Filed x.1)
    (distinct : ((savedLeaves expiry [] (hostAt source chain).paths).map Prod.fst).Nodup)
    (parts : (hostParts env (chainName chain)).map folded = chain.reverse.map folded)
    (fresh : ∀ place : NodePlace, place.parts.map folded = chain.reverse.map folded →
      db.seen place = (none, {})) (rounds : Nat) (rest : Bytes) :
    ∃ after, loadHosts env junk 107 (rounds + 1) (writeHost expiry source chain ++ rest) db =
        loadHosts env junk 107 rounds rest after ∧
      RestoredHost expiry chain (hostAt source chain) db after := by
  have shown (place : NodePlace) (hsts : HstsData) : (loadHsts env (addHost env db (chainName chain))
      (chainName chain) hsts).seen place = db.seen place := by
    rw [seen_loadHsts, seen_addHost]
  obtain ⟨after, loaded, restored⟩ := @loadEntries_writeUrls env (loadHsts env
      (addHost env db (chainName chain)) (chainName chain) { savedHsts expiry (hostAt source chain) with
        expires := readTime (printInt (savedHsts expiry (hostAt source chain)).expires) 0 }) junk
    (chainName chain) rest (savedLeaves expiry [] (hostAt source chain).paths)
    (hasHost_modifyAt (fun _ => rfl) (hasHost_addHost_self _)) urls filed distinct (by
      intro place same _
      rw [shown]
      exact fresh place (same.trans parts))
  refine ⟨after, ?_, ?_, ?_, ?_, ?_⟩
  · rw [writeHost_eq written, List.append_assoc]
    apply loadHosts_header fits fits.count
    rw [countUrls_eq expiry []]
    exact loaded
  · intro x stored place same keys
    exact restored.recorded x stored place (same.trans parts.symm) keys
  · intro place outside
    rw [restored.others place fun same => outside (same.trans parts), shown]
  · intro others same
    rw [restored.policies, policy_loadHsts, if_pos (same.trans parts.symm)]
    exact ⟨rfl, fun _ => rfl⟩
  · intro others other
    rw [restored.policies, policy_loadHsts, if_neg fun same => other (same.trans parts)]

/-- A host that is not written shows what a missing host shows. -/
theorem restoredHost_skipped {expiry : Int} {chain : Chain} {h : HostData}
    (skipped : ¬ IsWritten expiry h)
    (fresh : ∀ parts : List Bytes, parts.map folded = chain.reverse.map folded →
      db.hosts.policy parts = {}) : RestoredHost expiry chain h db db := by
  rw [IsWritten, not_or, not_not] at skipped
  have empty : savedLeaves expiry [] h.paths = [] := by
    apply List.eq_nil_of_length_eq_zero
    rw [← countUrls_eq]
    omega
  refine ⟨fun x stored => ?_, fun _ _ => rfl, fun parts same => ?_, fun _ _ => rfl⟩
  · rw [empty] at stored
    cases stored
  · rw [fresh parts same, skipped.2]
    exact ⟨rfl, fun impossible => absurd rfl impossible⟩

/-- All hosts of these chains were restored. -/
structure RestoredHosts (expiry : Int) (source : Database) (chains : List Chain)
    (db after : Database) : Prop where
  recorded : ∀ chain ∈ chains, ∀ x ∈ savedLeaves expiry [] (hostAt source chain).paths,
    ∀ place : NodePlace, place.parts.map folded = chain.reverse.map folded → place.keys = x.1 →
      Recorded x.2 (after.seen place)
  others : ∀ place : NodePlace, (∀ chain ∈ chains,
    place.parts.map folded = chain.reverse.map folded →
      place.keys ∉ (savedLeaves expiry [] (hostAt source chain).paths).map Prod.fst) →
    after.seen place = db.seen place
  policy : ∀ chain ∈ chains, ∀ parts : List Bytes,
    parts.map folded = chain.reverse.map folded →
      (after.hosts.policy parts).expires =
          readTime (printInt (savedHsts expiry (hostAt source chain)).expires) 0 ∧
        ((savedHsts expiry (hostAt source chain)).expires ≠ 0 →
          (after.hosts.policy parts).includeSubDomains =
            (savedHsts expiry (hostAt source chain)).includeSubDomains)
  policies : ∀ parts : List Bytes, (∀ chain ∈ chains,
    parts.map folded ≠ chain.reverse.map folded) →
      after.hosts.policy parts = db.hosts.policy parts

/-- What a host needs so that its lines are read again. -/
structure HostReads (env : Environment) (junk : Bytes → Nsurl.Buff) (expiry : Int)
    (source : Database) (chain : Chain) : Prop where
  fits : IsWritten expiry (hostAt source chain) → HostFits expiry chain (hostAt source chain)
  urls : ∀ x ∈ savedLeaves expiry [] (hostAt source chain).paths,
    UrlFits junk (chainName chain) x.1 x.2
  filed : ∀ x ∈ savedLeaves expiry [] (hostAt source chain).paths, x.1 ≠ [] ∧ x.2.Filed x.1
  distinct : ((savedLeaves expiry [] (hostAt source chain).paths).map Prod.fst).Nodup
  parts : (hostParts env (chainName chain)).map folded = chain.reverse.map folded

/-- The lines of all hosts are read again into a database that does not know them. -/
theorem loadHosts_writeHosts {junk : Bytes → Nsurl.Buff} {expiry : Int} {source : Database}
    {chains : List Chain} (reads : ∀ chain ∈ chains, HostReads env junk expiry source chain)
    (distinct : chains.Pairwise fun a b => a.reverse.map folded ≠ b.reverse.map folded)
    (fresh : ∀ chain ∈ chains, (∀ place : NodePlace,
        place.parts.map folded = chain.reverse.map folded → db.seen place = (none, {})) ∧
      ∀ parts : List Bytes, parts.map folded = chain.reverse.map folded →
        db.hosts.policy parts = {}) {rounds : Nat}
    (enough : (chains.flatMap (writeHost expiry source)).length < rounds) :
    ∃ after, loadHosts env junk 107 rounds (chains.flatMap (writeHost expiry source)) db =
      (after, .ok) ∧ RestoredHosts expiry source chains db after := by
  induction chains generalizing db rounds with
  | nil =>
      have round : ∃ more, rounds = more + 1 := Nat.exists_eq_succ_of_ne_zero (by omega)
      obtain ⟨more, rfl⟩ := round
      refine ⟨db, rfl, ?_, fun _ _ => rfl, ?_, fun _ _ => rfl⟩
      · intro chain impossible
        cases impossible
      · intro chain impossible
        cases impossible
  | cons chain chains ih =>
      rw [List.forall_mem_cons] at reads fresh
      rw [List.pairwise_cons] at distinct
      rw [List.flatMap_cons, List.length_append] at enough
      have one : ∃ rounds' middle, (chains.flatMap (writeHost expiry source)).length < rounds' ∧
          loadHosts env junk 107 rounds (writeHost expiry source chain ++
            chains.flatMap (writeHost expiry source)) db =
              loadHosts env junk 107 rounds' (chains.flatMap (writeHost expiry source)) middle ∧
          RestoredHost expiry chain (hostAt source chain) db middle := by
        by_cases written : IsWritten expiry (hostAt source chain)
        · have round : ∃ more, rounds = more + 1 := Nat.exists_eq_succ_of_ne_zero (by omega)
          obtain ⟨more, rfl⟩ := round
          have filled : 0 < (writeHost expiry source chain).length := by
            rw [writeHost_eq written, hostHeader]
            simp only [List.length_append, line, List.length_singleton]
            omega
          obtain ⟨middle, loaded, restored⟩ := loadHosts_writeHost written (reads.1.fits written)
            reads.1.urls reads.1.filed reads.1.distinct reads.1.parts fresh.1.1 more
              (chains.flatMap (writeHost expiry source))
          exact ⟨more, middle, by omega, loaded, restored⟩
        · refine ⟨rounds, db, by omega, ?_, restoredHost_skipped written fresh.1.2⟩
          rw [writeHost_eq_nil written, List.nil_append]
      obtain ⟨rounds', middle, enough, loaded, restored⟩ := one
      have apart {other : Chain} (inside : other ∈ chains) {parts : List Bytes}
          (same : parts.map folded = other.reverse.map folded) :
          parts.map folded ≠ chain.reverse.map folded := by
        intro here
        exact distinct.1 other inside (here.symm.trans same)
      have still : ∀ other ∈ chains, (∀ place : NodePlace,
            place.parts.map folded = other.reverse.map folded → middle.seen place = (none, {})) ∧
          ∀ parts : List Bytes, parts.map folded = other.reverse.map folded →
            middle.hosts.policy parts = {} := by
        intro other inside
        constructor
        · intro place same
          rw [restored.others place fun here => absurd here (apart inside same)]
          exact (fresh.2 other inside).1 place same
        · intro parts same
          rw [restored.policies parts (apart inside same)]
          exact (fresh.2 other inside).2 parts same
      obtain ⟨after, rest, all⟩ := ih reads.2 distinct.2 still enough
      refine ⟨after, ?_, ?_, ?_, ?_, ?_⟩
      · rw [List.flatMap_cons, loaded, rest]
      · rw [List.forall_mem_cons]
        refine ⟨fun x stored place same keys => ?_, all.recorded⟩
        rw [all.others place fun other inside here => absurd same (apart inside here)]
        exact restored.recorded x stored place same keys
      · intro place outside
        rw [List.forall_mem_cons] at outside
        rw [all.others place outside.2, restored.others place outside.1]
      · rw [List.forall_mem_cons]
        refine ⟨fun parts same => ?_, all.policy⟩
        rw [all.policies parts fun other inside here => apart inside here same]
        exact restored.policy parts same
      · intro parts outside
        rw [List.forall_mem_cons] at outside
        rw [all.policies parts outside.2, restored.policies parts outside.1]

end Neosurf.Urldb
