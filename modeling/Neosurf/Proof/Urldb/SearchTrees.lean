import Neosurf.Proof.Urldb.AuthDetails
import Neosurf.ToMathlib.AATree
import Neosurf.Proof.Urldb.SoundRuns

namespace Neosurf

theorem toLower_eq_slash (c : Byte) : toLower c = chr '/' ↔ c = chr '/' := by
  revert c
  apply byte_cases
  decide

theorem toLower_eq_dot (c : Byte) : toLower c = chr '.' ↔ c = chr '.' := by
  revert c
  apply byte_cases
  decide

theorem toLower_eq_open (c : Byte) : toLower c = chr '[' ↔ c = chr '[' := by
  revert c
  apply byte_cases
  decide

theorem toLower_eq_close (c : Byte) : toLower c = chr ']' ↔ c = chr ']' := by
  revert c
  apply byte_cases
  decide

theorem folded_takeWhile {test : Byte → Bool} (kept : ∀ c, test (toLower c) = test c)
    (text : Bytes) : folded (text.takeWhile test) = (folded text).takeWhile test := by
  have same : test ∘ toLower = test := by
    ext c
    rw [Function.comp_apply, kept]
  rw [folded, folded, List.takeWhile_map, same]

theorem toLower_byteAt (text : Bytes) (pos : Nat) :
    toLower (byteAt text pos) = byteAt (folded text) pos := by
  rw [byteAt, byteAt, folded, List.getD_eq_getElem?_getD, List.getD_eq_getElem?_getD,
    List.getElem?_map]
  cases text[pos]? <;> rfl

/-- Splitting at dots does not depend on the case of letters. -/
theorem folded_splitOn (text : Bytes) :
    (text.splitOn (chr '.')).map folded = (folded text).splitOn (chr '.') := by
  induction text with
  | nil => rfl
  | cons c text ih =>
      rw [folded, List.map_cons, List.splitOn_cons_eq_if_modifyHead,
        List.splitOn_cons_eq_if_modifyHead]
      simp only [beq_iff_eq, toLower_eq_dot]
      split
      · rw [List.map_cons, ih]
        rfl
      · rw [← folded, ← ih]
        cases text.splitOn (chr '.') <;> rfl

namespace Urldb

variable {env : Environment}

/-- The tests for addresses do not depend on the case of letters. -/
structure CaseBlind (env : Environment) : Prop where
  inetAton : ∀ a b, folded a = folded b → env.inetAton a = env.inetAton b
  inetPton6 : ∀ a b, folded a = folded b → env.inetPton6 a = env.inetPton6 b

theorem isIpChar_toLower (c : Byte) : isIpChar (toLower c) = isIpChar c := by
  revert c
  apply byte_cases
  decide

/-- The case of letters does not make an address. -/
theorem hostIsIpAddress_congr (blind : CaseBlind env) {a b : Bytes} (same : folded a = folded b) :
    hostIsIpAddress env a = hostIsIpAddress env b := by
  have sane : folded (a.takeWhile (· ≠ chr '/')) = folded (b.takeWhile (· ≠ chr '/')) := by
    have kept (c : Byte) : decide (toLower c ≠ chr '/') = decide (c ≠ chr '/') := by
      simp only [ne_eq, toLower_eq_slash]
    rw [folded_takeWhile kept, folded_takeWhile kept, same]
  unfold hostIsIpAddress
  dsimp only
  generalize a.takeWhile (· ≠ chr '/') = a at sane ⊢
  generalize b.takeWhile (· ≠ chr '/') = b at sane ⊢
  have all (text : Bytes) : text.all isIpChar = (folded text).all isIpChar := by
    rw [folded, List.all_map]
    congr 1
    ext c
    rw [Function.comp_apply, isIpChar_toLower]
  have count (text : Bytes) : text.count (chr '.') = (folded text).count (chr '.') := by
    rw [folded, List.count_eq_countP, List.count_eq_countP, List.countP_map]
    congr 1
    ext c
    rw [Function.comp_apply, Bool.eq_iff_iff, beq_iff_eq, beq_iff_eq, toLower_eq_dot]
  have length : a.length = b.length := by simpa [folded] using congrArg List.length sane
  have opened : byteAt a 0 ≠ chr '[' ↔ byteAt b 0 ≠ chr '[' := by
    rw [ne_eq, ne_eq, ← toLower_eq_open, ← toLower_eq_open (byteAt b 0), toLower_byteAt,
      toLower_byteAt, sane]
  have closed : byteAt a (b.length - 1) ≠ chr ']' ↔ byteAt b (b.length - 1) ≠ chr ']' := by
    rw [ne_eq, ne_eq, ← toLower_eq_close, ← toLower_eq_close (byteAt b _), toLower_byteAt,
      toLower_byteAt, sane]
  have inner : folded (((a.drop 1).take (a.length - 2)).take 63) =
      folded (((b.drop 1).take (b.length - 2)).take 63) := by
    simp only [folded, List.map_take, List.map_drop] at sane ⊢
    rw [sane, length]
  rw [all a, all b, count a, count b, sane, blind.inetAton a b sane, blind.inetPton6 _ _ inner]
  simp only [opened, closed, length]

theorem searchTreeOf_congr (blind : CaseBlind env) {a b : Bytes} (same : folded a = folded b) :
    searchTreeOf env a = searchTreeOf env b := by
  have first : toLower (byteAt a 0) = toLower (byteAt b 0) := by
    rw [toLower_byteAt, toLower_byteAt, same]
  have letter (c : Byte) : isAlpha (toLower c) = isAlpha c := by
    revert c
    apply byte_cases
    decide
  rw [searchTreeOf, searchTreeOf, hostIsIpAddress_congr blind same, first, ← letter,
    ← letter (byteAt b 0), first]

theorem lookedParts_congr (blind : CaseBlind env) {a b : Bytes} (same : folded a = folded b) :
    (lookedParts env a).map folded = (lookedParts env b).map folded := by
  rw [lookedParts, lookedParts, hostIsIpAddress_congr blind same]
  split
  · rw [List.map_singleton, List.map_singleton, same]
  · rw [List.map_reverse, List.map_reverse, folded_splitOn, folded_splitOn, same]

end Urldb
end Neosurf

namespace Neosurf.Urldb

open SiblingTree

variable {env : Environment} {db : Database} {hosts : List Bytes}

/-- The calls of `urldb_add_host` in this order. -/
def addHosts (env : Environment) (hosts : List Bytes) : Database := hosts.foldl (addHost env) {}

/-- A host has this text as its last label, but is no address. -/
def EndsIn (env : Environment) (label host : Bytes) : Prop :=
  hostIsIpAddress env host = false ∧ folded ((host.splitOn (chr '.')).getLastD []) = folded label

/-- The first label of a name is no address, and no address is added for the first time after a
name that it ends. -/
def Addable (env : Environment) (hosts : List Bytes) : Prop :=
  ∀ before host after, hosts = before ++ host :: after →
    (hostIsIpAddress env host = false →
      hostIsIpAddress env ((host.splitOn (chr '.')).headD []) = false) ∧
    (hostIsIpAddress env host = true → (∃ other ∈ before, EndsIn env host other) →
      ∃ other ∈ before, folded other = folded host)

/-- The search trees are in order and balanced, they hold the hosts that were added, each in its
tree, and a search finds those. -/
structure SearchTreesHold (env : Environment) (hosts : List Bytes) (db : Database) : Prop where
  sorted : ∀ i, (db.searchTrees i).Sorted searchMatchHost
  balanced : ∀ i, (db.searchTrees i).Balanced
  contents : ∀ i parts, (∃ chain ∈ (db.searchTrees i).toList, chain.reverse.map folded = parts) ↔
    ∃ host ∈ hosts, searchTreeOf env host = i ∧ (lookedParts env host).map folded = parts
  found : ∀ i name, ((db.searchTrees i).find (searchMatchString env name)).isSome = true ↔
    ∃ host ∈ hosts, searchTreeOf env host = i ∧ folded host = folded name

/-- What the calls keep: the trees and the labels at the top stem from the hosts. -/
structure HostsIndexed (env : Environment) (hosts : List Bytes) (db : Database) : Prop where
  indexed : Indexed db
  balanced : ∀ i, (db.searchTrees i).Balanced
  stems : ∀ i, ∀ chain ∈ (db.searchTrees i).toList, ∃ host ∈ hosts, searchTreeOf env host = i ∧
    chain.reverse.map folded = (lookedParts env host).map folded
  stored : ∀ host ∈ hosts, ∃ chain ∈ (db.searchTrees (searchTreeOf env host)).toList,
    chain.reverse.map folded = (lookedParts env host).map folded
  tops : ∀ part, db.hosts.has (HostData.isNamed part) = true →
    ∃ host ∈ hosts, folded part = folded ((lookedParts env host).headD [])

theorem hostsIndexed_empty : HostsIndexed env [] {} where
  indexed := (sound_empty : Sound env {}).toIndexed
  balanced _ := trivial
  stems _ _ impossible := by cases impossible
  stored _ impossible := by cases impossible
  tops _ impossible := by cases impossible

/-- An address at the top of the tree is in its search tree. -/
theorem address_stored (blind : CaseBlind env) (holds : HostsIndexed env hosts db) {host : Bytes}
    (present : db.hosts.has (HostData.isNamed host) = true)
    (known : (∃ other ∈ hosts, EndsIn env host other) → ∃ other ∈ hosts, folded other = folded host) :
    ∃ chain ∈ (db.searchTrees (searchTreeOf env host)).toList,
      chain.reverse.map folded = (lookedParts env host).map folded := by
  have added : ∃ other ∈ hosts, folded other = folded host := by
    obtain ⟨other, inside, same⟩ := holds.tops host present
    rw [lookedParts] at same
    split at same
    · exact ⟨other, inside, same.symm⟩
    · rename_i name
      apply known
      refine ⟨other, inside, by simpa using name, ?_⟩
      rw [same, List.headD_eq_head?_getD, List.head?_reverse, List.getLastD_eq_getLast?]
  obtain ⟨other, inside, same⟩ := added
  obtain ⟨chain, stored, chain_eq⟩ := holds.stored other inside
  rw [searchTreeOf_congr blind same] at stored
  exact ⟨chain, stored, chain_eq.trans (lookedParts_congr blind same)⟩

/-- One more host keeps the index. -/
theorem hostsIndexed_addHost (blind : CaseBlind env) (holds : HostsIndexed env hosts db)
    {host : Bytes} (findable : Findable env host)
    (known : hostIsIpAddress env host = true → (∃ other ∈ hosts, EndsIn env host other) →
      ∃ other ∈ hosts, folded other = folded host) :
    HostsIndexed env (hosts ++ [host]) (addHost env db host) := by
  have indexed := indexed_addHost findable holds.indexed
  rcases addHost_cases env db host with ⟨address, present, same⟩ | ⟨walked, walk_eq, after⟩
  · rw [same]
    refine ⟨holds.indexed, holds.balanced, ?_, ?_, ?_⟩
    · intro i chain stored
      obtain ⟨other, inside, facts⟩ := holds.stems i chain stored
      exact ⟨other, List.mem_append_left _ inside, facts⟩
    · intro other inside
      rcases List.mem_append.mp inside with old | new
      · exact holds.stored other old
      · rw [List.mem_singleton.mp new]
        exact address_stored blind holds present (known address)
    · intro part top
      obtain ⟨other, inside, facts⟩ := holds.tops part top
      exact ⟨other, List.mem_append_left _ inside, facts⟩
  · have chain_eq := folded_chain walk_eq
    rw [hostParts_eq findable] at chain_eq
    rw [after, searchTreeOf_first findable] at indexed ⊢
    refine ⟨indexed, ?_, ?_, ?_, ?_⟩
    · intro i
      change (if i = _ then _ else _ : AATree Chain).Balanced
      split
      · exact (AATree.grown_insert _ (holds.balanced _)).balanced
      · exact holds.balanced i
    · intro i chain stored
      rcases mem_searchInsert stored with old | ⟨rfl, rfl⟩
      · obtain ⟨other, inside, facts⟩ := holds.stems i chain old
        exact ⟨other, List.mem_append_left _ inside, facts⟩
      · exact ⟨host, by simp, rfl, chain_eq⟩
    · intro other inside
      rcases List.mem_append.mp inside with old | new
      · obtain ⟨chain, stored, same⟩ := holds.stored other old
        exact ⟨chain, mem_searchInsert_of_mem stored, same⟩
      · rw [List.mem_singleton.mp new]
        obtain ⟨x, stored, same⟩ := exists_mem_searchInsert
          { db with hosts := db.hosts.add (hostParts env host) } (searchTreeOf env host)
          (walked.reverse.map HostData.part)
        refine ⟨x, stored, ?_⟩
        rw [← chain_eq, List.map_reverse, List.map_reverse, same]
    · intro part top
      change (db.hosts.add (hostParts env host)).has (HostData.isNamed part) = true at top
      cases parts : hostParts env host with
      | nil => exact absurd parts (hostParts_ne_nil host)
      | cons first rest =>
          rw [parts] at top
          rcases Hosts.has_add top with before | same
          · obtain ⟨other, inside, facts⟩ := holds.tops part before
            exact ⟨other, List.mem_append_left _ inside, facts⟩
          · refine ⟨host, by simp, ?_⟩
            rw [← hostParts_eq findable, parts]
            exact same

theorem hostsIndexed_addHosts (blind : CaseBlind env) (short : ∀ host ∈ hosts, host.length < 256)
    (addable : Addable env hosts) : HostsIndexed env hosts (addHosts env hosts) := by
  induction hosts using List.reverseRecOn with
  | nil => exact hostsIndexed_empty
  | append_singleton before host ih =>
      have earlier : Addable env before := by
        intro first other after same
        have whole : before ++ [host] = first ++ other :: (after ++ [host]) := by simp [same]
        exact addable first other _ whole
      have holds := ih (fun other inside => short other (List.mem_append_left _ inside)) earlier
      obtain ⟨label, known⟩ := addable before host [] rfl
      have findable : Findable env host := by
        by_cases address : hostIsIpAddress env host = true
        · exact Or.inl address
        · exact Or.inr ⟨short host (by simp), label (by simpa using address)⟩
      rw [addHosts, List.foldl_append]
      exact hostsIndexed_addHost blind holds findable known

theorem findable_of_addable (short : ∀ host ∈ hosts, host.length < 256)
    (addable : Addable env hosts) : ∀ host ∈ hosts, Findable env host := by
  intro host inside
  obtain ⟨before, after, same⟩ := List.append_of_mem inside
  by_cases address : hostIsIpAddress env host = true
  · exact Or.inl address
  · exact Or.inr ⟨short host inside, (addable before host after same).1 (by simpa using address)⟩

/-- A chain spells the host that it stems from. -/
theorem folded_chain_text {chain : Chain} {host : Bytes}
    (same : chain.reverse.map folded = (lookedParts env host).map folded) :
    folded ([chr '.'].intercalate chain) = folded host := by
  have parts : chain.map folded = (lookedParts env host).reverse.map folded := by
    rw [List.map_reverse, ← same, List.map_reverse, List.reverse_reverse]
  rw [folded_intercalate, parts, ← folded_intercalate, intercalate_lookedParts]

/-- The first label of a chain is the last of the parts that it leads to. -/
theorem folded_headD {chain : Chain} {parts : List Bytes}
    (same : chain.reverse.map folded = parts.map folded) :
    folded (chain.headD []) = folded (parts.getLastD []) := by
  have last := congrArg List.getLast? same
  rw [List.getLast?_map, List.getLast?_reverse, List.getLast?_map] at last
  rw [List.headD_eq_head?_getD, List.getLastD_eq_getLast?]
  cases here : chain.head? with
  | none =>
      rw [here, Option.map_none, eq_comm, Option.map_eq_none_iff] at last
      rw [last]
  | some label =>
      rw [here, Option.map_some, eq_comm, Option.map_eq_some_iff] at last
      obtain ⟨other, there, same⟩ := last
      rw [there, Option.getD_some, Option.getD_some, same]

/-- What a search finds stems from a host with the name that it looks for. -/
theorem name_of_find (blind : CaseBlind env) {chain : Chain} {host name : Bytes}
    (findable : Findable env host)
    (stems : chain.reverse.map folded = (lookedParts env host).map folded)
    (accepted : searchMatchString env name chain = .eq) : folded host = folded name := by
  rw [searchMatchString] at accepted
  split at accepted
  · rename_i address
    have head : folded (chain.headD []) = folded name := strcasecmp_eq_iff.mp accepted
    have first := folded_headD stems
    rw [lookedParts] at first
    split at first
    · rw [← head, first]
      rfl
    · rename_i no_address
      have label := (findable.resolve_left no_address).2
      have same : folded ((host.splitOn (chr '.')).headD []) = folded name := by
        rw [← head, first, List.headD_eq_head?_getD, List.getLastD_eq_getLast?,
          List.getLast?_reverse]
      rw [hostIsIpAddress_congr blind same, address] at label
      cases label
  · have parts : chain.map folded = (name.splitOn (chr '.')).map folded :=
      searchMatchHost_eq_iff.mp accepted
    rw [← folded_chain_text stems, folded_intercalate, parts, ← folded_intercalate,
      List.intercalate_splitOn]

/-- After any calls of `urldb_add_host` for such hosts, the search trees hold them. -/
theorem addHosts_searchTrees (env : Environment) (hosts : List Bytes) (blind : CaseBlind env)
    (short : ∀ host ∈ hosts, host.length < 256) (addable : Addable env hosts) :
    SearchTreesHold env hosts (addHosts env hosts) := by
  have holds := hostsIndexed_addHosts blind short addable
  have findable := findable_of_addable short addable
  refine ⟨holds.indexed.sorted, holds.balanced, fun i parts => ?_, fun i name => ?_⟩
  · constructor
    · rintro ⟨chain, stored, rfl⟩
      obtain ⟨host, inside, tree, same⟩ := holds.stems i chain stored
      exact ⟨host, inside, tree, same.symm⟩
    · rintro ⟨host, inside, rfl, rfl⟩
      exact holds.stored host inside
  · constructor
    · intro present
      obtain ⟨chain, found⟩ := Option.isSome_iff_exists.mp present
      obtain ⟨stored, accepted⟩ := AATree.find_eq_some found
      obtain ⟨host, inside, tree, same⟩ := holds.stems i chain stored
      exact ⟨host, inside, tree, name_of_find blind (findable host inside) same accepted⟩
    · rintro ⟨host, inside, rfl, same⟩
      obtain ⟨chain, stored, parts⟩ := holds.stored host inside
      rw [searchTreeOf_congr blind same] at stored ⊢
      obtain ⟨other, found, _⟩ := searchFind_isSome holds.indexed stored
        (parts.trans (lookedParts_congr blind same))
      change (searchFind env (addHosts env hosts) name).isSome = true
      rw [found]
      rfl

/-- Only this text is an address, in brackets. -/
def oneAddress : Environment :=
  { plainEnvironment with inetPton6 := fun text => text == str "::10" }

theorem caseBlind_oneAddress : CaseBlind oneAddress where
  inetAton _ _ _ := rfl
  inetPton6 a b same := by
    have colon (c : Byte) : toLower c = chr ':' ↔ c = chr ':' := by
      revert c
      apply byte_cases
      decide
    have one (c : Byte) : toLower c = chr '1' ↔ c = chr '1' := by
      revert c
      apply byte_cases
      decide
    have zero (c : Byte) : toLower c = chr '0' ↔ c = chr '0' := by
      revert c
      apply byte_cases
      decide
    have text (a : Bytes) : a = str "::10" ↔ folded a = str "::10" := by
      change a = [chr ':', chr ':', chr '1', chr '0'] ↔
        a.map toLower = [chr ':', chr ':', chr '1', chr '0']
      simp only [List.map_eq_cons_iff, List.map_eq_nil_iff]
      constructor
      · rintro rfl
        exact ⟨_, _, rfl, by decide, _, _, rfl, by decide, _, _, rfl, by decide,
          _, _, rfl, by decide, rfl⟩
      · rintro ⟨w, _, rfl, first, x, _, rfl, second, y, _, rfl, third, z, _, rfl, fourth, rfl⟩
        rw [(colon w).mp first, (colon x).mp second, (one y).mp third, (zero z).mp fourth]
    change (a == str "::10") = (b == str "::10")
    rw [Bool.eq_iff_iff, beq_iff_eq, beq_iff_eq, text, text b, same]

/-- The hosts `b.a` and `[::10]` may be added. -/
theorem addHosts_searchTrees_two : SearchTreesHold oneAddress [str "b.a", str "[::10]"]
    (addHosts oneAddress [str "b.a", str "[::10]"]) := by
  apply addHosts_searchTrees _ _ caseBlind_oneAddress (by decide)
  intro before host after same
  have apart : folded ((List.splitOn (chr '.') (str "b.a")).getLastD []) ≠ folded (str "[::10]") := by
    decide
  rcases before with _ | ⟨first, _ | ⟨second, rest⟩⟩
  · cases same
    exact ⟨fun _ => by decide, fun _ ⟨_, inside, _⟩ => by cases inside⟩
  · cases same
    refine ⟨fun impossible => absurd impossible (by decide), fun _ ⟨other, inside, ends⟩ => ?_⟩
    rw [List.mem_singleton.mp inside] at ends
    exact absurd ends.2 apart
  · simp at same

/-- Once `[::10].com` was added, a search for the address `[::10]` answers with it. -/
theorem addHosts_finds_address : ¬ SearchTreesHold oneAddress [str "[::10].com"]
    (addHosts oneAddress [str "[::10].com"]) := by
  intro holds
  have present : ((((addHosts oneAddress [str "[::10].com"]).searchTrees ST_IP).find
      (searchMatchString oneAddress (str "[::10]"))).isSome = true) := by
    decide
  obtain ⟨host, inside, _, same⟩ := (holds.found ST_IP (str "[::10]")).mp present
  rw [List.mem_singleton.mp inside] at same
  exact absurd same (by decide)

end Neosurf.Urldb
