import Mathlib.Data.List.Nodup
import Mathlib.Data.List.Pairwise
import Neosurf.Construction.Hashmap

namespace Neosurf

variable {κ υ : Type} {p : HashmapParameters κ υ}

/-- An entry for a key is for every equal key. -/
theorem HashmapEntry.isFor_congr {a b : κ} (same : p.keyEq a b = true) (e : HashmapEntry κ υ) :
    e.isFor p a = e.isFor p b := by
  rw [isFor, isFor, p.hash_eq a b same, Hashmap.keyEq_congr same]

/-- Two entries for one key agree on every other key. -/
theorem HashmapEntry.isFor_agree {key other : κ} (d e : HashmapEntry κ υ)
    (first : d.isFor p key = true) (second : e.isFor p key = true) :
    d.isFor p other = e.isFor p other := by
  rw [isFor, Bool.and_eq_true, beq_iff_eq] at first second
  rw [isFor, isFor, first.1, second.1, Hashmap.keyEq_comm other d.key,
    Hashmap.keyEq_comm other e.key, ← Hashmap.keyEq_congr first.2,
    ← Hashmap.keyEq_congr second.2]

/-- An entry for two keys makes them equal. -/
theorem HashmapEntry.keyEq_of_isFor {key other : κ} {e : HashmapEntry κ υ}
    (first : e.isFor p key = true) (second : e.isFor p other = true) : p.keyEq key other = true :=
  p.trans key e.key other (Hashmap.keyEq_of_isFor first)
    (p.symm other e.key (Hashmap.keyEq_of_isFor second))

namespace Hashmap

variable {m : Hashmap p} {key other : κ}

theorem bucketOf_congr (same : p.keyEq key other = true) : bucketOf p key = bucketOf p other := by
  rw [bucketOf, bucketOf, p.hash_eq key other same]

theorem lookup_congr (same : p.keyEq key other = true) : m.lookup key = m.lookup other := by
  have test : HashmapEntry.isFor p key = HashmapEntry.isFor p other :=
    funext (HashmapEntry.isFor_congr same)
  rw [lookup, lookup, bucketOf_congr same, test]

@[simp] theorem lookup_create : (create p).lookup key = none := rfl

/-- A changed value is seen at all keys that are equal to its own. -/
theorem lookup_modify (change : υ → υ) : (m.modify key change).lookup other =
    if p.keyEq key other then (m.lookup other).map change else m.lookup other := by
  have found (chain : List (HashmapEntry κ υ)) :
      (chain.changeFirst (HashmapEntry.isFor p key) fun e =>
        { e with value := change e.value }).find? (HashmapEntry.isFor p other) =
      (chain.find? (HashmapEntry.isFor p other)).map fun e =>
        if e.isFor p key then { e with value := change e.value } else e :=
    List.find?_changeFirst HashmapEntry.isFor_agree fun _ _ => rfl
  rw [lookup, lookup, modify]
  dsimp only
  rw [Function.update_apply]
  by_cases same : p.keyEq key other = true
  · rw [if_pos same, if_pos (bucketOf_congr same).symm, bucketOf_congr same, found,
      Option.map_map, Option.map_map]
    apply Option.map_congr
    intro e here
    have passed : e.isFor p key = true := by
      rw [HashmapEntry.isFor_congr same]
      exact List.find?_some here
    simp [passed]
  · rw [if_neg same]
    split
    · rename_i bucket
      rw [found, Option.map_map, bucket]
      apply Option.map_congr
      intro e here
      have apart : ¬ e.isFor p key = true := fun passed =>
        same (HashmapEntry.keyEq_of_isFor passed (List.find?_some here))
      simp [apart]
    · rfl

/-- A key that is put into the map has its new value, and so have all keys that are equal to it. -/
theorem lookup_put (value : υ) : (m.put key fun _ => value).lookup other =
    if p.keyEq key other then some value else m.lookup other := by
  have here (other : κ) : HashmapEntry.isFor p other ⟨key, value, p.keyHash key⟩ =
      p.keyEq key other := by
    rw [HashmapEntry.isFor, keyEq_comm other key]
    cases same : p.keyEq key other with
    | false => exact Bool.and_false _
    | true => rw [p.hash_eq key other same, beq_self_eq_true, Bool.and_true]
  have found (chain : List (HashmapEntry κ υ)) :
      (putChain p key (fun _ => value) chain).find? (HashmapEntry.isFor p other) =
        if p.keyEq key other then
          some ((chain.find? (HashmapEntry.isFor p other)).elim ⟨key, value, p.keyHash key⟩
            fun e => { e with key, value })
        else chain.find? (HashmapEntry.isFor p other) := by
    rw [putChain]
    split
    · rename_i present
      have kept (e : HashmapEntry κ υ) (passed : e.isFor p key = true) :
          HashmapEntry.isFor p other { e with key, value } = e.isFor p other := by
        rw [HashmapEntry.isFor, HashmapEntry.isFor, keyEq_comm other key, keyEq_comm other e.key,
          keyEq_congr (keyEq_of_isFor passed)]
      rw [List.find?_changeFirst HashmapEntry.isFor_agree kept]
      by_cases same : p.keyEq key other = true
      · rw [if_pos same]
        cases first : chain.find? (HashmapEntry.isFor p other) with
        | none =>
            obtain ⟨e, inside, passed⟩ := List.any_eq_true.mp present
            rw [HashmapEntry.isFor_congr same] at passed
            exact absurd passed (List.find?_eq_none.mp first e inside)
        | some e =>
            have passed : e.isFor p key = true := by
              rw [HashmapEntry.isFor_congr same]
              exact List.find?_some first
            simp [passed]
      · rw [if_neg same]
        cases first : chain.find? (HashmapEntry.isFor p other) with
        | none => rfl
        | some e =>
            have apart : ¬ e.isFor p key = true := fun passed =>
              same (HashmapEntry.keyEq_of_isFor passed (List.find?_some first))
            simp [apart]
    · rename_i absent
      rw [List.find?_cons, here]
      by_cases same : p.keyEq key other = true
      · have missing : chain.find? (HashmapEntry.isFor p other) = none := by
          apply List.find?_eq_none.mpr
          intro e inside passed
          rw [← HashmapEntry.isFor_congr same] at passed
          exact absent (List.any_eq_true.mpr ⟨e, inside, passed⟩)
        simp [same, missing]
      · simp [same]
  rw [lookup, lookup, put]
  dsimp only
  rw [Function.update_apply]
  by_cases same : p.keyEq key other = true
  · rw [if_pos same, if_pos (bucketOf_congr same).symm, found, if_pos same]
    cases (m.buckets (bucketOf p key)).find? (HashmapEntry.isFor p other) <;> rfl
  · rw [if_neg same]
    split
    · rename_i bucket
      rw [found, if_neg same, bucket]
    · rfl

/-- No entry of its chain is for a missing key. -/
theorem any_of_absent (absent : m.lookup key = none) :
    (m.buckets (bucketOf p key)).any (HashmapEntry.isFor p key) = false := by
  rw [List.any_eq_false]
  exact List.find?_eq_none.mp (Option.map_eq_none_iff.mp absent)

theorem insert_eq_put (absent : m.lookup key = none) :
    m.insert key = m.put key fun _ => p.valueAlloc key := by
  simp [insert, put, insertChain, putChain, any_of_absent absent]

/-- A key that enters the map gets a new value. -/
theorem lookup_insert (absent : m.lookup key = none) : (m.insert key).lookup other =
    if p.keyEq key other then some (p.valueAlloc key) else m.lookup other := by
  rw [insert_eq_put absent, lookup_put]

/-- A removed key is absent, and so are all keys that are equal to it. -/
theorem lookup_remove : (m.remove key).lookup other =
    if p.keyEq key other then none else m.lookup other := by
  have single : (m.buckets (bucketOf p key)).Pairwise fun d e =>
      d.isFor p key = true → e.isFor p key = false := by
    refine (m.distinct _).imp fun {d e} apart first => ?_
    cases second : e.isFor p key with
    | false => rfl
    | true =>
        have same := p.trans d.key key e.key (p.symm _ _ (keyEq_of_isFor first))
          (keyEq_of_isFor second)
        rw [apart] at same
        cases same
  have agree (d e : HashmapEntry κ υ) (first : d.isFor p key = true)
      (second : d.isFor p other = true) : e.isFor p key = e.isFor p other :=
    HashmapEntry.isFor_congr (HashmapEntry.keyEq_of_isFor first second) e
  rw [lookup, lookup, remove]
  dsimp only
  rw [Function.update_apply]
  by_cases same : p.keyEq key other = true
  · rw [if_pos same, if_pos (bucketOf_congr same).symm, List.find?_eraseP agree single,
      Option.map_eq_none_iff, Option.filter_eq_none_iff]
    intro e found
    have here : e.isFor p key = true := by
      rw [HashmapEntry.isFor_congr same]
      exact List.find?_some found
    simp [here]
  · rw [if_neg same]
    split
    · rename_i bucket
      rw [List.find?_eraseP agree single, bucket]
      cases found : (m.buckets (bucketOf p key)).find? (HashmapEntry.isFor p other) with
      | none => rfl
      | some e =>
          have apart : ¬ e.isFor p key = true := fun here =>
            same (HashmapEntry.keyEq_of_isFor here (List.find?_some found))
          simp [apart, Option.filter_some]
    · rfl

theorem bucketOf_lt (key : κ) : bucketOf p key < DEFAULT_HASHMAP_BUCKETS :=
  Nat.mod_lt _ (by decide)

@[simp] theorem buckets_modify (change : υ → υ) : (m.modify key change).buckets =
    Function.update m.buckets (bucketOf p key)
      ((m.buckets (bucketOf p key)).changeFirst (HashmapEntry.isFor p key) fun e =>
        { e with value := change e.value }) := rfl

@[simp] theorem buckets_put (value : κ → υ) : (m.put key value).buckets =
    Function.update m.buckets (bucketOf p key)
      (putChain p key value (m.buckets (bucketOf p key))) := rfl

@[simp] theorem buckets_remove : (m.remove key).buckets =
    Function.update m.buckets (bucketOf p key)
      ((m.buckets (bucketOf p key)).eraseP (HashmapEntry.isFor p key)) := rfl

variable {m' : Hashmap p}

/-- Only one bucket changes a sum over the entries. -/
theorem sum_entries (f : HashmapEntry κ υ → Nat) {bucket : Nat} {chain : List (HashmapEntry κ υ)}
    (changed : m'.buckets = Function.update m.buckets bucket chain)
    (inside : bucket < DEFAULT_HASHMAP_BUCKETS) :
    (m'.entries.map f).sum + ((m.buckets bucket).map f).sum =
      (m.entries.map f).sum + (chain.map f).sum := by
  have step (n : Nat) : (((List.range n).flatMap m'.buckets).map f).sum +
      (if bucket < n then ((m.buckets bucket).map f).sum else 0) =
        (((List.range n).flatMap m.buckets).map f).sum +
          if bucket < n then (chain.map f).sum else 0 := by
    induction n with
    | zero => rfl
    | succ n ih =>
        have split (buckets : Nat → List (HashmapEntry κ υ)) :
            (((List.range (n + 1)).flatMap buckets).map f).sum =
              (((List.range n).flatMap buckets).map f).sum + ((buckets n).map f).sum := by
          rw [List.range_succ, List.flatMap_append, List.flatMap_singleton, List.map_append,
            List.sum_append]
        have here : m'.buckets n = if n = bucket then chain else m.buckets n := by
          rw [changed, Function.update_apply]
        rw [split, split, here]
        by_cases same : n = bucket
        · subst same
          simp only [lt_irrefl, if_false, Nat.lt_succ_self, if_true] at ih ⊢
          omega
        · have before : bucket < n + 1 ↔ bucket < n := by omega
          simp only [before, same, if_false]
          omega
  have total := step DEFAULT_HASHMAP_BUCKETS
  rw [if_pos inside, if_pos inside] at total
  exact total

/-- Only one bucket changes the number of entries. -/
theorem length_entries {bucket : Nat} {chain : List (HashmapEntry κ υ)}
    (changed : m'.buckets = Function.update m.buckets bucket chain)
    (inside : bucket < DEFAULT_HASHMAP_BUCKETS) :
    m'.entries.length + (m.buckets bucket).length = m.entries.length + chain.length := by
  have ones (l : List (HashmapEntry κ υ)) : (l.map fun _ => 1).sum = l.length := by simp
  have sums := sum_entries (fun _ => 1) changed inside
  rwa [ones, ones, ones, ones] at sums

/-- The sum of a number for each value. -/
def sum (m : Hashmap p) (f : υ → Nat) : Nat := (m.iterate.map f).sum

variable {f : υ → Nat} {value : υ}

theorem iterate_eq_map (m : Hashmap p) : m.iterate = m.entries.map HashmapEntry.value := by
  rw [iterate, entries, List.map_flatMap]

theorem sum_eq_entries (m : Hashmap p) (f : υ → Nat) :
    m.sum f = (m.entries.map fun e => f e.value).sum := by
  rw [sum, iterate_eq_map, List.map_map]
  rfl

theorem sum_create : (create p).sum f = 0 := by
  have empty : (create p).entries = [] := List.flatMap_eq_nil_iff.mpr fun _ _ => rfl
  rw [sum_eq_entries, empty]
  rfl

/-- A key that is found stands after entries for other keys. -/
theorem chain_of_lookup (found : m.lookup key = some value) : ∃ l e r,
    m.buckets (bucketOf p key) = l ++ e :: r ∧ e.isFor p key = true ∧ e.value = value ∧
      ∀ d ∈ l, d.isFor p key = false := by
  obtain ⟨e, first, rfl⟩ := Option.map_eq_some_iff.mp found
  obtain ⟨passed, l, r, chain, early⟩ := List.find?_eq_some_iff_append.mp first
  exact ⟨l, e, r, chain, passed, rfl, fun d inside => by simpa using early d inside⟩

theorem sum_modify (change : υ → υ) (found : m.lookup key = some value) :
    (m.modify key change).sum f + f value = m.sum f + f (change value) := by
  obtain ⟨l, e, r, chain, passed, rfl, early⟩ := chain_of_lookup found
  have sums := sum_entries (fun e => f e.value) (buckets_modify (m := m) change) (bucketOf_lt key)
  rw [chain, List.changeFirst_split early passed] at sums
  simp only [List.map_append, List.map_cons, List.sum_append, List.sum_cons] at sums
  rw [sum_eq_entries, sum_eq_entries]
  omega

/-- A change that keeps the numbers keeps their sum. -/
theorem sum_modify_kept {change : υ → υ} (kept : ∀ v, f (change v) = f v) :
    (m.modify key change).sum f = m.sum f := by
  have sums := sum_entries (fun e => f e.value) (buckets_modify (m := m) change) (bucketOf_lt key)
  rw [List.map_changeFirst fun e => kept e.value] at sums
  rw [sum_eq_entries, sum_eq_entries]
  omega

theorem sum_remove (found : m.lookup key = some value) :
    (m.remove key).sum f + f value = m.sum f := by
  obtain ⟨l, e, r, chain, passed, rfl, early⟩ := chain_of_lookup found
  have sums := sum_entries (fun e => f e.value) (buckets_remove (m := m)) (bucketOf_lt key)
  rw [chain, List.eraseP_split early passed] at sums
  simp only [List.map_append, List.map_cons, List.sum_append, List.sum_cons] at sums
  rw [sum_eq_entries, sum_eq_entries]
  omega

/-- A value that is found is among the values. -/
theorem mem_iterate (found : m.lookup key = some value) : value ∈ m.iterate := by
  obtain ⟨l, e, r, chain, _, rfl, _⟩ := chain_of_lookup found
  rw [iterate, List.mem_flatMap]
  refine ⟨bucketOf p key, List.mem_range.mpr (bucketOf_lt key), ?_⟩
  rw [chain]
  simp

theorem sum_put (absent : m.lookup key = none) :
    (m.put key fun _ => value).sum f = m.sum f + f value := by
  have sums := sum_entries (fun e => f e.value) (buckets_put (m := m) fun _ => value)
    (bucketOf_lt key)
  rw [putChain, if_neg (by simp [any_of_absent absent])] at sums
  simp only [List.map_cons, List.sum_cons] at sums
  rw [sum_eq_entries, sum_eq_entries]
  omega

/-- Every entry is in the bucket of its key. -/
def Placed (m : Hashmap p) : Prop :=
  ∀ bucket, ∀ e ∈ m.buckets bucket, bucketOf p e.key = bucket

theorem mem_entries {e : HashmapEntry κ υ} (placed : m.Placed) :
    e ∈ m.entries ↔ e ∈ m.buckets (bucketOf p e.key) := by
  rw [entries, List.mem_flatMap]
  constructor
  · rintro ⟨bucket, _, inside⟩
    rw [placed bucket e inside]
    exact inside
  · intro inside
    exact ⟨_, List.mem_range.mpr (bucketOf_lt e.key), inside⟩

/-- No two entries have equal keys. -/
theorem distinct_entries (placed : m.Placed) :
    m.entries.Pairwise fun d e => p.keyEq d.key e.key = false := by
  rw [entries, List.pairwise_flatMap]
  refine ⟨fun bucket _ => m.distinct bucket, ?_⟩
  apply List.nodup_range.imp
  intro i j different d first e second
  cases same : p.keyEq d.key e.key with
  | false => rfl
  | true =>
      have buckets := bucketOf_congr same
      rw [placed i d first, placed j e second] at buckets
      exact absurd buckets different

/-- A lookup finds the value of the entry for a key. -/
theorem lookup_eq_some {value : υ} (placed : m.Placed) : m.lookup key = some value ↔
    ∃ e ∈ m.entries, p.keyEq key e.key = true ∧ e.value = value := by
  rw [lookup, Option.map_eq_some_iff]
  constructor
  · rintro ⟨e, found, same⟩
    have equal := keyEq_of_isFor (List.find?_some found)
    refine ⟨e, (mem_entries placed).mpr ?_, equal, same⟩
    rw [← bucketOf_congr equal]
    exact List.mem_of_find?_eq_some found
  · rintro ⟨e, inside, equal, same⟩
    rw [mem_entries placed, ← bucketOf_congr equal] at inside
    have passed : e.isFor p key = true := by
      rw [HashmapEntry.isFor, m.hashed _ e inside, ← p.hash_eq key e.key equal, beq_self_eq_true,
        equal, Bool.and_true]
    refine ⟨e, ?_, same⟩
    obtain ⟨l, r, split⟩ := List.append_of_mem inside
    have distinct := m.distinct (bucketOf p key)
    rw [split] at distinct ⊢
    refine List.find?_split (fun d early => ?_) passed
    cases first : d.isFor p key with
    | false => rfl
    | true =>
        have apart := (List.pairwise_append.mp distinct).2.2 d early e List.mem_cons_self
        rw [p.trans d.key key e.key (p.symm _ _ (keyEq_of_isFor first)) equal] at apart
        cases apart

theorem placed_update {bucket : Nat} {chain : List (HashmapEntry κ υ)} (placed : m.Placed)
    (changed : m'.buckets = Function.update m.buckets bucket chain)
    (new : ∀ e ∈ chain, bucketOf p e.key = bucket) : m'.Placed := by
  intro i e inside
  rw [changed, Function.update_apply] at inside
  split at inside
  · rename_i same
    rw [same]
    exact new e inside
  · exact placed i e inside

theorem placed_create : (create p).Placed := fun _ _ impossible => by cases impossible

theorem placed_modify {change : υ → υ} (placed : m.Placed) : (m.modify key change).Placed := by
  apply placed_update placed (buckets_modify change)
  intro e inside
  rcases List.mem_changeFirst inside with old | ⟨d, old, _, rfl⟩
  · exact placed _ e old
  · exact placed _ d old

theorem placed_put {value : κ → υ} (placed : m.Placed) : (m.put key value).Placed := by
  apply placed_update placed (buckets_put value)
  intro e inside
  rw [putChain] at inside
  split at inside
  · rcases List.mem_changeFirst inside with old | ⟨d, _, _, rfl⟩
    · exact placed _ e old
    · rfl
  · rcases List.mem_cons.mp inside with rfl | old
    · rfl
    · exact placed _ e old

theorem placed_remove (placed : m.Placed) : (m.remove key).Placed := by
  apply placed_update placed buckets_remove
  intro e inside
  exact placed _ e (List.mem_of_mem_eraseP inside)

end Hashmap
end Neosurf
