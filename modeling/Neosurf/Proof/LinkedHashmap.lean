import Mathlib.Data.List.Nodup
import Mathlib.Data.List.Pairwise
import Mathlib.Order.Interval.Finset.Nat
import Neosurf.Construction.Hashmap
import Neosurf.Proof.Hashmap

namespace Neosurf

variable {κ υ : Type} {p : HashmapParameters κ υ}

namespace LinkedHashmap

/-- The chains in memory are those of a map, and the entries are counted. -/
structure Represents (h : LinkedHashmap κ υ) (m : Hashmap p)
    (chains : Nat → List (Nat × HashmapEntry κ υ)) : Prop where
  holds : h.memory.Holds chains
  data : ∀ i, (chains i).map Prod.snd = m.buckets i
  placed : m.Placed
  valid : ∀ i, ∀ a ∈ (chains i).map Prod.fst, 0 < a ∧ a < UInt64.size
  count : h.entryCount.toNat = m.entries.length

variable {h : LinkedHashmap κ υ} {m : Hashmap p} {chains : Nat → List (Nat × HashmapEntry κ υ)}
  {key : κ}

/-- Distinct addresses that are not NULL. -/
theorem length_lt {addresses : List Nat} (nodup : addresses.Nodup)
    (valid : ∀ a ∈ addresses, 0 < a ∧ a < UInt64.size) : addresses.length < UInt64.size := by
  rw [← List.toFinset_card_of_nodup nodup]
  have inside : addresses.toFinset ⊆ Finset.Ioo 0 UInt64.size := by
    intro a member
    exact Finset.mem_Ioo.mpr (valid a (List.mem_toFinset.mp member))
  calc addresses.toFinset.card ≤ (Finset.Ioo 0 UInt64.size).card := Finset.card_le_card inside
    _ < UInt64.size := by
      rw [Nat.card_Ioo]
      decide

theorem Represents.rounds (represents : Represents h m chains) (i : Nat) :
    (chains i).length ≤ ROUNDS := by
  have short := length_lt (represents.holds.nodup i) (represents.valid i)
  rw [List.length_map] at short
  exact short.le

/-- All addresses of the map. -/
def addresses (chains : Nat → List (Nat × HashmapEntry κ υ)) : List Nat :=
  (List.range DEFAULT_HASHMAP_BUCKETS).flatMap fun i => (chains i).map Prod.fst

theorem Represents.nodup_addresses (represents : Represents h m chains) :
    (addresses chains).Nodup := by
  rw [addresses, List.nodup_flatMap]
  refine ⟨fun i _ => represents.holds.nodup i, ?_⟩
  apply List.nodup_range.imp
  intro i j different a left right
  exact different (represents.holds.apart i j a left right)

theorem Represents.length_addresses (represents : Represents h m chains) :
    (addresses chains).length = m.entries.length := by
  have lengths : (fun i => ((chains i).map Prod.fst).length) = fun i => (m.buckets i).length := by
    funext i
    rw [← represents.data i, List.length_map, List.length_map]
  rw [addresses, Hashmap.entries, List.length_flatMap, List.length_flatMap, lengths]

/-- A chain splits at the entry that a search finds. -/
theorem Represents.find (key : κ) (represents : Represents h m chains) :
    (h.find p key = none ∧ ∀ e ∈ m.buckets (Hashmap.bucketOf p key), e.isFor p key = false) ∨
      ∃ ys a x zs cell, chains (Hashmap.bucketOf p key) = ys ++ (a, x) :: zs ∧
        (∀ e ∈ ys.map Prod.snd, e.isFor p key = false) ∧ x.isFor p key = true ∧
        h.memory.cells a = some cell ∧ cell.data = x ∧ h.find p key = some (a, cell) := by
  have linked := represents.holds.linked (Hashmap.bucketOf p key)
  rw [LinkedHashmap.find, represents.holds.heads]
  rcases ChainMemory.find_linked (HashmapEntry.isFor p key) linked (represents.rounds _) with
    ⟨absent, fails⟩ | ⟨ys, a, x, zs, cell, split, early, passed, here, same, found⟩
  · refine Or.inl ⟨absent, ?_⟩
    rw [← represents.data]
    intro e inside
    obtain ⟨pair, member, rfl⟩ := List.mem_map.mp inside
    exact fails pair member
  · refine Or.inr ⟨ys, a, x, zs, cell, split, ?_, passed, here, same, found⟩
    intro e inside
    obtain ⟨pair, member, rfl⟩ := List.mem_map.mp inside
    exact early pair member

theorem Represents.lookup (represents : Represents h m chains) :
    h.lookup p key = m.lookup key := by
  rw [LinkedHashmap.lookup, Hashmap.lookup]
  rcases represents.find key with
    ⟨absent, fails⟩ | ⟨ys, a, x, zs, cell, split, early, passed, _, same, found⟩
  · rw [absent, List.find?_eq_none.mpr fun e inside => by simp [fails e inside]]
    rfl
  · rw [found, ← represents.data, split, List.map_append, List.map_cons,
      List.find?_split early passed, ← same]
    rfl

/-- A free address is in no chain. -/
theorem Represents.fresh {a : Nat} (represents : Represents h m chains)
    (free : h.memory.cells a = none) (i : Nat) : a ∉ (chains i).map Prod.fst := by
  intro inside
  obtain ⟨⟨b, x⟩, member, rfl⟩ := List.mem_map.mp inside
  obtain ⟨ys, zs, split⟩ := List.append_of_mem member
  obtain ⟨_, _, _, here, _⟩ := represents.holds.split split
  rw [free] at here
  cases here

/-- There is a count for one more entry at a free address. -/
theorem Represents.room {a : Nat} (represents : Represents h m chains)
    (fresh : ∀ i, a ∉ (chains i).map Prod.fst) (positive : 0 < a) (bounded : a < UInt64.size) :
    h.entryCount.toNat + 1 < UInt64.size := by
  have absent : a ∉ addresses chains := by
    intro inside
    obtain ⟨i, _, member⟩ := List.mem_flatMap.mp inside
    exact fresh i member
  have short := length_lt (List.nodup_cons.mpr ⟨absent, represents.nodup_addresses⟩) (by
    rintro b (_ | ⟨_, inside⟩)
    · exact ⟨positive, bounded⟩
    · obtain ⟨i, _, member⟩ := List.mem_flatMap.mp inside
      exact represents.valid i b member)
  rw [List.length_cons, represents.length_addresses, ← represents.count] at short
  exact short

/-- One chain of the map changes along with the memory. -/
theorem Represents.update {h' : LinkedHashmap κ υ} {m' : Hashmap p} {key : κ}
    {chain : List (Nat × HashmapEntry κ υ)} (represents : Represents h m chains)
    (holds : h'.memory.Holds (Function.update chains (Hashmap.bucketOf p key) chain))
    (changed : m'.buckets = Function.update m.buckets (Hashmap.bucketOf p key)
      (chain.map Prod.snd))
    (placed : ∀ e ∈ chain.map Prod.snd, Hashmap.bucketOf p e.key = Hashmap.bucketOf p key)
    (valid : ∀ a ∈ chain.map Prod.fst, 0 < a ∧ a < UInt64.size)
    (count : h'.entryCount.toNat + (chains (Hashmap.bucketOf p key)).length =
      h.entryCount.toNat + chain.length) :
    Represents h' m' (Function.update chains (Hashmap.bucketOf p key) chain) where
  holds := holds
  data i := by
    rw [changed, Function.update_apply, Function.update_apply]
    split
    · rfl
    · exact represents.data i
  placed := Hashmap.placed_update represents.placed changed placed
  valid i := by
    rw [Function.update_apply]
    split
    · exact valid
    · exact represents.valid i
  count := by
    have entries := Hashmap.length_entries changed (Hashmap.bucketOf_lt key)
    rw [← represents.data, List.length_map, List.length_map] at entries
    have before := represents.count
    omega

/-- The entries of a bucket are those around the one that a search finds. -/
theorem Represents.bucket {ys zs : List (Nat × HashmapEntry κ υ)} {a : Nat}
    {x : HashmapEntry κ υ} {bucket : Nat} (represents : Represents h m chains)
    (split : chains bucket = ys ++ (a, x) :: zs) :
    m.buckets bucket = ys.map Prod.snd ++ x :: zs.map Prod.snd := by
  rw [← represents.data, split, List.map_append, List.map_cons]

/-- An insertion that has memory puts the clone of the key into the map. -/
theorem Represents.insert {value : υ} {alloc : InsertMemory p key}
    (represents : Represents h m chains) (mallocs : h.Mallocs alloc.entry)
    (done : (h.insert p key alloc).2 = some value) :
    ∃ clone ∈ alloc.keyClone, ∃ chains',
      Represents (h.insert p key alloc).1 (m.put clone fun _ => value) chains' := by
  have placed := represents.placed (Hashmap.bucketOf p key)
  have hashed := m.hashed (Hashmap.bucketOf p key)
  rcases represents.find key with
    ⟨absent, fails⟩ | ⟨ys, a, x, zs, cell, split, early, passed, here, same, found⟩
  · unfold LinkedHashmap.insert at done ⊢
    simp only [absent] at done ⊢
    cases entry : alloc.entry with
    | none => simp [entry] at done
    | some a =>
        simp only [entry] at done ⊢
        cases cloned : alloc.keyClone with
        | none => simp [cloned] at done
        | some clone =>
            simp only [cloned] at done ⊢
            cases made : alloc.valueAlloc clone with
            | none => simp [made] at done
            | some new =>
                simp only [made, Option.some.injEq] at done ⊢
                subst done
                have equal := alloc.clone_eq clone cloned
                have buckets := Hashmap.bucketOf_congr equal
                obtain ⟨positive, bounded, free⟩ := mallocs a entry
                have fresh := represents.fresh free
                refine ⟨clone, rfl, _, represents.update (represents.holds.push fresh) ?_ ?_ ?_ ?_⟩
                · have missing : (m.buckets (Hashmap.bucketOf p key)).any
                      (HashmapEntry.isFor p clone) = false := by
                    rw [← funext (HashmapEntry.isFor_congr equal)]
                    simpa using fails
                  rw [Hashmap.buckets_put, ← buckets, Hashmap.putChain, missing, List.map_cons,
                    represents.data, p.hash_eq key clone equal]
                  rfl
                · rintro e (_ | ⟨_, inside⟩)
                  · exact buckets.symm
                  · rw [represents.data] at inside
                    exact placed e inside
                · rintro b (_ | ⟨_, inside⟩)
                  · exact ⟨positive, bounded⟩
                  · exact represents.valid _ b inside
                · have room := represents.room fresh positive bounded
                  have raised : (h.entryCount + 1).toNat = h.entryCount.toNat + 1 := by
                    rw [UInt64.toNat_add]
                    exact Nat.mod_eq_of_lt room
                  rw [raised, List.length_cons]
                  omega
  · unfold LinkedHashmap.insert at done ⊢
    simp only [found] at done ⊢
    cases cloned : alloc.keyClone with
    | none => simp [cloned] at done
    | some clone =>
        simp only [cloned] at done ⊢
        cases made : alloc.valueAlloc cell.data.key with
        | none => simp [made] at done
        | some new =>
            simp only [made, Option.some.injEq] at done ⊢
            subst done same
            have equal := alloc.clone_eq clone cloned
            have buckets := Hashmap.bucketOf_congr equal
            have bucket := represents.bucket split
            refine ⟨clone, rfl, _, represents.update (represents.holds.setData split) ?_ ?_ ?_ ?_⟩
            · have test := funext (HashmapEntry.isFor_congr equal)
              have present : (m.buckets (Hashmap.bucketOf p key)).any
                  (HashmapEntry.isFor p clone) = true := by
                rw [← test, bucket, List.any_append, List.any_cons, passed, Bool.true_or,
                  Bool.or_true]
              rw [Hashmap.buckets_put, ← buckets, Hashmap.putChain, if_pos present, bucket, ← test,
                List.changeFirst_split early passed, List.map_append, List.map_cons]
            · intro e inside
              rw [List.map_append, List.map_cons, List.mem_append, List.mem_cons] at inside
              rw [bucket] at placed
              rcases inside with before | rfl | after
              · exact placed e (List.mem_append_left _ before)
              · exact buckets.symm
              · exact placed e (List.mem_append_right _ (List.mem_cons_of_mem _ after))
            · have valid := represents.valid (Hashmap.bucketOf p key)
              rw [split] at valid
              simpa using valid
            · rw [split]
              simp

/-- An insertion that fails leaves the map alone. -/
theorem insert_failed {alloc : InsertMemory p key} (failed : (h.insert p key alloc).2 = none) :
    (h.insert p key alloc).1 = h := by
  unfold LinkedHashmap.insert at failed ⊢
  split
  · rename_i a entry found
    simp only [found] at failed
    split
    · rfl
    · rename_i newKey cloned
      simp only [cloned] at failed
      split
      · rfl
      · rename_i value allocated
        simp only [allocated] at failed
        cases failed
  · rename_i missing
    simp only [missing] at failed
    split
    · rfl
    · rename_i a allocated
      simp only [allocated] at failed
      split
      · rfl
      · rename_i newKey cloned
        simp only [cloned] at failed
        split
        · rfl
        · rename_i value made
          simp only [made] at failed
          cases failed

theorem Represents.remove (key : κ) (represents : Represents h m chains) :
    (h.remove p key).2 = (m.lookup key).isSome ∧
      ∃ chains', Represents (h.remove p key).1 (m.remove key) chains' := by
  rcases represents.find key with
    ⟨absent, fails⟩ | ⟨ys, a, x, zs, cell, split, early, passed, here, same, found⟩
  · have missing : m.lookup key = none := by
      rw [← represents.lookup, LinkedHashmap.lookup, absent]
      rfl
    have kept : m.remove key = m := by
      have chain : (m.buckets (Hashmap.bucketOf p key)).eraseP (HashmapEntry.isFor p key) =
          m.buckets (Hashmap.bucketOf p key) :=
        List.eraseP_of_forall_not fun e inside => by simp [fails e inside]
      simp [Hashmap.remove, chain]
    rw [missing, kept, LinkedHashmap.remove, absent]
    exact ⟨rfl, chains, represents⟩
  · have present : m.lookup key = some x.value := by
      rw [← represents.lookup, LinkedHashmap.lookup, found, ← same]
      rfl
    have bucket := represents.bucket split
    rw [present, LinkedHashmap.remove, found]
    refine ⟨rfl, _, represents.update (represents.holds.unlink split here) ?_ ?_ ?_ ?_⟩
    · rw [Hashmap.buckets_remove, bucket, List.eraseP_split early passed, List.map_append]
    · have placed := represents.placed (Hashmap.bucketOf p key)
      rw [bucket] at placed
      intro e inside
      rw [List.map_append, List.mem_append] at inside
      rcases inside with before | after
      · exact placed e (List.mem_append_left _ before)
      · exact placed e (List.mem_append_right _ (List.mem_cons_of_mem _ after))
    · have valid := represents.valid (Hashmap.bucketOf p key)
      rw [split] at valid
      intro b inside
      rw [List.map_append, List.mem_append] at inside
      apply valid b
      rw [List.map_append, List.map_cons, List.mem_append, List.mem_cons]
      tauto
    · have some_entry : 0 < h.entryCount.toNat := by
        rw [represents.count, List.length_pos_iff_exists_mem]
        refine ⟨x, (Hashmap.mem_entries represents.placed).mpr ?_⟩
        have inside : x ∈ m.buckets (Hashmap.bucketOf p key) := by
          rw [bucket]
          simp
        rw [represents.placed _ x inside]
        exact inside
      have lowered : (h.entryCount - 1).toNat = h.entryCount.toNat - 1 :=
        UInt64.toNat_sub_of_le _ _ (UInt64.le_iff_toNat_le.mpr some_entry)
      rw [split, lowered]
      simp only [List.length_append, List.length_cons]
      omega

theorem represents_create : Represents (create : LinkedHashmap κ υ) (Hashmap.create p) fun _ => [] where
  holds := ⟨fun _ => rfl, fun _ => trivial, fun _ => .nil, fun _ _ _ inside => by cases inside⟩
  data _ := rfl
  placed _ _ inside := by cases inside
  valid _ _ inside := by cases inside
  count := by simp [create, Hashmap.entries, Hashmap.create]

/-- An iteration shows the entries to the callback until it answers true. -/
theorem Represents.iterate {σ : Type} (represents : Represents h m chains)
    (cb : κ → υ → σ → Bool × σ) (ctx : σ) :
    h.iterate cb ctx = ChainMemory.visitList (fun e => cb e.key e.value) m.entries ctx := by
  have step (buckets : List Nat) (ctx : σ) : h.iterateBuckets cb buckets ctx =
      ChainMemory.visitList (fun e => cb e.key e.value) (buckets.flatMap m.buckets) ctx := by
    induction buckets generalizing ctx with
    | nil => rfl
    | cons bucket rest ih =>
        rw [iterateBuckets, represents.holds.heads, List.flatMap_cons, ChainMemory.visitList_append,
          ChainMemory.visit_linked _ _ (represents.holds.linked bucket) (represents.rounds bucket),
          represents.data]
        split <;> rename_i answer
        · rw [answer]
        · rw [answer]
          exact ih _
  exact step _ ctx

/-- The map behind every run, with the value of the latest insertion of each key. -/
theorem represents_run {events : List (HashmapEvent κ υ)}
    (run : HashmapRun p h events) : ∃ (m : Hashmap p) (chains : _), Represents h m chains ∧
      ∀ key, m.lookup key = HashmapEvent.latest p key events := by
  induction run with
  | create => exact ⟨.create p, _, represents_create, fun _ => rfl⟩
  | @insert h events key alloc mallocs _ ih =>
      obtain ⟨m, chains, represents, lookups⟩ := ih
      cases done : (h.insert p key alloc).2 with
      | none =>
          rw [insert_failed done]
          exact ⟨m, chains, represents, lookups⟩
      | some value =>
          obtain ⟨clone, cloned, chains', after⟩ := represents.insert mallocs done
          refine ⟨_, chains', after, fun other => ?_⟩
          have equal := alloc.clone_eq clone cloned
          rw [Hashmap.lookup_put, lookups, HashmapEvent.latest, ← Hashmap.keyEq_congr equal,
            Hashmap.keyEq_comm key other]
  | @remove h events key _ ih =>
      obtain ⟨m, chains, represents, lookups⟩ := ih
      obtain ⟨_, chains', after⟩ := represents.remove key
      refine ⟨_, chains', after, fun other => ?_⟩
      rw [Hashmap.lookup_remove, lookups, HashmapEvent.latest, Hashmap.keyEq_comm key other]
  | lookup key _ ih => exact ih

/-- Numbers as keys and values, all in one bucket. -/
def crowdedParameters : HashmapParameters Nat Nat where
  keyHash _ := 7
  keyEq a b := a == b
  valueAlloc key := key
  refl a := beq_self_eq_true a
  symm a b same := by rw [beq_iff_eq] at same ⊢; exact same.symm
  trans a b c first second := by rw [beq_iff_eq] at first second ⊢; exact first.trans second
  hash_eq _ _ _ := rfl

/-- The memory for an entry at an address. -/
def crowdedMemory (key address value : Nat) : InsertMemory crowdedParameters key where
  entry := some address
  keyClone := some key
  valueAlloc _ := some value
  clone_eq clone same := by
    cases same
    exact beq_self_eq_true key

/-- A map with two keys of one bucket. -/
def crowded : LinkedHashmap Nat Nat :=
  ((create.insert crowdedParameters 1 (crowdedMemory 1 16 10)).1.insert crowdedParameters 2
    (crowdedMemory 2 32 20)).1

end LinkedHashmap
end Neosurf
