/-
This file models the hash map of `utils/hashmap.c`, and how it links the entries of its buckets by
hand.
-/

import Mathlib.Data.UInt
import Neosurf.ToMathlib.ChainedCells
import Neosurf.ToMathlib.ChangeFirst

namespace Neosurf

variable {κ υ : Type}

/-- This is `hashmap_parameters_t` without the functions that free memory. The keys are compared
by an equivalence, and equal keys have equal hashes. -/
structure HashmapParameters (κ υ : Type) where
  keyHash : κ → UInt32
  keyEq : κ → κ → Bool
  valueAlloc : κ → υ
  refl : ∀ a, keyEq a a = true
  symm : ∀ a b, keyEq a b = true → keyEq b a = true
  trans : ∀ a b c, keyEq a b = true → keyEq b c = true → keyEq a c = true
  hash_eq : ∀ a b, keyEq a b = true → keyHash a = keyHash b

/-- This is `hashmap_entry_t` without its links. -/
structure HashmapEntry (κ υ : Type) where
  key : κ
  value : υ
  keyHash : UInt32

/-- The test of every loop over a chain. -/
def HashmapEntry.isFor (p : HashmapParameters κ υ) (key : κ) (e : HashmapEntry κ υ) : Bool :=
  e.keyHash == p.keyHash key && p.keyEq key e.key

def DEFAULT_HASHMAP_BUCKETS : Nat := 4091

/-- This is `hashmap_t`: the chains of its buckets. Every entry has the hash of its key, and no
two entries of a chain have equal keys. -/
structure Hashmap (p : HashmapParameters κ υ) where
  buckets : Nat → List (HashmapEntry κ υ)
  hashed : ∀ bucket, ∀ e ∈ buckets bucket, e.keyHash = p.keyHash e.key
  distinct : ∀ bucket, (buckets bucket).Pairwise fun d e => p.keyEq d.key e.key = false

namespace Hashmap

variable {p : HashmapParameters κ υ}

/-- This is `hashmap_create`. -/
def create (p : HashmapParameters κ υ) : Hashmap p where
  buckets _ := []
  hashed _ _ impossible := by cases impossible
  distinct _ := .nil

def bucketOf (p : HashmapParameters κ υ) (key : κ) : Nat :=
  (p.keyHash key).toNat % DEFAULT_HASHMAP_BUCKETS

/-- This is `hashmap_lookup`. -/
def lookup (m : Hashmap p) (key : κ) : Option υ :=
  ((m.buckets (bucketOf p key)).find? (HashmapEntry.isFor p key)).map HashmapEntry.value

theorem keyEq_of_isFor {key : κ} {e : HashmapEntry κ υ} (passed : e.isFor p key = true) :
    p.keyEq key e.key = true := by
  rw [HashmapEntry.isFor, Bool.and_eq_true] at passed
  exact passed.2

theorem keyEq_comm (a b : κ) : p.keyEq a b = p.keyEq b a := by
  rw [Bool.eq_iff_iff]
  exact ⟨p.symm a b, p.symm b a⟩

/-- Equal keys are equal to the same keys. -/
theorem keyEq_congr {a b : κ} (same : p.keyEq a b = true) (c : κ) : p.keyEq a c = p.keyEq b c := by
  rw [Bool.eq_iff_iff]
  exact ⟨p.trans b a c (p.symm a b same), p.trans a b c same⟩

/-- The value of a chain that a pointer refers to is changed. -/
def modify (m : Hashmap p) (key : κ) (change : υ → υ) : Hashmap p where
  buckets := Function.update m.buckets (bucketOf p key)
    ((m.buckets (bucketOf p key)).changeFirst (HashmapEntry.isFor p key) fun e =>
      { e with value := change e.value })
  hashed bucket e inside := by
    rw [Function.update_apply] at inside
    split at inside
    · rcases List.mem_changeFirst inside with old | ⟨d, old, _, rfl⟩
      · exact m.hashed _ e old
      · exact m.hashed _ d old
    · exact m.hashed bucket e inside
  distinct bucket := by
    rw [Function.update_apply]
    split
    · apply List.pairwise_changeFirst _ _ (m.distinct _)
      · intro d e _ apart
        exact apart
      · intro d e _ apart
        exact apart
    · exact m.distinct bucket

/-- The entry of an equal key is made anew from its old key, and another key enters its chain at
the front. -/
def putChain (p : HashmapParameters κ υ) (key : κ) (value : κ → υ)
    (chain : List (HashmapEntry κ υ)) : List (HashmapEntry κ υ) :=
  if chain.any (HashmapEntry.isFor p key) then
    chain.changeFirst (HashmapEntry.isFor p key) fun e => { e with key, value := value e.key }
  else ⟨key, value key, p.keyHash key⟩ :: chain

/-- A key is put into the map with a value that depends on the key in its entry. -/
def put (m : Hashmap p) (key : κ) (value : κ → υ) : Hashmap p where
  buckets := Function.update m.buckets (bucketOf p key)
    (putChain p key value (m.buckets (bucketOf p key)))
  hashed bucket e inside := by
    rw [Function.update_apply, putChain] at inside
    split_ifs at inside with here present
    · rcases List.mem_changeFirst inside with old | ⟨d, old, passed, rfl⟩
      · exact m.hashed _ e old
      · rw [HashmapEntry.isFor, Bool.and_eq_true, beq_iff_eq] at passed
        exact passed.1
    · rcases List.mem_cons.mp inside with rfl | old
      · rfl
      · exact m.hashed _ e old
    · exact m.hashed bucket e inside
  distinct bucket := by
    rw [Function.update_apply, putChain]
    split_ifs with here present
    · apply List.pairwise_changeFirst _ _ (m.distinct _)
      · intro d e passed apart
        change p.keyEq key e.key = false
        rw [keyEq_congr (keyEq_of_isFor passed), apart]
      · intro d e passed apart
        change p.keyEq d.key key = false
        rw [keyEq_comm, keyEq_congr (keyEq_of_isFor passed), keyEq_comm, apart]
    · refine List.pairwise_cons.mpr ⟨fun e inside => ?_, m.distinct _⟩
      rw [Bool.not_eq_true, List.any_eq_false] at present
      have other := present e inside
      cases same : p.keyEq key e.key with
      | false => rfl
      | true =>
          have hashes := p.hash_eq key e.key same
          rw [HashmapEntry.isFor, m.hashed _ e inside, same, hashes, Bool.and_true,
            beq_self_eq_true] at other
          exact absurd rfl other
    · exact m.distinct bucket

/-- The entry of an equal key is made anew, and another key enters its chain at the front. -/
def insertChain (p : HashmapParameters κ υ) (key : κ) (chain : List (HashmapEntry κ υ)) :
    List (HashmapEntry κ υ) :=
  if chain.any (HashmapEntry.isFor p key) then
    chain.changeFirst (HashmapEntry.isFor p key) fun e =>
      { e with key, value := p.valueAlloc e.key }
  else ⟨key, p.valueAlloc key, p.keyHash key⟩ :: chain

/-- This is `hashmap_insert`. -/
def insert (m : Hashmap p) (key : κ) : Hashmap p where
  buckets := Function.update m.buckets (bucketOf p key)
    (insertChain p key (m.buckets (bucketOf p key)))
  hashed := (m.put key p.valueAlloc).hashed
  distinct := (m.put key p.valueAlloc).distinct

/-- This is `hashmap_remove`. -/
def remove (m : Hashmap p) (key : κ) : Hashmap p where
  buckets := Function.update m.buckets (bucketOf p key)
    ((m.buckets (bucketOf p key)).eraseP (HashmapEntry.isFor p key))
  hashed bucket e inside := by
    rw [Function.update_apply] at inside
    split at inside
    · exact m.hashed _ e (List.mem_of_mem_eraseP inside)
    · exact m.hashed bucket e inside
  distinct bucket := by
    rw [Function.update_apply]
    split
    · exact (m.distinct _).sublist List.eraseP_sublist
    · exact m.distinct bucket

/-- The values in the order of `hashmap_iterate`. -/
def iterate (m : Hashmap p) : List υ :=
  (List.range DEFAULT_HASHMAP_BUCKETS).flatMap fun bucket =>
    (m.buckets bucket).map HashmapEntry.value

/-- The entries, bucket by bucket. -/
def entries (m : Hashmap p) : List (HashmapEntry κ υ) :=
  (List.range DEFAULT_HASHMAP_BUCKETS).flatMap m.buckets

end Hashmap
end Neosurf

namespace Neosurf

variable {κ υ : Type}

/-- This is `hashmap_t` in memory: its buckets with the entries that they lead to, and the number
of entries. -/
structure LinkedHashmap (κ υ : Type) where
  memory : ChainMemory Nat (HashmapEntry κ υ)
  entryCount : UInt64

/-- This is what `malloc`, `key_clone` and `value_alloc` answer in one call of `hashmap_insert`.
A clone is equal to the key. -/
structure InsertMemory (p : HashmapParameters κ υ) (key : κ) where
  entry : Option Nat
  keyClone : Option κ
  valueAlloc : κ → Option υ
  clone_eq : ∀ clone ∈ keyClone, p.keyEq key clone = true

namespace LinkedHashmap

/-- This is `hashmap_create` when there is memory. -/
def create : LinkedHashmap κ υ where
  memory := ⟨fun _ => none, fun _ => none⟩
  entryCount := 0

/-- A chain has no more entries than there are addresses. -/
def ROUNDS : Nat := UInt64.size

variable (p : HashmapParameters κ υ) (h : LinkedHashmap κ υ)

/-- The loop over the chain of a key. -/
def find (key : κ) : Option (Nat × ChainCell Nat (HashmapEntry κ υ)) :=
  h.memory.find (HashmapEntry.isFor p key) ROUNDS (h.memory.heads (Hashmap.bucketOf p key))

/-- This is `hashmap_lookup`. -/
def lookup (key : κ) : Option υ := (h.find p key).map fun found => found.2.data.value

/-- This is `hashmap_insert`, with the value that it returns. -/
def insert (key : κ) (alloc : InsertMemory p key) : LinkedHashmap κ υ × Option υ :=
  match h.find p key with
  | some (a, entry) =>
      match alloc.keyClone with
      | none => (h, none)
      | some newKey =>
          match alloc.valueAlloc entry.data.key with
          | none => (h, none)
          | some newValue =>
              let data := { entry.data with value := newValue, key := newKey }
              ({ h with memory := h.memory.setData a data }, some newValue)
  | none =>
      match alloc.entry with
      | none => (h, none)
      | some a =>
          match alloc.keyClone with
          | none => (h, none)
          | some newKey =>
              match alloc.valueAlloc newKey with
              | none => (h, none)
              | some newValue =>
                  ({ memory := h.memory.push (Hashmap.bucketOf p key) a
                        ⟨newKey, newValue, p.keyHash key⟩
                     entryCount := h.entryCount + 1 }, some newValue)

/-- This is `hashmap_remove`. -/
def remove (key : κ) : LinkedHashmap κ υ × Bool :=
  match h.find p key with
  | some (a, entry) =>
      ({ memory := h.memory.unlink a entry, entryCount := h.entryCount - 1 }, true)
  | none => (h, false)

section Iterate

variable {σ : Type} (cb : κ → υ → σ → Bool × σ)

/-- The loop of `hashmap_iterate` over the buckets. -/
def iterateBuckets : List Nat → σ → Bool × σ
  | [], ctx => (false, ctx)
  | bucket :: rest, ctx =>
      match h.memory.visit (fun entry => cb entry.key entry.value) ROUNDS
          (h.memory.heads bucket) ctx with
      | (true, ctx) => (true, ctx)
      | (false, ctx) => iterateBuckets rest ctx

/-- This is `hashmap_iterate`. The callback leaves the map alone. -/
def iterate (ctx : σ) : Bool × σ :=
  h.iterateBuckets cb (List.range DEFAULT_HASHMAP_BUCKETS) ctx

end Iterate

/-- This is `hashmap_count`. -/
def count : UInt64 := h.entryCount

/-- `malloc` returns an address that is not NULL and not in use. -/
def Mallocs (address : Option Nat) : Prop :=
  ∀ a ∈ address, 0 < a ∧ a < UInt64.size ∧ h.memory.cells a = none

end LinkedHashmap

/-- A call on a map, with what it returned. -/
inductive HashmapEvent (κ υ : Type) where
  | inserted (key : κ) (value : Option υ)
  | removed (key : κ) (found : Bool)
  | lookedUp (key : κ) (value : Option υ)

/-- The value of the latest insertion of a key that no removal follows, the last call first. An
insertion that fails does nothing. -/
def HashmapEvent.latest (p : HashmapParameters κ υ) (key : κ) :
    List (HashmapEvent κ υ) → Option υ
  | [] => none
  | inserted k (some value) :: rest => if p.keyEq key k then some value else latest p key rest
  | removed k _ :: rest => if p.keyEq key k then none else latest p key rest
  | _ :: rest => latest p key rest

/-- The map after some calls, the last one first. -/
inductive HashmapRun (p : HashmapParameters κ υ) :
    LinkedHashmap κ υ → List (HashmapEvent κ υ) → Prop where
  | create : HashmapRun p .create []
  | insert {h events} (key : κ) (alloc : InsertMemory p key) (mallocs : h.Mallocs alloc.entry)
      (run : HashmapRun p h events) :
      HashmapRun p (h.insert p key alloc).1 (.inserted key (h.insert p key alloc).2 :: events)
  | remove {h events} (key : κ) (run : HashmapRun p h events) :
      HashmapRun p (h.remove p key).1 (.removed key (h.remove p key).2 :: events)
  | lookup {h events} (key : κ) (run : HashmapRun p h events) :
      HashmapRun p h (.lookedUp key (h.lookup p key) :: events)

end Neosurf
