/-
This file is about nodes that have a key, at most one pointer to another node, and a count of the
pointers to themselves.
-/

import Mathlib.Data.List.Basic
import Mathlib.Data.List.Nodup
import Mathlib.Data.List.Perm.Basic

/-- A node points to the node of another key and counts the pointers to itself. -/
structure Ref (K : Type*) where
  key : K
  target : Option K
  count : Nat

namespace Ref

variable {K : Type*} [DecidableEq K]

/-- So many nodes point to this key. -/
def pointers (pool : List (Ref K)) (key : K) : Nat :=
  pool.countP fun r => decide (r.target = some key)

/-- A tally relates the pointers to a node and its count, and stays true when both go up or down
together. -/
structure Tally (rel : Nat → Nat → Prop) : Prop where
  zero : rel 0 0
  acquire : ∀ {m n}, rel m n → rel (m + 1) (n + 1)
  release : ∀ {m n}, rel (m + 1) n → rel m (n - 1)
  empty : ∀ {m}, rel m 0 → m = 0

theorem tally_eq : Tally Eq where
  zero := rfl
  acquire same := by rw [same]
  release same := by omega
  empty same := same

theorem tally_le : Tally (· ≤ ·) where
  zero := Nat.le_refl 0
  acquire bound := Nat.succ_le_succ bound
  release bound := by omega
  empty bound := Nat.le_zero.mp bound

/-- Keys are unique, counts are tallied, and no pointer dangles. -/
structure Counted (rel : Nat → Nat → Prop) (pool : List (Ref K)) : Prop where
  nodup : (pool.map key).Nodup
  counts : ∀ r ∈ pool, rel (pointers pool r.key) r.count
  closed : ∀ r ∈ pool, ∀ k, r.target = some k → k ∈ pool.map key

/-- The pointer of one node is cleared. -/
def detach (k : K) (r : Ref K) : Ref K := if r.key = k then { r with target := none } else r

/-- The count of one node changes. -/
def recount (k : K) (change : Nat → Nat) (r : Ref K) : Ref K :=
  if r.key = k then { r with count := change r.count } else r

@[simp] theorem detach_key (k : K) (r : Ref K) : (detach k r).key = r.key := by
  unfold detach
  split <;> rfl

@[simp] theorem recount_key (k : K) (change : Nat → Nat) (r : Ref K) :
    (recount k change r).key = r.key := by
  unfold recount
  split <;> rfl

@[simp] theorem recount_target (k : K) (change : Nat → Nat) (r : Ref K) :
    (recount k change r).target = r.target := by
  unfold recount
  split <;> rfl

@[simp] theorem detach_count (k : K) (r : Ref K) : (detach k r).count = r.count := by
  unfold detach
  split <;> rfl

theorem map_key_detach (k : K) (pool : List (Ref K)) :
    (pool.map (detach k)).map key = pool.map key := by
  rw [List.map_map]
  exact List.map_congr_left fun r _ => detach_key k r

theorem map_key_recount (k : K) (change : Nat → Nat) (pool : List (Ref K)) :
    (pool.map (recount k change)).map key = pool.map key := by
  rw [List.map_map]
  exact List.map_congr_left fun r _ => recount_key k change r

theorem pointers_recount (k : K) (change : Nat → Nat) (pool : List (Ref K)) (key : K) :
    pointers (pool.map (recount k change)) key = pointers pool key := by
  rw [pointers, pointers, List.countP_map]
  refine List.countP_congr fun r _ => ?_
  simp

variable {rel : Nat → Nat → Prop} {pool : List (Ref K)}

/-- Nothing points to a key that is not there. -/
theorem pointers_eq_zero (counted : Counted rel pool) {k : K} (absent : k ∉ pool.map key) :
    pointers pool k = 0 := by
  rw [pointers, List.countP_eq_zero]
  intro r inside points
  exact absent (counted.closed r inside k (of_decide_eq_true points))

theorem counted_nil : Counted rel ([] : List (Ref K)) :=
  ⟨List.nodup_nil, fun _ inside => (List.not_mem_nil inside).elim,
    fun _ inside => (List.not_mem_nil inside).elim⟩

theorem counted_perm {other : List (Ref K)} (perm : pool.Perm other) (counted : Counted rel pool) :
    Counted rel other where
  nodup := (perm.map key).nodup_iff.mp counted.nodup
  counts r inside := by
    rw [pointers, ← perm.countP_eq]
    exact counted.counts r (perm.mem_iff.mpr inside)
  closed r inside k points :=
    (perm.map key).mem_iff.mp (counted.closed r (perm.mem_iff.mpr inside) k points)

/-- A new node without a pointer has the count zero. -/
theorem counted_fresh (tally : Tally rel) (counted : Counted rel pool) {k : K}
    (absent : k ∉ pool.map key) : Counted rel (⟨k, none, 0⟩ :: pool) where
  nodup := List.nodup_cons.mpr ⟨absent, counted.nodup⟩
  counts r inside := by
    have same (x : K) : pointers (⟨k, none, 0⟩ :: pool) x = pointers pool x := by
      simp [pointers]
    rw [same]
    rcases List.mem_cons.mp inside with rfl | old
    · rw [pointers_eq_zero counted absent]
      exact tally.zero
    · exact counted.counts r old
  closed r inside x points := by
    rcases List.mem_cons.mp inside with rfl | old
    · cases points
    · exact List.mem_cons_of_mem k (counted.closed r old x points)

/-- A new node with a pointer makes the count of its target go up. -/
theorem counted_acquire (tally : Tally rel) (counted : Counted rel pool) {k c : K}
    (absent : k ∉ pool.map key) (present : c ∈ pool.map key) :
    Counted rel (⟨k, some c, 0⟩ :: pool.map (recount c (· + 1))) where
  nodup := by
    rw [List.map_cons, map_key_recount]
    exact List.nodup_cons.mpr ⟨absent, counted.nodup⟩
  counts r inside := by
    have sum (x : K) : pointers (⟨k, some c, 0⟩ :: pool.map (recount c (· + 1))) x =
        pointers pool x + if c = x then 1 else 0 := by
      rw [pointers, List.countP_cons, ← pointers, pointers_recount]
      simp
    rw [sum]
    rcases List.mem_cons.mp inside with rfl | old
    · have other : c ≠ k := by
        rintro rfl
        exact absent present
      rw [pointers_eq_zero counted absent, if_neg other]
      exact tally.zero
    · obtain ⟨q, before, rfl⟩ := List.mem_map.mp old
      rw [recount_key]
      unfold recount
      by_cases same : q.key = c
      · rw [if_pos same, if_pos same.symm]
        exact tally.acquire (counted.counts q before)
      · rw [if_neg same, if_neg fun other => same other.symm]
        exact counted.counts q before
  closed r inside x points := by
    rw [List.map_cons, map_key_recount]
    rcases List.mem_cons.mp inside with rfl | old
    · cases points
      exact List.mem_cons_of_mem k present
    · obtain ⟨q, before, rfl⟩ := List.mem_map.mp old
      rw [recount_target] at points
      exact List.mem_cons_of_mem k (counted.closed q before x points)

omit [DecidableEq K] in
/-- A node among others with unique keys. -/
theorem perm_cons_of_mem {r : Ref K} (nodup : (pool.map key).Nodup) (inside : r ∈ pool) :
    ∃ rest, pool.Perm (r :: rest) ∧ r.key ∉ rest.map key := by
  obtain ⟨front, back, rfl⟩ := List.append_of_mem inside
  refine ⟨front ++ back, List.perm_middle, ?_⟩
  rw [List.map_append, List.map_cons] at nodup
  rw [List.map_append]
  exact (List.nodup_middle.mp nodup).notMem

/-- The other nodes keep their pointers. -/
theorem map_detach_of_notMem {k : K} (absent : k ∉ pool.map key) : pool.map (detach k) = pool := by
  have same : ∀ r ∈ pool, detach k r = r := by
    intro r inside
    refine if_neg fun other => absent ?_
    exact List.mem_map.mpr ⟨r, inside, other⟩
  rw [List.map_congr_left same, List.map_id']

/-- The pointer of a node counts for its target only. -/
theorem pointers_detach {r : Ref K} {c : K} (nodup : (pool.map key).Nodup) (inside : r ∈ pool)
    (points : r.target = some c) (x : K) :
    pointers pool x = pointers (pool.map (detach r.key)) x + if c = x then 1 else 0 := by
  obtain ⟨rest, perm, absent⟩ := perm_cons_of_mem nodup inside
  have gone : detach r.key r = { r with target := none } := if_pos rfl
  rw [pointers, pointers, perm.countP_eq, (perm.map _).countP_eq, List.map_cons, gone,
    map_detach_of_notMem absent, List.countP_cons, List.countP_cons]
  simp [points]

/-- A released pointer makes the count of its target go down. -/
theorem counted_release (tally : Tally rel) (counted : Counted rel pool) {r : Ref K} {c : K}
    (inside : r ∈ pool) (points : r.target = some c) :
    Counted rel ((pool.map (recount c (· - 1))).map (detach r.key)) where
  nodup := by
    rw [map_key_detach, map_key_recount]
    exact counted.nodup
  counts q old := by
    obtain ⟨p, found, rfl⟩ := List.mem_map.mp old
    obtain ⟨o, before, rfl⟩ := List.mem_map.mp found
    have tallied := counted.counts o before
    have here : recount c (· - 1) r ∈ pool.map (recount c (· - 1)) :=
      List.mem_map_of_mem inside
    have split := pointers_detach (by rw [map_key_recount]; exact counted.nodup) here
      ((recount_target c _ r).trans points) o.key
    rw [pointers_recount, recount_key] at split
    rw [detach_key, detach_count, recount_key]
    unfold recount
    by_cases same : o.key = c
    · rw [if_pos same]
      rw [split, if_pos same.symm] at tallied
      exact tally.release tallied
    · rw [if_neg same]
      rw [split, if_neg fun other => same other.symm] at tallied
      exact tallied
  closed q old x leads := by
    obtain ⟨p, found, rfl⟩ := List.mem_map.mp old
    obtain ⟨o, before, rfl⟩ := List.mem_map.mp found
    rw [map_key_detach, map_key_recount]
    unfold detach at leads
    split at leads
    · cases leads
    · rw [recount_target] at leads
      exact counted.closed o before x leads

/-- Nodes with the count zero leave the pool. Their own pointers are gone, or may stay counted. -/
theorem counted_drop (tally : Tally rel) (counted : Counted rel pool) {kept gone : List (Ref K)}
    (parts : pool.Perm (kept ++ gone)) (unused : ∀ r ∈ gone, r.count = 0)
    (loose : (∀ r ∈ gone, r.target = none) ∨ ∀ {m n l : Nat}, rel m n → l ≤ m → rel l n) :
    Counted rel kept := by
  have whole := counted_perm parts counted
  have split (x : K) : pointers (kept ++ gone) x = pointers kept x + pointers gone x :=
    List.countP_append
  have unique := whole.nodup
  rw [List.map_append] at unique
  refine ⟨(List.nodup_append.mp unique).1, fun r inside => ?_, fun r inside k points => ?_⟩
  · have tallied := whole.counts r (List.mem_append_left gone inside)
    rw [split] at tallied
    rcases loose with detached | lower
    · have none : pointers gone r.key = 0 := by
        rw [pointers, List.countP_eq_zero]
        intro q out points
        have led := of_decide_eq_true points
        rw [detached q out] at led
        cases led
      rwa [none, Nat.add_zero] at tallied
    · exact lower tallied (Nat.le_add_right _ _)
  · have target := whole.closed r (List.mem_append_left gone inside) k points
    rw [List.map_append, List.mem_append] at target
    rcases target with here | left
    · exact here
    · exfalso
      obtain ⟨q, out, rfl⟩ := List.mem_map.mp left
      have tallied := whole.counts q (List.mem_append_right kept out)
      rw [unused q out] at tallied
      have none := tally.empty tallied
      rw [pointers, List.countP_eq_zero] at none
      exact none r (List.mem_append_left gone inside) (by simpa using points)

end Ref
