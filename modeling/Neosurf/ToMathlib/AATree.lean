/-
This file models AA trees, which rotate left links at one level and split right chains.
-/

import Mathlib.Data.List.Basic
import Mathlib.Order.Compare

open Std

/-- A node of an AA tree stores its level. -/
inductive AATree (α : Type*) where
  | empty
  | node (level : Nat) (data : α) (left right : AATree α)

namespace AATree

variable {α : Type*} {cmp : α → α → Ordering} {probe : α → Ordering}

/-- The empty tree is at level zero. -/
def level : AATree α → Nat
  | empty => 0
  | node level _ _ _ => level

/-- A left link at the same level is rotated right. -/
def skew : AATree α → AATree α
  | node level data (node leftLevel leftData a b) c =>
      if leftLevel = level then node leftLevel leftData a (node level data b c)
      else node level data (node leftLevel leftData a b) c
  | other => other

/-- Two right links at the same level are split, one level up. -/
def split : AATree α → AATree α
  | node level data a (node rightLevel rightData b c) =>
      if c.level = level then node (rightLevel + 1) rightData (node level data a b) c
      else node level data a (node rightLevel rightData b c)
  | other => other

/-- An element that equals a stored one is dropped. -/
def insert (cmp : α → α → Ordering) (new : α) : AATree α → AATree α
  | empty => node 1 new empty empty
  | node level data left right =>
      match cmp data new with
      | .gt => split (skew (node level data (insert cmp new left) right))
      | .lt => split (skew (node level data left (insert cmp new right)))
      | .eq => node level data left right

/-- A probe compares each element with what is looked for. -/
def find (probe : α → Ordering) : AATree α → Option α
  | empty => none
  | node _ data left right =>
      match probe data with
      | .gt => find probe left
      | .lt => find probe right
      | .eq => some data

/-- The elements that a probe accepts, without a look at what it excludes. -/
def matching (probe : α → Ordering) : AATree α → List α
  | empty => []
  | node _ data left right =>
      match probe data with
      | .gt => matching probe left
      | .lt => matching probe right
      | .eq => matching probe left ++ data :: matching probe right

/-- The elements from left to right. -/
def toList : AATree α → List α
  | empty => []
  | node _ data left right => left.toList ++ data :: right.toList

/-- The elements ascend strictly. -/
def Sorted (cmp : α → α → Ordering) (t : AATree α) : Prop :=
  t.toList.Pairwise fun a b => cmp a b = .lt

/-- A probe cuts the order into smaller elements, equal ones and greater ones. -/
structure Cut (cmp : α → α → Ordering) (probe : α → Ordering) : Prop where
  gt : ∀ {a b}, cmp a b = .lt → probe a = .gt → probe b = .gt
  lt : ∀ {a b}, cmp a b = .lt → probe b = .lt → probe a = .lt

@[simp] theorem toList_skew (t : AATree α) : (skew t).toList = t.toList := by
  unfold skew
  split
  · split <;> simp [toList]
  · rfl

@[simp] theorem toList_split (t : AATree α) : (split t).toList = t.toList := by
  unfold split
  split
  · split <;> simp [toList]
  · rfl

/-- Insertion keeps every element. -/
theorem mem_insert_of_mem {x new : α} {t : AATree α} (stored : x ∈ t.toList) :
    x ∈ (insert cmp new t).toList := by
  induction t with
  | empty => cases stored
  | node level data left right left_ih right_ih =>
      rw [toList, List.mem_append, List.mem_cons] at stored
      rw [insert]
      split
      · rw [toList_split, toList_skew, toList, List.mem_append, List.mem_cons]
        exact stored.imp_left left_ih
      · rw [toList_split, toList_skew, toList, List.mem_append, List.mem_cons]
        exact stored.imp_right fun rest => rest.imp_right right_ih
      · rw [toList, List.mem_append, List.mem_cons]
        exact stored

/-- Insertion adds nothing but the new element. -/
theorem mem_insert {x new : α} {t : AATree α} (stored : x ∈ (insert cmp new t).toList) :
    x ∈ t.toList ∨ x = new := by
  induction t with
  | empty => simpa [insert, toList] using stored
  | node level data left right left_ih right_ih =>
      rw [insert] at stored
      rw [toList, List.mem_append, List.mem_cons]
      split at stored
      · rw [toList_split, toList_skew, toList, List.mem_append, List.mem_cons] at stored
        rcases stored with inside | rest
        · exact (left_ih inside).imp_left Or.inl
        · exact Or.inl (Or.inr rest)
      · rw [toList_split, toList_skew, toList, List.mem_append, List.mem_cons] at stored
        rcases stored with before | here | inside
        · exact Or.inl (Or.inl before)
        · exact Or.inl (Or.inr (Or.inl here))
        · exact (right_ih inside).imp_left fun after => Or.inr (Or.inr after)
      · rw [toList, List.mem_append, List.mem_cons] at stored
        exact Or.inl stored

/-- After insertion, an element equals the new one. -/
theorem exists_mem_insert [ReflCmp cmp] (new : α) (t : AATree α) :
    ∃ x ∈ (insert cmp new t).toList, cmp x new = .eq := by
  induction t with
  | empty => exact ⟨new, by simp [insert, toList], ReflCmp.compare_self⟩
  | node level data left right left_ih right_ih =>
      rw [insert]
      split
      · obtain ⟨x, stored, same⟩ := left_ih
        exact ⟨x, by simp [toList, stored], same⟩
      · obtain ⟨x, stored, same⟩ := right_ih
        exact ⟨x, by simp [toList, stored], same⟩
      · rename_i same
        exact ⟨data, by simp [toList], same⟩

/-- A node is sorted when its parts are and its element separates them. -/
theorem sorted_node_iff [TransCmp cmp] {level : Nat} {data : α} {left right : AATree α} :
    Sorted cmp (node level data left right) ↔ Sorted cmp left ∧ Sorted cmp right ∧
      (∀ x ∈ left.toList, cmp x data = .lt) ∧ ∀ x ∈ right.toList, cmp data x = .lt := by
  rw [Sorted, toList, List.pairwise_append, List.pairwise_cons]
  constructor
  · rintro ⟨first, ⟨after, second⟩, between⟩
    exact ⟨first, second, fun x stored => between x stored data List.mem_cons_self, after⟩
  · rintro ⟨first, second, before, after⟩
    refine ⟨first, ⟨after, second⟩, fun x stored y later => ?_⟩
    rcases List.mem_cons.mp later with rfl | later
    · exact before x stored
    · exact TransCmp.lt_trans (before x stored) (after y later)

/-- Insertion keeps the order. -/
theorem sorted_insert [TransCmp cmp] (new : α) {t : AATree α} (sorted : Sorted cmp t) :
    Sorted cmp (insert cmp new t) := by
  induction t with
  | empty => exact List.pairwise_singleton _ _
  | node level data left right left_ih right_ih =>
      obtain ⟨first, second, before, after⟩ := sorted_node_iff.mp sorted
      rw [insert]
      split
      · rename_i greater
        rw [Sorted, toList_split, toList_skew]
        refine sorted_node_iff.mpr ⟨left_ih first, second, fun x stored => ?_, after⟩
        rcases mem_insert stored with old | rfl
        · exact before x old
        · exact OrientedCmp.gt_iff_lt.mp greater
      · rename_i less
        rw [Sorted, toList_split, toList_skew]
        refine sorted_node_iff.mpr ⟨first, right_ih second, before, fun x stored => ?_⟩
        rcases mem_insert stored with old | rfl
        · exact after x old
        · exact less
      · exact sorted

/-- What is found is stored, and the probe accepts it. -/
theorem find_eq_some {t : AATree α} {x : α} (found : find probe t = some x) :
    x ∈ t.toList ∧ probe x = .eq := by
  induction t with
  | empty => cases found
  | node level data left right left_ih right_ih =>
      rw [find] at found
      rw [toList, List.mem_append, List.mem_cons]
      split at found
      · exact (left_ih found).imp_left Or.inl
      · exact (right_ih found).imp_left fun stored => Or.inr (Or.inr stored)
      · rename_i same
        cases found
        exact ⟨Or.inr (Or.inl rfl), same⟩

/-- An element that the probe accepts is found, or one like it. -/
theorem find_isSome [TransCmp cmp] {t : AATree α} {x : α} (cut : Cut cmp probe)
    (sorted : Sorted cmp t) (stored : x ∈ t.toList) (same : probe x = .eq) :
    (find probe t).isSome = true := by
  induction t with
  | empty => cases stored
  | node level data left right left_ih right_ih =>
      obtain ⟨first, second, before, after⟩ := sorted_node_iff.mp sorted
      rw [toList, List.mem_append, List.mem_cons] at stored
      rw [find]
      split
      · rename_i greater
        rcases stored with inside | rfl | later
        · exact left_ih first inside
        · rw [greater] at same
          cases same
        · rw [cut.gt (after x later) greater] at same
          cases same
      · rename_i less
        rcases stored with earlier | rfl | inside
        · rw [cut.lt (before x earlier) less] at same
          cases same
        · rw [less] at same
          cases same
        · exact right_ih second inside
      · rfl

/-- In a sorted tree nothing is missed. -/
theorem matching_eq_filter [TransCmp cmp] {t : AATree α} (cut : Cut cmp probe)
    (sorted : Sorted cmp t) : matching probe t = t.toList.filter fun x => probe x = .eq := by
  induction t with
  | empty => rfl
  | node level data left right left_ih right_ih =>
      obtain ⟨first, second, before, after⟩ := sorted_node_iff.mp sorted
      rw [matching, toList, List.filter_append, List.filter_cons]
      split
      · rename_i greater
        have none_after : right.toList.filter (fun x => probe x = .eq) = [] := by
          rw [List.filter_eq_nil_iff]
          intro x stored
          simp [cut.gt (after x stored) greater]
        rw [left_ih first, none_after, greater]
        simp
      · rename_i less
        have none_before : left.toList.filter (fun x => probe x = .eq) = [] := by
          rw [List.filter_eq_nil_iff]
          intro x stored
          simp [cut.lt (before x stored) less]
        rw [right_ih second, none_before, less]
        simp
      · rename_i same
        rw [left_ih first, right_ih second, same]
        simp

variable {l : Nat} {x : α} {a b : AATree α}

/-- The right child. The empty tree is its own right child. -/
def right : AATree α → AATree α
  | empty => empty
  | node _ _ _ right => right

/-- A left child is one level lower than its parent, and a right child at most one. A right
grandchild is lower. -/
def Balanced : AATree α → Prop
  | empty => True
  | node level _ left right =>
      left.level + 1 = level ∧ (right.level = level ∨ right.level + 1 = level) ∧
        right.right.level < level ∧ left.Balanced ∧ right.Balanced

theorem level_right_le {t : AATree α} (balanced : t.Balanced) : t.right.level ≤ t.level := by
  cases t with
  | empty => exact Nat.le_refl 0
  | node level data left right =>
      obtain ⟨_, near, _⟩ := balanced
      change right.level ≤ level
      omega

/-- What may become of the level of a tree where an element is inserted. It only rises from a
right chain, and then leaves none. -/
structure Grown (t after : AATree α) : Prop where
  balanced : after.Balanced
  level : after.level = t.level ∨
    after.level = t.level + 1 ∧ after.right.level < after.level ∧ t.right.level = t.level

/-- A left child that has risen to the level of its parent is rotated up. -/
theorem grown_left {left : AATree α} (before : (node l x a b).Balanced) (grown : Grown a left) :
    Grown (node l x a b) (split (skew (node l x left b))) := by
  obtain ⟨left_level, right_level, chain, _, right_balanced⟩ := before
  obtain ⟨left_balanced, same | ⟨risen, low, _⟩⟩ := grown
  · have no_skew : skew (node l x left b) = node l x left b := by
      cases left with
      | empty => rfl
      | node level data c d =>
          change level = a.level at same
          rw [skew, if_neg (by omega)]
    have no_split : split (node l x left b) = node l x left b := by
      cases b with
      | empty => rfl
      | node level data c d =>
          change d.level < l at chain
          rw [split, if_neg (Nat.ne_of_lt chain)]
    rw [no_skew, no_split]
    exact ⟨⟨by omega, right_level, chain, left_balanced, right_balanced⟩, Or.inl rfl⟩
  · cases left with
    | empty => cases risen
    | node level data c d =>
        change level = a.level + 1 at risen
        change d.level < level at low
        have left_balanced' := left_balanced
        obtain ⟨c_level, d_level, d_chain, c_balanced, d_balanced⟩ := left_balanced'
        rw [skew, if_pos (by omega), split]
        split
        · rename_i long
          have same : level = l := by omega
          subst same
          refine ⟨⟨rfl, Or.inr (by omega), by omega, left_balanced, right_balanced⟩, Or.inr ?_⟩
          exact ⟨rfl, by change b.level < level + 1; omega, long⟩
        · rename_i short
          have same : level = l := by omega
          subst same
          refine ⟨⟨c_level, Or.inl rfl, ?_, c_balanced, ?_⟩, Or.inl rfl⟩
          · change b.level < level
            omega
          · exact ⟨by omega, right_level, chain, d_balanced, right_balanced⟩

/-- A right chain of three at one level is split. -/
theorem grown_right {right : AATree α} (before : (node l x a b).Balanced) (grown : Grown b right) :
    Grown (node l x a b) (split (skew (node l x a right))) := by
  obtain ⟨left_level, right_level, chain, left_balanced, _⟩ := before
  obtain ⟨right_balanced, grown⟩ := grown
  have no_skew : skew (node l x a right) = node l x a right := by
    cases a with
    | empty => rfl
    | node level data c d =>
        change level + 1 = l at left_level
        rw [skew, if_neg (by omega)]
  rw [no_skew]
  cases right with
  | empty =>
      have same : b.level = 0 := by
        rcases grown with same | ⟨impossible, _⟩
        · exact same.symm
        · cases impossible
      rw [same] at right_level
      exact ⟨⟨left_level, right_level, by change 0 < l; omega, left_balanced, trivial⟩, Or.inl rfl⟩
  | node level data c d =>
      change level = b.level ∨ level = b.level + 1 ∧ d.level < level ∧ b.right.level = b.level
        at grown
      have right_balanced' := right_balanced
      obtain ⟨c_level, d_level, d_chain, c_balanced, d_balanced⟩ := right_balanced'
      rw [split]
      split
      · rename_i long
        have same : level = l := by omega
        subst same
        refine ⟨⟨rfl, Or.inr (by omega), by omega, ?_, d_balanced⟩, Or.inr ?_⟩
        · refine ⟨left_level, Or.inr c_level, ?_, left_balanced, c_balanced⟩
          have near := level_right_le c_balanced
          omega
        · refine ⟨rfl, by change d.level < level + 1; omega, ?_⟩
          change b.level = level
          omega
      · rename_i short
        refine ⟨⟨left_level, ?_, ?_, left_balanced, right_balanced⟩, Or.inl rfl⟩
        · change level = l ∨ level + 1 = l
          omega
        · change d.level < l
          omega

/-- Insertion keeps the tree balanced. -/
theorem grown_insert (new : α) {t : AATree α} (balanced : t.Balanced) :
    Grown t (insert cmp new t) := by
  induction t with
  | empty =>
      refine ⟨⟨rfl, Or.inr rfl, Nat.zero_lt_one, trivial, trivial⟩, Or.inr ⟨rfl, ?_, rfl⟩⟩
      exact Nat.zero_lt_one
  | node level data left right left_ih right_ih =>
      rw [insert]
      split
      · exact grown_left balanced (left_ih balanced.2.2.2.1)
      · exact grown_right balanced (right_ih balanced.2.2.2.2)
      · exact ⟨balanced, Or.inl rfl⟩

end AATree
