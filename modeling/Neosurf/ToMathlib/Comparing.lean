/-
This file adds facts about comparisons: the element of a list that is left when each one may replace
the one before, the lexicographic comparison of lists, and the merge of several sorted lists that
takes a least first element each time.
-/

import Mathlib.Data.List.Basic
import Mathlib.Data.List.Forall2
import Mathlib.Data.List.Perm.Basic
import Mathlib.Order.Compare
import Mathlib.Order.Defs.LinearOrder
import Mathlib.Order.Lattice

namespace List

variable {α β : Type*} {beaten : α → α → Bool} {first first' : α} {rest rest' : List α}

/-- An element gives way to the next one that beats it. -/
def champion (beaten : α → α → Bool) (first : α) (rest : List α) : α :=
  rest.foldl (fun a b => if beaten a b then b else a) first

theorem champion_cons (beaten : α → α → Bool) (first next : α) (rest : List α) :
    champion beaten first (next :: rest) =
      champion beaten (if beaten first next then next else first) rest := rfl

theorem champion_mem (beaten : α → α → Bool) (first : α) (rest : List α) :
    champion beaten first rest ∈ first :: rest := by
  induction rest generalizing first with
  | nil => exact mem_singleton_self first
  | cons next rest inductionHypothesis =>
      rw [champion_cons]
      rcases mem_cons.1 (inductionHypothesis (if beaten first next then next else first)) with
        here | later
      · rw [here]
        split <;> simp
      · exact mem_cons_of_mem _ (mem_cons_of_mem _ later)

variable [LinearOrder β] {key : α → β}

/-- The keys are what the elements are compared by. Either of two equal ones may be left. -/
structure Compares (beaten : α → α → Bool) (key : α → β) : Prop where
  up : ∀ a b, beaten a b = true → key a ≤ key b
  down : ∀ a b, beaten a b = false → key b ≤ key a

/-- No element has a greater key than the one that is left. -/
theorem Compares.le_champion (compares : Compares beaten key) {x : α} (inside : x ∈ first :: rest) :
    key x ≤ key (champion beaten first rest) := by
  induction rest generalizing first x with
  | nil => rw [mem_singleton.1 inside, champion, foldl_nil]
  | cons next rest inductionHypothesis =>
      rw [champion_cons]
      have greater : key first ≤ key (if beaten first next then next else first) ∧
          key next ≤ key (if beaten first next then next else first) := by
        split
        next won => exact ⟨compares.up first next won, le_rfl⟩
        next lost => exact ⟨le_rfl, compares.down first next (Bool.eq_false_iff.2 lost)⟩
      have here := inductionHypothesis (mem_cons_self (l := rest)
        (a := if beaten first next then next else first))
      rw [mem_cons, mem_cons] at inside
      rcases inside with rfl | rfl | later
      · exact le_trans greater.1 here
      · exact le_trans greater.2 here
      · exact inductionHypothesis (mem_cons_of_mem _ later)

/-- The greatest key does not depend on the order of the list. -/
theorem Compares.champion_perm (compares : Compares beaten key)
    (perm : (first :: rest).Perm (first' :: rest')) :
    key (champion beaten first rest) = key (champion beaten first' rest') :=
  le_antisymm (compares.le_champion (perm.mem_iff.1 (champion_mem beaten first rest)))
    (compares.le_champion (perm.mem_iff.2 (champion_mem beaten first' rest')))

/-- When equal elements give way as well, the last of the greatest ones is left. -/
theorem champion_latest (beats : ∀ a b, beaten a b = true ↔ key a ≤ key b) (first : α)
    (rest : List α) : ∃ before after,
      first :: rest = before ++ champion beaten first rest :: after ∧
      (∀ x ∈ before, key x ≤ key (champion beaten first rest)) ∧
      ∀ x ∈ after, key x < key (champion beaten first rest) := by
  have compares : Compares beaten key := by
    refine ⟨fun a b => (beats a b).1, ?_⟩
    intro a b lost
    rw [← not_lt]
    intro below
    rw [(beats a b).2 (le_of_lt below)] at lost
    cases lost
  induction rest generalizing first with
  | nil => exact ⟨[], [], rfl, by simp, by simp⟩
  | cons next rest ih =>
      rw [champion_cons]
      obtain ⟨before, after, split, below, above⟩ := ih (if beaten first next then next else first)
      cases won : beaten first next with
      | true =>
          rw [won, if_pos rfl] at split below above
          rw [if_pos rfl]
          refine ⟨first :: before, after, by rw [split, cons_append], ?_, above⟩
          intro x inside
          rcases mem_cons.1 inside with rfl | later
          · have reached : key next ≤ key (champion beaten next rest) :=
              compares.le_champion mem_cons_self
            exact le_trans ((beats x next).1 won) reached
          · exact below x later
      | false =>
          rw [won, if_neg Bool.false_ne_true] at split below above
          rw [if_neg Bool.false_ne_true]
          have lost : key next < key first := by
            rw [← not_le, ← beats, won]
            exact Bool.false_ne_true
          cases before with
          | nil =>
              rw [nil_append, cons.injEq] at split
              obtain ⟨same, rfl⟩ := split
              refine ⟨[], next :: rest, congrArg (· :: next :: rest) same, by simp, ?_⟩
              intro x inside
              rcases mem_cons.1 inside with rfl | later
              · rw [← same]
                exact lost
              · exact above x later
          | cons y before =>
              rw [cons_append, cons.injEq] at split
              obtain ⟨same, others⟩ := split
              refine ⟨y :: next :: before, after, ?_, ?_, above⟩
              · calc first :: next :: rest
                  _ = y :: next :: (before ++ champion beaten first rest :: after) :=
                    congrArg₂ (fun a b => a :: next :: b) same others
              · intro x inside
                rcases mem_cons.1 inside with rfl | inside
                · exact below x mem_cons_self
                · rcases mem_cons.1 inside with rfl | later
                  · rw [same] at lost
                    exact le_trans (le_of_lt lost) (below y mem_cons_self)
                  · exact below x (mem_cons_of_mem y later)

end List

section

open Std

namespace List

variable {α β : Type*} {cmp : α → α → Ordering}

/-- A list comes after each of its proper prefixes. -/
theorem compareLex_append_self [ReflCmp cmp] (first : List α) {rest : List α} (more : rest ≠ []) :
    List.compareLex cmp (first ++ rest) first = .gt := by
  induction first with
  | nil =>
      cases rest with
      | nil => exact absurd rfl more
      | cons a rest => exact List.compareLex_cons_nil
  | cons a first ih =>
      have same : cmp a a = .eq := ReflCmp.compare_self
      rw [List.cons_append, List.compareLex_cons_cons, same, Ordering.eq_then, ih]

/-- Two lists are equal when their elements are, one by one. -/
theorem compareLex_eq_eq_iff {a b : List α} :
    List.compareLex cmp a b = .eq ↔ List.Forall₂ (fun x y => cmp x y = .eq) a b := by
  induction a generalizing b with
  | nil => cases b <;> simp [List.compareLex_nil_nil, List.compareLex_nil_cons]
  | cons x a ih =>
      cases b with
      | nil => simp [List.compareLex_cons_nil]
      | cons y b =>
          rw [List.compareLex_cons_cons, Ordering.then_eq_eq, ih, List.forall₂_cons]

/-- The images of two lists agree when those of their elements do. -/
theorem forall₂_image_iff {f : α → β} {a b : List α} :
    List.Forall₂ (fun x y => f x = f y) a b ↔ a.map f = b.map f := by
  rw [← List.forall₂_eq_eq_eq, List.forall₂_map_left_iff, List.forall₂_map_right_iff]

/-- The heads of ascending lists do not descend. -/
theorem ne_gt_of_compareLex_eq_lt {x y : α} {xs ys : List α}
    (less : List.compareLex cmp (x :: xs) (y :: ys) = .lt) : cmp x y ≠ .gt := by
  intro greater
  rw [List.compareLex_cons_cons, greater, Ordering.gt_then] at less
  cases less

/-- The beginnings of lists in order are in order. -/
theorem isLE_compareLex_take [ReflCmp cmp] {a b : List α} (n : Nat)
    (le : (List.compareLex cmp a b).isLE = true) :
    (List.compareLex cmp (a.take n) (b.take n)).isLE = true := by
  induction a generalizing b n with
  | nil =>
      rw [List.take_nil]
      exact List.isLE_compareLex_nil_left
  | cons x a ih =>
      cases n with
      | zero => exact List.isLE_compareLex_nil_left
      | succ n =>
          cases b with
          | nil => exact le
          | cons y b =>
              rw [List.compareLex_cons_cons] at le
              rw [List.take_succ_cons, List.take_succ_cons, List.compareLex_cons_cons]
              cases first : cmp x y with
              | lt => rfl
              | eq =>
                  rw [first, Ordering.eq_then] at le
                  rw [Ordering.eq_then]
                  exact ih n le
              | gt =>
                  rw [first] at le
                  cases le

end List

end

namespace List

variable {α β : Type*} [LinearOrder β] {key : α → β} {chains : List (List α)} {merged : List α}

/-- A chain gives up its first element, when no chain starts with a lesser one, until all chains
are empty. -/
inductive Merges (key : α → β) : List (List α) → List α → Prop
  | done {chains : List (List α)} (empty : ∀ chain ∈ chains, chain = []) : Merges key chains []
  | next {before after : List (List α)} {rest merged : List α} {x : α}
      (least : ∀ chain ∈ before ++ after, ∀ y ∈ chain.head?, key x ≤ key y)
      (more : Merges key (before ++ rest :: after) merged) :
      Merges key (before ++ (x :: rest) :: after) (x :: merged)

/-- The chain that gives up its first element may be named by its position. -/
theorem Merges.next_at {i : Nat} {rest merged : List α} {x : α} (here : chains[i]? = some (x :: rest))
    (least : ∀ chain ∈ chains, ∀ y ∈ chain.head?, key x ≤ key y)
    (more : Merges key (chains.set i rest) merged) : Merges key chains (x :: merged) := by
  obtain ⟨inside, same⟩ := getElem?_eq_some_iff.mp here
  have split : chains = chains.take i ++ (x :: rest) :: chains.drop (i + 1) := by
    rw [← same, getElem_cons_drop, take_append_drop]
  rw [set_eq_take_append_cons_drop, if_pos inside] at more
  rw [split]
  refine .next ?_ more
  intro chain stored
  apply least chain
  rw [split, mem_append, mem_cons]
  exact (mem_append.mp stored).imp_right .inr

/-- Nothing is lost and nothing is added. -/
theorem Merges.perm (merges : Merges key chains merged) : merged.Perm chains.flatten := by
  induction merges with
  | done empty => rw [flatten_eq_nil_iff.mpr empty]
  | @next before after rest merged x least more ih =>
      calc x :: merged
        _ ~ x :: (before ++ rest :: after).flatten := ih.cons x
        _ ~ (before ++ (x :: rest) :: after).flatten := by
          rw [flatten_append, flatten_append, flatten_cons, flatten_cons, cons_append]
          exact perm_middle.symm

theorem Merges.mem_iff (merges : Merges key chains merged) {x : α} :
    x ∈ merged ↔ ∃ chain ∈ chains, x ∈ chain := by
  rw [merges.perm.mem_iff, mem_flatten]

/-- Sorted chains make a sorted list. -/
theorem Merges.sorted (merges : Merges key chains merged)
    (sorted : ∀ chain ∈ chains, chain.Pairwise (key · ≤ key ·)) :
    merged.Pairwise (key · ≤ key ·) := by
  induction merges with
  | done empty => exact Pairwise.nil
  | @next before after rest merged x least more ih =>
      have own : (x :: rest).Pairwise (key · ≤ key ·) := sorted _ (by simp)
      rw [pairwise_cons] at own
      rw [pairwise_cons]
      constructor
      · intro y inside
        rw [more.mem_iff] at inside
        obtain ⟨chain, stored, inside⟩ := inside
        rw [mem_append, mem_cons] at stored
        have other (stored : chain ∈ before ++ after) : key x ≤ key y := by
          have ordered := sorted chain (by
            rw [mem_append] at stored
            rw [mem_append, mem_cons]
            exact stored.imp_right .inr)
          cases chain with
          | nil => cases inside
          | cons head tail =>
              have first : key x ≤ key head := least _ stored head rfl
              rcases mem_cons.mp inside with rfl | later
              · exact first
              · exact le_trans first ((pairwise_cons.mp ordered).1 y later)
        rcases stored with stored | rfl | stored
        · exact other (mem_append_left after stored)
        · exact own.1 y inside
        · exact other (mem_append_right before stored)
      · apply ih
        intro chain stored
        rw [mem_append, mem_cons] at stored
        rcases stored with stored | rfl | stored
        · exact sorted chain (mem_append_left _ stored)
        · exact own.2
        · exact sorted chain (mem_append_right before (mem_cons_of_mem _ stored))

end List
