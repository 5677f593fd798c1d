/-
This file says when a memory holds a history tree.
-/

import Mathlib.Data.List.Perm.Subperm
import Mathlib.Tactic.Common
import Neosurf.Construction.BrowserHistory
import Neosurf.ToMathlib.SiblingTree.Basic

namespace Neosurf.LocalHistory

open SiblingTree

/-- The links of an entry are those of a tree. -/
structure LinksTo (e : HistoryEntry) (back : Option Nat) (children next : SiblingTree Nat) :
    Prop where
  back : e.back = back
  next : e.next = next.top
  forward : e.forward = children.top
  forwardPref : ∀ a, e.forwardPref = some a → a ∈ children.toList
  forwardLast : e.forwardLast = children.toList.getLast?

/-- The memory holds these siblings and the trees below them. -/
def HoldsTree (memory : Nat → Option HistoryEntry) : Option Nat → SiblingTree Nat → Prop
  | _, .nil => True
  | back, .cons a children next =>
      (∃ e, memory a = some e ∧ LinksTo e back children next) ∧
        HoldsTree memory (some a) children ∧ HoldsTree memory back next

/-- The nodes are entries of the memory, and none of them is met twice. -/
structure Stands (h : History) (back : Option Nat) (t : SiblingTree Nat) : Prop where
  holds : HoldsTree h.memory back t
  nodup : t.nodes.Nodup
  below : ∀ a ∈ t.nodes, a < h.fresh

/-- The history has this tree: nothing, or one entry and the entries below it. -/
structure History.IsTree (h : History) (t : SiblingTree Nat) : Prop extends Stands h none t where
  start : h.start = t.top
  single : t.toList.length ≤ 1
  none_current : h.current = none → t = .nil
  current_mem : ∀ a, h.current = some a → a ∈ t.nodes

/-- The links of an entry. -/
def HistoryEntry.links (e : HistoryEntry) :
    Option Nat × Option Nat × Option Nat × Option Nat × Option Nat :=
  (e.back, e.next, e.forward, e.forwardPref, e.forwardLast)

variable {memory memory' : Nat → Option HistoryEntry} {back : Option Nat} {t : SiblingTree Nat}

theorem LinksTo.congr {e e' : HistoryEntry} {children next : SiblingTree Nat}
    (links : LinksTo e back children next) (same : e'.links = e.links) :
    LinksTo e' back children next := by
  simp only [HistoryEntry.links, Prod.mk.injEq] at same
  obtain ⟨sameBack, sameNext, sameForward, samePref, sameLast⟩ := same
  exact ⟨sameBack.trans links.back, sameNext.trans links.next, sameForward.trans links.forward,
    samePref ▸ links.forwardPref, sameLast.trans links.forwardLast⟩

/-- A tree is seen from the links of its entries. -/
theorem HoldsTree.congr_links (holds : HoldsTree memory back t)
    (same : ∀ a ∈ t.nodes, (memory' a).map HistoryEntry.links =
      (memory a).map HistoryEntry.links) : HoldsTree memory' back t := by
  induction t generalizing back with
  | nil => trivial
  | cons a children next children_ih next_ih =>
      obtain ⟨⟨e, found, links⟩, below, later⟩ := holds
      refine ⟨?_, children_ih below fun b inside => same b ?_,
        next_ih later fun b inside => same b ?_⟩
      · have here := same a List.mem_cons_self
        rw [found, Option.map_some, Option.map_eq_some_iff] at here
        obtain ⟨e', found', linked⟩ := here
        exact ⟨e', found', links.congr linked⟩
      · exact List.mem_cons_of_mem _ (List.mem_append_left _ inside)
      · exact List.mem_cons_of_mem _ (List.mem_append_right _ inside)

theorem HoldsTree.congr (holds : HoldsTree memory back t)
    (same : ∀ a ∈ t.nodes, memory' a = memory a) : HoldsTree memory' back t :=
  holds.congr_links fun a inside => congrArg _ (same a inside)

/-- Every node has an entry. -/
theorem HoldsTree.found (holds : HoldsTree memory back t) {a : Nat} (inside : a ∈ t.nodes) :
    ∃ e, memory a = some e := by
  induction t generalizing back with
  | nil => cases inside
  | cons b children next children_ih next_ih =>
      obtain ⟨⟨e, found, links⟩, below, later⟩ := holds
      rcases List.mem_cons.mp inside with rfl | inside
      · exact ⟨e, found⟩
      · rcases List.mem_append.mp inside with inside | inside
        · exact children_ih below inside
        · exact next_ih later inside

/-- A memory holds no two trees at the same place. -/
theorem HoldsTree.unique {other : SiblingTree Nat} (holds : HoldsTree memory back t)
    (holds' : HoldsTree memory back other) (same : t.top = other.top) : t = other := by
  induction t generalizing back other with
  | nil =>
      cases other with
      | nil => rfl
      | cons b children next => cases same
  | cons a children next children_ih next_ih =>
      cases other with
      | nil => cases same
      | cons b children' next' =>
          obtain rfl : a = b := Option.some.inj same
          obtain ⟨⟨e, found, links⟩, below, later⟩ := holds
          obtain ⟨⟨e', found', links'⟩, below', later'⟩ := holds'
          obtain rfl : e = e' := Option.some.inj (found.symm.trans found')
          rw [children_ih below below' (links.forward.symm.trans links'.forward),
            next_ih later later' (links.next.symm.trans links'.next)]

/-- The links of a node lead to nodes. -/
theorem HoldsTree.links_mem (holds : HoldsTree memory back t) {a : Nat} {e : HistoryEntry}
    (inside : a ∈ t.nodes) (found : memory a = some e) :
    (∀ b, e.next = some b → b ∈ t.nodes) ∧ (∀ b, e.forward = some b → b ∈ t.nodes) ∧
      (∀ b, e.forwardLast = some b → b ∈ t.nodes) ∧ ∀ b, e.forwardPref = some b → b ∈ t.nodes := by
  induction t generalizing back with
  | nil => cases inside
  | cons b children next children_ih next_ih =>
      obtain ⟨⟨e', found', links⟩, below, later⟩ := holds
      have down : ∀ c ∈ children.nodes, c ∈ (SiblingTree.cons b children next).nodes :=
        fun c inside => List.mem_cons_of_mem _ (List.mem_append_left _ inside)
      have along : ∀ c ∈ next.nodes, c ∈ (SiblingTree.cons b children next).nodes :=
        fun c inside => List.mem_cons_of_mem _ (List.mem_append_right _ inside)
      rcases List.mem_cons.mp inside with rfl | inside
      · obtain rfl : e' = e := Option.some.inj (found'.symm.trans found)
        refine ⟨fun c same => along c (mem_nodes_of_mem_toList (top_mem ?_)), fun c same =>
          down c (mem_nodes_of_mem_toList (top_mem ?_)), fun c same =>
          down c (mem_nodes_of_mem_toList (List.mem_of_getLast? ?_)), fun c same =>
          down c (mem_nodes_of_mem_toList (links.forwardPref c same))⟩
        · exact links.next.symm.trans same
        · exact links.forward.symm.trans same
        · exact links.forwardLast.symm.trans same
      · rcases List.mem_append.mp inside with inside | inside
        · obtain ⟨toNext, toForward, toLast, toPref⟩ := children_ih below inside
          exact ⟨fun c same => down c (toNext c same), fun c same => down c (toForward c same),
            fun c same => down c (toLast c same), fun c same => down c (toPref c same)⟩
        · obtain ⟨toNext, toForward, toLast, toPref⟩ := next_ih later inside
          exact ⟨fun c same => along c (toNext c same), fun c same => along c (toForward c same),
            fun c same => along c (toLast c same), fun c same => along c (toPref c same)⟩

/-- A node has a first child exactly when it has a last one, and it is neither of them. -/
theorem HoldsTree.children_links (holds : HoldsTree memory back t) (nodup : t.nodes.Nodup)
    {a : Nat} {e : HistoryEntry} (inside : a ∈ t.nodes) (found : memory a = some e) :
    (e.forward.isSome ↔ e.forwardLast.isSome) ∧ e.forwardLast ≠ some a := by
  induction t generalizing back with
  | nil => cases inside
  | cons b children next children_ih next_ih =>
      obtain ⟨⟨e', found', links⟩, below, later⟩ := holds
      rw [nodes, List.nodup_cons, List.nodup_append', List.mem_append, not_or] at nodup
      obtain ⟨⟨apart, apartNext⟩, nodupChildren, nodupNext, disjoint⟩ := nodup
      rcases List.mem_cons.mp inside with rfl | inside
      · obtain rfl : e' = e := Option.some.inj (found'.symm.trans found)
        refine ⟨?_, fun last => apart (mem_nodes_of_mem_toList (List.mem_of_getLast? ?_))⟩
        · rw [links.forward, links.forwardLast]
          cases children <;> simp [top, toList]
        · exact links.forwardLast.symm.trans last
      · rcases List.mem_append.mp inside with inside | inside
        · exact children_ih below nodupChildren inside
        · exact next_ih later nodupNext inside

/-- The parent of a node is a node, or the one above all of them. -/
theorem HoldsTree.back_mem (holds : HoldsTree memory back t) {a : Nat} {e : HistoryEntry}
    (inside : a ∈ t.nodes) (found : memory a = some e) :
    e.back = back ∨ ∃ b ∈ t.nodes, e.back = some b := by
  induction t generalizing back with
  | nil => cases inside
  | cons b children next children_ih next_ih =>
      obtain ⟨⟨e', found', links⟩, below, later⟩ := holds
      rcases List.mem_cons.mp inside with rfl | inside
      · obtain rfl : e' = e := Option.some.inj (found'.symm.trans found)
        exact Or.inl links.back
      · rcases List.mem_append.mp inside with inside | inside
        · rcases children_ih below inside with same | ⟨c, child, same⟩
          · exact Or.inr ⟨b, List.mem_cons_self, same⟩
          · exact Or.inr ⟨c, List.mem_cons_of_mem _ (List.mem_append_left _ child), same⟩
        · rcases next_ih later inside with same | ⟨c, child, same⟩
          · exact Or.inl same
          · exact Or.inr ⟨c, List.mem_cons_of_mem _ (List.mem_append_right _ child), same⟩

/-- A tree is kept when the links of its entries are kept. -/
theorem History.IsTree.congr {h h' : History} (tree : h.IsTree t)
    (links : ∀ a, (h'.memory a).map HistoryEntry.links = (h.memory a).map HistoryEntry.links)
    (fresh : h'.fresh = h.fresh) (start : h'.start = h.start) (current : h'.current = h.current) :
    h'.IsTree t where
  holds := tree.holds.congr_links fun a _ => links a
  nodup := tree.nodup
  below := fresh ▸ tree.below
  start := start.trans tree.start
  single := tree.single
  none_current := current ▸ tree.none_current
  current_mem := current ▸ tree.current_mem

/-- There are rounds enough for the whole tree. -/
theorem Stands.rounds {h : History} (stands : Stands h back t) :
    2 * t.nodes.length ≤ h.rounds := by
  have count : t.nodes.length ≤ (List.range h.fresh).length :=
    (stands.nodup.subperm fun a inside => List.mem_range.mpr (stands.below a inside)).length_le
  rw [List.length_range] at count
  rw [History.rounds]
  omega

/-- The current entry is another one of the tree. -/
theorem History.IsTree.moveCurrent {h : History} {a : Nat} (tree : h.IsTree t)
    (inside : a ∈ t.nodes) : { h with current := some a }.IsTree t where
  holds := tree.holds
  nodup := tree.nodup
  below := tree.below
  start := tree.start
  single := tree.single
  none_current none := by cases none
  current_mem _ same := Option.some.inj same ▸ inside

/-- A history without entries has the empty tree. -/
theorem isTree_nil {h : History} (start : h.start = none) (current : h.current = none) :
    h.IsTree .nil where
  holds := trivial
  nodup := List.nodup_nil
  below := List.forall_mem_nil _
  start := start
  single := Nat.zero_le _
  none_current _ := rfl
  current_mem a same := by
    rw [current] at same
    cases same

/-- This is an entry of the history, which is found from the start. -/
inductive History.IsEntry (h : History) : Nat → Prop
  | start {a : Nat} (first : h.start = some a) : h.IsEntry a
  | forward {a b : Nat} {e : HistoryEntry} (above : h.IsEntry a) (found : h.memory a = some e)
      (link : e.forward = some b) : h.IsEntry b
  | next {a b : Nat} {e : HistoryEntry} (before : h.IsEntry a) (found : h.memory a = some e)
      (link : e.next = some b) : h.IsEntry b

theorem HoldsTree.isEntry {h : History} (holds : HoldsTree h.memory back t)
    (first : ∀ a, t.top = some a → h.IsEntry a) : ∀ a ∈ t.nodes, h.IsEntry a := by
  induction t generalizing back with
  | nil => exact List.forall_mem_nil _
  | cons a children next children_ih next_ih =>
      obtain ⟨⟨e, found, links⟩, below, later⟩ := holds
      have own : h.IsEntry a := first a rfl
      intro b inside
      rcases List.mem_cons.mp inside with rfl | inside
      · exact own
      · rcases List.mem_append.mp inside with inside | inside
        · exact children_ih below
            (fun c top => .forward own found (links.forward.trans top)) b inside
        · exact next_ih later (fun c top => .next own found (links.next.trans top)) b inside

/-- The entries are the nodes of the tree. -/
theorem History.IsTree.isEntry_iff {h : History} (tree : h.IsTree t) {a : Nat} :
    h.IsEntry a ↔ a ∈ t.nodes := by
  constructor
  · intro entry
    induction entry with
    | start first => exact mem_nodes_of_mem_toList (top_mem (tree.start.symm.trans first))
    | forward above found link inside =>
        exact (tree.holds.links_mem inside found).2.1 _ link
    | next before found link inside => exact (tree.holds.links_mem inside found).1 _ link
  · exact tree.holds.isEntry (fun b top => .start (tree.start.trans top)) a

end Neosurf.LocalHistory
