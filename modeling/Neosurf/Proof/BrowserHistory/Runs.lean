/-
This file proves that a history keeps its tree while pages are added and gone back to.
-/

import Neosurf.Proof.BrowserHistory.Clone
import Neosurf.Proof.BrowserHistory.Layout

namespace Neosurf.LocalHistory

open SiblingTree

section Runs

variable {memory memory' : Nat → Option HistoryEntry} {back : Option Nat}

  {t children next : SiblingTree Nat} {m : Measures} {h h' : History} {rounds : Nat}

/-- The memory has the new entry, and the last of the siblings leads to it. -/
structure GrowsLast (memory memory' : Nat → Option HistoryEntry) (new : Nat) (back : Option Nat)
    (t : SiblingTree Nat) : Prop where
  added : ∃ e, memory' new = some e ∧ e.links = (back, none, none, none, none)
  last : ∀ a, t.toList.getLast? = some a → ∀ e, memory a = some e →
    memory' a = some { e with next := some new }
  other : ∀ a ∈ t.nodes, t.toList.getLast? ≠ some a → memory' a = memory a

theorem HoldsTree.addLast {new : Nat} (holds : HoldsTree memory back t) (nodup : t.nodes.Nodup)
    (grows : GrowsLast memory memory' new back t) : HoldsTree memory' back (t.addLast new) := by
  obtain ⟨e', found', linked⟩ := grows.added
  simp only [HistoryEntry.links, Prod.mk.injEq] at linked
  obtain ⟨sameBack, sameNext, sameForward, samePref, sameLast⟩ := linked
  induction t with
  | nil =>
      exact ⟨⟨e', found', sameBack, sameNext, sameForward, by simp [samePref], sameLast⟩,
        trivial, trivial⟩
  | cons a children next children_ih next_ih =>
      obtain ⟨⟨e, found, links⟩, below, later⟩ := holds
      rw [nodes, List.nodup_cons, List.nodup_append', List.mem_append, not_or] at nodup
      obtain ⟨⟨apart, apartNext⟩, nodupChildren, nodupNext, disjoint⟩ := nodup
      have inside : ∀ b ∈ children.nodes, (SiblingTree.cons a children next).toList.getLast? ≠
          some b := by
        intro b child same
        rcases List.mem_cons.mp (List.mem_of_getLast? same) with rfl | other
        · exact apart child
        · exact List.disjoint_left.mp disjoint child (mem_nodes_of_mem_toList other)
      have belowKept : HoldsTree memory' (some a) children := below.congr fun b child =>
        grows.other b (List.mem_cons_of_mem _ (List.mem_append_left _ child)) (inside b child)
      cases next with
      | nil =>
          refine ⟨⟨_, grows.last a rfl e found, ?_⟩, belowKept,
            next_ih later nodupNext ⟨grows.added, fun b none => by simp [toList] at none,
              List.forall_mem_nil _⟩⟩
          exact ⟨links.back, rfl, links.forward, links.forwardPref, links.forwardLast⟩
      | cons c below' after =>
          have last : (SiblingTree.cons a children (.cons c below' after)).toList.getLast? =
            (SiblingTree.cons c below' after).toList.getLast? := List.getLast?_cons_cons
          have first : (SiblingTree.cons a children (.cons c below' after)).toList.getLast? ≠
              some a := by
            rw [last]
            exact fun same => apartNext (mem_nodes_of_mem_toList (List.mem_of_getLast? same))
          refine ⟨⟨e, (grows.other a List.mem_cons_self first).trans found, ?_⟩, belowKept,
            next_ih later nodupNext ⟨grows.added, fun b same => grows.last b (last.trans same),
              fun b child other => grows.other b
                (List.mem_cons_of_mem _ (List.mem_append_right _ child)) (last ▸ other)⟩⟩
          exact ⟨links.back, links.next, links.forward, links.forwardPref, links.forwardLast⟩

/-- The memory has the new entry as the last child of another one. -/
structure GrowsChild (memory memory' : Nat → Option HistoryEntry) (new parent : Nat)
    (e : HistoryEntry) : Prop where
  added : ∃ e, memory' new = some e ∧ e.links = (some parent, none, none, none, none)
  above : ∃ e', memory' parent = some e' ∧
    e'.links = (e.back, e.next, some (e.forward.getD new), some new, some new)
  last : ∀ a, e.forwardLast = some a → ∀ last, memory a = some last →
    memory' a = some { last with next := some new }
  other : ∀ a, a ≠ parent → e.forwardLast ≠ some a → a ≠ new → memory' a = memory a

theorem HoldsTree.addChild {new parent : Nat} {e : HistoryEntry} (holds : HoldsTree memory back t)
    (nodup : t.nodes.Nodup) (inside : parent ∈ t.nodes) (found : memory parent = some e)
    (fresh : new ∉ t.nodes) (grows : GrowsChild memory memory' new parent e) :
    HoldsTree memory' back (t.addChild parent new) := by
  induction t generalizing back with
  | nil => cases inside
  | cons a children next children_ih next_ih =>
      have member : parent ∈ (SiblingTree.cons a children next).nodes := inside
      have toLast := (holds.links_mem inside found).2.2.1
      obtain ⟨⟨own, here, links⟩, below, later⟩ := holds
      rw [nodes, List.nodup_cons, List.nodup_append', List.mem_append, not_or] at nodup
      obtain ⟨⟨apart, apartNext⟩, nodupChildren, nodupNext, disjoint⟩ := nodup
      rw [nodes, List.mem_cons, List.mem_append, not_or, not_or] at fresh
      obtain ⟨newHere, newBelow, newLater⟩ := fresh
      rw [SiblingTree.addChild]
      split_ifs with same
      · subst same
        obtain rfl : own = e := Option.some.inj (here.symm.trans found)
        obtain ⟨e', found', linked⟩ := grows.above
        simp only [HistoryEntry.links, Prod.mk.injEq] at linked
        obtain ⟨sameBack, sameNext, sameForward, samePref, sameLast⟩ := linked
        have lastInside : ∀ b, own.forwardLast = some b → b ∈ children.nodes := fun b last =>
          mem_nodes_of_mem_toList (List.mem_of_getLast? (links.forwardLast.symm.trans last))
        refine ⟨⟨e', found', ?_⟩, below.addLast nodupChildren ⟨grows.added, ?_, ?_⟩,
          later.congr fun b child => ?_⟩
        · refine ⟨sameBack.trans links.back, sameNext.trans links.next, ?_, ?_, ?_⟩
          · rw [sameForward, links.forward, top_addLast]
          · rw [samePref, toList_addLast]
            rintro b ⟨⟩
            exact List.mem_append_right _ List.mem_cons_self
          · rw [sameLast, toList_addLast, List.getLast?_concat]
        · exact fun b last => grows.last b (links.forwardLast.trans last)
        · refine fun b child notLast => grows.other b (fun other => apart (other ▸ child))
            (fun last => notLast (links.forwardLast.symm.trans last))
            fun other => newBelow (other ▸ child)
        · refine grows.other b (fun other => apartNext (other ▸ child))
            (fun last => List.disjoint_left.mp disjoint (lastInside b last) child)
            fun other => newLater (other ▸ child)
      · have inside : parent ∈ children.nodes ++ next.nodes :=
          (List.mem_cons.mp inside).resolve_left (Ne.symm same)
        rcases List.mem_append.mp inside with inside | inside
        · have lastInside := (below.links_mem inside found).2.2.1
          rw [addChild_of_notMem new (List.disjoint_left.mp disjoint inside)]
          refine ⟨⟨own, ?_, links.back, links.next, ?_, ?_, ?_⟩,
            children_ih below nodupChildren inside newBelow, later.congr fun b child => ?_⟩
          · rw [grows.other a same (fun last => apart (lastInside a last)) (Ne.symm newHere), here]
          · rw [links.forward, top_addChild]
          · rw [toList_addChild]
            exact links.forwardPref
          · rw [toList_addChild]
            exact links.forwardLast
          · exact grows.other b (fun other => List.disjoint_left.mp disjoint inside (other ▸ child))
              (fun last => List.disjoint_left.mp disjoint (lastInside b last) child)
              fun other => newLater (other ▸ child)
        · have lastInside := (later.links_mem inside found).2.2.1
          rw [addChild_of_notMem new fun other => List.disjoint_left.mp disjoint other inside]
          refine ⟨⟨own, ?_, links.back, ?_, links.forward, links.forwardPref, links.forwardLast⟩,
            below.congr fun b child => ?_, next_ih later nodupNext inside newLater⟩
          · rw [grows.other a same (fun last => apartNext (lastInside a last)) (Ne.symm newHere),
              here]
          · rw [links.next, top_addChild]
          · exact grows.other b (fun other => List.disjoint_left.mp disjoint (other ▸ child) inside)
              (fun last => List.disjoint_left.mp disjoint child (lastInside b last))
              fun other => newBelow (other ▸ child)

theorem link_grows {c : Nat} {e ec : HistoryEntry} (at' : h.current = some c) (low : c < h.fresh)
    (found : h.memory c = some ec) (links : e.links = (some c, none, none, none, none))
    (both : ec.forward.isSome ↔ ec.forwardLast.isSome) (notOwn : ec.forwardLast ≠ some c)
    (lastLow : ∀ b, ec.forwardLast = some b → b < h.fresh) :
    ∃ h', (h.allocate e).link h.fresh = some h' ∧ h'.current = some h.fresh ∧
      h'.fresh = h.fresh + 1 ∧ h'.start = h.start ∧
        GrowsChild h.memory h'.memory h.fresh c ec := by
  have found₀ : (h.allocate e).memory c = some ec := by
    rw [allocate_memory_ne low.ne, found]
  have current₀ : (h.allocate e).current = some c := at'
  cases last : ec.forwardLast with
  | none =>
      have first : ec.forward = none := by
        rw [last, Option.isSome_none] at both
        cases forward : ec.forward with
        | none => rfl
        | some b => exact absurd (both.mp (by rw [forward]; rfl)) Bool.false_ne_true
      simp only [History.link, current₀, Option.bind_eq_bind, Option.bind_some, found₀, last]
      refine ⟨_, rfl, rfl, rfl, rfl, ?_⟩
      refine ⟨⟨e, ?_, links⟩, ⟨{ ec with
        forward := some h.fresh
        forwardPref := some h.fresh
        forwardLast := some h.fresh
        children := ec.children + 1 }, ?_, ?_⟩, fun b same => ?_, fun b apart _ notNew => ?_⟩
      · show ((h.allocate e).modify c _ |>.modify c _).memory h.fresh = _
        rw [modify_memory_ne low.ne', modify_memory_ne low.ne', allocate_memory_self]
      · show ((h.allocate e).modify c _ |>.modify c _).memory c = _
        rw [modify_memory_self, modify_memory_self, found₀, Option.map_some, Option.map_some]
      · simp only [HistoryEntry.links, first]
        rfl
      · rw [last] at same
        cases same
      · show ((h.allocate e).modify c _ |>.modify c _).memory b = _
        rw [modify_memory_ne apart, modify_memory_ne apart, allocate_memory_ne notNew]
  | some b =>
      have bLow := lastLow b last
      have bNe : b ≠ c := fun same => notOwn (same ▸ last)
      obtain ⟨first, forward⟩ : ∃ first, ec.forward = some first :=
        Option.isSome_iff_exists.mp (both.mpr (by rw [last]; rfl))
      simp only [History.link, current₀, Option.bind_eq_bind, Option.bind_some, found₀, last]
      refine ⟨_, rfl, rfl, rfl, rfl, ?_⟩
      refine ⟨⟨e, ?_, links⟩, ⟨{ ec with
        forwardPref := some h.fresh
        forwardLast := some h.fresh
        children := ec.children + 1 }, ?_, ?_⟩, fun b' same eb foundLast => ?_,
        fun x apart notLast notNew => ?_⟩
      · show ((h.allocate e).modify b _ |>.modify c _).memory h.fresh = _
        rw [modify_memory_ne low.ne', modify_memory_ne bLow.ne', allocate_memory_self]
      · show ((h.allocate e).modify b _ |>.modify c _).memory c = _
        rw [modify_memory_self, modify_memory_ne bNe.symm, found₀, Option.map_some]
      · simp only [HistoryEntry.links, forward]
        rfl
      · obtain rfl : b = b' := Option.some.inj (last.symm.trans same)
        show ((h.allocate e).modify b _ |>.modify c _).memory b = _
        rw [modify_memory_ne bNe, modify_memory_self, allocate_memory_ne bLow.ne, foundLast,
          Option.map_some]
      · show ((h.allocate e).modify b _ |>.modify c _).memory x = _
        have notB : x ≠ b := fun same => notLast (same ▸ last)
        rw [modify_memory_ne apart, modify_memory_ne notB, allocate_memory_ne notNew]

/-- A new entry is linked into the tree. -/
theorem link_isTree (tree : h.IsTree t) {e : HistoryEntry}
    (links : e.links = (h.current, none, none, none, none)) :
    ∃ h' t', (h.allocate e).link h.fresh = some h' ∧ h'.IsTree t' := by
  have linked := links
  simp only [HistoryEntry.links, Prod.mk.injEq] at linked
  obtain ⟨sameBack, sameNext, sameForward, samePref, sameLast⟩ := linked
  cases at' : h.current with
  | none =>
      refine ⟨{ h.allocate e with start := some h.fresh, current := some h.fresh },
        .cons h.fresh .nil .nil, ?_, ⟨⟨?_, List.nodup_singleton _, ?_⟩, rfl, le_rfl, by simp, ?_⟩⟩
      · simp only [History.link, History.allocate, at']
      · exact ⟨⟨e, allocate_memory_self, sameBack.trans at', sameNext, sameForward,
          by simp [samePref], sameLast⟩, trivial, trivial⟩
      · intro a inside
        rw [List.mem_singleton.mp inside]
        exact h.fresh.lt_succ_self
      · rintro a ⟨⟩
        exact List.mem_cons_self
  | some c =>
      have inside := tree.current_mem c at'
      obtain ⟨ec, found⟩ := tree.holds.found inside
      obtain ⟨both, notOwn⟩ := tree.holds.children_links tree.nodup inside found
      have toLast := (tree.holds.links_mem inside found).2.2.1
      have cLow := tree.below c inside
      have fresh : h.fresh ∉ t.nodes := fun other => (tree.below _ other).false
      obtain ⟨h', run, current', fresh', start', grows⟩ := link_grows at' cLow found
        (at' ▸ links) both notOwn fun b last => tree.below b (toLast b last)
      have nodes : (t.addChild c h.fresh).nodes.Perm (h.fresh :: t.nodes) :=
        nodes_addChild_perm h.fresh inside tree.nodup
      refine ⟨h', t.addChild c h.fresh, run,
        ⟨⟨tree.holds.addChild tree.nodup inside found fresh grows, ?_, ?_⟩, ?_, ?_, ?_, ?_⟩⟩
      · exact nodes.nodup_iff.mpr (List.nodup_cons.mpr ⟨fresh, tree.nodup⟩)
      · intro a other
        rw [fresh']
        rcases List.mem_cons.mp (nodes.mem_iff.mp other) with rfl | other
        · exact Nat.lt_succ_self _
        · exact (tree.below a other).trans (Nat.lt_succ_self _)
      · rw [start', tree.start, top_addChild]
      · rw [toList_addChild]
        exact tree.single
      · rw [current']
        simp
      · rw [current']
        rintro a ⟨⟩
        exact nodes.mem_iff.mpr List.mem_cons_self

/-- A page is added, and the tree is laid out again. -/
theorem add_run (tree : h.IsTree t) (url title : Bytes) (fragId : Option Bytes) :
    ∃ (h₀ h₁ : History) (t' : SiblingTree Nat), h.add m url title fragId = some (h₁.framed m t') ∧ h₀.IsTree t' ∧
      LaysOut m { h₀ with width := 0 } h₁
        (placed m t' (m.rightMargin.tdiv 2) (m.bottomMargin.tdiv 2)).nodes := by
  obtain ⟨h₀, t', linked, tree'⟩ := link_isTree tree (e :=
    { page := ⟨url, fragId, title, 0, 0⟩
      back := h.current
      next := none
      forward := none
      forwardPref := none
      forwardLast := none
      children := 0
      x := 0
      y := 0 }) rfl
  obtain ⟨h₁, run, laid⟩ := layout_run (m := m) tree'
  refine ⟨h₀, h₁, t', ?_, tree', laid⟩
  simp only [History.add, linked, Option.bind_eq_bind, Option.bind_some, run]

theorem update_links (title : Bytes) (scroll : Option (UInt32 × UInt32)) (a : Nat) :
    ((h.update title scroll).memory a).map HistoryEntry.links =
      (h.memory a).map HistoryEntry.links := by
  rw [History.update]
  split
  · rfl
  · rename_i current _
    by_cases same : a = current
    · subst same
      rw [modify_memory_self, Option.map_map]
      rfl
    · rw [modify_memory_ne same]

theorem update_isTree (tree : h.IsTree t) (title : Bytes) (scroll : Option (UInt32 × UInt32)) :
    (h.update title scroll).IsTree t := by
  have same : (h.update title scroll).fresh = h.fresh ∧
      (h.update title scroll).start = h.start ∧ (h.update title scroll).current = h.current := by
    rw [History.update]
    split <;> exact ⟨rfl, rfl, rfl⟩
  exact tree.congr (update_links title scroll) same.1 same.2.1 same.2.2

theorem go_isTree (tree : h.IsTree t) {a : Nat} (inside : a ∈ t.nodes)
    (left : Option (Bytes × Option (UInt32 × UInt32))) : (h.go a left).IsTree t := by
  cases left with
  | none => exact tree.moveCurrent inside
  | some shown => exact (update_isTree tree shown.1 shown.2).moveCurrent inside

theorem clone_isTree (tree : h.IsTree t) :
    ∃ (h' : History) (t' : SiblingTree Nat), h.clone m = some h' ∧ h'.IsTree t' := by
  cases root : t.top with
  | none =>
      have start : h.start = none := tree.start.trans root
      refine ⟨.create m, .nil, ?_, isTree_nil rfl rfl⟩
      rw [History.clone, start]
  | some a =>
      obtain ⟨h', clone, run, clones⟩ := clone_run (m := m) tree root
      exact ⟨h', t.map clone, run, clones.isTree tree⟩

/-- This is an entry that a navigation can go to: any entry that the window shows, the one before
the current one, or the one preferred after it. -/
inductive Target (h : History) : Nat → Prop
  | entry {a : Nat} (shown : h.IsEntry a) : Target h a
  | back {current a : Nat} {e : HistoryEntry} (at' : h.current = some current)
      (found : h.memory current = some e) (link : e.back = some a) : Target h a
  | forward {current a : Nat} {e : HistoryEntry} (at' : h.current = some current)
      (found : h.memory current = some e) (link : e.forwardPref = some a) : Target h a

theorem Target.mem (tree : h.IsTree t) {a : Nat} (target : Target h a) : a ∈ t.nodes := by
  cases target with
  | entry shown => exact tree.isEntry_iff.mp shown
  | back at' found link =>
      rcases tree.holds.back_mem (tree.current_mem _ at') found with none | ⟨b, inside, same⟩
      · rw [none] at link
        cases link
      · obtain rfl : b = a := Option.some.inj (same.symm.trans link)
        exact inside
  | forward at' found link =>
      exact (tree.holds.links_mem (tree.current_mem _ at') found).2.2.2 a link

/-- These are the histories of windows, after pages were added and navigated to. A new window
starts with the clone of another one's history. -/
inductive Reached (m : Measures) : History → Prop
  | create : Reached m (.create m)
  | add {h h' : History} {url title : Bytes} {fragId : Option Bytes} (before : Reached m h)
      (run : h.add m url title fragId = some h') : Reached m h'
  | update {h : History} (before : Reached m h) (title : Bytes)
      (scroll : Option (UInt32 × UInt32)) : Reached m (h.update title scroll)
  | go {h : History} {a : Nat} (before : Reached m h) (target : Target h a)
      (left : Option (Bytes × Option (UInt32 × UInt32))) : Reached m (h.go a left)
  | goNewWindow {h h' : History} {a : Nat} (before : Reached m h) (target : Target h a)
      (run : h.goNewWindow m a = some h') : Reached m h'
  | clone {h h' : History} (before : Reached m h) (run : h.clone m = some h') : Reached m h'

theorem Reached.isTree (reached : Reached m h) : ∃ t, h.IsTree t := by
  induction reached with
  | create => exact ⟨.nil, isTree_nil rfl rfl⟩
  | add before run ih =>
      obtain ⟨t, tree⟩ := ih
      obtain ⟨h₀, h₁, t', run', tree', laid⟩ := add_run (m := m) tree _ _ _
      obtain rfl := Option.some.inj (run.symm.trans run')
      exact ⟨t', laid.isTree tree'⟩
  | update before title scroll ih =>
      obtain ⟨t, tree⟩ := ih
      exact ⟨t, update_isTree tree title scroll⟩
  | go before target left ih =>
      obtain ⟨t, tree⟩ := ih
      exact ⟨t, go_isTree tree (target.mem tree) left⟩
  | goNewWindow before target run ih =>
      obtain ⟨t, tree⟩ := ih
      obtain ⟨h', t', run', tree'⟩ := clone_isTree (m := m) (tree.moveCurrent (target.mem tree))
      obtain rfl := Option.some.inj (run.symm.trans run')
      exact ⟨t', tree'⟩
  | clone before run ih =>
      obtain ⟨t, tree⟩ := ih
      obtain ⟨h', t', run', tree'⟩ := clone_isTree (m := m) tree
      obtain rfl := Option.some.inj (run.symm.trans run')
      exact ⟨t', tree'⟩

/-- A page can always be added. -/
theorem Reached.exists_add (reached : Reached m h) (url title : Bytes) (fragId : Option Bytes) :
    ∃ h', h.add m url title fragId = some h' ∧ Reached m h' := by
  obtain ⟨t, tree⟩ := reached.isTree
  obtain ⟨h₀, h₁, t', run, -⟩ := add_run (m := m) tree url title fragId
  exact ⟨_, run, .add reached run⟩

/-- The entries of the history stand apart from each other and inside it, and every child stands
in the column to the right of its parent. -/
structure WellPlaced (m : Measures) (h : History) : Prop where
  apart : ∀ a b e e', h.IsEntry a → h.IsEntry b → a ≠ b → h.memory a = some e →
    h.memory b = some e' → e.x + m.width ≤ e'.x ∨ e'.x + m.width ≤ e.x ∨
      e.y + m.height ≤ e'.y ∨ e'.y + m.height ≤ e.y
  inside : ∀ a e, h.IsEntry a → h.memory a = some e →
    0 ≤ e.x ∧ 0 ≤ e.y ∧ e.x + m.width ≤ h.width ∧ e.y + m.height ≤ h.height
  column : ∀ a b e e', h.IsEntry b → h.memory b = some e' → e'.back = some a →
    h.memory a = some e → e'.x = e.x + m.width + m.rightMargin

variable {m : Measures} {h h' : History}
  {t : SiblingTree Nat} {x y : Int} {a : Nat} {e : HistoryEntry}

/-- An entry below these siblings stands in the column to the right of its parent, and the
siblings stand in the first column. -/
theorem HoldsTree.column (holds : HoldsTree memory back t) {q : Nat × Int × Int}
    (inside : q ∈ (placed m t x y).nodes) (found : memory q.1 = some e) (above : e.back = some a) :
    back = some a ∧ q.2.1 = x ∨
      ∃ p ∈ (placed m t x y).nodes, p.1 = a ∧ q.2.1 = p.2.1 + m.width + m.rightMargin := by
  induction t generalizing back x y with
  | nil => cases inside
  | cons b children next children_ih next_ih =>
      obtain ⟨⟨e', found', links⟩, below, later⟩ := holds
      rw [placed, nodes] at inside ⊢
      rcases List.mem_cons.mp inside with rfl | inside
      · obtain rfl : e' = e := Option.some.inj (found'.symm.trans found)
        exact Or.inl ⟨links.back.symm.trans above, rfl⟩
      · rcases List.mem_append.mp inside with inside | inside
        · rcases children_ih below inside with ⟨parent, column⟩ | ⟨p, other, same, column⟩
          · exact Or.inr ⟨_, List.mem_cons_self, Option.some.inj parent, column⟩
          · exact Or.inr ⟨p, List.mem_cons_of_mem _ (List.mem_append_left _ other), same, column⟩
        · rcases next_ih later inside with first | ⟨p, other, same, column⟩
          · exact Or.inl first
          · exact Or.inr ⟨p, List.mem_cons_of_mem _ (List.mem_append_right _ other), same, column⟩

/-- Every entry stands at its place. -/
theorem LaysOut.place (laid : LaysOut m h h' (placed m t x y).nodes) (inside : a ∈ t.nodes)
    (found : h'.memory a = some e) :
    (a, e.x, e.y) ∈ (placed m t x y).nodes := by
  rw [← placed_fst (m := m) t x y] at inside
  obtain ⟨⟨b, place⟩, placed, rfl⟩ := List.mem_map.mp inside
  rw [laid.moved _ placed, Option.map_eq_some_iff] at found
  obtain ⟨e₀, -, rfl⟩ := found
  exact placed

theorem LaysOut.wellPlaced (nonneg : m.Nonneg) (tree : h.IsTree t)
    (laid : LaysOut m { h with width := 0 } h'
      (placed m t (m.rightMargin.tdiv 2) (m.bottomMargin.tdiv 2)).nodes) :
    WellPlaced m (h'.framed m t) := by
  have tree' := laid.isTree tree
  have right : 0 ≤ m.rightMargin.tdiv 2 := Int.tdiv_nonneg nonneg.rightMargin (by decide)
  have low : 0 ≤ m.bottomMargin.tdiv 2 := Int.tdiv_nonneg nonneg.bottomMargin (by decide)
  refine ⟨fun a b e e' entry entry' other found found' => ?_, fun a e entry found => ?_,
    fun a b e e' entry found link found' => ?_⟩
  · have first := laid.place (tree'.isEntry_iff.mp entry) found
    have second := laid.place (tree'.isEntry_iff.mp entry') found'
    exact (pairwise_placed nonneg low).forall first second
      fun same => other (congrArg Prod.fst same)
  · have place := laid.place (tree'.isEntry_iff.mp entry) found
    obtain ⟨column, high, bounded⟩ := placed_within nonneg low _ place
    have wide := laid.wide _ place
    have some : ¬t.top.isNone = true := fun empty => by
      rw [eq_nil_of_isNone empty] at place
      cases place
    simp only [History.framed, wholeBottom, if_neg some]
    simp only at column high bounded wide
    omega
  · have place := laid.place (tree'.isEntry_iff.mp entry) found
    rcases tree'.holds.column place found link with ⟨none, -⟩ | ⟨p, inside, rfl, column⟩
    · cases none
    · have own : e.x = p.2.1 := by
        rw [show (h'.framed m t).memory p.1 = h'.memory p.1 from rfl, laid.moved p inside,
          Option.map_eq_some_iff] at found'
        obtain ⟨e₀, -, rfl⟩ := found'
        rfl
      rw [own]
      exact column

/-- After a page is added, and after any other layout, the tree of the history is well placed. -/
theorem Reached.standApart (nonneg : m.Nonneg) (reached : Reached m h) :
    (∃ h', h.layout m = some h' ∧ WellPlaced m h') ∧ ∀ url title fragId,
      ∃ h', h.add m url title fragId = some h' ∧ WellPlaced m h' := by
  obtain ⟨t, tree⟩ := reached.isTree
  constructor
  · obtain ⟨h', run, laid⟩ := layout_run (m := m) tree
    exact ⟨h'.framed m t, run, laid.wellPlaced nonneg tree⟩
  · intro url title fragId
    obtain ⟨h₀, h₁, t', run, tree', laid⟩ := add_run (m := m) tree url title fragId
    exact ⟨h₁.framed m t', run, laid.wellPlaced nonneg tree'⟩

/-- These are the measures at 96 dots to the inch. -/
def usualMeasures : Measures := ⟨116, 100, 50, 30⟩

theorem usualMeasures_nonneg : usualMeasures.Nonneg := by
  constructor <;> decide

/-- From the first page the user goes to a second one, back, and to a third one. -/
theorem wellPlaced_branch : ∃ h₁ h₂ h₃,
    (History.create usualMeasures).add usualMeasures [] [] none = some h₁ ∧
      h₁.add usualMeasures [] [] none = some h₂ ∧
        (h₂.go 0 none).add usualMeasures [] [] none = some h₃ ∧ WellPlaced usualMeasures h₃ := by
  obtain ⟨h₁, run₁, -⟩ :=
    (Reached.standApart usualMeasures_nonneg .create).2 [] [] none
  obtain ⟨h₂, run₂, -⟩ :=
    (Reached.standApart usualMeasures_nonneg (.add .create run₁)).2 [] [] none
  have start : (((History.create usualMeasures).add usualMeasures [] [] none).bind fun h =>
      (h.add usualMeasures [] [] none).map History.start) = some (some 0) := by decide +kernel
  rw [run₁, Option.bind_some, run₂, Option.map_some, Option.some.injEq] at start
  obtain ⟨h₃, run₃, placed⟩ := (Reached.standApart usualMeasures_nonneg
    (.go (.add (.add .create run₁) run₂) (.entry (.start start)) none)).2 [] [] none
  exact ⟨h₁, h₂, h₃, run₁, run₂, run₃, placed⟩

/-- In every run the links of the history are those of one tree with the current entry in it, every
page is added to it, and it is cloned for a new window. -/
theorem reached_linked (reached : Reached m h) :
    (∃ t, h.IsTree t) ∧
      (∀ url title fragId, ∃ h', h.add m url title fragId = some h' ∧ Reached m h') ∧
      ∃ h', h.clone m = some h' ∧ Reached m h' := by
  obtain ⟨t, tree⟩ := reached.isTree
  obtain ⟨h', t', run, -⟩ := clone_isTree (m := m) tree
  exact ⟨⟨t, tree⟩, reached.exists_add, h', run, .clone reached run⟩

/-- The history of a window with one page. -/
theorem reached_linked_page : ∃ h₁,
    (History.create usualMeasures).add usualMeasures [] [] none = some h₁ ∧
      (∃ t, h₁.IsTree t) ∧
      (∀ url title fragId, ∃ h', h₁.add usualMeasures url title fragId = some h' ∧
        Reached usualMeasures h') ∧
      ∃ h', h₁.clone usualMeasures = some h' ∧ Reached usualMeasures h' := by
  obtain ⟨h₁, run, reached⟩ := (Reached.create (m := usualMeasures)).exists_add [] [] none
  exact ⟨h₁, run, reached_linked reached⟩

end Runs

section WholeClone

/-- An entry has everything of another one, and its links lead to clones. -/
structure WholeEntry (clone : Nat → Nat) (e e' : HistoryEntry) : Prop where
  page : e'.page = e.page
  children : e'.children = e.children
  back : e'.back = e.back.map clone
  next : e'.next = e.next.map clone
  forward : e'.forward = e.forward.map clone
  forwardPref : e'.forwardPref = e.forwardPref.map clone
  forwardLast : e'.forwardLast = e.forwardLast.map clone

/-- A history is a whole clone: it has a tree of the same shape, none of whose entries is an
original one. -/
structure WholeClone (clone : Nat → Nat) (h h' : History) (t : SiblingTree Nat) : Prop where
  shape : h'.IsTree (t.map clone)
  apart : ∀ a ∈ t.nodes, clone a ∉ t.nodes
  entries : ∀ a ∈ t.nodes, ∃ e e', h.memory a = some e ∧ h'.memory (clone a) = some e' ∧
    WholeEntry clone e e'
  start : h'.start = h.start.map clone
  current : h'.current = h.current.map clone

variable {memory memory' : Nat → Option HistoryEntry} {clone : Nat → Nat} {back : Option Nat}
  {t : SiblingTree Nat} {a : Nat} {e : HistoryEntry} {m : Measures} {h h' : History}

theorem Cloned.entry (back : Option Nat) (cloned : Cloned memory memory' clone (back.map clone) t)
    (holds : HoldsTree memory back t) (inside : a ∈ t.nodes) (found : memory a = some e) :
    memory' (clone a) = some (cloneOf clone (e.back.map clone) e) := by
  induction t generalizing back with
  | nil => cases inside
  | cons b children next children_ih next_ih =>
      obtain ⟨⟨e', found', copy⟩, cloneBelow, cloneLater⟩ := cloned
      obtain ⟨⟨e'', found'', links⟩, below, later⟩ := holds
      rcases List.mem_cons.mp inside with rfl | inside
      · obtain rfl : e' = e := Option.some.inj (found'.symm.trans found)
        obtain rfl : e' = e'' := Option.some.inj (found'.symm.trans found'')
        rw [copy, links.back]
      · rcases List.mem_append.mp inside with inside | inside
        · exact children_ih (some b) cloneBelow below inside
        · exact next_ih back cloneLater later inside

/-- What a clone does not copy is the scroll position and the number of children. -/
theorem cloneOf_bare_iff : (cloneOf clone back e).page = e.page ∧
    (cloneOf clone back e).children = e.children ↔
      e.page.scrollX = 0 ∧ e.page.scrollY = 0 ∧ e.children = 0 := by
  obtain ⟨⟨url, fragId, title, scrollX, scrollY⟩, _, _, _, _, _, children, _, _⟩ := e
  simp only [cloneOf, HistoryEntry.copied, HistoryPage.mk.injEq, true_and]
  rw [and_assoc, eq_comm (a := 0), eq_comm (a := 0), eq_comm (a := 0)]

/-- A history with a whole clone has no scroll positions and no numbers of children. -/
theorem WholeClone.bare {clone' : Nat → Nat} (whole : WholeClone clone' h h' t)
    (tree : h.IsTree t) (clones : Clones clone h h' t) (entry : h.IsEntry a)
    (found : h.memory a = some e) :
    e.page.scrollX = 0 ∧ e.page.scrollY = 0 ∧ e.children = 0 := by
  have inside := tree.isEntry_iff.mp entry
  have same := map_inj_on ((clones.isTree tree).holds.unique whole.shape.holds
    ((clones.isTree tree).start.symm.trans whole.shape.start)) a inside
  obtain ⟨e₀, e', found₀, copy, fully⟩ := whole.entries a inside
  obtain rfl : e₀ = e := Option.some.inj (found₀.symm.trans found)
  rw [← same, Cloned.entry none clones.clones tree.holds inside found,
    Option.some.injEq] at copy
  subst copy
  exact cloneOf_bare_iff.mp ⟨fully.page, fully.children⟩

/-- A clone is a whole one exactly when no entry has a scroll position or a number of children. -/
theorem clone_whole_iff (m : Measures) (tree : h.IsTree t) : ∃ h', h.clone m = some h' ∧
    ((∃ clone, WholeClone clone h h' t) ↔ ∀ a e, h.IsEntry a → h.memory a = some e →
      e.page.scrollX = 0 ∧ e.page.scrollY = 0 ∧ e.children = 0) := by
  cases root : t.top with
  | none =>
      obtain rfl : t = .nil := eq_nil_of_isNone (by rw [root]; rfl)
      have start : h.start = none := tree.start
      have current : h.current = none := by
        cases current : h.current with
        | none => rfl
        | some a => cases tree.current_mem a current
      refine ⟨.create m, by rw [History.clone, start], iff_of_true ⟨id, isTree_nil rfl rfl,
        List.forall_mem_nil _, List.forall_mem_nil _, ?_, ?_⟩ ?_⟩
      · rw [start]
        rfl
      · rw [current]
        rfl
      · intro a e entry
        cases tree.isEntry_iff.mp entry
  | some a =>
      obtain ⟨h', clone, run, clones⟩ := clone_run (m := m) tree root
      refine ⟨h', run, fun whole a e entry found => ?_, fun bare => ⟨clone, clones.isTree tree,
        fun a inside other => ?_, fun a inside => ?_, clones.start, clones.current⟩⟩
      · obtain ⟨_, whole⟩ := whole
        exact whole.bare tree clones entry found
      · exact ((clones.numbers.bounds inside).1.trans_lt (tree.below _ other)).false
      · obtain ⟨e, found⟩ := tree.holds.found inside
        obtain ⟨page, children⟩ := cloneOf_bare_iff.mpr (bare a e (tree.isEntry_iff.mpr inside) found)
        exact ⟨e, _, found, Cloned.entry none clones.clones tree.holds inside found,
          page, children, rfl, rfl, rfl, rfl, rfl⟩

/-- A history of one page that was not scrolled has a whole clone. -/
theorem clone_whole_onePage : ∃ (h h' : History) (t : SiblingTree Nat),
    (History.create usualMeasures).add usualMeasures [] [] none = some h ∧
      h.clone usualMeasures = some h' ∧ ∃ clone, WholeClone clone h h' t := by
  obtain ⟨h₀, h₁, t, run, tree₀, laid⟩ := add_run (m := usualMeasures) (h := .create usualMeasures)
    (t := .nil) (isTree_nil rfl rfl)
    [] [] none
  have tree := laid.isTree tree₀
  generalize h₁.framed usualMeasures t = h at run tree
  obtain ⟨h', cloned, whole⟩ := clone_whole_iff usualMeasures tree
  refine ⟨h, h', t, run, cloned, whole.mpr fun a e entry found => ?_⟩
  have low : h.fresh = 1 := by
    have fresh : ((History.create usualMeasures).add usualMeasures [] [] none).map History.fresh =
        some 1 := by decide
    rw [run] at fresh
    exact Option.some.inj fresh
  obtain rfl : a = 0 := by
    have := tree.below a (tree.isEntry_iff.mp entry)
    omega
  have first : ((History.create usualMeasures).add usualMeasures [] [] none).bind
      (fun h => h.memory 0) = some
        { page := ⟨[], none, [], 0, 0⟩, back := none, next := none, forward := none
          forwardPref := none, forwardLast := none, children := 0, x := 25, y := 15 } := by
    decide
  rw [run, Option.bind_some, found] at first
  cases first
  exact ⟨rfl, rfl, rfl⟩

/-- The clone of a history of two pages loses the number of children. -/
theorem clone_loses_children : ¬ ∀ (m : Measures) (h h' : History) (t : SiblingTree Nat),
    Reached m h → h.IsTree t → h.clone m = some h' → ∃ clone, WholeClone clone h h' t := by
  intro all
  obtain ⟨h₁, run₁, reached₁⟩ := (Reached.create (m := usualMeasures)).exists_add [] [] none
  obtain ⟨h₂, run₂, reached₂⟩ := reached₁.exists_add [] [] none
  have root : (((History.create usualMeasures).add usualMeasures [] [] none).bind fun h =>
      (h.add usualMeasures [] [] none).map fun h =>
        (h.start, (h.memory 0).map HistoryEntry.children)) = some (some 0, some 1) := by
    decide +kernel
  rw [run₁, Option.bind_some, run₂, Option.map_some, Option.some.injEq, Prod.mk.injEq] at root
  obtain ⟨start, count⟩ := root
  obtain ⟨t, tree⟩ := reached₂.isTree
  obtain ⟨h', clone, run, clones⟩ := clone_run (m := usualMeasures) tree
    (tree.start.symm.trans start)
  obtain ⟨clone', whole⟩ := all usualMeasures h₂ h' t reached₂ tree run
  obtain ⟨e, found, one⟩ := Option.map_eq_some_iff.mp count
  have none := (whole.bare tree clones (.start start) found).2.2
  omega

end WholeClone

end Neosurf.LocalHistory
