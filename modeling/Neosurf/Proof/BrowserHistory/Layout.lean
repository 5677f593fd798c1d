/-
This file proves that the layout of a history places its tree.
-/

import Neosurf.Proof.BrowserHistory.Trees
import Mathlib.Data.List.Pairwise
import Neosurf.Construction.BrowserHistory
import Neosurf.ToMathlib.SiblingTree.Basic

namespace Neosurf.LocalHistory

open SiblingTree

section Tree

variable {α : Type*} (m : Measures)

/-- The greatest `y` that is used by siblings and the trees below them, from the `y` that they
begin at. -/
def bottom (t : SiblingTree α) (y : Int) : Int :=
  match t with
  | .nil => y
  | .cons _ children next =>
      let y1 := if children.top.isNone then y + m.height else bottom children y
      if next.top.isNone then y1 else bottom next (y1 + m.bottomMargin)

/-- The greatest `y` that is used by one entry and the trees below it. -/
def ownBottom (children : SiblingTree α) (y : Int) : Int :=
  if children.top.isNone then y + m.height else bottom m children y

/-- The `y` of one entry, whose subtree begins at a given `y`. -/
def ownY (children : SiblingTree α) (y : Int) : Int :=
  if children.top.isNone then y
  else (y + ownBottom m children y).tdiv 2 - m.height.tdiv 2

/-- The tree with the position of every entry. -/
def placed (t : SiblingTree α) (x y : Int) : SiblingTree (α × Int × Int) :=
  match t with
  | .nil => .nil
  | .cons a children next =>
      .cons (a, x, ownY m children y)
        (placed children (x + m.width + m.rightMargin) y)
        (placed next x (ownBottom m children y + m.bottomMargin))

/-- Two rectangles have no point in common. -/
def Apart (p q : α × Int × Int) : Prop :=
  p.2.1 + m.width ≤ q.2.1 ∨ q.2.1 + m.width ≤ p.2.1 ∨
    p.2.2 + m.height ≤ q.2.2 ∨ q.2.2 + m.height ≤ p.2.2

instance : Std.Symm (Apart m : α × Int × Int → α × Int × Int → Prop) where
  symm p q := by
    rintro (left | left | above | above)
    · exact Or.inr (Or.inl left)
    · exact Or.inl left
    · exact Or.inr (Or.inr (Or.inr above))
    · exact Or.inr (Or.inr (Or.inl above))

/-- No measure is negative. -/
structure Measures.Nonneg : Prop where
  width : 0 ≤ m.width
  height : 0 ≤ m.height
  rightMargin : 0 ≤ m.rightMargin
  bottomMargin : 0 ≤ m.bottomMargin

variable {m} {t children next : SiblingTree α} {a : α} {x y : Int}

theorem bottom_cons : bottom m (.cons a children next) y =
    if next.top.isNone then ownBottom m children y
    else bottom m next (ownBottom m children y + m.bottomMargin) := rfl

theorem map_placed (t : SiblingTree α) (x y : Int) : (placed m t x y).map Prod.fst = t := by
  induction t generalizing x y with
  | nil => rfl
  | cons a children next children_ih next_ih => rw [placed, map, children_ih, next_ih]

theorem eq_nil_of_isNone (empty : t.top.isNone = true) : t = .nil := by
  cases t with
  | nil => rfl
  | cons a children next => cases empty

/-- There is room for one entry at least. -/
theorem le_bottom (nonneg : m.Nonneg) (some : ¬t.top.isNone = true) : y + m.height ≤ bottom m t y := by
  induction t generalizing y with
  | nil => exact absurd rfl some
  | cons a children next children_ih next_ih =>
      have own : y + m.height ≤ ownBottom m children y := by
        rw [ownBottom]
        split_ifs with empty
        · exact le_rfl
        · exact children_ih empty
      rw [bottom_cons]
      split_ifs with last
      · exact own
      · have after := next_ih (y := ownBottom m children y + m.bottomMargin) last
        have := nonneg.height
        have := nonneg.bottomMargin
        omega

theorem le_ownBottom (nonneg : m.Nonneg) (children : SiblingTree α) (y : Int) :
    y + m.height ≤ ownBottom m children y := by
  rw [ownBottom]
  split_ifs with empty
  · exact le_rfl
  · exact le_bottom nonneg empty

/-- A parent stands inside the range of its subtree. -/
theorem ownY_within (nonneg : m.Nonneg) (children : SiblingTree α) (above : 0 ≤ y) :
    y ≤ ownY m children y ∧ ownY m children y + m.height ≤ ownBottom m children y := by
  have room := le_ownBottom nonneg children y
  have := nonneg.height
  rw [ownY]
  split_ifs with empty
  · exact ⟨le_rfl, room⟩
  · rw [Int.tdiv_eq_ediv_of_nonneg (by omega), Int.tdiv_eq_ediv_of_nonneg (by omega)]
    omega

/-- Every entry stands inside the range, and in its column or further right. -/
theorem placed_within (nonneg : m.Nonneg) (above : 0 ≤ y) (p : α × Int × Int)
    (inside : p ∈ (placed m t x y).nodes) :
    x ≤ p.2.1 ∧ y ≤ p.2.2 ∧ p.2.2 + m.height ≤ bottom m t y := by
  induction t generalizing x y with
  | nil => cases inside
  | cons a children next children_ih next_ih =>
      have := nonneg.width
      have := nonneg.rightMargin
      have := nonneg.bottomMargin
      have := nonneg.height
      have own := ownY_within nonneg children above
      have room := le_ownBottom nonneg children y
      have whole : ownBottom m children y ≤ bottom m (.cons a children next) y := by
        rw [bottom_cons]
        split_ifs with last
        · exact le_rfl
        · have := le_bottom (y := ownBottom m children y + m.bottomMargin) nonneg last
          omega
      rw [placed, nodes] at inside
      rcases List.mem_cons.mp inside with rfl | inside
      · refine ⟨le_rfl, own.1, own.2.trans whole⟩
      · rcases List.mem_append.mp inside with inside | inside
        · have some : ¬children.top.isNone = true := fun empty => by
            rw [eq_nil_of_isNone empty] at inside
            cases inside
          obtain ⟨column, low, high⟩ := children_ih above inside
          rw [ownBottom, if_neg some] at whole
          exact ⟨by omega, low, high.trans whole⟩
        · have some : ¬next.top.isNone = true := fun empty => by
            rw [eq_nil_of_isNone empty] at inside
            cases inside
          obtain ⟨column, low, high⟩ := next_ih (by omega) inside
          rw [bottom_cons, if_neg some]
          exact ⟨column, by omega, high⟩

/-- The rectangles of two entries have no point in common. -/
theorem pairwise_placed (nonneg : m.Nonneg) (above : 0 ≤ y) :
    (placed m t x y).nodes.Pairwise (Apart m) := by
  induction t generalizing x y with
  | nil => exact List.Pairwise.nil
  | cons a children next children_ih next_ih =>
      have := nonneg.height
      have := nonneg.rightMargin
      have := nonneg.bottomMargin
      have own := ownY_within nonneg children above
      have room := le_ownBottom nonneg children y
      have later : 0 ≤ ownBottom m children y + m.bottomMargin := by omega
      rw [placed, nodes, List.pairwise_cons, List.pairwise_append]
      refine ⟨fun q inside => ?_, children_ih above, next_ih later, fun p first q second => ?_⟩
      · rcases List.mem_append.mp inside with inside | inside
        -- a later column
        · have column := (placed_within nonneg above q inside).1
          exact Or.inl (show x + m.width ≤ q.2.1 by omega)
        -- a later range
        · have low := (placed_within nonneg later q inside).2.1
          exact Or.inr (Or.inr (Or.inl (show ownY m children y + m.height ≤ q.2.2 by omega)))
      · have some : ¬children.top.isNone = true := fun empty => by
          rw [eq_nil_of_isNone empty] at first
          cases first
        have high := (placed_within nonneg above p first).2.2
        have low := (placed_within nonneg later q second).2.1
        rw [ownBottom, if_neg some] at low
        exact Or.inr (Or.inr (Or.inl (by omega)))

end Tree

/-- An entry is moved to a position. -/
def HistoryEntry.moveTo (e : HistoryEntry) (place : Int × Int) : HistoryEntry :=
  { e with x := place.1, y := place.2 }

/-- What the layout of placed entries leaves. -/
structure LaysOut (m : Measures) (h h' : History) (places : List (Nat × Int × Int)) : Prop where
  moved : ∀ p ∈ places, h'.memory p.1 = (h.memory p.1).map fun e => e.moveTo p.2
  kept : ∀ a, a ∉ places.map Prod.fst → h'.memory a = h.memory a
  fresh : h'.fresh = h.fresh
  start : h'.start = h.start
  current : h'.current = h.current
  wider : h.width ≤ h'.width
  wide : ∀ p ∈ places, p.2.1 + m.width ≤ h'.width

variable {m : Measures} {h h' h'' : History} {back : Option Nat} {t children next : SiblingTree Nat}
  {a : Nat} {x y : Int} {places more : List (Nat × Int × Int)}

theorem LaysOut.trans (first : LaysOut m h h' places) (second : LaysOut m h' h'' more)
    (disjoint : ∀ a ∈ places.map Prod.fst, a ∉ more.map Prod.fst) :
    LaysOut m h h'' (places ++ more) where
  moved p inside := by
    rcases List.mem_append.mp inside with inside | inside
    · rw [second.kept p.1 (disjoint p.1 (List.mem_map_of_mem inside)), first.moved p inside]
    · rw [second.moved p inside, first.kept p.1 fun other =>
        disjoint p.1 other (List.mem_map_of_mem inside)]
  kept b apart := by
    rw [List.map_append, List.mem_append, not_or] at apart
    rw [second.kept b apart.2, first.kept b apart.1]
  fresh := second.fresh.trans first.fresh
  start := second.start.trans first.start
  current := second.current.trans first.current
  wider := first.wider.trans second.wider
  wide p inside := by
    rcases List.mem_append.mp inside with inside | inside
    · exact (first.wide p inside).trans second.wider
    · exact second.wide p inside

theorem LaysOut.perm (laid : LaysOut m h h' places) (same : places.Perm more) :
    LaysOut m h h' more where
  moved p inside := laid.moved p (same.mem_iff.mpr inside)
  kept b apart := laid.kept b fun inside => apart ((same.map _).mem_iff.mp inside)
  fresh := laid.fresh
  start := laid.start
  current := laid.current
  wider := laid.wider
  wide p inside := laid.wide p (same.mem_iff.mpr inside)

/-- The links of the entries are kept. -/
theorem LaysOut.links (laid : LaysOut m h h' places) (b : Nat) :
    (h'.memory b).map HistoryEntry.links = (h.memory b).map HistoryEntry.links := by
  by_cases inside : b ∈ places.map Prod.fst
  · obtain ⟨p, placed, rfl⟩ := List.mem_map.mp inside
    rw [laid.moved p placed, Option.map_map]
    rfl
  · rw [laid.kept b inside]

/-- One entry is moved, and the history is wide enough for it. -/
theorem laysOut_moveTo (place : Int × Int) (wide : place.1 + m.width ≤ h.width) :
    LaysOut m h (h.modify a fun e => e.moveTo place) [(a, place)] where
  moved p inside := by
    rw [List.mem_singleton.mp inside]
    exact Function.update_self ..
  kept b apart := Function.update_of_ne (fun same => apart (by simp [same])) ..
  fresh := rfl
  start := rfl
  current := rfl
  wider := le_rfl
  wide p inside := by
    rw [List.mem_singleton.mp inside]
    exact wide

theorem laysOut_widen (w : Int) :
    LaysOut m h (if h.width < w then { h with width := w } else h) [] ∧
      w ≤ (if h.width < w then { h with width := w } else h).width := by
  split_ifs with narrow
  · exact ⟨⟨by simp, fun _ _ => rfl, rfl, rfl, rfl, narrow.le, by simp⟩, le_rfl⟩
  · exact ⟨⟨by simp, fun _ _ => rfl, rfl, rfl, rfl, le_rfl, by simp⟩, not_lt.mp narrow⟩

theorem placed_fst (t : SiblingTree Nat) (x y : Int) :
    (placed m t x y).nodes.map Prod.fst = t.nodes := by
  rw [← nodes_map, map_placed]

/-- One subtree is laid out, when its children are. -/
theorem layoutSubtree_run (rounds : Nat) {e : HistoryEntry} (found : h.memory a = some e)
    (forward : e.forward = children.top) (apart : a ∉ children.nodes)
    (run : ∀ h₀ : History, h₀.memory = h.memory → ∀ child, children.top = some child →
      ∃ h₁, History.layoutChildren m rounds h₀ child (x + m.width + m.rightMargin) y =
          some (h₁, bottom m children y) ∧
        LaysOut m h₀ h₁ (placed m children (x + m.width + m.rightMargin) y).nodes) :
    ∃ h', History.layoutSubtree m (rounds + 1) h a x y = some (h', ownBottom m children y) ∧
      LaysOut m h h' ((a, x, ownY m children y) ::
        (placed m children (x + m.width + m.rightMargin) y).nodes) := by
  obtain ⟨widened, wide⟩ := laysOut_widen (m := m) (h := h) (x + m.width)
  rw [History.layoutSubtree]
  generalize (if h.width < x + m.width then { h with width := x + m.width } else h) = h₀
    at widened wide ⊢
  have same : h₀.memory = h.memory := funext fun b => widened.kept b (by simp)
  simp only [same, found, Option.bind_eq_bind, Option.bind_some, forward]
  cases top : children.top with
  | none =>
      have empty : children = .nil := eq_nil_of_isNone (by rw [top]; rfl)
      subst empty
      exact ⟨_, rfl, widened.trans (laysOut_moveTo (x, y) wide) (by simp)⟩
  | some child =>
      obtain ⟨h₁, run₁, laid⟩ := run h₀ same child top
      have own : ownBottom m children y = bottom m children y := by
        rw [ownBottom, top, Option.isNone_some, if_neg Bool.false_ne_true]
      have middle : ownY m children y = (y + bottom m children y).tdiv 2 - m.height.tdiv 2 := by
        rw [ownY, top, Option.isNone_some, if_neg Bool.false_ne_true, own]
      refine ⟨h₁.modify a fun e => e.moveTo (x, ownY m children y), ?_, ?_⟩
      · simp only [run₁, Option.bind_some, own, middle]
        rfl
      · refine ((widened.trans laid (by simp)).trans
          (laysOut_moveTo (x, ownY m children y) (wide.trans laid.wider)) ?_).perm
          (List.perm_append_singleton ..)
        intro b inside here
        rw [List.nil_append, placed_fst] at inside
        have own : b = a := List.mem_singleton.mp here
        exact apart (own ▸ inside)

/-- Siblings are laid out one below the other, each with the entries below it. -/
theorem layoutChildren_run (rounds : Nat) (enough : 2 * t.nodes.length ≤ rounds)
    (holds : HoldsTree h.memory back t) (nodup : t.nodes.Nodup) (top : t.top = some a) :
    ∃ h', History.layoutChildren m rounds h a x y = some (h', bottom m t y) ∧
      LaysOut m h h' (placed m t x y).nodes := by
  induction t generalizing rounds h back a x y with
  | nil => cases top
  | cons b children next children_ih next_ih =>
      obtain rfl : b = a := Option.some.inj top
      obtain ⟨⟨e, found, links⟩, below, later⟩ := holds
      rw [nodes, List.length_cons, List.length_append] at enough
      rw [nodes, List.nodup_cons, List.nodup_append', List.mem_append, not_or] at nodup
      obtain ⟨⟨apart, apartNext⟩, nodupChildren, nodupNext, disjoint⟩ := nodup
      obtain ⟨r, rfl⟩ : ∃ r, rounds = r + 2 := ⟨rounds - 2, by omega⟩
      obtain ⟨h₁, run₁, laid₁⟩ := layoutSubtree_run (m := m) (x := x) (y := y) r found
        links.forward apart fun h₀ same child first =>
          children_ih r (by omega) (same ▸ below) nodupChildren first
      have fst : ((b, x, ownY m children y) ::
          (placed m children (x + m.width + m.rightMargin) y).nodes).map Prod.fst =
            b :: children.nodes := by
        rw [List.map_cons, placed_fst]
      have own : h₁.memory b = some (e.moveTo (x, ownY m children y)) := by
        rw [laid₁.moved _ List.mem_cons_self, found, Option.map_some]
      rw [History.layoutChildren, run₁]
      simp only [Option.bind_eq_bind, Option.bind_some, own, HistoryEntry.moveTo, links.next]
      cases after : next.top with
      | none =>
          have empty : next = .nil := eq_nil_of_isNone (by rw [after]; rfl)
          subst empty
          refine ⟨h₁, rfl, ?_⟩
          rw [placed, nodes, placed, nodes, List.append_nil]
          exact laid₁
      | some c =>
          obtain ⟨h₂, run₂, laid₂⟩ := next_ih (h := h₁) (x := x)
            (y := ownBottom m children y + m.bottomMargin) (r + 1) (by omega)
            (later.congr_links fun d _ => laid₁.links d) nodupNext after
          have whole : bottom m (.cons b children next) y =
              bottom m next (ownBottom m children y + m.bottomMargin) := by
            rw [bottom_cons, after, Option.isNone_some, if_neg Bool.false_ne_true]
          refine ⟨h₂, by simp only [run₂, whole], ?_⟩
          rw [placed, nodes, ← List.cons_append]
          refine laid₁.trans laid₂ fun d inside other => ?_
          rw [placed_fst] at other
          rw [fst] at inside
          rcases List.mem_cons.mp inside with rfl | inside
          · exact apartNext other
          · exact List.disjoint_left.mp disjoint inside other

/-- The height before the margin is added. -/
def wholeBottom (m : Measures) (t : SiblingTree Nat) : Int :=
  if t.top.isNone then 0 else bottom m t (m.bottomMargin.tdiv 2)

/-- The history after its entries were laid out. -/
def History.framed (h : History) (m : Measures) (t : SiblingTree Nat) : History :=
  { h with
    width := h.width + m.rightMargin.tdiv 2
    height := wholeBottom m t + m.bottomMargin.tdiv 2 }

/-- Every history tree is laid out. -/
theorem layout_run (tree : h.IsTree t) :
    ∃ h', h.layout m = some (h'.framed m t) ∧ LaysOut m { h with width := 0 } h'
      (placed m t (m.rightMargin.tdiv 2) (m.bottomMargin.tdiv 2)).nodes := by
  have start := tree.start
  have enough := tree.rounds
  cases t with
  | nil =>
      refine ⟨{ h with width := 0 }, ?_,
        ⟨List.forall_mem_nil _, fun _ _ => rfl, rfl, rfl, rfl, le_rfl, List.forall_mem_nil _⟩⟩
      rw [SiblingTree.top] at start
      simp only [History.layout, start, Option.bind_eq_bind, Option.bind_some]
      rfl
  | cons a children next =>
      obtain rfl : next = .nil := by
        have single := tree.single
        cases next with
        | nil => rfl
        | cons c below after => exact absurd single (by simp [toList])
      rw [SiblingTree.top] at start
      obtain ⟨⟨e, found, links⟩, below, -⟩ := tree.holds
      have nodup := tree.nodup
      rw [nodes, nodes, List.append_nil] at nodup enough
      rw [List.length_cons] at enough
      rw [List.nodup_cons] at nodup
      obtain ⟨r, count⟩ : ∃ r, h.rounds = r + 1 := ⟨h.rounds - 1, by omega⟩
      have count' : ({ h with width := 0 } : History).rounds = r + 1 := count
      obtain ⟨h₁, run, laid⟩ := layoutSubtree_run (m := m) (h := { h with width := 0 })
        (x := m.rightMargin.tdiv 2) (y := m.bottomMargin.tdiv 2) r found
        links.forward nodup.1 fun h₀ same child top =>
          layoutChildren_run r (by omega) (same ▸ below) nodup.2 top
      refine ⟨h₁, ?_, ?_⟩
      · rw [← count'] at run
        simp only [start] at run
        simp only [History.layout, start, Option.bind_eq_bind, Option.bind_some, run]
        rfl
      · rw [placed, placed, nodes, nodes, List.append_nil]
        exact laid

/-- A layout keeps the tree. -/
theorem LaysOut.isTree (laid : LaysOut m { h with width := 0 } h' places) (tree : h.IsTree t) :
    (h'.framed m t).IsTree t :=
  tree.congr laid.links laid.fresh laid.start laid.current

end Neosurf.LocalHistory
