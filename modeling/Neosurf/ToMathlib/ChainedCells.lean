/-
This file is about chains of cells under several heads, where each cell points back to the
pointer that points to it.
-/

import Neosurf.ToMathlib.LinkedCells

/-- A pointer in memory: a head, or the pointer to the next cell in a cell. -/
inductive ChainPlace (ι : Type*) where
  | head (i : ι)
  | next (a : Nat)

structure ChainCell (ι α : Type*) where
  prevptr : ChainPlace ι
  next : Option Nat
  data : α

structure ChainMemory (ι α : Type*) where
  heads : ι → Option Nat
  cells : Nat → Option (ChainCell ι α)

namespace ChainMemory

open CellMemory (headOf headOf_nil headOf_cons headOf_append headOf_mem)

variable {ι α : Type*}

/-- The cell behind a pointer is changed, unless the pointer is missing. -/
def modify (m : ChainMemory ι α) (pointer : Option Nat)
    (change : ChainCell ι α → ChainCell ι α) : ChainMemory ι α :=
  match pointer with
  | none => m
  | some a => { m with cells := Function.update m.cells a ((m.cells a).map change) }

def setPrevptr (m : ChainMemory ι α) (pointer : Option Nat) (prevptr : ChainPlace ι) :
    ChainMemory ι α :=
  m.modify pointer fun cell => { cell with prevptr }

def setData (m : ChainMemory ι α) (a : Nat) (data : α) : ChainMemory ι α :=
  m.modify (some a) fun cell => { cell with data }

/-- The cell at an address is freed. -/
def free (m : ChainMemory ι α) (a : Nat) : ChainMemory ι α :=
  { m with cells := Function.update m.cells a none }

section Operations

variable [DecidableEq ι]

/-- A pointer is written through a pointer to it. -/
def store (m : ChainMemory ι α) (place : ChainPlace ι) (pointer : Option Nat) : ChainMemory ι α :=
  match place with
  | .head i => { m with heads := Function.update m.heads i pointer }
  | .next a => m.modify (some a) fun cell => { cell with next := pointer }

/-- A new cell becomes the first one of its chain. -/
def push (m : ChainMemory ι α) (i : ι) (a : Nat) (data : α) : ChainMemory ι α :=
  let next := m.heads i
  let new : ChainMemory ι α :=
    { m with cells := Function.update m.cells a (some ⟨.head i, next, data⟩) }
  (new.setPrevptr next (.next a)).store (.head i) (some a)

/-- A cell is taken out of its chain and freed. -/
def unlink (m : ChainMemory ι α) (a : Nat) (cell : ChainCell ι α) : ChainMemory ι α :=
  ((m.setPrevptr cell.next cell.prevptr).store cell.prevptr cell.next).free a

end Operations

/-- The first cell from a pointer on whose data passes the test. The rounds bound the length of
the chain. -/
def find (m : ChainMemory ι α) (test : α → Bool) : Nat → Option Nat → Option (Nat × ChainCell ι α)
  | _, none => none
  | 0, some _ => none
  | rounds + 1, some a =>
      match m.cells a with
      | none => none
      | some cell => if test cell.data then some (a, cell) else m.find test rounds cell.next

/-- The data of the cells from a pointer on are shown to a function until it answers true. -/
def visit {σ : Type*} (m : ChainMemory ι α) (see : α → σ → Bool × σ) :
    Nat → Option Nat → σ → Bool × σ
  | _, none, s => (false, s)
  | 0, some _, s => (false, s)
  | rounds + 1, some a, s =>
      match m.cells a with
      | none => (false, s)
      | some cell =>
          match see cell.data s with
          | (true, s) => (true, s)
          | (false, s) => m.visit see rounds cell.next s

/-- The place that points to the cell after these ones. -/
def placeAfter : ChainPlace ι → List (Nat × α) → ChainPlace ι
  | place, [] => place
  | _, (a, _) :: rest => placeAfter (.next a) rest

/-- The cells stand in this order between a pointer to the first one and a cell after them. -/
def Linked (cells : Nat → Option (ChainCell ι α)) :
    ChainPlace ι → List (Nat × α) → Option Nat → Prop
  | _, [], _ => True
  | place, (a, x) :: rest, after =>
      cells a = some ⟨place, (headOf rest).or after, x⟩ ∧ Linked cells (.next a) rest after

/-- The memory holds these chains, which share no cell. -/
structure Holds (m : ChainMemory ι α) (chains : ι → List (Nat × α)) : Prop where
  heads : ∀ i, m.heads i = headOf (chains i)
  linked : ∀ i, Linked m.cells (.head i) (chains i) none
  nodup : ∀ i, ((chains i).map Prod.fst).Nodup
  apart : ∀ i j a, a ∈ (chains i).map Prod.fst → a ∈ (chains j).map Prod.fst → i = j

variable {m : ChainMemory ι α} {cells cells' : Nat → Option (ChainCell ι α)}
  {place place' : ChainPlace ι} {xs ys : List (Nat × α)} {after : Option Nat} {a : Nat} {x y : α}

theorem linked_append : Linked cells place (xs ++ ys) after ↔
    Linked cells place xs ((headOf ys).or after) ∧ Linked cells (placeAfter place xs) ys after := by
  induction xs generalizing place with
  | nil => simp [Linked, placeAfter]
  | cons pair rest ih =>
      obtain ⟨a, x⟩ := pair
      rw [List.cons_append, Linked, Linked, ih, headOf_append, Option.or_assoc, placeAfter,
        and_assoc]

/-- A chain does not depend on the cells elsewhere. -/
theorem linked_congr (same : ∀ a ∈ xs.map Prod.fst, cells' a = cells a)
    (linked : Linked cells place xs after) : Linked cells' place xs after := by
  induction xs generalizing place with
  | nil => trivial
  | cons pair rest ih =>
      obtain ⟨a, x⟩ := pair
      refine ⟨?_, ih (fun b inside => same b (List.mem_cons_of_mem _ inside)) linked.2⟩
      rw [same a List.mem_cons_self]
      exact linked.1

theorem modify_other {pointer : Option Nat} {change : ChainCell ι α → ChainCell ι α}
    (other : pointer ≠ some a) : (m.modify pointer change).cells a = m.cells a := by
  cases pointer with
  | none => rfl
  | some b =>
      apply Function.update_of_ne
      rintro rfl
      exact other rfl

@[simp] theorem heads_modify (pointer : Option Nat) (change : ChainCell ι α → ChainCell ι α) :
    (m.modify pointer change).heads = m.heads := by
  cases pointer <;> rfl

/-- The first cell is reached through another place. -/
theorem linked_setPrevptr (place' : ChainPlace ι) (nodup : (xs.map Prod.fst).Nodup)
    (linked : Linked m.cells place xs after) :
    Linked (m.setPrevptr (headOf xs) place').cells place' xs after := by
  cases xs with
  | nil => trivial
  | cons pair rest =>
      obtain ⟨a, x⟩ := pair
      rw [List.map_cons, List.nodup_cons] at nodup
      constructor
      · simp [setPrevptr, modify, linked.1]
      · apply linked_congr _ linked.2
        intro b inside
        apply modify_other
        rintro same
        cases same
        exact nodup.1 inside

/-- A chain whose cells are none of those behind a pointer stays as it is. -/
theorem linked_modify {pointer : Option Nat} {change : ChainCell ι α → ChainCell ι α}
    (other : ∀ a ∈ xs.map Prod.fst, pointer ≠ some a) (linked : Linked m.cells place xs after) :
    Linked (m.modify pointer change).cells place xs after :=
  linked_congr (fun a inside => modify_other (other a inside)) linked

theorem linked_update {cell : Option (ChainCell ι α)} (other : a ∉ xs.map Prod.fst)
    (linked : Linked cells place xs after) :
    Linked (Function.update cells a cell) place xs after := by
  apply linked_congr _ linked
  intro b inside
  apply Function.update_of_ne
  rintro rfl
  exact other inside

theorem placeAfter_append_singleton : placeAfter place (xs ++ [(a, x)]) = .next a := by
  induction xs generalizing place with
  | nil => rfl
  | cons pair rest ih => exact ih

/-- A chain with cells is ended by the `next` of its last cell. -/
theorem placeAfter_cases (place : ChainPlace ι) (xs : List (Nat × α)) :
    xs = [] ∧ placeAfter place xs = place ∨
      ∃ front a x, xs = front ++ [(a, x)] ∧ placeAfter place xs = .next a := by
  induction xs using List.reverseRecOn with
  | nil => exact Or.inl ⟨rfl, rfl⟩
  | append_singleton front pair _ =>
      exact Or.inr ⟨front, pair.1, pair.2, rfl, placeAfter_append_singleton⟩

/-- The `next` of the last cell is changed. -/
theorem linked_setNext {after' : Option Nat} {front : List (Nat × α)}
    (nodup : ((front ++ [(a, x)]).map Prod.fst).Nodup)
    (linked : Linked m.cells place (front ++ [(a, x)]) after) :
    Linked (m.modify (some a) fun cell => { cell with next := after' }).cells place
      (front ++ [(a, x)]) after' := by
  rw [List.map_append, List.nodup_append] at nodup
  obtain ⟨left, here, _⟩ := linked_append.mp linked
  refine linked_append.mpr ⟨linked_modify ?_ left, ?_, trivial⟩
  · intro b inside same
    cases same
    exact nodup.2.2 a inside a List.mem_cons_self rfl
  · simp [modify, here]

theorem cells_free_other {b : Nat} (other : b ≠ a) : (m.free a).cells b = m.cells b :=
  Function.update_of_ne other ..

section Holds

variable {chains : ι → List (Nat × α)} {i j : ι}

/-- What a chain says about its cell in the middle. -/
theorem Holds.split (holds : m.Holds chains) (chain : chains i = xs ++ (a, x) :: ys) :
    ((xs ++ ys).map Prod.fst).Nodup ∧ a ∉ (xs ++ ys).map Prod.fst ∧
      Linked m.cells (.head i) xs (some a) ∧
      m.cells a = some ⟨placeAfter (.head i) xs, headOf ys, x⟩ ∧
      Linked m.cells (.next a) ys none := by
  have linked := holds.linked i
  have nodup := holds.nodup i
  rw [chain] at linked nodup
  obtain ⟨left, here, right⟩ := linked_append.mp linked
  rw [List.map_append, List.map_cons, List.nodup_middle, ← List.map_append, List.nodup_cons] at nodup
  rw [Option.or_none] at here left
  exact ⟨nodup.2, nodup.1, left, here, right⟩

/-- An address of one chain is in no other one. -/
theorem Holds.notMem (holds : m.Holds chains) (other : j ≠ i)
    (inside : a ∈ (chains i).map Prod.fst) : a ∉ (chains j).map Prod.fst :=
  fun there => other (holds.apart j i a there inside)

variable [DecidableEq ι]

/-- What the memory holds of one chain after another one has changed. -/
theorem Holds.of_chain {m' : ChainMemory ι α} {chain : List (Nat × α)} (holds : m.Holds chains)
    (heads : m'.heads = Function.update m.heads i (headOf chain))
    (linked : Linked m'.cells (.head i) chain none) (nodup : (chain.map Prod.fst).Nodup)
    (others : ∀ j, j ≠ i → ∀ a ∈ (chains j).map Prod.fst, m'.cells a = m.cells a)
    (new : ∀ a ∈ chain.map Prod.fst, a ∈ (chains i).map Prod.fst ∨
      ∀ j, a ∉ (chains j).map Prod.fst) :
    m'.Holds (Function.update chains i chain) where
  heads j := by
    rw [heads, Function.update_apply, Function.update_apply]
    split
    · rfl
    · exact holds.heads j
  linked j := by
    rw [Function.update_apply]
    split
    · rename_i same
      rw [same]
      exact linked
    · rename_i other
      exact linked_congr (others j other) (holds.linked j)
  nodup j := by
    rw [Function.update_apply]
    split
    · exact nodup
    · exact holds.nodup j
  apart j k a left right := by
    rw [Function.update_apply] at left right
    split at left <;> split at right
    · rename_i first second
      rw [first, second]
    · rename_i first second
      rcases new a left with old | fresh
      · rw [first]
        exact holds.apart i k a old right
      · exact absurd right (fresh k)
    · rename_i first second
      rcases new a right with old | fresh
      · rw [second]
        exact holds.apart j i a left old
      · exact absurd left (fresh j)
    · exact holds.apart j k a left right

theorem Holds.push (holds : m.Holds chains) (fresh : ∀ j, a ∉ (chains j).map Prod.fst) :
    (m.push i a x).Holds (Function.update chains i ((a, x) :: chains i)) := by
  have head := holds.heads i
  apply holds.of_chain
  · rw [ChainMemory.push, store, setPrevptr, heads_modify]
    rfl
  · refine ⟨?_, ?_⟩
    · rw [Option.or_none, ← head, ChainMemory.push, store, setPrevptr, modify_other]
      · exact Function.update_self ..
      · rw [head]
        intro same
        exact fresh i (headOf_mem same)
    · rw [ChainMemory.push, head]
      exact linked_setPrevptr _ (holds.nodup i)
        (m := { m with cells := Function.update m.cells a (some ⟨.head i, headOf (chains i), x⟩) })
        (linked_update (fresh i) (holds.linked i))
  · exact List.nodup_cons.mpr ⟨fresh i, holds.nodup i⟩
  · intro j other b inside
    rw [ChainMemory.push, store, setPrevptr, modify_other]
    · apply Function.update_of_ne
      rintro rfl
      exact fresh j inside
    · rw [head]
      intro same
      exact holds.notMem other (headOf_mem same) inside
  · rintro b (_ | ⟨_, inside⟩)
    · exact Or.inr fresh
    · exact Or.inl inside

theorem Holds.unlink {cell : ChainCell ι α} (holds : m.Holds chains)
    (chain : chains i = xs ++ (a, x) :: ys) (here : m.cells a = some cell) :
    (m.unlink a cell).Holds (Function.update chains i (xs ++ ys)) := by
  obtain ⟨nodup, gone, left, there, right⟩ := holds.split chain
  rw [there, Option.some.injEq] at here
  subst here
  have parts := nodup
  rw [List.map_append, List.nodup_append] at parts
  rw [List.map_append, List.mem_append, not_or] at gone
  have inside : ∀ b ∈ (xs ++ ys).map Prod.fst, b ∈ (chains i).map Prod.fst := by
    intro b member
    rw [chain]
    simp only [List.map_append, List.map_cons, List.mem_append, List.mem_cons] at member ⊢
    tauto
  have self : a ∈ (chains i).map Prod.fst := by simp [chain]
  -- Both parts after the first cell of the second one points back to the first part.
  have first : Linked (m.setPrevptr (headOf ys) (placeAfter (.head i) xs)).cells (.head i) xs
      (some a) := by
    apply linked_modify _ left
    intro b member same
    exact parts.2.2 b member b (headOf_mem same) rfl
  have second := linked_setPrevptr (placeAfter (.head i) xs) parts.2.1 right
  have heads : m.heads i = headOf (xs ++ (a, x) :: ys) := chain ▸ holds.heads i
  have others (pointer : Option Nat) (change : ChainCell ι α → ChainCell ι α) (j : ι)
      (other : j ≠ i) (b : Nat) (member : b ∈ (chains j).map Prod.fst)
      (of : ∀ c, pointer = some c → c ∈ (chains i).map Prod.fst) (m' : ChainMemory ι α) :
      (m'.modify pointer change).cells b = m'.cells b := by
    apply modify_other
    intro same
    exact holds.notMem other (of b same) member
  have after (c : Nat) (same : headOf ys = some c) : c ∈ (chains i).map Prod.fst := by
    apply inside
    rw [List.map_append, List.mem_append]
    exact Or.inr (headOf_mem same)
  apply holds.of_chain
  · rcases placeAfter_cases (ι := ι) (.head i) xs with ⟨rfl, place⟩ | ⟨front, b, z, rfl, place⟩
    · rw [ChainMemory.unlink, place]
      simp [store, free, setPrevptr]
    · rw [ChainMemory.unlink, place]
      funext j
      by_cases same : j = i
      · subst same
        simp [store, free, setPrevptr, heads]
      · simp [store, free, setPrevptr, Function.update_of_ne same]
  · rw [linked_append, Option.or_none]
    refine ⟨linked_update gone.1 ?_, linked_update gone.2 ?_⟩
    · rcases placeAfter_cases (ι := ι) (.head i) xs with ⟨rfl, place⟩ | ⟨front, b, z, rfl, place⟩
      · trivial
      · rw [place] at first ⊢
        exact linked_setNext parts.1 first
    · rcases placeAfter_cases (ι := ι) (.head i) xs with ⟨rfl, place⟩ | ⟨front, b, z, rfl, place⟩
      · rw [place] at second ⊢
        exact second
      · rw [place] at second ⊢
        apply linked_modify _ second
        rintro c member same
        cases same
        exact parts.2.2 b (by simp) b member rfl
  · exact nodup
  · intro j other b member
    have different : b ≠ a := by
      rintro rfl
      exact holds.notMem other self member
    rw [ChainMemory.unlink, cells_free_other different]
    rcases placeAfter_cases (ι := ι) (.head i) xs with ⟨rfl, place⟩ | ⟨front, c, z, rfl, place⟩
    · rw [place]
      exact others _ _ j other b member after m
    · rw [place, store, others _ _ j other b member ?_ _]
      · exact others _ _ j other b member after m
      · rintro d same
        cases same
        apply inside
        simp
  · intro b member
    exact Or.inl (inside b member)

theorem Holds.setData (holds : m.Holds chains) (chain : chains i = xs ++ (a, x) :: ys) :
    (m.setData a y).Holds (Function.update chains i (xs ++ (a, y) :: ys)) := by
  obtain ⟨nodup, gone, left, there, right⟩ := holds.split chain
  rw [List.map_append, List.mem_append, not_or] at gone
  have addresses : (xs ++ (a, y) :: ys).map Prod.fst = (chains i).map Prod.fst := by
    simp [chain]
  have self : a ∈ (chains i).map Prod.fst := by simp [chain]
  have heads : m.heads i = headOf (xs ++ (a, y) :: ys) := by
    rw [holds.heads i, chain, headOf_append, headOf_append, headOf_cons, headOf_cons]
  apply holds.of_chain
  · rw [ChainMemory.setData, heads_modify, ← heads, Function.update_eq_self]
  · refine linked_append.mpr ⟨linked_modify ?_ ?_, ?_, linked_modify ?_ right⟩
    · rintro b member same
      cases same
      exact gone.1 member
    · rw [Option.or_none]
      exact left
    · simp [ChainMemory.setData, modify, there]
    · rintro b member same
      cases same
      exact gone.2 member
  · rw [addresses]
    exact holds.nodup i
  · intro j other b member
    apply modify_other
    rintro same
    cases same
    exact holds.notMem other self member
  · rw [addresses]
    exact fun b member => Or.inl member

end Holds

/-- A search finds the first cell of a chain that passes the test. -/
theorem find_linked (test : α → Bool) {rounds : Nat} (linked : Linked m.cells place xs none)
    (enough : xs.length ≤ rounds) :
    m.find test rounds (headOf xs) = none ∧ (∀ pair ∈ xs, test pair.2 = false) ∨
      ∃ ys a x zs cell, xs = ys ++ (a, x) :: zs ∧ (∀ pair ∈ ys, test pair.2 = false) ∧
        test x = true ∧ m.cells a = some cell ∧ cell.data = x ∧
        m.find test rounds (headOf xs) = some (a, cell) := by
  induction xs generalizing place rounds with
  | nil =>
      left
      refine ⟨?_, by simp⟩
      cases rounds <;> rfl
  | cons pair rest ih =>
      obtain ⟨a, x⟩ := pair
      cases rounds with
      | zero => exact absurd enough (by simp)
      | succ rounds =>
          have here := linked.1
          rw [Option.or_none] at here
          have step : m.find test (rounds + 1) (headOf ((a, x) :: rest)) =
              if test x then some (a, ⟨place, headOf rest, x⟩)
              else m.find test rounds (headOf rest) := by
            rw [headOf_cons, find, here]
          rw [step]
          by_cases passed : test x = true
          · rw [if_pos passed]
            exact Or.inr ⟨[], a, x, rest, _, rfl, by simp, passed, here, rfl, rfl⟩
          · rw [if_neg passed]
            rw [List.length_cons, Nat.add_le_add_iff_right] at enough
            rw [Bool.not_eq_true] at passed
            rcases ih linked.2 enough with ⟨absent, fails⟩ | ⟨ys, b, y, zs, cell, rfl, early, here, rest⟩
            · refine Or.inl ⟨absent, ?_⟩
              rintro pair (_ | ⟨_, inside⟩)
              · exact passed
              · exact fails pair inside
            · refine Or.inr ⟨(a, x) :: ys, b, y, zs, cell, rfl, ?_, here, rest⟩
              rintro pair (_ | ⟨_, inside⟩)
              · exact passed
              · exact early pair inside

/-- The elements of a list are shown to a function until it answers true. -/
def visitList {σ : Type*} (see : α → σ → Bool × σ) : List α → σ → Bool × σ
  | [], s => (false, s)
  | x :: rest, s =>
      match see x s with
      | (true, s) => (true, s)
      | (false, s) => visitList see rest s

/-- A visit of a chain is one of the list of its data. -/
theorem visit_linked {σ : Type*} (see : α → σ → Bool × σ) {rounds : Nat} (s : σ)
    (linked : Linked m.cells place xs none) (enough : xs.length ≤ rounds) :
    m.visit see rounds (headOf xs) s = visitList see (xs.map Prod.snd) s := by
  induction xs generalizing place rounds s with
  | nil => cases rounds <;> rfl
  | cons pair rest ih =>
      obtain ⟨a, x⟩ := pair
      cases rounds with
      | zero => exact absurd enough (by simp)
      | succ rounds =>
          have here := linked.1
          rw [Option.or_none] at here
          rw [List.length_cons, Nat.add_le_add_iff_right] at enough
          rw [headOf_cons, visit, here, List.map_cons, visitList]
          dsimp only
          cases answer : see x s with
          | mk stop s =>
              cases stop with
              | true => rfl
              | false => exact ih s linked.2 enough

/-- Two lists are visited one after the other. -/
theorem visitList_append {σ : Type*} (see : α → σ → Bool × σ) (l r : List α) (s : σ) :
    visitList see (l ++ r) s =
      match visitList see l s with
      | (true, s) => (true, s)
      | (false, s) => visitList see r s := by
  induction l generalizing s with
  | nil => rfl
  | cons x rest ih =>
      rw [List.cons_append, visitList, visitList]
      cases see x s with
      | mk stop s =>
          cases stop with
          | true => rfl
          | false => exact ih s

theorem visitList_map {β σ : Type*} (see : β → σ → Bool × σ) (f : α → β) (l : List α) (s : σ) :
    visitList see (l.map f) s = visitList (fun a => see (f a)) l s := by
  induction l generalizing s with
  | nil => rfl
  | cons x rest ih =>
      rw [List.map_cons, visitList, visitList]
      cases see (f x) s with
      | mk stop s =>
          cases stop with
          | true => rfl
          | false => exact ih s

end ChainMemory
