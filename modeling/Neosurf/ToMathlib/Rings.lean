/-
This file is about rings: doubly linked lists whose last cell is followed by the first one.
-/

import Neosurf.ToMathlib.LinkedCells

namespace CellMemory

variable {α : Type*}

/-- The data behind an address is changed. -/
def setData (m : CellMemory α) (a : Nat) (change : α → α) : CellMemory α :=
  m.modify (some a) fun cell => { cell with data := change cell.data }

/-- A cell outside of all rings enters a ring as its last one. -/
def ringInsert (m : CellMemory α) (ring : Option Nat) (element : Nat) :
    CellMemory α × Option Nat :=
  match ring with
  | some r =>
      let prev := (m r).bind LinkedCell.prev
      let m := (m.setNext (some element) ring).setPrev (some element) prev
      ((m.setPrev ring (some element)).setNext prev (some element), ring)
  | none =>
      ((m.setNext (some element) (some element)).setPrev (some element) (some element),
        some element)

/-- A cell leaves a ring. -/
def ringRemove (m : CellMemory α) (ring : Option Nat) (element : Nat) (cell : LinkedCell α) :
    CellMemory α × Option Nat :=
  let left := if cell.next ≠ some element then
      ((m.setPrev cell.next cell.prev).setNext cell.prev cell.next,
        if ring = some element then cell.next else ring)
    else (m, none)
  ((left.1.setPrev (some element) none).setNext (some element) none, left.2)

/-- The cells from one of a ring on, until the first one comes again. -/
def ringWalk (m : CellMemory α) (first : Nat) : Nat → Nat → List (Nat × α)
  | 0, _ => []
  | rounds + 1, a =>
      match m a with
      | none => []
      | some cell =>
          (a, cell.data) ::
            match cell.next with
            | none => []
            | some b => if b = first then [] else m.ringWalk first rounds b

/-- The cells of a ring. -/
def ringCells (m : CellMemory α) (rounds : Nat) : Option Nat → List (Nat × α)
  | none => []
  | some first => m.ringWalk first rounds first

/-- The cells stand in this order from the one that the ring's pointer leads to. -/
structure IsRing (m : CellMemory α) (ring : Option Nat) (xs : List (Nat × α)) : Prop where
  nodup : (xs.map Prod.fst).Nodup
  linked : m.Linked (lastOf xs) xs (headOf xs)
  head : ring = headOf xs

variable {m m' : CellMemory α} {ring : Option Nat} {xs ys : List (Nat × α)} {a b : Nat} {x y : α}
  {cell : LinkedCell α}

theorem isRing_nil : m.IsRing none [] := ⟨.nil, trivial, rfl⟩

/-- A ring does not depend on the memory elsewhere. -/
theorem IsRing.congr (isRing : m.IsRing ring xs) (same : ∀ a ∈ xs.map Prod.fst, m' a = m a) :
    m'.IsRing ring xs :=
  ⟨isRing.nodup, linked_congr same isRing.linked, isRing.head⟩

theorem exists_ends (filled : xs ≠ []) :
    ∃ first last, headOf xs = some first ∧ lastOf xs = some last := by
  obtain ⟨first, head⟩ := Option.ne_none_iff_exists'.mp (mt headOf_eq_none.mp filled)
  obtain ⟨last, ended⟩ := Option.ne_none_iff_exists'.mp (mt lastOf_eq_none.mp filled)
  exact ⟨first, last, head, ended⟩

/-- A ring may be cut open anywhere. -/
theorem linked_rotate (closed : m.Linked (lastOf (xs ++ ys)) (xs ++ ys) (headOf (xs ++ ys))) :
    m.Linked (lastOf (ys ++ xs)) (ys ++ xs) (headOf (ys ++ xs)) := by
  by_cases left : xs = []
  · rw [left, List.nil_append] at closed
    rw [left, List.append_nil]
    exact closed
  by_cases right : ys = []
  · rw [right, List.append_nil] at closed
    rw [right, List.nil_append]
    exact closed
  obtain ⟨first, last, head, ended⟩ := exists_ends left
  obtain ⟨first', last', head', ended'⟩ := exists_ends right
  simp only [linked_append, headOf_append, lastOf_append, head, head', ended, ended',
    Option.some_or] at closed ⊢
  exact closed.symm

/-- What a ring says about its cell between two parts. -/
theorem IsRing.split (isRing : m.IsRing ring (xs ++ (a, x) :: ys)) :
    ((xs ++ ys).map Prod.fst).Nodup ∧ a ∉ (xs ++ ys).map Prod.fst ∧
      m a = some ⟨(lastOf (ys ++ xs)).or (some a), (headOf (ys ++ xs)).or (some a), x⟩ ∧
      m.Linked (some a) (ys ++ xs) (some a) := by
  have nodup := isRing.nodup
  rw [List.map_append, List.map_cons, List.nodup_middle, ← List.map_append, List.nodup_cons] at nodup
  have rotated := linked_rotate isRing.linked
  rw [List.cons_append, lastOf_cons, headOf_cons] at rotated
  exact ⟨nodup.2, nodup.1, rotated.1, rotated.2⟩

/-- Each cell of a ring leads to one of its cells. -/
theorem IsRing.mem (isRing : m.IsRing ring xs) (inside : (a, x) ∈ xs) :
    ∃ prev next, m a = some ⟨some prev, some next, x⟩ := by
  obtain ⟨l, r, rfl⟩ := List.append_of_mem inside
  obtain ⟨_, _, here, _⟩ := isRing.split
  refine ⟨(lastOf (r ++ l)).getD a, (headOf (r ++ l)).getD a, ?_⟩
  rw [here]
  cases lastOf (r ++ l) <;> cases headOf (r ++ l) <;> rfl

/-- A cell that is in no ring enters one at its end. -/
theorem IsRing.insert (isRing : m.IsRing ring xs) (fresh : a ∉ xs.map Prod.fst)
    (here : m a = some cell) :
    (m.ringInsert ring a).1.IsRing (m.ringInsert ring a).2 (xs ++ [(a, cell.data)]) := by
  cases xs with
  | nil =>
      rw [isRing.head]
      refine ⟨List.nodup_singleton a, ⟨?_, trivial⟩, rfl⟩
      simp [ringInsert, setNext, setPrev, modify, here, lastOf]
  | cons pair rest =>
      obtain ⟨r, z⟩ := pair
      obtain ⟨_, last, _, ended⟩ := exists_ends (List.cons_ne_nil (r, z) rest)
      have inside := lastOf_mem ended
      have different : last ≠ a := by
        rintro rfl
        exact fresh inside
      have first : r ≠ a := by
        rintro rfl
        exact fresh List.mem_cons_self
      have start := isRing.linked.1
      have head : ring = some r := isRing.head
      have prev : (m r).bind LinkedCell.prev = some last := by
        rw [start, Option.bind_some, ended]
      have memory : (m.ringInsert ring a).1 =
          ((((m.setNext (some a) (some r)).setPrev (some a) (some last)).setPrev
            (headOf ((r, z) :: rest)) (some a)).setNext (lastOf ((r, z) :: rest)) (some a)) := by
        rw [head, ringInsert, prev, ended]
        rfl
      have outside : ((m.setNext (some a) (some r)).setPrev (some a) (some last)).Linked
          (some last) ((r, z) :: rest) (some r) := by
        have linked := isRing.linked
        rw [ended, headOf_cons] at linked
        apply linked_congr _ linked
        intro b member
        have other : some a ≠ some b := by
          rintro same
          cases same
          exact fresh member
        rw [setPrev, modify_other other, setNext, modify_other other]
      have pointer : (m.ringInsert ring a).2 = some r := by
        rw [head, ringInsert]
      refine ⟨?_, ?_, ?_⟩
      · rw [List.map_append, List.nodup_append]
        refine ⟨isRing.nodup, List.nodup_singleton a, ?_⟩
        intro b member c new
        rw [List.mem_singleton.mp new]
        rintro rfl
        exact fresh member
      · rw [memory, linked_append, lastOf_append, ended]
        refine ⟨?_, ?_, trivial⟩
        · have fixed := linked_setNext (some a) isRing.nodup
            (linked_setPrev (some a) isRing.nodup outside)
          rw [ended] at fixed
          exact fixed
        · have other : some last ≠ some a := fun same => different (Option.some.inj same)
          have other' : some r ≠ some a := fun same => first (Option.some.inj same)
          rw [headOf_cons, setNext, modify_other other, setPrev, modify_other other']
          simp [setNext, setPrev, modify, here]
      · rw [pointer]
        rfl

/-- A ring without one of its cells, which points nowhere any more. -/
theorem IsRing.remove (isRing : m.IsRing ring (xs ++ (a, x) :: ys)) (here : m a = some cell) :
    (m.ringRemove ring a cell).1.IsRing (m.ringRemove ring a cell).2 (xs ++ ys) ∧
      (m.ringRemove ring a cell).1 a = some ⟨none, none, x⟩ := by
  obtain ⟨nodup, gone, there, linked⟩ := isRing.split
  rw [there, Option.some.injEq] at here
  subst here
  have zeroed (m' : CellMemory α) (same : ∃ prev next, m' a = some ⟨prev, next, x⟩) :
      (m'.setPrev (some a) none).setNext (some a) none a = some ⟨none, none, x⟩ := by
    obtain ⟨prev, next, same⟩ := same
    simp [setNext, setPrev, modify, same]
  have outside (m' : CellMemory α) (ring' : Option Nat) (rest : m'.IsRing ring' (xs ++ ys)) :
      ((m'.setPrev (some a) none).setNext (some a) none).IsRing ring' (xs ++ ys) := by
    apply rest.congr
    intro b member
    have other : some a ≠ some b := by
      rintro same
      cases same
      exact gone member
    rw [setNext, modify_other other, setPrev, modify_other other]
  have members : ∀ b, b ∈ (ys ++ xs).map Prod.fst → b ∈ (xs ++ ys).map Prod.fst := by
    intro b member
    rw [List.map_append, List.mem_append] at member ⊢
    exact member.symm
  by_cases alone : ys ++ xs = []
  · obtain ⟨rfl, rfl⟩ := List.append_eq_nil_iff.mp alone
    have left : m.ringRemove ring a ⟨some a, some a, x⟩ =
        ((m.setPrev (some a) none).setNext (some a) none, none) := by
      simp [ringRemove]
    rw [List.append_nil, lastOf_nil, headOf_nil, Option.none_or, left]
    exact ⟨outside m none isRing_nil, zeroed m ⟨_, _, there⟩⟩
  · obtain ⟨next, last, first, ended⟩ := exists_ends alone
    have different : next ≠ a := by
      rintro rfl
      exact gone (members next (headOf_mem first))
    have different' : last ≠ a := by
      rintro rfl
      exact gone (members last (lastOf_mem ended))
    have nodup' : ((ys ++ xs).map Prod.fst).Nodup := by
      rw [List.map_append] at nodup ⊢
      exact List.nodup_append_comm.mp nodup
    rw [first, ended, Option.some_or, Option.some_or] at there ⊢
    have joined : ((m.setPrev (some next) (some last)).setNext (some last) (some next)).Linked
        (some last) (ys ++ xs) (some next) := by
      have fixed := linked_setNext (some next) nodup' (linked_setPrev (some last) nodup' linked)
      rw [first, ended] at fixed
      exact fixed
    have rest : ((m.setPrev (some next) (some last)).setNext (some last) (some next)).IsRing
        (if ring = some a then some next else ring) (xs ++ ys) := by
      refine ⟨nodup, linked_rotate (by rw [first, ended]; exact joined), ?_⟩
      have head := isRing.head
      cases xs with
      | nil =>
          rw [List.append_nil] at first
          rw [List.nil_append, first]
          exact if_pos head
      | cons pair others =>
          have apart : some pair.1 ≠ some a := by
            intro same
            cases same
            exact gone List.mem_cons_self
          rw [head]
          exact if_neg apart
    have kept : ((m.setPrev (some next) (some last)).setNext (some last) (some next)) a = m a := by
      rw [setNext, modify_other (by simpa using different'), setPrev,
        modify_other (by simpa using different)]
    have left : m.ringRemove ring a ⟨some last, some next, x⟩ =
        ((((m.setPrev (some next) (some last)).setNext (some last) (some next)).setPrev (some a)
          none).setNext (some a) none, if ring = some a then some next else ring) := by
      simp [ringRemove, different]
    rw [left]
    exact ⟨outside _ _ rest, zeroed _ ⟨_, _, kept.trans there⟩⟩

/-- Nothing outside of a ring changes when a cell leaves it. -/
theorem IsRing.remove_other (isRing : m.IsRing ring (xs ++ (a, x) :: ys)) (here : m a = some cell)
    (other : b ∉ (xs ++ (a, x) :: ys).map Prod.fst) :
    (m.ringRemove ring a cell).1 b = m b := by
  obtain ⟨_, _, there, _⟩ := isRing.split
  rw [there, Option.some.injEq] at here
  subst here
  have self : some a ≠ some b := by
    rintro same
    cases same
    exact other (by simp)
  have around (c : Nat) (member : c ∈ (ys ++ xs).map Prod.fst) : some c ≠ some b := by
    rintro same
    cases same
    rw [List.map_append, List.map_cons, List.mem_append, List.mem_cons] at other
    rw [List.map_append, List.mem_append] at member
    tauto
  have next : (headOf (ys ++ xs)).or (some a) ≠ some b := by
    cases first : headOf (ys ++ xs) with
    | none => exact self
    | some c => exact around c (headOf_mem first)
  have prev : (lastOf (ys ++ xs)).or (some a) ≠ some b := by
    cases ended : lastOf (ys ++ xs) with
    | none => exact self
    | some c => exact around c (lastOf_mem ended)
  rw [ringRemove]
  dsimp only
  rw [setNext, modify_other self, setPrev, modify_other self]
  split
  · dsimp only
    rw [setNext, modify_other prev, setPrev, modify_other next]
  · rfl

/-- Nothing outside of a ring changes when a cell enters it. -/
theorem IsRing.insert_other (isRing : m.IsRing ring xs) (other : b ∉ xs.map Prod.fst)
    (different : b ≠ a) : (m.ringInsert ring a).1 b = m b := by
  have self : some a ≠ some b := by
    rintro same
    cases same
    exact different rfl
  cases xs with
  | nil =>
      rw [isRing.head, headOf_nil, ringInsert]
      dsimp only
      rw [setPrev, modify_other self, setNext, modify_other self]
  | cons pair rest =>
      obtain ⟨r, z⟩ := pair
      have around (c : Nat) (member : c ∈ ((r, z) :: rest).map Prod.fst) : some c ≠ some b := by
        rintro same
        cases same
        exact other member
      have prev : (m r).bind LinkedCell.prev ≠ some b := by
        rw [isRing.linked.1, Option.bind_some]
        cases ended : lastOf ((r, z) :: rest) with
        | none => exact Option.some_ne_none b ∘ Eq.symm
        | some c => exact around c (lastOf_mem ended)
      rw [isRing.head, headOf_cons, ringInsert]
      dsimp only
      rw [setNext, modify_other prev, setPrev, modify_other (around r List.mem_cons_self), setPrev,
        modify_other self, setNext, modify_other self]

/-- A walk around a ring meets its cells in order. -/
theorem IsRing.cells {rounds : Nat} (isRing : m.IsRing ring xs) (enough : xs.length ≤ rounds) :
    m.ringCells rounds ring = xs := by
  cases xs with
  | nil =>
      rw [isRing.head]
      rfl
  | cons pair rest =>
      obtain ⟨r, z⟩ := pair
      have walk (part : List (Nat × α)) (before : Option Nat) (rounds : Nat) (b : Nat)
          (start : headOf part = some b) (linked : m.Linked before part (some r))
          (apart : ∀ c ∈ part.tail.map Prod.fst, c ≠ r) (enough : part.length ≤ rounds) :
          m.ringWalk r rounds b = part := by
        induction part generalizing before rounds b with
        | nil => cases start
        | cons pair others ih =>
            obtain ⟨c, y⟩ := pair
            cases start
            cases rounds with
            | zero => exact absurd enough (by simp)
            | succ rounds =>
                rw [List.length_cons, Nat.add_le_add_iff_right] at enough
                rw [ringWalk, linked.1]
                cases others with
                | nil => simp
                | cons pair others =>
                    obtain ⟨d, w⟩ := pair
                    have different : d ≠ r := apart d List.mem_cons_self
                    simp only [headOf_cons, Option.some_or, if_neg different]
                    rw [ih (some c) rounds d rfl linked.2 (fun e member =>
                      apart e (List.mem_cons_of_mem _ member)) enough]
      rw [isRing.head, headOf_cons, ringCells]
      apply walk _ _ _ _ rfl isRing.linked _ enough
      rintro c member rfl
      exact (List.nodup_cons.mp isRing.nodup).1 member

/-- The data of a cell in a ring is changed. -/
theorem IsRing.setData {change : α → α} (isRing : m.IsRing ring (xs ++ (a, x) :: ys)) :
    (m.setData a change).IsRing ring (xs ++ (a, change x) :: ys) := by
  have nodup := isRing.nodup
  have head := isRing.head
  obtain ⟨left, here, right⟩ := linked_append.mp isRing.linked
  rw [List.map_append, List.map_cons, List.nodup_middle, ← List.map_append, List.nodup_cons,
    List.map_append, List.mem_append, not_or] at nodup
  simp only [headOf_append, lastOf_append, headOf_cons, lastOf_cons] at left here right head
  refine ⟨?_, linked_append.mpr ⟨?_, ?_, ?_⟩, ?_⟩
  · simpa using isRing.nodup
  · simp only [headOf_append, lastOf_append, headOf_cons, lastOf_cons]
    apply linked_modify_other _ left
    rintro b member same
    cases same
    exact nodup.1.1 member
  · simp [CellMemory.setData, modify, here, lastOf_cons]
  · simp only [headOf_append, headOf_cons]
    apply linked_modify_other _ right
    rintro b member same
    cases same
    exact nodup.1.2 member
  · rw [head, headOf_append, headOf_cons]

theorem setData_self (change : α → α) :
    m.setData a change a = (m a).map fun cell => { cell with data := change cell.data } :=
  Function.update_self ..

theorem setData_other {change : α → α} (other : b ≠ a) : m.setData a change b = m b :=
  modify_other fun same => other (Option.some.inj same).symm

end CellMemory
