/-
This file adds walks that go from one element to the next one until there is none, and cycles: an
order in which everything comes after what it points to excludes them, and finitely many things that
all point to one of them have one.
-/

import Mathlib.Data.Fintype.Card
import Mathlib.Data.Fintype.EquivFin
import Mathlib.Data.Fintype.Sets
import Mathlib.Data.List.Basic
import Mathlib.Logic.Relation
import Mathlib.Order.WellFounded

namespace Walks

variable {α β : Type*} {next : α → Option α} {bound : α → Nat} {x y z : α}

/-- Each step brings the walk closer to its end. -/
def Descends (next : α → Option α) (bound : α → Nat) : Prop :=
  ∀ x y, next x = some y → bound y < bound x

/-- What holds at the end of walks and is kept backwards along steps holds everywhere. -/
theorem Descends.induction {motive : α → Prop} (descends : Descends next bound)
    (stop : ∀ x, next x = none → motive x) (step : ∀ x y, next x = some y → motive y → motive x)
    (x : α) : motive x := by
  induction size : bound x using Nat.strongRecOn generalizing x with
  | ind size ih =>
      cases here : next x with
      | none => exact stop x here
      | some y => exact step x y here (ih (bound y) (size ▸ descends x y here) y rfl)

/-- The elements that the first steps reach. -/
def steps (next : α → Option α) : Nat → α → List α
  | 0, _ => []
  | rounds + 1, x =>
      match next x with
      | none => []
      | some y => y :: steps next rounds y

/-- The elements that the whole walk reaches. -/
def walk (next : α → Option α) (bound : α → Nat) (x : α) : List α := steps next (bound x) x

theorem steps_of_none (here : next x = none) (rounds : Nat) : steps next rounds x = [] := by
  cases rounds with
  | zero => rfl
  | succ rounds => rw [steps, here]

theorem walk_of_none (here : next x = none) : walk next bound x = [] := steps_of_none here _

/-- More steps than the bound reach no more elements. -/
theorem steps_eq_walk (descends : Descends next bound) {rounds : Nat} (enough : bound x ≤ rounds) :
    steps next rounds x = walk next bound x := by
  induction x using descends.induction generalizing rounds with
  | stop x here => rw [steps_of_none here, walk_of_none here]
  | step x y here ih =>
      have less := descends x y here
      obtain ⟨size, whole⟩ := Nat.exists_eq_add_of_lt less
      obtain ⟨more, longer⟩ := Nat.exists_eq_add_of_le enough
      rw [walk, longer, whole, Nat.add_right_comm, steps, steps, here]
      dsimp only
      exact congrArg (y :: ·) ((ih (by omega)).trans (ih (by omega)).symm)

theorem walk_of_some (descends : Descends next bound) (here : next x = some y) :
    walk next bound x = y :: walk next bound y := by
  have less := descends x y here
  rw [← steps_eq_walk descends (Nat.le_succ (bound x)), steps, here]
  dsimp only
  rw [steps_eq_walk descends (Nat.le_of_lt less)]

/-- An element of a walk starts the rest of it. -/
theorem exists_walk_eq_append (descends : Descends next bound) (inside : y ∈ walk next bound x) :
    ∃ before, walk next bound x = before ++ y :: walk next bound y := by
  induction x using descends.induction with
  | stop x here =>
      rw [walk_of_none here] at inside
      cases inside
  | step x first here ih =>
      rw [walk_of_some descends here] at inside ⊢
      rcases List.mem_cons.mp inside with rfl | later
      · exact ⟨[], rfl⟩
      · obtain ⟨before, split⟩ := ih later
        exact ⟨first :: before, by rw [split]; rfl⟩

theorem walk_trans (descends : Descends next bound) (first : y ∈ walk next bound x)
    (second : z ∈ walk next bound y) : z ∈ walk next bound x := by
  obtain ⟨before, split⟩ := exists_walk_eq_append descends first
  rw [split]
  exact List.mem_append_right before (List.mem_cons_of_mem y second)

theorem bound_lt_of_mem (descends : Descends next bound) (inside : y ∈ walk next bound x) :
    bound y < bound x := by
  induction x using descends.induction with
  | stop x here =>
      rw [walk_of_none here] at inside
      cases inside
  | step x first here ih =>
      have less := descends x first here
      rw [walk_of_some descends here] at inside
      rcases List.mem_cons.mp inside with rfl | later
      · exact less
      · exact Nat.lt_trans (ih later) less

/-- What steps keep, all elements of a walk share with its start. -/
theorem eq_of_mem_walk {f : α → β} (descends : Descends next bound)
    (kept : ∀ x y, next x = some y → f y = f x) (inside : y ∈ walk next bound x) : f y = f x := by
  induction x using descends.induction with
  | stop x here =>
      rw [walk_of_none here] at inside
      cases inside
  | step x first here ih =>
      rw [walk_of_some descends here] at inside
      rcases List.mem_cons.mp inside with rfl | later
      · exact kept x _ here
      · rw [ih later, kept x first here]

/-- The first element with two properties is found from the first one with one of them on. -/
theorem find?_walk (descends : Descends next bound) {named : α → Bool} (fits : α → Bool)
    (found : (walk next bound x).find? named = some y) :
    (walk next bound x).find? (fun z => named z && fits z) =
      if fits y then some y else (walk next bound y).find? fun z => named z && fits z := by
  induction x using descends.induction with
  | stop x here =>
      rw [walk_of_none here] at found
      cases found
  | step x first here ih =>
      rw [walk_of_some descends here] at found ⊢
      cases good : named first with
      | true =>
          rw [List.find?_cons_of_pos good] at found
          cases found
          rw [List.find?_cons, good, Bool.true_and]
          cases fits y <;> rfl
      | false =>
          rw [List.find?_cons_of_neg (by simp [good])] at found ⊢
          · exact ih found

theorem filter_walk (descends : Descends next bound) {good : α → Bool}
    (found : (walk next bound x).find? good = some y) :
    (walk next bound x).filter good = y :: (walk next bound y).filter good := by
  induction x using descends.induction with
  | stop x here =>
      rw [walk_of_none here] at found
      cases found
  | step x first here ih =>
      rw [walk_of_some descends here] at found ⊢
      cases fits : good first with
      | true =>
          rw [List.find?_cons_of_pos fits] at found
          cases found
          rw [List.filter_cons_of_pos fits]
      | false =>
          rw [List.find?_cons_of_neg (by simp [fits])] at found
          rw [List.filter_cons_of_neg (by simp [fits]), ih found]

theorem descends_find? (descends : Descends next bound) (good : α → Bool) :
    Descends (fun x => (walk next bound x).find? good) bound :=
  fun _ _ found => bound_lt_of_mem descends (List.mem_of_find?_eq_some found)

/-- A walk that leaves elements out reaches the others in their order. -/
theorem walk_find? (descends : Descends next bound) (good : α → Bool) (x : α) :
    walk (fun x => (walk next bound x).find? good) bound x = (walk next bound x).filter good := by
  induction x using (descends_find? descends good).induction with
  | stop x here =>
      rw [walk_of_none here, eq_comm, List.filter_eq_nil_iff]
      exact List.find?_eq_none.mp here
  | step x y here ih =>
      rw [walk_of_some (descends_find? descends good) here, ih, filter_walk descends here]

/-- A search that jumps to the first element with a property, and on from there until a second
property holds as well. -/
def search (jump : α → Option α) (fits : α → Bool) : Nat → α → Option α
  | 0, _ => none
  | rounds + 1, x =>
      match jump x with
      | none => none
      | some y => if fits y then some y else search jump fits rounds y

/-- The search finds the first element of the walk with both properties. -/
theorem search_eq_find? (descends : Descends next bound) (jump : α → Option α) {named : α → Bool}
    (jumps : ∀ x, jump x = (walk next bound x).find? named) (fits : α → Bool) {rounds : Nat}
    (enough : bound x ≤ rounds) :
    search jump fits rounds x = (walk next bound x).find? fun y => named y && fits y := by
  induction rounds generalizing x with
  | zero =>
      have empty : walk next bound x = [] := by
        rw [walk, Nat.le_zero.mp enough]
        rfl
      rw [search, empty, List.find?_nil]
  | succ rounds ih =>
      rw [search, jumps]
      cases found : (walk next bound x).find? named with
      | none =>
          rw [List.find?_eq_none] at found
          symm
          rw [List.find?_eq_none]
          intro y inside both
          exact found y inside (Bool.and_eq_true _ _ ▸ both).1
      | some y =>
          have less := bound_lt_of_mem descends (List.mem_of_find?_eq_some found)
          rw [find?_walk descends fits found, ← ih (by omega)]

end Walks

section

variable {α : Type*} {r : α → α → Prop} {a b : α} {xs : List α}

/-- Every element stands before the elements that it points to. -/
def PointsAhead (r : α → α → Prop) : List α → Prop
  | [] => True
  | a :: rest => a ∉ rest ∧ (∀ b, r a b → b ∈ rest) ∧ PointsAhead r rest

namespace PointsAhead

theorem nodup (ahead : PointsAhead r xs) : xs.Nodup := by
  induction xs with
  | nil => exact List.nodup_nil
  | cons a rest ih => exact List.nodup_cons.mpr ⟨ahead.1, ih ahead.2.2⟩

theorem closed (ahead : PointsAhead r xs) (inside : a ∈ xs) (points : r a b) : b ∈ xs := by
  induction xs with
  | nil => cases inside
  | cons c rest ih =>
      rcases List.mem_cons.mp inside with rfl | inside
      · exact List.mem_cons_of_mem _ (ahead.2.1 b points)
      · exact List.mem_cons_of_mem _ (ih ahead.2.2 inside)

/-- The first element leads only to later ones. -/
theorem mem_of_transGen (ahead : PointsAhead r (a :: xs)) (leads : Relation.TransGen r a b) :
    b ∈ xs := by
  induction leads with
  | single points => exact ahead.2.1 _ points
  | tail _ points ih => exact ahead.2.2.closed ih points

theorem not_transGen_self (ahead : PointsAhead r xs) (inside : a ∈ xs) :
    ¬Relation.TransGen r a a := by
  induction xs with
  | nil => cases inside
  | cons c rest ih =>
      rcases List.mem_cons.mp inside with rfl | inside
      · exact fun cycle => ahead.1 (ahead.mem_of_transGen cycle)
      · exact ih ahead.2.2 inside

end PointsAhead

/-- There is a cycle when all of finitely many elements point to one of them. -/
theorem exists_transGen_self (s : Finset α) (points : ∀ a ∈ s, ∃ b ∈ s, r a b) (inside : a ∈ s) :
    ∃ a, Relation.TransGen r a a := by
  by_contra none
  let back : s → s → Prop := fun b a => Relation.TransGen r a b
  have transitive : IsTrans s back := ⟨fun _ _ _ first second => second.trans first⟩
  have irreflexive : Std.Irrefl back := ⟨fun a cycle => none ⟨a, cycle⟩⟩
  have wellFounded := Finite.wellFounded_of_trans_of_irrefl back
  obtain ⟨⟨c, here⟩, -, minimal⟩ := wellFounded.has_min Set.univ ⟨⟨a, inside⟩, trivial⟩
  obtain ⟨b, there, next⟩ := points c here
  exact minimal ⟨b, there⟩ trivial (.single next)

end
