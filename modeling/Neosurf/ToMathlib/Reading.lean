/-
This file adds computations that read a list by position. They end with a value, read outside of
the list, or still run.
-/

import Mathlib.Data.List.Infix
import Mathlib.Logic.Basic

/-- A computation is done, has read outside of its list, or is still running. -/
inductive Reading (α : Type) where
  | done (value : α)
  | outside
  | running
  deriving DecidableEq, Repr

namespace Reading

variable {α β γ : Type}

/-- A computation goes on with the value of another one. -/
protected def bind (first : Reading α) (next : α → Reading β) : Reading β :=
  match first with
  | done value => next value
  | outside => outside
  | running => running

instance : Monad Reading where
  pure := done
  bind := Reading.bind

@[simp] theorem pure_eq (value : α) : (pure value : Reading α) = done value := rfl

@[simp] theorem done_bind (value : α) (next : α → Reading β) :
    (done value >>= next) = next value := rfl

@[simp] theorem outside_bind (next : α → Reading β) :
    ((outside : Reading α) >>= next) = outside := rfl

@[simp] theorem running_bind (next : α → Reading β) :
    ((running : Reading α) >>= next) = running := rfl

/-- A computation that goes on is done when both of its parts are. -/
theorem bind_eq_done_iff {first : Reading α} {next : α → Reading β} {answer : β} :
    (first >>= next) = done answer ↔ ∃ value, first = done value ∧ next value = done answer := by
  cases first with
  | done value => simp
  | outside => simp
  | running => simp

/-- A search with tests that are done is done. -/
theorem findM?_eq_done {list : List α} {test : α → Reading Bool} {found : α → Bool}
    (tested : ∀ x ∈ list, test x = done (found x)) :
    list.findM? test = done (list.find? found) := by
  induction list with
  | nil => rfl
  | cons x rest ih =>
      rw [List.forall_mem_cons] at tested
      rw [List.findM?, tested.1, List.find?_cons, done_bind]
      cases found x with
      | true => rfl
      | false => exact ih tested.2

/-- The element at a position is read. -/
def readAt (data : List γ) (i : Nat) : Reading γ :=
  match data[i]? with
  | some c => done c
  | none => outside

theorem readAt_cons {data rest : List γ} {i : Nat} {c : γ} (left : data.drop i = c :: rest) :
    readAt data i = done c := by
  have here : data[i]? = some c := by
    rw [← Nat.add_zero i, ← List.getElem?_drop, left]
    rfl
  rw [readAt, here]

theorem readAt_nil {data : List γ} {i : Nat} (left : data.drop i = []) :
    readAt data i = outside := by
  rw [readAt, List.getElem?_eq_none (List.drop_eq_nil_iff.mp left)]

theorem drop_succ_of_drop {data rest : List γ} {i : Nat} {c : γ} (left : data.drop i = c :: rest) :
    data.drop (i + 1) = rest := by
  rw [← List.drop_drop, left]
  rfl

variable [BEq γ]

/-- All elements are compared with those of a signature. -/
def compareAll (data : List γ) (i : Nat) : List γ → Reading Bool
  | [] => done true
  | c :: sig => do
      let b ← readAt data i
      let same ← compareAll data (i + 1) sig
      done (c == b && same)

/-- The elements are compared with those of a signature up to the first difference. -/
def compareUpTo (data : List γ) (i : Nat) : List γ → Reading Bool
  | [] => done true
  | c :: sig => do
      let b ← readAt data i
      if c == b then compareUpTo data (i + 1) sig else done false

/-- A comparison of as many elements as there are does not leave the list. -/
theorem compareAll_eq {data sig : List γ} {i : Nat} (inside : i + sig.length ≤ data.length) :
    compareAll data i sig = done (sig.isPrefixOf (data.drop i)) := by
  induction sig generalizing i with
  | nil => rfl
  | cons c sig ih =>
      rw [List.length_cons] at inside
      cases left : data.drop i with
      | nil =>
          have ended := List.drop_eq_nil_iff.mp left
          omega
      | cons b rest =>
          rw [compareAll, readAt_cons left, done_bind, ih (by omega), done_bind,
            drop_succ_of_drop left, List.isPrefixOf]

theorem compareUpTo_eq {data sig : List γ} {i : Nat} (inside : i + sig.length ≤ data.length) :
    compareUpTo data i sig = done (sig.isPrefixOf (data.drop i)) := by
  induction sig generalizing i with
  | nil => rfl
  | cons c sig ih =>
      rw [List.length_cons] at inside
      cases left : data.drop i with
      | nil =>
          have ended := List.drop_eq_nil_iff.mp left
          omega
      | cons b rest =>
          rw [compareUpTo, readAt_cons left, done_bind, ih (by omega), drop_succ_of_drop left,
            List.isPrefixOf]
          cases c == b <;> rfl

variable [LawfulBEq γ]

/-- A comparison up to the first difference finds the signature, or leaves the list where it ends
within the signature, or finds a difference. -/
theorem compareUpTo_cases (data : List γ) (i : Nat) (sig : List γ) :
    (sig <+: data.drop i ∧ compareUpTo data i sig = done true) ∨
      (data.drop i <+: sig ∧ data.drop i ≠ sig ∧ compareUpTo data i sig = outside) ∨
      (¬sig <+: data.drop i ∧ ¬data.drop i <+: sig ∧ compareUpTo data i sig = done false) := by
  induction sig generalizing i with
  | nil => exact .inl ⟨List.nil_prefix, rfl⟩
  | cons c sig ih =>
      cases left : data.drop i with
      | nil =>
          refine .inr (.inl ⟨List.nil_prefix, (List.cons_ne_nil c sig).symm, ?_⟩)
          rw [compareUpTo, readAt_nil left, outside_bind]
      | cons b rest =>
          have next := ih (i + 1)
          rw [drop_succ_of_drop left] at next
          rw [compareUpTo, readAt_cons left, done_bind]
          by_cases same : c = b
          · subst same
            simp only [beq_self_eq_true, if_true, List.cons_prefix_cons, true_and, ne_eq,
              List.cons.injEq]
            exact next
          · refine .inr (.inr ⟨?_, ?_, ?_⟩)
            · exact fun before => same (List.cons_prefix_cons.mp before).1
            · exact fun before => same (List.cons_prefix_cons.mp before).1.symm
            · rw [if_neg (by simpa using same)]

end Reading
