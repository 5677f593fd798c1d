/-
This file is about files that are written and read at offsets.
-/

import Mathlib.Data.List.GetD
import Mathlib.Algebra.Notation.Defs

/-- A file has a length, and something stands at each of its offsets. -/
structure PosixFile (α : Type*) where
  length : Nat
  get : Nat → α

namespace PosixFile

variable {α : Type*}

/-- A read stops at the end of the file. -/
def pread (f : PosixFile α) (count offset : Nat) : List α :=
  (List.range (min count (f.length - offset))).map fun i => f.get (offset + i)

@[simp] theorem length_pread (f : PosixFile α) (count offset : Nat) :
    (f.pread count offset).length = min count (f.length - offset) := by
  rw [pread, List.length_map, List.length_range]

theorem pread_zero (f : PosixFile α) (offset : Nat) : f.pread 0 offset = [] := by
  rw [pread, Nat.zero_min, List.range_zero, List.map_nil]

variable [Zero α]

/-- A new file is empty. -/
def empty : PosixFile α where
  length := 0
  get _ := 0

/-- The data takes the place of what stood at the offset. A gap reads as zeros. -/
def pwrite (f : PosixFile α) (data : List α) (offset : Nat) : PosixFile α :=
  if data = [] then f
  else
    { length := max f.length (offset + data.length)
      get := fun i =>
        if offset ≤ i ∧ i < offset + data.length then data.getD (i - offset) 0
        else if i < f.length then f.get i else 0 }

/-- What was written is read. -/
theorem pread_pwrite_self (f : PosixFile α) (data : List α) (offset : Nat) :
    (f.pwrite data offset).pread data.length offset = data := by
  by_cases nothing : data = []
  · rw [nothing, List.length_nil, pread_zero]
  · rw [pwrite, if_neg nothing]
    apply List.ext_getElem
    · rw [length_pread]
      dsimp only
      omega
    · intro i _ inside
      have here : offset ≤ offset + i ∧ offset + i < offset + data.length := by omega
      simp only [pread, List.getElem_map, List.getElem_range, here, and_self, if_true]
      rw [Nat.add_sub_cancel_left, List.getD_eq_getElem _ _ inside]

/-- Whatever was completely read is still read after a write at another place. -/
theorem pread_pwrite_other {f : PosixFile α} {data : List α} {count offset other : Nat}
    (apart : other + count ≤ offset ∨ offset + data.length ≤ other)
    (whole : (f.pread count other).length = count) :
    (f.pwrite data offset).pread count other = f.pread count other := by
  rw [length_pread] at whole
  rw [pwrite]
  split
  · rfl
  · apply List.ext_getElem
    · simp only [length_pread]
      omega
    · intro i first second
      rw [length_pread] at second
      have there : ¬ (offset ≤ other + i ∧ other + i < offset + data.length) := by omega
      have inside : other + i < f.length := by omega
      simp only [pread, List.getElem_map, List.getElem_range, if_neg there, if_pos inside]

end PosixFile
