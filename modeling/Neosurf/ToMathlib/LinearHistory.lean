/-
This file is about a linear history of states with a cursor.
-/

import Mathlib.Data.List.Basic

/-- The states before the cursor, nearest first, the state at it and the states after it. -/
structure LinearHistory (α : Type*) where
  past : List α
  present : α
  future : List α
  deriving DecidableEq

namespace LinearHistory

variable {α : Type*} (h : LinearHistory α) {k : LinearHistory α}

/-- Nothing was done yet. -/
def fresh (a : α) : LinearHistory α := ⟨[], a, []⟩

/-- An edit forgets what was undone. -/
def edit (a : α) : LinearHistory α := ⟨h.present :: h.past, a, []⟩

def undo : Option (LinearHistory α) :=
  match h.past with
  | [] => none
  | a :: past => some ⟨past, a, h.present :: h.future⟩

def redo : Option (LinearHistory α) :=
  match h.future with
  | [] => none
  | a :: future => some ⟨h.present :: h.past, a, future⟩

/-- This is the number of edits between the oldest and the newest state. -/
def edits : Nat := h.past.length + h.future.length

/-- A state of the history. -/
def Holds (a : α) : Prop := a ∈ h.past ∨ a = h.present ∨ a ∈ h.future

variable {h}

theorem undo_cases (undone : h.undo = some k) :
    h.past = k.present :: k.past ∧ k.future = h.present :: h.future := by
  obtain ⟨past, present, future⟩ := h
  cases past with
  | nil => cases undone
  | cons a past =>
      cases undone
      exact ⟨rfl, rfl⟩

theorem redo_cases (redone : h.redo = some k) :
    h.future = k.present :: k.future ∧ k.past = h.present :: h.past := by
  obtain ⟨past, present, future⟩ := h
  cases future with
  | nil => cases redone
  | cons a future =>
      cases redone
      exact ⟨rfl, rfl⟩

theorem redo_eq_none : h.redo = none ↔ h.future = [] := by
  obtain ⟨past, present, future⟩ := h
  cases future <;> simp [redo]

theorem edits_undo (undone : h.undo = some k) : k.edits = h.edits := by
  obtain ⟨before, after⟩ := undo_cases undone
  simp [edits, before, after]
  omega

theorem edits_redo (redone : h.redo = some k) : k.edits = h.edits := by
  obtain ⟨after, before⟩ := redo_cases redone
  simp [edits, before, after]
  omega

end LinearHistory
