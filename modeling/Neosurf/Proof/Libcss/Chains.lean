/-
This file proves that the chains of a selector hash are sorted and hold the selectors that were
inserted.
-/

import Mathlib.Data.List.Perm.Lattice
import Mathlib.Data.Prod.Lex
import Neosurf.Construction.Libcss.Select

namespace Neosurf.Libcss

variable {M V : Type} {place : HashPlace} {hash : SelectorHash M V} {selector : Selector M V}
  {chain chain' : List (HashEntry M V)}

/-- Selectors are ordered by their specificity, and then by the index of their rule. -/
def Selector.key (selector : Selector M V) : Nat ×ₗ Nat :=
  toLex (selector.specificity, selector.rule.index)

/-- The entries of a chain are in ascending order. -/
def Sorted (chain : List (HashEntry M V)) : Prop :=
  chain.Pairwise fun a b => a.sel.key ≤ b.sel.key

theorem comesAfter_iff (entry : HashEntry M V) (selector : Selector M V) :
    comesAfter entry selector = true ↔ selector.key < entry.sel.key := by
  rw [Selector.key, Selector.key, Prod.Lex.toLex_lt_toLex, comesAfter, Bool.or_eq_true,
    Bool.and_eq_true, decide_eq_true_iff, decide_eq_true_iff, beq_iff_eq]
  dsimp only
  rw [eq_comm]

theorem perm_insertIntoChain (selector : Selector M V) (chain : List (HashEntry M V)) :
    (insertIntoChain selector chain).Perm (hashEntry selector :: chain) := by
  induction chain with
  | nil => exact List.Perm.refl _
  | cons entry rest ih =>
      rw [insertIntoChain]
      split
      · exact List.Perm.refl _
      · exact (ih.cons entry).trans (List.Perm.swap _ _ _)

theorem sorted_insertIntoChain (sorted : Sorted chain) : Sorted (insertIntoChain selector chain) := by
  induction chain with
  | nil => exact List.pairwise_singleton _ _
  | cons entry rest ih =>
      have tail := List.pairwise_cons.mp sorted
      rw [insertIntoChain]
      split
      · rename_i later
        have first := ((comesAfter_iff entry selector).mp later).le
        apply List.pairwise_cons.mpr
        refine ⟨?_, sorted⟩
        intro other inside
        rcases List.mem_cons.mp inside with rfl | inside
        · exact first
        · exact first.trans (tail.1 other inside)
      · rename_i notLater
        have before : entry.sel.key ≤ selector.key :=
          not_lt.mp fun less => notLater ((comesAfter_iff entry selector).mpr less)
        apply List.pairwise_cons.mpr
        refine ⟨?_, ih tail.2⟩
        intro other inside
        rcases List.mem_cons.mp ((perm_insertIntoChain selector rest).mem_iff.mp inside) with
          rfl | inside
        · exact before
        · exact tail.1 other inside

section Remove

variable [DecidableEq M] [DecidableEq V]

/-- The search takes the first entry of the selector out. -/
theorem map_sel_removeBehind (found : removeBehind selector chain = some chain') :
    chain'.map (·.sel) = (chain.map (·.sel)).erase selector := by
  induction chain generalizing chain' with
  | nil => cases found
  | cons entry rest ih =>
      rw [removeBehind] at found
      split at found
      · rename_i same
        cases found
        rw [List.map_cons, same, List.erase_cons_head]
      · rename_i other
        obtain ⟨rest', foundRest, rfl⟩ := Option.map_eq_some_iff.mp found
        rw [List.map_cons, List.map_cons, List.erase_cons_tail (by simpa using other), ih foundRest]

theorem map_sel_removeFromChain (found : removeFromChain selector chain = some chain') :
    chain'.map (·.sel) = (chain.map (·.sel)).erase selector := by
  cases chain with
  | nil => cases found
  | cons head rest =>
      simp only [removeFromChain] at found
      split at found
      · rename_i same
        cases rest with
        | nil =>
            cases found
            rw [List.map_cons, same, List.erase_cons_head]
        | cons next rest =>
            cases found
            rw [List.map_cons, List.map_cons, same, List.erase_cons_head, List.map_cons]
      · rename_i other
        obtain ⟨rest', foundRest, rfl⟩ := Option.map_eq_some_iff.mp found
        rw [List.map_cons, List.map_cons, List.erase_cons_tail (by simpa using other),
          map_sel_removeBehind foundRest]

/-- A search that fails has seen no entry of the selector. -/
theorem not_mem_of_removeBehind (missing : removeBehind selector chain = none) :
    selector ∉ chain.map (·.sel) := by
  induction chain with
  | nil => exact List.not_mem_nil
  | cons entry rest ih =>
      rw [removeBehind] at missing
      split at missing
      · cases missing
      · rename_i other
        rw [List.map_cons, List.mem_cons, not_or]
        exact ⟨fun same => other same.symm, ih (Option.map_eq_none_iff.mp missing)⟩

theorem not_mem_of_removeFromChain (missing : removeFromChain selector chain = none) :
    selector ∉ chain.map (·.sel) := by
  cases chain with
  | nil => exact List.not_mem_nil
  | cons head rest =>
      simp only [removeFromChain] at missing
      split at missing
      · cases rest <;> cases missing
      · rename_i other
        rw [List.map_cons, List.mem_cons, not_or]
        exact ⟨fun same => other same.symm,
          not_mem_of_removeBehind (Option.map_eq_none_iff.mp missing)⟩

omit [DecidableEq M] [DecidableEq V] in
theorem sorted_iff_map : Sorted chain ↔ (chain.map (·.sel)).Pairwise (·.key ≤ ·.key) := by
  rw [Sorted, List.pairwise_map]

theorem sorted_removeFromChain (sorted : Sorted chain)
    (found : removeFromChain selector chain = some chain') : Sorted chain' := by
  rw [sorted_iff_map] at sorted ⊢
  rw [map_sel_removeFromChain found]
  exact sorted.sublist List.erase_sublist

end Remove

@[simp] theorem chain_setChain (hash : SelectorHash M V) (place : HashPlace)
    (chain : List (HashEntry M V)) : (hash.setChain place chain).chain place = chain := by
  cases place <;> simp [SelectorHash.setChain, SelectorHash.chain]

theorem chain_setChain_of_ne {other : HashPlace} (different : other ≠ place) :
    (hash.setChain place chain).chain other = hash.chain other := by
  cases place <;> cases other <;>
    simp_all [SelectorHash.setChain, SelectorHash.chain, Function.update_of_ne]

@[simp] theorem chain_selectorHashCreate (place : HashPlace) :
    (selectorHashCreate : SelectorHash M V).chain place = [] := by
  cases place <;> rfl

/-- This is one call that changes a hash. -/
inductive HashCall (M V : Type) where
  | insert (selector : Selector M V)
  | remove (selector : Selector M V)

variable [DecidableEq M] [DecidableEq V]

/-- A removal that fails leaves the hash as it is. -/
def HashCall.run (hash : SelectorHash M V) : HashCall M V → SelectorHash M V
  | .insert selector => selectorHashInsert hash selector
  | .remove selector => (selectorHashRemove hash selector).getD hash

/-- These are the selectors that a stylesheet has put into its hash and not removed. -/
def HashCall.account (held : List (Selector M V)) : HashCall M V → List (Selector M V)
  | .insert selector => selector :: held
  | .remove selector => held.erase selector

/-- Each chain is sorted and holds the selectors of its place. -/
structure Holds (hash : SelectorHash M V) (held : List (Selector M V)) : Prop where
  sorted : ∀ place, Sorted (hash.chain place)
  selectors : ∀ place, ((hash.chain place).map (·.sel)).Perm
    (held.filter fun selector => hashPlace selector.data = place)

omit [DecidableEq M] [DecidableEq V] in
theorem holds_create : Holds (selectorHashCreate : SelectorHash M V) [] where
  sorted place := by
    rw [chain_selectorHashCreate]
    exact List.Pairwise.nil
  selectors place := by
    rw [chain_selectorHashCreate]
    exact List.Perm.refl _

/-- A call keeps the chains sorted and accounts for its selector. -/
theorem holds_run {held : List (Selector M V)} (holds : Holds hash held) (call : HashCall M V) :
    Holds (call.run hash) (call.account held) := by
  cases call with
  | insert selector =>
      rw [HashCall.run, HashCall.account, selectorHashInsert]
      constructor
      · intro place
        by_cases own : place = hashPlace selector.data
        · rw [own, chain_setChain]
          exact sorted_insertIntoChain (holds.sorted _)
        · rw [chain_setChain_of_ne own]
          exact holds.sorted place
      · intro place
        by_cases own : place = hashPlace selector.data
        · rw [own, chain_setChain, List.filter_cons_of_pos (by simp)]
          exact ((perm_insertIntoChain selector _).map _).trans ((holds.selectors _).cons _)
        · rw [chain_setChain_of_ne own, List.filter_cons_of_neg (by simpa using Ne.symm own)]
          exact holds.selectors place
  | remove selector =>
      rw [HashCall.run, HashCall.account, selectorHashRemove]
      cases removed : removeFromChain selector (hash.chain (hashPlace selector.data)) with
      | none =>
          have missing : selector ∉ held := by
            intro inside
            apply not_mem_of_removeFromChain removed
            rw [(holds.selectors _).mem_iff, List.mem_filter]
            exact ⟨inside, decide_eq_true rfl⟩
          rw [List.erase_of_not_mem missing]
          exact holds
      | some chain =>
          constructor
          · intro place
            by_cases own : place = hashPlace selector.data
            · rw [own]
              simp only [Option.map_some, Option.getD_some, chain_setChain]
              exact sorted_removeFromChain (holds.sorted _) removed
            · simp only [Option.map_some, Option.getD_some, chain_setChain_of_ne own]
              exact holds.sorted place
          · intro place
            rw [← List.erase_filter]
            by_cases own : place = hashPlace selector.data
            · rw [own]
              simp only [Option.map_some, Option.getD_some, chain_setChain]
              rw [map_sel_removeFromChain removed]
              exact (holds.selectors _).erase selector
            · rw [List.erase_of_not_mem (by simpa using fun _ => Ne.symm own)]
              simp only [Option.map_some, Option.getD_some, chain_setChain_of_ne own]
              exact holds.selectors place

theorem holds_foldl {held : List (Selector M V)} (holds : Holds hash held)
    (calls : List (HashCall M V)) :
    Holds (calls.foldl HashCall.run hash) (calls.foldl HashCall.account held) := by
  induction calls generalizing hash held with
  | nil => exact holds
  | cons call calls ih => exact ih (holds_run holds call)

/-- In every run of insertions and removals, each chain is sorted by specificity and rule index and
holds the selectors of its place that were inserted and not removed. -/
theorem holds_runs (calls : List (HashCall M V)) :
    Holds (calls.foldl HashCall.run selectorHashCreate) (calls.foldl HashCall.account []) :=
  holds_foldl holds_create calls

end Neosurf.Libcss
