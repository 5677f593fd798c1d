/-
This file is about siblings in a tree whose nodes may have a mark, which is a node apart from their
children and comes before them.
-/

import Mathlib.Data.List.Basic

/-- A node has a mark, a first child and a next sibling, and each of them may be missing. -/
inductive MarkedForest (α : Type*) where
  | nil
  | cons (data : α) (mark children next : MarkedForest α)
  deriving DecidableEq

namespace MarkedForest

variable {α : Type*}

def isSome : MarkedForest α → Bool
  | nil => false
  | cons .. => true

/-- What a traversal sees of a node. -/
structure Visit (α : Type*) where
  data : α
  parent : Option α
  isMark : Bool
  hasMark : Bool

/-- The nodes in document order, a mark before its node. All siblings are visited, or the first of
them. -/
def visits (all : Bool) (parent : Option α) (isMark : Bool) : MarkedForest α → List (Visit α)
  | nil => []
  | cons data mark children next =>
      visits false (some data) true mark ++
        ⟨data, parent, isMark, mark.isSome⟩ :: visits true (some data) false children ++
        if all then visits true parent isMark next else []

end MarkedForest
