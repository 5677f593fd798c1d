/-
This file models trees whose nodes link to their first child and to their next sibling.
The siblings on every level are searched in order, and a node can be added as the last child of
another one.
-/

import Mathlib.Data.List.Forall2
import Mathlib.Data.List.Nodup

/-- A tree is empty, or a first node with its children and the siblings after it. -/
inductive SiblingTree (α : Type*) where
  | nil
  | cons (data : α) (children next : SiblingTree α)
  deriving DecidableEq, Repr

namespace SiblingTree

variable {α κ : Type*}

/-- The siblings of the top level. -/
def toList : SiblingTree α → List α
  | nil => []
  | cons d _ next => d :: next.toList

/-- All nodes, each before the nodes below it. -/
def nodes : SiblingTree α → List α
  | .nil => []
  | .cons d children next => d :: (nodes children ++ nodes next)

/-- Every node is changed. -/
def map {β : Type*} (f : α → β) : SiblingTree α → SiblingTree β
  | .nil => .nil
  | .cons d children next => .cons (f d) (map f children) (map f next)

/-- One of the siblings passes the test. -/
def has (test : α → Bool) : SiblingTree α → Bool
  | nil => false
  | cons d _ next => test d || next.has test

/-- The first sibling that passes the test, and its children. -/
def first (test : α → Bool) : SiblingTree α → Option (α × SiblingTree α)
  | nil => none
  | cons d children next => if test d then some (d, children) else next.first test

/-- The first sibling that passes the test is changed, and its children too. -/
def modifyFirst (test : α → Bool) (change : α → α) (inner : SiblingTree α → SiblingTree α) :
    SiblingTree α → SiblingTree α
  | nil => nil
  | cons d children next =>
      if test d then cons (change d) (inner children) next
      else cons d children (next.modifyFirst test change inner)

/-- The nodes on the way down these keys. -/
def walk (test : κ → α → Bool) : List κ → SiblingTree α → Option (List α)
  | [], _ => some []
  | key :: rest, t => do
      let (d, children) ← t.first (test key)
      let below ← walk test rest children
      some (d :: below)

/-- The way down these keys is made complete, and the node at its end is changed. -/
def extend (test : κ → α → Bool) (ensure : κ → SiblingTree α → SiblingTree α) (change : α → α) :
    List κ → SiblingTree α → SiblingTree α
  | [], t => t
  | key :: rest, t =>
      (ensure key t).modifyFirst (test key) (if rest = [] then change else id)
        (extend test ensure change rest)

/-- A property of every node. -/
def All (P : α → Prop) : SiblingTree α → Prop
  | nil => True
  | cons d children next => P d ∧ All P children ∧ All P next

@[simp] theorem nodes_map {β : Type*} (f : α → β) (t : SiblingTree α) :
    (t.map f).nodes = t.nodes.map f := by
  induction t with
  | nil => rfl
  | cons d children next children_ih next_ih =>
      rw [map, nodes, nodes, List.map_cons, List.map_append, children_ih, next_ih]

theorem map_map_congr {β γ : Type*} {f : α → β} {g : β → γ} {k : α → γ}
    (same : ∀ a, g (f a) = k a) (t : SiblingTree α) : (t.map f).map g = t.map k := by
  induction t with
  | nil => rfl
  | cons d children next children_ih next_ih => rw [map, map, map, same, children_ih, next_ih]

section All

variable {P : α → Prop}

theorem all_modifyFirst {test : α → Bool} {change : α → α} {inner : SiblingTree α → SiblingTree α}
    {t : SiblingTree α} (keeps : ∀ d, test d = true → P d → P (change d))
    (below : ∀ t : SiblingTree α, t.All P → (inner t).All P) (all : t.All P) :
    (t.modifyFirst test change inner).All P := by
  induction t with
  | nil => exact trivial
  | cons d children next children_ih next_ih =>
      rw [modifyFirst]
      split
      · rename_i passed
        exact ⟨keeps d passed all.1, below children all.2.1, all.2.2⟩
      · exact ⟨all.1, all.2.1, next_ih all.2.2⟩

theorem all_extend {test : κ → α → Bool} {ensure : κ → SiblingTree α → SiblingTree α}
    {change : α → α} (keeps : ∀ k d, test k d = true → P d → P (change d))
    (ensured : ∀ key, ∀ t : SiblingTree α, t.All P → (ensure key t).All P) (keys : List κ)
    {t : SiblingTree α} (all : t.All P) : (t.extend test ensure change keys).All P := by
  induction keys generalizing t with
  | nil => exact all
  | cons key rest ih =>
      rw [extend]
      apply all_modifyFirst _ (fun t known => ih known) (ensured key t all)
      intro d passed known
      split
      · exact keeps key d passed known
      · exact known

theorem all_iff {t : SiblingTree α} : t.All P ↔ ∀ d ∈ t.nodes, P d := by
  induction t with
  | nil => simp [All, nodes]
  | cons d children next children_ih next_ih =>
      simp only [All, nodes, List.mem_cons, List.mem_append, children_ih, next_ih]
      constructor
      · rintro ⟨own, inner, after⟩ e (rfl | below | later)
        · exact own
        · exact inner e below
        · exact after e later
      · intro all
        exact ⟨all d (Or.inl rfl), fun e below => all e (Or.inr (Or.inl below)),
          fun e later => all e (Or.inr (Or.inr later))⟩

theorem all_toList {t : SiblingTree α} (all : t.All P) : ∀ d ∈ t.toList, P d := by
  induction t with
  | nil =>
      intro d stored
      cases stored
  | cons e children next children_ih next_ih =>
      intro d stored
      rcases List.mem_cons.mp stored with rfl | later
      · exact all.1
      · exact next_ih all.2.2 d later

theorem all_first {test : α → Bool} {t children : SiblingTree α} {d : α} (all : t.All P)
    (found : t.first test = some (d, children)) : P d ∧ children.All P := by
  induction t with
  | nil => cases found
  | cons e below next below_ih next_ih =>
      rw [first] at found
      split at found
      · cases found
        exact ⟨all.1, all.2.1⟩
      · exact next_ih all.2.2 found

end All

theorem first_passes {test : α → Bool} {t : SiblingTree α} {p : α × SiblingTree α}
    (found : t.first test = some p) : test p.1 = true := by
  induction t with
  | nil => cases found
  | cons d children next children_ih next_ih =>
      rw [first] at found
      split at found
      · rename_i passed
        cases found
        exact passed
      · exact next_ih found

theorem mem_of_first {test : α → Bool} {t children : SiblingTree α} {d : α}
    (found : t.first test = some (d, children)) : d ∈ t.toList := by
  induction t with
  | nil => cases found
  | cons e below next below_ih next_ih =>
      rw [first] at found
      split at found
      · cases found
        exact List.mem_cons_self
      · exact List.mem_cons_of_mem _ (next_ih found)

/-- The first node under a weaker test is the first one under a stronger test that it passes. -/
theorem first_of_first {test other : α → Bool} {t : SiblingTree α} {p : α × SiblingTree α}
    (weaker : ∀ d, test d = true → other d = true) (found : t.first other = some p)
    (passed : test p.1 = true) : t.first test = some p := by
  induction t with
  | nil => cases found
  | cons d children next children_ih next_ih =>
      rw [first] at found ⊢
      split at found
      · cases found
        rw [if_pos passed]
      · rename_i apart
        rw [if_neg fun same => apart (weaker d same)]
        exact next_ih found

theorem has_eq_isSome {test : α → Bool} {t : SiblingTree α} :
    t.has test = (t.first test).isSome := by
  induction t with
  | nil => rfl
  | cons d children next children_ih next_ih =>
      rw [has, first, next_ih]
      cases test d <;> rfl

theorem has_iff {test : α → Bool} {t : SiblingTree α} :
    t.has test = true ↔ ∃ d ∈ t.toList, test d = true := by
  induction t with
  | nil => simp [has, toList]
  | cons d children next children_ih next_ih => simp [has, toList, next_ih]

/-- A change under one test shows in the search for another one, when the nodes under the
first test agree on it. -/
theorem first_modifyFirst {test other : α → Bool} {change : α → α}
    {inner : SiblingTree α → SiblingTree α} {t : SiblingTree α}
    (agree : ∀ d e, test d = true → test e = true → other d = other e)
    (kept : ∀ d, other (change d) = other d) :
    (t.modifyFirst test change inner).first other = (t.first other).map fun p =>
      if test p.1 then (change p.1, inner p.2) else p := by
  induction t with
  | nil => rfl
  | cons d children next children_ih next_ih =>
      rw [modifyFirst]
      by_cases passed : test d = true
      · rw [if_pos passed, first, first, kept]
        by_cases looked : other d = true
        · simp [looked, passed]
        · rw [if_neg looked, if_neg looked]
          cases later : next.first other with
          | none => rfl
          | some p =>
              have apart : ¬ test p.1 = true := by
                intro same
                rw [agree d p.1 passed same] at looked
                exact looked (first_passes later)
              simp [apart]
      · rw [if_neg passed, first, first, next_ih]
        by_cases looked : other d = true
        · simp [looked, passed]
        · rw [if_neg looked, if_neg looked]

@[simp] theorem has_modifyFirst {test other : α → Bool} {change : α → α}
    {inner : SiblingTree α → SiblingTree α} {t : SiblingTree α}
    (kept : ∀ d, other (change d) = other d) :
    (t.modifyFirst test change inner).has other = t.has other := by
  induction t with
  | nil => rfl
  | cons d children next children_ih next_ih =>
      rw [modifyFirst]
      split
      · rw [has, has, kept]
      · rw [has, has, next_ih]

/-- A walk takes the first node under its first key, and goes on below it. -/
theorem walk_cons {test : κ → α → Bool} {key : κ} {rest : List κ} {t : SiblingTree α}
    {walked : List α} : t.walk test (key :: rest) = some walked ↔
      ∃ d children below, t.first (test key) = some (d, children) ∧
        children.walk test rest = some below ∧ walked = d :: below := by
  simp only [walk, Option.bind_eq_bind, Option.bind_eq_some_iff, Option.some.injEq, Prod.exists]
  constructor
  · rintro ⟨d, children, here, below, deeper, rfl⟩
    exact ⟨d, children, below, here, deeper, rfl⟩
  · rintro ⟨d, children, below, here, deeper, rfl⟩
    exact ⟨d, children, here, below, deeper, rfl⟩

/-- Keys with the same tests lead the same way. -/
theorem walk_congr {test : κ → α → Bool} {keys keys' : List κ}
    (same : List.Forall₂ (fun k k' => test k = test k') keys keys') (t : SiblingTree α) :
    t.walk test keys = t.walk test keys' := by
  induction same generalizing t with
  | nil => rfl
  | cons head tail ih => simp only [walk, head, ih]

/-- A walk along one key meets one node. -/
theorem walk_singleton {test : κ → α → Bool} {key : κ} {t : SiblingTree α} {above : List α} {d : α}
    (found : t.walk test [key] = some (above ++ [d])) :
    above = [] ∧ ∃ children, t.first (test key) = some (d, children) := by
  obtain ⟨e, children, below, here, deeper, same⟩ := walk_cons.mp found
  cases deeper
  obtain ⟨rfl, same⟩ := List.append_eq_cons_iff.mp same |>.resolve_right fun ⟨_, _, impossible⟩ => by
    simp at impossible
  cases same
  exact ⟨rfl, children, here⟩

/-- The way down more keys starts with the way down the first ones. -/
theorem walk_append {test : κ → α → Bool} {keys more : List κ} {t : SiblingTree α}
    {walked : List α} (found : t.walk test (keys ++ more) = some walked) :
    ∃ above below, t.walk test keys = some above ∧ walked = above ++ below := by
  induction keys generalizing t walked with
  | nil => exact ⟨[], walked, rfl, rfl⟩
  | cons key rest ih =>
      obtain ⟨d, children, walked, here, deeper, rfl⟩ := walk_cons.mp found
      obtain ⟨above, below, first, rfl⟩ := ih deeper
      exact ⟨d :: above, below, walk_cons.mpr ⟨d, children, above, here, first, rfl⟩, rfl⟩

theorem walk_map {ι : Type*} {test : κ → α → Bool} (f : ι → κ) (keys : List ι)
    (t : SiblingTree α) : t.walk (fun i => test (f i)) keys = t.walk test (keys.map f) := by
  induction keys generalizing t with
  | nil => rfl
  | cons key rest ih => simp only [walk, List.map_cons, ih]

theorem first_mapTree {β : Type*} {f : α → β} {test : α → Bool} {test' : β → Bool}
    (kept : ∀ d, test' (f d) = test d) (t : SiblingTree α) :
    (t.map f).first test' = (t.first test).map fun p => (f p.1, p.2.map f) := by
  induction t with
  | nil => rfl
  | cons d children next _ ih =>
      rw [map, first, first, kept, ih]
      split <;> rfl

/-- Nodes that are changed everywhere are met by the same walks. -/
theorem walk_mapTree {β : Type*} {f : α → β} {test : κ → α → Bool} {test' : κ → β → Bool}
    (kept : ∀ k d, test' k (f d) = test k d) (keys : List κ) (t : SiblingTree α) :
    (t.map f).walk test' keys = (t.walk test keys).map (List.map f) := by
  induction keys generalizing t with
  | nil => rfl
  | cons key rest ih =>
      rw [walk, walk, first_mapTree (kept key)]
      cases t.first (test key) with
      | none => rfl
      | some p =>
          simp only [Option.bind_eq_bind, Option.map_some, Option.bind_some, ih]
          cases p.2.walk test rest <;> rfl

theorem isSome_walk_cons {test : κ → α → Bool} {key : κ} {rest : List κ} {t : SiblingTree α} :
    (t.walk test (key :: rest)).isSome =
      (t.first (test key)).any fun p => (p.2.walk test rest).isSome := by
  rw [walk]
  cases t.first (test key) with
  | none => rfl
  | some p =>
      simp only [Option.bind_eq_bind, Option.bind_some, Option.any_some]
      cases p.2.walk test rest <;> rfl

/-- A walk only meets nodes of the tree. -/
theorem all_walk {P : α → Prop} {test : κ → α → Bool} {keys : List κ} {t : SiblingTree α}
    {walked : List α} (all : t.All P) (found : t.walk test keys = some walked) :
    ∀ d ∈ walked, P d := by
  induction keys generalizing t walked with
  | nil =>
      cases found
      intro d inside
      cases inside
  | cons key rest ih =>
      obtain ⟨e, children, below, here, deeper, rfl⟩ := walk_cons.mp found
      obtain ⟨known, inner⟩ := all_first all here
      intro d inside
      rcases List.mem_cons.mp inside with rfl | inside
      · exact known
      · exact ih inner deeper d inside

/-- The nodes of a walk pass the tests. -/
theorem forall₂_walk {test : κ → α → Bool} {keys : List κ} {t : SiblingTree α}
    {walked : List α} (found : t.walk test keys = some walked) :
    List.Forall₂ (fun key d => test key d = true) keys walked := by
  induction keys generalizing t walked with
  | nil =>
      cases found
      exact .nil
  | cons key rest ih =>
      obtain ⟨e, children, below, here, deeper, rfl⟩ := walk_cons.mp found
      exact .cons (first_passes here) (ih deeper)

/-- The last node of a walk passes the test of the last key. -/
theorem test_of_walk_concat {test : κ → α → Bool} {keys : List κ} {key : κ} {t : SiblingTree α}
    {above : List α} {d : α} (found : t.walk test (keys ++ [key]) = some (above ++ [d])) :
    test key d = true := by
  have along := List.rel_reverse (forall₂_walk found)
  rw [List.reverse_append, List.reverse_append] at along
  cases along with
  | cons passed _ => exact passed

end SiblingTree

namespace SiblingTree

variable {α : Type*} {t : SiblingTree α} {a b : α}

/-- The first of the siblings. -/
def top : SiblingTree α → Option α
  | nil => none
  | cons a _ _ => some a

/-- A node without children becomes the last sibling. -/
def addLast (t : SiblingTree α) (new : α) : SiblingTree α :=
  match t with
  | nil => cons new nil nil
  | cons a children next => cons a children (next.addLast new)

/-- A node without children becomes the last child of another one. -/
def addChild [DecidableEq α] (t : SiblingTree α) (parent new : α) : SiblingTree α :=
  match t with
  | nil => nil
  | cons a children next =>
      if a = parent then cons a (children.addLast new) next
      else cons a (children.addChild parent new) (next.addChild parent new)

theorem top_mem (first : t.top = some a) : a ∈ t.toList := by
  cases t with
  | nil => cases first
  | cons b children next =>
      cases first
      exact List.mem_cons_self

theorem mem_nodes_of_mem_toList (inside : a ∈ t.toList) : a ∈ t.nodes := by
  induction t with
  | nil => cases inside
  | cons b children next children_ih next_ih =>
      rcases List.mem_cons.mp inside with rfl | inside
      · exact List.mem_cons_self
      · exact List.mem_cons_of_mem _ (List.mem_append_right _ (next_ih inside))

theorem top_map {β : Type*} (f : α → β) (t : SiblingTree α) : (t.map f).top = t.top.map f := by
  cases t <;> rfl

theorem toList_map {β : Type*} (f : α → β) (t : SiblingTree α) :
    (t.map f).toList = t.toList.map f := by
  induction t with
  | nil => rfl
  | cons a children next children_ih next_ih => rw [map, toList, toList, next_ih, List.map_cons]

theorem map_inj_on {β : Type*} {f g : α → β} (same : t.map f = t.map g) :
    ∀ a ∈ t.nodes, f a = g a := by
  induction t with
  | nil => exact nofun
  | cons a children next children_ih next_ih =>
      obtain ⟨own, below, later⟩ := cons.inj same
      intro b inside
      rcases List.mem_cons.mp inside with rfl | inside
      · exact own
      · rcases List.mem_append.mp inside with inside | inside
        · exact children_ih below b inside
        · exact next_ih later b inside

@[simp] theorem nodes_addLast (new : α) : (t.addLast new).nodes = t.nodes ++ [new] := by
  induction t with
  | nil => rfl
  | cons a children next children_ih next_ih =>
      rw [addLast, nodes, nodes, next_ih, List.cons_append, List.append_assoc]

@[simp] theorem toList_addLast (new : α) : (t.addLast new).toList = t.toList ++ [new] := by
  induction t with
  | nil => rfl
  | cons a children next children_ih next_ih => rw [addLast, toList, toList, next_ih]; rfl

theorem top_addLast (new : α) : (t.addLast new).top = some (t.top.getD new) := by
  cases t <;> rfl

section addChild

variable [DecidableEq α]

@[simp] theorem toList_addChild (parent new : α) : (t.addChild parent new).toList = t.toList := by
  induction t with
  | nil => rfl
  | cons a children next children_ih next_ih =>
      rw [addChild]
      split_ifs
      · rfl
      · rw [toList, toList, next_ih]

@[simp] theorem top_addChild (parent new : α) : (t.addChild parent new).top = t.top := by
  cases t with
  | nil => rfl
  | cons a children next =>
      rw [addChild]
      split_ifs <;> rfl

theorem addChild_of_notMem {parent : α} (new : α) (apart : parent ∉ t.nodes) :
    t.addChild parent new = t := by
  induction t with
  | nil => rfl
  | cons a children next children_ih next_ih =>
      have here : a ≠ parent := fun same => apart (same ▸ List.mem_cons_self)
      rw [addChild, if_neg here,
        children_ih fun inside => apart (List.mem_cons_of_mem _ (List.mem_append_left _ inside)),
        next_ih fun inside => apart (List.mem_cons_of_mem _ (List.mem_append_right _ inside))]

/-- Only the new node is added. -/
theorem nodes_addChild_perm {parent : α} (new : α) (inside : parent ∈ t.nodes)
    (nodup : t.nodes.Nodup) : (t.addChild parent new).nodes.Perm (new :: t.nodes) := by
  induction t with
  | nil => cases inside
  | cons a children next children_ih next_ih =>
      rw [nodes, List.nodup_cons, List.nodup_append'] at nodup
      obtain ⟨apart, below, later, disjoint⟩ := nodup
      rw [addChild]
      split_ifs with own
      · rw [nodes, nodes, nodes_addLast, List.append_assoc]
        exact ((List.perm_middle).cons a).trans (List.Perm.swap ..)
      · have inside : parent ∈ children.nodes ++ next.nodes :=
          (List.mem_cons.mp inside).resolve_left (Ne.symm own)
        rw [nodes, nodes]
        rcases List.mem_append.mp inside with inside | inside
        · rw [addChild_of_notMem new (List.disjoint_left.mp disjoint inside)]
          exact (((children_ih inside below).append_right _).cons a).trans (List.Perm.swap ..)
        · rw [addChild_of_notMem new fun other => List.disjoint_left.mp disjoint other inside]
          exact ((((next_ih inside later).append_left _).trans List.perm_middle).cons a).trans
            (List.Perm.swap ..)

end addChild

end SiblingTree
