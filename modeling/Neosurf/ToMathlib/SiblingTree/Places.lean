/-
This file is about trees whose siblings are in order, and lists the nodes of a tree with the keys on
the way to them.
-/

import Mathlib.Data.List.Nodup
import Neosurf.ToMathlib.SiblingTree.Basic

namespace SiblingTree

/-- The keys of the siblings ascend on every level. -/
def Ascending {β : Type*} (key : α → β) (le : β → β → Prop) : SiblingTree α → Prop
  | nil => True
  | cons d children next =>
      (∀ e ∈ next.toList, le (key d) (key e)) ∧ children.Ascending key le ∧ next.Ascending key le

variable {β : Type*} {key : α → β} {le : β → β → Prop}

theorem map_key_modifyFirst {test : α → Bool} {change : α → α}
    {inner : SiblingTree α → SiblingTree α} {t : SiblingTree α} (kept : ∀ d, key (change d) = key d) :
    (t.modifyFirst test change inner).toList.map key = t.toList.map key := by
  induction t with
  | nil => rfl
  | cons d children next children_ih next_ih =>
      rw [modifyFirst]
      split
      · rw [toList, toList, List.map_cons, List.map_cons, kept]
      · rw [toList, toList, List.map_cons, List.map_cons, next_ih]

theorem toList_mapTree {γ : Type*} (f : α → γ) (t : SiblingTree α) :
    (t.map f).toList = t.toList.map f := by
  induction t with
  | nil => rfl
  | cons d children next _ next_ih => rw [map, toList, toList, List.map_cons, next_ih]

/-- The order only depends on the keys. -/
theorem ascending_mapTree {γ : Type*} {f : α → γ} {key' : γ → β} (kept : ∀ d, key' (f d) = key d)
    (t : SiblingTree α) : (t.map f).Ascending key' le ↔ t.Ascending key le := by
  induction t with
  | nil => exact Iff.rfl
  | cons d children next children_ih next_ih =>
      rw [map, Ascending, Ascending, children_ih, next_ih, toList_mapTree, kept]
      simp only [List.forall_mem_map, kept]

theorem ascending_first {test : α → Bool} {t children : SiblingTree α} {d : α}
    (sorted : t.Ascending key le) (found : t.first test = some (d, children)) :
    children.Ascending key le := by
  induction t with
  | nil => cases found
  | cons e below next below_ih next_ih =>
      rw [first] at found
      split at found
      · cases found
        exact sorted.2.1
      · exact next_ih sorted.2.2 found

theorem ascending_modifyFirst {test : α → Bool} {change : α → α}
    {inner : SiblingTree α → SiblingTree α} {t : SiblingTree α} (kept : ∀ d, key (change d) = key d)
    (below : ∀ t : SiblingTree α, t.Ascending key le → (inner t).Ascending key le)
    (sorted : t.Ascending key le) : (t.modifyFirst test change inner).Ascending key le := by
  induction t with
  | nil => exact trivial
  | cons d children next children_ih next_ih =>
      obtain ⟨least, inside, after⟩ := sorted
      rw [modifyFirst]
      split
      · refine ⟨fun e later => ?_, below children inside, after⟩
        rw [kept]
        exact least e later
      · refine ⟨fun e later => ?_, inside, next_ih after⟩
        have moved : key e ∈ (next.modifyFirst test change inner).toList.map key :=
          List.mem_map_of_mem later
        rw [map_key_modifyFirst kept] at moved
        obtain ⟨old, stored, same⟩ := List.mem_map.mp moved
        rw [← same]
        exact least old stored

theorem ascending_extend {test : κ → α → Bool} {ensure : κ → SiblingTree α → SiblingTree α}
    {change : α → α} (kept : ∀ d, key (change d) = key d)
    (ensured : ∀ k, ∀ t : SiblingTree α, t.Ascending key le → (ensure k t).Ascending key le)
    (keys : List κ) {t : SiblingTree α} (sorted : t.Ascending key le) :
    (t.extend test ensure change keys).Ascending key le := by
  induction keys generalizing t with
  | nil => exact sorted
  | cons k rest ih =>
      rw [extend]
      apply ascending_modifyFirst _ (fun t known => ih known) (ensured k t sorted)
      intro d
      split
      · exact kept d
      · rfl

section AllAt

variable {α κ ι : Type*} {key : α → ι} {P : List ι → α → Prop}

/-- A property of every node and of the keys on the way to it. -/
def AllAt (key : α → ι) (P : List ι → α → Prop) : List ι → SiblingTree α → Prop
  | _, nil => True
  | path, cons d children next =>
      P (path ++ [key d]) d ∧ children.AllAt key P (path ++ [key d]) ∧ next.AllAt key P path

theorem allAt_toList {path : List ι} {t : SiblingTree α} (all : t.AllAt key P path) :
    ∀ d ∈ t.toList, P (path ++ [key d]) d := by
  induction t with
  | nil =>
      intro d stored
      cases stored
  | cons e children next children_ih next_ih =>
      intro d stored
      rcases List.mem_cons.mp stored with rfl | later
      · exact all.1
      · exact next_ih all.2.2 d later

theorem allAt_first {path : List ι} {test : α → Bool} {t children : SiblingTree α} {d : α}
    (all : t.AllAt key P path) (found : t.first test = some (d, children)) :
    P (path ++ [key d]) d ∧ children.AllAt key P (path ++ [key d]) := by
  induction t with
  | nil => cases found
  | cons e below next below_ih next_ih =>
      rw [first] at found
      split at found
      · cases found
        exact ⟨all.1, all.2.1⟩
      · exact next_ih all.2.2 found

theorem allAt_modifyFirst {path : List ι} {test : α → Bool} {change : α → α}
    {inner : SiblingTree α → SiblingTree α} {t : SiblingTree α} (kept : ∀ d, key (change d) = key d)
    (changed : ∀ d, test d = true → P (path ++ [key d]) d → P (path ++ [key d]) (change d))
    (below : ∀ d, test d = true → ∀ t : SiblingTree α, t.AllAt key P (path ++ [key d]) →
      (inner t).AllAt key P (path ++ [key d])) (all : t.AllAt key P path) :
    (t.modifyFirst test change inner).AllAt key P path := by
  induction t with
  | nil => exact trivial
  | cons d children next children_ih next_ih =>
      rw [modifyFirst]
      split
      · rename_i passed
        rw [AllAt, kept]
        exact ⟨changed d passed all.1, below d passed children all.2.1, all.2.2⟩
      · exact ⟨all.1, all.2.1, next_ih all.2.2⟩

/-- Nodes that are changed along any way keep what the change keeps. -/
theorem allAt_extend_kept {test : κ → α → Bool} {change : α → α} {path : List ι} (keys : List κ)
    {t : SiblingTree α} (kept : ∀ d, key (change d) = key d)
    (changed : ∀ path d, P path d → P path (change d)) (all : t.AllAt key P path) :
    (t.extend test (fun _ t => t) change keys).AllAt key P path := by
  induction keys generalizing path t with
  | nil => exact all
  | cons k rest ih =>
      rw [extend]
      apply allAt_modifyFirst _ _ _ all
      · intro d
        split
        · exact kept d
        · rfl
      · intro d _ known
        split
        · exact changed _ d known
        · exact known
      · intro d _ t known
        exact ih known

/-- A tree is extended at its own places, where the tests name the keys. -/
theorem allAt_extend {norm : κ → ι} {test : κ → α → Bool}
    {ensure : κ → SiblingTree α → SiblingTree α} {change : α → α} {path : List ι} (keys : List κ)
    {t : SiblingTree α} (named : ∀ k d, test k d = true → key d = norm k)
    (kept : ∀ d, key (change d) = key d)
    (ensured : ∀ (above : List κ) k (t : SiblingTree α), above ++ [k] <+: keys →
      t.AllAt key P (path ++ above.map norm) → (ensure k t).AllAt key P (path ++ above.map norm))
    (changed : ∀ d, P (path ++ keys.map norm) d → P (path ++ keys.map norm) (change d))
    (all : t.AllAt key P path) : (t.extend test ensure change keys).AllAt key P path := by
  induction keys generalizing path t with
  | nil => exact all
  | cons k rest ih =>
      have ready : (ensure k t).AllAt key P path := by
        have first := ensured [] k t (by simp)
        rw [List.map_nil, List.append_nil] at first
        exact first all
      rw [extend]
      apply allAt_modifyFirst _ _ _ ready
      · intro d
        split
        · exact kept d
        · rfl
      · intro d passed known
        split
        · rename_i last
          subst last
          rw [named k d passed] at known ⊢
          exact changed d known
        · exact known
      · intro d passed t known
        rw [named k d passed] at known ⊢
        apply ih _ _ known
        · intro above k' t start
          have deeper := ensured (k :: above) k' t (List.cons_prefix_cons.mpr ⟨rfl, start⟩)
          rw [List.map_cons, List.append_cons] at deeper
          exact deeper
        · intro d
          have deeper := changed d
          rw [List.map_cons, List.append_cons] at deeper
          exact deeper

/-- The first node that passes is changed. -/
theorem allAt_modifyFirst_first {path : List ι} {test : α → Bool} {change : α → α}
    {inner : SiblingTree α → SiblingTree α} {t children : SiblingTree α} {d : α}
    (found : t.first test = some (d, children)) (kept : key (change d) = key d)
    (changed : P (path ++ [key d]) d → P (path ++ [key d]) (change d))
    (below : children.AllAt key P (path ++ [key d]) →
      (inner children).AllAt key P (path ++ [key d])) (all : t.AllAt key P path) :
    (t.modifyFirst test change inner).AllAt key P path := by
  induction t with
  | nil => exact trivial
  | cons e inside next inside_ih next_ih =>
      rw [first] at found
      rw [modifyFirst]
      split at found
      · rename_i passed
        cases found
        rw [if_pos passed, AllAt, kept]
        exact ⟨changed all.1, below all.2.1, all.2.2⟩
      · rename_i failed
        rw [if_neg failed]
        exact ⟨all.1, all.2.1, next_ih found all.2.2⟩

/-- Only the node at the end of a way that is there already is changed. -/
theorem allAt_extend_present {norm : κ → ι} {test : κ → α → Bool}
    {ensure : κ → SiblingTree α → SiblingTree α} {change : α → α} {path : List ι} {keys : List κ}
    {t : SiblingTree α} {above : List α} {d : α}
    (named : ∀ k d, test k d = true → key d = norm k) (kept : ∀ d, key (change d) = key d)
    (ensured : ∀ k (t : SiblingTree α), (t.first (test k)).isSome = true → ensure k t = t)
    (found : t.walk test keys = some (above ++ [d]))
    (changed : P (path ++ keys.map norm) d → P (path ++ keys.map norm) (change d))
    (all : t.AllAt key P path) : (t.extend test ensure change keys).AllAt key P path := by
  induction keys generalizing path t above with
  | nil => exact all
  | cons k rest ih =>
      obtain ⟨e, children, below, here, deeper, same⟩ := walk_cons.mp found
      have name := named k e (first_passes here)
      rw [extend, ensured k t (by rw [here]; rfl)]
      apply allAt_modifyFirst_first here _ _ _ all
      · split
        · exact kept e
        · rfl
      · intro known
        split
        · rename_i last
          subst last
          cases deeper
          cases above with
          | nil =>
              cases same
              rw [name] at known ⊢
              exact changed known
          | cons f above => simp at same
        · exact known
      · intro known
        rw [name] at known ⊢
        cases rest with
        | nil => exact known
        | cons next rest =>
            cases above with
            | nil =>
                obtain ⟨_, _, _, _, _, rfl⟩ := walk_cons.mp deeper
                simp at same
            | cons f above =>
                rw [List.cons_append, List.cons.injEq] at same
                apply ih (same.2 ▸ deeper) _ known
                rw [List.map_cons, List.append_cons] at changed
                exact changed

/-- A walk meets nodes at the first of its keys. -/
theorem allAt_walk {norm : κ → ι} {test : κ → α → Bool} {path : List ι} {keys : List κ}
    {t : SiblingTree α} {walked : List α} (named : ∀ k d, test k d = true → key d = norm k)
    (all : t.AllAt key P path) (found : t.walk test keys = some walked) :
    ∀ d ∈ walked, ∃ first, first <+: keys ∧ P (path ++ first.map norm) d := by
  induction keys generalizing path t walked with
  | nil =>
      cases found
      intro d inside
      cases inside
  | cons k rest ih =>
      obtain ⟨e, children, below, here, deeper, rfl⟩ := walk_cons.mp found
      obtain ⟨known, inner⟩ := allAt_first all here
      rw [named k e (first_passes here)] at known inner
      intro d inside
      rcases List.mem_cons.mp inside with rfl | inside
      · exact ⟨[k], by simp, known⟩
      · obtain ⟨first, start, known⟩ := ih inner deeper d inside
        refine ⟨k :: first, List.cons_prefix_cons.mpr ⟨rfl, start⟩, ?_⟩
        rw [List.map_cons, List.append_cons]
        exact known

/-- The last node of a walk is at the end of its keys. -/
theorem allAt_walk_concat {norm : κ → ι} {test : κ → α → Bool} {path : List ι} {keys : List κ}
    {t : SiblingTree α} {above : List α} {d : α}
    (named : ∀ k d, test k d = true → key d = norm k) (all : t.AllAt key P path)
    (found : t.walk test keys = some (above ++ [d])) : P (path ++ keys.map norm) d := by
  induction keys generalizing path t above with
  | nil =>
      rw [walk, Option.some.injEq] at found
      exact absurd found (by simp)
  | cons k rest ih =>
      obtain ⟨e, children, below, here, deeper, same⟩ := walk_cons.mp found
      obtain ⟨known, inner⟩ := allAt_first all here
      rw [named k e (first_passes here)] at known inner
      rw [List.map_cons, List.append_cons]
      cases rest with
      | nil =>
          cases deeper
          cases above with
          | nil =>
              cases same
              rw [List.map_nil, List.append_nil]
              exact known
          | cons f above => simp at same
      | cons next rest =>
          cases above with
          | nil =>
              obtain ⟨_, _, _, _, _, rfl⟩ := walk_cons.mp deeper
              simp at same
          | cons f above =>
              rw [List.cons_append, List.cons.injEq] at same
              exact ih inner (same.2 ▸ deeper)

/-- Nodes that are changed everywhere stay in their places. -/
theorem allAt_mapTree {β : Type*} {f : α → β} {key' : β → ι} {Q : List ι → β → Prop}
    {path : List ι} {t : SiblingTree α} (kept : ∀ d, key' (f d) = key d)
    (changed : ∀ path d, P path d → Q path (f d)) (all : t.AllAt key P path) :
    (t.map f).AllAt key' Q path := by
  induction t generalizing path with
  | nil => exact trivial
  | cons d children next children_ih next_ih =>
      rw [map, AllAt, kept]
      exact ⟨changed _ d all.1, children_ih all.2.1, next_ih all.2.2⟩

/-- What all nodes of a tree have may be weakened. -/
theorem allAt_mono {Q : List ι → α → Prop} {path : List ι} {t : SiblingTree α}
    (weaker : ∀ path d, P path d → Q path d) (all : t.AllAt key P path) : t.AllAt key Q path := by
  induction t generalizing path with
  | nil => exact trivial
  | cons d children next children_ih next_ih =>
      exact ⟨weaker _ d all.1, children_ih all.2.1, next_ih all.2.2⟩

end AllAt

variable {α κ ι : Type*} {key : α → ι} {P : α → Prop} {path : List ι} {t : SiblingTree α}

/-- All nodes with their keys from the root, each before its children. -/
def nodesAt (key : α → ι) : List ι → SiblingTree α → List (List ι × α)
  | _, nil => []
  | path, cons d children next =>
      (path ++ [key d], d) :: (children.nodesAt key (path ++ [key d]) ++ next.nodesAt key path)

/-- The nodes without children with their keys from the root. -/
def leavesAt (key : α → ι) : List ι → SiblingTree α → List (List ι × α)
  | _, nil => []
  | path, cons d nil next => (path ++ [key d], d) :: next.leavesAt key path
  | path, cons d (cons e below after) next =>
      (cons e below after).leavesAt key (path ++ [key d]) ++ next.leavesAt key path

/-- A property of the nodes without children. -/
def Tips (P : α → Prop) : SiblingTree α → Prop
  | nil => True
  | cons d children next => (children = nil → P d) ∧ children.Tips P ∧ next.Tips P

theorem allAt_iff {Q : List ι → α → Prop} :
    t.AllAt key Q path ↔ ∀ x ∈ t.nodesAt key path, Q x.1 x.2 := by
  induction t generalizing path with
  | nil => simp [AllAt, nodesAt]
  | cons d children next children_ih next_ih =>
      simp only [AllAt, nodesAt, List.forall_mem_cons, List.forall_mem_append, children_ih, next_ih]

theorem leavesAt_sublist : (t.leavesAt key path).Sublist (t.nodesAt key path) := by
  induction t generalizing path with
  | nil => exact List.Sublist.refl []
  | cons d children next children_ih next_ih =>
      cases children with
      | nil => exact (next_ih).cons_cons _
      | cons e below after => exact (children_ih.append next_ih).cons _

theorem tips_iff : t.Tips P ↔ ∀ x ∈ t.leavesAt key path, P x.2 := by
  induction t generalizing path with
  | nil => simp [Tips, leavesAt]
  | cons d children next children_ih next_ih =>
      cases children with
      | nil =>
          rw [Tips, leavesAt, List.forall_mem_cons, ← next_ih]
          simp [Tips]
      | cons e below after =>
          rw [Tips, leavesAt, List.forall_mem_append, ← children_ih, ← next_ih]
          simp

theorem map_eq_nil {β : Type*} {f : α → β} : t.map f = nil ↔ t = nil := by
  cases t <;> simp [map]

theorem tips_mapTree {β : Type*} {f : α → β} {Q : β → Prop} (kept : ∀ d, Q (f d) ↔ P d) :
    (t.map f).Tips Q ↔ t.Tips P := by
  induction t with
  | nil => exact Iff.rfl
  | cons d children next children_ih next_ih =>
      rw [map, Tips, Tips, children_ih, next_ih, map_eq_nil, kept]

/-- The places below a level start with the key of one of its siblings. -/
theorem start_of_mem_nodesAt {x : List ι × α} (stored : x ∈ t.nodesAt key path) :
    ∃ d ∈ t.toList, path ++ [key d] <+: x.1 := by
  induction t generalizing path with
  | nil => cases stored
  | cons d children next children_ih next_ih =>
      rw [nodesAt, List.mem_cons, List.mem_append] at stored
      rcases stored with rfl | below | later
      · exact ⟨d, List.mem_cons_self, List.prefix_rfl⟩
      · obtain ⟨e, _, start⟩ := children_ih below
        exact ⟨d, List.mem_cons_self, (List.prefix_append _ _).trans start⟩
      · obtain ⟨e, inside, start⟩ := next_ih later
        exact ⟨e, List.mem_cons_of_mem _ inside, start⟩

/-- Siblings with different keys have different places below them. -/
theorem nodup_nodesAt (distinct : t.Ascending key (· ≠ ·)) :
    ((t.nodesAt key path).map Prod.fst).Nodup := by
  induction t generalizing path with
  | nil => exact List.nodup_nil
  | cons d children next children_ih next_ih =>
      obtain ⟨own, inside, after⟩ := distinct
      have longer {x : List ι × α} (below : x ∈ children.nodesAt key (path ++ [key d])) :
          ∃ e, (path ++ [key d]) ++ [e] <+: x.1 := by
        obtain ⟨e, _, start⟩ := start_of_mem_nodesAt below
        exact ⟨key e, start⟩
      have other {x : List ι × α} (later : x ∈ next.nodesAt key path) :
          ¬ path ++ [key d] <+: x.1 := by
        intro start
        obtain ⟨e, stored, start'⟩ := start_of_mem_nodesAt later
        have same : path ++ [key d] = path ++ [key e] :=
          (List.prefix_of_prefix_length_le start start' (by simp)).eq_of_length (by simp)
        exact own e stored (List.append_cancel_left same |> List.singleton_inj.mp)
      rw [nodesAt, List.map_cons, List.map_append, List.nodup_cons, List.nodup_append]
      refine ⟨?_, children_ih inside, next_ih after, ?_⟩
      · intro again
        rw [← List.map_append] at again
        obtain ⟨x, stored, same⟩ := List.mem_map.mp again
        change x.1 = path ++ [key d] at same
        rcases List.mem_append.mp stored with below | later
        · obtain ⟨e, start⟩ := longer below
          have length := start.length_le
          rw [same, List.length_append, List.length_singleton] at length
          omega
        · exact other later ⟨[], by rw [List.append_nil, same]⟩
      · intro first below second later same
        obtain ⟨x, inside, rfl⟩ := List.mem_map.mp below
        obtain ⟨y, outside, rfl⟩ := List.mem_map.mp later
        obtain ⟨e, start⟩ := longer inside
        rw [same] at start
        exact other outside ((List.prefix_append _ _).trans start)

theorem nodup_leavesAt (distinct : t.Ascending key (· ≠ ·)) :
    ((t.leavesAt key path).map Prod.fst).Nodup :=
  (nodup_nodesAt distinct).sublist (leavesAt_sublist.map _)

/-- The end of a walk is listed at its keys. -/
theorem mem_nodesAt_of_walk {norm : κ → ι} {test : κ → α → Bool} {keys : List κ} {above : List α}
    {d : α} (named : ∀ k d, test k d = true → key d = norm k)
    (found : t.walk test keys = some (above ++ [d])) :
    (path ++ keys.map norm, d) ∈ t.nodesAt key path := by
  have all : t.AllAt key (fun place d => (place, d) ∈ t.nodesAt key path) path :=
    allAt_iff.mpr fun x stored => stored
  exact allAt_walk_concat named all found

/-- The changed node may get children or the property itself. -/
theorem tips_modifyFirst {test : α → Bool} {change : α → α}
    {inner : SiblingTree α → SiblingTree α}
    (changed : ∀ d (children : SiblingTree α), (children = nil → P d) → inner children = nil →
      P (change d))
    (below : ∀ t : SiblingTree α, t.Tips P → (inner t).Tips P) (tips : t.Tips P) :
    (t.modifyFirst test change inner).Tips P := by
  induction t with
  | nil => exact trivial
  | cons d children next children_ih next_ih =>
      rw [modifyFirst]
      split
      · exact ⟨changed d children tips.1, below children tips.2.1, tips.2.2⟩
      · exact ⟨tips.1, tips.2.1, next_ih tips.2.2⟩

/-- A tree that has a node stays filled when it is extended without new nodes. -/
theorem modifyFirst_eq_nil {test : α → Bool} {change : α → α}
    {inner : SiblingTree α → SiblingTree α} : t.modifyFirst test change inner = nil ↔ t = nil := by
  cases t with
  | nil => exact Iff.rfl
  | cons d children next =>
      rw [modifyFirst]
      split <;> simp

/-- Changes along a way keep a property of the tips when the change keeps it. -/
theorem tips_extend_kept {test : κ → α → Bool} {change : α → α} (keys : List κ)
    (changed : ∀ d, P d → P (change d)) (tips : t.Tips P) :
    (t.extend test (fun _ t => t) change keys).Tips P := by
  induction keys generalizing t with
  | nil => exact tips
  | cons k rest ih =>
      rw [extend]
      apply tips_modifyFirst _ (fun t known => ih known) tips
      intro d children known empty
      have bare : children = nil := by
        cases rest with
        | nil => exact empty
        | cons next rest =>
            rw [extend] at empty
            exact modifyFirst_eq_nil.mp empty
      split
      · exact changed d (known bare)
      · exact known bare

end SiblingTree
