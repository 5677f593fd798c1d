/-
This file follows the walks through a tree that is extended.
-/

import Neosurf.ToMathlib.SiblingTree.Basic

namespace SiblingTree

section Extend

variable {α κ : Type*}

/-- What `extend` does to the nodes of a walk that it meets. -/
def alter (test : κ → α → Bool) (change : α → α) : List κ → List α → List α
  | key :: rest, d :: below =>
      if test key d then (if rest = [] then change else id) d :: alter test change rest below
      else d :: below
  | _, walked => walked

variable {test : κ → α → Bool} {ensure : κ → SiblingTree α → SiblingTree α} {change : α → α}
  {fresh : κ → α}

/-- The search for a key in an extended tree. -/
theorem first_extend_cons (agree : ∀ k k' d e, test k d = true → test k e = true → test k' d = test k' e)
    (kept : ∀ k d, test k (change d) = test k d) {key other : κ} {rest : List κ}
    {t : SiblingTree α} :
    (t.extend test ensure change (key :: rest)).first (test other) =
      ((ensure key t).first (test other)).map fun p =>
        if test key p.1 then
          ((if rest = [] then change else id) p.1, p.2.extend test ensure change rest)
        else p := by
  rw [extend]
  apply first_modifyFirst (agree key other)
  intro d
  split
  · exact kept other d
  · rfl

/-- A walk that was possible meets the same nodes in an extended tree, but for the change. -/
theorem walk_extend (agree : ∀ k k' d e, test k d = true → test k e = true → test k' d = test k' e)
    (kept : ∀ k d, test k (change d) = test k d)
    (ensured : ∀ k k' (t : SiblingTree α) p, t.first (test k') = some p →
      (ensure k t).first (test k') = some p)
    (keys walkedKeys : List κ) {t : SiblingTree α} {walked : List α}
    (found : t.walk test walkedKeys = some walked) :
    (t.extend test ensure change keys).walk test walkedKeys =
      some (alter test change keys walked) := by
  induction keys generalizing t walkedKeys walked with
  | nil =>
      rw [extend, found]
      cases walked <;> rfl
  | cons key rest ih =>
      cases walkedKeys with
      | nil =>
          cases found
          rfl
      | cons other others =>
          obtain ⟨d, children, below, here, deeper, rfl⟩ := walk_cons.mp found
          have there : (t.extend test ensure change (key :: rest)).first (test other) = _ :=
            first_extend_cons agree kept
          rw [ensured key other t _ here, Option.map_some] at there
          rw [alter]
          by_cases same : test key d = true
          · rw [if_pos same] at there
            rw [if_pos same]
            exact walk_cons.mpr ⟨_, _, _, there, ih others deeper, rfl⟩
          · rw [if_neg same] at there
            rw [if_neg same]
            exact walk_cons.mpr ⟨_, _, _, there, deeper, rfl⟩

theorem walk_eq_none {key : κ} {rest : List κ} {t : SiblingTree α}
    (absent : t.first (test key) = none) : t.walk test (key :: rest) = none := by
  simp [walk, absent]

/-- The way that was made complete can be walked. Its last node was there before, or it is a
fresh one. -/
theorem walk_extend_self
    (agree : ∀ k k' d e, test k d = true → test k e = true → test k' d = test k' e)
    (kept : ∀ k d, test k (change d) = test k d)
    (ensured : ∀ k k' (t : SiblingTree α) p, t.first (test k') = some p →
      (ensure k t).first (test k') = some p)
    (added : ∀ k (t : SiblingTree α), t.first (test k) = none →
      (ensure k t).first (test k) = some (fresh k, nil))
    (key : κ) (rest : List κ) (t : SiblingTree α) :
    ∃ above d, (t.extend test ensure change (key :: rest)).walk test (key :: rest) =
        some (above ++ [change d]) ∧
      ((∃ before, t.walk test (key :: rest) = some (before ++ [d])) ∨
        t.walk test (key :: rest) = none ∧ ∃ k, d = fresh k) := by
  induction rest generalizing key t with
  | nil =>
      have there : (t.extend test ensure change [key]).first (test key) = _ :=
        first_extend_cons agree kept
      cases here : t.first (test key) with
      | none =>
          have new := added key t here
          rw [new, Option.map_some, if_pos (first_passes new), if_pos rfl] at there
          refine ⟨[], fresh key, walk_cons.mpr ⟨_, _, [], there, rfl, rfl⟩, Or.inr ⟨?_, key, rfl⟩⟩
          exact walk_eq_none here
      | some p =>
          obtain ⟨d, children⟩ := p
          rw [ensured key key t _ here, Option.map_some, if_pos (first_passes here), if_pos rfl]
            at there
          exact ⟨[], d, walk_cons.mpr ⟨_, _, [], there, rfl, rfl⟩,
            Or.inl ⟨[], walk_cons.mpr ⟨d, children, [], here, rfl, rfl⟩⟩⟩
  | cons next rest ih =>
      have there : (t.extend test ensure change (key :: next :: rest)).first (test key) = _ :=
        first_extend_cons agree kept
      cases here : t.first (test key) with
      | none =>
          have new := added key t here
          rw [new, Option.map_some, if_pos (first_passes new), if_neg (List.cons_ne_nil _ _)]
            at there
          obtain ⟨above, d, walked, before⟩ := ih next nil
          refine ⟨fresh key :: above, d, walk_cons.mpr ⟨_, _, _, there, walked, rfl⟩, Or.inr ⟨?_, ?_⟩⟩
          · exact walk_eq_none here
          · rcases before with ⟨before, impossible⟩ | ⟨_, new⟩
            · obtain ⟨_, _, _, impossible, _⟩ := walk_cons.mp impossible
              cases impossible
            · exact new
      | some p =>
          obtain ⟨e, children⟩ := p
          rw [ensured key key t _ here, Option.map_some, if_pos (first_passes here),
            if_neg (List.cons_ne_nil _ _)] at there
          obtain ⟨above, d, walked, before⟩ := ih next children
          refine ⟨e :: above, d, walk_cons.mpr ⟨_, _, _, there, walked, rfl⟩, ?_⟩
          rcases before with ⟨before, walkedBefore⟩ | ⟨absent, new⟩
          · exact Or.inl ⟨e :: before, walk_cons.mpr ⟨e, children, _, here, walkedBefore, rfl⟩⟩
          · refine Or.inr ⟨?_, new⟩
            cases impossible : t.walk test (key :: next :: rest) with
            | none => rfl
            | some walked =>
                obtain ⟨_, _, _, first, deeper, _⟩ := walk_cons.mp impossible
                rw [here] at first
                cases first
                rw [absent] at deeper
                cases deeper

/-- A walk that only became possible ends at a fresh node. -/
theorem walk_extend_fresh (Fresh : α → Prop)
    (agree : ∀ k k' d e, test k d = true → test k e = true → test k' d = test k' e)
    (kept : ∀ k d, test k (change d) = test k d)
    (ensured : ∀ k k' (t : SiblingTree α) p, t.first (test k') = some p →
      (ensure k t).first (test k') = some p)
    (new : ∀ k k' (t : SiblingTree α) d children, t.first (test k') = none →
      (ensure k t).first (test k') = some (d, children) → Fresh d ∧ children = nil)
    (changed : ∀ d, Fresh d → Fresh (change d)) (keys others : List κ) {t : SiblingTree α}
    {walked : List α} (absent : t.walk test others = none)
    (found : (t.extend test ensure change keys).walk test others = some walked) :
    ∃ above d, walked = above ++ [d] ∧ Fresh d := by
  induction keys generalizing t others walked with
  | nil =>
      rw [extend, absent] at found
      cases found
  | cons key rest ih =>
      cases others with
      | nil => cases absent
      | cons other others =>
          obtain ⟨e, below, deep, there, deeper, rfl⟩ := walk_cons.mp found
          rw [first_extend_cons agree kept, Option.map_eq_some_iff] at there
          obtain ⟨⟨d, children⟩, there, same⟩ := there
          have inner (absent : children.walk test others = none) :
              ∃ above d, e :: deep = above ++ [d] ∧ Fresh d := by
            split at same
            · cases same
              obtain ⟨above, f, rfl, fresh⟩ := ih others absent deeper
              exact ⟨_ :: above, f, rfl, fresh⟩
            · cases same
              rw [absent] at deeper
              cases deeper
          cases here : t.first (test other) with
          | none =>
              obtain ⟨fresh, rfl⟩ := new key other t d children here there
              cases others with
              | nil =>
                  cases deeper
                  refine ⟨[], e, rfl, ?_⟩
                  split at same <;> cases same
                  · dsimp only
                    split
                    · exact changed d fresh
                    · exact fresh
                  · exact fresh
              | cons next others => exact inner (walk_eq_none rfl)
          | some p =>
              rw [ensured key other t p here] at there
              cases there
              apply inner
              cases impossible : children.walk test others with
              | none => rfl
              | some walked =>
                  rw [walk_cons.mpr ⟨d, children, walked, here, impossible, rfl⟩] at absent
                  cases absent

theorem extend_map {ι : Type*} (f : ι → κ) (keys : List ι) (t : SiblingTree α) :
    t.extend (fun i => test (f i)) (fun i => ensure (f i)) change keys =
      t.extend test ensure change (keys.map f) := by
  induction keys generalizing t with
  | nil => rfl
  | cons key rest ih =>
      have inner : extend (fun i => test (f i)) (fun i => ensure (f i)) change rest =
          extend test ensure change (rest.map f) := funext ih
      simp only [extend, List.map_cons, List.map_eq_nil_iff, inner]

/-- What the change keeps, it keeps along a walk. -/
theorem map_alter {β : Type*} {g : α → β} (kept : ∀ d, g (change d) = g d) (keys : List κ)
    (walked : List α) : (alter test change keys walked).map g = walked.map g := by
  induction keys generalizing walked with
  | nil => cases walked <;> rfl
  | cons key rest ih =>
      cases walked with
      | nil => rfl
      | cons d below =>
          rw [alter]
          split
          · rw [List.map_cons, List.map_cons, ih]
            split
            · rw [kept]
            · rfl
          · rfl

theorem alter_id (keys : List κ) (walked : List α) : alter test id keys walked = walked := by
  induction keys generalizing walked with
  | nil => cases walked <;> rfl
  | cons key rest ih =>
      cases walked with
      | nil => rfl
      | cons d below =>
          rw [alter, ih, ite_self]
          split <;> rfl

theorem length_alter (keys : List κ) (walked : List α) :
    (alter test change keys walked).length = walked.length := by
  induction keys generalizing walked with
  | nil => cases walked <;> rfl
  | cons key rest ih =>
      cases walked with
      | nil => rfl
      | cons d below =>
          rw [alter]
          split
          · rw [List.length_cons, List.length_cons, ih]
          · rfl

/-- The last node of a walk along the changed way is changed. -/
theorem alter_of_forall₂ {keys : List κ} {above : List α} {d : α}
    (along : List.Forall₂ (fun key d => test key d = true) keys (above ++ [d])) :
    alter test change keys (above ++ [d]) = above ++ [change d] := by
  induction above generalizing keys with
  | nil =>
      cases along with
      | cons passed rest =>
          cases rest
          rw [List.nil_append, alter, if_pos passed, if_pos rfl]
          rfl
  | cons e above ih =>
      cases along with
      | @cons key _ rest _ passed along =>
          have more : rest ≠ [] := by
            rintro rfl
            cases above <;> cases along
          rw [List.cons_append, alter, if_pos passed, if_neg more, ih along]
          rfl

/-- The last node of another walk is not changed. -/
theorem getLast?_alter {keys : List κ} {walked : List α}
    (apart : ¬ List.Forall₂ (fun key d => test key d = true) keys walked) :
    (alter test change keys walked).getLast? = walked.getLast? := by
  induction keys generalizing walked with
  | nil => cases walked <;> rfl
  | cons key rest ih =>
      cases walked with
      | nil => rfl
      | cons d below =>
          rw [alter]
          by_cases passed : test key d = true
          · rw [if_pos passed]
            have deeper := ih fun along => apart (.cons passed along)
            cases below with
            | nil =>
                have more : rest ≠ [] := by
                  rintro rfl
                  exact apart (.cons passed .nil)
                rw [if_neg more]
                cases rest <;> rfl
            | cons e below =>
                have nonempty : (alter test change rest (e :: below)).length = (e :: below).length :=
                  length_alter rest (e :: below)
                cases changed : alter test change rest (e :: below) with
                | nil => rw [changed] at nonempty; cases nonempty
                | cons f after =>
                    rw [changed] at deeper
                    rw [List.getLast?_cons_cons, List.getLast?_cons_cons, deeper]
          · rw [if_neg passed]

end Extend

section View

variable {α κ β : Type*} {test : κ → α → Bool} {ensure : κ → SiblingTree α → SiblingTree α}

  {change : α → α} {view : α → β} {missing : β}

/-- What is seen of the node at the end of these keys, and of a missing node. -/
def seenAt (test : κ → α → Bool) (view : α → β) (missing : β) (keys : List κ) (t : SiblingTree α) :
    β :=
  (((t.walk test keys).bind List.getLast?).map view).getD missing

theorem seenAt_of_walk {keys : List κ} {t : SiblingTree α} {above : List α} {d : α}
    (found : t.walk test keys = some (above ++ [d])) : t.seenAt test view missing keys = view d := by
  rw [seenAt, found, Option.bind_some, List.getLast?_concat, Option.map_some, Option.getD_some]

theorem seenAt_of_none {keys : List κ} {t : SiblingTree α} (absent : t.walk test keys = none) :
    t.seenAt test view missing keys = missing := by
  rw [seenAt, absent]
  rfl

theorem seenAt_congr {keys keys' : List κ}
    (same : List.Forall₂ (fun k k' => test k = test k') keys keys') (t : SiblingTree α) :
    t.seenAt test view missing keys = t.seenAt test view missing keys' := by
  rw [seenAt, seenAt, walk_congr same]

/-- A node that is missing stays missing when only others are changed. -/
theorem walk_extend_eq_none
    (agree : ∀ k k' d e, test k d = true → test k e = true → test k' d = test k' e)
    (kept : ∀ k d, test k (change d) = test k d) (keys : List κ) {others : List κ}
    {t : SiblingTree α} (absent : t.walk test others = none) :
    (t.extend test (fun _ t => t) change keys).walk test others = none := by
  cases found : (t.extend test (fun _ t => t) change keys).walk test others with
  | none => rfl
  | some walked =>
      have fresh := walk_extend_fresh (fun _ => False) agree kept (fun _ _ _ _ here => here)
        (fun _ _ t d children none_here here => by
          rw [none_here] at here
          cases here) (fun _ impossible => impossible) keys others absent found
      obtain ⟨_, _, _, impossible⟩ := fresh
      exact impossible.elim

/-- A way that is made complete shows nothing new, when new nodes look like missing ones. -/
theorem seenAt_ensured (Fresh : α → Prop)
    (agree : ∀ k k' d e, test k d = true → test k e = true → test k' d = test k' e)
    (ensured : ∀ k k' (t : SiblingTree α) p, t.first (test k') = some p →
      (ensure k t).first (test k') = some p)
    (new : ∀ k k' (t : SiblingTree α) d children, t.first (test k') = none →
      (ensure k t).first (test k') = some (d, children) → Fresh d ∧ children = nil)
    (unseen : ∀ d, Fresh d → view d = missing) (keys others : List κ) (t : SiblingTree α) :
    (t.extend test ensure id keys).seenAt test view missing others =
      t.seenAt test view missing others := by
  cases found : t.walk test others with
  | some walked =>
      have after : (t.extend test ensure id keys).walk test others =
          some (alter test id keys walked) :=
        walk_extend agree (fun _ _ => rfl) ensured keys others found
      rw [seenAt, seenAt, after, alter_id, found]
  | none =>
      rw [seenAt_of_none found]
      cases added : (t.extend test ensure id keys).walk test others with
      | none => exact seenAt_of_none added
      | some walked =>
          obtain ⟨above, d, rfl, fresh⟩ := walk_extend_fresh Fresh agree (fun _ _ => rfl) ensured new
            (fun _ fresh => fresh) keys others found added
          rw [seenAt_of_walk added, unseen d fresh]

/-- The change of a node is seen at its end of the way. -/
theorem seenAt_changed_self
    (agree : ∀ k k' d e, test k d = true → test k e = true → test k' d = test k' e)
    (kept : ∀ k d, test k (change d) = test k d) {keys : List κ} {t : SiblingTree α}
    {above : List α} {d : α} (present : t.walk test keys = some (above ++ [d])) :
    (t.extend test (fun _ t => t) change keys).seenAt test view missing keys = view (change d) := by
  have after : (t.extend test (fun _ t => t) change keys).walk test keys =
      some (above ++ [change d]) := by
    rw [walk_extend agree kept (fun _ _ _ _ found => found) keys keys present,
      alter_of_forall₂ (forall₂_walk present)]
  exact seenAt_of_walk after

/-- The change of a node is not seen elsewhere. -/
theorem seenAt_changed_other
    (agree : ∀ k k' d e, test k d = true → test k e = true → test k' d = test k' e)
    (kept : ∀ k d, test k (change d) = test k d) {keys others : List κ} {t : SiblingTree α}
    (apart : ∀ walked, t.walk test others = some walked →
      ¬ List.Forall₂ (fun k d => test k d = true) keys walked) :
    (t.extend test (fun _ t => t) change keys).seenAt test view missing others =
      t.seenAt test view missing others := by
  cases found : t.walk test others with
  | none => rw [seenAt_of_none found, seenAt_of_none (walk_extend_eq_none agree kept keys found)]
  | some walked =>
      have after : (t.extend test (fun _ t => t) change keys).walk test others = some _ :=
        walk_extend agree kept (fun _ _ _ _ found => found) keys others found
      rw [seenAt, seenAt, after, found, Option.bind_some, Option.bind_some,
        getLast?_alter (apart walked found)]

/-- A change that is not seen may be anywhere. -/
theorem seenAt_changed_kept
    (agree : ∀ k k' d e, test k d = true → test k e = true → test k' d = test k' e)
    (kept : ∀ k d, test k (change d) = test k d) (unseen : ∀ d, view (change d) = view d)
    (keys others : List κ) (t : SiblingTree α) :
    (t.extend test (fun _ t => t) change keys).seenAt test view missing others =
      t.seenAt test view missing others := by
  cases found : t.walk test others with
  | none => rw [seenAt_of_none found, seenAt_of_none (walk_extend_eq_none agree kept keys found)]
  | some walked =>
      have after : (t.extend test (fun _ t => t) change keys).walk test others = some _ :=
        walk_extend agree kept (fun _ _ _ _ found => found) keys others found
      have same : (alter test change keys walked).map view = _ := map_alter unseen keys walked
      rw [seenAt, seenAt, after, found, Option.bind_some, Option.bind_some, ← List.getLast?_map,
        same, List.getLast?_map]

theorem modifyFirst_modifyFirst {pass : α → Bool} {first second : α → α}
    {inner outer : SiblingTree α → SiblingTree α} (kept : ∀ d, pass (first d) = pass d)
    (t : SiblingTree α) : (t.modifyFirst pass first inner).modifyFirst pass second outer =
      t.modifyFirst pass (fun d => second (first d)) fun t => outer (inner t) := by
  induction t with
  | nil => rfl
  | cons d children next children_ih next_ih =>
      rw [modifyFirst, modifyFirst]
      by_cases passed : pass d = true
      · rw [if_pos passed, if_pos passed, modifyFirst, if_pos ((kept d).trans passed)]
      · rw [if_neg passed, if_neg passed, modifyFirst, if_neg passed, next_ih]

/-- A way is first made complete, then the node at its end is changed. -/
theorem extend_eq_changed (keys : List κ) (t : SiblingTree α) : t.extend test ensure change keys =
    (t.extend test ensure id keys).extend test (fun _ t => t) change keys := by
  induction keys generalizing t with
  | nil => rfl
  | cons k rest ih =>
      have same (d : α) : test k ((if rest = [] then id else id) d) = test k d := by
        rw [ite_self]
        rfl
      rw [extend, extend, extend, modifyFirst_modifyFirst same]
      congr 1
      · funext d
        rw [ite_self]
        rfl
      · funext t
        exact ih t

end View

end SiblingTree
