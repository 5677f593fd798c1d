import Neosurf.Proof.Urldb.PathTree

namespace Neosurf.Urldb

open SiblingTree

variable {scheme : LwcString} {port : Nat}

/-- A lookup finds its way down a chain of nodes with these segments. -/
def covers : List Bytes → List Bytes → Bool
  | _, [] => true
  | [], _ :: _ => false
  | segment :: rest, looked :: others => startsWith looked segment && covers rest others

namespace Paths

/-- When the path `added` is added, its first new node comes before the node that the lookup
of `looked` took, starts with the same segment and leads nowhere. -/
def diverts (scheme : LwcString) (port : Nat) : List Bytes → List Bytes → Paths → Bool
  | segment :: rest, looked :: others, t =>
      match t.first (PathData.isAt scheme port segment) with
      | some (_, children) =>
          (t.first (PathData.matches scheme port looked)).any
            (fun p => p.1.isAt scheme port segment) && diverts scheme port rest others children
      | none =>
          startsWith looked segment && !covers rest others &&
            !t.toList.any fun e =>
              e.matches scheme port looked && (strcmp e.segment segment).isLE
  | _, _, _ => false

theorem le_of_first {other : PathData → Bool} {t children : Paths} {d e : PathData}
    (sorted : Ordered t) (found : t.first other = some (d, children)) (stored : e ∈ t.toList)
    (passed : other e = true) : (strcmp d.segment e.segment).isLE = true := by
  induction t with
  | nil => cases found
  | cons f below next below_ih next_ih =>
      obtain ⟨least, _, after⟩ := sorted
      rw [first] at found
      split at found
      · cases found
        rcases List.mem_cons.mp stored with rfl | later
        · exact Std.ReflCmp.isLE_rfl
        · exact least e later
      · rename_i apart
        rcases List.mem_cons.mp stored with rfl | later
        · exact absurd passed apart
        · exact next_ih after found later

/-- A node that is no greater than a new one stays before it. -/
theorem first_addNode_before {new d : PathData} {other : PathData → Bool} {t children : Paths}
    (sorted : Ordered t) (found : t.first other = some (d, children))
    (before : (strcmp d.segment new.segment).isLE = true) :
    (addNode new t).first other = some (d, children) := by
  induction t with
  | nil => cases found
  | cons f below next below_ih next_ih =>
      obtain ⟨least, _, after⟩ := sorted
      have place : (strcmp f.segment d.segment).isLE = true := by
        rcases List.mem_cons.mp (mem_of_first found) with rfl | later
        · exact Std.ReflCmp.isLE_rfl
        · exact least d later
      have keeps := Ordering.isLE_iff_ne_gt.mp (Std.TransCmp.isLE_trans place before)
      rw [addNode, if_neg keeps]
      rw [first] at found ⊢
      split
      · rename_i passed
        rw [if_pos passed] at found
        exact found
      · rename_i apart
        rw [if_neg apart] at found
        exact next_ih after found

/-- A new node comes before all greater ones. -/
theorem first_addNode_new {new : PathData} {other : PathData → Bool} {t : Paths}
    (passed : other new = true)
    (greater : ∀ e ∈ t.toList, other e = true → (strcmp e.segment new.segment).isLE = false) :
    (addNode new t).first other = some (new, .nil) := by
  induction t with
  | nil => simp [addNode, first, passed]
  | cons f below next below_ih next_ih =>
      rw [addNode]
      split
      · rw [first, if_pos passed]
      · rename_i before
        have apart : ¬ other f = true := by
          intro same
          have after := greater f List.mem_cons_self same
          rw [Ordering.isLE_iff_ne_gt.mpr before] at after
          cases after
        rw [first, if_neg apart]
        exact next_ih fun e later => greater e (List.mem_cons_of_mem _ later)

/-- A new node that passes a test comes before all others, or behind the first one. -/
theorem first_addNode_cases {new d : PathData} {other : PathData → Bool} {t children : Paths}
    (sorted : Ordered t) (found : t.first other = some (d, children)) (passed : other new = true) :
    (addNode new t).first other = some (d, children) ∨
      (addNode new t).first other = some (new, .nil) ∧
        ∀ e ∈ t.toList, other e = true → (strcmp e.segment new.segment).isLE = false := by
  cases before : (strcmp d.segment new.segment).isLE with
  | true => exact Or.inl (first_addNode_before sorted found before)
  | false =>
      have greater (e : PathData) (stored : e ∈ t.toList) (same : other e = true) :
          (strcmp e.segment new.segment).isLE = false := by
        rw [Bool.eq_false_iff]
        intro le
        rw [Std.TransCmp.isLE_trans (le_of_first sorted found stored same) le] at before
        cases before
      exact Or.inr ⟨first_addNode_new passed greater, greater⟩

variable {change : PathData → PathData}

/-- The nodes of one segment agree on what a lookup passes. -/
theorem matches_agree {scheme' : LwcString} {port' : Nat} (segment looked : Bytes) (d e : PathData)
    (first : d.isAt scheme port segment = true) (second : e.isAt scheme port segment = true) :
    d.matches scheme' port' looked = e.matches scheme' port' looked := by
  rw [isAt_iff] at first second
  rw [Bool.eq_iff_iff, matches_iff, matches_iff, first.1, second.1, first.2.2, second.2.2,
    ← first.2.1, ← second.2.1]

theorem first_matches_addPath {scheme' : LwcString} {port' : Nat} {segment looked : Bytes}
    {rest : List Bytes} {t : Paths}
    (kept : ∀ looked d, (change d).matches scheme' port' looked = d.matches scheme' port' looked) :
    (addPath scheme port change (segment :: rest) t).first (PathData.matches scheme' port' looked) =
      ((ensure scheme port segment t).first (PathData.matches scheme' port' looked)).map fun p =>
        if p.1.isAt scheme port segment then
          ((if rest = [] then change else id) p.1, addPath scheme port change rest p.2)
        else p := by
  apply first_modifyFirst (matches_agree segment looked)
  intro d
  split
  · exact kept looked d
  · rfl

/-- A fresh chain is walked by the lookups that it covers. -/
theorem walk_of_covers {added looked : List Bytes}
    (kept : ∀ looked d, (change d).matches scheme port looked = d.matches scheme port looked)
    (covered : covers added looked = true) :
    ((addPath scheme port change added .nil).walk (PathData.matches scheme port) looked).isSome =
      true := by
  induction added generalizing looked with
  | nil =>
      cases looked with
      | nil => rfl
      | cons first others => cases covered
  | cons segment rest ih =>
      cases looked with
      | nil => rfl
      | cons first others =>
          rw [covers, Bool.and_eq_true] at covered
          have passed : PathData.matches scheme port first { scheme, port, segment } = true :=
            matches_iff.mpr ⟨List.isPrefixOf_iff_prefix.mp covered.1, rfl, rfl⟩
          have new : (ensure scheme port segment .nil).first (PathData.matches scheme port first) =
              some ({ scheme, port, segment }, .nil) :=
            first_addNode_new (t := .nil) passed fun e impossible => by cases impossible
          have at_new : PathData.isAt scheme port segment { scheme, port, segment } = true :=
            isAt_iff.mpr ⟨rfl, rfl, rfl⟩
          rw [isSome_walk_cons, first_matches_addPath kept, new, Option.map_some, Option.any_some]
          dsimp only
          rw [if_pos at_new]
          exact ih covered.2

/-- An added path leaves a lookup possible, unless it diverts it. -/
theorem walk_addPath {added looked : List Bytes} {t : Paths} (sorted : Ordered t)
    (kept : ∀ looked d, (change d).matches scheme port looked = d.matches scheme port looked)
    (found : (t.walk (PathData.matches scheme port) looked).isSome = true)
    (undiverted : diverts scheme port added looked t = false) :
    ((addPath scheme port change added t).walk (PathData.matches scheme port) looked).isSome =
      true := by
  induction added generalizing looked t with
  | nil => exact found
  | cons segment rest ih =>
      cases looked with
      | nil => rfl
      | cons wanted others =>
          rw [isSome_walk_cons] at found ⊢
          rw [first_matches_addPath kept]
          cases here : t.first (PathData.matches scheme port wanted) with
          | none =>
              rw [here] at found
              cases found
          | some p =>
              obtain ⟨d, children⟩ := p
              rw [here, Option.any_some] at found
              have wants_d := first_passes here
              rw [diverts] at undiverted
              cases there : t.first (PathData.isAt scheme port segment) with
              | some p =>
                  -- The node is there, and the lookup goes through it or apart from it.
                  have same : ensure scheme port segment t = t := by
                    rw [ensure, has_eq_isSome, there]
                    rfl
                  rw [same, here, Option.map_some, Option.any_some]
                  dsimp only
                  by_cases through : d.isAt scheme port segment = true
                  · have weaker (e : PathData) (at_e : e.isAt scheme port segment = true) :
                        e.matches scheme port wanted = true := by
                      rw [matches_agree segment wanted e d at_e through]
                      exact wants_d
                    have first_at := first_of_first weaker here through
                    rw [first_at] at undiverted
                    simp only [here, Option.any_some, through, Bool.true_and] at undiverted
                    rw [if_pos through]
                    exact ih (ascending_first sorted here) found undiverted
                  · rw [if_neg through]
                    exact found
              | none =>
                  -- A new node is added, before or behind the node of the lookup.
                  have absent : t.has (PathData.isAt scheme port segment) = false := by
                    rw [has_eq_isSome, there]
                    rfl
                  have apart : ¬ d.isAt scheme port segment = true := by
                    intro same
                    have present := has_iff.mpr ⟨d, mem_of_first here, same⟩
                    rw [absent] at present
                    cases present
                  have added : ensure scheme port segment t =
                      addNode { scheme, port, segment } t := by
                    rw [ensure, absent]
                    rfl
                  have stays (before : (addNode { scheme, port, segment } t).first
                      (PathData.matches scheme port wanted) = some (d, children)) :
                      ((addNode { scheme, port, segment } t).first
                        (PathData.matches scheme port wanted)).map (fun p =>
                          if p.1.isAt scheme port segment then
                            ((if rest = [] then change else id) p.1,
                              addPath scheme port change rest p.2)
                          else p) = some (d, children) := by
                    rw [before, Option.map_some, if_neg apart]
                  rw [added]
                  simp only [there] at undiverted
                  by_cases catches : startsWith wanted segment = true
                  · have wants_new : PathData.matches scheme port wanted
                        { scheme, port, segment } = true :=
                      matches_iff.mpr ⟨List.isPrefixOf_iff_prefix.mp catches, rfl, rfl⟩
                    rcases first_addNode_cases sorted here wants_new with before | ⟨new, greater⟩
                    · rw [stays before, Option.any_some]
                      exact found
                    · have nothing : (t.toList.any fun e => e.matches scheme port wanted &&
                          (strcmp e.segment segment).isLE) = false := by
                        rw [List.any_eq_false]
                        intro e stored
                        rw [Bool.and_eq_true, not_and]
                        intro same le
                        rw [greater e stored same] at le
                        cases le
                      have covered : covers rest others = true := by
                        simpa [catches, nothing] using undiverted
                      have at_new : PathData.isAt scheme port segment { scheme, port, segment } =
                          true := isAt_iff.mpr ⟨rfl, rfl, rfl⟩
                      rw [new, Option.map_some, Option.any_some]
                      dsimp only
                      rw [if_pos at_new]
                      exact walk_of_covers kept covered
                  · have other : PathData.matches scheme port wanted { scheme, port, segment } =
                        false := by
                      rw [Bool.eq_false_iff]
                      intro same
                      exact catches (List.isPrefixOf_iff_prefix.mpr (matches_iff.mp same).1)
                    rw [stays (by rw [first_addNode other, here]), Option.any_some]
                    exact found

/-- An added path does not show to a lookup under another scheme or port. -/
theorem walk_addPath_other {scheme' : LwcString} {port' : Nat} {added looked : List Bytes}
    {t : Paths} (apart : ¬ (scheme' = scheme ∧ port' = port))
    (kept : ∀ looked d, (change d).matches scheme' port' looked = d.matches scheme' port' looked) :
    (addPath scheme port change added t).walk (PathData.matches scheme' port') looked =
      t.walk (PathData.matches scheme' port') looked := by
  have unseen (segment wanted : Bytes) (d : PathData) (there : d.isAt scheme port segment = true) :
      d.matches scheme' port' wanted = false := by
    rw [Bool.eq_false_iff]
    intro same
    rw [isAt_iff] at there
    rw [matches_iff] at same
    exact apart ⟨by rw [← same.2.1, there.2.1], by rw [← same.2.2, there.2.2]⟩
  have first_eq (segment wanted : Bytes) (rest : List Bytes) :
      (addPath scheme port change (segment :: rest) t).first (PathData.matches scheme' port' wanted) =
        t.first (PathData.matches scheme' port' wanted) := by
    have ensured : (ensure scheme port segment t).first (PathData.matches scheme' port' wanted) =
        t.first (PathData.matches scheme' port' wanted) := by
      rw [ensure]
      split
      · rfl
      · exact first_addNode (unseen segment wanted _ (isAt_iff.mpr ⟨rfl, rfl, rfl⟩))
    rw [first_matches_addPath kept, ensured]
    cases found : t.first (PathData.matches scheme' port' wanted) with
    | none => rfl
    | some p =>
        have elsewhere : ¬ p.1.isAt scheme port segment = true := by
          intro there
          have hidden := unseen segment wanted p.1 there
          rw [first_passes found] at hidden
          cases hidden
        rw [Option.map_some, if_neg elsewhere]
  cases added with
  | nil => rfl
  | cons segment rest =>
      cases looked with
      | nil => rfl
      | cons wanted others => rw [walk, walk, first_eq]

end Paths

end Neosurf.Urldb
