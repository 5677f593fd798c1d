import Neosurf.Proof.Urldb.PathTree
import Neosurf.ToMathlib.Comparing
import Neosurf.ToMathlib.SiblingTree.Extend

namespace Neosurf

open SiblingTree

instance : Std.TransCmp strcasecmp :=
  inferInstanceAs (Std.TransCmp (List.compareLex (compareOn toLower)))

theorem strcasecmp_eq_iff {a b : Bytes} : strcasecmp a b = .eq ↔ folded a = folded b := by
  rw [strcasecmp, List.compareLex_eq_eq_iff, folded, folded, ← List.forall₂_image_iff]
  simp only [compareOn, Std.LawfulEqOrd.compare_eq_iff_eq]

namespace Urldb

@[simp] theorem isNamed_iff {part : Bytes} {h : HostData} :
    h.isNamed part = true ↔ folded part = folded h.part := by
  rw [HostData.isNamed, beq_iff_eq, strcasecmp_eq_iff]

/-- Two host parts with one name agree on every other. -/
theorem isNamed_agree (k k' : Bytes) (d e : HostData) (first : d.isNamed k = true)
    (second : e.isNamed k = true) : d.isNamed k' = e.isNamed k' := by
  rw [isNamed_iff] at first second
  rw [Bool.eq_iff_iff, isNamed_iff, isNamed_iff, ← first, ← second]

theorem isNamed_congr {k k' : Bytes} (same : folded k = folded k') :
    HostData.isNamed k = HostData.isNamed k' := by
  funext h
  rw [Bool.eq_iff_iff, isNamed_iff, isNamed_iff, same]

namespace Hosts

theorem first_ensure_of_first {part other : Bytes} {t : Hosts} {p : HostData × Hosts}
    (found : t.first (HostData.isNamed other) = some p) :
    (ensure part t).first (HostData.isNamed other) = some p := by
  rw [ensure]
  split
  · exact found
  · rename_i absent
    have apart : ¬ HostData.isNamed other { part } = true := by
      intro same
      rw [isNamed_congr (isNamed_iff.mp same)] at found
      rw [has_eq_isSome, found] at absent
      exact absent rfl
    rw [first, if_neg apart, found]

theorem first_ensure_of_none {part : Bytes} {t : Hosts}
    (absent : t.first (HostData.isNamed part) = none) :
    (ensure part t).first (HostData.isNamed part) = some ({ part }, .nil) := by
  have passed : HostData.isNamed part { part } = true := isNamed_iff.mpr rfl
  rw [ensure, has_eq_isSome, absent, Option.isSome_none, if_neg Bool.false_ne_true, first,
    if_pos passed]

theorem folded_of_forall₂ {parts : List Bytes} {walked : List HostData}
    (along : List.Forall₂ (fun part h => HostData.isNamed part h = true) parts walked) :
    (walked.map HostData.part).map folded = parts.map folded := by
  simp only [isNamed_iff] at along
  rw [List.map_map, ← List.forall₂_eq_eq_eq, List.forall₂_map_left_iff, List.forall₂_map_right_iff]
  exact along.flip.imp fun _ _ same => same.symm

/-- The parts of a walk are those that it looks for, up to case. -/
theorem folded_walk {parts : List Bytes} {t : Hosts} {walked : List HostData}
    (found : t.walk parts = some walked) :
    (walked.map HostData.part).map folded = parts.map folded :=
  folded_of_forall₂ (forall₂_walk found)

theorem walk_congr {parts parts' : List Bytes} (same : parts.map folded = parts'.map folded)
    (t : Hosts) : t.walk parts = t.walk parts' := by
  apply SiblingTree.walk_congr
  exact (List.forall₂_image_iff.mpr same).imp fun _ _ => isNamed_congr

/-- An added host leaves every walk as it was. -/
theorem walk_add {parts others : List Bytes} {t : Hosts} {walked : List HostData}
    (found : t.walk others = some walked) : (add parts t).walk others = some walked := by
  have after : (add parts t).walk others = some (alter HostData.isNamed id parts walked) :=
    walk_extend isNamed_agree (fun _ _ => rfl) (fun _ _ _ _ => first_ensure_of_first)
      parts others found
  rw [after, alter_id]

/-- A changed host shows in the walks through it. -/
theorem walk_modifyAt {change : HostData → HostData} (kept : ∀ h, (change h).part = h.part)
    {parts others : List Bytes} {t : Hosts} {walked : List HostData}
    (found : t.walk others = some walked) :
    (modifyAt change parts t).walk others =
      some (alter HostData.isNamed change parts walked) := by
  apply walk_extend isNamed_agree _ (fun _ _ _ _ found => found) parts others found
  intro k h
  rw [HostData.isNamed, HostData.isNamed, kept]

/-- A host that was added can be walked to. Its node was there before, or it is fresh. -/
theorem walk_add_self {parts : List Bytes} (nonempty : parts ≠ []) (t : Hosts) :
    ∃ above h, (add parts t).walk parts = some (above ++ [h]) ∧
      ((∃ before, t.walk parts = some (before ++ [h])) ∨
        t.walk parts = none ∧ ∃ part, h = { part }) := by
  cases parts with
  | nil => exact absurd rfl nonempty
  | cons part rest =>
      exact @walk_extend_self _ _ HostData.isNamed ensure id (fun part => { part }) isNamed_agree
        (fun _ _ => rfl) (fun _ _ _ _ => first_ensure_of_first) (fun _ _ => first_ensure_of_none)
        part rest t

/-- An added host only adds its last label to the top. -/
theorem has_add {part other : Bytes} {rest : List Bytes} {t : Hosts}
    (present : (add (part :: rest) t).has (HostData.isNamed other) = true) :
    t.has (HostData.isNamed other) = true ∨ folded other = folded part := by
  have kept (h : HostData) :
      HostData.isNamed other ((if rest = [] then id else id) h) = HostData.isNamed other h := by
    rw [ite_self]
    rfl
  have before : (ensure part t).has (HostData.isNamed other) = true := by
    have same : (add (part :: rest) t).has (HostData.isNamed other) = _ := has_modifyFirst kept
    rw [← same]
    exact present
  rw [ensure] at before
  split at before
  · exact Or.inl before
  · rw [has, Bool.or_eq_true, isNamed_iff] at before
    exact before.symm

theorem has_modifyAt {change : HostData → HostData} (kept : ∀ h, (change h).part = h.part)
    (parts : List Bytes) (other : Bytes) (t : Hosts) :
    (modifyAt change parts t).has (HostData.isNamed other) = t.has (HostData.isNamed other) := by
  cases parts with
  | nil => rfl
  | cons part rest =>
      apply has_modifyFirst
      intro h
      split
      · rw [HostData.isNamed, HostData.isNamed, kept]
      · rfl

@[simp] theorem part_deleteCookie (domain path name : Bytes) (h : HostData) :
    (h.deleteCookie domain path name).part = h.part := by
  unfold HostData.deleteCookie
  split <;> rfl

theorem first_deleteCookie (domain path name part : Bytes) (t : Hosts) :
    (t.deleteCookie domain path name).first (HostData.isNamed part) =
      (t.first (HostData.isNamed part)).map fun p =>
        (p.1.deleteCookie domain path name, Hosts.deleteCookie domain path name p.2) := by
  induction t with
  | nil => rfl
  | cons h children next _ ih =>
      rw [Hosts.deleteCookie, first, first, HostData.isNamed, part_deleteCookie, ih,
        HostData.isNamed]
      split <;> rfl

theorem has_deleteCookie (domain path name part : Bytes) (t : Hosts) :
    (t.deleteCookie domain path name).has (HostData.isNamed part) =
      t.has (HostData.isNamed part) := by
  rw [has_eq_isSome, has_eq_isSome, first_deleteCookie, Option.isSome_map]

/-- The deletion of a cookie leaves all hosts where they are. -/
theorem walk_deleteCookie {domain path name : Bytes} {parts : List Bytes} {t : Hosts}
    {walked : List HostData} (found : t.walk parts = some walked) :
    (t.deleteCookie domain path name).walk parts =
      some (walked.map (HostData.deleteCookie domain path name)) := by
  induction parts generalizing t walked with
  | nil =>
      cases found
      rfl
  | cons part rest ih =>
      obtain ⟨h, children, below, here, deeper, rfl⟩ := walk_cons.mp found
      apply walk_cons.mpr
      refine ⟨_, _, _, ?_, ih deeper, rfl⟩
      rw [first_deleteCookie, here]
      rfl

end Hosts

end Urldb
end Neosurf
