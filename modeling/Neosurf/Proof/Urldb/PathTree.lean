import Neosurf.ToMathlib.Comparing
import Neosurf.ToMathlib.SiblingTree.Places
import Neosurf.ToMathlib.SiblingTree.Extend
import Neosurf.Construction.Urldb.Operations

namespace Neosurf.Urldb

open SiblingTree

namespace Paths

variable {P : PathData → Prop} {scheme : LwcString} {port : Nat}

theorem all_addNode {new : PathData} {t : Paths} (fresh : P new) (all : t.All P) :
    (addNode new t).All P := by
  induction t with
  | nil => exact ⟨fresh, trivial, trivial⟩
  | cons e children next children_ih next_ih =>
      rw [addNode]
      split
      · exact ⟨fresh, trivial, all⟩
      · exact ⟨all.1, all.2.1, next_ih all.2.2⟩

theorem all_ensure {segment : Bytes} {t : Paths} (fresh : P { scheme, port, segment })
    (all : t.All P) : (ensure scheme port segment t).All P := by
  rw [ensure]
  split
  · exact all
  · exact all_addNode fresh all

/-- The path of a URL only adds fresh nodes and changes one. -/
theorem all_addPath {change : PathData → PathData} (keeps : ∀ d, P d → P (change d))
    (fresh : ∀ segment, P { scheme, port, segment }) (path : List Bytes) {t : Paths}
    (all : t.All P) : (addPath scheme port change path t).All P :=
  all_extend (fun _ d _ => keeps d) (fun segment _ known => all_ensure (fresh segment) known) path all

theorem all_deleteCookie {domain path name : Bytes} {t after : Paths}
    (keeps : ∀ d cookies, P d → removeFrom domain path name d.cookies = some cookies →
      P { d with cookies }) (all : t.All P)
    (done : t.deleteCookie domain path name = some after) : after.All P := by
  induction t generalizing after with
  | nil => cases done
  | cons d children next children_ih next_ih =>
      rw [deleteCookie] at done
      split at done
      · rename_i cookies removed
        cases done
        exact ⟨keeps d cookies all.1 removed, all.2.1, all.2.2⟩
      · split at done
        · rename_i inside
          cases done
          exact ⟨all.1, children_ih all.2.1 inside, all.2.2⟩
        · obtain ⟨rest, found, rfl⟩ := Option.map_eq_some_iff.mp done
          exact ⟨all.1, all.2.1, next_ih all.2.2 found⟩

end Paths

/-- A property of all nodes that a level shows. -/
def Level.All (P : PathData → Prop) (level : Level) : Prop :=
  level.siblings.All P ∧ ∀ p, level.parent = some p → P p

/-- A lookup only shows nodes of the tree. -/
theorem matchPath_all {P : PathData → Prop} {scheme : LwcString} {port : Nat} {level : Level}
    {above levels : List Level} {t : Paths} {path : List Bytes} {node : PathData}
    (here : level.All P) (before : ∀ l ∈ above, l.All P) (all : t.All P)
    (found : matchPath scheme port level above t path = some (node, levels)) :
    P node ∧ ∀ l ∈ levels, l.All P := by
  induction t generalizing level above path with
  | nil => cases found
  | cons d children next children_ih next_ih =>
      cases path with
      | nil => cases found
      | cons segment rest =>
          have both : ∀ l ∈ level :: above, l.All P := by
            intro l inside
            rcases List.mem_cons.mp inside with rfl | inside
            · exact here
            · exact before l inside
          rw [matchPath] at found
          split at found
          · split at found
            · cases found
              exact ⟨all.1, both⟩
            · refine children_ih ⟨all.2.1, fun p same => ?_⟩ both all.2.1 found
              cases same
              exact all.1
          · exact next_ih here before all.2.2 found

namespace Hosts

variable {P : HostData → Prop}

/-- A host only adds fresh nodes. -/
theorem all_add (fresh : ∀ part, P { part }) (parts : List Bytes) {t : Hosts} (all : t.All P) :
    (add parts t).All P := by
  refine all_extend (fun _ _ _ known => known) (fun part t known => ?_) parts all
  rw [ensure]
  split
  · exact known
  · exact ⟨fresh part, trivial, known⟩

theorem all_modifyAt {change : HostData → HostData} (keeps : ∀ h, P h → P (change h))
    (parts : List Bytes) {t : Hosts} (all : t.All P) : (modifyAt change parts t).All P :=
  all_extend (fun _ h _ => keeps h) (fun _ _ known => known) parts all

theorem all_deleteCookie {domain path name : Bytes} {t : Hosts}
    (keeps : ∀ h, P h → P (h.deleteCookie domain path name)) (all : t.All P) :
    (t.deleteCookie domain path name).All P := by
  induction t with
  | nil => exact trivial
  | cons h children next children_ih next_ih =>
      exact ⟨keeps h all.1, children_ih all.2.1, next_ih all.2.2⟩

end Hosts

end Neosurf.Urldb

namespace Neosurf

open SiblingTree

instance : Std.LawfulEqCmp strcmp := inferInstanceAs (Std.LawfulEqCmp (List.compareLex compare))

instance : Std.TransCmp strcmp := inferInstanceAs (Std.TransCmp (List.compareLex compare))

namespace Urldb

variable {scheme : LwcString} {port : Nat}

@[simp] theorem isAt_iff {segment : Bytes} {d : PathData} :
    d.isAt scheme port segment = true ↔
      d.segment = segment ∧ scheme = d.scheme ∧ d.port = port := by
  simp [PathData.isAt, lwcStringIsequal, and_assoc]

/-- Two nodes with one segment, scheme and port agree on every other. -/
theorem isAt_agree (k k' : Bytes) (d e : PathData) (first : d.isAt scheme port k = true)
    (second : e.isAt scheme port k = true) : d.isAt scheme port k' = e.isAt scheme port k' := by
  rw [isAt_iff] at first second
  rw [Bool.eq_iff_iff, isAt_iff, isAt_iff, first.1, second.1, first.2.2, second.2.2, ← first.2.1,
    ← second.2.1]

@[simp] theorem matches_iff {segment : Bytes} {d : PathData} :
    d.matches scheme port segment = true ↔
      segment <+: d.segment ∧ d.scheme = scheme ∧ d.port = port := by
  simp [PathData.matches, lwcStringIsequal, startsWith, and_assoc]

namespace Paths

/-- The siblings on every level are in the order of their segments. -/
def Ordered (t : Paths) : Prop := t.Ascending PathData.segment fun a b => (strcmp a b).isLE = true

theorem first_addNode {new : PathData} {other : PathData → Bool} {t : Paths}
    (apart : other new = false) : (addNode new t).first other = t.first other := by
  induction t with
  | nil => simp [addNode, first, apart]
  | cons e children next children_ih next_ih =>
      rw [addNode]
      split
      · rw [first, apart]
        rfl
      · rw [first, first, next_ih]

theorem first_addNode_self {new : PathData} {other : PathData → Bool} {t : Paths}
    (passed : other new = true) (absent : t.first other = none) :
    (addNode new t).first other = some (new, .nil) := by
  induction t with
  | nil => simp [addNode, first, passed]
  | cons e children next children_ih next_ih =>
      rw [first] at absent
      split at absent
      · cases absent
      · rename_i other_e
        rw [addNode]
        split
        · rw [first, passed]
          rfl
        · rw [first, if_neg other_e, next_ih absent]

theorem mem_addNode {new d : PathData} {t : Paths} (stored : d ∈ (addNode new t).toList) :
    d = new ∨ d ∈ t.toList := by
  induction t with
  | nil => exact Or.inl (List.mem_singleton.mp stored)
  | cons e children next children_ih next_ih =>
      rw [addNode] at stored
      split at stored
      · exact List.mem_cons.mp stored
      · rcases List.mem_cons.mp stored with rfl | later
        · exact Or.inr List.mem_cons_self
        · exact (next_ih later).imp_right (List.mem_cons_of_mem _)

/-- A new node enters at its place in the order. -/
theorem ordered_addNode {new : PathData} {t : Paths} (sorted : Ordered t) :
    Ordered (addNode new t) := by
  induction t with
  | nil =>
      refine ⟨fun e impossible => ?_, trivial, trivial⟩
      cases impossible
  | cons e children next children_ih next_ih =>
      obtain ⟨least, inside, after⟩ := sorted
      rw [addNode]
      split
      · rename_i greater
        have before : (strcmp new.segment e.segment).isLE = true :=
          Ordering.isLE_of_eq_lt (Std.OrientedCmp.gt_iff_lt.mp greater)
        refine ⟨fun f later => ?_, trivial, least, inside, after⟩
        rcases List.mem_cons.mp later with rfl | later
        · exact before
        · exact Std.TransCmp.isLE_trans before (least f later)
      · rename_i before
        refine ⟨fun f later => ?_, inside, next_ih after⟩
        rcases mem_addNode later with rfl | old
        · exact Ordering.isLE_iff_ne_gt.mpr before
        · exact least f old

theorem first_ensure_of_first {scheme' : LwcString} {port' : Nat} {segment other : Bytes} {t : Paths}
    {p : PathData × Paths} (found : t.first (PathData.isAt scheme' port' other) = some p) :
    (ensure scheme port segment t).first (PathData.isAt scheme' port' other) = some p := by
  rw [ensure]
  split
  · exact found
  · rename_i absent
    rw [first_addNode, found]
    rw [Bool.eq_false_iff]
    intro same
    obtain ⟨rfl, rfl, rfl⟩ := isAt_iff.mp same
    rw [has_eq_isSome, found] at absent
    exact absent rfl

theorem first_ensure_of_none {segment : Bytes} {t : Paths}
    (absent : t.first (PathData.isAt scheme port segment) = none) :
    (ensure scheme port segment t).first (PathData.isAt scheme port segment) =
      some ({ scheme, port, segment }, .nil) := by
  rw [ensure, has_eq_isSome, absent]
  exact first_addNode_self (isAt_iff.mpr ⟨rfl, rfl, rfl⟩) absent

theorem ordered_ensure {segment : Bytes} {t : Paths} (sorted : Ordered t) :
    Ordered (ensure scheme port segment t) := by
  rw [ensure]
  split
  · exact sorted
  · exact ordered_addNode sorted

theorem ordered_addPath {change : PathData → PathData} {path : List Bytes} {t : Paths}
    (kept : ∀ d, (change d).segment = d.segment) (sorted : Ordered t) :
    Ordered (addPath scheme port change path t) :=
  ascending_extend kept (fun _ _ known => ordered_ensure known) path sorted

/-- A deleted cookie leaves all nodes in their places. -/
theorem segments_deleteCookie {domain path name : Bytes} {t after : Paths}
    (done : t.deleteCookie domain path name = some after) :
    after.toList.map PathData.segment = t.toList.map PathData.segment := by
  induction t generalizing after with
  | nil => cases done
  | cons d children next children_ih next_ih =>
      rw [deleteCookie] at done
      split at done
      · cases done
        rfl
      · split at done
        · cases done
          rfl
        · obtain ⟨rest, found, rfl⟩ := Option.map_eq_some_iff.mp done
          rw [toList, toList, List.map_cons, List.map_cons, next_ih found]

theorem ordered_deleteCookie {domain path name : Bytes} {t after : Paths} (sorted : Ordered t)
    (done : t.deleteCookie domain path name = some after) : Ordered after := by
  induction t generalizing after with
  | nil => cases done
  | cons d children next children_ih next_ih =>
      obtain ⟨least, inside, later⟩ := sorted
      rw [deleteCookie] at done
      split at done
      · cases done
        exact ⟨least, inside, later⟩
      · split at done
        · rename_i found
          cases done
          exact ⟨least, children_ih inside found, later⟩
        · obtain ⟨rest, found, rfl⟩ := Option.map_eq_some_iff.mp done
          refine ⟨fun e stored => ?_, inside, next_ih later found⟩
          have moved : e.segment ∈ rest.toList.map PathData.segment := List.mem_map_of_mem stored
          rw [segments_deleteCookie found] at moved
          obtain ⟨old, inside, same⟩ := List.mem_map.mp moved
          rw [← same]
          exact least old inside

/-- In an ordered tree, the first sibling that starts with a segment is the one that has it. -/
theorem first_matches {segment : Bytes} {t : Paths} (sorted : Ordered t)
    (present : t.has (PathData.isAt scheme port segment) = true) :
    t.first (PathData.matches scheme port segment) = t.first (PathData.isAt scheme port segment) := by
  induction t with
  | nil => cases present
  | cons d children next children_ih next_ih =>
      obtain ⟨least, inside, after⟩ := sorted
      rw [first, first]
      by_cases same : d.isAt scheme port segment = true
      · have passed : d.matches scheme port segment = true := by
          obtain ⟨rfl, scheme_eq, port_eq⟩ := isAt_iff.mp same
          exact matches_iff.mpr ⟨List.prefix_rfl, scheme_eq.symm, port_eq⟩
        rw [if_pos same, if_pos passed]
      · have later : next.has (PathData.isAt scheme port segment) = true := by
          rw [has, Bool.or_eq_true] at present
          exact present.resolve_left same
        have apart : ¬ d.matches scheme port segment = true := by
          intro passed
          obtain ⟨⟨rest, longer⟩, scheme_eq, port_eq⟩ := matches_iff.mp passed
          obtain ⟨e, stored, there⟩ := has_iff.mp later
          have order := least e stored
          rw [(isAt_iff.mp there).1, ← longer] at order
          have exact_segment : rest = [] := by
            by_contra more
            have greater : strcmp (segment ++ rest) segment = .gt :=
              List.compareLex_append_self segment more
            rw [greater] at order
            cases order
          rw [exact_segment, List.append_nil] at longer
          exact same (isAt_iff.mpr ⟨longer.symm, scheme_eq.symm, port_eq⟩)
        rw [if_neg same, if_neg apart]
        exact next_ih after later

end Paths

/-- A lookup takes the first sibling that starts with the segment. -/
theorem matchPath_cons {level : Level} {above : List Level} {t : Paths} {segment : Bytes}
    {rest : List Bytes} : matchPath scheme port level above t (segment :: rest) =
      match t.first (PathData.matches scheme port segment) with
      | none => none
      | some (d, children) =>
          if rest = [] then some (d, level :: above)
          else matchPath scheme port ⟨some d, children⟩ (level :: above) children rest := by
  induction t with
  | nil => rfl
  | cons d children next children_ih next_ih =>
      rw [matchPath, first]
      split
      · rfl
      · exact next_ih

/-- The node that a lookup answers is the last one of its walk. -/
theorem matchPath_node {level : Level} {above : List Level} {t : Paths} (segment : Bytes)
    (rest : List Bytes) : (matchPath scheme port level above t (segment :: rest)).map Prod.fst =
      (t.walk (PathData.matches scheme port) (segment :: rest)).bind List.getLast? := by
  induction rest generalizing level above t segment with
  | nil =>
      rw [matchPath_cons, walk]
      cases t.first (PathData.matches scheme port segment) with
      | none => rfl
      | some p => rfl
  | cons next rest ih =>
      rw [matchPath_cons, walk]
      cases t.first (PathData.matches scheme port segment) with
      | none => rfl
      | some p =>
          obtain ⟨d, children⟩ := p
          dsimp only
          rw [if_neg (List.cons_ne_nil _ _), ih]
          simp only [Option.bind_eq_bind, Option.bind_some]
          cases deeper : children.walk (PathData.matches scheme port) (next :: rest) with
          | none => rfl
          | some below =>
              obtain ⟨_, _, _, _, _, rfl⟩ := walk_cons.mp deeper
              simp

/-- The nodes of an added path are there. The last one was there before, or it is fresh. -/
theorem Paths.walk_addPath_self {change : PathData → PathData} {t : Paths} (segment : Bytes)
    (rest : List Bytes)
    (kept : ∀ segment d, (change d).isAt scheme port segment = d.isAt scheme port segment) :
    ∃ nodes d, (addPath scheme port change (segment :: rest) t).walk (PathData.isAt scheme port)
        (segment :: rest) = some (nodes ++ [change d]) ∧
      ((∃ before, t.walk (PathData.isAt scheme port) (segment :: rest) = some (before ++ [d])) ∨
        t.walk (PathData.isAt scheme port) (segment :: rest) = none ∧
          ∃ k, d = { scheme, port, segment := k }) :=
  @walk_extend_self _ _ (PathData.isAt scheme port) (Paths.ensure scheme port) change
    (fun segment => { scheme, port, segment }) isAt_agree kept
    (fun _ _ _ _ => Paths.first_ensure_of_first) (fun _ _ => Paths.first_ensure_of_none) segment
    rest t

/-- The levels on the way down a path, the highest first. -/
def levelsOf (scheme : LwcString) (port : Nat) :
    Option PathData → List Bytes → Paths → List Level
  | _, [], _ => []
  | parent, segment :: rest, t =>
      ⟨parent, t⟩ :: match t.first (PathData.isAt scheme port segment) with
        | none => []
        | some (d, children) => levelsOf scheme port (some d) rest children

/-- A lookup shows the levels of the way that it takes. -/
theorem matchPath_levels {path : List Bytes} {t : Paths} {above : List Level}
    {parent : Option PathData} {nodes : List PathData} {d : PathData} (sorted : Paths.Ordered t)
    (found : t.walk (PathData.isAt scheme port) path = some (nodes ++ [d])) :
    matchPath scheme port ⟨parent, t⟩ above t path =
      some (d, (levelsOf scheme port parent path t).reverse ++ above) := by
  induction path generalizing t above parent nodes with
  | nil =>
      rw [walk, Option.some.injEq] at found
      exact absurd found (by simp)
  | cons segment rest ih =>
      obtain ⟨e, children, below, here, deeper, same⟩ := walk_cons.mp found
      have present : t.has (PathData.isAt scheme port segment) = true := by
        rw [has_eq_isSome, here]
        rfl
      rw [matchPath_cons, Paths.first_matches sorted present, levelsOf, here]
      dsimp only
      cases rest with
      | nil =>
          cases deeper
          rw [if_pos rfl]
          cases nodes with
          | nil =>
              cases same
              rfl
          | cons f nodes => simp at same
      | cons next rest =>
          rw [if_neg (List.cons_ne_nil _ _)]
          cases nodes with
          | nil =>
              obtain ⟨_, _, _, _, _, rfl⟩ := walk_cons.mp deeper
              simp at same
          | cons f nodes =>
              rw [List.cons_append, List.cons.injEq] at same
              obtain ⟨rfl, rfl⟩ := same
              rw [ih (ascending_first sorted here) deeper, List.reverse_cons, List.append_assoc]
              rfl

theorem length_levelsOf {path : List Bytes} {t : Paths} (parent : Option PathData)
    {walked : List PathData} (found : t.walk (PathData.isAt scheme port) path = some walked) :
    (levelsOf scheme port parent path t).length = path.length := by
  induction path generalizing t parent walked with
  | nil => rfl
  | cons segment rest ih =>
      obtain ⟨d, children, below, here, deeper, rfl⟩ := walk_cons.mp found
      rw [levelsOf, here, List.length_cons, List.length_cons, ih (some d) deeper]

/-- The node at a place is among the siblings of the level that the way shares with it. -/
theorem exists_level {port' : Nat} {dirs rest : List Bytes} {segment other : Bytes} {t : Paths}
    {parent : Option PathData} {walked nodes : List PathData} {d : PathData}
    (shared : dirs = [] ∨ port' = port)
    (found : t.walk (PathData.isAt scheme port) (dirs ++ segment :: rest) = some walked)
    (there : t.walk (PathData.isAt scheme port') (dirs ++ [other]) = some (nodes ++ [d])) :
    ∃ before level after,
      levelsOf scheme port parent (dirs ++ segment :: rest) t = before ++ level :: after ∧
        after.length = rest.length ∧ d ∈ level.siblings.toList ∧ d.segment = other := by
  induction dirs generalizing t parent walked nodes with
  | nil =>
      obtain ⟨rfl, children, first⟩ := walk_singleton there
      have size := length_levelsOf parent found
      rw [List.nil_append, levelsOf] at size ⊢
      refine ⟨[], ⟨parent, t⟩, _, rfl, Nat.succ.inj size, mem_of_first first, ?_⟩
      exact (isAt_iff.mp (first_passes first)).1
  | cons dir dirs ih =>
      have port_eq : port' = port := shared.resolve_left (List.cons_ne_nil _ _)
      subst port_eq
      obtain ⟨e, children, below, here, deeper, rfl⟩ := walk_cons.mp found
      obtain ⟨f, children', below', here', deeper', same⟩ := walk_cons.mp there
      rw [here] at here'
      cases here'
      cases nodes with
      | nil =>
          rw [List.nil_append, List.cons.injEq] at same
          rw [← same.2] at deeper'
          cases dirs with
          | nil =>
              obtain ⟨_, _, _, _, _, impossible⟩ := walk_cons.mp deeper'
              cases impossible
          | cons next dirs =>
              obtain ⟨_, _, _, _, _, impossible⟩ := walk_cons.mp deeper'
              cases impossible
      | cons g nodes =>
          rw [List.cons_append, List.cons.injEq] at same
          rw [← same.2] at deeper'
          obtain ⟨before, level, after, levels, size, inside, segment_eq⟩ :=
            ih (Or.inr rfl) deeper deeper'
          refine ⟨⟨parent, t⟩ :: before, level, after, ?_, size, inside, segment_eq⟩
          rw [List.cons_append, levelsOf, here]
          dsimp only
          rw [levels, List.cons_append]

/-- The node at a proper prefix of a way is the parent of one of its levels. -/
theorem exists_parent {own rest : List Bytes} {segment : Bytes} {t : Paths}
    {parent : Option PathData} {walked nodes : List PathData} {d : PathData}
    (found : t.walk (PathData.isAt scheme port) (own ++ segment :: rest) = some walked)
    (there : t.walk (PathData.isAt scheme port) own = some (nodes ++ [d])) :
    ∃ level ∈ levelsOf scheme port parent (own ++ segment :: rest) t, level.parent = some d := by
  induction own generalizing t parent walked nodes with
  | nil =>
      rw [walk, Option.some.injEq] at there
      exact absurd there (by simp)
  | cons dir own ih =>
      obtain ⟨e, children, below, here, deeper, rfl⟩ := walk_cons.mp found
      obtain ⟨f, children', below', here', deeper', same⟩ := walk_cons.mp there
      rw [here] at here'
      cases here'
      rw [List.cons_append, levelsOf, here]
      dsimp only
      cases nodes with
      | nil =>
          rw [List.nil_append, List.cons.injEq] at same
          obtain ⟨rfl, rfl⟩ := same
          cases own with
          | nil =>
              rw [List.nil_append, levelsOf]
              exact ⟨⟨some d, children⟩, by simp, rfl⟩
          | cons next own =>
              obtain ⟨_, _, _, _, _, impossible⟩ := walk_cons.mp deeper'
              cases impossible
      | cons g nodes =>
          rw [List.cons_append, List.cons.injEq] at same
          rw [← same.2] at deeper'
          obtain ⟨level, inside, parent_eq⟩ := ih deeper deeper'
          exact ⟨level, List.mem_cons_of_mem _ inside, parent_eq⟩

end Urldb
end Neosurf
