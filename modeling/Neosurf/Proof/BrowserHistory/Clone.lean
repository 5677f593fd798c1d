/-
This file proves what a clone of a history tree keeps.
-/

import Neosurf.Proof.BrowserHistory.Trees

namespace Neosurf.LocalHistory

open SiblingTree

/-- Some of the addresses are led to their clones. -/
def renamed (clone : Nat → Nat) (l : List Nat) (a : Nat) : Nat := if a ∈ l then clone a else a

/-- The links to some of the children are led to their clones. -/
def relinkAll (clone : Nat → Nat) (l : List Nat) (e : HistoryEntry) : HistoryEntry :=
  { e with
    forward := e.forward.map (renamed clone l)
    forwardPref := e.forwardPref.map (renamed clone l)
    forwardLast := e.forwardLast.map (renamed clone l) }

/-- The clone of an entry, whose links all lead to clones. -/
def cloneOf (clone : Nat → Nat) (back : Option Nat) (e : HistoryEntry) : HistoryEntry :=
  { e.copied with
    back := back
    next := e.next.map clone
    forward := e.forward.map clone
    forwardPref := e.forwardPref.map clone
    forwardLast := e.forwardLast.map clone }

/-- The clones of these siblings and of the trees below them. -/
def Cloned (memory memory' : Nat → Option HistoryEntry) (clone : Nat → Nat) :
    Option Nat → SiblingTree Nat → Prop
  | _, .nil => True
  | back, .cons a children next =>
      (∃ e, memory a = some e ∧ memory' (clone a) = some (cloneOf clone back e)) ∧
        Cloned memory memory' clone (some (clone a)) children ∧
        Cloned memory memory' clone back next

variable {memory memory' : Nat → Option HistoryEntry} {clone : Nat → Nat} {back : Option Nat}
  {t : SiblingTree Nat} {l : List Nat} {a : Nat}

theorem Cloned.congr {other other' : Nat → Option HistoryEntry}
    (cloned : Cloned memory memory' clone back t) (same : ∀ a ∈ t.nodes, other a = memory a)
    (same' : ∀ a ∈ t.nodes, other' (clone a) = memory' (clone a)) :
    Cloned other other' clone back t := by
  induction t generalizing back with
  | nil => trivial
  | cons a children next children_ih next_ih =>
      obtain ⟨⟨e, found, copy⟩, below, later⟩ := cloned
      have here : a ∈ (SiblingTree.cons a children next).nodes := List.mem_cons_self
      have down : ∀ b ∈ children.nodes, b ∈ (SiblingTree.cons a children next).nodes :=
        fun b inside => List.mem_cons_of_mem _ (List.mem_append_left _ inside)
      have along : ∀ b ∈ next.nodes, b ∈ (SiblingTree.cons a children next).nodes :=
        fun b inside => List.mem_cons_of_mem _ (List.mem_append_right _ inside)
      exact ⟨⟨e, (same a here).trans found, (same' a here).trans copy⟩,
        children_ih below (fun b inside => same b (down b inside)) fun b inside =>
          same' b (down b inside),
        next_ih later (fun b inside => same b (along b inside)) fun b inside =>
          same' b (along b inside)⟩

theorem renamed_nil (o : Option Nat) : o.map (renamed clone []) = o := by
  cases o <;> simp [renamed]

/-- The addresses are renamed one part after the other. -/
theorem renamed_append {more : List Nat} (apart : ∀ a ∈ l, clone a ∉ more) (o : Option Nat) :
    (o.map (renamed clone l)).map (renamed clone more) = o.map (renamed clone (l ++ more)) := by
  cases o with
  | none => rfl
  | some b =>
      simp only [Option.map_some, renamed, List.mem_append]
      by_cases first : b ∈ l
      · simp [first, apart b first]
      · simp [first]

theorem renamed_congr {more : List Nat} (same : ∀ a, a ∈ l ↔ a ∈ more) (o : Option Nat) :
    o.map (renamed clone l) = o.map (renamed clone more) := by
  congr 1
  funext a
  simp only [renamed, same a]

theorem renamed_singleton (o : Option Nat) :
    o.map (renamed clone [a]) = if o = some a then some (clone a) else o := by
  cases o with
  | none => rfl
  | some b =>
      simp only [Option.map_some, renamed, List.mem_singleton, Option.some.injEq]
      split
      · rename_i same
        rw [same]
      · rfl

theorem relinkAll_cons (apart : clone a ∉ l) (e : HistoryEntry) :
    relinkAll clone l (e.relink a (clone a)) = relinkAll clone (a :: l) e := by
  have parts : ∀ o : Option Nat, (if o = some a then some (clone a) else o).map (renamed clone l) =
      o.map (renamed clone (a :: l)) := fun o => by
    rw [← renamed_singleton]
    refine renamed_append (fun b inside => ?_) o
    rw [List.mem_singleton.mp inside]
    exact apart
  simp only [relinkAll, HistoryEntry.relink, parts]

theorem relinkAll_nil (e : HistoryEntry) : relinkAll clone [] e = e := by
  simp only [relinkAll, renamed_nil]

/-- A link to one of the addresses leads to its clone. -/
theorem renamed_of_mem {o : Option Nat} (inside : ∀ a, o = some a → a ∈ l) :
    o.map (renamed clone l) = o.map clone := by
  cases o with
  | none => rfl
  | some b => simp [renamed, inside b rfl]

/-- The clones have consecutive addresses, in the order of the nodes. -/
def Numbers (clone : Nat → Nat) (first : Nat) (l : List Nat) : Prop :=
  l.map clone = List.range' first l.length

theorem Numbers.cons {first : Nat} (numbers : Numbers clone first (a :: l)) :
    clone a = first ∧ Numbers clone (first + 1) l := by
  rw [Numbers, List.map_cons, List.length_cons, List.range'_succ] at numbers
  exact ⟨(List.cons.inj numbers).1, (List.cons.inj numbers).2⟩

theorem Numbers.append {first : Nat} {more : List Nat} (numbers : Numbers clone first (l ++ more)) :
    Numbers clone first l ∧ Numbers clone (first + l.length) more := by
  rw [Numbers, List.map_append, List.length_append, ← List.range'_append_1] at numbers
  obtain ⟨left, right⟩ := List.append_inj numbers (by simp)
  exact ⟨left, right⟩

theorem Numbers.bounds {first : Nat} (numbers : Numbers clone first l) (inside : a ∈ l) :
    first ≤ clone a ∧ clone a < first + l.length := by
  have place : clone a ∈ List.range' first l.length := numbers ▸ List.mem_map_of_mem inside
  simpa using place

/-- What the loop over the children leaves. -/
structure ClonesChildren (clone : Nat → Nat) (h h' : History) (new : Nat) (prev : Option Nat)
    (t : SiblingTree Nat) : Prop where
  fresh : h'.fresh = h.fresh + t.nodes.length
  start : h'.start = h.start
  current : h'.current = h.current.map (renamed clone t.nodes)
  kept : ∀ x < h.fresh, x ≠ new → prev ≠ some x → h'.memory x = h.memory x
  parent : h'.memory new = (h.memory new).map (relinkAll clone t.toList)
  sibling : ∀ p, prev = some p → h'.memory p =
    (h.memory p).map fun e => { e with next := (t.top.map clone).or e.next }
  clones : Cloned h.memory h'.memory clone (some new) t

theorem modify_memory_ne {h : History} {b : Nat} (other : b ≠ a)
    (change : HistoryEntry → HistoryEntry) : (h.modify a change).memory b = h.memory b :=
  Function.update_of_ne other _ _

theorem modify_memory_self {h : History} (change : HistoryEntry → HistoryEntry) :
    (h.modify a change).memory a = (h.memory a).map change :=
  Function.update_self _ _ _

theorem allocate_memory_ne {h : History} {e : HistoryEntry} {b : Nat} (other : b ≠ h.fresh) :
    (h.allocate e).memory b = h.memory b :=
  Function.update_of_ne other _ _

theorem allocate_memory_self {h : History} {e : HistoryEntry} :
    (h.allocate e).memory h.fresh = some e :=
  Function.update_self _ _ _

/-- What the clone of one entry leaves, whose links to its parent and its next sibling are not led
to clones yet. -/
structure ClonesEntry (clone : Nat → Nat) (h h' : History) (a : Nat) (e : HistoryEntry)
    (children : SiblingTree Nat) : Prop where
  fresh : h'.fresh = h.fresh + 1 + children.nodes.length
  start : h'.start = h.start
  current : h'.current = h.current.map (renamed clone (a :: children.nodes))
  kept : ∀ x < h.fresh, h'.memory x = h.memory x
  copy : h'.memory (clone a) = some { cloneOf clone e.back e with next := e.next }
  clones : Cloned h.memory h'.memory clone (some (clone a)) children

theorem cloneEntry_run {rounds : Nat} {h h' : History} {e : HistoryEntry}
    {children next : SiblingTree Nat} (stands : Stands h back (.cons a children next))
    (found : h.memory a = some e) (links : LinksTo e back children next)
    (numbers : Numbers clone h.fresh (a :: children.nodes))
    (run : History.cloneChildren rounds (h.allocate e.copied) h.fresh none children.top = some h')
    (cloned : ClonesChildren clone (h.allocate e.copied) h' h.fresh none children) :
    ∃ h'', History.cloneEntry (rounds + 1) h a = some (h'', h.fresh) ∧
      ClonesEntry clone h h'' a e children := by
  obtain ⟨first, later⟩ := numbers.cons
  have fresh : (h.allocate e.copied).fresh = h.fresh + 1 := rfl
  have low : ∀ b ∈ (SiblingTree.cons a children next).nodes, b < h.fresh := stands.below
  have inside : ∀ b ∈ children.nodes, b < h.fresh := fun b child =>
    low b (List.mem_cons_of_mem _ (List.mem_append_left _ child))
  have memory : ∀ x < h.fresh, h'.memory x = h.memory x := fun x below => by
    rw [cloned.kept x (by omega) (by omega) (by simp), allocate_memory_ne (by omega)]
  have copy : h'.memory (clone a) = some { cloneOf clone e.back e with next := e.next } := by
    have forward : e.forward.map (renamed clone children.toList) = e.forward.map clone :=
      renamed_of_mem fun b child => top_mem (links.forward.symm.trans child)
    have last : e.forwardLast.map (renamed clone children.toList) = e.forwardLast.map clone :=
      renamed_of_mem fun b child =>
        List.mem_of_getLast? (links.forwardLast.symm.trans child)
    have pref : e.forwardPref.map (renamed clone children.toList) = e.forwardPref.map clone :=
      renamed_of_mem links.forwardPref
    rw [first, cloned.parent, allocate_memory_self, Option.map_some]
    simp only [relinkAll, HistoryEntry.copied, cloneOf, forward, last, pref]
  have clones : Cloned h.memory h'.memory clone (some (clone a)) children := by
    rw [first]
    exact cloned.clones.congr (fun b child => (allocate_memory_ne (by
      have := inside b child
      omega)).symm) fun b child => rfl
  have current : h'.current = h.current.map (renamed clone children.nodes) := cloned.current
  have whole : (if h'.current = some a then some h.fresh else h'.current) =
      h.current.map (renamed clone (a :: children.nodes)) := by
    have apart : ∀ b ∈ children.nodes, clone b ∉ [a] := fun b child same => by
      have above := (later.bounds child).1
      have := low a List.mem_cons_self
      rw [List.mem_singleton.mp same] at above
      omega
    rw [← first, ← renamed_singleton, current, renamed_append apart]
    exact renamed_congr (fun b => by simp [or_comm]) _
  have result : History.cloneEntry (rounds + 1) h a = some
      (if h'.current = some a then { h' with current := some h.fresh } else h', h.fresh) := by
    simp [History.cloneEntry, found, links.forward, run]
  generalize found' : (if h'.current = some a then { h' with current := some h.fresh } else h') =
    h'' at result
  have same : h''.memory = h'.memory := by rw [← found']; split_ifs <;> rfl
  have sameFresh : h''.fresh = h'.fresh := by rw [← found']; split_ifs <;> rfl
  have sameStart : h''.start = h'.start := by rw [← found']; split_ifs <;> rfl
  refine ⟨h'', result, sameFresh.trans cloned.fresh, sameStart.trans cloned.start, ?_, ?_, ?_, ?_⟩
  · rw [← whole, ← found']
    split_ifs <;> rfl
  · rwa [same]
  · rwa [same]
  · rwa [same]

theorem linkAfter_fresh {h : History} {prev : Option Nat} {entry : Nat} :
    (h.linkAfter prev entry).fresh = h.fresh := by
  cases prev <;> rfl

theorem linkAfter_start {h : History} {prev : Option Nat} {entry : Nat} :
    (h.linkAfter prev entry).start = h.start := by
  cases prev <;> rfl

theorem linkAfter_current {h : History} {prev : Option Nat} {entry : Nat} :
    (h.linkAfter prev entry).current = h.current := by
  cases prev <;> rfl

theorem linkAfter_memory_ne {h : History} {prev : Option Nat} {entry b : Nat}
    (other : prev ≠ some b) : (h.linkAfter prev entry).memory b = h.memory b := by
  cases prev with
  | none => rfl
  | some p => exact modify_memory_ne (fun same => other (congrArg some same.symm)) _

/-- The children are cloned one after the other, each with the entries below it. -/
theorem cloneChildren_run (t : SiblingTree Nat) (rounds : Nat) (h : History) (new : Nat)
    (prev back : Option Nat) (enough : 2 * t.nodes.length ≤ rounds) (stands : Stands h back t)
    (numbers : Numbers clone h.fresh t.nodes) (low : new < h.fresh) (apart : new ∉ t.nodes)
    (before : ∀ p, prev = some p → p < h.fresh ∧ p ∉ t.nodes ∧ p ≠ new) :
    ∃ h', History.cloneChildren rounds h new prev t.top = some h' ∧
      ClonesChildren clone h h' new prev t := by
  induction t generalizing rounds h new prev back with
  | nil =>
      have run : History.cloneChildren rounds h new prev none = some h := by
        cases rounds <;> rfl
      refine ⟨h, run, rfl, rfl, (renamed_nil _).symm, fun _ _ _ _ => rfl, ?_, fun p _ => ?_, trivial⟩
      · cases h.memory new <;> simp [SiblingTree.toList, relinkAll_nil]
      · cases h.memory p <;> simp [SiblingTree.top]
  | cons a children next children_ih next_ih =>
      obtain ⟨⟨e, found, links⟩, below, later⟩ := stands.holds
      have nodes : (SiblingTree.cons a children next).nodes =
          (a :: children.nodes) ++ next.nodes := rfl
      have count : (SiblingTree.cons a children next).nodes.length =
          1 + children.nodes.length + next.nodes.length := by
        rw [nodes, List.length_append, List.length_cons, Nat.add_comm 1]
      rw [nodes] at numbers
      obtain ⟨own, numbersNext⟩ := numbers.append
      obtain ⟨first, numbersChildren⟩ := own.cons
      have inside : ∀ b ∈ a :: children.nodes, b < h.fresh := fun b child =>
        stands.below b (nodes ▸ List.mem_append_left _ child)
      have along : ∀ b ∈ next.nodes, b < h.fresh := fun b child =>
        stands.below b (nodes ▸ List.mem_append_right _ child)
      have nodup : (a :: children.nodes).Nodup ∧ next.nodes.Nodup ∧
          ∀ b ∈ a :: children.nodes, b ∉ next.nodes := by
        have whole := stands.nodup
        rw [nodes, List.nodup_append'] at whole
        exact ⟨whole.1, whole.2.1, fun b inside => List.disjoint_left.mp whole.2.2 inside⟩
      have aLow := inside a List.mem_cons_self
      -- the entry and its children
      obtain ⟨r, rfl⟩ : ∃ r, rounds = r + 2 := ⟨rounds - 2, by omega⟩
      obtain ⟨h₀, run₀, cloned₀⟩ := children_ih r (h.allocate e.copied) h.fresh
        none (some a) (by omega)
        ⟨below.congr fun b child => allocate_memory_ne (inside b (List.mem_cons_of_mem _ child)).ne,
          (List.nodup_cons.mp nodup.1).2, fun b child =>
            (inside b (List.mem_cons_of_mem _ child)).trans h.fresh.lt_succ_self⟩
        numbersChildren h.fresh.lt_succ_self
        (fun child => (inside _ (List.mem_cons_of_mem _ child)).false) (by simp)
      obtain ⟨h₁, run₁, cloned₁⟩ := cloneEntry_run stands found links own run₀ cloned₀
      -- its links to the clones around it
      have newNe : new ≠ h.fresh := low.ne
      have prevNe : prev ≠ some h.fresh := fun same => (before _ same).1.false
      have prevNew : prev ≠ some new := fun same => (before _ same).2.2 rfl
      generalize linked : ((h₁.modify h.fresh fun e => { e with back := some new }).linkAfter prev
        h.fresh).modify new (HistoryEntry.relink a h.fresh) = h₂
      have fresh₂ : h₂.fresh = h.fresh + 1 + children.nodes.length := by
        rw [← linked, ← cloned₁.fresh]
        exact linkAfter_fresh
      have start₂ : h₂.start = h.start := by
        rw [← linked, ← cloned₁.start]
        exact linkAfter_start
      have current₂ : h₂.current = h₁.current := by
        rw [← linked]
        exact linkAfter_current
      have other₂ : ∀ x, x ≠ new → prev ≠ some x → x ≠ h.fresh → h₂.memory x = h₁.memory x := by
        intro x apart after notOwn
        rw [← linked, modify_memory_ne apart, linkAfter_memory_ne after, modify_memory_ne notOwn]
      have own₂ : h₂.memory (clone a) =
          some { cloneOf clone (some new) e with next := e.next } := by
        rw [← linked, first, modify_memory_ne newNe.symm, linkAfter_memory_ne prevNe,
          modify_memory_self, ← first, cloned₁.copy]
        rfl
      have parent₂ : h₂.memory new = (h.memory new).map (HistoryEntry.relink a (clone a)) := by
        rw [← linked, modify_memory_self, linkAfter_memory_ne prevNew, modify_memory_ne newNe,
          cloned₁.kept new low, first]
      have sibling₂ : ∀ p, prev = some p →
          h₂.memory p = (h.memory p).map fun e => { e with next := some (clone a) } := by
        rintro p rfl
        obtain ⟨pLow, -, pNew⟩ := before p rfl
        rw [← linked, modify_memory_ne pNew, History.linkAfter, modify_memory_self,
          modify_memory_ne pLow.ne, cloned₁.kept p pLow, first]
      have kept₂ : ∀ x < h.fresh, x ≠ new → prev ≠ some x → h₂.memory x = h.memory x :=
        fun x xLow xNew after => (other₂ x xNew after xLow.ne).trans (cloned₁.kept x xLow)
      have out : ∀ b ∈ a :: (children.nodes ++ next.nodes), b ≠ new ∧ prev ≠ some b := by
        intro b child
        refine ⟨fun same => apart (same ▸ child), fun same => (before b same).2.1 child⟩
      have kept : ∀ b ∈ next.nodes, h₂.memory b = h.memory b := by
        intro b child
        obtain ⟨bNew, after⟩ := out b (List.mem_cons_of_mem _ (List.mem_append_right _ child))
        exact kept₂ b (along b child) bNew after
      -- the siblings after it
      obtain ⟨h₃, run₃, cloned₃⟩ := next_ih (r + 1) h₂ new (some (clone a))
        back (by omega)
        ⟨later.congr kept, nodup.2.1, fun b child => by
          have := along b child
          omega⟩
        (by rw [fresh₂, Nat.add_assoc, Nat.add_comm 1]; exact numbersNext) (by omega)
        (fun child => (out new (List.mem_cons_of_mem _ (List.mem_append_right _ child))).1 rfl) (by
          rintro p ⟨⟩
          refine ⟨by omega, fun child => ?_, by omega⟩
          have := along _ child
          omega)
      have copies : ∀ b ∈ children.nodes, h₃.memory (clone b) = h₁.memory (clone b) := by
        intro b child
        obtain ⟨above, belowFresh⟩ := numbersChildren.bounds child
        have notPrev : prev ≠ some (clone b) := fun same => by
          have := (before _ same).1
          omega
        rw [cloned₃.kept (clone b) (by omega) (by omega)
          (fun same => by have := Option.some.inj same; omega),
          other₂ (clone b) (by omega) notPrev (by omega)]
      refine ⟨h₃, ?_, ?_, ?_, ?_, ?_, ?_, ?_, ?_, ?_, ?_⟩
      · have here : h₂.memory a = some e := by
          obtain ⟨aNew, after⟩ := out a List.mem_cons_self
          rw [kept₂ a aLow aNew after, found]
        have top : (SiblingTree.cons a children next).top = some a := rfl
        rw [top, History.cloneChildren, run₁]
        simp only [Option.bind_eq_bind, Option.bind_some, linked, here, links.next]
        rw [← first, run₃]
      · rw [cloned₃.fresh, fresh₂, count]
        omega
      · exact cloned₃.start.trans start₂
      · rw [cloned₃.current, current₂, cloned₁.current, nodes]
        refine renamed_append (fun b child inNext => ?_) _
        have := (own.bounds child).1
        have := along _ inNext
        omega
      · intro x xLow xNew after
        rw [cloned₃.kept x (by omega) xNew (fun same => by have := Option.some.inj same; omega),
          kept₂ x xLow xNew after]
      · have apart : clone a ∉ next.toList := fun child => by
          have := along _ (mem_nodes_of_mem_toList child)
          omega
        rw [cloned₃.parent, parent₂, Option.map_map, SiblingTree.toList]
        congr 1
        funext e
        exact relinkAll_cons apart e
      · intro p same
        obtain ⟨pLow, -, pNew⟩ := before p same
        rw [cloned₃.kept p (by omega) pNew (fun same => by have := Option.some.inj same; omega),
          sibling₂ p same]
        rfl
      · refine ⟨e, found, ?_⟩
        rw [cloned₃.sibling _ rfl, own₂, Option.map_some]
        simp only [cloneOf, links.next]
        cases next.top <;> rfl
      · rw [← first] at newNe
        exact cloned₁.clones.congr (fun _ _ => rfl) copies
      · exact cloned₃.clones.congr (fun b child => (kept b child).symm) fun _ _ => rfl

theorem exists_numbers (nodup : l.Nodup) (first : Nat) : ∃ clone, Numbers clone first l := by
  refine ⟨fun a => first + l.idxOf a, List.ext_getElem (by simp) fun i inside _ => ?_⟩
  rw [List.length_map] at inside
  rw [List.getElem_map, List.getElem_range', nodup.idxOf_getElem, Nat.one_mul]

/-- The clones form a tree of the same shape. -/
theorem Cloned.holdsTree {back' : Option Nat} (cloned : Cloned memory memory' clone back' t)
    (holds : HoldsTree memory back t) : HoldsTree memory' back' (t.map clone) := by
  induction t generalizing back back' with
  | nil => trivial
  | cons a children next children_ih next_ih =>
      obtain ⟨⟨e, found, copy⟩, cloneBelow, cloneLater⟩ := cloned
      obtain ⟨⟨e', found', links⟩, below, later⟩ := holds
      obtain rfl : e = e' := Option.some.inj (found.symm.trans found')
      refine ⟨⟨_, copy, rfl, ?_, ?_, ?_, ?_⟩, children_ih cloneBelow below,
        next_ih cloneLater later⟩
      · rw [top_map, ← links.next]
        rfl
      · rw [top_map, ← links.forward]
        rfl
      · intro b same
        obtain ⟨c, pref, rfl⟩ := Option.map_eq_some_iff.mp same
        rw [toList_map]
        exact List.mem_map_of_mem (links.forwardPref c pref)
      · rw [toList_map, List.getLast?_map, ← links.forwardLast]
        rfl

/-- What the clone of a whole history is. -/
structure Clones (clone : Nat → Nat) (h h' : History) (t : SiblingTree Nat) : Prop where
  numbers : Numbers clone h.fresh t.nodes
  fresh : h'.fresh = h.fresh + t.nodes.length
  start : h'.start = h.start.map clone
  current : h'.current = h.current.map clone
  kept : ∀ x < h.fresh, h'.memory x = h.memory x
  clones : Cloned h.memory h'.memory clone none t

/-- Every history that has entries is cloned. -/
theorem clone_run {m : Measures} {h : History} (tree : h.IsTree t) (root : t.top = some a) :
    ∃ h' clone, h.clone m = some h' ∧ Clones clone h h' t := by
  have enough := tree.rounds
  obtain ⟨clone, numbers⟩ := exists_numbers tree.nodup h.fresh
  have single := tree.single
  cases t with
  | nil => cases root
  | cons b children next =>
      obtain rfl : b = a := Option.some.inj root
      obtain rfl : next = .nil := by
        cases next with
        | nil => rfl
        | cons c below after => exact absurd single (by simp [toList])
      have stands := tree.toStands
      obtain ⟨⟨e, found, links⟩, below, -⟩ := tree.holds
      have nodes : (SiblingTree.cons b children .nil).nodes = b :: children.nodes := by
        rw [SiblingTree.nodes, SiblingTree.nodes, List.append_nil]
      rw [nodes] at numbers enough
      have nodup := tree.nodup
      rw [nodes, List.nodup_cons] at nodup
      have inside : ∀ c ∈ b :: children.nodes, c < h.fresh := nodes ▸ tree.below
      obtain ⟨first, numbersChildren⟩ := numbers.cons
      rw [List.length_cons] at enough
      obtain ⟨r, count⟩ : ∃ r, h.rounds = r + 1 := ⟨h.rounds - 1, by omega⟩
      obtain ⟨h₀, run₀, cloned₀⟩ := cloneChildren_run children r (h.allocate e.copied)
        h.fresh none (some b) (by omega)
        ⟨below.congr fun c child => allocate_memory_ne (inside c (List.mem_cons_of_mem _ child)).ne,
          nodup.2, fun c child =>
            (inside c (List.mem_cons_of_mem _ child)).trans h.fresh.lt_succ_self⟩
        numbersChildren h.fresh.lt_succ_self
        (fun child => (inside _ (List.mem_cons_of_mem _ child)).false) (by simp)
      obtain ⟨h₁, run₁, cloned₁⟩ := cloneEntry_run stands found links numbers run₀ cloned₀
      have start : h.start = some b := tree.start
      refine ⟨{ h₁ with start := some h.fresh }, clone, ?_, ?_, ?_, ?_, ?_, cloned₁.kept, ?_⟩
      · simp only [History.clone, start, count, run₁, Option.bind_eq_bind, Option.bind_some]
      · rwa [nodes]
      · rw [nodes, List.length_cons]
        exact cloned₁.fresh.trans (by omega)
      · rw [start, Option.map_some, first]
      · exact cloned₁.current.trans (renamed_of_mem fun c same => nodes ▸ tree.current_mem c same)
      · refine ⟨⟨e, found, ?_⟩, cloned₁.clones, trivial⟩
        rw [cloned₁.copy]
        simp only [cloneOf, links.back, links.next, SiblingTree.top]
        rfl

/-- The clone of a history has a tree of its own. -/
theorem Clones.isTree {h h' : History} (clones : Clones clone h h' t) (tree : h.IsTree t) :
    h'.IsTree (t.map clone) where
  holds := clones.clones.holdsTree tree.holds
  nodup := by
    rw [nodes_map, clones.numbers]
    exact List.nodup_range'
  below b inside := by
    rw [nodes_map] at inside
    obtain ⟨c, original, rfl⟩ := List.mem_map.mp inside
    rw [clones.fresh]
    exact (clones.numbers.bounds original).2
  start := by rw [clones.start, tree.start, top_map]
  single := by
    rw [toList_map, List.length_map]
    exact tree.single
  none_current none := by
    rw [tree.none_current (Option.map_eq_none_iff.mp (clones.current.symm.trans none))]
    rfl
  current_mem b same := by
    obtain ⟨c, own, rfl⟩ := Option.map_eq_some_iff.mp (clones.current.symm.trans same)
    rw [nodes_map]
    exact List.mem_map_of_mem (tree.current_mem c own)

end Neosurf.LocalHistory
