import Neosurf.Construction.Urldb.Cookies
import Neosurf.Proof.Urldb.DeleteCookie
import Mathlib.Data.List.Perm.Subperm
import Mathlib.Data.List.Range

namespace Neosurf.Urldb

open CellMemory

/-- The fields that tell two cookies of a list apart. -/
def Cookie.place (c : Cookie) : Bytes × Bytes × Bytes := (c.domain, c.path, c.name)

theorem samePlace_iff {c d : Cookie} : c.samePlace d = true ↔ c.place = d.place := by
  simp [Cookie.samePlace, Cookie.place, and_assoc]

/-- An insertion looks for the first cookie in the same place. -/
theorem insertInto_replace {now : Int} {c x : Cookie} {before after : List Cookie}
    (early : ∀ d ∈ before, d.samePlace c = false) (here : x.samePlace c = true) :
    insertInto now c (before ++ x :: after) =
      before ++ if c.expired now then after else c :: after := by
  induction before with
  | nil => rw [List.nil_append, insertInto, if_pos here, List.nil_append]
  | cons d before ih =>
      have other := early d List.mem_cons_self
      have rest := ih fun d inside => early d (List.mem_cons_of_mem _ inside)
      rw [List.cons_append, insertInto, other, if_neg Bool.false_ne_true, rest, List.cons_append]

theorem insertInto_append {now : Int} {c : Cookie} {cookies : List Cookie}
    (absent : ∀ d ∈ cookies, d.samePlace c = false) :
    insertInto now c cookies = cookies ++ [c] := by
  induction cookies with
  | nil => rfl
  | cons d rest ih =>
      have other := absent d List.mem_cons_self
      have last := ih fun d inside => absent d (List.mem_cons_of_mem _ inside)
      rw [insertInto, other, if_neg Bool.false_ne_true, last, List.cons_append]

theorem removeFrom_split {domain path name : Bytes} {x : Cookie} {before after : List Cookie}
    (early : ∀ d ∈ before, d.isAt domain path name = false)
    (here : x.isAt domain path name = true) :
    removeFrom domain path name (before ++ x :: after) = some (before ++ after) := by
  induction before with
  | nil =>
      rw [List.nil_append, removeFrom, if_pos (by simpa [Cookie.isAt, and_assoc] using here),
        List.nil_append]
  | cons d before ih =>
      have other := early d List.mem_cons_self
      have rest := ih fun d inside => early d (List.mem_cons_of_mem _ inside)
      rw [List.cons_append, removeFrom, if_neg (by simpa [Cookie.isAt, and_assoc] using other),
        rest, Option.map_some, List.cons_append]

theorem removeFrom_absent {domain path name : Bytes} {cookies : List Cookie}
    (absent : ∀ d ∈ cookies, d.isAt domain path name = false) :
    removeFrom domain path name cookies = none := by
  induction cookies with
  | nil => rfl
  | cons d rest ih =>
      have other := absent d List.mem_cons_self
      have last := ih fun d inside => absent d (List.mem_cons_of_mem _ inside)
      rw [removeFrom, if_neg (by simpa [Cookie.isAt, and_assoc] using other), last, Option.map_none]

/-- A list keeps at most one cookie for each place. -/
theorem nodup_insertInto (now : Int) (c : Cookie) {cookies : List Cookie}
    (nodup : (cookies.map Cookie.place).Nodup) :
    ((insertInto now c cookies).map Cookie.place).Nodup := by
  cases found : cookies.find? fun d => d.samePlace c with
  | some x =>
      obtain ⟨here, before, after, rfl, early⟩ := List.find?_eq_some_iff_append.mp found
      rw [insertInto_replace (by simpa using early) here]
      rw [List.map_append, List.map_cons] at nodup
      split
      · rw [List.map_append]
        exact nodup.sublist ((List.sublist_cons_self _ _).append_left _)
      · rw [List.map_append, List.map_cons, ← samePlace_iff.mp here]
        exact nodup
  | none =>
      have absent : ∀ d ∈ cookies, d.samePlace c = false := by
        simpa using List.find?_eq_none.mp found
      rw [insertInto_append absent, List.map_append, List.nodup_append]
      refine ⟨nodup, List.nodup_singleton _, ?_⟩
      simp only [List.mem_map, List.map_cons, List.map_nil, List.mem_singleton]
      intro place old new at_c same
      obtain ⟨d, inside, rfl⟩ := old
      rw [at_c, ← samePlace_iff, absent d inside] at same
      cases same

theorem nodup_removeFrom {domain path name : Bytes} {cookies rest : List Cookie}
    (nodup : (cookies.map Cookie.place).Nodup)
    (removed : removeFrom domain path name cookies = some rest) :
    (rest.map Cookie.place).Nodup := by
  obtain ⟨before, c, after, rfl, rfl, _⟩ := removeFrom_eq_some removed
  rw [List.map_append, List.map_cons] at nodup
  rw [List.map_append]
  exact nodup.sublist ((List.sublist_cons_self _ _).append_left _)

namespace CookieLists

variable {ι : Type*} {s : CookieLists ι} {contents : ι → List (Nat × Cookie)} {p : ι}

/-- These are the addresses and cookies of each node. No address is in two lists. -/
structure Holds (s : CookieLists ι) (contents : ι → List (Nat × Cookie)) : Prop where
  list : ∀ p, s.memory.IsList (s.ends p) (contents p)
  known : ∀ p, ∀ a ∈ (contents p).map Prod.fst, a < s.fresh
  apart : ∀ p q, p ≠ q → ∀ a ∈ (contents p).map Prod.fst, a ∉ (contents q).map Prod.fst

theorem Holds.length_le (holds : s.Holds contents) (p : ι) : (contents p).length ≤ s.fresh := by
  have inside : (contents p).map Prod.fst ⊆ List.range s.fresh := by
    intro a here
    rw [List.mem_range]
    exact holds.known p a here
  have bound := ((holds.list p).nodup.subperm inside).length_le
  rwa [List.length_map, List.length_range] at bound

variable [DecidableEq ι]

/-- The list of one node is changed, and no cell of another node. -/
theorem Holds.update (holds : s.Holds contents) {memory : CellMemory Cookie} {fresh : Nat}
    {ends : LinkedEnds} {cells : List (Nat × Cookie)} (more : s.fresh ≤ fresh)
    (list : memory.IsList ends cells)
    (used : ∀ a ∈ cells.map Prod.fst,
      a ∈ (contents p).map Prod.fst ∨ a = s.fresh ∧ s.fresh < fresh)
    (elsewhere : ∀ a, a ∉ (contents p).map Prod.fst → a ≠ s.fresh → memory a = s.memory a) :
    Holds ⟨memory, fresh, Function.update s.ends p ends⟩ (Function.update contents p cells) := by
  have other (q : ι) (different : q ≠ p) : ∀ a ∈ (contents q).map Prod.fst,
      a ∉ (contents p).map Prod.fst ∧ a ≠ s.fresh := by
    intro a inside
    exact ⟨holds.apart q p different a inside, (holds.known q a inside).ne⟩
  constructor
  · intro q
    by_cases same : q = p
    · subst same
      simpa only [Function.update_self] using list
    · simp only [Function.update_of_ne same]
      have old := holds.list q
      refine { old with linked := linked_congr ?_ old.linked }
      intro a inside
      exact elsewhere a (other q same a inside).1 (other q same a inside).2
  · intro q a inside
    by_cases same : q = p
    · subst same
      rw [Function.update_self] at inside
      rcases used a inside with old | new
      · exact (holds.known q a old).trans_le more
      · rw [new.1]
        exact new.2
    · rw [Function.update_of_ne same] at inside
      exact (holds.known q a inside).trans_le more
  · intro q r different a inside there
    by_cases at_q : q = p
    · subst at_q
      rw [Function.update_self] at inside
      rw [Function.update_of_ne different.symm] at there
      obtain ⟨absent, old⟩ := other r different.symm a there
      rcases used a inside with present | new
      · exact absent present
      · exact old new.1
    · rw [Function.update_of_ne at_q] at inside
      by_cases at_r : r = p
      · subst at_r
        rw [Function.update_self] at there
        obtain ⟨absent, old⟩ := other q at_q a inside
        rcases used a there with present | new
        · exact absent present
        · exact old new.1
      · rw [Function.update_of_ne at_r] at there
        exact holds.apart q r different a inside there

/-- The cookies of each node without their addresses. -/
def cookies (contents : ι → List (Nat × Cookie)) (p : ι) : List Cookie :=
  (contents p).map Prod.snd

theorem cookies_update (cells : List (Nat × Cookie)) :
    cookies (Function.update contents p cells) =
      Function.update (cookies contents) p (cells.map Prod.snd) := by
  funext q
  by_cases same : q = p
  · subst same
    rw [cookies, Function.update_self, Function.update_self]
  · rw [cookies, Function.update_of_ne same, Function.update_of_ne same, cookies]

/-- An insertion does to the list of a node what `insertInto` does. -/
theorem Holds.insert (holds : s.Holds contents) (now : Int) (p : ι) (c : Cookie) :
    ∃ cells, cells.map Prod.snd = insertInto now c (cookies contents p) ∧
      Holds (s.insert now p c) (Function.update contents p cells) := by
  have list := holds.list p
  have new : s.fresh ∉ (contents p).map Prod.fst := fun inside =>
    (holds.known p s.fresh inside).false
  have found := find_linked (fun d => d.samePlace c) list.linked (holds.length_le p)
  rw [← list.first] at found
  rcases found with ⟨absent, others⟩ | ⟨before, d, old, after, split_eq, early, here, found⟩
  · refine ⟨contents p ++ [(s.fresh, c)], ?_, ?_⟩
    · rw [List.map_append, cookies, insertInto_append (List.forall_mem_map.mpr others)]
      rfl
    · rw [CookieLists.insert, find, absent]
      refine holds.update (Nat.le_succ _) (isList_append list new) ?_ ?_
      · intro a inside
        rw [List.map_append, List.mem_append] at inside
        rcases inside with old | last
        · exact Or.inl old
        · exact Or.inr ⟨List.mem_singleton.mp last, Nat.lt_succ_self _⟩
      · intro a absent other
        rw [list.last, setNext_lastOf _ absent, Function.update_of_ne other]
  · rw [split_eq] at list new
    rw [Option.or_none] at found
    have data : insertInto now c (cookies contents p) = before.map Prod.snd ++
        if c.expired now then after.map Prod.snd else c :: after.map Prod.snd := by
      rw [cookies, split_eq, List.map_append, List.map_cons,
        insertInto_replace (List.forall_mem_map.mpr early) here]
    have own (a : Nat) (absent : a ∉ (contents p).map Prod.fst) :
        a ∉ before.map Prod.fst ∧ a ≠ d ∧ a ∉ after.map Prod.fst := by
      simpa [split_eq] using absent
    by_cases dead : c.expired now = true
    · refine ⟨before ++ after, ?_, ?_⟩
      · rw [data, if_pos dead, List.map_append]
      · rw [CookieLists.insert, find, found]
        dsimp only
        rw [if_pos dead]
        refine holds.update (Nat.le_succ _) (isList_unlink list) ?_ ?_
        · intro a inside
          rw [split_eq]
          simp only [List.map_append, List.map_cons, List.mem_append, List.mem_cons] at inside ⊢
          tauto
        · intro a absent _
          obtain ⟨left, middle, right⟩ := own a absent
          rw [free, Function.update_of_ne middle, setNext_lastOf _ left, setPrev_headOf _ right]
    · refine ⟨before ++ (s.fresh, c) :: after, ?_, ?_⟩
      · rw [data, if_neg dead, List.map_append, List.map_cons]
      · rw [CookieLists.insert, find, found]
        dsimp only
        rw [if_neg dead]
        refine holds.update (Nat.le_succ _) (isList_replace list new) ?_ ?_
        · intro a inside
          rw [split_eq]
          simp only [List.map_append, List.map_cons, List.mem_append, List.mem_cons] at inside ⊢
          have := Nat.lt_succ_self s.fresh
          tauto
        · intro a absent other
          obtain ⟨left, middle, right⟩ := own a absent
          rw [free, Function.update_of_ne middle, setNext_lastOf _ left, setPrev_headOf _ right,
            Function.update_of_ne other]

/-- A deletion does to the lists what `removeFrom` does to the first list that has the cookie. -/
theorem Holds.deletePaths (holds : s.Holds contents) (domain path name : Bytes) (nodes : List ι) :
    ∃ after, Holds (s.deletePaths domain path name nodes) after ∧
      cookies after = CookieStep.deleteFrom domain path name nodes (cookies contents) := by
  induction nodes with
  | nil => exact ⟨contents, holds, rfl⟩
  | cons p rest ih =>
      have list := holds.list p
      have found := find_linked (Cookie.isAt domain path name) list.linked (holds.length_le p)
      rw [← list.first] at found
      rw [CookieLists.deletePaths, CookieStep.deleteFrom, find]
      rcases found with ⟨absent, others⟩ | ⟨before, c, old, after, split_eq, early, here, found⟩
      · have missing : removeFrom domain path name (cookies contents p) = none :=
          removeFrom_absent (List.forall_mem_map.mpr others)
        rw [absent, missing]
        exact ih
      · have removed : removeFrom domain path name (cookies contents p) =
            some ((before ++ after).map Prod.snd) := by
          rw [cookies, split_eq, List.map_append, List.map_append, List.map_cons]
          exact removeFrom_split (List.forall_mem_map.mpr early) here
        rw [split_eq] at list
        rw [Option.or_none] at found
        rw [found, removed]
        refine ⟨Function.update contents p (before ++ after), ?_, cookies_update _⟩
        refine holds.update le_rfl (isList_unlink' list) ?_ ?_
        · intro a inside
          rw [split_eq]
          simp only [List.map_append, List.map_cons, List.mem_append, List.mem_cons] at inside ⊢
          tauto
        · intro a absent _
          have own : a ∉ before.map Prod.fst ∧ a ≠ c ∧ a ∉ after.map Prod.fst := by
            simpa [split_eq] using absent
          obtain ⟨left, middle, right⟩ := own
          rw [free, Function.update_of_ne middle, setPrev_headOf _ right, setNext_lastOf _ left]

theorem Holds.deleteHosts (holds : s.Holds contents) (domain path name : Bytes)
    (hosts : List (List ι)) :
    ∃ after, Holds (s.deleteHosts domain path name hosts) after ∧
      cookies after = CookieStep.applyLists (cookies contents) (.delete domain path name hosts) := by
  induction hosts generalizing s contents with
  | nil => exact ⟨contents, holds, rfl⟩
  | cons nodes rest ih =>
      obtain ⟨next, holds, data⟩ := holds.deletePaths domain path name nodes
      obtain ⟨after, holds, same⟩ := ih holds
      refine ⟨after, holds, ?_⟩
      rw [same, data]
      rfl

/-- The linked lists follow the lists of the database in each step. -/
theorem Holds.apply (holds : s.Holds contents) (change : CookieStep ι) :
    ∃ after, Holds (change.apply s) after ∧
      cookies after = CookieStep.applyLists (cookies contents) change := by
  cases change with
  | insert now p c =>
      obtain ⟨cells, data, after⟩ := holds.insert now p c
      refine ⟨_, after, ?_⟩
      rw [cookies_update, data]
      rfl
  | delete domain path name hosts => exact holds.deleteHosts domain path name hosts

theorem holds_run (steps : List (CookieStep ι)) :
    ∃ contents, Holds (CookieStep.run steps) contents ∧
      cookies contents = CookieStep.runLists steps := by
  have empty : Holds ({} : CookieLists ι) fun _ => [] := by
    refine ⟨fun p => ⟨List.nodup_nil, trivial, rfl, rfl⟩, ?_, ?_⟩ <;> simp
  unfold CookieStep.run CookieStep.runLists
  change ∃ contents, Holds _ contents ∧
    cookies contents = steps.foldl CookieStep.applyLists (cookies fun _ => [])
  generalize ({} : CookieLists ι) = start at empty ⊢
  generalize (fun _ => [] : ι → List (Nat × Cookie)) = contents at empty ⊢
  induction steps generalizing start contents with
  | nil => exact ⟨contents, empty, rfl⟩
  | cons change rest ih =>
      obtain ⟨next, holds, data⟩ := empty.apply change
      rw [List.foldl_cons, List.foldl_cons, ← data]
      exact ih _ _ holds

end CookieLists

namespace CookieStep

variable {ι : Type*} [DecidableEq ι] {lists : ι → List Cookie}

theorem nodup_deleteFrom (once : ∀ p, ((lists p).map Cookie.place).Nodup)
    (domain path name : Bytes) (nodes : List ι) (p : ι) :
    ((deleteFrom domain path name nodes lists p).map Cookie.place).Nodup := by
  induction nodes with
  | nil => exact once p
  | cons q rest ih =>
      rw [deleteFrom]
      cases removed : removeFrom domain path name (lists q) with
      | none => exact ih
      | some cookies =>
          dsimp only
          by_cases same : p = q
          · rw [same, Function.update_self]
            exact nodup_removeFrom (once q) removed
          · rw [Function.update_of_ne same]
            exact once p

theorem nodup_applyLists (once : ∀ p, ((lists p).map Cookie.place).Nodup) (change : CookieStep ι)
    (p : ι) : ((applyLists lists change p).map Cookie.place).Nodup := by
  cases change with
  | insert now q c =>
      rw [applyLists]
      by_cases same : p = q
      · rw [same, Function.update_self]
        exact nodup_insertInto now c (once q)
      · rw [Function.update_of_ne same]
        exact once p
  | delete domain path name hosts =>
      rw [applyLists]
      induction hosts generalizing lists with
      | nil => exact once p
      | cons nodes rest ih => exact ih (nodup_deleteFrom once domain path name nodes)

theorem nodup_foldl (steps : List (CookieStep ι))
    (once : ∀ p, ((lists p).map Cookie.place).Nodup) (p : ι) :
    ((steps.foldl applyLists lists p).map Cookie.place).Nodup := by
  induction steps generalizing lists with
  | nil => exact once p
  | cons change rest ih => exact ih (nodup_applyLists once change)

/-- After all steps, the cookies of each node form a list whose pointers agree. It holds the
cookies that the steps leave, and no two of them have one domain, path and name. -/
theorem cookies_wellLinked (steps : List (CookieStep ι)) (p : ι) :
    ∃ cells : List (Nat × Cookie),
      (run steps).memory.IsList ((run steps).ends p) cells ∧
      (run steps).memory.Agrees ((run steps).ends p) (cells.map Prod.fst) ∧
      cells.map Prod.snd = runLists steps p ∧
      ((runLists steps p).map Cookie.place).Nodup := by
  have empty (p : ι) : (((fun _ => [] : ι → List Cookie) p).map Cookie.place).Nodup :=
    List.nodup_nil
  obtain ⟨contents, holds, same⟩ := CookieLists.holds_run steps
  exact ⟨contents p, holds.list p, (holds.list p).agrees, congrFun same p,
    nodup_foldl steps empty p⟩

end CookieStep

end Neosurf.Urldb
