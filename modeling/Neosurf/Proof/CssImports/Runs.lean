/-
This file proves when style sheets that import each other are left waiting.
-/

import Mathlib.Data.Finset.Filter
import Neosurf.Proof.CssImports.Requests

namespace Neosurf.CssImports

open Contents Sheets

variable {web : Web} {s s' : Sheets} {i j k n : Nat} {ctx : NscssImportCtx} {x : SheetStep}

namespace Sound

/-- The data of a sheet fails, and the users of its content are told. -/
theorem failData (sound : Sound web s none none) (idle : s.events = []) (known : i ∈ web.sheets)
    (unarrived : web.arrives i = false) (early : (s.contents i).ended = false) :
    Sound web ((s.modify i fun c => { c with ended := true }).modify i
      (fun c => { c with status := .error }) |>.broadcast i .error) none none := by
  let s₁ := (s.modify i fun c => { c with ended := true }).modify i fun c =>
    { c with status := .error }
  have keeps {β : Type} (field : NscssContent → β)
      (ended : ∀ c, field { c with ended := true } = field c)
      (failed : ∀ c, field { c with status := .error } = field c) (l : Nat) :
      field (s₁.contents l) = field (s.contents l) :=
    (field_modify field (failed _) l).trans (field_modify field (ended _) l)
  have imports := keeps NscssContent.imports (fun _ => rfl) fun _ => rfl
  have next := keeps NscssContent.nextToRegister (fun _ => rfl) fun _ => rfl
  have registered := keeps NscssContent.registered (fun _ => rfl) fun _ => rfl
  have users := keeps NscssContent.users (fun _ => rfl) fun _ => rfl
  let s' : Sheets :=
    { s₁ with events := (s.contents i).users.map fun ctx => ⟨ctx, .error⟩ }
  have told : s₁.broadcast i .error = s' := by
    rw [broadcast, users i]
    have events : s₁.events = [] := idle
    rw [events, List.append_nil]
  have self : (s₁.contents i).status = .error ∧ (s₁.contents i).ended = true := by
    rw [modify_self, modify_self]
    exact ⟨rfl, rfl⟩
  have other {l : Nat} (apart : l ≠ i) : s₁.contents l = s.contents l := by
    rw [modify_of_ne apart, modify_of_ne apart]
  have before := sound.loading i early
  have done {l : Nat} : (s₁.contents l).status = .done ↔ (s.contents l).status = .done := by
    by_cases same : l = i
    · rw [same, self.1, before]
      simp
    · rw [other same]
  have ready : s₁.registrable = s.registrable := by
    funext h
    cases h with
    | null => rfl
    | retrieving l => rfl
    | associated l => exact decide_eq_decide.mpr done
  rw [told]
  exact {
    inside := fun l listed => by
      by_cases same : l = i
      · exact same ▸ known
      · change (s₁.contents l).imports ≠ [] ∨ (s₁.contents l).ended = true at listed
        rw [other same] at listed
        exact sound.inside l listed
    fits := fun l => by
      change ∀ (k : Nat) (h : NscssImport), (s₁.contents l).imports[k]? = _ → _
      rw [imports]
      exact sound.fits l
    whole := fun l ended arrives => by
      have apart : l ≠ i := fun same => by
        rw [same, unarrived] at arrives
        cases arrives
      change (s₁.contents l).ended = true at ended
      change (s₁.contents l).imports.length = _
      rw [other apart] at ended ⊢
      exact sound.whole l ended arrives
    loading := fun l early' => by
      change (s₁.contents l).ended = false at early'
      have apart : l ≠ i := fun same => by
        rw [same, self.2] at early'
        cases early'
      change (s₁.contents l).status = _
      rw [other apart] at early' ⊢
      exact sound.loading l early'
    failed := fun l => by
      change (s₁.contents l).status = .error ↔ (s₁.contents l).ended = true ∧ _
      by_cases same : l = i
      · rw [same, self.1, self.2, unarrived]
        simp
      · rw [other same]
        exact sound.failed l
    notReady := fun l => by
      change (s₁.contents l).status ≠ _
      by_cases same : l = i
      · rw [same, self.1]
        simp
      · rw [other same]
        exact sound.notReady l
    completed := fun l => (sound.completed l).trans done.symm
    early := fun l early' => by
      change (s₁.contents l).nextToRegister = none
      rw [next]
      by_cases same : l = i
      · exact same ▸ sound.early i (Or.inl early)
      · change (s₁.contents l).ended = false ∨ _ at early'
        rw [other same] at early'
        exact sound.early l early'
    unregistered := fun l => by
      change (s₁.contents l).nextToRegister = none → (s₁.contents l).registered = []
      rw [next, registered]
      exact sound.unregistered l
    registers := fun l n => by
      change (s₁.contents l).nextToRegister = some n → (s₁.contents l).registered = _ ∧
        n ≤ (s₁.contents l).imports.length ∧ ∀ (k : Nat) (h : NscssImport), k < n →
          (s₁.contents l).imports[k]? = some h → s₁.registrable h = true
      rw [next, registered, imports, ready]
      exact sound.registers l n
    all := fun l complete => by
      change (s₁.contents l).registered = List.range (s₁.contents l).imports.length
      rw [registered, imports]
      exact sound.all l (done.mp complete)
    waits := fun l full ended arrives undone => by
      have apart : l ≠ i := fun same => by
        rw [same, unarrived] at arrives
        cases arrives
      change (s₁.contents l).ended = true at ended
      rw [other apart] at ended
      obtain ⟨m, h, next', here, pending⟩ :=
        sound.waits l full ended arrives fun complete => undone (done.mpr complete)
      refine ⟨m, h, (next l).trans next', ?_, fun registers => ?_⟩
      · change (s₁.contents l).imports[m]? = some h
        rw [imports]
        exact here
      · have listed := (pending (ready ▸ registers)).resolve_left (by simp)
        rw [idle] at listed
        cases listed
    failing := fun l k j here failed => by
      change (s₁.contents l).imports[k]? = _ at here
      change (s₁.contents j).status = .error at failed
      rw [imports] at here
      by_cases same : j = i
      · subst same
        exact List.mem_map_of_mem ((sound.users j ⟨l, k⟩).mpr here)
      · rw [other same] at failed
        have listed := sound.failing l k j here failed
        rw [idle] at listed
        cases listed
    events := fun e inside => by
      obtain ⟨ctx, user, rfl⟩ := List.mem_map.mp inside
      refine ⟨i, ?_, Or.inr ⟨rfl, self.1⟩⟩
      change (s₁.contents ctx.css).imports[ctx.index]? = _
      rw [imports]
      exact (sound.users i ctx).mp user
    distinct := by
      have contexts : (s'.events.map ImportEvent.ctx) = (s.contents i).users := by
        change ((s.contents i).users.map fun ctx => ⟨ctx, .error⟩).map ImportEvent.ctx = _
        rw [List.map_map]
        exact List.map_id _
      rw [contexts]
      exact sound.nodup i
    users := fun l ctx => by
      change ctx ∈ (s₁.contents l).users ↔ (s₁.contents ctx.css).imports[ctx.index]? = _
      rw [users, imports]
      exact sound.users l ctx
    nodup := fun l => by
      change (s₁.contents l).users.Nodup
      rw [users]
      exact sound.nodup l
    ahead := sound.ahead }

theorem dataEnd (sound : Sound web s none none) (idle : s.events = []) (known : i ∈ web.sheets)
    (early : (s.contents i).ended = false)
    (whole : web.arrives i = true → (s.contents i).imports.length = (web.imports i).length) :
    ∃ s', s.dataEnd web i = some s' ∧ Sound web s' none none := by
  rw [Sheets.dataEnd]
  cases arrives : web.arrives i with
  | false => exact ⟨_, rfl, sound.failData idle known arrives early⟩
  | true =>
      have ended := sound.endData known arrives early (whole arrives)
      let s₁ := s.modify i fun c => { c with ended := true }
      have self : s₁.contents i = { s.contents i with ended := true } := modify_self
      have undone : (s₁.contents i).status ≠ .done := by
        rw [self]
        change (s.contents i).status ≠ .done
        rw [sound.loading i early]
        simp
      have nothing : (s₁.contents i).nextToRegister = none := by
        rw [self]
        exact sound.early i (Or.inl early)
      change ∃ s', s₁.convertCssData i = some s' ∧ _
      rw [convertCssData]
      split_ifs with empty
      · refine ⟨_, rfl, ended.contentDone ?_ arrives undone ?_ fun k h here => ?_⟩
        · rw [modify_self]
        · rw [ended.unregistered i nothing, empty]
          rfl
        · rw [empty] at here
          cases here
      · have begun := ended.beginRegistration arrives (by rw [modify_self]) nothing undone empty
        refine begun.registerImports ?_ ?_ arrives ?_ ?_
        · rw [modify_self]
        · rw [modify_self, self]
        · rw [modify_self]
          exact undone
        · rw [modify_self]
          exact List.length_pos_iff.mpr empty

end Sound

theorem init_sound : Sound web init none none where
  inside _ listed := by simp [init] at listed
  fits _ _ _ here := by simp [init] at here
  whole _ ended := by simp [init] at ended
  loading _ _ := rfl
  failed _ := by simp [init]
  notReady _ := by simp [init]
  completed _ := by simp [init]
  early _ _ := rfl
  unregistered _ _ := rfl
  registers _ _ here := by simp [init] at here
  all _ done := by simp [init] at done
  waits _ _ ended := by simp [init] at ended
  failing _ _ _ here := by simp [init] at here
  events _ inside := by simp [init] at inside
  distinct := List.nodup_nil
  users _ _ := by simp [init]
  nodup _ := List.nodup_nil
  ahead := trivial

/-- A permitted step fails no assertion, and keeps the style sheets sound. -/
theorem step_sound (sound : Sound web s none none) (permits : Permitted web s x) :
    ∃ s', s.step web x = some s' ∧ Sound web s' none none := by
  cases x with
  | handleImport i =>
      obtain ⟨-, known, early, more⟩ := permits
      exact sound.handleImport known early more
  | associate ctx j =>
      obtain ⟨idle, here, intact⟩ := permits
      exact ⟨_, rfl, sound.associate idle here intact⟩
  | failImport ctx j =>
      obtain ⟨-, here, unarrived⟩ := permits
      exact sound.failImport here unarrived
  | dataEnd i =>
      obtain ⟨idle, known, early, whole⟩ := permits
      exact sound.dataEnd idle known early whole
  | deliver => exact sound.deliver

theorem Sheets.Reached.sound (reached : Reached web s) : Sound web s none none := by
  induction reached with
  | init => exact init_sound
  | step _ permits stepped ih =>
      obtain ⟨s', stepped', sound⟩ := step_sound ih permits
      rw [stepped] at stepped'
      cases stepped'
      exact sound

namespace Sound

/-- A sheet registers its imports in the order of their indices. -/
theorem registered_prefix (sound : Sound web s none none) (i : Nat) :
    (s.contents i).registered <+: List.range (web.imports i).length := by
  cases next : (s.contents i).nextToRegister with
  | none =>
      rw [sound.unregistered i next]
      exact List.nil_prefix
  | some n =>
      obtain ⟨indices, bound, -⟩ := sound.registers i n next
      have requested : (s.contents i).imports.length ≤ (web.imports i).length := by
        by_contra more
        obtain ⟨j, here, -⟩ := sound.fits i _ _ (List.getElem?_eq_getElem (not_le.mp more))
        rw [List.getElem?_eq_none (le_refl _)] at here
        cases here
      rw [indices]
      obtain ⟨rest, whole⟩ := Nat.exists_eq_add_of_le (bound.trans requested)
      rw [whole, List.range_add]
      exact List.prefix_append _ _

/-- A sheet that is done has registered all its imports. -/
theorem registered_of_completed (sound : Sound web s none none) (done : i ∈ s.completed) :
    (s.contents i).registered = List.range (web.imports i).length := by
  have status := (sound.completed i).mp done
  have ended : (s.contents i).ended = true := by
    by_contra early
    rw [sound.loading i (by simpa using early)] at status
    cases status
  have arrives : web.arrives i = true := by
    by_contra unarrived
    rw [(sound.failed i).mpr ⟨ended, by simpa using unarrived⟩] at status
    cases status
  rw [sound.all i status, sound.whole i ended arrives]

/-- A sheet that is left waiting needs another one that is left waiting. -/
theorem needs_waiting (sound : Sound web s none none) (settled : Settled web s)
    (inside : i ∈ web.sheets) (waiting : (s.contents i).status = .loading) :
    ∃ j, j ∈ web.sheets ∧ (s.contents j).status = .loading ∧ web.Needs i j := by
  obtain ⟨idle, settled⟩ := settled
  obtain ⟨ended, found⟩ := settled i inside
  have arrives : web.arrives i = true := by
    by_contra unarrived
    rw [(sound.failed i).mpr ⟨ended, by simpa using unarrived⟩] at waiting
    cases waiting
  obtain ⟨n, h, -, here, pending⟩ :=
    sound.waits i (by simp) ended arrives (by rw [waiting]; simp)
  have stops : s.registrable h ≠ true := fun ready => by
    have listed := (pending ready).resolve_left (by simp)
    rw [idle] at listed
    cases listed
  obtain ⟨j, import', fits⟩ := sound.fits i n h here
  have listed := List.mem_of_getElem? import'
  cases h with
  | null => exact absurd rfl stops
  | retrieving l => exact absurd (List.mem_of_getElem? here) (found l)
  | associated l =>
      obtain ⟨rfl, apart⟩ := fits
      have known := web.closed i inside l listed
      have intact : (s.contents l).status ≠ .error := fun failed => by
        have told := sound.failing i n l here failed
        rw [idle] at told
        cases told
      have arrives' : web.arrives l = true := by
        by_contra unarrived
        exact intact ((sound.failed l).mpr ⟨(settled l known).1, by simpa using unarrived⟩)
      refine ⟨l, known, ?_, inside, listed, apart, arrives, arrives'⟩
      cases status : (s.contents l).status with
      | loading => rfl
      | ready => exact absurd status (sound.notReady l)
      | done =>
          rw [registrable, status] at stops
          exact absurd rfl stops
      | error => exact absurd status intact

end Sound

/-- Every run registers the imports of each sheet in the order of their indices, and calls its done
function at most once, when all are registered. Once the data of all sheets has arrived or failed,
no sheet is left waiting if and only if the sheets whose data arrives import each other in no cycle
of two or more. -/
theorem reached_waits_iff (reached : Reached web s) :
    (∀ i, (s.contents i).registered <+: List.range (web.imports i).length) ∧
      s.completed.Nodup ∧
      (∀ i ∈ s.completed, (s.contents i).registered = List.range (web.imports i).length) ∧
      (Settled web s → ((∀ i ∈ web.sheets, (s.contents i).status ≠ .loading) ↔
        ∀ i, ¬Relation.TransGen web.Needs i i)) := by
  have sound := reached.sound
  refine ⟨sound.registered_prefix, sound.ahead.nodup, fun i => sound.registered_of_completed,
    fun settled => ⟨fun quiet i cycle => ?_, fun acyclic i inside waiting => ?_⟩⟩
  · obtain ⟨j, ⟨inside, -, -, arrives, -⟩, -⟩ := Relation.TransGen.head'_iff.mp cycle
    have ended := (settled.2 i inside).1
    cases status : (s.contents i).status with
    | loading => exact quiet i inside status
    | ready => exact sound.notReady i status
    | done => exact sound.ahead.not_transGen_self ((sound.completed i).mpr status) cycle
    | error =>
        have unarrived := ((sound.failed i).mp status).2
        rw [arrives] at unarrived
        cases unarrived
  · have points : ∀ i ∈ web.sheets.filter fun i => (s.contents i).status = .loading,
        ∃ j ∈ web.sheets.filter fun i => (s.contents i).status = .loading, web.Needs i j := by
      intro i listed
      obtain ⟨inside, waiting⟩ := Finset.mem_filter.mp listed
      obtain ⟨j, known, waiting', needs⟩ := sound.needs_waiting settled inside waiting
      exact ⟨j, Finset.mem_filter.mpr ⟨known, waiting'⟩, needs⟩
    obtain ⟨j, cycle⟩ :=
      exists_transGen_self _ points (Finset.mem_filter.mpr ⟨inside, waiting⟩)
    exact acyclic j cycle

/-- Two style sheets import each other. -/
def importEachOther : Web where
  sheets := {0, 1}
  url i := i
  imports i := if i = 0 then [1] else if i = 1 then [0] else []
  arrives _ := true
  closed := by decide

theorem importEachOther_reached :
    ∃ s, Reached importEachOther s ∧ Settled importEachOther s ∧
      (s.contents 0).status = .loading := by
  have first : Reached importEachOther _ :=
    .step .init (x := .handleImport 0) ⟨rfl, by decide, rfl, by decide⟩ rfl
  have second : Reached importEachOther _ :=
    .step first (x := .handleImport 1) ⟨rfl, by decide, rfl, by decide⟩ rfl
  have third : Reached importEachOther _ :=
    .step second (x := .associate ⟨0, 0⟩ 1) ⟨rfl, rfl, by decide⟩ rfl
  have fourth : Reached importEachOther _ :=
    .step third (x := .associate ⟨1, 0⟩ 0) ⟨rfl, rfl, by decide⟩ rfl
  have fifth : Reached importEachOther _ :=
    .step fourth (x := .dataEnd 0) ⟨rfl, by decide, rfl, fun _ => rfl⟩ rfl
  have sixth : Reached importEachOther _ :=
    .step fifth (x := .dataEnd 1) ⟨rfl, by decide, rfl, fun _ => rfl⟩ rfl
  refine ⟨_, sixth, ⟨rfl, fun i inside => ?_⟩, rfl⟩
  rcases Finset.mem_insert.mp inside with rfl | inside
  · refine ⟨rfl, fun j listed => ?_⟩
    have associated : NscssImport.retrieving j ∈ [.associated 1] := listed
    simp at associated
  · rw [Finset.mem_singleton.mp inside]
    refine ⟨rfl, fun j listed => ?_⟩
    have associated : NscssImport.retrieving j ∈ [.associated 0] := listed
    simp at associated

/-- The data of both sheets arrives, and one is left waiting for the other. -/
theorem importEachOther_waits :
    ∃ s, Reached importEachOther s ∧ Settled importEachOther s ∧
      ¬∀ i ∈ importEachOther.sheets, (s.contents i).status ≠ .loading := by
  obtain ⟨s, reached, settled, waiting⟩ := importEachOther_reached
  exact ⟨s, reached, settled, fun quiet => quiet 0 (by decide) waiting⟩

/-- The two sheets are a cycle. -/
theorem importEachOther_cycle : ¬∀ i, ¬Relation.TransGen importEachOther.Needs i i := by
  obtain ⟨s, reached, settled, waiting⟩ := importEachOther_reached
  intro acyclic
  exact ((reached_waits_iff reached).2.2.2 settled).mpr acyclic 0 (by decide) waiting

end Neosurf.CssImports
