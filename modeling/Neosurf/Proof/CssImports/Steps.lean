/-
This file proves that the steps of a run keep the style sheets sound, and that no assertion fails.
-/

import Neosurf.Proof.CssImports.Sound

namespace Neosurf.CssImports

open Contents Sheets

variable {web : Web} {s s' : Sheets} {i j k n : Nat} {h : NscssImport} {ctx : NscssImportCtx}
  {rest : List ImportEvent} {msg : ContentMsg}

namespace Sheets

/-- One import of a sheet gets another handle. -/
theorem setImport_getElem? (bound : ctx.index < (s.contents ctx.css).imports.length) (h : NscssImport)
    (i k : Nat) :
    ((s.setImport ctx h).contents i).imports[k]? =
      if ⟨i, k⟩ = ctx then some h else (s.contents i).imports[k]? := by
  by_cases here : i = ctx.css
  · subst here
    rw [setImport, modify_self]
    change ((s.contents ctx.css).imports.set ctx.index h)[k]? = _
    by_cases there : k = ctx.index
    · subst there
      rw [if_pos rfl, List.getElem?_set_self bound]
    · rw [List.getElem?_set_ne (Ne.symm there), if_neg fun same => there (congrArg NscssImportCtx.index same)]
  · rw [setImport, modify_of_ne here, if_neg fun same => here (congrArg NscssImportCtx.css same)]

theorem modify_eq_self {change : NscssContent → NscssContent}
    (same : change (s.contents i) = s.contents i) : s.modify i change = s := by
  rw [modify, same, Function.update_eq_self]

theorem setImport_length (h : NscssImport) (i : Nat) :
    ((s.setImport ctx h).contents i).imports.length = (s.contents i).imports.length :=
  field_modify (fun c => c.imports.length) List.length_set i

end Sheets

namespace Sound

/-- An import that was told is registered, if it is the next one. -/
theorem importComplete (sound : Sound web s (some ctx) none)
    (here : (s.contents ctx.css).imports[ctx.index]? = some h) :
    ∃ s', s.importComplete ctx = some s' ∧ Sound web s' none none := by
  rw [Sheets.importComplete]
  split_ifs with next
  · have bound := (List.getElem?_eq_some_iff.mp here).1
    have known : ¬((s.contents ctx.css).ended = false ∨ web.arrives ctx.css = false) := by
      intro early
      rw [sound.early ctx.css early] at next
      cases next
    have undone : (s.contents ctx.css).status ≠ .done := fun done => by
      have indices := (sound.registers ctx.css ctx.index next).1
      rw [sound.all ctx.css done] at indices
      have lengths := congrArg List.length indices
      rw [List.length_range, List.length_range] at lengths
      omega
    exact sound.registerImports next (by simpa using fun early => known (Or.inl early))
      (by simpa using fun early => known (Or.inr early)) undone bound
  · refine ⟨s, rfl, { sound with waits := fun j full ended arrives undone => ?_ }⟩
    obtain ⟨m, h, next', there, pending⟩ := sound.waits j full ended arrives undone
    refine ⟨m, h, next', there, fun ready => Or.inr ((pending ready).resolve_left fun same => ?_)⟩
    cases same
    exact next next'

/-- The import whose message comes is told. -/
theorem popDone (sound : Sound web s none none) (events : s.events = ⟨ctx, .done⟩ :: rest) :
    Sound web { s with events := rest } (some ctx) none := by
  have distinct := sound.distinct
  rw [events, List.map_cons] at distinct
  refine { sound with
    waits := fun i full ended arrives undone => ?_
    failing := fun i k j here failed => ?_
    events := fun e inside => ?_
    distinct := (List.nodup_cons.mp distinct).2 }
  · obtain ⟨n, h, next, here, pending⟩ := sound.waits i full ended arrives undone
    refine ⟨n, h, next, here, fun ready => ?_⟩
    have inside := (pending ready).resolve_left (by simp)
    rw [events, List.map_cons, List.mem_cons] at inside
    exact inside.imp (fun same => congrArg some same.symm) id
  · have inside := sound.failing i k j here failed
    rw [events] at inside
    refine (List.mem_cons.mp inside).resolve_left fun same => ?_
    cases same
  · refine sound.events e ?_
    rw [events]
    exact List.mem_cons_of_mem _ inside

/-- The handle of an import of a sheet that fails is released. -/
theorem clearImport (sound : Sound web s none none)
    (here : (s.contents ctx.css).imports[ctx.index]? = some h)
    (handle : h = .retrieving j ∨ h = .associated j) (unarrived : web.arrives j = false)
    (kept : ∀ e ∈ rest, e ∈ s.events ∧ e.ctx ≠ ctx)
    (others : ∀ e ∈ s.events, e.ctx ≠ ctx → e ∈ rest)
    (distinct : (rest.map ImportEvent.ctx).Nodup) :
    Sound web (({ s with events := rest }.modify j fun c =>
      { c with users := c.users.erase ctx }).setImport ctx .null) (some ctx) none := by
  let s₁ := { s with events := rest }.modify j fun c => { c with users := c.users.erase ctx }
  let s₂ := s₁.setImport ctx .null
  have keeps {β : Type} (field : NscssContent → β)
      (users : ∀ c, field { c with users := c.users.erase ctx } = field c)
      (set : ∀ c, field { c with imports := c.imports.set ctx.index .null } = field c) (l : Nat) :
      field (s₂.contents l) = field (s.contents l) :=
    (field_modify field (set _) l).trans (field_modify field (users _) l)
  have status := keeps NscssContent.status (fun _ => rfl) fun _ => rfl
  have next := keeps NscssContent.nextToRegister (fun _ => rfl) fun _ => rfl
  have registered := keeps NscssContent.registered (fun _ => rfl) fun _ => rfl
  have ends := keeps NscssContent.ended (fun _ => rfl) fun _ => rfl
  have ready : s₂.registrable = s.registrable := registrable_congr status
  have imports₁ : ∀ l, (s₁.contents l).imports = (s.contents l).imports :=
    field_modify NscssContent.imports rfl
  have length : ∀ l, (s₂.contents l).imports.length = (s.contents l).imports.length := fun l => by
    rw [setImport_length, imports₁]
  have imports : ∀ l k, (s₂.contents l).imports[k]? =
      if ⟨l, k⟩ = ctx then some .null else (s.contents l).imports[k]? := by
    intro l k
    have bound := (List.getElem?_eq_some_iff.mp here).1
    rw [← imports₁] at bound
    rw [setImport_getElem? bound, imports₁]
  have users : ∀ l ctx', ctx' ∈ (s₂.contents l).users ↔
      ctx' ∈ (s.contents l).users ∧ ctx' ≠ ctx := by
    intro l ctx'
    have same : (s₂.contents l).users = (s₁.contents l).users :=
      field_modify NscssContent.users rfl l
    rw [same]
    by_cases there : l = j
    · subst there
      rw [modify_self, and_comm]
      exact (sound.nodup l).mem_erase_iff
    · rw [modify_of_ne there]
      refine ⟨fun user => ⟨user, fun same => ?_⟩, And.left⟩
      rw [same, sound.users, here] at user
      cases user
      rcases handle with other | other
      · cases other
      · cases other
        exact there rfl
  change Sound web s₂ (some ctx) none
  exact {
    inside := fun l => by
      have empty : (s₂.contents l).imports ≠ [] ↔ (s.contents l).imports ≠ [] := by
        rw [← List.length_pos_iff, length, List.length_pos_iff]
      rw [empty, ends]
      exact sound.inside l
    fits := fun l k h' there => by
      rw [imports] at there
      split_ifs at there with same
      · subst same
        cases there
        obtain ⟨j', import', fits⟩ := sound.fits l k h here
        refine ⟨j', import', Or.inr ?_⟩
        rcases handle with rfl | rfl
        · exact fits.1 ▸ unarrived
        · exact fits.1 ▸ unarrived
      · exact sound.fits l k h' there
    whole := fun l => by
      rw [length, ends]
      exact sound.whole l
    loading := fun l => by
      rw [ends, status]
      exact sound.loading l
    failed := fun l => by
      rw [ends, status]
      exact sound.failed l
    notReady := fun l => by
      rw [status]
      exact sound.notReady l
    completed := fun l => by
      rw [status]
      exact sound.completed l
    early := fun l => by
      rw [ends, next]
      exact sound.early l
    unregistered := fun l => by
      rw [next, registered]
      exact sound.unregistered l
    registers := fun l m => by
      rw [next, registered, length, ready]
      intro here'
      obtain ⟨indices, bound, before⟩ := sound.registers l m here'
      refine ⟨indices, bound, fun k h' less there => ?_⟩
      rw [imports] at there
      split_ifs at there with same
      · cases there
        rfl
      · exact before k h' less there
    all := fun l => by
      rw [status, registered, length]
      exact sound.all l
    waits := fun l full => by
      rw [ends, status, next]
      intro ended arrives undone
      obtain ⟨m, h', next', there, pending⟩ := sound.waits l full ended arrives undone
      by_cases same : ⟨l, m⟩ = ctx
      · refine ⟨m, .null, next', ?_, fun _ => Or.inl (congrArg some same.symm)⟩
        rw [imports, if_pos same]
      · refine ⟨m, h', next', ?_, fun registers => Or.inr ?_⟩
        · rw [imports, if_neg same]
          exact there
        · rw [ready] at registers
          have listed := (pending registers).resolve_left (by simp)
          obtain ⟨e, inside, place⟩ := List.mem_map.mp listed
          exact List.mem_map.mpr ⟨e, others e inside (fun other => same (place ▸ other)), place⟩
    failing := fun l k j' there => by
      rw [imports] at there
      rw [status]
      split_ifs at there with same
      · cases there
      · exact fun failed => others _ (sound.failing l k j' there failed) same
    events := fun e inside => by
      obtain ⟨before, apart⟩ := kept e inside
      obtain ⟨j', there, msg⟩ := sound.events e before
      refine ⟨j', ?_, ?_⟩
      · rw [imports, if_neg apart]
        exact there
      · rw [status]
        exact msg
    distinct := distinct
    users := fun l ctx' => by
      rw [users, imports, sound.users]
      by_cases same : ctx' = ctx
      · simp [same]
      · rw [if_neg same]
        simp [same]
    nodup := fun l => by
      have same : (s₂.contents l).users = (s₁.contents l).users :=
        field_modify NscssContent.users rfl l
      rw [same]
      by_cases there : l = j
      · subst there
        rw [modify_self]
        exact (sound.nodup l).erase ctx
      · rw [modify_of_ne there]
        exact sound.nodup l
    ahead := sound.ahead }

/-- An import whose handle was released is registered as blank, if it is the next one. -/
theorem failComplete (sound : Sound web s none none)
    (here : (s.contents ctx.css).imports[ctx.index]? = some h)
    (handle : h = .retrieving j ∨ h = .associated j) (unarrived : web.arrives j = false)
    (kept : ∀ e ∈ rest, e ∈ s.events ∧ e.ctx ≠ ctx)
    (others : ∀ e ∈ s.events, e.ctx ≠ ctx → e ∈ rest)
    (distinct : (rest.map ImportEvent.ctx).Nodup) :
    ∃ s', (({ s with events := rest }.modify j fun c =>
      { c with users := c.users.erase ctx }).setImport ctx .null).importComplete ctx = some s' ∧
        Sound web s' none none := by
  have cleared := sound.clearImport here handle unarrived kept others distinct
  have imports : ∀ l, (({ s with events := rest }.modify j fun c =>
      { c with users := c.users.erase ctx }).contents l).imports = (s.contents l).imports :=
    field_modify NscssContent.imports rfl
  have bound := (List.getElem?_eq_some_iff.mp here).1
  rw [← imports] at bound
  have there := setImport_getElem? bound .null ctx.css ctx.index
  rw [if_pos rfl] at there
  exact cleared.importComplete there

/-- The next message comes to its import, which still has its handle. -/
theorem deliver (sound : Sound web s none none) :
    ∃ s', s.deliver = some s' ∧ Sound web s' none none := by
  rw [Sheets.deliver]
  cases events : s.events with
  | nil => exact ⟨s, rfl, sound⟩
  | cons e rest =>
      obtain ⟨ctx, msg⟩ := e
      obtain ⟨j, here, told⟩ := sound.events ⟨ctx, msg⟩ (events ▸ List.mem_cons_self)
      dsimp only at here told ⊢
      rw [Sheets.nscssImport]
      simp only [here]
      rcases told with ⟨rfl, -⟩ | ⟨rfl, failed⟩
      · exact (sound.popDone events).importComplete here
      · have distinct := sound.distinct
        rw [events, List.map_cons, List.nodup_cons] at distinct
        refine sound.failComplete here (Or.inr rfl) ((sound.failed j).mp failed).2
          (fun e inside => ⟨?_, fun same => ?_⟩) (fun e inside apart => ?_) distinct.2
        · rw [events]
          exact List.mem_cons_of_mem _ inside
        · exact distinct.1 (List.mem_map.mpr ⟨e, inside, same⟩)
        · rw [events] at inside
          refine (List.mem_cons.mp inside).resolve_left fun same => ?_
          rw [same] at apart
          exact apart rfl

/-- The retrieval of an import fails before it has found a content. -/
theorem failImport (sound : Sound web s none none)
    (here : (s.contents ctx.css).imports[ctx.index]? = some (.retrieving j))
    (unarrived : web.arrives j = false) :
    ∃ s', s.nscssImport ctx .error = some s' ∧ Sound web s' none none := by
  have apart : ctx ∉ (s.contents j).users := by
    rw [sound.users, here]
    simp
  have same : s.modify j (fun c => { c with users := c.users.erase ctx }) = s := by
    refine modify_eq_self ?_
    rw [List.erase_of_not_mem apart]
  have kept : ∀ e ∈ s.events, e ∈ s.events ∧ e.ctx ≠ ctx := fun e inside =>
    ⟨inside, fun other => ?_⟩
  have failed := sound.failComplete here (Or.inl rfl) unarrived kept (fun e inside _ => inside)
    sound.distinct
  · rw [Sheets.nscssImport]
    simp only [here]
    rw [same] at failed
    exact failed
  · obtain ⟨j', there, -⟩ := sound.events e inside
    rw [other, here] at there
    cases there

end Sound

end Neosurf.CssImports
