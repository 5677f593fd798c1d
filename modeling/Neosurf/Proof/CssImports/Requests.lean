/-
This file proves that the style sheets stay sound when a sheet requests an import, when the request
is answered, and when the data of a sheet ends.
-/

import Neosurf.Proof.CssImports.Steps

namespace Neosurf.CssImports

open Contents Sheets

variable {web : Web} {s s' : Sheets} {i j k n : Nat} {h : NscssImport} {ctx : NscssImportCtx}

namespace Sound

/-- The parser requests the next import of a sheet. -/
theorem handleImport (sound : Sound web s none none) (known : i ∈ web.sheets)
    (early : (s.contents i).ended = false)
    (more : (s.contents i).imports.length < (web.imports i).length) :
    ∃ s', s.handleImport web i = some s' ∧ Sound web s' none none := by
  let j := (web.imports i)[(s.contents i).imports.length]
  let handle : NscssImport := if web.url j = web.url i then .null else .retrieving j
  let s' := s.modify i fun c => { c with imports := c.imports ++ [handle] }
  have requested : s.handleImport web i = some s' := by
    rw [Sheets.handleImport, List.getElem?_eq_getElem more]
  have fits : handle.Fits web i j := by
    change NscssImport.Fits web i j (if web.url j = web.url i then .null else .retrieving j)
    split_ifs with same
    · exact Or.inl same
    · exact ⟨rfl, same⟩
  have unassociated : ∀ j', handle ≠ .associated j' := by
    intro j'
    change (if web.url j = web.url i then NscssImport.null else .retrieving j) ≠ .associated j'
    split_ifs <;> simp
  have status : ∀ l, (s'.contents l).status = (s.contents l).status :=
    field_modify NscssContent.status rfl
  have next : ∀ l, (s'.contents l).nextToRegister = (s.contents l).nextToRegister :=
    field_modify NscssContent.nextToRegister rfl
  have registered : ∀ l, (s'.contents l).registered = (s.contents l).registered :=
    field_modify NscssContent.registered rfl
  have ends : ∀ l, (s'.contents l).ended = (s.contents l).ended :=
    field_modify NscssContent.ended rfl
  have users : ∀ l, (s'.contents l).users = (s.contents l).users :=
    field_modify NscssContent.users rfl
  have ready : s'.registrable = s.registrable := registrable_congr status
  have other {l : Nat} (apart : l ≠ i) : s'.contents l = s.contents l := modify_of_ne apart
  have self : (s'.contents i).imports = (s.contents i).imports ++ [handle] :=
    congrArg NscssContent.imports modify_self
  have old {l k : Nat} {h : NscssImport} (here : (s.contents l).imports[k]? = some h) :
      (s'.contents l).imports[k]? = some h := by
    by_cases same : l = i
    · subst same
      rw [self, List.getElem?_append_left (List.getElem?_eq_some_iff.mp here).1]
      exact here
    · rw [other same]
      exact here
  have both {l k : Nat} {h : NscssImport} (here : (s'.contents l).imports[k]? = some h) :
      (s.contents l).imports[k]? = some h ∨
        l = i ∧ k = (s.contents i).imports.length ∧ h = handle := by
    by_cases same : l = i
    · subst same
      rw [self] at here
      have bound := (List.getElem?_eq_some_iff.mp here).1
      rw [List.length_append, List.length_singleton] at bound
      by_cases last : k = (s.contents l).imports.length
      · rw [last, List.getElem?_concat_length] at here
        exact Or.inr ⟨rfl, last, (Option.some.inj here).symm⟩
      · rw [List.getElem?_append_left (by omega)] at here
        exact Or.inl here
    · rw [other same] at here
      exact Or.inl here
  refine ⟨s', requested, {
    inside := fun l listed => ?_
    fits := fun l k h here => ?_
    whole := fun l ended arrives => ?_
    loading := fun l => ?_
    failed := fun l => ?_
    notReady := fun l => ?_
    completed := fun l => ?_
    early := fun l => ?_
    unregistered := fun l => ?_
    registers := fun l n here => ?_
    all := fun l done => ?_
    waits := fun l full ended arrives undone => ?_
    failing := fun l k j' here failed => ?_
    events := fun e inside => ?_
    distinct := sound.distinct
    users := fun l ctx => ?_
    nodup := fun l => ?_
    ahead := sound.ahead }⟩
  · by_cases same : l = i
    · exact same ▸ known
    · rw [other same] at listed
      exact sound.inside l listed
  · rcases both here with here | ⟨rfl, rfl, rfl⟩
    · exact sound.fits l k h here
    · exact ⟨j, List.getElem?_eq_getElem more, fits⟩
  · have apart : l ≠ i := fun same => by
      rw [same, ends, early] at ended
      cases ended
    rw [other apart] at ended ⊢
    exact sound.whole l ended arrives
  · rw [ends, status]
    exact sound.loading l
  · rw [ends, status]
    exact sound.failed l
  · rw [status]
    exact sound.notReady l
  · rw [status]
    exact sound.completed l
  · rw [ends, next]
    exact sound.early l
  · rw [next, registered]
    exact sound.unregistered l
  · have apart : l ≠ i := fun same => by
      rw [same, next, sound.early i (Or.inl early)] at here
      cases here
    rw [other apart, ready] at *
    exact sound.registers l n here
  · have apart : l ≠ i := fun same => by
      rw [same, status, sound.loading i early] at done
      cases done
    rw [other apart] at done ⊢
    exact sound.all l done
  · rw [ends] at ended
    rw [status] at undone
    obtain ⟨m, h, next', here, pending⟩ := sound.waits l full ended arrives undone
    refine ⟨m, h, (next l).trans next', old here, fun registers => ?_⟩
    rw [ready] at registers
    exact pending registers
  · rw [status] at failed
    rcases both here with here | ⟨-, -, same⟩
    · exact sound.failing l k j' here failed
    · exact absurd same.symm (unassociated j')
  · obtain ⟨j', here, msg⟩ := sound.events e inside
    refine ⟨j', old here, ?_⟩
    rw [status]
    exact msg
  · rw [users, sound.users]
    refine ⟨old, fun here => ?_⟩
    rcases both here with here | ⟨-, -, same⟩
    · exact here
    · exact absurd same.symm (unassociated l)
  · rw [users]
    exact sound.nodup l

/-- The retrieval of an import finds a content. -/
theorem associate (sound : Sound web s none none) (idle : s.events = [])
    (here : (s.contents ctx.css).imports[ctx.index]? = some (.retrieving j))
    (intact : (s.contents j).status ≠ .error) :
    Sound web (s.associate ctx j) none none := by
  let s₁ := s.modify j fun c => { c with users := ctx :: c.users }
  let s₂ := s₁.setImport ctx (.associated j)
  have keeps {β : Type} (field : NscssContent → β)
      (users : ∀ c, field { c with users := ctx :: c.users } = field c)
      (set : ∀ c, field { c with imports := c.imports.set ctx.index (.associated j) } = field c)
      (l : Nat) : field (s₂.contents l) = field (s.contents l) :=
    (field_modify field (set _) l).trans (field_modify field (users _) l)
  have status := keeps NscssContent.status (fun _ => rfl) fun _ => rfl
  let s' : Sheets :=
    { s₂ with events := if (s.contents j).status = .done then [⟨ctx, .done⟩] else [] }
  have associated : s.associate ctx j = s' := by
    have same : (s₂.contents j).status = (s.contents j).status := status j
    have events : s₂.events = [] := idle
    change (if (s₂.contents j).status = .done then
      { s₂ with events := ⟨ctx, .done⟩ :: s₂.events } else s₂) = s'
    rw [same, events]
    by_cases done : (s.contents j).status = .done
    · simp [s', done]
    · simp [s', done, ← events]
  have next := keeps NscssContent.nextToRegister (fun _ => rfl) fun _ => rfl
  have registered := keeps NscssContent.registered (fun _ => rfl) fun _ => rfl
  have ends := keeps NscssContent.ended (fun _ => rfl) fun _ => rfl
  have ready : s'.registrable = s.registrable := registrable_congr status
  have imports₁ : ∀ l, (s₁.contents l).imports = (s.contents l).imports :=
    field_modify NscssContent.imports rfl
  have length : ∀ l, (s₂.contents l).imports.length = (s.contents l).imports.length := fun l => by
    rw [setImport_length, imports₁]
  have imports : ∀ l k, (s₂.contents l).imports[k]? =
      if ⟨l, k⟩ = ctx then some (.associated j) else (s.contents l).imports[k]? := by
    intro l k
    have bound := (List.getElem?_eq_some_iff.mp here).1
    rw [← imports₁] at bound
    rw [setImport_getElem? bound, imports₁]
  have absent : ctx ∉ (s.contents j).users := by
    rw [sound.users, here]
    simp
  have users : ∀ l, (s₂.contents l).users = (s₁.contents l).users :=
    field_modify NscssContent.users rfl
  rw [associated]
  exact {
    inside := fun l => by
      have empty : (s₂.contents l).imports ≠ [] ↔ (s.contents l).imports ≠ [] := by
        rw [← List.length_pos_iff, length, List.length_pos_iff]
      rw [empty, ends]
      exact sound.inside l
    fits := fun l k h there => by
      rw [imports] at there
      split_ifs at there with same
      · subst same
        cases there
        obtain ⟨j', import', fits⟩ := sound.fits l k _ here
        exact ⟨j', import', fits⟩
      · exact sound.fits l k h there
    whole := fun l => by
      rw [length, ends]
      exact sound.whole l
    loading := fun l => by
      rw [ends, status]
      exact sound.loading l
    failed := fun l => by
      rw [ends, status]
      exact sound.failed l
    notReady := fun l => by
      rw [status]
      exact sound.notReady l
    completed := fun l => by
      rw [status]
      exact sound.completed l
    early := fun l => by
      rw [ends, next]
      exact sound.early l
    unregistered := fun l => by
      rw [next, registered]
      exact sound.unregistered l
    registers := fun l m => by
      rw [next, registered, length, ready]
      intro here'
      obtain ⟨indices, bound, before⟩ := sound.registers l m here'
      refine ⟨indices, bound, fun k h less there => ?_⟩
      rw [imports] at there
      split_ifs at there with same
      · subst same
        cases before k _ less here
      · exact before k h less there
    all := fun l => by
      rw [status, registered, length]
      exact sound.all l
    waits := fun l full => by
      rw [ends, status, next]
      intro ended arrives undone
      obtain ⟨m, h, next', there, pending⟩ := sound.waits l full ended arrives undone
      by_cases same : ⟨l, m⟩ = ctx
      · refine ⟨m, .associated j, next', ?_, fun registers => Or.inr ?_⟩
        · rw [imports, if_pos same]
        · rw [ready] at registers
          have done : (s.contents j).status = .done := of_decide_eq_true registers
          simp [s', done, same]
      · refine ⟨m, h, next', ?_, fun registers => ?_⟩
        · rw [imports, if_neg same]
          exact there
        · rw [ready] at registers
          have listed := (pending registers).resolve_left (by simp)
          rw [idle] at listed
          cases listed
    failing := fun l k j' there => by
      rw [imports] at there
      rw [status]
      intro failed
      split_ifs at there with same
      · cases there
        exact absurd failed intact
      · have listed := sound.failing l k j' there failed
        rw [idle] at listed
        cases listed
    events := fun e inside => by
      have done : (s.contents j).status = .done ∧ e = ⟨ctx, .done⟩ := by
        by_cases done : (s.contents j).status = .done
        · simpa [s', done] using inside
        · simp [s', done] at inside
      refine ⟨j, ?_, Or.inl ?_⟩
      · rw [imports, done.2, if_pos rfl]
      · rw [status, done.2]
        exact ⟨rfl, done.1⟩
    distinct := by
      by_cases done : (s.contents j).status = .done <;> simp [s', done]
    users := fun l ctx' => by
      rw [users, imports]
      by_cases there : l = j
      · subst there
        rw [modify_self, List.mem_cons, sound.users]
        by_cases same : ctx' = ctx
        · simp [same]
        · simp [same]
      · rw [modify_of_ne there, sound.users]
        by_cases same : ctx' = ctx
        · rw [same, here]
          simp [Ne.symm there]
        · rw [if_neg same]
    nodup := fun l => by
      rw [users]
      by_cases there : l = j
      · subst there
        rw [modify_self]
        exact (sound.nodup l).cons absent
      · rw [modify_of_ne there]
        exact sound.nodup l
    ahead := sound.ahead }

/-- The data of a sheet arrives, with all its imports requested. -/
theorem endData (sound : Sound web s none none) (known : i ∈ web.sheets)
    (arrives : web.arrives i = true) (early : (s.contents i).ended = false)
    (whole : (s.contents i).imports.length = (web.imports i).length) :
    Sound web (s.modify i fun c => { c with ended := true }) none (some i) := by
  let s' := s.modify i fun c => { c with ended := true }
  have status : ∀ l, (s'.contents l).status = (s.contents l).status :=
    field_modify NscssContent.status rfl
  have imports : ∀ l, (s'.contents l).imports = (s.contents l).imports :=
    field_modify NscssContent.imports rfl
  have next : ∀ l, (s'.contents l).nextToRegister = (s.contents l).nextToRegister :=
    field_modify NscssContent.nextToRegister rfl
  have registered : ∀ l, (s'.contents l).registered = (s.contents l).registered :=
    field_modify NscssContent.registered rfl
  have users : ∀ l, (s'.contents l).users = (s.contents l).users :=
    field_modify NscssContent.users rfl
  have ready : s'.registrable = s.registrable := registrable_congr status
  have ends {l : Nat} (apart : l ≠ i) : (s'.contents l).ended = (s.contents l).ended :=
    congrArg NscssContent.ended (modify_of_ne apart)
  change Sound web s' none (some i)
  refine {
    inside := fun l listed => ?_
    fits := fun l => ?_
    whole := fun l ended arrives => ?_
    loading := fun l early' => ?_
    failed := fun l => ?_
    notReady := fun l => ?_
    completed := fun l => ?_
    early := fun l early' => ?_
    unregistered := fun l => ?_
    registers := fun l n => ?_
    all := fun l => ?_
    waits := fun l full ended arrives undone => ?_
    failing := fun l k j => ?_
    events := fun e inside => ?_
    distinct := sound.distinct
    users := fun l ctx => ?_
    nodup := fun l => ?_
    ahead := sound.ahead }
  · by_cases same : l = i
    · exact same ▸ known
    · rw [imports, ends same] at listed
      exact sound.inside l listed
  · rw [imports]
    exact sound.fits l
  · rw [imports]
    by_cases same : l = i
    · rw [same, whole]
    · exact sound.whole l (ends same ▸ ended) arrives
  · rw [status]
    by_cases same : l = i
    · rw [same]
      exact sound.loading i early
    · exact sound.loading l (ends same ▸ early')
  · rw [status]
    by_cases same : l = i
    · rw [same, sound.loading i early, arrives]
      simp
    · rw [ends same]
      exact sound.failed l
  · rw [status]
    exact sound.notReady l
  · rw [status]
    exact sound.completed l
  · rw [next]
    by_cases same : l = i
    · rw [same]
      exact sound.early i (Or.inl early)
    · exact sound.early l (ends same ▸ early')
  · rw [next, registered]
    exact sound.unregistered l
  · rw [next, registered, imports, ready]
    exact sound.registers l n
  · rw [status, registered, imports]
    exact sound.all l
  · have apart : l ≠ i := fun same => full (congrArg some same.symm)
    rw [next, imports, ready]
    rw [status] at undone
    exact sound.waits l (by simp) (ends apart ▸ ended) arrives undone
  · rw [imports, status]
    exact sound.failing l k j
  · simp only [imports, status]
    exact sound.events e inside
  · rw [users, imports]
    exact sound.users l ctx
  · rw [users]
    exact sound.nodup l

/-- The registration begins with the first import. -/
theorem beginRegistration (sound : Sound web s none (some i)) (arrives : web.arrives i = true)
    (ended : (s.contents i).ended = true) (idle : (s.contents i).nextToRegister = none)
    (undone : (s.contents i).status ≠ .done) (present : (s.contents i).imports ≠ []) :
    Sound web (s.modify i fun c => { c with nextToRegister := some 0 }) (some ⟨i, 0⟩) none := by
  let s' := s.modify i fun c => { c with nextToRegister := some 0 }
  have status : ∀ l, (s'.contents l).status = (s.contents l).status :=
    field_modify NscssContent.status rfl
  have imports : ∀ l, (s'.contents l).imports = (s.contents l).imports :=
    field_modify NscssContent.imports rfl
  have ends : ∀ l, (s'.contents l).ended = (s.contents l).ended :=
    field_modify NscssContent.ended rfl
  have registered : ∀ l, (s'.contents l).registered = (s.contents l).registered :=
    field_modify NscssContent.registered rfl
  have users : ∀ l, (s'.contents l).users = (s.contents l).users :=
    field_modify NscssContent.users rfl
  have ready : s'.registrable = s.registrable := registrable_congr status
  have self : (s'.contents i).nextToRegister = some 0 :=
    congrArg NscssContent.nextToRegister modify_self
  have other {l : Nat} (apart : l ≠ i) :
      (s'.contents l).nextToRegister = (s.contents l).nextToRegister :=
    congrArg NscssContent.nextToRegister (modify_of_ne apart)
  change Sound web s' (some ⟨i, 0⟩) none
  refine {
    inside := fun l => ?_
    fits := fun l => ?_
    whole := fun l => ?_
    loading := fun l => ?_
    failed := fun l => ?_
    notReady := fun l => ?_
    completed := fun l => ?_
    early := fun l early => ?_
    unregistered := fun l nothing => ?_
    registers := fun l n here => ?_
    all := fun l => ?_
    waits := fun l _ ended arrives undone => ?_
    failing := fun l k j => ?_
    events := fun e inside => ?_
    distinct := sound.distinct
    users := fun l ctx => ?_
    nodup := fun l => ?_
    ahead := sound.ahead }
  · rw [imports, ends]
    exact sound.inside l
  · rw [imports]
    exact sound.fits l
  · rw [imports, ends]
    exact sound.whole l
  · rw [ends, status]
    exact sound.loading l
  · rw [ends, status]
    exact sound.failed l
  · rw [status]
    exact sound.notReady l
  · rw [status]
    exact sound.completed l
  · rw [ends] at early
    have apart : l ≠ i := fun same => by
      rw [same, ended, arrives] at early
      simp at early
    rw [other apart]
    exact sound.early l early
  · have apart : l ≠ i := fun same => by
      rw [same, self] at nothing
      cases nothing
    rw [registered]
    exact sound.unregistered l (other apart ▸ nothing)
  · rw [registered, imports, ready]
    by_cases same : l = i
    · subst same
      rw [self] at here
      cases here
      exact ⟨sound.unregistered l idle, Nat.zero_le _, by simp⟩
    · exact sound.registers l n (other same ▸ here)
  · rw [status, registered, imports]
    exact sound.all l
  · rw [imports]
    by_cases same : l = i
    · subst same
      exact ⟨0, _, self, List.getElem?_eq_getElem (List.length_pos_iff.mpr present),
        fun _ => Or.inl rfl⟩
    · rw [other same, ready]
      rw [ends] at ended
      rw [status] at undone
      obtain ⟨m, h, next, here, pending⟩ :=
        sound.waits l (fun full => same (Option.some.inj full).symm) ended arrives undone
      exact ⟨m, h, next, here, fun registers => Or.inr ((pending registers).resolve_left (by simp))⟩
  · rw [imports, status]
    exact sound.failing l k j
  · simp only [imports, status]
    exact sound.events e inside
  · rw [users, imports]
    exact sound.users l ctx
  · rw [users]
    exact sound.nodup l

end Sound

end Neosurf.CssImports
