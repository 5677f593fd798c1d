/-
This file proves what holds of the style sheets at every moment of a run.
-/

import Mathlib.Data.List.Nodup
import Neosurf.Construction.CssImports
import Neosurf.ToMathlib.Walks
import Neosurf.ToMathlib.SplitOn

namespace Neosurf.CssImports

open Contents

variable {web : Web} {s s' : Sheets} {i j k n : Nat} {h : NscssImport} {ctx : NscssImportCtx}
  {late : Option NscssImportCtx} {full : Option Nat} {change : NscssContent → NscssContent}

/-- The first sheet imports the second one, which is not itself, and the data of both arrives. -/
def Web.Needs (web : Web) (i j : Nat) : Prop :=
  i ∈ web.sheets ∧ j ∈ web.imports i ∧ web.url j ≠ web.url i ∧ web.arrives i = true ∧
    web.arrives j = true

/-- This handle may stand for an import of this sheet. -/
def NscssImport.Fits (web : Web) (i j : Nat) : NscssImport → Prop
  | .null => web.url j = web.url i ∨ web.arrives j = false
  | .retrieving j' => j' = j ∧ web.url j ≠ web.url i
  | .associated j' => j' = j ∧ web.url j ≠ web.url i

/-- One import may have been told just now, and one sheet may have registered all its imports and
not called its done function yet. -/
structure Sound (web : Web) (s : Sheets) (late : Option NscssImportCtx) (full : Option Nat) :
    Prop where
  inside : ∀ i, (s.contents i).imports ≠ [] ∨ (s.contents i).ended = true → i ∈ web.sheets
  fits : ∀ (i k : Nat) (h : NscssImport), (s.contents i).imports[k]? = some h →
    ∃ j, (web.imports i)[k]? = some j ∧ h.Fits web i j
  whole : ∀ i, (s.contents i).ended = true → web.arrives i = true →
    (s.contents i).imports.length = (web.imports i).length
  loading : ∀ i, (s.contents i).ended = false → (s.contents i).status = .loading
  failed : ∀ i, (s.contents i).status = .error ↔
    (s.contents i).ended = true ∧ web.arrives i = false
  notReady : ∀ i, (s.contents i).status ≠ .ready
  completed : ∀ i, i ∈ s.completed ↔ (s.contents i).status = .done
  early : ∀ i, (s.contents i).ended = false ∨ web.arrives i = false →
    (s.contents i).nextToRegister = none
  unregistered : ∀ i, (s.contents i).nextToRegister = none → (s.contents i).registered = []
  registers : ∀ i n : Nat, (s.contents i).nextToRegister = some n →
    (s.contents i).registered = List.range n ∧ n ≤ (s.contents i).imports.length ∧
      ∀ (k : Nat) (h : NscssImport), k < n → (s.contents i).imports[k]? = some h →
        s.registrable h = true
  all : ∀ i, (s.contents i).status = .done →
    (s.contents i).registered = List.range (s.contents i).imports.length
  waits : ∀ i, full ≠ some i → (s.contents i).ended = true → web.arrives i = true →
    (s.contents i).status ≠ .done → ∃ (n : Nat) (h : NscssImport), (s.contents i).nextToRegister = some n ∧
      (s.contents i).imports[n]? = some h ∧ (s.registrable h = true →
        late = some ⟨i, n⟩ ∨ ⟨i, n⟩ ∈ s.events.map ImportEvent.ctx)
  failing : ∀ i k j : Nat, (s.contents i).imports[k]? = some (.associated j) →
    (s.contents j).status = .error → ⟨⟨i, k⟩, .error⟩ ∈ s.events
  events : ∀ e ∈ s.events, ∃ j,
    (s.contents e.ctx.css).imports[e.ctx.index]? = some (.associated j) ∧
      (e.msg = .done ∧ (s.contents j).status = .done ∨
        e.msg = .error ∧ (s.contents j).status = .error)
  distinct : (s.events.map ImportEvent.ctx).Nodup
  users : ∀ j ctx, ctx ∈ (s.contents j).users ↔
    (s.contents ctx.css).imports[ctx.index]? = some (.associated j)
  nodup : ∀ j, (s.contents j).users.Nodup
  ahead : PointsAhead web.Needs s.completed

namespace Sheets

theorem modify_self : (s.modify i change).contents i = change (s.contents i) :=
  Function.update_self ..

theorem modify_of_ne (apart : j ≠ i) : (s.modify i change).contents j = s.contents j :=
  Function.update_of_ne apart _ _

/-- A field that the change keeps is kept everywhere. -/
theorem field_modify {β : Type} (field : NscssContent → β)
    (same : field (change (s.contents i)) = field (s.contents i)) (j : Nat) :
    field ((s.modify i change).contents j) = field (s.contents j) := by
  by_cases here : j = i
  · rw [here, modify_self, same]
  · rw [modify_of_ne here]

/-- Only the statuses of the contents decide where the registration stops. -/
theorem registrable_congr (same : ∀ j, (s'.contents j).status = (s.contents j).status) :
    s'.registrable = s.registrable := by
  funext h
  cases h with
  | null => rfl
  | retrieving j => rfl
  | associated j => rw [registrable, registrable, same]

end Sheets

open Sheets

namespace Sound

/-- The sheet calls its done function, and its users are told. -/
theorem contentDone (sound : Sound web s none (some i)) (ended : (s.contents i).ended = true)
    (arrives : web.arrives i = true) (loading : (s.contents i).status ≠ .done)
    (registered : (s.contents i).registered = List.range (s.contents i).imports.length)
    (ready : ∀ (k : Nat) (h : NscssImport), (s.contents i).imports[k]? = some h → s.registrable h = true) :
    Sound web (s.contentDone i) none none := by
  have keeps {β : Type} (field : NscssContent → β)
      (same : ∀ c, field { c with status := .done } = field c) (j : Nat) :
      field ((s.contentDone i).contents j) = field (s.contents j) := by
    have kept : field ((s.modify i fun c => { c with status := .done }).contents j) =
        field (s.contents j) := field_modify field (same _) j
    exact kept
  have imports := keeps NscssContent.imports fun _ => rfl
  have registers := keeps NscssContent.registered fun _ => rfl
  have next := keeps NscssContent.nextToRegister fun _ => rfl
  have users := keeps NscssContent.users fun _ => rfl
  have ends := keeps NscssContent.ended fun _ => rfl
  have self : ((s.contentDone i).contents i).status = .done := by
    change ((s.modify i fun c => { c with status := .done }).contents i).status = .done
    rw [modify_self]
  have other {j : Nat} (apart : j ≠ i) :
      ((s.contentDone i).contents j).status = (s.contents j).status := by
    change ((s.modify i fun c => { c with status := .done }).contents j).status = _
    rw [modify_of_ne apart]
  have events : (s.contentDone i).events =
      ((s.contents i).users.map fun ctx => ⟨ctx, .done⟩) ++ s.events := by
    rw [← users i]
    rfl
  have more {h : NscssImport} (before : s.registrable h = true) :
      (s.contentDone i).registrable h = true := by
    cases h with
    | null => rfl
    | retrieving j => cases before
    | associated j =>
        by_cases same : j = i
        · rw [registrable, same, self]
          rfl
        · rw [registrable, other same]
          exact before
  have waiting : (s.contents i).status ≠ .error := fun failed => by
    have unarrived := ((sound.failed i).mp failed).2
    rw [arrives] at unarrived
    cases unarrived
  have told : ∀ e ∈ s.events, ∃ j, j ≠ i ∧
      (s.contents e.ctx.css).imports[e.ctx.index]? = some (.associated j) ∧
        (e.msg = .done ∧ (s.contents j).status = .done ∨
          e.msg = .error ∧ (s.contents j).status = .error) := by
    intro e inside
    obtain ⟨j, here, msg⟩ := sound.events e inside
    refine ⟨j, fun same => ?_, here, msg⟩
    subst same
    exact msg.elim (fun both => loading both.2) fun both => waiting both.2
  exact {
    inside := fun j => by
      rw [imports, ends]
      exact sound.inside j
    fits := fun j => by
      rw [imports]
      exact sound.fits j
    whole := fun j => by
      rw [imports, ends]
      exact sound.whole j
    loading := fun j => by
      rw [ends]
      intro early
      have apart : j ≠ i := fun same => by
        rw [same, ended] at early
        cases early
      rw [other apart]
      exact sound.loading j early
    failed := fun j => by
      rw [ends]
      by_cases same : j = i
      · rw [same, self, arrives]
        simp
      · rw [other same]
        exact sound.failed j
    notReady := fun j => by
      by_cases same : j = i
      · rw [same, self]
        simp
      · rw [other same]
        exact sound.notReady j
    completed := fun j => by
      change j ∈ i :: s.completed ↔ _
      rw [List.mem_cons]
      by_cases same : j = i
      · simp [same, self]
      · rw [other same, sound.completed]
        simp [same]
    early := fun j => by
      rw [ends, next]
      exact sound.early j
    unregistered := fun j => by
      rw [registers, next]
      exact sound.unregistered j
    registers := fun j n => by
      rw [registers, next, imports]
      intro here
      obtain ⟨indices, bound, before⟩ := sound.registers j n here
      exact ⟨indices, bound, fun k h less there => more (before k h less there)⟩
    all := fun j => by
      rw [registers, imports]
      by_cases same : j = i
      · rw [same]
        exact fun _ => registered
      · rw [other same]
        exact sound.all j
    waits := fun j _ => by
      rw [ends, next, imports]
      intro ended' arrives' undone
      have apart : j ≠ i := fun same => undone (same ▸ self)
      rw [other apart] at undone
      obtain ⟨n, h, here, there, pending⟩ :=
        sound.waits j (fun same => apart (Option.some.inj same).symm) ended' arrives' undone
      refine ⟨n, h, here, there, fun ready => Or.inr ?_⟩
      rw [events, List.map_append]
      by_cases before : s.registrable h = true
      · exact List.mem_append_right _ ((pending before).resolve_left (by simp))
      · have user : ⟨j, n⟩ ∈ (s.contents i).users := by
          cases h with
          | null => exact absurd rfl before
          | retrieving l => cases ready
          | associated l =>
              have same : l = i := by
                by_contra apart'
                rw [registrable, other apart'] at ready
                exact before ready
              exact (sound.users i ⟨j, n⟩).mpr (same ▸ there)
        refine List.mem_append_left _ (List.mem_map.mpr ⟨⟨⟨j, n⟩, .done⟩, ?_, rfl⟩)
        exact List.mem_map_of_mem user
    failing := fun j k l => by
      rw [imports, events]
      intro here failed
      have apart : l ≠ i := fun same => by
        rw [same, self] at failed
        cases failed
      rw [other apart] at failed
      exact List.mem_append_right _ (sound.failing j k l here failed)
    events := fun e inside => by
      rw [events] at inside
      rw [imports]
      rcases List.mem_append.mp inside with inside | inside
      · obtain ⟨ctx, user, rfl⟩ := List.mem_map.mp inside
        exact ⟨i, (sound.users i ctx).mp user, Or.inl ⟨rfl, self⟩⟩
      · obtain ⟨j, apart, here, msg⟩ := told e inside
        rw [← other apart] at msg
        exact ⟨j, here, msg⟩
    distinct := by
      rw [events, List.map_append, List.map_map]
      have contexts : (s.contents i).users.map
          (ImportEvent.ctx ∘ fun ctx => ⟨ctx, ContentMsg.done⟩) = (s.contents i).users :=
        List.map_id _
      rw [contexts]
      refine (sound.nodup i).append sound.distinct fun ctx user listed => ?_
      obtain ⟨e, inside, rfl⟩ := List.mem_map.mp listed
      obtain ⟨j, apart, here, -⟩ := told e inside
      rw [(sound.users i e.ctx).mp user] at here
      cases here
      exact apart rfl
    users := fun j ctx => by
      rw [users, imports]
      exact sound.users j ctx
    nodup := fun j => by
      rw [users]
      exact sound.nodup j
    ahead := by
      refine ⟨fun inside => loading ((sound.completed i).mp inside), fun j needs => ?_,
        sound.ahead⟩
      obtain ⟨-, listed, apart, -, arrives'⟩ := needs
      obtain ⟨k, bound, rfl⟩ := List.mem_iff_getElem.mp listed
      have here : k < (s.contents i).imports.length := by
        rw [sound.whole i ended arrives]
        exact bound
      obtain ⟨h, there⟩ : ∃ h, (s.contents i).imports[k]? = some h :=
        ⟨_, List.getElem?_eq_getElem here⟩
      obtain ⟨j, import', fits⟩ := sound.fits i k h there
      rw [List.getElem?_eq_getElem bound] at import'
      cases import'
      have registers := ready k h there
      cases h with
      | null =>
          rcases fits with same | unarrived
          · exact absurd same apart
          · rw [arrives'] at unarrived
            cases unarrived
      | retrieving l => cases registers
      | associated l =>
          rw [← fits.1]
          exact (sound.completed l).mpr (of_decide_eq_true registers) }

/-- A sheet that registered all its imports is the only one that may not wait. -/
theorem fill (sound : Sound web s late (some i))
    (waits : (s.contents i).status ≠ .done → ∃ (n : Nat) (h : NscssImport),
      (s.contents i).nextToRegister = some n ∧ (s.contents i).imports[n]? = some h ∧
        s.registrable h = false) :
    Sound web s late none := by
  refine { sound with waits := fun j _ ended arrives undone => ?_ }
  by_cases same : j = i
  · subst same
    obtain ⟨n, h, next, here, stops⟩ := waits undone
    refine ⟨n, h, next, here, fun ready => ?_⟩
    rw [stops] at ready
    cases ready
  · exact sound.waits j (fun other => same (Option.some.inj other).symm) ended arrives undone

/-- The sheet registers imports until one has not finished. -/
theorem register (sound : Sound web s (some ⟨i, n⟩) none)
    (next : (s.contents i).nextToRegister = some n) (undone : (s.contents i).status ≠ .done)
    (count : Nat)
    (counted : count = (((s.contents i).imports.drop n).takeWhile s.registrable).length) :
    Sound web (s.modify i fun c =>
      { c with
        nextToRegister := some (n + count)
        registered := c.registered ++ List.range' n count }) none (some i) := by
  obtain ⟨indices, bound, before⟩ := sound.registers i n next
  have within : count ≤ (s.contents i).imports.length - n := by
    rw [counted, ← List.length_drop]
    exact (List.takeWhile_prefix _).length_le
  let s₁ := s.modify i fun c =>
    { c with
      nextToRegister := some (n + count)
      registered := c.registered ++ List.range' n count }
  have status : ∀ j, (s₁.contents j).status = (s.contents j).status :=
    field_modify NscssContent.status rfl
  have imports : ∀ j, (s₁.contents j).imports = (s.contents j).imports :=
    field_modify NscssContent.imports rfl
  have users : ∀ j, (s₁.contents j).users = (s.contents j).users :=
    field_modify NscssContent.users rfl
  have ends : ∀ j, (s₁.contents j).ended = (s.contents j).ended :=
    field_modify NscssContent.ended rfl
  have ready : s₁.registrable = s.registrable := registrable_congr status
  have other {j : Nat} (apart : j ≠ i) : s₁.contents j = s.contents j := modify_of_ne apart
  have self : s₁.contents i = { s.contents i with
      nextToRegister := some (n + count)
      registered := (s.contents i).registered ++ List.range' n count } := modify_self
  change Sound web s₁ none (some i)
  exact {
    inside := fun j => by
      rw [imports, ends]
      exact sound.inside j
    fits := fun j => by
      rw [imports]
      exact sound.fits j
    whole := fun j => by
      rw [imports, ends]
      exact sound.whole j
    loading := fun j => by
      rw [ends, status]
      exact sound.loading j
    failed := fun j => by
      rw [ends, status]
      exact sound.failed j
    notReady := fun j => by
      rw [status]
      exact sound.notReady j
    completed := fun j => by
      rw [status]
      exact sound.completed j
    early := fun j early => by
      rw [ends] at early
      have nothing := sound.early j early
      have apart : j ≠ i := fun same => by
        rw [same, next] at nothing
        cases nothing
      rw [other apart]
      exact nothing
    unregistered := fun j nothing => by
      have apart : j ≠ i := fun same => by
        rw [same, self] at nothing
        cases nothing
      rw [other apart] at nothing ⊢
      exact sound.unregistered j nothing
    registers := fun j m here => by
      rw [ready]
      by_cases same : j = i
      · subst same
        rw [self] at here ⊢
        cases here
        refine ⟨?_, ?_, fun k h less there => ?_⟩
        · rw [indices, List.range'_eq_map_range, List.range_add]
        · change n + count ≤ (s.contents j).imports.length
          omega
        · by_cases old : k < n
          · exact before k h old there
          · refine List.of_lt_length_takeWhile (s := (s.contents j).imports.drop n) (k := k - n)
              (by omega) ?_
            rw [List.getElem?_drop, Nat.add_sub_cancel' (not_lt.mp old)]
            exact there
      · rw [other same] at here ⊢
        exact sound.registers j m here
    all := fun j done => by
      rw [status] at done
      have apart : j ≠ i := fun same => undone (same ▸ done)
      rw [other apart]
      exact sound.all j done
    waits := fun j full ended arrives undone' => by
      have apart : j ≠ i := fun same => full (congrArg some same.symm)
      rw [other apart] at ended undone' ⊢
      rw [ready]
      obtain ⟨m, h, here, there, pending⟩ :=
        sound.waits j (by simp) ended arrives undone'
      refine ⟨m, h, here, there, fun registers => Or.inr ?_⟩
      refine (pending registers).resolve_left fun same => apart ?_
      cases same
      rfl
    failing := fun j k l => by
      rw [imports, status]
      exact sound.failing j k l
    events := fun e inside => by
      simp only [imports, status]
      exact sound.events e inside
    distinct := sound.distinct
    users := fun j ctx => by
      rw [users, imports]
      exact sound.users j ctx
    nodup := fun j => by
      rw [users]
      exact sound.nodup j
    ahead := sound.ahead }

/-- A sheet whose next import was told registers it and those after it that have finished. -/
theorem registerImports (sound : Sound web s (some ⟨i, n⟩) none)
    (next : (s.contents i).nextToRegister = some n) (ended : (s.contents i).ended = true)
    (arrives : web.arrives i = true) (undone : (s.contents i).status ≠ .done)
    (bound : n < (s.contents i).imports.length) :
    ∃ s', s.registerImports i = some s' ∧ Sound web s' none none := by
  have registered := sound.register next undone _ rfl
  rw [Sheets.registerImports]
  simp only [next, if_pos bound]
  refine ⟨_, rfl, ?_⟩
  split_ifs with whole
  · obtain ⟨indices, -, ready⟩ := registered.registers i _ (congrArg _ modify_self)
    refine registered.contentDone ?_ arrives ?_ ?_ fun k h here => ready k h ?_ here
    · rw [modify_self]
      exact ended
    · rw [modify_self]
      exact undone
    · rw [indices, modify_self, whole]
    · rw [modify_self] at here
      rw [whole]
      exact (List.getElem?_eq_some_iff.mp here).1
  · refine registered.fill fun _ => ?_
    rw [modify_self]
    have within := (List.takeWhile_prefix (l := (s.contents i).imports.drop n)
      s.registrable).length_le
    rw [List.length_drop] at within
    have inside : n + ((s.contents i).imports.drop n |>.takeWhile s.registrable).length <
        (s.contents i).imports.length := by omega
    refine ⟨_, _, rfl, List.getElem?_eq_getElem inside, ?_⟩
    rw [registrable_congr (field_modify NscssContent.status rfl)]
    refine List.not_of_length_takeWhile (s := (s.contents i).imports.drop n) ?_
    rw [List.getElem?_drop]
    exact List.getElem?_eq_getElem inside

end Sound

end Neosurf.CssImports
