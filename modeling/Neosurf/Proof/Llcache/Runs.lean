import Neosurf.Proof.Llcache.StepChanges

namespace Neosurf.Llcache

open Cache

/-- Every step of a run meets a condition, in the state that it starts in. -/
def Meets (fits : Outside → Cache → Input → Prop) : Cache → List (Outside × Input) → Prop
  | _, [] => True
  | s, (out, input) :: rest =>
      fits out s input ∧ ∀ s', s.step out input = some s' → Meets fits s' rest

/-- What every step keeps that meets a condition is kept by runs of such steps. -/
theorem run_keeps {fits : Outside → Cache → Input → Prop} {Good : Cache → Prop}
    (step : ∀ out s input s', Good s → fits out s input → s.step out input = some s' → Good s')
    {s s' : Cache} (steps : List (Outside × Input)) (good : Good s) (meets : Meets fits s steps)
    (reached : s.run steps = some s') : Good s' := by
  induction steps generalizing s with
  | nil =>
      cases reached
      exact good
  | cons first rest ih =>
      obtain ⟨out, input⟩ := first
      rw [Cache.run, List.foldlM_cons, Option.bind_eq_bind, Option.bind_eq_some_iff] at reached
      obtain ⟨middle, done, later⟩ := reached
      exact ih (step out s input middle good meets.1 done) (meets.2 middle done) later

theorem meets_of_forall {fits : Outside → Cache → Input → Prop} {s : Cache}
    (steps : List (Outside × Input)) (all : ∀ x ∈ steps, ∀ s, fits x.1 s x.2) :
    Meets fits s steps := by
  induction steps generalizing s with
  | nil => trivial
  | cons first rest ih =>
      exact ⟨all first (List.mem_cons_self ..) s,
        fun _ _ => ih fun x inside => all x (List.mem_cons_of_mem _ inside)⟩

/-- These inputs come with the same surroundings. -/
def within (out : Outside) (inputs : List Input) : List (Outside × Input) :=
  inputs.map (Prod.mk out)

theorem meets_within {fits : Outside → Cache → Input → Prop} {s : Cache} {out : Outside}
    {inputs : List Input} (all : ∀ input ∈ inputs, ∀ s, fits out s input) :
    Meets fits s (within out inputs) := by
  refine meets_of_forall _ fun x inside s => ?_
  obtain ⟨input, here, rfl⟩ := List.mem_map.mp inside
  exact all input here s

/-- Every step of a run passes a test in the state that it starts in. -/
def checks (test : Cache → Input → Bool) : Cache → List (Outside × Input) → Bool
  | _, [] => true
  | s, (out, input) :: rest => test s input && (s.step out input).all fun s' => checks test s' rest

theorem meets_of_checks {fits : Outside → Cache → Input → Prop} {s : Cache} {out : Outside}
    {inputs : List Input} (test : Cache → Input → Bool)
    (sound : ∀ input ∈ inputs, ∀ s, test s input = true → fits out s input)
    (passes : checks test s (within out inputs) = true) : Meets fits s (within out inputs) := by
  induction inputs generalizing s with
  | nil => trivial
  | cons input rest ih =>
      rw [within, List.map_cons, checks, Bool.and_eq_true] at passes
      refine ⟨sound input (List.mem_cons_self ..) s passes.1, fun s' done => ?_⟩
      have later := passes.2
      rw [done] at later
      exact ih (fun x inside => sound x (List.mem_cons_of_mem _ inside)) later

/-- A run with a result that passes a test has a result. -/
theorem exists_of_any {s : Cache} {steps : List (Outside × Input)} (test : Cache → Bool)
    (passes : (s.run steps).any test = true) : ∃ s', s.run steps = some s' ∧ test s' = true := by
  cases result : s.run steps with
  | none =>
      rw [result] at passes
      cases passes
  | some s' =>
      rw [result] at passes
      exact ⟨s', rfl, passes⟩

theorem tidy_initial (parameters : Parameters) : Tidy (initial parameters) :=
  ⟨List.nodup_nil, fun _ inside => (List.not_mem_nil inside).elim⟩

variable {out : Outside} {s s' : Cache}

/-- The end of the cache persists what it can, and destroys all that is left. -/
theorem finalise_step (done : s.step out .finalise = some s') : s' = s.finalise out := by
  unfold Cache.step at done
  split at done
  · cases done
  · cases task : s.task with
    | none =>
        rw [task] at done
        cases done
        rfl
    | some running =>
        rw [task] at done
        cases done

@[simp] theorem live_finalise : (s.finalise out).live = [] := by
  unfold Cache.finalise
  dsimp only
  rw [destroyAll_eq]
  rfl

@[simp] theorem handles_finalise (handle : Nat) : (s.finalise out).handles handle = none := by
  unfold Cache.finalise
  dsimp only
  rw [destroyAll_eq]

/-- Surroundings where every fetch starts, and the backing store takes everything and finds
nothing. -/
def calmOutside : Outside where
  clock := ⟨100, fun _ => -1⟩
  junk := fun _ => 0
  hstsEnabled := fun _ => false
  authDetails := fun _ _ => none
  fetchers := [⟨str "http", fun _ => true⟩, ⟨str "https", fun _ => true⟩]
  fetchStart := fun _ => .ok ⟨200⟩
  storedData := fun _ => .error ⟨.notFound, by decide⟩
  storedMetadata := fun _ => .error ⟨.notFound, by decide⟩
  storeData := fun _ _ => .ok
  storeMetadata := fun _ _ => .ok
  elapsed := fun _ => 1
  reallocEmpty := false
  sizeofObject := 400
  sizeofHeader := 16
  sizeofChain := 160

/-- A store that refuses objects without source data. -/
def refusingOutside : Outside :=
  { calmOutside with storeData := fun _ data => if data = none then .saveFailed else .ok }

/-- A small cache. -/
def smallCache : Parameters where
  limit := 1000
  minimumLifetime := 0
  minimumBandwidth := 0
  maximumBandwidth := 1000000
  timeQuantum := 1000
  fetchAttempts := 3

/-- The URL of this text, if it has one. -/
def urlOf (text : String) : Nsurl :=
  (Nsurl.nsurlCreate (fun _ => 0) (str text)).toOption.getD ⟨{}, 0, 0, []⟩

end Neosurf.Llcache
