/-
This file is about loops, whose turns lead to another state or to a result, and about runs of a
partial step function whose steps each meet a condition.
-/

import Mathlib.Order.Basic
import Mathlib.Data.Option.Basic

namespace Loop

variable {State Result : Type*} (turn : State → State ⊕ Result)

/-- The result of a loop within a number of turns. -/
def run : Nat → State → Option Result
  | 0, _ => none
  | turns + 1, s =>
      match turn s with
      | .inl s' => run turns s'
      | .inr result => some result

variable {turn} {s s' : State} {result : Result} {turns : Nat}

theorem run_of_next (next : turn s = .inl s') : run turn (turns + 1) s = run turn turns s' := by
  rw [run, next]

theorem run_of_result (last : turn s = .inr result) : run turn (turns + 1) s = some result := by
  rw [run, last]

/-- More turns do not change a result. -/
theorem run_of_le {more : Nat} (done : run turn turns s = some result) (enough : turns ≤ more) :
    run turn more s = some result := by
  induction turns generalizing s more with
  | zero => cases done
  | succ turns ih =>
      obtain ⟨more, rfl⟩ : ∃ later, more = later + 1 := ⟨more - 1, by omega⟩
      cases step : turn s with
      | inl s' =>
          rw [run_of_next step] at done ⊢
          exact ih done (by omega)
      | inr last =>
          rw [run_of_result step] at done ⊢
          exact done

/-- A loop has one result. -/
theorem run_unique {more : Nat} {other : Result} (first : run turn turns s = some result)
    (second : run turn more s = some other) : result = other := by
  rcases Nat.le_total turns more with less | less
  · rw [run_of_le first less] at second
    exact Option.some_inj.mp second
  · rw [run_of_le second less] at first
    exact (Option.some_inj.mp first).symm

/-- A loop that keeps a condition with every turn, where something decreases, ends. Its result is
that of a last turn in a state which meets the condition. -/
theorem run_total {Good : State → Prop} {Post : Result → Prop} (size : State → Nat)
    (keeps : ∀ s s', Good s → turn s = .inl s' → Good s' ∧ size s' < size s)
    (ends : ∀ s result, Good s → turn s = .inr result → Post result)
    (good : Good s) (enough : size s < turns) :
    ∃ result, run turn turns s = some result ∧ Post result := by
  induction turns generalizing s with
  | zero => exact absurd enough (Nat.not_lt_zero _)
  | succ turns ih =>
      cases step : turn s with
      | inl s' =>
          obtain ⟨good', less⟩ := keeps s s' good step
          rw [run_of_next step]
          exact ih good' (by omega)
      | inr result => exact ⟨result, run_of_result step, ends s result good step⟩

/-- The states that a loop comes to. -/
inductive Reached (turn : State → State ⊕ Result) (start : State) : State → Prop where
  | start : Reached turn start start
  | next {s s' : State} : Reached turn start s → turn s = .inl s' → Reached turn start s'

/-- The loop ends as it does from any state that it comes to. -/
theorem run_of_reached {start : State} (reached : Reached turn start s)
    (done : run turn turns start = some result) : ∃ later, run turn later s = some result := by
  induction reached with
  | start => exact ⟨turns, done⟩
  | next _ step ih =>
      obtain ⟨later, rest⟩ := ih
      cases later with
      | zero => cases rest
      | succ later => exact ⟨later, by rw [← rest, run_of_next step]⟩

end Loop

namespace GuardedRuns

variable {State Input : Type*} (step : State → Input → Option State)

/-- The state after these inputs, if every step has one. -/
def run : State → List Input → Option State
  | s, [] => some s
  | s, input :: rest => (step s input).bind fun s' => run s' rest

/-- Every step of a run meets a condition, in the state that it starts in. -/
def Meets (fits : State → Input → Prop) : State → List Input → Prop
  | _, [] => True
  | s, input :: rest => fits s input ∧ ∀ s' ∈ step s input, Meets fits s' rest

variable {step} {fits : State → Input → Prop}

/-- A condition on the inputs alone is met in every state. -/
theorem meets_and {more : State → Input → Prop} (inputs : List Input)
    (also : ∀ input ∈ inputs, ∀ s, more s input) {s : State} (meets : Meets step fits s inputs) :
    Meets step (fun s input => more s input ∧ fits s input) s inputs := by
  induction inputs generalizing s with
  | nil => trivial
  | cons input rest ih =>
      exact ⟨⟨also input (List.mem_cons_self ..) s, meets.1⟩, fun s' done =>
        ih (fun later inside => also later (List.mem_cons_of_mem _ inside)) (meets.2 s' done)⟩

/-- What every step keeps that meets the condition is kept by runs of such steps. -/
theorem run_keeps {Good : State → Prop}
    (keeps : ∀ s input s', Good s → fits s input → step s input = some s' → Good s')
    {s s' : State} (inputs : List Input) (good : Good s) (meets : Meets step fits s inputs)
    (reached : run step s inputs = some s') : Good s' := by
  induction inputs generalizing s with
  | nil =>
      cases reached
      exact good
  | cons input rest ih =>
      obtain ⟨middle, done, later⟩ := Option.bind_eq_some_iff.mp reached
      exact ih (keeps s input middle good meets.1 done) (meets.2 middle done) later

instance [∀ s input, Decidable (fits s input)] :
    ∀ (s : State) (inputs : List Input), Decidable (Meets step fits s inputs)
  | _, [] => inferInstanceAs (Decidable True)
  | s, input :: rest =>
      have : ∀ s', Decidable (Meets step fits s' rest) := fun s' =>
        instDecidableMeets s' rest
      inferInstanceAs (Decidable (fits s input ∧ ∀ s' ∈ step s input, Meets step fits s' rest))

end GuardedRuns
