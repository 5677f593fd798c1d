import Neosurf.Proof.Llcache.Candidates
import Neosurf.Proof.Llcache.Runs

namespace Neosurf.Llcache

open Cache

variable {rules : Rules} {out : Outside} {s s' : Cache} {input : Input} {o : LlcacheObject}

/-- An object whose redirect is being sent has no fetch, and has not followed too many. -/
def Pends (s : Cache) : Prop :=
  ∀ sending, s.task = some (.sending sending) → sending.pending ≠ none →
    sending.object < s.nextObject ∧ ∀ o, s.find sending.object = some o →
      o.fetch.fetch = none ∧ ¬ REDIRECT_LIMIT < o.fetch.redirectCount

/-- A change keeps the running loop, or is a turn to another one. -/
theorem Change.task (change : Change rules out s s') :
    s'.task = s.task ∨ rules.turns s s'.task ∧ s' = { s with task := s'.task } := by
  cases change with
  | silent same => exact Or.inl same.task
  | turn task turned => exact Or.inr ⟨turned, rfl⟩
  | unreadable found stored missing swept => exact Or.inl swept.task
  | sweep idle swept => exact Or.inl swept.task
  | leave id user client =>
      refine Or.inl ?_
      unfold dropUser
      split <;> rfl
  | move redirects here present readable landed =>
      refine Or.inl ?_
      unfold moveUsers
      split <;> rfl
  | snapshot client here found owns =>
      refine Or.inl ?_
      unfold moveToSnapshot
      dsimp only
      split <;> rfl
  | edit | store | born | bornUncached | revalidate | stillborn | releaseCandidate | join =>
      exact Or.inl rfl

/-- The steps of an event keep that its object is at rest. -/
theorem Changes.pends (changes : Changes (stepRules out s input) out s s') (tidy : Tidy s)
    (pends : Pends s) : Pends s' := by
  induction changes with
  | refl => exact pends
  | @tail middle last changes change ih =>
      intro sending task pending
      have tidy' : Tidy middle := Changes.tidy changes tidy
      rcases change.task with same | ⟨turned, same⟩
      · obtain ⟨old, still⟩ := ih sending (same ▸ task) pending
        refine ⟨Nat.lt_of_lt_of_le old change.nextObject_le, fun o found => ?_⟩
        obtain ⟨before, here, later⟩ :=
          Changes.later (Relation.ReflTransGen.single change) tidy' old found
        obtain ⟨none, few⟩ := still before here
        exact ⟨later.fetch none, later.redirectCount ▸ few⟩
      · rw [task] at turned
        have next : last.nextObject = middle.nextObject := by rw [same]
        have find (id : ObjectId) : last.find id = middle.find id := by rw [same]; rfl
        rw [next]
        cases input with
        | returns answer =>
            obtain ⟨before, was, shape⟩ := turned
            have pending' : before.pending ≠ none := by
              rw [shape] at pending
              exact pending
            obtain ⟨old, still⟩ := pends before was pending'
            have object : sending.object = before.object := by rw [shape]
            rw [object]
            refine ⟨Nat.lt_of_lt_of_le old (Changes.nextObject_le changes), fun o found => ?_⟩
            rw [find] at found
            obtain ⟨first, here, later⟩ := Changes.later changes tidy old found
            obtain ⟨none, few⟩ := still first here
            exact ⟨later.fetch none, later.redirectCount ▸ few⟩
        | fetch id msg =>
            obtain ⟨rfl, -, redirects⟩ := turned
            obtain ⟨p, some⟩ := Option.ne_none_iff_exists'.mp pending
            obtain ⟨first, target, asked, found, -, -, -, few, rest⟩ := redirects p some
            have old := tidy.fresh _ (mem_of_find found)
            refine ⟨Nat.lt_of_lt_of_le old (Changes.nextObject_le changes), fun o here => ?_⟩
            rw [find] at here
            obtain ⟨later, none⟩ := rest o here
            exact ⟨none, later.redirectCount ▸ few⟩
        | _ => exact turned.elim

/-- Nothing is left to be at rest at the end of the cache. -/
theorem pends_finalise (tidy : Tidy s) (pends : Pends s) : Pends (s.finalise out) := by
  have persisted : Pends (s.persist out) :=
    Changes.pends (@persist_changes (stepRules out s .persist) out s tidy) tidy pends
  have same : (s.finalise out).task = (s.persist out).task ∧
      (s.finalise out).nextObject = (s.persist out).nextObject := by
    unfold finalise
    dsimp only
    rw [destroyAll_eq]
    exact ⟨rfl, rfl⟩
  intro sending task pending
  rw [same.1] at task
  rw [same.2]
  refine ⟨(persisted sending task pending).1, fun o found => ?_⟩
  have inside := mem_of_find found
  rw [live_finalise] at inside
  cases inside

/-- These acts may end a fetch. -/
def Act.Stops : Act → Prop
  | .complete | .finish | .fail | .deny | .authenticate | .distrust | .downgrade | .abort => True
  | _ => False

/-- Other acts keep it. -/
theorem Act.runs (act : Act) (goes : ¬ act.Stops) (running : o.fetch.fetch ≠ none) :
    (act.apply out o).fetch.fetch ≠ none := by
  cases act with
  | header buf =>
      show (processHeader _ _ _).fetch.fetch ≠ none
      rw [(processHeader_frame _ _ _).1]
      exact running
  | start =>
      show (startData o).fetch.fetch ≠ none
      unfold startData
      split <;> exact running
  | retry =>
      show (refetch out (useRetry o)).2.fetch.fetch ≠ none
      obtain ⟨fetch, same, started, failed⟩ := refetch_frame out (useRetry o)
      rw [same]
      by_cases ok : (refetch out (useRetry o)).1 = .ok
      · exact started ok
      · rw [show fetch = o.fetch.fetch from failed ok]
        exact running
  | httpCode code =>
      show o.fetch.fetch.map _ ≠ none
      rw [ne_eq, Option.map_eq_none_iff]
      exact running
  | read =>
      obtain ⟨data, length, same, -⟩ := retrievePersistedData_frame out o
      show (retrievePersistedData out o).2.fetch.fetch ≠ none
      rw [same]
      exact running
  | invalidate =>
      show (markInvalid o).fetch.fetch ≠ none
      unfold markInvalid
      split <;> exact running
  | complete | finish | fail | deny | authenticate | distrust | downgrade | abort =>
      exact absurd trivial goes
  | append | chain | target | queue | release | validate | stream | length => exact running

/-- Every object with a candidate releases it before its fetch ends: it does not finish without
data, its last retry starts, its only user does not abort it, and no callback fails while
an event is sent to its users. The backing store refuses objects without source data. -/
def ReleasesCandidates (out : Outside) (s : Cache) (input : Input) : Prop :=
  (∀ url, out.storeData url none ≠ .ok) ∧
    match input with
    | .fetch id .finished => ∀ o, s.find id = some o → o.candidate = none
    | .fetch id .timedOut => ∀ o, s.find id = some o → o.candidate = none ∨
        ¬ 1 < o.fetch.retriesRemaining ∨ ∃ fetch, out.fetchStart (fetchRequest o) = .ok fetch
    | .handleAbort handle => ∀ value o, s.handles handle = some value →
        s.find value.object = some o → o.candidate = none ∨ o.users.length ≠ 1
    | .returns answer => answer = .ok ∨ ∀ sending o, s.task = some (.sending sending) →
        s.find sending.object = some o → o.candidate = none
    | _ => True

/-- The counts are exact, and only objects with a running fetch have a candidate. -/
structure Exact (s : Cache) : Prop where
  safe : Safe Eq s
  busy : ∀ slot ∈ s.live, slot.object.candidate ≠ none → slot.object.fetch.fetch ≠ none
  pends : Pends s

/-- An act that ends a fetch comes after the release of the candidate. -/
theorem loose_of_permits {id : ObjectId} {act : Act} (exact : Exact s)
    (fits : ReleasesCandidates out s input) (stops : act.Stops)
    (permitted : (stepRules out s input).permits id o act) : o.candidate = none := by
  have later {before : LlcacheObject} (stays : Later before o) (none : before.candidate = none) :
      o.candidate = Option.none := by
    rcases stays.candidate with same | gone
    · exact same.trans none
    · exact gone
  cases act with
  | finish =>
      obtain ⟨rfl, found⟩ := permitted
      exact fits.2 o found
  | authenticate => exact permitted.2.2
  | downgrade => exact permitted.2.2.2
  | complete | fail | deny | distrust => exact permitted
  | abort =>
      obtain ⟨before, found, stays, aborts⟩ := permitted
      refine later stays ?_
      unfold Aborts at aborts
      split at aborts
      · obtain ⟨value, here, rfl, alone⟩ := aborts
        exact (fits.2 value before here found).resolve_right fun many => many alone
      · obtain ⟨rfl, more, failed⟩ := aborts
        rcases fits.2 before found with none | few | ⟨fetch, started⟩
        · exact none
        · exact absurd more few
        · exact absurd (@refetch_ok out (useRetry before) fetch started) failed
      · obtain ⟨sending, task, rfl, why⟩ := aborts
        rcases why with failed | pending
        · exact (fits.2.resolve_left failed) sending before task found
        · by_contra some
          exact exact.busy _ (mem_of_find found) some
            ((exact.pends sending task pending).2 before found).1
      · exact aborts.elim
  | _ => exact stops.elim

/-- Objects with a candidate keep their fetch. -/
theorem busy_stable {middle : Cache} (exact : Exact s) (fits : ReleasesCandidates out s input) :
    Stable (stepRules out s input) out middle fun _ o =>
      o.candidate ≠ none → o.fetch.fetch ≠ none where
  edit act _ was enabled permitted some := by
    rw [(act.same enabled).candidate] at some
    by_cases stops : act.Stops
    · exact absurd (loose_of_permits exact fits stops permitted) some
    · exact act.runs stops (was some)
  store was _ _ := was
  born _ new some := new.ready.resolve_right some
  shot _ some := absurd rfl some
  count _ was _ := was
  loose _ some := absurd rfl some
  users _ _ _ was _ := was

/-- The changes of a step keep the counts exact. -/
theorem Changes.exact (changes : Changes (stepRules out s input) out s s') (exact : Exact s)
    (fits : ReleasesCandidates out s input) : Exact s' := by
  have both : Safe Eq s' ∧
      ∀ slot ∈ s'.live, slot.object.candidate ≠ none → slot.object.fetch.fetch ≠ none := by
    induction changes with
    | refl => exact ⟨exact.safe, exact.busy⟩
    | tail _ change ih =>
        obtain ⟨safe, busy⟩ := ih
        refine ⟨change.safe safe Ref.tally_eq fits.1 (Or.inl fun slot inside still => ?_),
          change.objects safe.tidy (busy_stable exact fits) busy⟩
        by_contra some
        exact busy slot inside some still
  exact ⟨both.1, both.2, changes.pends exact.safe.tidy exact.pends⟩

theorem exact_step (exact : Exact s) (fits : ReleasesCandidates out s input)
    (done : s.step out input = some s') : Exact s' := by
  by_cases last : input = .finalise
  · subst last
    rw [finalise_step done]
    refine ⟨safe_finalise, ?_, pends_finalise exact.safe.tidy exact.pends⟩
    rw [live_finalise]
    exact fun _ inside => (List.not_mem_nil inside).elim
  · exact (step_changes exact.safe.tidy last done).exact exact fits

/-- The count of an object is the number of the objects that it is the candidate of, and these
have a running fetch, when every object releases its candidate before its fetch ends. -/
theorem candidateCount_eq (parameters : Parameters) (steps : List (Outside × Input))
    (meets : Meets ReleasesCandidates (initial parameters) steps)
    (reached : (initial parameters).run steps = some s) :
    ∀ slot ∈ s.live,
      slot.object.candidateCount =
        s.live.countP (fun other => decide (other.object.candidate = some slot.id)) ∧
      (slot.object.candidate ≠ none → slot.object.fetch.fetch ≠ none) := by
  have first : Exact (initial parameters) :=
    ⟨safe_initial parameters, fun _ inside => (List.not_mem_nil inside).elim,
      fun _ task => by cases task⟩
  have exact := run_keeps (fun out s input s' => exact_step) steps first meets reached
  intro slot inside
  refine ⟨?_, exact.busy slot inside⟩
  have tallied := exact.safe.counted.counts slot.ref (List.mem_map_of_mem inside)
  rw [Ref.pointers, refs, List.countP_map] at tallied
  exact tallied.symm

/-- A stale object is revalidated, and its candidate is released by the answer. -/
def revalidateInputs : List Input :=
  [.handleRetrieve (urlOf "http://a/") 0 none none, .fetch 0 (.data (str "x")), .fetch 0 .finished,
    .handleRetrieve (urlOf "http://a/") 0 none none]

/-- A revalidated object is counted. -/
theorem candidateCount_eq_revalidate : ∃ s,
    (initial smallCache).run (within refusingOutside revalidateInputs) = some s ∧
    s.live.map (fun slot => slot.object.candidateCount) = [0, 1] ∧
    ∀ slot ∈ s.live,
      slot.object.candidateCount =
        s.live.countP (fun other => decide (other.object.candidate = some slot.id)) ∧
      (slot.object.candidate ≠ none → slot.object.fetch.fetch ≠ none) := by
  have run : ((initial smallCache).run (within refusingOutside revalidateInputs)).any
      (fun s => s.live.map (fun slot => slot.object.candidateCount) == [0, 1]) = true := by
    decide
  obtain ⟨s, reached, counts⟩ := exists_of_any _ run
  refine ⟨s, reached, eq_of_beq counts, candidateCount_eq smallCache _ ?_ reached⟩
  have checked : checks (fun s input => input != .fetch 0 .finished ||
      (s.find 0).all fun o => o.candidate == none) (initial smallCache)
        (within refusingOutside revalidateInputs) = true := by decide
  refine meets_of_checks _ (fun input inside s passes => ⟨fun url => nofun, ?_⟩) checked
  simp only [revalidateInputs, List.mem_cons, List.not_mem_nil, or_false] at inside
  rcases inside with rfl | rfl | rfl | rfl
  · trivial
  · trivial
  · intro o found
    rw [found] at passes
    exact eq_of_beq passes
  · trivial

/-- The answer of a revalidation has no data. Then all is released and purged. -/
def emptyAnswerInputs : List Input :=
  revalidateInputs ++ [.fetch 1 .finished, .handleRelease 0, .handleRelease 1, .clean true]

/-- A revalidation that finishes without data leaves a count behind. -/
theorem candidateCount_leaks : ∃ s,
    (initial smallCache).run (within calmOutside emptyAnswerInputs) = some s ∧
    ∃ slot ∈ s.live, slot.object.candidateCount = 1 ∧
      s.live.countP (fun other => decide (other.object.candidate = some slot.id)) = 0 := by
  have run : ((initial smallCache).run (within calmOutside emptyAnswerInputs)).any
      (fun s => s.live.any fun slot => slot.object.candidateCount == 1 &&
        s.live.countP (fun other => decide (other.object.candidate = some slot.id)) == 0) = true := by
    decide
  obtain ⟨s, reached, counts⟩ := exists_of_any _ run
  obtain ⟨slot, inside, facts⟩ := List.any_eq_true.mp counts
  rw [Bool.and_eq_true] at facts
  exact ⟨s, reached, slot, inside, eq_of_beq facts.1, eq_of_beq facts.2⟩

end Neosurf.Llcache
