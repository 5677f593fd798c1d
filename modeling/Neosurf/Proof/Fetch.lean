import Mathlib.Order.Interval.Finset.Nat
import Neosurf.Construction.Fetch

namespace Neosurf.Fetching

open CellMemory

/-- The rings in memory hold these fetches, and all other fetches have been taken off the rings. -/
structure Represents (s : Fetches) (queued active : List (Nat × Fetch)) (finished : List Nat) :
    Prop where
  queueRing : s.memory.IsRing s.queueRing queued
  fetchRing : s.memory.IsRing s.fetchRing active
  apart : ∀ a ∈ queued.map Prod.fst, a ∉ active.map Prod.fst
  idle : ∀ f ∈ queued, f.2.fetchIsActive = false
  busy : ∀ f ∈ active, f.2.fetchIsActive = true
  removed : ∀ a ∈ finished, ∃ f, s.memory a = some ⟨none, none, f⟩
  nodup : finished.Nodup
  live : ∀ a, s.memory a ≠ none →
    a ∈ queued.map Prod.fst ∨ a ∈ active.map Prod.fst ∨ a ∈ finished
  valid : ∀ a, s.memory a ≠ none → a < ROUNDS

/-- The number of active fetches, also for each host, is within its limit. -/
structure Limited (limits : Limits) (active : List (Nat × Fetch)) : Prop where
  total : (active.length : Int) ≤ max limits.maxFetchers 0
  perHost : ∀ host, ((active.countP fun f => f.2.host == host : Nat) : Int) ≤
    max limits.maxFetchersPerHost 0

variable {limits : Limits} {s : Fetches} {queued active : List (Nat × Fetch)} {finished : List Nat}
  {a : Nat} {x : Fetch}

theorem represents_initial : Represents .initial [] [] [] where
  queueRing := isRing_nil
  fetchRing := isRing_nil
  apart _ inside := by cases inside
  idle _ inside := by cases inside
  busy _ inside := by cases inside
  removed _ inside := by cases inside
  nodup := .nil
  live _ used := absurd rfl used
  valid _ used := absurd rfl used

/-- A ring is short enough for a walk. -/
theorem length_le {m : CellMemory Fetch} {ring : Option Nat} {xs : List (Nat × Fetch)}
    (isRing : m.IsRing ring xs) (valid : ∀ a, m a ≠ none → a < ROUNDS) : xs.length ≤ ROUNDS := by
  have inside : (xs.map Prod.fst).toFinset ⊆ Finset.range ROUNDS := by
    intro a member
    obtain ⟨⟨b, x⟩, here, rfl⟩ := List.mem_map.mp (List.mem_toFinset.mp member)
    obtain ⟨prev, next, cell⟩ := isRing.mem here
    refine Finset.mem_range.mpr (valid b ?_)
    rw [cell]
    exact Option.some_ne_none _
  calc xs.length = (xs.map Prod.fst).toFinset.card := by
        rw [List.toFinset_card_of_nodup isRing.nodup, List.length_map]
    _ ≤ (Finset.range ROUNDS).card := Finset.card_le_card inside
    _ = ROUNDS := Finset.card_range ROUNDS

namespace Represents

variable (represents : Represents s queued active finished)
include represents

theorem queued_eq : s.queued = queued :=
  represents.queueRing.cells (length_le represents.queueRing represents.valid)

theorem active_eq : s.active = active :=
  represents.fetchRing.cells (length_le represents.fetchRing represents.valid)

/-- A fetch that has been taken off the rings is in none. -/
theorem finished_notMem (member : a ∈ finished) :
    a ∉ queued.map Prod.fst ∧ a ∉ active.map Prod.fst := by
  obtain ⟨f, here⟩ := represents.removed a member
  have outside {ring : Option Nat} {xs : List (Nat × Fetch)} (isRing : s.memory.IsRing ring xs) :
      a ∉ xs.map Prod.fst := by
    intro inside
    obtain ⟨⟨b, y⟩, there, rfl⟩ := List.mem_map.mp inside
    obtain ⟨prev, next, cell⟩ := isRing.mem there
    rw [here] at cell
    cases cell
  exact ⟨outside represents.queueRing, outside represents.fetchRing⟩

/-- The cell of a fetch in the queue. -/
theorem item {l r : List (Nat × Fetch)} (split : queued = l ++ (a, x) :: r) :
    ∃ prev, s.memory a = some ⟨prev, (headOf r).or s.queueRing, x⟩ := by
  have linked := represents.queueRing.linked
  have head := represents.queueRing.head
  rw [split] at linked head
  exact ⟨_, by rw [(linked_append.mp linked).2.1, head]⟩

/-- The head of the queue is not met again further on. -/
theorem head_ne {l r : List (Nat × Fetch)} {b : Nat} (split : queued = l ++ (a, x) :: r)
    (member : b ∈ r.map Prod.fst) : s.queueRing ≠ some b := by
  have nodup := represents.queueRing.nodup
  rw [represents.queueRing.head, split] at *
  rw [List.map_append, List.map_cons] at nodup
  intro same
  cases l with
  | nil =>
      cases same
      exact (List.nodup_cons.mp nodup).1 member
  | cons pair rest =>
      cases same
      rw [List.map_cons, List.cons_append, List.nodup_cons] at nodup
      exact nodup.1 (List.mem_append_right _ (List.mem_cons_of_mem _ member))

/-- The items that are skipped have the host of the first one. -/
theorem skipHost {l r : List (Nat × Fetch)} {cell : LinkedCell Fetch} (rounds : Nat)
    (split : queued = l ++ (a, x) :: r) (here : s.memory a = some cell) :
    ∃ skipped rest, (a, x) :: r = skipped ++ rest ∧ skipped ≠ [] ∧
      (∀ f ∈ skipped, f.2.host = x.host) ∧
      (s.skipHost rounds a cell).2.next = (headOf rest).or s.queueRing := by
  induction rounds generalizing a x l r cell with
  | zero =>
      obtain ⟨prev, there⟩ := represents.item split
      rw [here, Option.some.injEq] at there
      subst there
      exact ⟨[(a, x)], r, rfl, List.cons_ne_nil _ _, by simp, rfl⟩
  | succ rounds ih =>
      obtain ⟨prev, there⟩ := represents.item split
      rw [here, Option.some.injEq] at there
      subst there
      have stop : ∃ skipped rest, (a, x) :: r = skipped ++ rest ∧ skipped ≠ [] ∧
          (∀ f ∈ skipped, f.2.host = x.host) ∧
          (headOf r).or s.queueRing = (headOf rest).or s.queueRing :=
        ⟨[(a, x)], r, rfl, List.cons_ne_nil _ _, by simp, rfl⟩
      rw [Fetches.skipHost]
      split_ifs with last
      · exact stop
      · cases r with
        | nil => exact absurd rfl last
        | cons pair r =>
            obtain ⟨b, y⟩ := pair
            have split' : queued = (l ++ [(a, x)]) ++ (b, y) :: r := by
              rw [split, List.append_assoc, List.singleton_append]
            obtain ⟨prev', next⟩ := represents.item split'
            simp only [headOf_cons, Option.some_or, Option.bind_some, next, Option.map_some]
            split_ifs with same
            · obtain ⟨skipped, rest, parts, filled, hosts, result⟩ := ih split' next
              refine ⟨(a, x) :: skipped, rest, by rw [parts, List.cons_append],
                List.cons_ne_nil _ _, ?_, result⟩
              rintro f (_ | ⟨_, member⟩)
              · rfl
              · exact (hosts f member).trans same
            · exact stop

/-- The choice from an item on is the first item whose host has room. -/
theorem chooseFrom {l r : List (Nat × Fetch)} {rounds : Nat}
    (split : queued = l ++ (a, x) :: r) (enough : ((a, x) :: r).length ≤ rounds) :
    s.chooseFrom limits rounds a = (((a, x) :: r).find? fun f =>
      decide (s.countByHost f.2.host < limits.maxFetchersPerHost)).map Prod.fst := by
  induction rounds generalizing a x l r with
  | zero => exact absurd enough (by simp)
  | succ rounds ih =>
      obtain ⟨prev, here⟩ := represents.item split
      rw [Fetches.chooseFrom, here]
      dsimp only
      split_ifs with room
      · rw [List.find?_cons]
        simp [room]
      · obtain ⟨skipped, rest, parts, filled, hosts, result⟩ :=
          represents.skipHost ROUNDS split here
        have none_here : skipped.find? (fun f =>
            decide (s.countByHost f.2.host < limits.maxFetchersPerHost)) = none := by
          apply List.find?_eq_none.mpr
          intro f member
          rw [hosts f member]
          simpa using room
        rw [result, parts, List.find?_append, none_here, Option.none_or]
        have split' : queued = (l ++ skipped) ++ rest := by
          rw [split, parts, List.append_assoc]
        cases rest with
        | nil =>
            rw [headOf_nil, Option.none_or]
            cases s.queueRing <;> simp
        | cons pair rest =>
            obtain ⟨b, y⟩ := pair
            have further : b ∈ r.map Prod.fst := by
              cases skipped with
              | nil => exact absurd rfl filled
              | cons first others =>
                  rw [List.cons_append, List.cons.injEq] at parts
                  rw [parts.2]
                  simp
            have shorter : ((b, y) :: rest).length ≤ rounds := by
              have whole := congrArg List.length parts
              have positive := List.length_pos_of_ne_nil filled
              rw [List.length_append] at whole
              omega
            simp only [headOf_cons, Option.some_or, if_neg (represents.head_ne split further)]
            exact ih split' shorter

/-- The first queued fetch whose host has room is chosen. -/
theorem choose : s.choose limits = (queued.find? fun f =>
    decide (s.countByHost f.2.host < limits.maxFetchersPerHost)).map Prod.fst := by
  rw [Fetches.choose, represents.queueRing.head]
  cases parts : queued with
  | nil => rfl
  | cons pair rest =>
      obtain ⟨a, x⟩ := pair
      have short := length_le represents.queueRing represents.valid
      rw [parts] at short
      exact represents.chooseFrom (l := []) parts short

/-- A queued fetch leaves the queue. -/
theorem leave {l r : List (Nat × Fetch)} {cell : LinkedCell Fetch}
    (split : queued = l ++ (a, x) :: r) (here : s.memory a = some cell) :
    (s.memory.ringRemove s.queueRing a cell).1.IsRing
        (s.memory.ringRemove s.queueRing a cell).2 (l ++ r) ∧
      (s.memory.ringRemove s.queueRing a cell).1 a = some ⟨none, none, x⟩ ∧
      ∀ b ∉ queued.map Prod.fst,
        (s.memory.ringRemove s.queueRing a cell).1 b = s.memory b := by
  have isRing := represents.queueRing
  rw [split] at isRing ⊢
  obtain ⟨rest, zeroed⟩ := isRing.remove here
  exact ⟨rest, zeroed, fun b other => isRing.remove_other here other⟩

/-- An active fetch leaves its ring. -/
theorem leave_active {l r : List (Nat × Fetch)} {cell : LinkedCell Fetch}
    (split : active = l ++ (a, x) :: r) (here : s.memory a = some cell) :
    (s.memory.ringRemove s.fetchRing a cell).1.IsRing
        (s.memory.ringRemove s.fetchRing a cell).2 (l ++ r) ∧
      (s.memory.ringRemove s.fetchRing a cell).1 a = some ⟨none, none, x⟩ ∧
      ∀ b ∉ active.map Prod.fst,
        (s.memory.ringRemove s.fetchRing a cell).1 b = s.memory b := by
  have isRing := represents.fetchRing
  rw [split] at isRing ⊢
  obtain ⟨rest, zeroed⟩ := isRing.remove here
  exact ⟨rest, zeroed, fun b other => isRing.remove_other here other⟩

theorem queued_used (member : a ∈ queued.map Prod.fst) : s.memory a ≠ none := by
  obtain ⟨⟨b, y⟩, here, rfl⟩ := List.mem_map.mp member
  obtain ⟨prev, next, cell⟩ := represents.queueRing.mem here
  rw [cell]
  exact Option.some_ne_none _

theorem active_used (member : a ∈ active.map Prod.fst) : s.memory a ≠ none := by
  obtain ⟨⟨b, y⟩, here, rfl⟩ := List.mem_map.mp member
  obtain ⟨prev, next, cell⟩ := represents.fetchRing.mem here
  rw [cell]
  exact Option.some_ne_none _

/-- The rings after a change of the memory behind them, with the same fetches elsewhere. -/
theorem rearrange {s' : Fetches} {queued' active' : List (Nat × Fetch)}
    (queueRing : s'.memory.IsRing s'.queueRing queued')
    (fetchRing : s'.memory.IsRing s'.fetchRing active')
    (members : ∀ b, b ∈ queued'.map Prod.fst ∨ b ∈ active'.map Prod.fst ↔
      b ∈ queued.map Prod.fst ∨ b ∈ active.map Prod.fst)
    (apart : ∀ b ∈ queued'.map Prod.fst, b ∉ active'.map Prod.fst)
    (idle : ∀ f ∈ queued', f.2.fetchIsActive = false)
    (busy : ∀ f ∈ active', f.2.fetchIsActive = true)
    (others : ∀ b, b ∉ queued.map Prod.fst → b ∉ active.map Prod.fst →
      s'.memory b = s.memory b) :
    Represents s' queued' active' finished := by
  have used (b : Nat) (there : s'.memory b ≠ none) : s.memory b ≠ none := by
    by_cases inside : b ∈ queued.map Prod.fst
    · exact represents.queued_used inside
    · by_cases inside' : b ∈ active.map Prod.fst
      · exact represents.active_used inside'
      · rw [others b inside inside'] at there
        exact there
  refine ⟨queueRing, fetchRing, apart, idle, busy, ?_, represents.nodup, ?_, ?_⟩
  · intro b member
    obtain ⟨outside, outside'⟩ := represents.finished_notMem member
    rw [others b outside outside']
    exact represents.removed b member
  · intro b there
    rw [← or_assoc, members b, or_assoc]
    exact represents.live b (used b there)
  · exact fun b there => represents.valid b (used b there)

/-- A queued fetch that starts becomes the last active one. -/
theorem dispatchJob_started {l r : List (Nat × Fetch)} (split : queued = l ++ (a, x) :: r) :
    Represents (s.dispatchJob a true) (l ++ r) (active ++ [(a, { x with fetchIsActive := true })])
      finished := by
  obtain ⟨prev, here⟩ := represents.item split
  obtain ⟨rest, zeroed, same⟩ := represents.leave split here
  have fresh : a ∉ active.map Prod.fst := represents.apart a (by simp [split])
  have gone : a ∉ (l ++ r).map Prod.fst := by
    have isRing := represents.queueRing
    rw [split] at isRing
    exact isRing.split.2.1
  have outside (b : Nat) (member : b ∈ active.map Prod.fst) : b ∉ queued.map Prod.fst :=
    fun inside => represents.apart b inside member
  have activeRing := represents.fetchRing.congr fun b member => same b (outside b member)
  have entered := activeRing.insert fresh zeroed
  have flagged : IsRing (setData _ a fun f : Fetch => { f with fetchIsActive := true }) _
      (active ++ [(a, { x with fetchIsActive := true })]) := entered.setData
  have kept : IsRing ((s.memory.ringRemove s.queueRing a _).1.ringInsert s.fetchRing a).1 _ _ :=
    rest.congr fun b member => activeRing.insert_other
      (represents.apart b (by
        rw [split, List.map_append, List.map_cons]
        rw [List.map_append, List.mem_append] at member
        exact member.elim (List.mem_append_left _)
          fun after => List.mem_append_right _ (List.mem_cons_of_mem _ after)))
      (fun equal => gone (equal ▸ member))
  unfold Fetches.dispatchJob
  rw [here]
  dsimp only
  rw [if_pos rfl]
  refine represents.rearrange ?_ flagged ?_ ?_ ?_ ?_ ?_
  · apply kept.congr
    intro b member
    have different : b ≠ a := by
      rintro rfl
      exact gone member
    dsimp only
    exact setData_other different
  · intro b
    simp only [split, List.map_append, List.map_cons, List.map_nil, List.mem_append,
      List.mem_cons, List.not_mem_nil]
    tauto
  · intro b member inside
    rw [List.map_append, List.mem_append] at inside
    rcases inside with old | new
    · apply represents.apart b _ old
      rw [split]
      simp only [List.map_append, List.map_cons, List.mem_append, List.mem_cons] at member ⊢
      tauto
    · rw [List.mem_singleton.mp new] at member
      exact gone member
  · intro f member
    apply represents.idle
    rw [split]
    simp only [List.mem_append, List.mem_cons] at member ⊢
    tauto
  · intro f member
    rw [List.mem_append, List.mem_singleton] at member
    rcases member with old | rfl
    · exact represents.busy f old
    · rfl
  · intro b notQueued notActive
    have different : b ≠ a := by
      rintro rfl
      exact notQueued (by simp [split])
    dsimp only
    rw [setData_other different, activeRing.insert_other notActive different, same b notQueued]

/-- A queued fetch that does not start becomes the last one of the queue. -/
theorem dispatchJob_refused {l r : List (Nat × Fetch)} (split : queued = l ++ (a, x) :: r) :
    Represents (s.dispatchJob a false) (l ++ r ++ [(a, x)]) active finished := by
  obtain ⟨prev, here⟩ := represents.item split
  obtain ⟨rest, zeroed, same⟩ := represents.leave split here
  have gone : a ∉ (l ++ r).map Prod.fst := by
    have isRing := represents.queueRing
    rw [split] at isRing
    exact isRing.split.2.1
  have inside : a ∈ queued.map Prod.fst := by simp [split]
  have members (b : Nat) : b ∈ (l ++ r ++ [(a, x)]).map Prod.fst ↔ b ∈ queued.map Prod.fst := by
    simp only [split, List.map_append, List.map_cons, List.map_nil, List.mem_append,
      List.mem_cons, List.not_mem_nil]
    tauto
  have notMem (b : Nat) (notQueued : b ∉ queued.map Prod.fst) : b ∉ (l ++ r).map Prod.fst := by
    intro member
    apply notQueued
    rw [← members, List.map_append, List.mem_append]
    exact Or.inl member
  have others (b : Nat) (notQueued : b ∉ queued.map Prod.fst) :
      ((s.memory.ringRemove s.queueRing a ⟨prev, (headOf r).or s.queueRing, x⟩).1.ringInsert
        (s.memory.ringRemove s.queueRing a ⟨prev, (headOf r).or s.queueRing, x⟩).2 a).1 b =
          s.memory b := by
    rw [rest.insert_other (notMem b notQueued), same b notQueued]
    rintro rfl
    exact notQueued inside
  unfold Fetches.dispatchJob
  rw [here]
  dsimp only
  rw [if_neg Bool.false_ne_true]
  refine represents.rearrange (rest.insert gone zeroed) ?_ ?_ ?_ ?_ represents.busy ?_
  · apply represents.fetchRing.congr
    intro b member
    exact others b fun queued => represents.apart b queued member
  · intro b
    rw [members]
  · intro b member
    exact represents.apart b ((members b).mp member)
  · intro f member
    apply represents.idle
    rw [split]
    simp only [List.mem_append, List.mem_cons, List.not_mem_nil] at member ⊢
    tauto
  · exact fun b notQueued _ => others b notQueued

end Represents

/-- One more active fetch keeps the limits when there is room for it. -/
theorem Limited.start {f : Nat × Fetch} (limited : Limited limits active)
    (room : (active.length : Int) < limits.maxFetchers)
    (roomForHost : ((active.countP fun g => g.2.host == f.2.host : Nat) : Int) <
      limits.maxFetchersPerHost) (y : Fetch) (same : y.host = f.2.host) :
    Limited limits (active ++ [(f.1, y)]) where
  total := by
    rw [List.length_append, List.length_singleton]
    push_cast
    omega
  perHost host := by
    have before := limited.perHost host
    rw [List.countP_append, List.countP_singleton]
    by_cases equal : y.host = host
    · subst equal
      rw [same] at before ⊢
      simp only [beq_self_eq_true, if_true]
      push_cast
      omega
    · simp only [beq_eq_false_iff_ne.mpr equal, Bool.false_eq_true, if_false]
      push_cast
      omega

/-- What a dispatch pass leaves. Unless the last start failed, no queued fetch is left for whose
host there is room while there is room for a fetch. -/
structure Dispatched (limits : Limits) (start : Nat → Bool) (pass : Pass) (finished : List Nat)
    (queued active : List (Nat × Fetch)) : Prop where
  represents : Represents pass.fetches queued active finished
  limited : Limited limits active
  allActive : pass.allActive = active.length
  refused : ∀ a ∈ pass.refused, start a = false ∧ lastOf queued = some a
  complete : pass.refused = none → (active.length : Int) < limits.maxFetchers →
    ∀ f ∈ queued, limits.maxFetchersPerHost ≤ pass.fetches.countByHost f.2.host

theorem Represents.countByHost (represents : Represents s queued active finished)
    (host : Option Bytes) :
    s.countByHost host = (active.countP fun f => f.2.host == host : Nat) := by
  rw [Fetches.countByHost, represents.active_eq]

/-- Each round of a pass starts the first queued fetch whose host has room. -/
theorem dispatchLoop_dispatched (start : Nat → Bool) (allQueued : Nat)
    (represents : Represents s queued active finished) (limited : Limited limits active)
    (counted : queued.length = allQueued) :
    ∃ queued' active', Dispatched limits start
      (s.dispatchLoop limits start allQueued active.length) finished queued' active' := by
  induction allQueued generalizing s queued active with
  | zero =>
      rw [List.length_eq_zero_iff] at counted
      subst counted
      refine ⟨[], active, represents, limited, rfl, ?_, ?_⟩
      · rintro a ⟨⟩
      · rintro _ _ f ⟨⟩
  | succ allQueued ih =>
      rw [Fetches.dispatchLoop]
      split_ifs with room
      · rw [represents.choose]
        cases chosen : queued.find? fun f =>
            decide (s.countByHost f.2.host < limits.maxFetchersPerHost) with
        | none =>
            refine ⟨queued, active, represents, limited, rfl, ?_, ?_⟩
            · rintro a ⟨⟩
            · intro _ _ f member
              have full := List.find?_eq_none.mp chosen f member
              simpa using full
        | some f =>
            obtain ⟨a, x⟩ := f
            have roomForHost := List.find?_some chosen
            rw [decide_eq_true_eq, represents.countByHost] at roomForHost
            obtain ⟨l, r, split⟩ := List.append_of_mem (List.mem_of_find?_eq_some chosen)
            simp only [Option.map_some]
            cases answer : start a with
            | true =>
                have next := ih (represents.dispatchJob_started split)
                  (limited.start room roomForHost { x with fetchIsActive := true } rfl) (by
                    rw [split] at counted
                    simp only [List.length_append, List.length_cons] at counted ⊢
                    omega)
                rw [List.length_append, List.length_singleton, Nat.cast_add, Nat.cast_one] at next
                exact next
            | false =>
                refine ⟨l ++ r ++ [(a, x)], active, represents.dispatchJob_refused split, limited,
                  rfl, ?_, ?_⟩
                · rintro b ⟨⟩
                  refine ⟨answer, ?_⟩
                  rw [lastOf_append]
                  rfl
                · rintro ⟨⟩
      · refine ⟨queued, active, represents, limited, rfl, ?_, ?_⟩
        · rintro a ⟨⟩
        · exact fun _ less => absurd less room

theorem dispatchJobs_dispatched (start : Nat → Bool)
    (represents : Represents s queued active finished) (limited : Limited limits active) :
    ∃ queued' active', Dispatched limits start (s.dispatchJobs limits start) finished queued'
      active' := by
  have loop := dispatchLoop_dispatched start queued.length represents limited rfl
  rw [Fetches.dispatchJobs, represents.queued_eq, represents.active_eq]
  exact loop

/-- A new fetch becomes the last one of the queue before the dispatch pass. -/
theorem fetchStart_dispatched (start : Nat → Bool) (host : Option Bytes)
    (represents : Represents s queued active finished) (limited : Limited limits active)
    (callocs : s.Callocs a) :
    ∃ queued' active', Dispatched limits start (s.fetchStart limits a host start) finished queued'
      active' := by
  obtain ⟨_, bounded, free⟩ := callocs
  have fresh : a ∉ queued.map Prod.fst := fun member => represents.queued_used member free
  have fresh' : a ∉ active.map Prod.fst := fun member => represents.active_used member free
  let m : CellMemory Fetch := Function.update s.memory a (some ⟨none, none, { host }⟩)
  have here : m a = some ⟨none, none, { host }⟩ := Function.update_self ..
  have elsewhere (b : Nat) (different : b ≠ a) : m b = s.memory b :=
    Function.update_of_ne different ..
  have ring : m.IsRing s.queueRing queued := by
    apply represents.queueRing.congr
    intro b member
    apply elsewhere
    rintro rfl
    exact fresh member
  have entered := ring.insert fresh here
  have others (b : Nat) (notQueued : b ∉ queued.map Prod.fst) (different : b ≠ a) :
      (m.ringInsert s.queueRing a).1 b = s.memory b :=
    (ring.insert_other notQueued different).trans (elsewhere b different)
  have before : Represents
      { s with memory := (m.ringInsert s.queueRing a).1, queueRing := (m.ringInsert s.queueRing a).2 }
      (queued ++ [(a, ({ host } : Fetch))]) active finished := by
    have used (b : Nat) (there : (m.ringInsert s.queueRing a).1 b ≠ none) :
        b = a ∨ s.memory b ≠ none := by
      by_cases different : b = a
      · exact Or.inl different
      · by_cases member : b ∈ queued.map Prod.fst
        · exact Or.inr (represents.queued_used member)
        · rw [others b member different] at there
          exact Or.inr there
    refine ⟨entered, ?_, ?_, ?_, represents.busy, ?_, represents.nodup, ?_, ?_⟩
    · apply represents.fetchRing.congr
      intro b member
      apply others b fun queued => represents.apart b queued member
      rintro rfl
      exact fresh' member
    · intro b member
      rw [List.map_append, List.mem_append] at member
      rcases member with old | new
      · exact represents.apart b old
      · rw [List.mem_singleton.mp new]
        exact fresh'
    · intro f member
      rw [List.mem_append, List.mem_singleton] at member
      rcases member with old | rfl
      · exact represents.idle f old
      · rfl
    · intro b member
      have outside := represents.finished_notMem member
      obtain ⟨f, cell⟩ := represents.removed b member
      refine ⟨f, ?_⟩
      rw [← cell]
      apply others b outside.1
      rintro rfl
      rw [free] at cell
      cases cell
    · intro b there
      rcases used b there with rfl | old
      · simp
      · rcases represents.live b old with inside | inside | inside
        · left
          rw [List.map_append, List.mem_append]
          exact Or.inl inside
        · exact Or.inr (Or.inl inside)
        · exact Or.inr (Or.inr inside)
    · intro b there
      rcases used b there with rfl | old
      · exact bounded
      · exact represents.valid b old
  exact dispatchJobs_dispatched start before limited

/-- A note on a fetch leaves the rings as they are. -/
theorem Represents.setData {change : Fetch → Fetch}
    (kept : ∀ f, (change f).host = f.host ∧ (change f).fetchIsActive = f.fetchIsActive)
    (represents : Represents s queued active finished) (limited : Limited limits active) (a : Nat) :
    ∃ queued' active', Represents { s with memory := s.memory.setData a change } queued' active'
      finished ∧ Limited limits active' := by
  have others (b : Nat) (different : b ≠ a) : s.memory.setData a change b = s.memory b :=
    setData_other different
  by_cases inQueue : a ∈ queued.map Prod.fst
  · obtain ⟨l, x, r, split⟩ := exists_split inQueue
    have ring := represents.queueRing
    rw [split] at ring
    refine ⟨l ++ (a, change x) :: r, active,
      represents.rearrange ring.setData ?_ ?_ ?_ ?_ represents.busy ?_, limited⟩
    · apply represents.fetchRing.congr
      rintro b member
      apply others
      rintro rfl
      exact represents.apart b inQueue member
    · intro b
      simp [split]
    · intro b member
      apply represents.apart
      rw [split]
      simpa using member
    · intro f member
      rw [List.mem_append, List.mem_cons] at member
      have idle := represents.idle
      rw [split] at idle
      rcases member with before | rfl | after
      · exact idle f (List.mem_append_left _ before)
      · exact (kept x).2.trans (idle (a, x) (by simp))
      · exact idle f (List.mem_append_right _ (List.mem_cons_of_mem _ after))
    · rintro b notQueued _
      apply others
      rintro rfl
      exact notQueued inQueue
  by_cases inRing : a ∈ active.map Prod.fst
  · obtain ⟨l, x, r, split⟩ := exists_split inRing
    have ring := represents.fetchRing
    rw [split] at ring
    refine ⟨queued, l ++ (a, change x) :: r,
      represents.rearrange ?_ ring.setData ?_ ?_ represents.idle ?_ ?_, ?_⟩
    · apply represents.queueRing.congr
      rintro b member
      apply others
      rintro rfl
      exact inQueue member
    · intro b
      simp [split]
    · intro b member inside
      apply represents.apart b member
      rw [split]
      simpa using inside
    · intro f member
      rw [List.mem_append, List.mem_cons] at member
      have busy := represents.busy
      rw [split] at busy
      rcases member with before | rfl | after
      · exact busy f (List.mem_append_left _ before)
      · exact (kept x).2.trans (busy (a, x) (by simp))
      · exact busy f (List.mem_append_right _ (List.mem_cons_of_mem _ after))
    · rintro b _ notActive
      apply others
      rintro rfl
      exact notActive inRing
    · rw [split] at limited
      refine ⟨?_, fun host => ?_⟩
      · simpa using limited.total
      · have count := limited.perHost host
        rw [List.countP_append, List.countP_cons] at count ⊢
        rw [(kept x).1]
        exact count
  · refine ⟨queued, active, ?_, limited⟩
    have same (b : Nat) (member : b ∈ queued.map Prod.fst ∨ b ∈ active.map Prod.fst) :
        s.memory.setData a change b = s.memory b := by
      apply others
      rintro rfl
      exact member.elim inQueue inRing
    have used (b : Nat) (there : s.memory.setData a change b ≠ none) : s.memory b ≠ none := by
      intro free
      apply there
      by_cases equal : b = a
      · subst equal
        rw [setData_self, free]
        rfl
      · rw [others b equal, free]
    refine ⟨represents.queueRing.congr fun b member => same b (Or.inl member),
      represents.fetchRing.congr fun b member => same b (Or.inr member), represents.apart,
      represents.idle, represents.busy, ?_, represents.nodup,
      fun b there => represents.live b (used b there),
      fun b there => represents.valid b (used b there)⟩
    intro b member
    obtain ⟨f, here⟩ := represents.removed b member
    by_cases equal : b = a
    · subst equal
      refine ⟨change f, ?_⟩
      dsimp only
      rw [setData_self, here]
      rfl
    · exact ⟨f, (others b equal).trans here⟩

/-- The rings after a fetch has been taken off one of them. -/
theorem Represents.take {s' : Fetches} {queued' active' : List (Nat × Fetch)}
    (represents : Represents s queued active finished)
    (queueRing : s'.memory.IsRing s'.queueRing queued')
    (fetchRing : s'.memory.IsRing s'.fetchRing active')
    (zeroed : s'.memory a = some ⟨none, none, x⟩)
    (members : ∀ b, b ∈ queued.map Prod.fst ∨ b ∈ active.map Prod.fst →
      b = a ∨ b ∈ queued'.map Prod.fst ∨ b ∈ active'.map Prod.fst)
    (inside : a ∈ queued.map Prod.fst ∨ a ∈ active.map Prod.fst)
    (queuedLess : ∀ f ∈ queued', f ∈ queued) (activeLess : ∀ f ∈ active', f ∈ active)
    (others : ∀ b, b ∉ queued.map Prod.fst → b ∉ active.map Prod.fst →
      s'.memory b = s.memory b) :
    Represents s' queued' active' (a :: finished) := by
  have used (b : Nat) (there : s'.memory b ≠ none) : s.memory b ≠ none := by
    by_cases inQueue : b ∈ queued.map Prod.fst
    · exact represents.queued_used inQueue
    · by_cases inRing : b ∈ active.map Prod.fst
      · exact represents.active_used inRing
      · rw [others b inQueue inRing] at there
        exact there
  refine ⟨queueRing, fetchRing, ?_, fun f member => represents.idle f (queuedLess f member),
    fun f member => represents.busy f (activeLess f member), ?_, ?_, ?_,
    fun b there => represents.valid b (used b there)⟩
  · intro b member inRing
    obtain ⟨f, left, rfl⟩ := List.mem_map.mp member
    obtain ⟨g, right, same⟩ := List.mem_map.mp inRing
    refine represents.apart f.1 (List.mem_map_of_mem (queuedLess f left)) ?_
    rw [← same]
    exact List.mem_map_of_mem (activeLess g right)
  · rintro b (_ | ⟨_, member⟩)
    · exact ⟨x, zeroed⟩
    · obtain ⟨f, here⟩ := represents.removed b member
      have outside := represents.finished_notMem member
      exact ⟨f, (others b outside.1 outside.2).trans here⟩
  · refine List.nodup_cons.mpr ⟨fun member => ?_, represents.nodup⟩
    have outside := represents.finished_notMem member
    exact inside.elim outside.1 outside.2
  · intro b there
    rcases represents.live b (used b there) with inQueue | inRing | member
    · rcases members b (Or.inl inQueue) with rfl | inQueue | inRing
      · exact Or.inr (Or.inr List.mem_cons_self)
      · exact Or.inl inQueue
      · exact Or.inr (Or.inl inRing)
    · rcases members b (Or.inr inRing) with rfl | inQueue | inRing
      · exact Or.inr (Or.inr List.mem_cons_self)
      · exact Or.inl inQueue
      · exact Or.inr (Or.inl inRing)
    · exact Or.inr (Or.inr (List.mem_cons_of_mem _ member))

/-- A removal takes the fetch off the ring that it is in. -/
theorem Represents.removeFromQueues {s' : Fetches}
    (represents : Represents s queued active finished) (limited : Limited limits active)
    (done : s.removeFromQueues a = some s') :
    ∃ queued' active', Represents s' queued' active' (a :: finished) ∧ Limited limits active' := by
  cases here : s.memory a with
  | none => simp [Fetches.removeFromQueues, here] at done
  | some cell =>
      have linked : cell.next ≠ none := by
        intro alone
        simp [Fetches.removeFromQueues, here, alone] at done
      have inside : a ∈ queued.map Prod.fst ∨ a ∈ active.map Prod.fst := by
        rcases represents.live a (by simp [here]) with inQueue | inRing | member
        · exact Or.inl inQueue
        · exact Or.inr inRing
        · obtain ⟨f, zeroed⟩ := represents.removed a member
          rw [here] at zeroed
          cases zeroed
          exact absurd rfl linked
      rcases inside with inQueue | inRing
      · obtain ⟨l, x, r, split⟩ := exists_split inQueue
        obtain ⟨rest, zeroed, same⟩ := represents.leave split here
        have flag : cell.data.fetchIsActive = false := by
          obtain ⟨prev, there⟩ := represents.item split
          rw [here, Option.some.injEq] at there
          subst there
          exact represents.idle (a, x) (by simp [split])
        have result : some s' = some { s with
            memory := (s.memory.ringRemove s.queueRing a cell).1
            queueRing := (s.memory.ringRemove s.queueRing a cell).2 } := by
          rw [← done, Fetches.removeFromQueues, here]
          simp [linked, flag]
        cases result
        refine ⟨l ++ r, active, represents.take rest ?_ zeroed ?_ (Or.inl inQueue) ?_
          (fun _ member => member) ?_, limited⟩
        · exact represents.fetchRing.congr fun b member =>
            same b fun queued => represents.apart b queued member
        · intro b
          simp only [split, List.map_append, List.map_cons, List.mem_append, List.mem_cons]
          tauto
        · intro f
          simp only [split, List.mem_append, List.mem_cons]
          tauto
        · exact fun b notQueued _ => same b notQueued
      · obtain ⟨l, x, r, split⟩ := exists_split inRing
        obtain ⟨rest, zeroed, same⟩ := represents.leave_active split here
        have flag : cell.data.fetchIsActive = true := by
          obtain ⟨prev, next, there⟩ := represents.fetchRing.mem (a := a) (x := x) (by simp [split])
          rw [here, Option.some.injEq] at there
          subst there
          exact represents.busy (a, x) (by simp [split])
        have result : some s' = some { s with
            memory := (s.memory.ringRemove s.fetchRing a cell).1
            fetchRing := (s.memory.ringRemove s.fetchRing a cell).2 } := by
          rw [← done, Fetches.removeFromQueues, here]
          simp [linked, flag]
        cases result
        refine ⟨queued, l ++ r, represents.take ?_ rest zeroed ?_ (Or.inr inRing)
          (fun _ member => member) ?_ ?_, ?_⟩
        · exact represents.queueRing.congr fun b member => same b (represents.apart b member)
        · intro b
          simp only [split, List.map_append, List.map_cons, List.mem_append, List.mem_cons]
          tauto
        · intro f
          simp only [split, List.mem_append, List.mem_cons]
          tauto
        · exact fun b _ notActive => same b notActive
        · rw [split] at limited
          refine ⟨?_, fun host => ?_⟩
          · have total := limited.total
            simp only [List.length_append, List.length_cons] at total ⊢
            omega
          · have count := limited.perHost host
            rw [List.countP_append, List.countP_cons] at count
            rw [List.countP_append]
            omega

/-- A fetch that has been taken off the rings is freed. -/
theorem Represents.free (represents : Represents s queued active finished) (member : a ∈ finished) :
    Represents (s.fetchFree a) queued active (finished.erase a) := by
  have outside := represents.finished_notMem member
  have others (b : Nat) (different : b ≠ a) : (s.fetchFree a).memory b = s.memory b :=
    Function.update_of_ne different ..
  have gone : (s.fetchFree a).memory a = none := Function.update_self ..
  have used (b : Nat) (there : (s.fetchFree a).memory b ≠ none) : b ≠ a := by
    rintro rfl
    exact there gone
  refine ⟨represents.queueRing.congr ?_, represents.fetchRing.congr ?_, represents.apart,
    represents.idle, represents.busy, ?_, represents.nodup.erase a, ?_, ?_⟩
  · rintro b inside
    apply others
    rintro rfl
    exact outside.1 inside
  · rintro b inside
    apply others
    rintro rfl
    exact outside.2 inside
  · intro b still
    rw [represents.nodup.mem_erase_iff] at still
    obtain ⟨f, here⟩ := represents.removed b still.2
    exact ⟨f, (others b still.1).trans here⟩
  · intro b there
    have different := used b there
    rw [others b different] at there
    rw [represents.nodup.mem_erase_iff]
    rcases represents.live b there with inQueue | inRing | still
    · exact Or.inl inQueue
    · exact Or.inr (Or.inl inRing)
    · exact Or.inr (Or.inr ⟨different, still⟩)
  · intro b there
    rw [others b (used b there)] at there
    exact represents.valid b there

/-- The rings after every run. -/
theorem FetchRun.represents (run : FetchRun limits s finished) :
    ∃ queued active, Represents s queued active finished ∧ Limited limits active := by
  induction run with
  | initial =>
      refine ⟨[], [], represents_initial, ?_, fun host => ?_⟩
      · exact le_max_right _ _
      · exact le_max_right _ _
  | start a host answers callocs _ ih =>
      obtain ⟨queued, active, represents, limited⟩ := ih
      obtain ⟨queued', active', dispatched⟩ :=
        fetchStart_dispatched answers host represents limited callocs
      exact ⟨queued', active', dispatched.represents, dispatched.limited⟩
  | dispatch answers _ ih =>
      obtain ⟨queued, active, represents, limited⟩ := ih
      obtain ⟨queued', active', dispatched⟩ := dispatchJobs_dispatched answers represents limited
      exact ⟨queued', active', dispatched.represents, dispatched.limited⟩
  | sendCallback a type _ ih =>
      obtain ⟨queued, active, represents, limited⟩ := ih
      refine represents.setData (fun f => ?_) limited a
      split <;> exact ⟨rfl, rfl⟩
  | abort a _ ih =>
      obtain ⟨queued, active, represents, limited⟩ := ih
      refine represents.setData (fun f => ?_) limited a
      exact ⟨rfl, rfl⟩
  | removeFromQueues a done _ ih =>
      obtain ⟨queued, active, represents, limited⟩ := ih
      exact represents.removeFromQueues limited done
  | reportUnfinished a _ ih =>
      obtain ⟨queued, active, represents, limited⟩ := ih
      unfold Fetches.reportUnfinished
      split
      · exact ⟨queued, active, represents, limited⟩
      · split
        · refine represents.setData (fun f => ?_) limited a
          split <;> exact ⟨rfl, rfl⟩
        · exact ⟨queued, active, represents, limited⟩
  | free a removed _ ih =>
      obtain ⟨queued, active, represents, limited⟩ := ih
      exact ⟨queued, active, represents.free removed, limited⟩

/-- While there is room for a fetch, no queued fetch is left for whose host there is room. -/
def Pass.Complete (limits : Limits) (pass : Pass) : Prop :=
  (pass.fetches.active.length : Int) < limits.maxFetchers →
    ∀ f ∈ pass.fetches.queued, limits.maxFetchersPerHost ≤ pass.fetches.countByHost f.2.host

/-- A pass is complete unless its last start failed, which puts the fetch at the end of the
queue. -/
def Pass.CompleteUnlessRefused (limits : Limits) (start : Nat → Bool) (pass : Pass) : Prop :=
  (pass.refused = none → pass.Complete limits) ∧
    ∀ a ∈ pass.refused, start a = false ∧ lastOf pass.fetches.queued = some a

theorem Dispatched.completeUnlessRefused {start : Nat → Bool} {pass : Pass}
    (dispatched : Dispatched limits start pass finished queued active) :
    pass.CompleteUnlessRefused limits start := by
  refine ⟨fun none_refused room f member => ?_, ?_⟩
  · rw [dispatched.represents.active_eq] at room
    rw [dispatched.represents.queued_eq] at member
    exact dispatched.complete none_refused room f member
  · rw [dispatched.represents.queued_eq]
    exact dispatched.refused

/-- In every run each fetch is in one of the two rings, once, until it is taken off, the active
fetches are within their limits, and a dispatch pass in which no start fails is complete. -/
theorem rings_run (run : FetchRun limits s finished) :
    (∀ a, s.memory a ≠ none → a ∉ finished →
      Xor (a ∈ s.queued.map Prod.fst) (a ∈ s.active.map Prod.fst)) ∧
    (∀ a ∈ finished, a ∉ s.queued.map Prod.fst ∧ a ∉ s.active.map Prod.fst) ∧
    (s.queued.map Prod.fst).Nodup ∧ (s.active.map Prod.fst).Nodup ∧
    (s.active.length : Int) ≤ max limits.maxFetchers 0 ∧
    (∀ host, s.countByHost host ≤ max limits.maxFetchersPerHost 0) ∧
    (∀ start, (s.dispatchJobs limits start).CompleteUnlessRefused limits start) ∧
    ∀ a host start, s.Callocs a →
      (s.fetchStart limits a host start).CompleteUnlessRefused limits start := by
  obtain ⟨queued, active, represents, limited⟩ := run.represents
  rw [represents.queued_eq, represents.active_eq]
  refine ⟨fun a used still => ?_, fun a => represents.finished_notMem,
    represents.queueRing.nodup, represents.fetchRing.nodup, limited.total, fun host => ?_,
    fun start => ?_, fun a host start callocs => ?_⟩
  · rcases represents.live a used with inQueue | inRing | removed
    · exact Or.inl ⟨inQueue, represents.apart a inQueue⟩
    · exact Or.inr ⟨inRing, fun inQueue => represents.apart a inQueue inRing⟩
    · exact absurd removed still
  · rw [represents.countByHost]
    exact limited.perHost host
  · obtain ⟨_, _, dispatched⟩ := dispatchJobs_dispatched start represents limited
    exact dispatched.completeUnlessRefused
  · obtain ⟨_, _, dispatched⟩ := fetchStart_dispatched start host represents limited callocs
    exact dispatched.completeUnlessRefused

/-- These are the default options. -/
def defaultLimits : Limits := ⟨24, 5⟩

theorem callocs_initial : Fetches.initial.Callocs 16 := ⟨by decide, by decide, rfl⟩

/-- One fetch that starts is the only active one. -/
theorem rings_run_start :
    ((Fetches.initial.fetchStart defaultLimits 16 none fun _ => true).fetches.active.length : Int) ≤
      max defaultLimits.maxFetchers 0 :=
  (rings_run (.start 16 none (fun _ => true) callocs_initial .initial)).2.2.2.2.1

/-- A fetch that does not start stays in the queue, although there is room for it. -/
theorem fetchStart_incomplete :
    FetchRun defaultLimits (Fetches.initial.fetchStart defaultLimits 16 none fun _ => false).fetches
      [] ∧
    ¬ (Fetches.initial.fetchStart defaultLimits 16 none fun _ => false).Complete defaultLimits := by
  refine ⟨.start 16 none _ callocs_initial .initial, fun complete => ?_⟩
  have full := complete (by decide) (16, ⟨none, false, .progress⟩) (by decide)
  exact absurd full (by decide)

end Neosurf.Fetching
