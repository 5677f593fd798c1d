/-
This file shows which matches the pattern search of `content/textsearch.c` finds.
-/

import Neosurf.Construction.Textsearch
import Neosurf.ToMathlib.SplitOn
import Mathlib.Tactic.Ring

namespace Neosurf.Textsearch

open Wildcard

/-- A '*' stands for any run of characters. -/
def isStar (a : Byte) : Bool := a == chr '*'

theorem isStar_star : isStar (chr '*') = true := rfl

/-- A '#' stands for any one character, and another one for itself. -/
def fitsChar (caseSens : Bool) (a c : Byte) : Bool := a == chr '#' || sameChar caseSens c a

/-- The characters between two positions match a pattern. -/
abbrev Match (caseSens : Bool) (pattern string : Bytes) (start stop : Nat) : Prop :=
  Spans isStar (fitsChar caseSens) pattern string start stop

variable {string pattern : Bytes} {caseSens : Bool} {search : Search}

/-- The search goes on at the first character that fits. -/
theorem scan_spec (string : Bytes) (caseSens : Bool) (ch : Byte) (s : Nat) {s' : Nat}
    (scanned : s' = if ch == chr '#' then s else scan string caseSens ch s) :
    s ≤ s' ∧
      (∀ k c, s ≤ k → k < s' → string[k]? = some c → fitsChar caseSens ch c = false) ∧
      ∀ c, string[s']? = some c → fitsChar caseSens ch c = true := by
  by_cases any : (ch == chr '#') = true
  · rw [if_pos any] at scanned
    subst scanned
    exact ⟨Nat.le_refl _, fun k c le less => by omega, fun c here => by simp [fitsChar, any]⟩
  rw [if_neg any] at scanned
  subst scanned
  refine ⟨Nat.le_add_right .., fun k c le less here => ?_, fun c here => ?_⟩
  · obtain ⟨i, rfl⟩ := Nat.exists_eq_add_of_le le
    rw [← List.getElem?_drop] at here
    have skipped := List.of_lt_length_takeWhile (Nat.lt_of_add_lt_add_left less) here
    simpa [fitsChar, any] using skipped
  · rw [scan, ← List.getElem?_drop] at here
    have stopped := List.not_of_length_takeWhile here
    simp only [Bool.not_eq_eq_eq_not, Bool.not_false] at stopped
    simp [fitsChar, stopped]

/-- What one turn of the search does. -/
inductive Turned (string : Bytes) (caseSens : Bool) (search : Search) :
    Search ⊕ Option (Nat × Nat) → Prop
  | ended : stripped isStar search.now.p = [] →
      Turned string caseSens search (endOfPattern search.now)
  | started {p ch p' s c} : search.now.p = chr '*' :: p → stripped isStar p = ch :: p' →
      isStar ch = false → search.now.s ≤ s → string[s]? = some c → fitsChar caseSens ch c = true →
      (∀ k c', search.now.s ≤ k → k < s → string[k]? = some c' →
        fitsChar caseSens ch c' = false) →
      Turned string caseSens search (.inl (advance search.now s p'
        (if search.context.length < contextSize then
          ⟨search.now.ss, s + 1, chr '*' :: ch :: p', search.now.first⟩ :: search.context
        else search.context)))
  | matched {ch p c} : search.now.p = ch :: p → isStar ch = false →
      string[search.now.s]? = some c → fitsChar caseSens ch c = true →
      Turned string caseSens search (.inl (advance search.now search.now.s p search.context))
  | failed : stripped isStar search.now.p ≠ [] →
      (∀ stop, ¬ Match caseSens search.now.p string search.now.s stop) →
      Turned string caseSens search (resume search.context)

/-- Every turn is one of these. -/
theorem findTurn_turned (string : Bytes) (caseSens : Bool) (search : Search) :
    Turned string caseSens search (findTurn string caseSens search) := by
  obtain ⟨⟨ss, s, p, first⟩, context⟩ := search
  cases p with
  | nil => exact .ended rfl
  | cons ch p =>
      by_cases star : (ch == chr '*') = true
      · have same : ch = chr '*' := by simpa using star
        subst same
        have next : stripped isStar (chr '*' :: p) = stripped isStar p := stripped_run isStar_star
        cases left : stripped isStar p with
        | nil =>
            have last : findTurn string caseSens ⟨⟨ss, s, chr '*' :: p, first⟩, context⟩ =
                endOfPattern ⟨ss, s, chr '*' :: p, first⟩ := by
              unfold stripped isStar at left
              simp only [findTurn, beq_self_eq_true, if_true, left]
            rw [last]
            exact .ended (next.trans left)
        | cons ch p' =>
            have single : isStar ch = false := single_of_stripped left
            obtain ⟨s', scanned⟩ : ∃ s', s' = if ch == chr '#' then s
                else scan string caseSens ch s := ⟨_, rfl⟩
            obtain ⟨le, skipped, fits⟩ := scan_spec string caseSens ch s scanned
            have step : findTurn string caseSens ⟨⟨ss, s, chr '*' :: p, first⟩, context⟩ =
                if s' < string.length then .inl (advance ⟨ss, s, chr '*' :: p, first⟩ s' p'
                  (if context.length < contextSize then
                    ⟨ss, s' + 1, chr '*' :: ch :: p', first⟩ :: context else context))
                else resume context := by
              unfold stripped isStar at left
              simp only [findTurn, beq_self_eq_true, if_true, left, scanned]
            rw [step]
            split
            · rename_i inside
              exact .started rfl left single le (List.getElem?_eq_getElem inside)
                (fits _ (List.getElem?_eq_getElem inside)) skipped
            · rename_i outside
              refine .failed (by rw [next, left]; exact List.cons_ne_nil ch p') ?_
              intro stop spans
              have again := (spans_stripped_iff isStar_star).mpr spans
              rw [left] at again
              obtain ⟨k, from_s, spans⟩ := (spans_run_iff isStar_star).mp again
              obtain ⟨c, here, fit, -⟩ := (spans_one_iff single).mp spans
              have inside : k < string.length := (List.getElem?_eq_some_iff.mp here).1
              have none := skipped k c from_s (by omega) here
              rw [fit] at none
              cases none
      · have single : isStar ch = false := by simpa [isStar] using star
        have whole : stripped isStar (ch :: p) ≠ [] := by
          rw [stripped_one single]
          exact List.cons_ne_nil ch p
        rw [findTurn]
        simp only [if_neg star]
        split
        · rename_i c here
          split
          · rename_i fit
            exact .matched rfl single here fit
          · rename_i unfit
            refine .failed whole fun stop spans => unfit ?_
            obtain ⟨d, there, fit, -⟩ := (spans_one_iff single).mp spans
            rw [here] at there
            cases there
            exact fit
        · rename_i ended
          refine .failed whole fun stop spans => ?_
          obtain ⟨d, there, -⟩ := (spans_one_iff single).mp spans
          rw [ended] at there
          cases there

/-- What a point of the search stands for: a place where a match starts, or all places from one
on where the whole of it may start. -/
structure Point.Sound (string : Bytes) (caseSens : Bool) (whole : Bytes) (point : Point) :
    Prop where
  within : point.s ≤ string.length
  virtual : point.first = true → ∃ p, point.p = chr '*' :: p ∧ stripped isStar p = whole
  extends_match : point.first = false → ∀ stop, Match caseSens point.p string point.s stop →
    Match caseSens whole string point.ss stop

/-- A search that goes on from a point may find these matches. -/
def Point.Reaches (string : Bytes) (caseSens : Bool) (whole : Bytes) (point : Point)
    (start stop : Nat) : Prop :=
  if point.first then point.s ≤ start ∧ Match caseSens whole string start stop
  else start = point.ss ∧ Match caseSens point.p string point.s stop

/-- The matches from an upper point start before those from a lower one. -/
def Point.Before (upper lower : Point) : Prop :=
  upper.first = false ∧ if lower.first then upper.ss < lower.s else upper.ss = lower.ss

/-- The points of a search, from the current one down the stack. -/
def Search.points (search : Search) : List Point := search.now :: search.context

/-- The stack has room for what is left of the pattern at each of its points. -/
def Room : List Point → Prop
  | [] => True
  | point :: below => below.length + innerRuns isStar point.p ≤ contextSize ∧ Room below

/-- Every point is sound. -/
def Search.Sound (string : Bytes) (caseSens : Bool) (whole : Bytes) (search : Search) : Prop :=
  ∀ point ∈ search.points, point.Sound string caseSens whole

/-- Nothing was lost: a match is still within reach, and the first ones are reached first. -/
structure Search.Complete (string : Bytes) (caseSens : Bool) (whole : Bytes) (search : Search) :
    Prop where
  room : Room search.points
  ordered : search.points.Pairwise Point.Before
  reaches : ∀ start stop, Match caseSens whole string start stop →
    ∃ point ∈ search.points, point.Reaches string caseSens whole start stop

variable {whole : Bytes} {point : Point}

/-- A point reaches only what its own pattern matches from its position on. -/
theorem Point.Reaches.spans {start stop : Nat} (sound : point.Sound string caseSens whole)
    (reaches : point.Reaches string caseSens whole start stop) :
    Match caseSens point.p string point.s stop := by
  unfold Reaches at reaches
  split at reaches
  · rename_i first
    obtain ⟨p, same, rfl⟩ := sound.virtual first
    rw [same]
    exact (spans_stripped_iff isStar_star).mp ((spans_run_iff isStar_star).mpr ⟨start, reaches⟩)
  · exact reaches.2

/-- A whole pattern is looked for at a '*' only. -/
theorem Point.Sound.not_first {ch : Byte} {p : Bytes} (sound : point.Sound string caseSens whole)
    (same : point.p = ch :: p) (single : isStar ch = false) : point.first = false := by
  cases first : point.first with
  | false => rfl
  | true =>
      obtain ⟨q, eq, -⟩ := sound.virtual first
      rw [same] at eq
      cases eq
      cases single

/-- The weight of a point is more than that of two points further on in the text. -/
def Point.weight (string : Bytes) (point : Point) : Nat := 3 ^ (string.length + 1 - point.s)

/-- This decreases with each turn. -/
def Search.weight (string : Bytes) (search : Search) : Nat :=
  (search.points.map (Point.weight string)).sum

theorem weight_pos (string : Bytes) (point : Point) : 0 < point.weight string :=
  Nat.pow_pos (by decide)

/-- Two points further on weigh less than one. -/
theorem weight_add_lt {further : Point} (within : further.s ≤ string.length + 1)
    (less : point.s < further.s) :
    further.weight string + further.weight string < point.weight string := by
  have grows : 3 ^ (string.length + 1 - further.s + 1) ≤ 3 ^ (string.length + 1 - point.s) :=
    Nat.pow_le_pow_right (by decide) (by omega)
  have positive := weight_pos string further
  rw [Nat.pow_succ] at grows
  unfold Point.weight at positive ⊢
  omega

/-- Going back drops the current point. -/
theorem resume_eq_inl {context : List Point} {next : Search}
    (resumed : resume context = .inl next) : next.points = context := by
  cases context with
  | nil => cases resumed
  | cons top context =>
      cases resumed
      rfl

section Started

variable {p p' : Bytes} {ch c : Byte} {s k stop : Nat}

/-- A match of the rest after a run is one of the run and the rest. -/
theorem match_of_rest (left : stripped isStar p = ch :: p') (le : k ≤ s)
    (spans : Match caseSens (ch :: p') string s stop) :
    Match caseSens (chr '*' :: p) string k stop := by
  rw [← left] at spans
  exact (spans_run_iff isStar_star).mpr ⟨s, le, spans.of_stripped⟩

theorem match_of_later (left : stripped isStar p = ch :: p') (le : k ≤ s)
    (spans : Match caseSens (chr '*' :: ch :: p') string s stop) :
    Match caseSens (chr '*' :: p) string k stop := by
  obtain ⟨l, le', spans⟩ := (spans_run_iff isStar_star).mp spans
  exact match_of_rest left (Nat.le_trans le le') spans

/-- The rest after a run starts where the scan stopped, or after that. -/
theorem start_of_skipped (single : isStar ch = false)
    (skipped : ∀ i c', k ≤ i → i < s → string[i]? = some c' → fitsChar caseSens ch c' = false)
    {start : Nat} (after : k ≤ start) (spans : Match caseSens (ch :: p') string start stop) :
    start = s ∧ Match caseSens p' string (s + 1) stop ∨ s + 1 ≤ start := by
  obtain ⟨c', here, fit, rest⟩ := (spans_one_iff single).mp spans
  rcases Nat.lt_trichotomy start s with before | rfl | later
  · rw [skipped start c' after before here] at fit
    cases fit
  · exact .inl ⟨rfl, rest⟩
  · exact .inr later

end Started

/-- Each turn leaves sound points. -/
theorem sound_findTurn {next : Search} (sound : search.Sound string caseSens whole)
    (turn : findTurn string caseSens search = .inl next) :
    next.Sound string caseSens whole := by
  have here := sound search.now List.mem_cons_self
  have below (point) (inside : point ∈ search.context) :=
    sound point (List.mem_cons_of_mem _ inside)
  have turned := findTurn_turned string caseSens search
  generalize findTurn string caseSens search = result at turn turned
  cases turned with
  | ended => cases turn
  | @started p ch p' s c same left single le found fit skipped =>
      cases turn
      have inside : s < string.length := (List.getElem?_eq_some_iff.mp found).1
      have rest {stop : Nat} (spans : Match caseSens p' string (s + 1) stop) :
          Match caseSens (ch :: p') string s stop :=
        (spans_one_iff single).mpr ⟨c, found, fit, spans⟩
      have pushed : Point.Sound string caseSens whole
          ⟨search.now.ss, s + 1, chr '*' :: ch :: p', search.now.first⟩ := by
        refine ⟨inside, fun first => ?_, fun later stop spans => ?_⟩
        · obtain ⟨q, eq, rfl⟩ := here.virtual first
          rw [same] at eq
          cases eq
          exact ⟨ch :: p', rfl, by rw [left, stripped_one single]⟩
        · refine here.extends_match later stop ?_
          rw [same]
          exact match_of_later left (Nat.le_succ_of_le le) spans
      intro point inside'
      rcases List.mem_cons.mp inside' with rfl | stacked
      · refine ⟨inside, fun first => (by cases first), fun _ stop spans => ?_⟩
        change Match caseSens whole string (if search.now.first then s else search.now.ss) stop
        split
        · rename_i first
          obtain ⟨q, eq, rfl⟩ := here.virtual first
          rw [same] at eq
          cases eq
          rw [left]
          exact rest spans
        · rename_i later
          refine here.extends_match (by simpa using later) stop ?_
          rw [same]
          exact match_of_rest left le (rest spans)
      · change point ∈ (if search.context.length < contextSize then _ else _) at stacked
        split at stacked
        · rcases List.mem_cons.mp stacked with rfl | stacked
          · exact pushed
          · exact below point stacked
        · exact below point stacked
  | @matched ch p c same single found fit =>
      cases turn
      have inside : search.now.s < string.length := (List.getElem?_eq_some_iff.mp found).1
      have later := here.not_first same single
      intro point inside'
      rcases List.mem_cons.mp inside' with rfl | stacked
      · refine ⟨inside, fun first => (by cases first), fun _ stop spans => ?_⟩
        change Match caseSens whole string (if search.now.first then _ else search.now.ss) stop
        rw [later]
        refine here.extends_match later stop ?_
        rw [same]
        exact (spans_one_iff single).mpr ⟨c, found, fit, spans⟩
      · exact below point stacked
  | failed =>
      intro point inside
      rw [resume_eq_inl turn] at inside
      exact below point inside

/-- Each turn leaves every match within reach. -/
theorem complete_findTurn {next : Search} (sound : search.Sound string caseSens whole)
    (complete : search.Complete string caseSens whole)
    (turn : findTurn string caseSens search = .inl next) :
    next.Complete string caseSens whole := by
  have here := sound search.now List.mem_cons_self
  obtain ⟨⟨room, rooms⟩, ordered, reaches⟩ := complete
  obtain ⟨upper, lower⟩ := List.pairwise_cons.mp ordered
  have turned := findTurn_turned string caseSens search
  generalize findTurn string caseSens search = result at turn turned
  cases turned with
  | ended => cases turn
  | @started p ch p' s c same left single le found fit skipped =>
      cases turn
      rw [same, innerRuns_run isStar_star left] at room
      have pushes : search.context.length < contextSize := by omega
      have next_runs : innerRuns isStar (chr '*' :: ch :: p') = innerRuns isStar p' + 1 :=
        innerRuns_run isStar_star (stripped_one single)
      rw [if_pos pushes]
      refine ⟨⟨?_, ?_, rooms⟩, ?_, fun start stop spans => ?_⟩
      · change (search.context.length + 1) + innerRuns isStar p' ≤ contextSize
        omega
      · rw [next_runs]
        exact room
      · refine List.pairwise_cons.mpr ⟨fun point stacked => ⟨rfl, ?_⟩,
          List.pairwise_cons.mpr ⟨upper, lower⟩⟩
        change if point.first then (if search.now.first then s else search.now.ss) < point.s
          else (if search.now.first then s else search.now.ss) = point.ss
        rcases List.mem_cons.mp stacked with rfl | stacked
        · cases search.now.first
          · exact rfl
          · exact Nat.lt_succ_self s
        · obtain ⟨later, place⟩ := upper point stacked
          rw [later]
          exact place
      · obtain ⟨point, inside, reached⟩ := reaches start stop spans
        rcases List.mem_cons.mp inside with rfl | stacked
        · cases first : search.now.first with
          | true =>
              obtain ⟨q, eq, rfl⟩ := here.virtual first
              rw [same] at eq
              cases eq
              rw [Point.Reaches, first, if_pos rfl, left] at reached
              rcases start_of_skipped single skipped reached.1 reached.2 with ⟨rfl, rest⟩ | after
              · refine ⟨_, List.mem_cons_self, ?_⟩
                simp only [advance, first, Point.Reaches]
                exact ⟨rfl, rest⟩
              · refine ⟨_, List.mem_cons_of_mem _ List.mem_cons_self, ?_⟩
                simp only [Point.Reaches, if_true, left]
                exact ⟨after, reached.2⟩
          | false =>
              rw [Point.Reaches, first, same] at reached
              obtain ⟨rfl, part⟩ := reached
              replace part := (spans_stripped_iff isStar_star).mpr part
              rw [left] at part
              obtain ⟨k, from_s, part⟩ := (spans_run_iff isStar_star).mp part
              rcases start_of_skipped single skipped from_s part with ⟨rfl, rest⟩ | after
              · refine ⟨_, List.mem_cons_self, ?_⟩
                simp only [advance, first, Point.Reaches]
                exact ⟨rfl, rest⟩
              · refine ⟨_, List.mem_cons_of_mem _ List.mem_cons_self, ?_⟩
                simp only [Point.Reaches]
                exact ⟨trivial, (spans_run_iff isStar_star).mpr ⟨k, after, part⟩⟩
        · exact ⟨point, List.mem_cons_of_mem _ (List.mem_cons_of_mem _ stacked), reached⟩
  | @matched ch p c same single found fit =>
      cases turn
      rw [same, innerRuns_one single] at room
      have later := here.not_first same single
      refine ⟨⟨room, rooms⟩, List.pairwise_cons.mpr ⟨fun point stacked => ⟨rfl, ?_⟩, lower⟩,
        fun start stop spans => ?_⟩
      · change if point.first then (if search.now.first then _ else search.now.ss) < point.s
          else (if search.now.first then _ else search.now.ss) = point.ss
        rw [later]
        exact (upper point stacked).2
      · obtain ⟨point, inside, reached⟩ := reaches start stop spans
        rcases List.mem_cons.mp inside with rfl | stacked
        · rw [Point.Reaches, later, same] at reached
          obtain ⟨rfl, part⟩ := reached
          obtain ⟨d, -, -, rest⟩ := (spans_one_iff single).mp part
          refine ⟨_, List.mem_cons_self, ?_⟩
          simp only [advance, later, Point.Reaches]
          exact ⟨rfl, rest⟩
        · exact ⟨point, List.mem_cons_of_mem _ stacked, reached⟩
  | failed _ none =>
      have same := resume_eq_inl turn
      refine ⟨by rw [same]; exact rooms, by rw [same]; exact lower, fun start stop spans => ?_⟩
      obtain ⟨point, inside, reached⟩ := reaches start stop spans
      rw [same]
      rcases List.mem_cons.mp inside with rfl | stacked
      · exact absurd (reached.spans here) (none stop)
      · exact ⟨point, stacked, reached⟩

/-- Each turn makes the search lighter. -/
theorem weight_findTurn {next : Search}
    (turn : findTurn string caseSens search = .inl next) :
    next.weight string < search.weight string := by
  have turned := findTurn_turned string caseSens search
  have split : search.weight string = search.now.weight string +
      (search.context.map (Point.weight string)).sum := List.sum_cons
  generalize findTurn string caseSens search = result at turn turned
  cases turned with
  | ended => cases turn
  | @started p ch p' s c same left single le found fit skipped =>
      cases turn
      have inside : s < string.length := (List.getElem?_eq_some_iff.mp found).1
      let further : Point := ⟨search.now.ss, s + 1, chr '*' :: ch :: p', search.now.first⟩
      have lighter : further.weight string + further.weight string < search.now.weight string :=
        weight_add_lt (by change s + 1 ≤ _; omega) (by change _ < s + 1; omega)
      have new : (advance search.now s p'
          (if search.context.length < contextSize then further :: search.context
            else search.context)).weight string ≤ further.weight string + (further.weight string +
              (search.context.map (Point.weight string)).sum) := by
        split
        · exact Nat.le_refl _
        · exact Nat.add_le_add_left (Nat.le_add_left _ _) _
      rw [split]
      exact Nat.lt_of_le_of_lt new (by omega)
  | @matched ch p c same single found fit =>
      cases turn
      have inside : search.now.s < string.length := (List.getElem?_eq_some_iff.mp found).1
      let further : Point := ⟨search.now.ss, search.now.s + 1, p, false⟩
      have lighter : further.weight string + further.weight string < search.now.weight string :=
        weight_add_lt (by change search.now.s + 1 ≤ _; omega) (Nat.lt_succ_self _)
      have new : (advance search.now search.now.s p search.context).weight string =
          further.weight string + (search.context.map (Point.weight string)).sum := rfl
      rw [new, split]
      omega
  | failed =>
      have positive := weight_pos string search.now
      rw [Search.weight, resume_eq_inl turn]
      omega

/-- A pattern of nothing but '*' matches at every place. -/
theorem match_of_runs {p : Bytes} {s : Nat} (runs : stripped isStar p = [])
    (within : s ≤ string.length) : Match caseSens p string s s := by
  refine Spans.of_stripped ?_
  rw [runs]
  exact spans_nil_iff.mpr ⟨rfl, within⟩

/-- What a search may return: a match, and no match where it has lost none. -/
structure Found (string pattern : Bytes) (caseSens : Bool) (result : Option (Nat × Nat)) :
    Prop where
  matched : ∀ ss len, result = some (ss, len) →
    Match caseSens (stripped isStar pattern) string ss (ss + len)
  complete : innerRuns isStar (stripped isStar pattern) ≤ 15 → result = none →
    ∀ start stop, ¬ Match caseSens (stripped isStar pattern) string start stop
  earliest : innerRuns isStar (stripped isStar pattern) ≤ 15 → ∀ ss len, result = some (ss, len) →
    ∀ start stop, Match caseSens (stripped isStar pattern) string start stop → ss ≤ start

/-- A pattern with a character other than '*' takes one of the text. -/
theorem lt_of_match_stripped {start stop : Nat} (others : stripped isStar pattern ≠ [])
    (spans : Match caseSens (stripped isStar pattern) string start stop) : start < stop := by
  cases left : stripped isStar pattern with
  | nil => exact absurd left others
  | cons ch p =>
      rw [left] at spans
      obtain ⟨c, -, -, rest⟩ := (spans_one_iff (single_of_stripped left)).mp spans
      exact rest.le

/-- The last turn returns what was looked for. -/
theorem found_findTurn {result : Option (Nat × Nat)} (others : stripped isStar pattern ≠ [])
    (sound : search.Sound string caseSens (stripped isStar pattern))
    (complete : innerRuns isStar (stripped isStar pattern) ≤ 15 →
      search.Complete string caseSens (stripped isStar pattern))
    (turn : findTurn string caseSens search = .inr result) :
    Found string pattern caseSens result := by
  have here := sound search.now List.mem_cons_self
  have turned := findTurn_turned string caseSens search
  generalize findTurn string caseSens search = outcome at turn turned
  cases turned with
  | ended runs =>
      cases turn
      have later : search.now.first = false := by
        cases first : search.now.first with
        | false => rfl
        | true =>
            obtain ⟨p, same, rest⟩ := here.virtual first
            rw [same, stripped_run isStar_star, rest] at runs
            exact absurd runs others
      have spans := here.extends_match later _ (match_of_runs runs here.within)
      have less := lt_of_match_stripped others spans
      refine ⟨fun ss len same => ?_, fun _ none => (by cases none), fun few ss len same => ?_⟩
      · cases same
        rw [show search.now.ss + max (search.now.s - search.now.ss) 1 = search.now.s by omega]
        exact spans
      · cases same
        intro start stop other
        obtain ⟨-, ordered, reaches⟩ := complete few
        obtain ⟨point, inside, reached⟩ := reaches start stop other
        rcases List.mem_cons.mp inside with rfl | stacked
        · rw [Point.Reaches, later] at reached
          exact Nat.le_of_eq reached.1.symm
        · have before := ((List.pairwise_cons.mp ordered).1 point stacked).2
          cases first : point.first with
          | true =>
              rw [Point.Reaches, first] at reached
              rw [first, if_pos rfl] at before
              exact Nat.le_of_lt (Nat.lt_of_lt_of_le before reached.1)
          | false =>
              rw [Point.Reaches, first] at reached
              rw [first] at before
              exact Nat.le_of_eq (before.trans reached.1.symm)
  | started => cases turn
  | matched => cases turn
  | failed _ unmatched =>
      cases stack : search.context with
      | cons top context =>
          rw [stack] at turn
          cases turn
      | nil =>
          rw [stack] at turn
          cases turn
          refine ⟨fun ss len same => (by cases same), fun few _ start stop spans => ?_,
            fun _ ss len same => (by cases same)⟩
          obtain ⟨point, inside, reached⟩ := (complete few).reaches start stop spans
          rw [Search.points, stack, List.mem_singleton] at inside
          subst inside
          exact unmatched stop (reached.spans here)

/-- At the start every match is within reach. -/
theorem complete_findStart (few : innerRuns isStar (stripped isStar pattern) ≤ 15)
    (others : stripped isStar pattern ≠ []) :
    (findStart pattern).Complete string caseSens (stripped isStar pattern) := by
  refine ⟨⟨?_, trivial⟩, List.pairwise_singleton .., fun start stop spans =>
    ⟨_, List.mem_cons_self, Nat.zero_le start, spans⟩⟩
  cases left : stripped isStar pattern with
  | nil => exact absurd left others
  | cons ch p =>
      rw [left, innerRuns_one (single_of_stripped left)] at few
      change 0 + innerRuns isStar (chr '*' :: pattern) ≤ 16
      rw [innerRuns_run isStar_star left]
      omega

theorem sound_findStart :
    (findStart pattern).Sound string caseSens (stripped isStar pattern) := by
  intro point inside
  cases List.mem_singleton.mp inside
  exact ⟨Nat.zero_le _, fun _ => ⟨pattern, rfl, rfl⟩, fun later => by cases later⟩

/-- The search ends. For a pattern of nothing but '*' it returns the first character, if there is
one or not. For another pattern, what it returns matches, and with at most fifteen '*' between
other characters it returns a match if there is one, and none without the leading '*' starts
earlier. -/
theorem findPattern_spec (string pattern : Bytes) (caseSens : Bool) :
    ∃ enough result, (∀ turns ≥ enough, findPattern turns string pattern caseSens = some result) ∧
      (stripped isStar pattern = [] → result = some (0, 1)) ∧
      (stripped isStar pattern ≠ [] →
        (∀ ss len, result = some (ss, len) → Match caseSens pattern string ss (ss + len)) ∧
        (innerRuns isStar (stripped isStar pattern) ≤ 15 →
          (result ≠ none ↔ ∃ start stop, Match caseSens pattern string start stop) ∧
          ∀ ss len, result = some (ss, len) →
            ∀ start stop, Match caseSens (stripped isStar pattern) string start stop →
              ss ≤ start)) := by
  by_cases runs : stripped isStar pattern = []
  · have last : findTurn string caseSens (findStart pattern) = .inr (some (0, 1)) := by
      unfold stripped isStar at runs
      simp only [findTurn, findStart, beq_self_eq_true, if_true, runs]
      rfl
    refine ⟨1, some (0, 1), fun turns enough => ?_, fun _ => rfl, fun others => absurd runs others⟩
    exact Loop.run_of_le (Loop.run_of_result last) enough
  · let Good (search : Search) : Prop :=
      search.Sound string caseSens (stripped isStar pattern) ∧
        (innerRuns isStar (stripped isStar pattern) ≤ 15 →
          search.Complete string caseSens (stripped isStar pattern))
    have keeps (s s' : Search) (good : Good s) (turn : findTurn string caseSens s = .inl s') :
        Good s' ∧ s'.weight string < s.weight string :=
      ⟨⟨sound_findTurn good.1 turn, fun few => complete_findTurn good.1 (good.2 few) turn⟩,
        weight_findTurn turn⟩
    have last (s : Search) (result : Option (Nat × Nat)) (good : Good s)
        (turn : findTurn string caseSens s = .inr result) : Found string pattern caseSens result :=
      found_findTurn runs good.1 good.2 turn
    have start : Good (findStart pattern) :=
      ⟨sound_findStart, fun few => complete_findStart few runs⟩
    obtain ⟨result, ends, found⟩ :=
      Loop.run_total (Search.weight string) keeps last start (Nat.lt_succ_self _)
    refine ⟨_, result, fun turns enough => Loop.run_of_le ends enough,
      fun none => absurd none runs, fun _ => ⟨fun ss len same => ?_,
        fun few => ⟨⟨fun returned => ?_, ?_⟩, found.earliest few⟩⟩⟩
    · exact (found.matched ss len same).of_stripped
    · obtain ⟨place, same⟩ := Option.ne_none_iff_exists'.mp returned
      exact ⟨place.1, place.1 + place.2, (found.matched _ _ same).of_stripped⟩
    · rintro ⟨start, stop, spans⟩ missed
      obtain ⟨k, -, spans⟩ := spans.exists_stripped
      exact found.complete few missed k stop spans

/-- A leading '*' is passed over, so an earlier match is not the one that is returned. The stack is
too small for sixteen '*' within a pattern, and a match is missed. The empty pattern is said to
match one character, even if there is none. -/
theorem findPattern_fails :
    (findPattern 10 (str "xa") (str "*a") true = some (some (1, 1)) ∧
      Match true (str "*a") (str "xa") 0 2) ∧
    (findPattern 100 (str "abcdefghijklmnopyyz") (str "a*b*c*d*e*f*g*h*i*j*k*l*m*n*o*p*yz") true =
        some none ∧
      Match true (str "a*b*c*d*e*f*g*h*i*j*k*l*m*n*o*p*yz") (str "abcdefghijklmnopyyz") 0 19) ∧
    findPattern 1 [] [] true = some (some (0, 1)) ∧ ¬ Match true [] [] 0 1 := by
  exact ⟨⟨by decide, by decide⟩, ⟨by decide, by decide⟩, by decide, by decide⟩

end Neosurf.Textsearch
