/-
This file develops the removal of dot segments from a path, as RFC 3986, 5.2.4 rewrites it,
and the same removal on the list of the path's segments.
-/

import Neosurf.ToMathlib.SplitOn
import Mathlib.Data.List.DropRight
import Mathlib.Data.List.Infix

namespace DotSegments

/-- Each segment follows a slash. -/
def slashed {α : Type*} (slash : α) (segments : List (List α)) : List α :=
  segments.flatMap (slash :: ·)

section Slashed

variable {α : Type*} {slash : α}

@[simp] theorem slashed_nil : slashed slash [] = [] := rfl

@[simp] theorem slashed_cons (segment : List α) (rest : List (List α)) :
    slashed slash (segment :: rest) = slash :: (segment ++ slashed slash rest) := rfl

theorem slashed_append (front back : List (List α)) :
    slashed slash (front ++ back) = slashed slash front ++ slashed slash back := by
  simp [slashed]

theorem slashed_eq_nil {segments : List (List α)} : slashed slash segments = [] ↔ segments = [] := by
  cases segments <;> simp

end Slashed

variable {α : Type*} [DecidableEq α] (slash dot : α)

/-- The output loses its last segment and the slash before it, if there is one. -/
def dropSegment (output : List α) : List α := (output.rdropWhile (· ≠ slash)).dropLast

/-- The first of the rules A to E that applies rewrites the input and the output. -/
def rewrite (input output : List α) : List α × List α :=
  if [dot, dot, slash] <+: input then (input.drop 3, output)
  else if [dot, slash] <+: input then (input.drop 2, output)
  else if [slash, dot, slash] <+: input then (slash :: input.drop 3, output)
  else if input = [slash, dot] then ([slash], output)
  else if [slash, dot, dot, slash] <+: input then (slash :: input.drop 4, dropSegment slash output)
  else if input = [slash, dot, dot] then ([slash], dropSegment slash output)
  else if input = [dot] ∨ input = [dot, dot] then ([], output)
  else
    let size := 1 + ((input.drop 1).takeWhile (· ≠ slash)).length
    (input.drop size, output ++ input.take size)

/-- The rules apply while there is input, and each one shortens it. -/
def rewriteAll : Nat → List α → List α → List α
  | 0, _, output => output
  | rounds + 1, input, output =>
      if input = [] then output
      else
        let next := rewrite slash dot input output
        rewriteAll rounds next.1 next.2

/-- This is the whole removal. -/
def remove (path : List α) : List α := rewriteAll slash dot path.length path []

/-- A segment of one or two dots is no name. -/
def isDots (segment : List α) : Bool := segment == [dot] || segment == [dot, dot]

/-- A name is kept, one dot changes nothing, and two dots drop the last name. -/
def keep (kept : List (List α)) (segment : List α) : List (List α) :=
  if segment = [dot] then kept
  else if segment = [dot, dot] then kept.dropLast
  else kept ++ [segment]

/-- Two dots that find no name behind a slash drop the text before the first slash. -/
def climb (state : List α × List (List α)) (segment : List α) : List α × List (List α) :=
  (if segment = [dot, dot] ∧ state.2 = [] then [] else state.1, keep dot state.2 segment)

/-- A state stands for this text. -/
def text (state : List α × List (List α)) : List α := state.1 ++ slashed slash state.2

/-- Dot segments before the first name go. -/
def stripped : List (List α) → List (List α)
  | [] => []
  | [segment] => [segment]
  | segment :: next :: rest =>
      if isDots dot segment then stripped (next :: rest) else segment :: next :: rest

/-- A path that ends in a dot segment ends in a slash. -/
def ending (segments : List (List α)) : List α :=
  if isDots dot (segments.getLastD []) then [slash] else []

/-- The removal on segments: names before the first slash stay on their own. -/
def removed : List (List α) → List α
  | [] => []
  | [segment] => if isDots dot segment then [] else segment
  | first :: rest => text slash (rest.foldl (climb dot) (first, [])) ++ ending slash dot rest

variable {slash dot}

/-- A clean text ends where the slashes begin. -/
theorem takeWhile_slashed {segment : List α} (clean : slash ∉ segment) (rest : List (List α)) :
    (segment ++ slashed slash rest).takeWhile (· ≠ slash) = segment := by
  have inside : ∀ x ∈ segment, decide (x ≠ slash) = true := by
    intro x member
    simp only [decide_eq_true_eq]
    rintro rfl
    exact clean member
  rw [List.takeWhile_append_of_pos inside]
  cases rest <;> simp

/-- Clean texts before the slashes are equal when the whole texts are. -/
theorem append_slashed_inj {u v : List α} {more others : List (List α)} (clean : slash ∉ u)
    (clean' : slash ∉ v) (same : u ++ slashed slash more = v ++ slashed slash others) :
    u = v ∧ slashed slash more = slashed slash others := by
  have first := congrArg (List.takeWhile (· ≠ slash)) same
  rw [takeWhile_slashed clean, takeWhile_slashed clean'] at first
  exact ⟨first, by rw [first] at same; exact List.append_cancel_left same⟩

/-- The text is one clean segment exactly when that is its only one. -/
theorem append_slashed_eq_iff {u v : List α} (clean : slash ∉ u) (clean' : slash ∉ v)
    (more : List (List α)) : u ++ slashed slash more = v ↔ u = v ∧ more = [] := by
  constructor
  · intro same
    have shape : u ++ slashed slash more = v ++ slashed slash [] := by simpa using same
    have both := append_slashed_inj clean clean' shape
    exact ⟨both.1, slashed_eq_nil.mp (by simpa using both.2)⟩
  · rintro ⟨rfl, rfl⟩
    simp

/-- The text starts with a clean segment and a slash exactly when that is its first segment
and others follow. -/
theorem prefix_append_slashed_iff {u v : List α} (clean : slash ∉ u) (clean' : slash ∉ v)
    (more : List (List α)) : v ++ [slash] <+: u ++ slashed slash more ↔ u = v ∧ more ≠ [] := by
  constructor
  · rintro ⟨tail, same⟩
    have inside : ∀ x ∈ v, decide (x ≠ slash) = true := by
      intro x member
      simp only [decide_eq_true_eq]
      rintro rfl
      exact clean' member
    have first := congrArg (List.takeWhile (· ≠ slash)) same
    rw [takeWhile_slashed clean, List.append_assoc, List.takeWhile_append_of_pos inside] at first
    simp only [List.singleton_append, ne_eq, not_true_eq_false, decide_false, Bool.false_eq_true,
      not_false_eq_true, List.takeWhile_cons_of_neg, List.append_nil] at first
    refine ⟨first.symm, ?_⟩
    rintro rfl
    rw [slashed_nil, List.append_nil, ← first] at same
    simpa using congrArg List.length same
  · rintro ⟨rfl, others⟩
    cases more with
    | nil => exact absurd rfl others
    | cons next rest => exact ⟨next ++ slashed slash rest, by simp⟩

/-- The text is its segments, none of which has a slash. -/
theorem eq_of_splitOn {path first : List α} {rest : List (List α)}
    (split : path.splitOn slash = first :: rest) :
    path = first ++ slashed slash rest ∧ ∀ segment ∈ first :: rest, slash ∉ segment := by
  constructor
  · have joined : [slash].intercalate (path.splitOn slash) = path := List.intercalate_splitOn slash
    rw [split] at joined
    rw [← joined]
    clear joined split
    induction rest generalizing first with
    | nil => simp
    | cons next rest ih => rw [List.intercalate_cons_cons, ih]; simp
  · intro segment member
    rw [← split] at member
    exact List.not_mem_of_mem_splitOn member

/-- Clean segments are the segments of their text. -/
theorem splitOn_append_slashed {first : List α} {rest : List (List α)}
    (clean : ∀ segment ∈ first :: rest, slash ∉ segment) :
    (first ++ slashed slash rest).splitOn slash = first :: rest := by
  induction rest generalizing first with
  | nil =>
      rw [slashed_nil, List.append_nil]
      exact List.splitOn_eq_singleton (clean first List.mem_cons_self)
  | cons next rest ih =>
      rw [slashed_cons, List.splitOn_append_cons_self_of_not_mem (clean first List.mem_cons_self),
        ih fun segment member => clean segment (List.mem_cons_of_mem _ member)]

/-- The text of clean names loses its last name, but not the slash before it. -/
theorem rdropWhile_text {root : List α} {kept : List (List α)} (clean : slash ∉ root)
    (cleanKept : ∀ segment ∈ kept, slash ∉ segment) :
    (text slash (root, kept)).rdropWhile (· ≠ slash) =
      if kept = [] then [] else text slash (root, kept.dropLast) ++ [slash] := by
  have dropped {segment : List α} (clean : slash ∉ segment) (front : List α) :
      (front ++ segment).rdropWhile (· ≠ slash) = front.rdropWhile (· ≠ slash) := by
    induction segment using List.reverseRecOn with
    | nil => rw [List.append_nil]
    | append_singleton segment c ih =>
        rw [List.mem_append, List.mem_singleton, not_or] at clean
        rw [← List.append_assoc, List.rdropWhile_concat_pos _ _ _ (by simpa using Ne.symm clean.2),
          ih clean.1]
  rcases List.eq_nil_or_concat kept with rfl | ⟨front, last, rfl⟩
  · rw [if_pos rfl, text, slashed_nil, List.append_nil]
    exact dropped clean []
  · have here := dropped (cleanKept last (by simp)) (root ++ slashed slash front ++ [slash])
    have shape : text slash (root, front.concat last) =
        root ++ slashed slash front ++ [slash] ++ last := by
      simp [text, slashed_append]
    rw [shape, here, List.rdropWhile_concat_neg _ _ _ (by simp)]
    simp [text]

/-- Dropping a segment from the text of clean names drops the last name. -/
theorem dropSegment_text {root : List α} {kept : List (List α)} (clean : slash ∉ root)
    (cleanKept : ∀ segment ∈ kept, slash ∉ segment) :
    dropSegment slash (text slash (root, kept)) =
      text slash (if kept = [] then [] else root, kept.dropLast) := by
  rw [dropSegment, rdropWhile_text clean cleanKept]
  by_cases none : kept = []
  · simp [none, text]
  · rw [if_neg none, List.dropLast_concat, if_neg none]

/-- One segment changes the text of the state like this. -/
theorem text_climb (dot : α) {root : List α} {kept : List (List α)} (clean : slash ∉ root)
    (cleanKept : ∀ segment ∈ kept, slash ∉ segment) (segment : List α) :
    text slash (climb dot (root, kept) segment) =
      if segment = [dot] then text slash (root, kept)
      else if segment = [dot, dot] then dropSegment slash (text slash (root, kept))
      else text slash (root, kept) ++ slash :: segment := by
  rw [dropSegment_text clean cleanKept]
  by_cases one : segment = [dot]
  · simp [climb, keep, one]
  · by_cases two : segment = [dot, dot]
    · simp [climb, keep, two]
    · simp [climb, keep, one, two, text, slashed_append]

/-- A state of clean names stays clean. -/
theorem clean_climb (dot : α) {root : List α} {kept : List (List α)} {segment : List α} (clean : slash ∉ root)
    (cleanKept : ∀ name ∈ kept, slash ∉ name) (cleanNext : slash ∉ segment) :
    slash ∉ (climb dot (root, kept) segment).1 ∧
      ∀ name ∈ (climb dot (root, kept) segment).2, slash ∉ name := by
  constructor
  · unfold climb
    split <;> simp [clean]
  · intro name member
    unfold climb keep at member
    simp only at member
    split_ifs at member
    · exact cleanKept name member
    · exact cleanKept name (List.mem_of_mem_dropLast member)
    · rcases List.mem_append.mp member with old | new
      · exact cleanKept name old
      · rw [List.mem_singleton.mp new]
        exact cleanNext

/-- The names of a state do not depend on the text before the first slash. -/
theorem foldl_climb_snd (dot : α) (segments : List (List α)) (root : List α)
    (kept : List (List α)) :
    (segments.foldl (climb dot) (root, kept)).2 = segments.foldl (keep dot) kept := by
  induction segments generalizing root kept with
  | nil => rfl
  | cons segment more ih => exact ih _ _

/-- Two final dots that find no name behind a slash leave one slash. -/
theorem text_climbed_out {first : List α} {rest : List (List α)}
    (last : rest.getLastD [] = [dot, dot]) (above : rest.dropLast.foldl (keep dot) [] = []) :
    text slash (rest.foldl (climb dot) (first, [])) ++ ending slash dot rest = [slash] := by
  have some : rest ≠ [] := by
    rintro rfl
    cases last
  have split : rest = rest.dropLast ++ [[dot, dot]] := by
    rw [← last, List.getLastD_eq_getLast?, List.getLast?_eq_getLast_of_ne_nil some, Option.getD_some,
      List.dropLast_append_getLast]
  have names : (rest.dropLast.foldl (climb dot) (first, [])).2 = [] := by
    rw [foldl_climb_snd, above]
  rw [ending, last, split, List.foldl_append, List.foldl_cons, List.foldl_nil, climb, names]
  simp [text, keep, isDots]

/-- Something is left behind the first slash. -/
theorem text_ending_ne_nil {rest : List (List α)} (some : rest ≠ [])
    (state : List α × List (List α)) :
    text slash (rest.foldl (climb dot) state) ++ ending slash dot rest ≠ [] := by
  obtain ⟨front, last, rfl⟩ := List.eq_nil_or_concat rest |>.resolve_left some
  rw [List.concat_eq_append, List.foldl_append, List.foldl_cons, List.foldl_nil, ending]
  cases dots : isDots dot last with
  | true => simp [dots]
  | false =>
      have plain : last ≠ [dot] ∧ last ≠ [dot, dot] := by simpa [isDots] using dots
      simp [climb, keep, plain.1, plain.2, text, slashed_append]

/-- The rules read one segment behind its slash. -/
theorem rewrite_slashed (distinct : slash ≠ dot) {segment : List α} (clean : slash ∉ segment)
    (more : List (List α)) (output : List α) :
    rewrite slash dot (slashed slash (segment :: more)) output =
      if segment = [dot] then (if more = [] then [slash] else slashed slash more, output)
      else if segment = [dot, dot] then
        (if more = [] then [slash] else slashed slash more, dropSegment slash output)
      else (slashed slash more, output ++ slash :: segment) := by
  have cleanOne : slash ∉ [dot] := by simpa using distinct
  have cleanTwo : slash ∉ [dot, dot] := by simpa using distinct
  have firstOne := prefix_append_slashed_iff clean cleanOne more
  have firstTwo := prefix_append_slashed_iff clean cleanTwo more
  have onlyOne := append_slashed_eq_iff clean cleanOne more
  have onlyTwo := append_slashed_eq_iff clean cleanTwo more
  have whole := takeWhile_slashed clean more
  simp only [List.cons_append, List.nil_append] at firstOne firstTwo
  simp only [rewrite, slashed_cons, List.cons_prefix_cons, distinct.symm, false_and, if_false,
    true_and, firstOne, firstTwo, List.cons.injEq, onlyOne, onlyTwo, distinct, or_false,
    List.drop_succ_cons, List.drop_zero, whole, Nat.add_comm 1, List.take_succ_cons,
    List.drop_left, List.take_left]
  by_cases one : segment = [dot]
  · subst one
    cases more <;> simp
  · by_cases two : segment = [dot, dot]
    · subst two
      cases more <;> simp
    · simp [one, two]

/-- The rules read a slash and its segments from left to right. -/
theorem rewriteAll_slashed (distinct : slash ≠ dot) {segments : List (List α)}
    (some : segments ≠ []) (cleanAll : ∀ segment ∈ segments, slash ∉ segment) {root : List α}
    {kept : List (List α)} (clean : slash ∉ root) (cleanKept : ∀ name ∈ kept, slash ∉ name)
    {rounds : Nat} (enough : (slashed slash segments).length ≤ rounds) :
    rewriteAll slash dot rounds (slashed slash segments) (text slash (root, kept)) =
      text slash (segments.foldl (climb dot) (root, kept)) ++ ending slash dot segments := by
  induction segments generalizing root kept rounds with
  | nil => exact absurd rfl some
  | cons segment more ih =>
      have cleanHere := cleanAll segment List.mem_cons_self
      have cleanMore (name : List α) (member : name ∈ more) : slash ∉ name :=
        cleanAll name (List.mem_cons_of_mem _ member)
      have climbed := text_climb dot clean cleanKept segment
      obtain ⟨cleanNext, cleanKeptNext⟩ := clean_climb dot clean cleanKept cleanHere
      have size : (slashed slash (segment :: more)).length =
          segment.length + (slashed slash more).length + 1 := by
        simp
      obtain ⟨rounds, rfl⟩ : ∃ fewer, rounds = fewer + 1 := ⟨rounds - 1, by omega⟩
      rw [rewriteAll, if_neg (by simp), rewrite_slashed distinct cleanHere, List.foldl_cons]
      simp only
      -- The input that the rule leaves is what follows, or one slash behind a final dot segment.
      by_cases dots : isDots dot segment = true
      · have length : 1 ≤ segment.length := by
          rcases Bool.or_eq_true_iff.mp dots with one | two
          · rw [eq_of_beq one]
            simp
          · rw [eq_of_beq two]
            simp
        have next : (if segment = [dot] then
              (if more = [] then [slash] else slashed slash more, text slash (root, kept))
            else if segment = [dot, dot] then
              (if more = [] then [slash] else slashed slash more,
                dropSegment slash (text slash (root, kept)))
            else (slashed slash more, text slash (root, kept) ++ slash :: segment)) =
            (if more = [] then [slash] else slashed slash more,
              text slash (climb dot (root, kept) segment)) := by
          rw [climbed]
          rcases Bool.or_eq_true_iff.mp dots with one | two
          · simp [eq_of_beq one]
          · simp [eq_of_beq two]
        rw [next]
        simp only
        by_cases last : more = []
        · subst last
          obtain ⟨rounds, rfl⟩ : ∃ fewer, rounds = fewer + 1 := ⟨rounds - 1, by omega⟩
          have moved : rewrite slash dot [slash] (text slash (climb dot (root, kept) segment)) =
              ([], text slash (climb dot (root, kept) segment) ++ [slash]) := by
            simp [rewrite, distinct]
          have stops (n : Nat) (output : List α) : rewriteAll slash dot n [] output = output := by
            cases n <;> simp [rewriteAll]
          rw [if_pos rfl, rewriteAll, if_neg (by simp), moved, stops]
          simp [ending, dots]
        · rw [if_neg last, ih last cleanMore cleanNext cleanKeptNext (by omega)]
          congr 1
          cases more with
          | nil => exact absurd rfl last
          | cons next rest => simp [ending]
      · have plain : segment ≠ [dot] ∧ segment ≠ [dot, dot] := by
          simpa [isDots] using dots
        rw [if_neg plain.1, if_neg plain.2] at climbed
        rw [if_neg plain.1, if_neg plain.2]
        simp only
        rw [← climbed]
        by_cases last : more = []
        · subst last
          have stops : rewriteAll slash dot rounds [] (text slash (climb dot (root, kept) segment)) =
              text slash (climb dot (root, kept) segment) := by
            cases rounds <;> simp [rewriteAll]
          rw [slashed_nil, stops]
          simp [ending, dots]
        · rw [ih last cleanMore cleanNext cleanKeptNext (by omega)]
          congr 1
          cases more with
          | nil => exact absurd rfl last
          | cons next rest => simp [ending]

/-- A dot segment at the start goes with its slash. -/
theorem rewrite_dots (distinct : slash ≠ dot) {first : List α} (dots : isDots dot first = true)
    (next : List α) (rest : List (List α)) :
    rewrite slash dot (first ++ slashed slash (next :: rest)) [] =
      (next ++ slashed slash rest, []) := by
  rcases Bool.or_eq_true_iff.mp dots with same | same
  · rw [eq_of_beq same]
    simp [rewrite, distinct.symm]
  · rw [eq_of_beq same]
    simp [rewrite]

/-- A name at the start moves to the output. -/
theorem rewrite_first (distinct : slash ≠ dot) {c : α} {tail : List α}
    (plain : isDots dot (c :: tail) = false) (clean : slash ∉ c :: tail) (rest : List (List α)) :
    rewrite slash dot (c :: tail ++ slashed slash rest) [] = (slashed slash rest, c :: tail) := by
  have cleanOne : slash ∉ [dot] := by simpa using distinct
  have cleanTwo : slash ∉ [dot, dot] := by simpa using distinct
  have head : c ≠ slash := by
    rintro rfl
    exact clean List.mem_cons_self
  have different : c :: tail ≠ [dot] ∧ c :: tail ≠ [dot, dot] := by
    simpa [isDots] using plain
  have noParent : ¬[dot, dot, slash] <+: c :: tail ++ slashed slash rest := fun starts =>
    different.2 ((prefix_append_slashed_iff clean cleanTwo rest).mp starts).1
  have noSelf : ¬[dot, slash] <+: c :: tail ++ slashed slash rest := fun starts =>
    different.1 ((prefix_append_slashed_iff clean cleanOne rest).mp starts).1
  have notDots : ¬(c :: tail ++ slashed slash rest = [dot] ∨
      c :: tail ++ slashed slash rest = [dot, dot]) := by
    rw [append_slashed_eq_iff clean cleanOne, append_slashed_eq_iff clean cleanTwo]
    exact fun either => either.elim (different.1 ·.1) (different.2 ·.1)
  have whole := takeWhile_slashed (fun member => clean (List.mem_cons_of_mem c member)) rest
  rw [rewrite, if_neg noParent, if_neg noSelf, if_neg (by simp [head.symm]), if_neg (by simp [head]),
    if_neg (by simp [head.symm]), if_neg (by simp [head]), if_neg notDots]
  simp only [List.cons_append, List.drop_succ_cons, List.drop_zero, whole, Nat.add_comm 1,
    List.take_succ_cons, List.drop_left, List.take_left, List.nil_append]

/-- The rules remove the dot segments before the first name, and then read the others. -/
theorem rewriteAll_segments (distinct : slash ≠ dot) {first : List α} {rest : List (List α)}
    (clean : ∀ segment ∈ first :: rest, slash ∉ segment) {rounds : Nat}
    (enough : (first ++ slashed slash rest).length ≤ rounds) :
    rewriteAll slash dot rounds (first ++ slashed slash rest) [] =
      removed slash dot (stripped dot (first :: rest)) := by
  have stops (n : Nat) (output : List α) : rewriteAll slash dot n [] output = output := by
    cases n <;> simp [rewriteAll]
  induction rest generalizing first rounds with
  | nil =>
      rw [slashed_nil, List.append_nil] at enough ⊢
      change _ = if isDots dot first then [] else first
      cases first with
      | nil => rw [stops, ite_self]
      | cons c tail =>
          obtain ⟨rounds, rfl⟩ : ∃ fewer, rounds = fewer + 1 :=
            ⟨rounds - 1, by rw [List.length_cons] at enough; omega⟩
          rw [rewriteAll, if_neg (by simp)]
          cases dots : isDots dot (c :: tail) with
          | true =>
              have gone : rewrite slash dot (c :: tail) [] = ([], []) := by
                rcases Bool.or_eq_true_iff.mp dots with same | same
                · rw [eq_of_beq same]
                  simp [rewrite, distinct.symm]
                · rw [eq_of_beq same]
                  simp [rewrite, distinct.symm]
              rw [gone, stops, if_pos rfl]
          | false =>
              have moved := rewrite_first distinct dots (clean _ List.mem_cons_self) []
              rw [slashed_nil, List.append_nil] at moved
              rw [moved, stops]
              rfl
  | cons next rest ih =>
      have cleanFirst := clean _ List.mem_cons_self
      have cleanRest : ∀ segment ∈ next :: rest, slash ∉ segment := fun segment member =>
        clean segment (List.mem_cons_of_mem _ member)
      have size : (first ++ slashed slash (next :: rest)).length =
          first.length + (next ++ slashed slash rest).length + 1 := by
        simp
        omega
      obtain ⟨rounds, rfl⟩ : ∃ fewer, rounds = fewer + 1 := ⟨rounds - 1, by omega⟩
      cases dots : isDots dot first with
      | true =>
          rw [rewriteAll, if_neg (by simp), rewrite_dots distinct dots, ih cleanRest (by omega),
            stripped, if_pos dots]
      | false =>
          rw [stripped, if_neg (by simp [dots])]
          change _ = text slash ((next :: rest).foldl (climb dot) (first, [])) ++ _
          have start : text slash (first, []) = first := by simp [text]
          have none : ∀ name ∈ ([] : List (List α)), slash ∉ name := by simp
          have read {rounds : Nat} (enough : (slashed slash (next :: rest)).length ≤ rounds) :=
            rewriteAll_slashed distinct (by simp) cleanRest cleanFirst none enough
          rw [start] at read
          cases first with
          | nil => exact read (by simpa using enough)
          | cons c tail =>
              rw [rewriteAll, if_neg (by simp), rewrite_first distinct dots cleanFirst]
              exact read (by rw [List.length_append, List.length_cons] at enough; omega)

/-- The rules remove what the removal on segments removes. -/
theorem remove_eq (distinct : slash ≠ dot) (path : List α) :
    remove slash dot path = removed slash dot (stripped dot (path.splitOn slash)) := by
  cases split : path.splitOn slash with
  | nil => exact absurd split (List.splitOn_ne_nil _ _)
  | cons first rest =>
      obtain ⟨same, clean⟩ := eq_of_splitOn split
      rw [remove]
      nth_rewrite 2 [same]
      exact rewriteAll_segments distinct clean (by rw [← same])

end DotSegments
