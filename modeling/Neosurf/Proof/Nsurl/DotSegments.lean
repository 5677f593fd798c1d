/-
This file compares `nsurl__remove_dot_segments` with the algorithm of RFC 3986, 5.2.4.
-/

import Neosurf.Construction.Nsurl.Create
import Neosurf.Proof.Nsurl.Markers
import Neosurf.ToMathlib.DotSegments

namespace Neosurf.Nsurl

open DotSegments

/-- A prefix starts with the character at the first place. -/
theorem cons_prefix_iff {path rest : Bytes} {c : Byte} (solid : c ≠ 0) :
    c :: rest <+: path ↔ byteAt path 0 = c ∧ rest <+: path.drop 1 := by
  cases path with
  | nil => simp [byteAt, solid.symm]
  | cons d tail =>
      rw [List.cons_prefix_cons]
      exact ⟨fun both => ⟨both.1.symm, both.2⟩, fun both => ⟨both.1.symm, both.2⟩⟩

/-- A path of two characters is known from them. -/
theorem byteAt_eq_two {path : Bytes} {a b : Byte} :
    (byteAt path 0 = a ∧ byteAt path 1 = b ∧ path.length = 2) ↔ path = [a, b] := by
  rcases path with _ | ⟨x, _ | ⟨y, _ | ⟨z, rest⟩⟩⟩ <;> simp [byteAt]

/-- A path of three characters is known from them. -/
theorem byteAt_eq_three {path : Bytes} {a b c : Byte} :
    (byteAt path 0 = a ∧ byteAt path 1 = b ∧ byteAt path 2 = c ∧ path.length = 3) ↔
      path = [a, b, c] := by
  rcases path with _ | ⟨x, _ | ⟨y, _ | ⟨z, _ | ⟨w, rest⟩⟩⟩⟩ <;> simp [byteAt]

/-- A round of the loop applies one rule, unless only a dot segment is left. -/
theorem removeDots_step {path : Bytes} (some : path ≠ [])
    (noDots : path ≠ [chr '.'] ∧ path ≠ [chr '.', chr '.'])
    (noEnd : path ≠ [chr '/', chr '.'] ∧ path ≠ [chr '/', chr '.', chr '.']) (rounds : Nat)
    (output : Bytes) :
    (removeDots (rounds + 1) path output).reverse =
      (removeDots rounds (rewrite (chr '/') (chr '.') path output.reverse).1
        (rewrite (chr '/') (chr '.') path output.reverse).2.reverse).reverse := by
  have slash : chr '/' ≠ 0 := by decide
  have dot : chr '.' ≠ 0 := by decide
  have final : ¬(path = [chr '.'] ∨ path = [chr '.', chr '.']) :=
    not_or.mpr noDots
  have dropped : (DotSegments.dropSegment (chr '/') output.reverse).reverse =
      dropSegment output := by
    rw [DotSegments.dropSegment, List.rdropWhile, List.reverse_reverse, List.dropLast_reverse,
      List.reverse_reverse, dropSegment, List.drop_one]
  rw [removeDots, rewrite, if_neg some]
  simp only [cons_prefix_iff slash, cons_prefix_iff dot, List.nil_prefix, byteAt_drop,
    List.drop_drop, and_true, byteAt_eq_two, byteAt_eq_three, Nat.reduceAdd, Nat.add_zero]
  simp only [noEnd.1, noEnd.2, final, if_false]
  split_ifs with parent self inner up
  · simp
  · simp
  · simp [drop_of_byteAt inner.2.2 slash]
  · simp [drop_of_byteAt up.2.2.2 slash, dropped]
  · cases path with
    | nil => exact absurd rfl some
    | cons c tail =>
        have front := List.prefix_iff_eq_take.mp (List.takeWhile_prefix (· ≠ chr '/') (l := tail))
        simp only [List.drop_succ_cons, List.drop_zero, Nat.add_comm 1, List.take_succ_cons,
          ← front]
        simp [byteAt]

/-- Two dots at the end find no name behind a slash. -/
def endsAbove (first : Bytes) (rest : List Bytes) : Prop :=
  rest.getLastD [] = [chr '.', chr '.'] ∧
    (rest.dropLast.foldl (climb (chr '.')) (first, [])).2 = []

instance (first : Bytes) (rest : List Bytes) : Decidable (endsAbove first rest) :=
  inferInstanceAs (Decidable (_ ∧ _))

/-- The loop leaves this text of the segments from the first name on. -/
def leftOver : List Bytes → Bytes
  | [] => []
  | [segment] => segment
  | first :: rest =>
      if endsAbove first rest then []
      else text (chr '/') (rest.foldl (climb (chr '.')) (first, [])) ++
        ending (chr '/') (chr '.') rest

/-- Nothing follows the end of the path. -/
theorem removeDots_nil (rounds : Nat) (output : Bytes) : removeDots rounds [] output = output := by
  cases rounds <;> simp [removeDots]

/-- A final dot behind a slash leaves the slash. -/
theorem removeDots_dot (rounds : Nat) (output : Bytes) :
    removeDots (rounds + 1) [chr '/', chr '.'] output = chr '/' :: output := by
  have slash : ¬chr '/' = chr '.' := by decide
  have stop : ¬(0 : Byte) = chr '/' := by decide
  simp [removeDots, byteAt, slash, stop]

/-- Two final dots behind a slash drop the last name. -/
theorem removeDots_dots (rounds : Nat) (output : Bytes) :
    removeDots (rounds + 1) [chr '/', chr '.', chr '.'] output =
      output.dropWhile (· ≠ chr '/') := by
  have slash : ¬chr '/' = chr '.' := by decide
  have dot : ¬chr '.' = chr '/' := by decide
  have stop : ¬(0 : Byte) = chr '/' := by decide
  simp [removeDots, byteAt, slash, dot, stop]

/-- The loop reads a slash and its segments from left to right. -/
theorem removeDots_slashed {segments : List Bytes} (some : segments ≠ [])
    (cleanAll : ∀ segment ∈ segments, chr '/' ∉ segment) {root : Bytes} {kept : List Bytes}
    (clean : chr '/' ∉ root) (cleanKept : ∀ name ∈ kept, chr '/' ∉ name) {rounds : Nat}
    (enough : (slashed (chr '/') segments).length ≤ rounds) :
    (removeDots rounds (slashed (chr '/') segments) (text (chr '/') (root, kept)).reverse).reverse =
      if segments.getLastD [] = [chr '.', chr '.'] ∧
          (segments.dropLast.foldl (climb (chr '.')) (root, kept)).2 = [] then []
      else text (chr '/') (segments.foldl (climb (chr '.')) (root, kept)) ++
        ending (chr '/') (chr '.') segments := by
  have distinct : chr '/' ≠ chr '.' := by decide
  induction segments generalizing root kept rounds with
  | nil => exact absurd rfl some
  | cons segment more ih =>
      have cleanHere := cleanAll segment List.mem_cons_self
      have cleanMore (name : Bytes) (member : name ∈ more) : chr '/' ∉ name :=
        cleanAll name (List.mem_cons_of_mem _ member)
      have climbed := text_climb (chr '.') clean cleanKept segment
      obtain ⟨cleanNext, cleanKeptNext⟩ := clean_climb (chr '.') clean cleanKept cleanHere
      have size : (slashed (chr '/') (segment :: more)).length =
          segment.length + (slashed (chr '/') more).length + 1 := by
        simp
      obtain ⟨rounds, rfl⟩ : ∃ fewer, rounds = fewer + 1 := ⟨rounds - 1, by omega⟩
      by_cases final : more = [] ∧ (segment = [chr '.'] ∨ segment = [chr '.', chr '.'])
      · obtain ⟨rfl, one | two⟩ := final
        · subst one
          have shape : slashed (chr '/') [[chr '.']] = [chr '/', chr '.'] := rfl
          rw [shape, removeDots_dot, List.foldl_cons, List.foldl_nil, climbed, if_pos rfl]
          simp [ending, isDots]
        · subst two
          have shape : slashed (chr '/') [[chr '.', chr '.']] = [chr '/', chr '.', chr '.'] := rfl
          have dropped := rdropWhile_text clean cleanKept
          rw [List.rdropWhile] at dropped
          rw [shape, removeDots_dots, dropped, List.foldl_cons, List.foldl_nil, climbed]
          by_cases none : kept = []
          · simp [none]
          · simp [none, ending, isDots, dropSegment_text clean cleanKept]
      · have cleanOne : chr '/' ∉ [chr '.'] := by decide
        have cleanTwo : chr '/' ∉ [chr '.', chr '.'] := by decide
        have noEnd : slashed (chr '/') (segment :: more) ≠ [chr '/', chr '.'] ∧
            slashed (chr '/') (segment :: more) ≠ [chr '/', chr '.', chr '.'] := by
          rw [slashed_cons]
          simp only [ne_eq, List.cons.injEq, true_and, append_slashed_eq_iff cleanHere cleanOne,
            append_slashed_eq_iff cleanHere cleanTwo]
          exact ⟨fun both => final ⟨both.2, .inl both.1⟩, fun both => final ⟨both.2, .inr both.1⟩⟩
        have noDots : slashed (chr '/') (segment :: more) ≠ [chr '.'] ∧
            slashed (chr '/') (segment :: more) ≠ [chr '.', chr '.'] := by
          rw [slashed_cons]
          simp only [ne_eq, List.cons.injEq, distinct, false_and, not_false_eq_true, and_self]
        have moved : rewrite (chr '/') (chr '.') (slashed (chr '/') (segment :: more))
            (text (chr '/') (root, kept)) = (slashed (chr '/') more,
              text (chr '/') (climb (chr '.') (root, kept) segment)) := by
          rw [rewrite_slashed distinct cleanHere, climbed]
          by_cases one : segment = [chr '.']
          · have others : more ≠ [] := fun none => final ⟨none, .inl one⟩
            simp [one, others]
          · by_cases two : segment = [chr '.', chr '.']
            · have others : more ≠ [] := fun none => final ⟨none, .inr two⟩
              simp [two, others]
            · simp [one, two]
        rw [removeDots_step (by simp) noDots noEnd, List.reverse_reverse, moved, List.foldl_cons]
        simp only
        by_cases last : more = []
        · subst last
          have plain := not_or.mp fun dots => final ⟨rfl, dots⟩
          rw [slashed_nil, removeDots_nil, List.reverse_reverse]
          simp [ending, isDots, plain]
        · rw [ih last cleanMore cleanNext cleanKeptNext (by omega)]
          cases more with
          | nil => exact absurd rfl last
          | cons next rest => simp [ending]

/-- The loop removes the dot segments before the first name, and then reads the others. -/
theorem removeDots_segments {first : Bytes} {rest : List Bytes}
    (clean : ∀ segment ∈ first :: rest, chr '/' ∉ segment) {rounds : Nat}
    (enough : (first ++ slashed (chr '/') rest).length ≤ rounds) :
    (removeDots rounds (first ++ slashed (chr '/') rest) []).reverse =
      leftOver (stripped (chr '.') (first :: rest)) := by
  have distinct : chr '/' ≠ chr '.' := by decide
  have none : ∀ name ∈ ([] : List Bytes), chr '/' ∉ name := by simp
  induction rest generalizing first rounds with
  | nil =>
      rw [slashed_nil, List.append_nil] at enough ⊢
      change _ = first
      cases first with
      | nil => rw [removeDots_nil, List.reverse_nil]
      | cons c tail =>
          obtain ⟨rounds, rfl⟩ : ∃ fewer, rounds = fewer + 1 :=
            ⟨rounds - 1, by rw [List.length_cons] at enough; omega⟩
          have cleanFirst := clean _ List.mem_cons_self
          -- Dots that no slash follows are copied like any other name.
          have noSlash (i : Nat) : byteAt (c :: tail) i ≠ chr '/' := by
            intro here
            rw [byteAt, List.getD_eq_getElem?_getD] at here
            cases found : (c :: tail)[i]? with
            | none =>
                rw [found] at here
                exact absurd here (by decide)
            | some d =>
                rw [found, Option.getD_some] at here
                exact cleanFirst (here ▸ List.mem_of_getElem? found)
          have whole := takeWhile_slashed
            (fun member => cleanFirst (List.mem_cons_of_mem c member)) []
          rw [slashed_nil, List.append_nil] at whole
          rw [removeDots]
          simp only [noSlash, and_false, false_and, if_false, reduceCtorEq, List.drop_succ_cons,
            List.drop_zero, whole, Nat.add_comm 1, List.drop_length, removeDots_nil]
          simp [byteAt]
  | cons next rest ih =>
      have cleanFirst := clean _ List.mem_cons_self
      have cleanRest : ∀ segment ∈ next :: rest, chr '/' ∉ segment := fun segment member =>
        clean segment (List.mem_cons_of_mem _ member)
      have size : (first ++ slashed (chr '/') (next :: rest)).length =
          first.length + (next ++ slashed (chr '/') rest).length + 1 := by
        simp
        omega
      have cleanOne : chr '/' ∉ [chr '.'] := by decide
      have cleanTwo : chr '/' ∉ [chr '.', chr '.'] := by decide
      have noDots : first ++ slashed (chr '/') (next :: rest) ≠ [chr '.'] ∧
          first ++ slashed (chr '/') (next :: rest) ≠ [chr '.', chr '.'] := by
        rw [ne_eq, ne_eq, append_slashed_eq_iff cleanFirst cleanOne,
          append_slashed_eq_iff cleanFirst cleanTwo]
        simp
      have notSlash {c : Byte} {tail : Bytes} (shape : first = c :: tail) (u : Bytes) :
          first ++ slashed (chr '/') (next :: rest) ≠ chr '/' :: u := by
        rw [shape]
        intro same
        exact cleanFirst (by rw [shape, (List.cons.inj same).1]; exact List.mem_cons_self)
      obtain ⟨rounds, rfl⟩ : ∃ fewer, rounds = fewer + 1 := ⟨rounds - 1, by omega⟩
      cases dots : isDots (chr '.') first with
      | true =>
          have some : first ≠ [] := by
            rintro rfl
            exact absurd dots (by decide)
          obtain ⟨c, tail, shape⟩ := List.exists_cons_of_ne_nil some
          have shorter : (next ++ slashed (chr '/') rest).length ≤ rounds := by omega
          rw [stripped, if_pos dots, ← ih cleanRest shorter]
          exact (removeDots_step (by simp) noDots ⟨notSlash shape _, notSlash shape _⟩ rounds []).trans
            (by rw [List.reverse_nil, rewrite_dots distinct dots]; rfl)
      | false =>
          rw [stripped, if_neg (by simp [dots])]
          change _ = if endsAbove first (next :: rest) then [] else _
          have start : text (chr '/') (first, []) = first := by simp [text]
          have read {rounds : Nat} (enough : (slashed (chr '/') (next :: rest)).length ≤ rounds) :=
            removeDots_slashed (by simp) cleanRest cleanFirst none enough
          rw [start] at read
          cases first with
          | nil => exact read (by simpa using enough)
          | cons c tail =>
              have shorter : (slashed (chr '/') (next :: rest)).length ≤ rounds := by
                rw [List.length_append, List.length_cons] at enough
                omega
              refine Eq.trans ?_ (read shorter)
              exact (removeDots_step (by simp) noDots ⟨notSlash rfl _, notSlash rfl _⟩ rounds []).trans
                (by rw [List.reverse_nil, rewrite_first distinct dots cleanFirst])

/-- The code leaves this text of the segments. -/
theorem removeDotSegments_eq (path : Bytes) :
    removeDotSegments path = leftOver (stripped (chr '.') (path.splitOn (chr '/'))) := by
  cases split : path.splitOn (chr '/') with
  | nil => exact absurd split (List.splitOn_ne_nil _ _)
  | cons first rest =>
      obtain ⟨same, clean⟩ := eq_of_splitOn split
      rw [removeDotSegments]
      nth_rewrite 2 [same]
      exact removeDots_segments clean (by rw [← same])

/-- What the output holds and what is left of the path never grow together. -/
theorem removeDotsPeak_le (rounds : Nat) (path output : Bytes) :
    removeDotsPeak rounds path output ≤ output.length + path.length := by
  have shorter (output : Bytes) : (dropSegment output).length ≤ output.length := by
    have dropped := (List.dropWhile_suffix (· ≠ chr '/') (l := output)).length_le
    rw [dropSegment, List.length_drop]
    omega
  induction rounds generalizing path output with
  | zero => exact Nat.le_add_right _ _
  | succ rounds ih =>
      rw [removeDotsPeak]
      simp only
      split_ifs with empty parent self inner dot up
      · exact Nat.le_add_right _ _
      · have := ih (path.drop 3) output
        rw [List.length_drop] at this
        omega
      · have := ih (path.drop 2) output
        rw [List.length_drop] at this
        omega
      · have := ih (path.drop 2) output
        rw [List.length_drop] at this
        omega
      · omega
      · have := shorter output
        have := ih (path.drop 3) (dropSegment output)
        rw [List.length_drop] at this
        omega
      · exact Nat.le_add_right _ _
      · have size := (List.takeWhile_prefix (· ≠ chr '/') (l := path.drop 1)).length_le
        have some := List.length_pos_iff.mpr empty
        have := ih (path.drop (1 + ((path.drop 1).takeWhile (· ≠ chr '/')).length))
          (((path.drop 1).takeWhile (· ≠ chr '/')).reverse ++ byteAt path 0 :: output)
        simp only [List.length_drop, List.length_append, List.length_reverse, List.length_cons]
          at this size
        omega

/-- The code writes no more than it reads. -/
theorem removeDotSegmentsWritten_le (path : Bytes) :
    removeDotSegmentsWritten path ≤ path.length := by
  simpa [removeDotSegmentsWritten] using removeDotsPeak_le path.length path []

/-- The empty result of an absolute path is read as a slash. -/
def readRoot (path output : Bytes) : Bytes :=
  if path.head? = some (chr '/') ∧ output = [] then str "/" else output

/-- The output is that of the RFC, and no write passes the length of the path. -/
def RemovesAsRfc (path : Bytes) : Prop :=
  readRoot path (removeDotSegments path) = remove (chr '/') (chr '.') path ∧
    removeDotSegmentsWritten path ≤ path.length

/-- These are the segments from the first name on. -/
def namesFrom (path : Bytes) : List Bytes := stripped (chr '.') (path.splitOn (chr '/'))

/-- Only one dot segment is left behind those at the start. -/
def LoneDots (path : Bytes) : Prop := ∃ segment, namesFrom path = [segment] ∧
  isDots (chr '.') segment = true

/-- A relative path ends in two dots that find no name behind a slash. -/
def ClimbsOut (path : Bytes) : Prop :=
  path.head? ≠ some (chr '/') ∧ ∃ first rest, namesFrom path = first :: rest ∧
    rest.getLastD [] = [chr '.', chr '.'] ∧ rest.dropLast.foldl (keep (chr '.')) [] = []

/-- A path that starts with a slash keeps the empty segment before it. -/
theorem namesFrom_absolute {path : Bytes} (absolute : path.head? = some (chr '/')) :
    ∃ next rest, namesFrom path = [] :: next :: rest := by
  cases path with
  | nil => cases absolute
  | cons c tail =>
      cases absolute
      cases split : tail.splitOn (chr '/') with
      | nil => exact absurd split (List.splitOn_ne_nil _ _)
      | cons next rest =>
          refine ⟨next, rest, ?_⟩
          rw [namesFrom, List.splitOn_cons_eq_if_modifyHead, if_pos (by rfl), split]
          rfl

/-- The segments from the first name on are never none. -/
theorem namesFrom_ne_nil (path : Bytes) : namesFrom path ≠ [] := by
  have left {segments : List Bytes} (some : segments ≠ []) :
      stripped (chr '.') segments ≠ [] := by
    fun_induction stripped (chr '.') segments with
    | case1 => exact absurd rfl some
    | case2 segment => exact some
    | case3 segment next rest dots ih => exact ih (by simp)
    | case4 segment next rest plain => exact some
  exact left (List.splitOn_ne_nil _ _)

/-- The code differs from the RFC where it copies a last dot segment with nothing before it,
and where two dots at the end climb out of a relative path. -/
theorem removeDotSegments_rfc_iff (path : Bytes) :
    RemovesAsRfc path ↔ ¬(LoneDots path ∨ ClimbsOut path) := by
  have written := removeDotSegmentsWritten_le path
  have code := removeDotSegments_eq path
  have rfc := remove_eq (by decide : chr '/' ≠ chr '.') path
  change _ = leftOver (namesFrom path) at code
  change _ = removed (chr '/') (chr '.') (namesFrom path) at rfc
  simp only [RemovesAsRfc, written, and_true, code, rfc]
  cases names : namesFrom path with
  | nil => exact absurd names (namesFrom_ne_nil path)
  | cons first rest =>
      cases rest with
      | nil =>
          -- One segment alone is not absolute: the code copies it, and the RFC drops a dot segment.
          have relative : ¬(path.head? = some (chr '/') ∧ first = []) := by
            rintro ⟨absolute, -⟩
            obtain ⟨next, rest, shape⟩ := namesFrom_absolute absolute
            rw [names] at shape
            cases shape
          have lone : LoneDots path ∨ ClimbsOut path ↔ isDots (chr '.') first = true := by
            constructor
            · rintro (⟨segment, shape, dots⟩ | ⟨-, _, tail, shape, last, -⟩)
              · rw [names] at shape
                cases shape
                exact dots
              · rw [names] at shape
                cases shape
                cases last
            · exact fun dots => .inl ⟨first, names, dots⟩
          rw [lone]
          change readRoot path first = (if isDots (chr '.') first then [] else first) ↔ _
          rw [readRoot, if_neg relative]
          cases dots : isDots (chr '.') first with
          | true =>
              have some : first ≠ [] := by
                rintro rfl
                exact absurd dots (by decide)
              simp [some]
          | false => simp
      | cons next rest =>
          have climbs : LoneDots path ∨ ClimbsOut path ↔
              path.head? ≠ some (chr '/') ∧ endsAbove first (next :: rest) := by
            rw [endsAbove, foldl_climb_snd]
            constructor
            · rintro (⟨segment, shape, -⟩ | ⟨relative, _, tail, shape, above⟩)
              · rw [names] at shape
                cases shape
              · rw [names] at shape
                cases shape
                exact ⟨relative, above⟩
            · exact fun both => .inr ⟨both.1, first, next :: rest, names, both.2⟩
          rw [climbs]
          change readRoot path (if endsAbove first (next :: rest) then [] else
            text (chr '/') ((next :: rest).foldl (climb (chr '.')) (first, [])) ++
              ending (chr '/') (chr '.') (next :: rest)) =
            text (chr '/') ((next :: rest).foldl (climb (chr '.')) (first, [])) ++
              ending (chr '/') (chr '.') (next :: rest) ↔ _
          have full : text (chr '/') ((next :: rest).foldl (climb (chr '.')) (first, [])) ++
              ending (chr '/') (chr '.') (next :: rest) ≠ [] :=
            text_ending_ne_nil (List.cons_ne_nil next rest) (first, [])
          by_cases out : endsAbove first (next :: rest)
          · have above := out
            rw [endsAbove, foldl_climb_snd] at above
            have root : text (chr '/') ((next :: rest).foldl (climb (chr '.')) (first, [])) ++
                ending (chr '/') (chr '.') (next :: rest) = [chr '/'] :=
              text_climbed_out above.1 above.2
            rw [if_pos out, root, readRoot]
            by_cases absolute : path.head? = some (chr '/')
            · simp [absolute, str]
            · simp [absolute, out]
          · rw [if_neg out, readRoot, if_neg (fun both => full both.2)]
            simp [out]

/-- A path of two dots alone is nothing in the RFC, and stays as it is in the code. -/
theorem removeDotSegments_dots_differ : ¬RemovesAsRfc (str "..") := by
  intro same
  exact absurd same.1 (by decide)

end Neosurf.Nsurl
