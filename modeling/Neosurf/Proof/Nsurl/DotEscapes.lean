/-
This file shows which segments of a path become dot segments once their escapes are decoded.
-/

import Neosurf.Proof.Bytes
import Neosurf.Proof.Nsurl.DotSegments
import Neosurf.Proof.Nsurl.Sections
import Neosurf.Proof.Nsurl.Consistent

namespace Neosurf.Nsurl

open DotSegments

/-- Escaped dots are dots. -/
def undot : Bytes → Bytes
  | [] => []
  | c :: h :: l :: rest =>
      if c = chr '%' ∧ hexToValue2Chars h l = some (chr '.') then chr '.' :: undot rest
      else c :: undot (h :: l :: rest)
  | c :: rest => c :: undot rest

/-- The text starts with an escape of this value. -/
def StartsEscape (text : Bytes) (value : Byte) (rest : Bytes) : Prop :=
  ∃ h l, text = chr '%' :: h :: l :: rest ∧ hexToValue2Chars h l = some value

/-- A character that starts no escape adds its own text to the normal form. -/
theorem normalise_cons {c : Byte} {rest : Bytes}
    (plain : ∀ value tail, ¬StartsEscape (c :: rest) value tail) :
    ∃ front, normalise false (c :: rest) = front ++ normalise false rest ∧
      (front = normaliseChar false c ∨ front = [c] ∧ c = chr '%') := by
  rcases rest with _ | ⟨h, _ | ⟨l, rest⟩⟩
  · exact ⟨normaliseChar false c, by simp [normalise], .inl rfl⟩
  · exact ⟨normaliseChar false c, by simp [normalise], .inl rfl⟩
  · rw [normalise]
    split
    · rename_i percent
      subst percent
      cases found : hexToValue2Chars h l with
      | some value => exact absurd ⟨h, l, rfl, found⟩ (plain value rest)
      | none => exact ⟨[chr '%'], rfl, .inr ⟨rfl, rfl⟩⟩
    · exact ⟨normaliseChar false c, rfl, .inl rfl⟩

/-- An escape becomes its value when that needs none. -/
theorem normalise_escape {text rest : Bytes} {value : Byte} (escape : StartsEscape text value rest) :
    normalise false text =
      (if isUnreserved value then [value] else text.take 3) ++ normalise false rest := by
  obtain ⟨h, l, rfl, found⟩ := escape
  rw [normalise, if_pos rfl, found]
  cases free : isUnreserved value <;> simp [free]

/-- A character that starts no escape stays. -/
theorem undot_cons {c : Byte} {rest : Bytes}
    (plain : ∀ value tail, ¬StartsEscape (c :: rest) value tail) :
    undot (c :: rest) = c :: undot rest := by
  rcases rest with _ | ⟨h, _ | ⟨l, rest⟩⟩
  · simp [undot]
  · simp [undot]
  · rw [undot, if_neg]
    rintro ⟨rfl, value⟩
    exact plain _ _ ⟨h, l, rfl, value⟩

/-- An escape becomes a dot when it means one. -/
theorem undot_escape {text rest : Bytes} {value : Byte} (escape : StartsEscape text value rest) :
    undot text = if value = chr '.' then chr '.' :: undot rest else chr '%' :: undot (text.drop 1) := by
  obtain ⟨h, l, rfl, found⟩ := escape
  rw [undot, found]
  by_cases dot : value = chr '.' <;> simp [dot]

/-- The normal form of a character has no slash, and starts with a dot only for a dot. -/
theorem normaliseChar_dot (c : Byte) : normaliseChar false c ≠ [] ∧
    (c ≠ chr '/' → chr '/' ∉ normaliseChar false c) ∧
    (c = chr '.' → normaliseChar false c = [chr '.']) ∧
    (c ≠ chr '.' → (normaliseChar false c).head? ≠ some (chr '.')) := by
  revert c
  apply byte_cases
  decide

/-- A slash is no hex digit. -/
theorem hexToValue2Chars_slash (c : Byte) :
    hexToValue2Chars (chr '/') c = none ∧ hexToValue2Chars c (chr '/') = none :=
  hexToValue2Chars_of_none rfl c

/-- A value that needs no escape is no slash. -/
theorem isUnreserved_slash : isUnreserved (chr '/') = false := by decide

/-- An escape lies within the segment that it starts in. -/
theorem startsEscape_segment {segment tail after : Bytes} {value : Byte}
    (nonempty : segment ≠ []) (ends : tail = [] ∨ tail.head? = some (chr '/'))
    (escape : StartsEscape (segment ++ tail) value after) :
    ∃ rest, StartsEscape segment value rest ∧ after = rest ++ tail := by
  obtain ⟨h, l, shape, found⟩ := escape
  have slash {d : Byte} {later : Bytes} (here : tail = d :: later) : d = chr '/' := by
    rcases ends with none | first
    · rw [none] at here
      cases here
    · rw [here] at first
      exact Option.some.inj first
  rcases segment with _ | ⟨c, _ | ⟨d, _ | ⟨e, rest⟩⟩⟩
  · exact absurd rfl nonempty
  · have digit := slash (List.cons.inj shape).2
    rw [digit, (hexToValue2Chars_slash l).1] at found
    cases found
  · have digit := slash (List.cons.inj (List.cons.inj shape).2).2
    rw [digit, (hexToValue2Chars_slash h).2] at found
    cases found
  · cases shape
    exact ⟨rest, ⟨h, l, rfl, found⟩, rfl⟩

/-- A segment has a normal form of its own, which is dots exactly when its escaped dots make it so.
What ends the segment is a slash or the end of the text. -/
theorem normalise_segment {segment tail : Bytes} (clean : chr '/' ∉ segment)
    (ends : tail = [] ∨ tail.head? = some (chr '/')) :
    ∃ norm, normalise false (segment ++ tail) = norm ++ normalise false tail ∧ chr '/' ∉ norm ∧
      ∀ n, norm = List.replicate n (chr '.') ↔ undot segment = List.replicate n (chr '.') := by
  induction size : segment.length using Nat.strong_induction_on generalizing segment with
  | _ size ih =>
      cases segment with
      | nil => exact ⟨[], rfl, by simp, fun n => Iff.rfl⟩
      | cons c rest =>
          have cleanRest : chr '/' ∉ rest := fun member => clean (List.mem_cons_of_mem c member)
          by_cases plain : ∀ value after, ¬StartsEscape (c :: rest ++ tail) value after
          · -- The character adds its own normal form, and is a dot in both texts or in none.
            rw [List.cons_append] at plain ⊢
            obtain ⟨front, here, char⟩ := normalise_cons plain
            obtain ⟨norm, later, cleanNorm, dots⟩ :=
              ih rest.length (by rw [← size, List.length_cons]; omega) cleanRest rfl
            have kept : ∀ value after, ¬StartsEscape (c :: rest) value after := by
              rintro value after ⟨h, l, shape, found⟩
              exact plain value (after ++ tail) ⟨h, l, by rw [← List.cons_append, shape]; rfl, found⟩
            have facts : front ≠ [] ∧ chr '/' ∉ front ∧ (c = chr '.' → front = [chr '.']) ∧
                (c ≠ chr '.' → front.head? ≠ some (chr '.')) := by
              obtain ⟨nonempty, solid, dot, other⟩ := normaliseChar_dot c
              rcases char with rfl | ⟨rfl, rfl⟩
              · exact ⟨nonempty, solid fun same => clean (same ▸ List.mem_cons_self), dot, other⟩
              · decide
            refine ⟨front ++ norm, ?_, ?_, fun n => ?_⟩
            · rw [here, later, List.append_assoc]
            · rw [List.mem_append, not_or]
              exact ⟨facts.2.1, cleanNorm⟩
            · rw [undot_cons kept]
              by_cases dot : c = chr '.'
              · rw [facts.2.2.1 dot, dot]
                cases n with
                | zero => simp
                | succ n => simpa [List.replicate_succ] using dots n
              · have first := facts.2.2.2 dot
                obtain ⟨d, front, rfl⟩ := List.exists_cons_of_ne_nil facts.1
                cases n with
                | zero => simp
                | succ n =>
                    have other : d ≠ chr '.' := fun same => first (by rw [same]; rfl)
                    simp [List.replicate_succ, dot, other]
          · -- The escape lies in the segment, and is a dot in both texts or in none.
            push Not at plain
            obtain ⟨value, after, escape⟩ := plain
            obtain ⟨inner, own, rfl⟩ := startsEscape_segment (List.cons_ne_nil c rest) ends escape
            have shape := own
            obtain ⟨h, l, text, found⟩ := shape
            rw [text] at clean size
            simp only [List.mem_cons, not_or] at clean
            obtain ⟨-, cleanHigh, cleanLow, cleanInner⟩ := clean
            obtain ⟨norm, later, cleanNorm, dots⟩ :=
              ih inner.length (by rw [← size]; simp only [List.length_cons]; omega) cleanInner rfl
            rw [normalise_escape escape, undot_escape own, later]
            cases free : isUnreserved value with
            | true =>
                refine ⟨value :: norm, rfl, ?_, fun n => ?_⟩
                · rw [List.mem_cons, not_or]
                  refine ⟨fun same => ?_, cleanNorm⟩
                  rw [← same, isUnreserved_slash] at free
                  cases free
                · by_cases dot : value = chr '.'
                  · rw [if_pos dot, dot]
                    cases n with
                    | zero => simp
                    | succ n => simpa [List.replicate_succ] using dots n
                  · have other : chr '%' ≠ chr '.' := by decide
                    rw [if_neg dot]
                    cases n with
                    | zero => simp
                    | succ n => simp [List.replicate_succ, dot, other]
            | false =>
                have other : chr '%' ≠ chr '.' := by decide
                have percent : chr '/' ≠ chr '%' := by decide
                have dot : value ≠ chr '.' := by
                  rintro rfl
                  exact absurd free (by decide)
                refine ⟨chr '%' :: h :: l :: norm, by rw [text]; rfl, ?_, fun n => ?_⟩
                · simp [percent, cleanHigh, cleanLow, cleanNorm]
                · rw [if_neg dot]
                  cases n with
                  | zero => simp
                  | succ n => simp [List.replicate_succ, other]

/-- Two texts of dots are told by their lengths. -/
theorem isDots_congr {norm plain : Bytes}
    (dots : ∀ n, norm = List.replicate n (chr '.') ↔ plain = List.replicate n (chr '.')) :
    isDots (chr '.') norm = isDots (chr '.') plain := by
  have one := dots 1
  have two := dots 2
  simp only [List.replicate_succ, List.replicate_zero] at one two
  rw [Bool.eq_iff_iff]
  simp only [isDots, Bool.or_eq_true, beq_iff_eq, one, two]

/-- A normal form has a dot segment exactly when a segment has one for its escaped dots. -/
theorem dots_normalise_iff (text : Bytes) :
    (∃ segment ∈ (normalise false text).splitOn (chr '/'), isDots (chr '.') segment = true) ↔
      ∃ segment ∈ text.splitOn (chr '/'), isDots (chr '.') (undot segment) = true := by
  cases split : text.splitOn (chr '/') with
  | nil => exact absurd split (List.splitOn_ne_nil _ _)
  | cons first rest =>
      obtain ⟨same, clean⟩ := eq_of_splitOn split
      clear split
      subst same
      induction rest generalizing first with
      | nil =>
          obtain ⟨norm, here, cleanNorm, dots⟩ :=
            normalise_segment (clean first List.mem_cons_self) (.inl rfl)
          rw [slashed_nil, here, normalise, List.append_nil, List.splitOn_eq_singleton cleanNorm]
          simp [isDots_congr dots]
      | cons next rest ih =>
          obtain ⟨norm, here, cleanNorm, dots⟩ :=
            normalise_segment (clean first List.mem_cons_self)
              (.inr rfl : slashed (chr '/') (next :: rest) = [] ∨ _)
          have slash : normalise false (slashed (chr '/') (next :: rest)) =
              chr '/' :: normalise false (next ++ slashed (chr '/') rest) := by
            have plain : ∀ value after,
                ¬StartsEscape (chr '/' :: (next ++ slashed (chr '/') rest)) value after := by
              rintro value after ⟨h, l, shape, -⟩
              exact absurd (List.cons.inj shape).1 (by decide)
            obtain ⟨front, here, char⟩ := normalise_cons plain
            have only : front = [chr '/'] := by
              rcases char with same | ⟨same, -⟩
              · exact same
              · exact same
            rw [slashed_cons, here, only]
            rfl
          rw [here, slash, List.splitOn_append_cons_self_of_not_mem cleanNorm]
          simp only [List.mem_cons, exists_eq_or_imp, isDots_congr dots]
          rw [ih next fun segment member => clean segment (List.mem_cons_of_mem _ member)]
          simp only [List.mem_cons, exists_eq_or_imp]

/-- These segments survive the removal. -/
def survivors (path : Bytes) : List Bytes :=
  match namesFrom path with
  | [] => []
  | [segment] => [segment]
  | first :: rest =>
      if endsAbove first rest then [[]]
      else
        let state := rest.foldl (climb (chr '.')) (first, [])
        state.1 :: state.2 ++ if isDots (chr '.') (rest.getLastD []) then [[]] else []

/-- No segment of the path is one or two dots. -/
def NoDotSegments (path : Bytes) : Prop :=
  ∀ segment ∈ path.splitOn (chr '/'), isDots (chr '.') segment = false

/-- This path text a join gives to the removal. -/
def mergedText (basePath rel : Bytes) (m : UrlMarkers) : Bytes :=
  (if (joinedParts rel m).mergedPath then directory basePath else []) ++ slice rel m.path m.query

/-- The base path that is taken over has no dot segment, or no surviving segment of the
merged text spells one, with or without escapes. -/
def KeepsNoDots (basePath rel : Bytes) : Prop :=
  let m := getStringMarkers rel true
  if (joinedParts rel m).basePath then NoDotSegments basePath
  else ∀ segment ∈ survivors (mergedText basePath rel m), isDots (chr '.') (undot segment) = false

/-- The segments from the first name on have no slash. -/
theorem clean_namesFrom {path segment : Bytes} (member : segment ∈ namesFrom path) :
    chr '/' ∉ segment := by
  have sub (segments : List Bytes) : ∀ part ∈ stripped (chr '.') segments, part ∈ segments := by
    fun_induction stripped (chr '.') segments with
    | case1 => exact fun part member => member
    | case2 segment => exact fun part member => member
    | case3 segment next rest dots ih =>
        exact fun part member => List.mem_cons_of_mem _ (ih part member)
    | case4 segment next rest plain => exact fun part member => member
  exact List.not_mem_of_mem_splitOn (sub _ segment member)

/-- A walk over clean segments keeps clean names. -/
theorem clean_foldl_climb {segments : List Bytes} (clean : ∀ segment ∈ segments, chr '/' ∉ segment)
    (state : Bytes × List Bytes) (cleanRoot : chr '/' ∉ state.1)
    (cleanKept : ∀ name ∈ state.2, chr '/' ∉ name) :
    chr '/' ∉ (segments.foldl (climb (chr '.')) state).1 ∧
      ∀ name ∈ (segments.foldl (climb (chr '.')) state).2, chr '/' ∉ name := by
  induction segments generalizing state with
  | nil => exact ⟨cleanRoot, cleanKept⟩
  | cons segment more ih =>
      obtain ⟨root, kept⟩ := state
      obtain ⟨cleanNext, cleanKeptNext⟩ :=
        clean_climb (chr '.') cleanRoot cleanKept (clean segment List.mem_cons_self)
      exact ih (fun name member => clean name (List.mem_cons_of_mem _ member)) _ cleanNext
        cleanKeptNext

/-- The survivors are the segments of what the removal leaves. -/
theorem splitOn_removeDotSegments (path : Bytes) :
    (removeDotSegments path).splitOn (chr '/') = survivors path := by
  have clean (segment : Bytes) (member : segment ∈ namesFrom path) := clean_namesFrom member
  rw [removeDotSegments_eq]
  change (leftOver (namesFrom path)).splitOn _ = _
  rw [survivors]
  rcases names : namesFrom path with _ | ⟨first, _ | ⟨next, rest⟩⟩
  · exact absurd names (namesFrom_ne_nil path)
  · rw [names] at clean
    exact List.splitOn_eq_singleton (clean first List.mem_cons_self)
  · rw [names] at clean
    change (if endsAbove first (next :: rest) then [] else _).splitOn _ = _
    by_cases above : endsAbove first (next :: rest)
    · simp only [if_pos above]
      rfl
    · obtain ⟨cleanRoot, cleanKept⟩ := clean_foldl_climb
        (fun segment member => clean segment (List.mem_cons_of_mem _ member)) (first, [])
        (clean first List.mem_cons_self) (by simp)
      have shape : ending (chr '/') (chr '.') (next :: rest) = slashed (chr '/')
          (if isDots (chr '.') ((next :: rest).getLastD []) then [[]] else []) := by
        rw [ending]
        split <;> rfl
      simp only [if_neg above]
      rw [text, shape, List.append_assoc, ← slashed_append, splitOn_append_slashed]
      · rfl
      · intro segment member
        simp only [List.mem_cons, List.mem_append] at member
        rcases member with rfl | kept | last
        · exact cleanRoot
        · exact cleanKept segment kept
        · split at last
          · rw [List.mem_singleton.mp last]
            simp
          · cases last

/-- The path section has a dot segment exactly when a segment of its text spells one. -/
theorem createPath_noDots_iff (text : Bytes) (c : NsurlComponents) :
    NoDotSegments ((createPath text c).path.getD []) ↔
      ∀ segment ∈ text.splitOn (chr '/'), isDots (chr '.') (undot segment) = false := by
  have dots := not_congr (dots_normalise_iff text)
  simp only [not_exists, not_and, Bool.not_eq_true] at dots
  rw [← dots]
  by_cases empty : normalise false text = []
  · have root : NoDotSegments (str "/") := by
      unfold NoDotSegments
      decide
    have none : NoDotSegments [] := by
      unfold NoDotSegments
      decide
    have both : NoDotSegments ((createPath text c).path.getD []) := by
      simp only [createPath, empty, ne_eq, not_true_eq_false, if_false]
      split
      · exact root
      · exact none
    rw [empty]
    exact ⟨fun _ => none, fun _ => both⟩
  · rw [createPath]
    simp only [ne_eq, empty, not_false_eq_true, if_true, Option.getD_some]
    rfl

/-- A joined URL has the path that its path stage computes. -/
theorem joinComponents_path {junk : Buff} {base c : NsurlComponents} {rel : Bytes}
    (done : joinComponents junk base rel = .ok c) :
    ∃ stage pathed, joinPath base rel (getStringMarkers rel true) stage = .ok pathed ∧
      c.path = pathed.path := by
  obtain ⟨stage, authority, done⟩ := bind_eq_ok done
  obtain ⟨pathed, path, done⟩ := bind_eq_ok done
  cases done
  refine ⟨stage, pathed, path, ?_⟩
  rw [createFragment, joinQuery_frame]

/-- A joined path is free of dot segments exactly when the base path that it takes over is, or
no segment that survives the removal spells one. -/
theorem nsurlJoin_noDots_iff {junk : Buff} {base url : Nsurl} {rel : Bytes}
    (joins : nsurlJoin junk base rel = .ok url) :
    NoDotSegments (url.components.path.getD []) ↔
      KeepsNoDots (base.components.path.getD []) (cstr rel) := by
  obtain ⟨c, joined, built⟩ := bind_eq_ok joins
  obtain ⟨stage, pathed, path, same⟩ := joinComponents_path joined
  rw [build_components built, same, KeepsNoDots]
  unfold joinPath at path
  dsimp only at path ⊢
  split at path
  · rename_i taken
    cases path
    rw [if_pos taken]
  · rename_i own
    rw [if_neg own, mergedText]
    split at path
    · rename_i merged
      split at path
      · cases path
      · rename_i basePath found
        cases path
        rw [if_pos merged, found, Option.getD_some, createPath_noDots_iff,
          splitOn_removeDotSegments]
    · rename_i alone
      cases path
      rw [if_neg alone, List.nil_append, createPath_noDots_iff, splitOn_removeDotSegments]

/-- The reference `../c` joins `http://h/a/b` without a dot segment. -/
theorem nsurlJoin_noDots_parent : ∃ base url,
    nsurlCreate (fun _ => 0) (str "http://h/a/b") = .ok base ∧
      nsurlJoin (fun _ => 0) base (str "../c") = .ok url ∧
      NoDotSegments (url.components.path.getD []) := by
  obtain ⟨base, url, created, joins, path⟩ : ∃ base url,
      nsurlCreate (fun _ => 0) (str "http://h/a/b") = .ok base ∧
        nsurlJoin (fun _ => 0) base (str "../c") = .ok url ∧
        base.components.path = some (str "/a/b") := ⟨_, _, rfl, rfl, rfl⟩
  refine ⟨base, url, created, joins, (nsurlJoin_noDots_iff joins).mpr ?_⟩
  rw [path]
  change ∀ segment ∈ survivors (str "/a/../c"), _
  decide

/-- The reference `%2e%2e/c` joins `http://h/a/b` to the path `/a/../c`. -/
theorem nsurlJoin_escaped_dots : ∃ base url,
    nsurlCreate (fun _ => 0) (str "http://h/a/b") = .ok base ∧
      nsurlJoin (fun _ => 0) base (str "%2e%2e/c") = .ok url ∧
      base.components.host = some (str "h") ∧ base.components.path = some (str "/a/b") ∧
      url.components.path = some (str "/a/../c") ∧
      ¬NoDotSegments (url.components.path.getD []) := by
  refine ⟨_, _, rfl, rfl, rfl, rfl, rfl, fun none => ?_⟩
  exact absurd (none (str "..") (by decide)) (by decide)

end Neosurf.Nsurl
