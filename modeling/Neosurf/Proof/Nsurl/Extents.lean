/-
This file shows that the markers of a URL string stand in order, and that `nsurl_create` and
`nsurl_join` stay within the buffers they allocate.
-/

import Neosurf.Proof.Nsurl.DotSegments
import Neosurf.Proof.Nsurl.Sections

namespace Neosurf.Nsurl

/-- Each marker is at most the next one, and all lie in the string. -/
structure Ordered (m : UrlMarkers) (size : Nat) : Prop where
  schemeEnd : m.start ≤ m.schemeEnd
  authority : m.schemeEnd ≤ m.authority
  atSign : m.authority ≤ m.atSign
  path : m.atSign ≤ m.path
  query : m.path ≤ m.query
  fragment : m.query ≤ m.fragment
  stop : m.fragment ≤ m.stop
  size : m.stop ≤ size

/-- Between sections, the markers stand before the position. -/
structure ScanOrdered (urlS : Bytes) (scan : Scan) : Prop where
  schemeEnd : scan.marker.start ≤ scan.marker.schemeEnd
  authority : scan.marker.schemeEnd ≤ scan.marker.authority
  atSign : scan.marker.authority ≤ scan.marker.atSign
  path : scan.marker.atSign ≤ scan.marker.path
  pos : scan.marker.path ≤ scan.pos
  size : scan.pos ≤ urlS.length
  stop : scan.marker.authority ≤ endOf urlS

/-- A character that is not NUL stands before the end of the string. -/
theorem lt_length_of_byteAt {s : Bytes} {pos : Nat} {c : Byte} (char : byteAt s pos = c)
    (solid : c ≠ 0) : pos < s.length := by
  have shape := congrArg List.length (drop_of_byteAt char solid)
  rw [List.length_drop, List.length_cons, List.length_drop] at shape
  omega

/-- A run stays in the string. -/
theorem run_le (p : Byte → Bool) (s : Bytes) (pos : Nat) : run p (s.drop pos) ≤ s.length - pos := by
  rw [← List.length_drop]
  exact (List.takeWhile_prefix p).length_le

/-- The characters of a run are accepted. -/
theorem byteAt_run (p : Byte → Bool) {s : Bytes} {pos : Nat} (inside : pos < run p s) :
    p (byteAt s pos) = true := by
  have within : pos < s.length :=
    Nat.lt_of_lt_of_le inside (List.takeWhile_prefix p).length_le
  have here := List.getElem?_eq_getElem within
  rw [byteAt, List.getD_eq_getElem?_getD, here]
  exact List.of_lt_length_takeWhile inside here

/-- The scan for a scheme keeps the markers in order. -/
theorem scanOrdered_scanScheme {urlS : Bytes} (text : run isSpace urlS ≠ urlS.length)
    (joining : Bool) :
    ScanOrdered urlS (scanScheme urlS joining (UrlMarkers.first (run isSpace urlS))) := by
  have within : run isSpace urlS ≤ urlS.length := by simpa using run_le isSpace urlS 0
  have inside : run isSpace urlS < urlS.length := by omega
  have first : run isSpace urlS < endOf urlS := by
    refine lt_endOf (List.drop_eq_getElem_cons inside) ?_
    have stops := List.not_of_length_takeWhile (List.getElem?_eq_getElem inside)
    exact stops
  have letters := run_le isSchemeChar urlS (run isSpace urlS + 1)
  rw [scanScheme]
  dsimp only
  split_ifs with letter colon join
  · have colon : byteAt urlS (run isSpace urlS + 1 +
        run isSchemeChar (urlS.drop (run isSpace urlS + 1))) = chr ':' := eq_of_beq colon
    have place := lt_length_of_byteAt colon (by decide)
    have before := lt_endOf (drop_of_byteAt colon (by decide)) (by decide)
    constructor <;> dsimp only [UrlMarkers.startAuthority, UrlMarkers.first] <;> omega
  · constructor <;> dsimp only [UrlMarkers.first] <;> omega
  · constructor <;> dsimp only [UrlMarkers.first] <;> omega
  · constructor <;> dsimp only [UrlMarkers.first] <;> omega

/-- A scheme of http starts an authority. -/
theorem startsAuthority_http {urlS : Bytes} {scan : Scan} (http : scan.isHttp = true)
    (named : scan.marker.schemeEnd ≠ scan.marker.start) : startsAuthority urlS false scan = true := by
  simp [startsAuthority, http, named]

/-- The walk leaves the separator before the position, and moves it only forward. -/
theorem walkAuthority_atSign (text : Bytes) (pos : Nat) (marker : UrlMarkers)
    (start : marker.authority ≤ marker.atSign) (before : marker.atSign ≤ pos)
    (inside : marker.authority ≤ pos) :
    marker.authority ≤ (walkAuthority text pos marker).2.atSign ∧
      (walkAuthority text pos marker).2.atSign ≤ (walkAuthority text pos marker).1 := by
  induction text generalizing pos marker with
  | nil => exact ⟨start, before⟩
  | cons c rest ih =>
      rw [walkAuthority]
      split
      · exact ⟨start, before⟩
      · have kept := (stepAuthority_frame c pos marker).1
        have moved : marker.authority ≤ (stepAuthority c pos marker).atSign ∧
            (stepAuthority c pos marker).atSign ≤ pos := by
          unfold stepAuthority
          split_ifs
          · exact ⟨start, before⟩
          · exact ⟨start, before⟩
          · exact ⟨inside, Nat.le_refl pos⟩
          · exact ⟨start, before⟩
        rw [← kept] at moved inside
        have next := ih (pos + 1) (stepAuthority c pos marker) moved.1 (by omega) (by omega)
        rw [kept] at next
        exact next

/-- The walk over an authority keeps the markers in order. -/
theorem scanOrdered_walk {urlS : Bytes} {marker : UrlMarkers} {pos : Nat}
    (schemeEnd : marker.start ≤ marker.schemeEnd) (authority : marker.schemeEnd ≤ marker.authority)
    (atSign : marker.authority ≤ marker.atSign) (before : marker.atSign ≤ pos)
    (size : pos ≤ urlS.length) (stop : marker.authority ≤ endOf urlS) (isHttp : Bool) :
    ScanOrdered urlS
      { pos := (walkAuthority (urlS.drop pos) pos marker).1, isHttp
        marker := { (walkAuthority (urlS.drop pos) pos marker).2 with
          path := (walkAuthority (urlS.drop pos) pos marker).1 } } := by
  obtain ⟨kept, keptStart, keptEnd, -⟩ := walkAuthority_frame (urlS.drop pos) pos marker
  obtain ⟨low, high⟩ := walkAuthority_atSign (urlS.drop pos) pos marker atSign before (by omega)
  have walked := walkAuthority_pos (urlS.drop pos) pos marker
  have length := run_le (fun c => !endsAuthority c) urlS pos
  generalize walkAuthority (urlS.drop pos) pos marker = result at *
  constructor <;> dsimp only <;> omega

/-- The scan for an authority keeps the markers in order. -/
theorem scanOrdered_scanAuthority {urlS : Bytes} {scan : Scan} (before : ScanOrdered urlS scan)
    (joining : Bool) : ScanOrdered urlS (scanAuthority urlS joining scan) := by
  obtain ⟨schemeEnd, authority, atSign, path, pos, size, stop⟩ := before
  rw [scanAuthority]
  split
  · have skipped : scan.pos ≤ skipSlashes urlS scan := Nat.le_add_right _ _
    have slashes := run_le (· == chr '/') urlS scan.pos
    have short : skipSlashes urlS scan ≤ urlS.length := by
      rw [skipSlashes]
      split <;> omega
    dsimp only
    by_cases slash : byteAt urlS scan.pos = chr '/'
    · -- The authority starts behind the last slash that is skipped.
      have starts : (byteAt urlS scan.pos == chr '/') = true := by simpa using slash
      have shape := drop_of_byteAt slash (by decide)
      have some : 0 < run (· == chr '/') (urlS.drop scan.pos) := by
        rw [shape]
        simp [run]
      have behind : scan.pos < skipSlashes urlS scan ∧
          skipSlashes urlS scan - 1 - scan.pos < run (· == chr '/') (urlS.drop scan.pos) := by
        rw [skipSlashes]
        split <;> omega
      have last : byteAt urlS (skipSlashes urlS scan - 1) = chr '/' := by
        have same := eq_of_beq (byteAt_run (· == chr '/') behind.2)
        rwa [byteAt_drop, Nat.add_sub_of_le (by omega)] at same
      have after := lt_endOf (drop_of_byteAt last (by decide)) (by decide)
      rw [if_pos starts]
      have walked := @scanOrdered_walk urlS (scan.marker.startAuthority (skipSlashes urlS scan))
        (skipSlashes urlS scan) schemeEnd
        (by change scan.marker.schemeEnd ≤ skipSlashes urlS scan; omega) (Nat.le_refl _)
        (Nat.le_refl _) short (by change skipSlashes urlS scan ≤ endOf urlS; omega)
      exact walked _
    · have starts : ¬(byteAt urlS scan.pos == chr '/') = true := by simpa using slash
      rw [if_neg starts]
      exact scanOrdered_walk schemeEnd authority atSign (by omega) short stop _
  · split
    · exact ⟨schemeEnd, authority, atSign, by change scan.marker.atSign ≤ scan.pos; omega,
        Nat.le_refl _, size, stop⟩
    · exact ⟨schemeEnd, authority, atSign, path, pos, size, stop⟩

/-- The end stays in the string. -/
theorem endOf_le (s : Bytes) : endOf s ≤ s.length := Nat.sub_le _ _

/-- The path section stays in the string. -/
theorem scanPath_bounds (urlS : Bytes) (scan : Scan) (size : scan.pos ≤ urlS.length) :
    scan.pos ≤ scanPath urlS scan ∧ scanPath urlS scan ≤ urlS.length := by
  have length := run_le (fun c => !endsPath c) urlS (scan.pos + 1)
  rw [scanPath]
  split
  · rename_i here
    have := here.1
    omega
  · exact ⟨Nat.le_refl _, size⟩

/-- The query section stays in the string. -/
theorem scanQuery_bounds (urlS : Bytes) (pos : Nat) (size : pos ≤ urlS.length) :
    pos ≤ scanQuery urlS pos ∧ scanQuery urlS pos ≤ urlS.length := by
  have length := run_le (· != chr '#') urlS (pos + 1)
  rw [scanQuery]
  split
  · rename_i mark
    have := lt_length_of_byteAt mark (by decide)
    omega
  · exact ⟨Nat.le_refl _, size⟩

/-- The markers of a string stand in order. -/
theorem ordered_getStringMarkers (urlS : Bytes) (joining : Bool) :
    Ordered (getStringMarkers urlS joining) urlS.length := by
  rw [getStringMarkers]
  by_cases blank : run isSpace urlS = urlS.length
  · rw [if_pos blank]
    constructor <;> dsimp only [UrlMarkers.first] <;> omega
  · rw [if_neg blank]
    obtain ⟨schemeEnd, authority, atSign, path, pos, size, stop⟩ :=
      scanOrdered_scanAuthority (scanOrdered_scanScheme blank joining) joining
    generalize scanAuthority urlS joining _ = scan at *
    obtain ⟨pathLow, pathHigh⟩ := scanPath_bounds urlS scan size
    obtain ⟨queryLow, queryHigh⟩ := scanQuery_bounds urlS (scanPath urlS scan) pathHigh
    have length := endOf_le urlS
    dsimp only
    split
    · constructor <;> dsimp only [clamp] <;> omega
    · constructor <;> dsimp only <;> omega

/-- Each character becomes at most three. -/
theorem length_normalise_le (caseless : Bool) (text : Bytes) :
    (normalise caseless text).length ≤ 3 * text.length := by
  have char (c : Byte) : (normaliseChar caseless c).length ≤ 3 := by
    unfold normaliseChar
    split
    · exact Nat.le_add_left _ _
    · split
      · exact Nat.le_add_left _ _
      · exact Nat.le_refl _
  fun_induction normalise caseless text with
  | case1 => exact Nat.le_refl _
  | case2 h l rest failed ih =>
      simp only [List.length_cons] at ih ⊢
      omega
  | case3 h l rest value found reserved ih =>
      simp only [List.length_cons]
      omega
  | case4 h l rest value found free ih =>
      simp only [List.length_cons]
      omega
  | case5 c h l rest other ih =>
      have := char c
      simp only [List.length_cons, List.length_append] at ih ⊢
      omega
  | case6 c rest short ih =>
      have := char c
      simp only [List.length_cons, List.length_append] at ih ⊢
      omega

/-- A section is no longer than the distance between its markers. -/
theorem length_slice_le (urlS : Bytes) (first last : Nat) :
    (slice urlS first last).length ≤ last - first := by
  rw [slice, List.length_drop, List.length_take]
  omega

/-- A section of this length fits into a buffer for three times the length. -/
theorem sectionWritten_le (caseless : Bool) (urlS : Bytes) {first last size : Nat}
    (fits : last - first ≤ size) : sectionWritten caseless (slice urlS first last) ≤ size * 3 + 1 := by
  have norm := length_normalise_le caseless (slice urlS first last)
  have length := length_slice_le urlS first last
  rw [sectionWritten]
  omega

/-- Every section is at most as long as the longest one. -/
theorem le_getLongestSection (m : UrlMarkers) :
    m.schemeEnd - m.start ≤ getLongestSection m ∧ m.atSign - m.authority ≤ getLongestSection m ∧
      m.path - m.atSign ≤ getLongestSection m ∧ m.query - m.path ≤ getLongestSection m ∧
      m.fragment - m.query ≤ getLongestSection m ∧ m.stop - m.fragment ≤ getLongestSection m := by
  simp only [getLongestSection, le_max_iff, le_refl, true_or, or_true, and_self]

/-- The scheme fits. -/
theorem schemeWritten_le (urlS : Bytes) (m : UrlMarkers) :
    schemeWritten urlS m ≤ getLongestSection m * 3 + 1 :=
  sectionWritten_le true urlS (le_getLongestSection m).1

/-- The credentials and the host fit. -/
theorem authorityWritten_le (urlS : Bytes) (m : UrlMarkers) :
    authorityWritten urlS m ≤ getLongestSection m * 3 + 1 := by
  obtain ⟨-, credentials, host, -⟩ := le_getLongestSection m
  have start : m.atSign ≤ hostStart urlS m := by
    rw [hostStart]
    split <;> omega
  exact Nat.max_le.mpr
    ⟨sectionWritten_le false urlS credentials, sectionWritten_le true urlS (by omega)⟩

/-- The query fits. -/
theorem queryWritten_le (urlS : Bytes) (m : UrlMarkers) :
    queryWritten urlS m ≤ getLongestSection m * 3 + 1 := by
  obtain ⟨-, -, -, -, query, -⟩ := le_getLongestSection m
  refine sectionWritten_le false urlS ?_
  split <;> omega

/-- The fragment fits. -/
theorem fragmentWritten_le (urlS : Bytes) (m : UrlMarkers) :
    fragmentWritten urlS m ≤ getLongestSection m * 3 + 1 := by
  obtain ⟨-, -, -, -, -, fragment⟩ := le_getLongestSection m
  refine sectionWritten_le false urlS ?_
  split <;> omega

/-- What is left at the end was held before. -/
theorem length_removeDots_le (rounds : Nat) (path output : Bytes) :
    (removeDots rounds path output).length ≤ removeDotsPeak rounds path output := by
  induction rounds generalizing path output with
  | zero => exact Nat.le_refl _
  | succ rounds ih =>
      have dropped := (List.dropWhile_suffix (· ≠ chr '/') (l := output)).length_le
      rw [removeDots, removeDotsPeak]
      simp only
      split_ifs with empty parent self inner dot up dots
      · exact Nat.le_refl _
      · exact ih _ _
      · exact ih _ _
      · exact ih _ _
      · exact Nat.le_refl _
      · exact (ih _ _).trans (Nat.le_max_right _ _)
      · exact dropped
      · exact ih _ _

/-- A path without dot segments is no longer than before. -/
theorem length_removeDotSegments_le (path : Bytes) :
    (removeDotSegments path).length ≤ path.length := by
  rw [removeDotSegments, List.length_reverse]
  exact (length_removeDots_le _ _ _).trans (removeDotSegmentsWritten_le path)

/-- A path takes at most five times its length: once as it is, once without dot segments
and three times in its normal form. -/
theorem joinPathWritten_le (path : Bytes) : joinPathWritten path ≤ 5 * path.length + 2 := by
  have written := removeDotSegmentsWritten_le path
  have left := length_removeDotSegments_le path
  have norm := length_normalise_le false (removeDotSegments path)
  unfold joinPathWritten sectionWritten
  omega

/-- The directory of a path is no longer than the path. -/
theorem length_directory_le (path : Bytes) : (directory path).length ≤ path.length := by
  rw [directory, List.length_reverse]
  exact (List.dropWhile_suffix _).length_le.trans_eq List.length_reverse

/-- The path stage of a join fits. -/
theorem joinWritten_path_le (base : NsurlComponents) (rel : Bytes) (m : UrlMarkers) :
    (if (joinedParts rel m).basePath then 0
      else if (joinedParts rel m).mergedPath then
        match base.path with
        | none => 0
        | some path => joinPathWritten (directory path ++ slice rel m.path m.query)
      else joinPathWritten (slice rel m.path m.query)) ≤
    (getLongestSection m + if (joinedParts rel m).mergedPath then basePathLength base else 0) * 4 +
      (m.query - m.path + basePathLength base) + 5 := by
  have own := length_slice_le rel m.path m.query
  have longest := (le_getLongestSection m).2.2.2.1
  by_cases taken : (joinedParts rel m).basePath = true
  · rw [if_pos taken]
    exact Nat.zero_le _
  rw [if_neg taken]
  by_cases merged : (joinedParts rel m).mergedPath = true
  · rw [if_pos merged, if_pos merged]
    cases found : base.path with
    | none => exact Nat.zero_le _
    | some path =>
        have written := joinPathWritten_le (directory path ++ slice rel m.path m.query)
        have directory := length_directory_le path
        rw [List.length_append] at written
        simp only [basePathLength, found, Option.getD_some]
        omega
  · have written := joinPathWritten_le (slice rel m.path m.query)
    rw [if_neg merged, if_neg merged]
    omega

/-- No write passes what was allocated, and `nsurl_create` allocates no more than three
times the length of its input and one. -/
theorem writes_fit (base : NsurlComponents) (urlS rel : Bytes) :
    createWritten urlS ≤ createAllocated urlS ∧
      createAllocated urlS ≤ 3 * (cstr urlS).length + 1 ∧
      joinWritten base rel ≤ joinAllocated base rel := by
  refine ⟨?_, ?_, ?_⟩
  · have path : sectionWritten false (slice (cstr urlS) (getStringMarkers (cstr urlS) false).path
        (getStringMarkers (cstr urlS) false).query) ≤
          getLongestSection (getStringMarkers (cstr urlS) false) * 3 + 1 :=
      sectionWritten_le false _ (le_getLongestSection _).2.2.2.1
    exact Nat.max_le.mpr ⟨schemeWritten_le _ _, Nat.max_le.mpr ⟨authorityWritten_le _ _,
      Nat.max_le.mpr ⟨path, Nat.max_le.mpr ⟨queryWritten_le _ _, fragmentWritten_le _ _⟩⟩⟩⟩
  · obtain ⟨schemeEnd, authority, atSign, path, query, fragment, stop, size⟩ :=
      ordered_getStringMarkers (cstr urlS) false
    have short : getLongestSection (getStringMarkers (cstr urlS) false) ≤ (cstr urlS).length := by
      simp only [getLongestSection, max_le_iff]
      refine ⟨?_, ?_, ?_, ?_, ?_, ?_⟩ <;> omega
    rw [createAllocated]
    omega
  · have scheme := schemeWritten_le (cstr rel) (getStringMarkers (cstr rel) true)
    have authority := authorityWritten_le (cstr rel) (getStringMarkers (cstr rel) true)
    have path := joinWritten_path_le base (cstr rel) (getStringMarkers (cstr rel) true)
    have query := queryWritten_le (cstr rel) (getStringMarkers (cstr rel) true)
    have fragment := fragmentWritten_le (cstr rel) (getStringMarkers (cstr rel) true)
    rw [joinWritten, joinAllocated]
    refine Nat.max_le.mpr ⟨?_, Nat.max_le.mpr ⟨?_, Nat.max_le.mpr ⟨path, Nat.max_le.mpr ⟨?_, ?_⟩⟩⟩⟩
    · split <;> omega
    · split <;> omega
    · split <;> omega
    · omega

/-- The reference `x` writes thirty-two bytes behind the base path `/aaaaaaa/`, which is more than
four times its length, the length of the base path and five. -/
theorem joinWritten_passes : ∃ base : NsurlComponents, base.path = some (str "/aaaaaaa/") ∧
    ¬joinWritten base (str "x") ≤ 4 * (str "x").length + basePathLength base + 5 := by
  refine ⟨{ scheme := some (str "http"), host := some (str "h"), path := some (str "/aaaaaaa/")
            schemeType := .http }, rfl, ?_⟩
  decide

end Neosurf.Nsurl
