import Neosurf.Construction.Nsurl.Markers
import Neosurf.ToMathlib.SplitOn

namespace Neosurf.Nsurl

theorem byteAt_drop (s : Bytes) (n pos : Nat) : byteAt (s.drop n) pos = byteAt s (n + pos) := by
  simp [byteAt, List.getD_eq_getElem?_getD]

/-- A character that is not NUL stands in the string. -/
theorem drop_of_byteAt {s : Bytes} {pos : Nat} {c : Byte} (char : byteAt s pos = c) (solid : c ≠ 0) :
    s.drop pos = c :: s.drop (pos + 1) := by
  by_cases inside : pos < s.length
  · rw [List.drop_eq_getElem_cons inside]
    congr 1
    rw [← char, byteAt, List.getD_eq_getElem?_getD, List.getElem?_eq_getElem inside, Option.getD_some]
  · rw [byteAt, List.getD_eq_getElem?_getD, List.getElem?_eq_none (by omega)] at char
    exact absurd char.symm solid

/-- A scan stops where the run of its characters ends. -/
theorem drop_run (p : Byte → Bool) (s : Bytes) : s.drop (run p s) = s.dropWhile p :=
  List.drop_length_takeWhile p s

/-- The end stays within a prefix exactly when only white space follows it. -/
theorem endOf_le_iff {s : Bytes} {pos : Nat} : endOf s ≤ pos ↔ (s.drop pos).all isSpace = true := by
  rw [endOf, run, List.length_sub_takeWhile_reverse_le_iff, List.all_eq_true]

/-- One step of the authority keeps where the authority starts, and the scheme. -/
theorem stepAuthority_frame (c : Byte) (pos : Nat) (marker : UrlMarkers) :
    (stepAuthority c pos marker).authority = marker.authority ∧
      (stepAuthority c pos marker).start = marker.start ∧
      (stepAuthority c pos marker).schemeEnd = marker.schemeEnd ∧
      (stepAuthority c pos marker).schemeType = marker.schemeType := by
  unfold stepAuthority
  split
  · exact ⟨rfl, rfl, rfl, rfl⟩
  · split
    · exact ⟨rfl, rfl, rfl, rfl⟩
    · split <;> exact ⟨rfl, rfl, rfl, rfl⟩

/-- The walk keeps where the authority starts, and the scheme. -/
theorem walkAuthority_frame (text : Bytes) (pos : Nat) (marker : UrlMarkers) :
    (walkAuthority text pos marker).2.authority = marker.authority ∧
      (walkAuthority text pos marker).2.start = marker.start ∧
      (walkAuthority text pos marker).2.schemeEnd = marker.schemeEnd ∧
      (walkAuthority text pos marker).2.schemeType = marker.schemeType := by
  induction text generalizing pos marker with
  | nil => exact ⟨rfl, rfl, rfl, rfl⟩
  | cons c rest ih =>
      rw [walkAuthority]
      split
      · exact ⟨rfl, rfl, rfl, rfl⟩
      · obtain ⟨authority, start, schemeEnd, schemeType⟩ :=
          ih (pos + 1) (stepAuthority c pos marker)
        obtain ⟨first, second, third, fourth⟩ := stepAuthority_frame c pos marker
        exact ⟨authority.trans first, start.trans second, schemeEnd.trans third,
          schemeType.trans fourth⟩

/-- The walk stops at the first character that ends an authority. -/
theorem walkAuthority_pos (text : Bytes) (pos : Nat) (marker : UrlMarkers) :
    (walkAuthority text pos marker).1 = pos + run (fun c => !endsAuthority c) text := by
  induction text generalizing pos marker with
  | nil => rfl
  | cons c rest ih =>
      rw [walkAuthority]
      cases ends : endsAuthority c with
      | true => simp [run, ends]
      | false =>
          simp only [Bool.false_eq_true, if_false]
          rw [ih, run, run, List.takeWhile_cons]
          simp only [ends, Bool.not_false, if_true, List.length_cons]
          omega

/-- The scan for a scheme stops at this text. -/
def afterScheme : Bytes → Bytes
  | [] => []
  | c :: rest => if isAlpha c then rest.dropWhile isSchemeChar else c :: rest

/-- A scheme is a letter and scheme characters before a colon. -/
def hasScheme (text : Bytes) : Bool :=
  isAlpha (byteAt text 0) && byteAt (afterScheme text) 0 == chr ':'

/-- A reference without scheme that starts with a letter reads an authority after the
two slashes that follow its scheme characters. -/
def leaksAuthority (text : Bytes) : Bool :=
  isAlpha (byteAt text 0) &&
    match afterScheme text with
    | first :: second :: c :: rest =>
        first == chr '/' && second == chr '/' && !endsAuthority c && !(c :: rest).all isSpace
    | _ => false

theorem afterScheme_of_not_isAlpha {text : Bytes} (other : ¬isAlpha (byteAt text 0) = true) :
    afterScheme text = text := by
  cases text with
  | nil => rfl
  | cons c rest => exact if_neg other

/-- Only two slashes leak an authority. -/
theorem leaksAuthority_absent {text : Bytes} (absent : (byteAt (afterScheme text) 0 == chr '/' &&
    byteAt (afterScheme text) 1 == chr '/') = false) : leaksAuthority text = false := by
  unfold leaksAuthority
  split
  · rename_i first second c rest shape
    rw [shape] at absent
    change (first == chr '/' && second == chr '/') = false at absent
    rw [absent]
    simp
  · simp

/-- After two slashes, the first character tells whether an authority leaks. -/
theorem leaksAuthority_slashes {text rest : Bytes} (letter : isAlpha (byteAt text 0) = true)
    (slashes : afterScheme text = chr '/' :: chr '/' :: rest) :
    leaksAuthority text = (!(run (fun c => !endsAuthority c) rest == 0) && !rest.all isSpace) := by
  rw [leaksAuthority, letter, slashes]
  cases rest with
  | nil => rfl
  | cons c rest => cases ends : endsAuthority c <;> simp [run, ends]

/-- Without a scheme, the scan keeps the markers and stops after the scheme characters. -/
theorem scanScheme_reference (urlS : Bytes) (marker : UrlMarkers)
    (absent : hasScheme (urlS.drop marker.start) = false) :
    ∃ pos, scanScheme urlS true marker = { pos, isHttp := false, marker } ∧
      urlS.drop pos = afterScheme (urlS.drop marker.start) := by
  have first : byteAt urlS marker.start = byteAt (urlS.drop marker.start) 0 := by
    rw [byteAt_drop, Nat.add_zero]
  cases text : urlS.drop marker.start with
  | nil =>
      refine ⟨marker.start, ?_, text⟩
      rw [scanScheme, first, text]
      rfl
  | cons c rest =>
      rw [text] at first absent
      by_cases letter : isAlpha c
      · have tail : urlS.drop (marker.start + 1) = rest := by
          rw [← List.drop_drop, text, List.drop_one, List.tail_cons]
        have after : urlS.drop (marker.start + 1 + run isSchemeChar rest) =
            rest.dropWhile isSchemeChar := by
          rw [← List.drop_drop, tail, drop_run]
        have stops : byteAt urlS (marker.start + 1 + run isSchemeChar rest) ≠ chr ':' := by
          rw [← Nat.add_zero (_ + _), ← byteAt_drop, after]
          intro colon
          simp [hasScheme, afterScheme, byteAt, letter] at absent
          exact absent (by simpa [byteAt] using colon)
        refine ⟨marker.start + 1 + run isSchemeChar rest, ?_, ?_⟩
        · rw [scanScheme, first, tail]
          simp [byteAt, letter]
          simpa [byteAt] using stops
        · rw [after, afterScheme, if_pos letter]
      · refine ⟨marker.start, ?_, ?_⟩
        · rw [scanScheme, first]
          simp [byteAt, letter]
        · rw [text, afterScheme, if_neg letter]

/-- Without two slashes, the scan of a reference finds no authority. -/
theorem scanAuthority_absent {urlS : Bytes} {scan : Scan} (notHttp : scan.isHttp = false)
    (other : scan.marker.schemeType = .other)
    (absent : (byteAt urlS scan.pos == chr '/' && byteAt urlS (scan.pos + 1) == chr '/') = false) :
    scanAuthority urlS true scan = scan := by
  have stays : startsAuthority urlS true scan = false := by
    rw [startsAuthority, absent, notHttp, other]
    rfl
  rw [scanAuthority, stays]
  simp

/-- Two slashes start an authority right after them, which lasts up to its end character. -/
theorem scanAuthority_slashes {urlS rest : Bytes} (scan : Scan) (notHttp : scan.isHttp = false)
    (slashes : urlS.drop scan.pos = chr '/' :: chr '/' :: rest) :
    let marker := (scanAuthority urlS true scan).marker
    marker.authority = scan.pos + 2 ∧ marker.start = scan.marker.start ∧
      marker.schemeEnd = scan.marker.schemeEnd ∧
      marker.path = scan.pos + 2 + run (fun c => !endsAuthority c) rest := by
  intro marker
  have first : byteAt urlS scan.pos = chr '/' := by
    rw [← Nat.add_zero scan.pos, ← byteAt_drop, slashes]
    rfl
  have second : byteAt urlS (scan.pos + 1) = chr '/' := by
    rw [← byteAt_drop, slashes]
    rfl
  have starts : startsAuthority urlS true scan = true := by
    simp [startsAuthority, first, second]
  have skipped : skipSlashes urlS scan = scan.pos + 2 := by
    rw [skipSlashes, notHttp, slashes]
    simp [run]
  have tail : urlS.drop (scan.pos + 2) = rest := by
    rw [← List.drop_drop, slashes]
    rfl
  have found : marker = { (walkAuthority rest (scan.pos + 2)
      (scan.marker.startAuthority (scan.pos + 2))).2 with
        path := (walkAuthority rest (scan.pos + 2)
          (scan.marker.startAuthority (scan.pos + 2))).1 } := by
    change (scanAuthority urlS true scan).marker = _
    rw [scanAuthority, if_pos starts, skipped, first]
    dsimp only
    rw [tail]
    rfl
  obtain ⟨authority, start, schemeEnd, -⟩ :=
    walkAuthority_frame rest (scan.pos + 2) (scan.marker.startAuthority (scan.pos + 2))
  rw [found]
  exact ⟨authority, start, schemeEnd, walkAuthority_pos _ _ _⟩

/-- The markers of a string with text keep the scan's, but for a clamp of the path. -/
theorem getStringMarkers_scan {urlS : Bytes} (text : run isSpace urlS ≠ urlS.length)
    (joining : Bool) :
    let scan := scanAuthority urlS joining
      (scanScheme urlS joining (UrlMarkers.first (run isSpace urlS)))
    let m := getStringMarkers urlS joining
    m.start = scan.marker.start ∧ m.schemeEnd = scan.marker.schemeEnd ∧
      m.authority = scan.marker.authority ∧
      m.path = if endOf urlS < urlS.length then min scan.marker.path (endOf urlS)
        else scan.marker.path := by
  intro scan m
  have found : m = getStringMarkers urlS joining := rfl
  rw [getStringMarkers, if_neg text] at found
  dsimp only at found
  split at found <;> rw [found] <;> refine ⟨rfl, rfl, rfl, ?_⟩
  · rw [if_pos (by assumption)]
    rfl
  · rw [if_neg (by assumption)]

/-- The end of a text lies behind every character that is not white space. -/
theorem lt_endOf {s rest : Bytes} {c : Byte} {pos : Nat} (char : s.drop pos = c :: rest)
    (solid : isSpace c = false) : pos < endOf s := by
  rw [← Nat.not_le, endOf_le_iff, char]
  simp [solid]

/-- A reference without scheme and slash reads an authority exactly when it leaks one. -/
theorem getStringMarkers_reference {rel : Bytes}
    (noScheme : hasScheme (rel.dropWhile isSpace) = false)
    (noSlash : byteAt (rel.dropWhile isSpace) 0 ≠ chr '/') :
    let m := getStringMarkers rel true
    m.schemeEnd = m.start ∧ (m.path == m.authority) = !leaksAuthority (rel.dropWhile isSpace) := by
  intro m
  have text := drop_run isSpace rel
  by_cases blank : run isSpace rel = rel.length
  · have same : m = { UrlMarkers.first (run isSpace rel) with
        query := run isSpace rel, fragment := run isSpace rel, stop := run isSpace rel } := by
      change getStringMarkers rel true = _
      rw [getStringMarkers, if_pos blank]
    rw [blank, List.drop_length] at text
    rw [same, ← text]
    exact ⟨rfl, by simp [UrlMarkers.first, leaksAuthority, byteAt, afterScheme]⟩
  obtain ⟨start, schemeEnd, authority, path⟩ := getStringMarkers_scan blank true
  obtain ⟨pos, scanned, after⟩ :=
    scanScheme_reference rel (UrlMarkers.first (run isSpace rel))
      (by rw [← text] at noScheme; exact noScheme)
  rw [scanned] at start schemeEnd authority path
  change rel.drop pos = afterScheme (rel.drop (run isSpace rel)) at after
  rw [text] at after
  have inside : run isSpace rel < endOf rel := by
    cases shape : rel.dropWhile isSpace with
    | nil =>
        have short := List.length_eq_zero_iff.mpr (text.trans shape)
        have within := (List.takeWhile_sublist (l := rel) isSpace).length_le
        rw [List.length_drop] at short
        change run isSpace rel ≤ _ at within
        omega
    | cons c rest =>
        refine lt_endOf (text.trans shape) ?_
        simpa [shape] using List.head_dropWhile_not isSpace (l := rel) (by rw [shape]; simp)
  by_cases slashes : byteAt rel pos = chr '/' ∧ byteAt rel (pos + 1) = chr '/'
  · have shape : rel.drop pos = chr '/' :: chr '/' :: rel.drop (pos + 2) := by
      rw [drop_of_byteAt slashes.1 (by decide), drop_of_byteAt slashes.2 (by decide)]
    obtain ⟨first, second, third, fourth⟩ := scanAuthority_slashes
      { pos, isHttp := false, marker := UrlMarkers.first (run isSpace rel) } rfl shape
    rw [second] at start
    rw [third] at schemeEnd
    rw [first] at authority
    rw [fourth] at path
    refine ⟨by rw [schemeEnd, start]; rfl, ?_⟩
    have letter : isAlpha (byteAt (rel.dropWhile isSpace) 0) = true := by
      by_contra other
      rw [afterScheme_of_not_isAlpha other] at after
      rw [← after, shape] at noSlash
      exact noSlash rfl
    have two := lt_endOf (drop_of_byteAt slashes.2 (by decide)) rfl
    have blankRest := @endOf_le_iff rel (pos + 2)
    have within : run (fun c => !endsAuthority c) (rel.drop (pos + 2)) ≤
        rel.length - (pos + 2) := by
      rw [← List.length_drop]
      exact (List.takeWhile_sublist _).length_le
    change m.authority = pos + 2 at authority
    change m.path = if endOf rel < rel.length then
      min (pos + 2 + run (fun c => !endsAuthority c) (rel.drop (pos + 2))) (endOf rel)
      else pos + 2 + run (fun c => !endsAuthority c) (rel.drop (pos + 2)) at path
    rw [leaksAuthority_slashes letter (after.symm.trans shape), authority, path, Bool.eq_iff_iff]
    simp only [beq_iff_eq, Bool.not_eq_true', Bool.and_eq_false_iff, Bool.not_eq_false']
    rw [← blankRest]
    generalize run _ (rel.drop (pos + 2)) = count at within ⊢
    split <;> omega
  · have absent : (byteAt rel pos == chr '/' && byteAt rel (pos + 1) == chr '/') = false := by
      simpa using slashes
    rw [scanAuthority_absent rfl rfl absent] at start schemeEnd authority path
    refine ⟨by rw [schemeEnd, start]; rfl, ?_⟩
    have noLeak : leaksAuthority (rel.dropWhile isSpace) = false :=
      leaksAuthority_absent (by rw [← after, byteAt_drop, byteAt_drop]; exact absent)
    have kept : m.path = m.authority := by
      rw [authority]
      refine path.trans ?_
      change (if _ then min (run isSpace rel) (endOf rel) else run isSpace rel) = run isSpace rel
      rw [Nat.min_eq_left inside.le, ite_self]
    simp [noLeak, kept]

end Neosurf.Nsurl
