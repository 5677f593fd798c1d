/-
This file finds the markers of an authority in its text.
-/

import Neosurf.Proof.Nsurl.Extents
import Neosurf.ToMathlib.Places

namespace Neosurf.Nsurl

/-- A mailto URL has no colon of its own in its authority. -/
def colonPlace (schemeType : SchemeType) (place : Nat) : Nat :=
  if schemeType = .mailto then 0 else place

/-- The markers of an authority stand at these places of its text. -/
structure Placed (text : Bytes) (m : UrlMarkers) : Prop where
  atSign : m.atSign = m.authority + text.firstPlace (chr '@')
  colonFirst : m.colonFirst = m.authority + colonPlace m.schemeType (text.firstPlace (chr ':'))
  colonLast : m.colonLast = m.authority + colonPlace m.schemeType (text.lastPlace (chr ':'))

/-- The walk continues where a text without an end of the authority leaves it. -/
theorem walkAuthority_inner {text : Bytes} (inner : text.all (fun c => !endsAuthority c) = true)
    (rest : Bytes) (pos : Nat) (marker : UrlMarkers) :
    walkAuthority (text ++ rest) pos marker =
      walkAuthority rest (pos + text.length) (walkAuthority text pos marker).2 := by
  induction text generalizing pos marker with
  | nil => rfl
  | cons c text ih =>
      rw [List.all_cons, Bool.and_eq_true] at inner
      have stays : endsAuthority c = false := by simpa using inner.1
      rw [List.cons_append, walkAuthority, walkAuthority, stays]
      simp only [Bool.false_eq_true, if_false, List.length_cons]
      rw [ih inner.2, Nat.add_right_comm, Nat.add_assoc]

/-- The walk looks at nothing behind the authority. -/
theorem walkAuthority_takeWhile (text : Bytes) (pos : Nat) (marker : UrlMarkers) :
    (walkAuthority text pos marker).2 =
      (walkAuthority (text.takeWhile fun c => !endsAuthority c) pos marker).2 := by
  have divided := List.takeWhile_append_dropWhile (p := fun c => !endsAuthority c) (l := text)
  have stops := List.head?_dropWhile_not (fun c => !endsAuthority c) text
  conv_lhs => rw [← divided]
  rw [walkAuthority_inner List.all_takeWhile]
  cases shape : text.dropWhile fun c => !endsAuthority c with
  | nil => rfl
  | cons c rest =>
      rw [shape] at stops
      have ends : endsAuthority c = true := by simpa using stops
      rw [walkAuthority, ends]
      rfl

/-- All markers of an authority stand at its start. -/
structure Unwalked (m : UrlMarkers) : Prop where
  colonFirst : m.colonFirst = m.authority
  atSign : m.atSign = m.authority
  colonLast : m.colonLast = m.authority

theorem unwalked_startAuthority (m : UrlMarkers) (pos : Nat) : Unwalked (m.startAuthority pos) :=
  ⟨rfl, rfl, rfl⟩

/-- Another character moves no place. -/
theorem firstPlace_append_ne {c d : Byte} (other : d ≠ c) (text : Bytes) :
    (text ++ [d]).firstPlace c = text.firstPlace c :=
  List.firstPlace_append_of_notMem (by simpa using other.symm) text

theorem lastPlace_append_ne {c d : Byte} (other : d ≠ c) (text : Bytes) :
    (text ++ [d]).lastPlace c = text.lastPlace c :=
  List.lastPlace_append_of_notMem (by simpa using other.symm) text

/-- One step of the walk finds the places in one more character. -/
theorem placed_stepAuthority {text : Bytes} {m : UrlMarkers} (placed : Placed text m) (c : Byte) :
    Placed (text ++ [c]) (stepAuthority c (m.authority + text.length) m) := by
  obtain ⟨atSign, colonFirst, colonLast⟩ := placed
  unfold stepAuthority
  by_cases colon : m.schemeType ≠ .mailto ∧ c = chr ':'
  · obtain ⟨type, rfl⟩ := colon
    have mark : chr ':' ≠ chr '@' := by decide
    rw [colonPlace, if_neg type] at colonFirst colonLast
    by_cases first : m.colonFirst = m.authority
    · have none : text.firstPlace (chr ':') = 0 := by omega
      rw [if_pos ⟨type, rfl, first⟩]
      constructor
      · rw [firstPlace_append_ne mark, ← atSign]
      · change m.authority + text.length = _
        rw [colonPlace, if_neg type, List.firstPlace_append_singleton, none,
          if_neg (fun some => some rfl), if_pos rfl]
      · change m.colonLast = _
        rw [colonPlace, if_neg type, List.lastPlace_append_singleton, none,
          if_neg (fun both => both.2 rfl), colonLast]
    · have some : text.firstPlace (chr ':') ≠ 0 := by omega
      rw [if_neg (fun all => first all.2.2), if_pos ⟨type, rfl, first⟩]
      constructor
      · rw [firstPlace_append_ne mark, ← atSign]
      · change m.colonFirst = _
        rw [colonPlace, if_neg type, List.firstPlace_append_singleton, if_pos some, colonFirst]
      · change m.authority + text.length = _
        rw [colonPlace, if_neg type, List.lastPlace_append_singleton, if_pos ⟨rfl, some⟩]
  · have stays : colonPlace m.schemeType ((text ++ [c]).firstPlace (chr ':')) =
          colonPlace m.schemeType (text.firstPlace (chr ':')) ∧
        colonPlace m.schemeType ((text ++ [c]).lastPlace (chr ':')) =
          colonPlace m.schemeType (text.lastPlace (chr ':')) := by
      by_cases type : m.schemeType = .mailto
      · simp [colonPlace, type]
      · have other : c ≠ chr ':' := fun same => colon ⟨type, same⟩
        rw [firstPlace_append_ne other, lastPlace_append_ne other]
        exact ⟨rfl, rfl⟩
    rw [if_neg (fun all => colon ⟨all.1, all.2.1⟩), if_neg (fun all => colon ⟨all.1, all.2.1⟩)]
    by_cases mark : c = chr '@'
    · subst mark
      by_cases first : m.atSign = m.authority
      · have none : text.firstPlace (chr '@') = 0 := by omega
        rw [if_pos ⟨rfl, first⟩]
        constructor
        · change m.authority + text.length = _
          rw [List.firstPlace_append_singleton, none, if_neg (fun some => some rfl), if_pos rfl]
        · exact colonFirst.trans (by rw [stays.1])
        · exact colonLast.trans (by rw [stays.2])
      · have some : text.firstPlace (chr '@') ≠ 0 := by omega
        rw [if_neg (fun both => first both.2)]
        constructor
        · rw [List.firstPlace_append_singleton, if_pos some, atSign]
        · rw [stays.1, colonFirst]
        · rw [stays.2, colonLast]
    · rw [if_neg (fun both => mark both.1)]
      constructor
      · rw [firstPlace_append_ne mark, atSign]
      · rw [stays.1, colonFirst]
      · rw [stays.2, colonLast]

/-- The walk over an authority places its markers. -/
theorem placed_walkAuthority {m : UrlMarkers} (unwalked : Unwalked m) {text : Bytes}
    (inner : text.all (fun c => !endsAuthority c) = true) :
    Placed text (walkAuthority text m.authority m).2 := by
  induction text using List.reverseRecOn with
  | nil =>
      obtain ⟨colonFirst, atSign, colonLast⟩ := unwalked
      have zero : colonPlace m.schemeType 0 = 0 := by simp [colonPlace]
      exact ⟨atSign, colonFirst.trans (by rw [List.firstPlace]; simp [walkAuthority, zero]),
        colonLast.trans (by rw [List.lastPlace]; simp [walkAuthority, zero])⟩
  | append_singleton text c ih =>
      rw [List.all_append, Bool.and_eq_true] at inner
      have stays : endsAuthority c = false := by simpa using inner.2
      have authority := (walkAuthority_frame text m.authority m).1
      have next := placed_stepAuthority (ih inner.1) c
      rw [authority] at next
      rw [walkAuthority_inner inner.1, walkAuthority, stays]
      exact next

/-- Without either character there is no place. -/
theorem placed_of_notMem {text : Bytes} {m : UrlMarkers} (unwalked : Unwalked m)
    (mark : chr '@' ∉ text) (colon : chr ':' ∉ text) : Placed text m := by
  obtain ⟨colonFirst, atSign, colonLast⟩ := unwalked
  have noMark : text.firstPlace (chr '@') = 0 :=
    List.firstPlace_eq_zero_iff.mpr fun inside => mark (List.mem_of_mem_tail inside)
  have noColon : text.firstPlace (chr ':') = 0 :=
    List.firstPlace_eq_zero_iff.mpr fun inside => colon (List.mem_of_mem_tail inside)
  have noLast : text.lastPlace (chr ':') = 0 := by
    rw [List.lastPlace, List.count_eq_zero.mpr fun inside => colon (List.mem_of_mem_tail inside),
      if_neg (by omega)]
  have zero : colonPlace m.schemeType 0 = 0 := by simp [colonPlace]
  exact ⟨by rw [noMark, atSign]; rfl, by rw [noColon, zero, colonFirst]; rfl,
    by rw [noLast, zero, colonLast]; rfl⟩

/-- What the scan for a scheme leaves for the authority. -/
structure Begun (urlS : Bytes) (scan : Scan) : Prop where
  unwalked : Unwalked scan.marker
  path : scan.marker.path = scan.marker.authority
  found : scan.marker.schemeEnd ≠ scan.marker.start ∨ scan.marker.schemeType = .mailto →
    scan.marker.authority = scan.pos
  word : scan.marker.schemeEnd = scan.marker.start →
    chr '@' ∉ slice urlS scan.marker.authority scan.pos ∧
      chr ':' ∉ slice urlS scan.marker.authority scan.pos

theorem begun_scanScheme (urlS : Bytes) (joining : Bool) :
    Begun urlS (scanScheme urlS joining (UrlMarkers.first (run isSpace urlS))) := by
  have fresh (type : SchemeType) :
      Unwalked { UrlMarkers.first (run isSpace urlS) with schemeType := type } := ⟨rfl, rfl, rfl⟩
  have plain (c : Byte) : isAlpha c = true ∨ isSchemeChar c = true → c ≠ chr '@' ∧ c ≠ chr ':' := by
    revert c
    apply byte_cases
    decide
  have word (letter : isAlpha (byteAt urlS (run isSpace urlS)) = true) (c : Byte)
      (inside : c ∈ slice urlS (run isSpace urlS) (run isSpace urlS + 1 +
        run isSchemeChar (urlS.drop (run isSpace urlS + 1)))) : c ≠ chr '@' ∧ c ≠ chr ':' := by
    have here := drop_of_byteAt (s := urlS) rfl (by
      intro nul
      rw [nul] at letter
      exact absurd letter (by decide))
    rw [slice_run isSchemeChar here, List.mem_cons] at inside
    rcases inside with rfl | inside
    · exact plain _ (.inl letter)
    · exact plain c (.inr (List.mem_takeWhile_imp inside))
  rw [scanScheme]
  dsimp only
  split_ifs with letter colon join
  · refine ⟨unwalked_startAuthority _ _, rfl, fun _ => rfl, fun same => ?_⟩
    change run isSpace urlS + 1 + _ = run isSpace urlS at same
    omega
  · refine ⟨fresh _, rfl, ?_, fun _ => ⟨fun inside => (word letter _ inside).1 rfl,
      fun inside => (word letter _ inside).2 rfl⟩⟩
    rintro (named | mailto)
    · exact absurd rfl named
    · cases mailto
  · refine ⟨fresh _, rfl, ?_, fun _ => ⟨fun inside => (word letter _ inside).1 rfl,
      fun inside => (word letter _ inside).2 rfl⟩⟩
    rintro (named | mailto)
    · exact absurd rfl named
    · cases mailto
  · have empty : slice urlS (run isSpace urlS) (run isSpace urlS) = [] :=
      slice_eq_nil (Nat.le_refl _)
    refine ⟨fresh _, rfl, ?_, fun _ => ?_⟩
    · rintro (named | mailto)
      · exact absurd rfl named
      · cases mailto
    · change _ ∉ slice urlS (run isSpace urlS) (run isSpace urlS) ∧
        _ ∉ slice urlS (run isSpace urlS) (run isSpace urlS)
      rw [empty]
      exact ⟨List.not_mem_nil, List.not_mem_nil⟩

/-- A run is the slice that it walks over. -/
theorem slice_takeWhile (p : Byte → Bool) (urlS : Bytes) (pos : Nat) :
    slice urlS pos (pos + run p (urlS.drop pos)) = (urlS.drop pos).takeWhile p := by
  rw [slice, List.drop_take, Nat.add_sub_cancel_left, run,
    ← List.prefix_iff_eq_take.mp (List.takeWhile_prefix p)]

/-- The scan for an authority places its markers. -/
theorem placed_scanAuthority {urlS : Bytes} {scan : Scan} (begun : Begun urlS scan)
    (joining : Bool) :
    Placed (slice urlS (scanAuthority urlS joining scan).marker.authority
      (scanAuthority urlS joining scan).marker.path) (scanAuthority urlS joining scan).marker := by
  obtain ⟨unwalked, path, found, word⟩ := begun
  rw [scanAuthority]
  split
  · rename_i starts
    dsimp only
    generalize marked : (if byteAt urlS scan.pos == chr '/' then
      scan.marker.startAuthority (skipSlashes urlS scan) else scan.marker) = m
    have start : Unwalked m ∧ m.authority = skipSlashes urlS scan := by
      by_cases slash : byteAt urlS scan.pos = chr '/'
      · rw [if_pos (by simpa using slash)] at marked
        rw [← marked]
        exact ⟨unwalked_startAuthority _ _, rfl⟩
      · rw [if_neg (by simpa using slash)] at marked
        subst marked
        have here : (byteAt urlS scan.pos == chr '/') = false := by simpa using slash
        have none : skipSlashes urlS scan = scan.pos := by
          have stops : run (· == chr '/') (urlS.drop scan.pos) = 0 := by
            refine Nat.eq_zero_of_not_pos fun some => slash ?_
            have first := eq_of_beq (byteAt_run (· == chr '/') some)
            rwa [byteAt_drop, Nat.add_zero] at first
          rw [skipSlashes, stops]
          split <;> rfl
        refine ⟨unwalked, ?_⟩
        rw [none]
        refine found ?_
        rw [startsAuthority, here] at starts
        simp only [Bool.false_and, Bool.and_false, Bool.false_or, Bool.or_eq_true,
          Bool.and_eq_true, bne_iff_ne, beq_iff_eq] at starts
        rcases starts with ⟨-, -, named⟩ | mailto
        · exact .inl named
        · exact .inr mailto
    have authority := (walkAuthority_frame (urlS.drop (skipSlashes urlS scan))
      (skipSlashes urlS scan) m).1
    have inner : ((urlS.drop (skipSlashes urlS scan)).takeWhile fun c =>
        !endsAuthority c).all (fun c => !endsAuthority c) = true := List.all_takeWhile
    have placed := placed_walkAuthority start.1 inner
    rw [start.2, ← walkAuthority_takeWhile] at placed
    have text : slice urlS (walkAuthority (urlS.drop (skipSlashes urlS scan))
        (skipSlashes urlS scan) m).2.authority (walkAuthority (urlS.drop (skipSlashes urlS scan))
        (skipSlashes urlS scan) m).1 =
          (urlS.drop (skipSlashes urlS scan)).takeWhile fun c => !endsAuthority c := by
      rw [authority, start.2, walkAuthority_pos, slice_takeWhile]
    rw [← text] at placed
    exact ⟨placed.atSign, placed.colonFirst, placed.colonLast⟩
  · rename_i idle
    split
    · rename_i rest
      obtain ⟨-, own, http⟩ := rest
      have unnamed : scan.marker.schemeEnd = scan.marker.start := by
        by_contra named
        refine idle ?_
        rw [own]
        exact startsAuthority_http http named
      obtain ⟨mark, colon⟩ := word unnamed
      exact placed_of_notMem ⟨unwalked.colonFirst, unwalked.atSign, unwalked.colonLast⟩ mark colon
    · have empty : slice urlS scan.marker.authority scan.marker.path = [] :=
        slice_eq_nil path.le
      rw [empty]
      exact placed_of_notMem unwalked List.not_mem_nil List.not_mem_nil

/-- White space at the end of a text moves no place. -/
theorem places_append_blank {blank : Bytes} (spaces : blank.all isSpace = true) (text : Bytes) :
    (text ++ blank).firstPlace (chr '@') = text.firstPlace (chr '@') ∧
      (text ++ blank).firstPlace (chr ':') = text.firstPlace (chr ':') ∧
      (text ++ blank).lastPlace (chr ':') = text.lastPlace (chr ':') := by
  have absent {c : Byte} (solid : isSpace c = false) : c ∉ blank := by
    intro inside
    rw [List.all_eq_true.mp spaces c inside] at solid
    cases solid
  exact ⟨List.firstPlace_append_of_notMem (absent (by decide)) text,
    List.firstPlace_append_of_notMem (absent (by decide)) text,
    List.lastPlace_append_of_notMem (absent (by decide)) text⟩

/-- A shorter slice is the front of a longer one. -/
theorem slice_eq_take {urlS : Bytes} {first last stop : Nat} (within : last ≤ stop) :
    slice urlS first last = (slice urlS first stop).take (last - first) := by
  rw [slice, slice, List.drop_take, List.drop_take, List.take_take, Nat.min_eq_left (by omega)]

/-- A slice divides at every place in it. -/
theorem slice_append {urlS : Bytes} {first middle last : Nat} (before : first ≤ middle)
    (within : middle ≤ last) :
    slice urlS first last = slice urlS first middle ++ slice urlS middle last := by
  have size : middle - first + (last - middle) = last - first := by omega
  have place : first + (middle - first) = middle := by omega
  rw [slice, slice, slice, List.drop_take, List.drop_take, List.drop_take, ← size, List.take_add,
    List.drop_drop, place]

/-- Only white space stands between the end of a string and a marker behind it. -/
theorem slice_endOf {urlS : Bytes} {first : Nat} (before : first ≤ endOf urlS) (last : Nat) : ∃ blank : Bytes, blank.all isSpace = true ∧
      slice urlS first last = slice urlS first (min last (endOf urlS)) ++ blank := by
  rcases Nat.le_total last (endOf urlS) with short | long
  · exact ⟨[], rfl, by rw [Nat.min_eq_left short, List.append_nil]⟩
  · refine ⟨slice urlS (endOf urlS) last, ?_, ?_⟩
    · have spaces := endOf_le_iff.mp (Nat.le_refl (endOf urlS))
      rw [List.all_eq_true] at spaces ⊢
      rw [slice, List.drop_take]
      exact fun c inside => spaces c (List.mem_of_mem_take inside)
    · rw [Nat.min_eq_right long]
      exact slice_append before long

/-- The markers of a string stand at their places in its authority. -/
theorem placed_getStringMarkers (urlS : Bytes) (joining : Bool) :
    Placed (slice urlS (getStringMarkers urlS joining).authority
      (getStringMarkers urlS joining).path) (getStringMarkers urlS joining) := by
  by_cases blank : run isSpace urlS = urlS.length
  · rw [getStringMarkers, if_pos blank]
    have empty : slice urlS (run isSpace urlS) (run isSpace urlS) = [] :=
      slice_eq_nil (Nat.le_refl _)
    change Placed (slice urlS (run isSpace urlS) (run isSpace urlS)) _
    rw [empty]
    exact placed_of_notMem ⟨rfl, rfl, rfl⟩ List.not_mem_nil List.not_mem_nil
  · have placed := placed_scanAuthority (begun_scanScheme urlS joining) joining
    have ordered := scanOrdered_scanAuthority (scanOrdered_scanScheme blank joining) joining
    rw [getStringMarkers, if_neg blank]
    generalize scanAuthority urlS joining _ = scan at placed ordered
    obtain ⟨atSign, colonFirst, colonLast⟩ := placed
    dsimp only
    split
    · obtain ⟨blank, spaces, divided⟩ := slice_endOf ordered.stop scan.marker.path
      obtain ⟨mark, first, last⟩ := places_append_blank spaces
        (slice urlS scan.marker.authority (min scan.marker.path (endOf urlS)))
      rw [← divided] at mark first last
      have size : (slice urlS scan.marker.authority (min scan.marker.path (endOf urlS))).length ≤
          endOf urlS - scan.marker.authority := by
        rw [slice, List.length_drop, List.length_take]
        omega
      have markLe := List.firstPlace_le (chr '@')
        (slice urlS scan.marker.authority (min scan.marker.path (endOf urlS)))
      have lastLe := List.lastPlace_le (chr ':')
        (slice urlS scan.marker.authority (min scan.marker.path (endOf urlS)))
      have stop := ordered.stop
      constructor
      · change min scan.marker.atSign (endOf urlS) = scan.marker.authority +
          (slice urlS scan.marker.authority (min scan.marker.path (endOf urlS))).firstPlace _
        rw [mark] at atSign
        rw [Nat.min_eq_left (by omega), atSign]
      · rw [first] at colonFirst
        exact colonFirst
      · change min scan.marker.colonLast (endOf urlS) = scan.marker.authority +
          colonPlace scan.marker.schemeType
            ((slice urlS scan.marker.authority (min scan.marker.path (endOf urlS))).lastPlace _)
        rw [last] at colonLast
        have short : scan.marker.colonLast ≤ endOf urlS := by
          rw [colonLast, colonPlace]
          split <;> omega
        rw [Nat.min_eq_left short, colonLast]
    · exact ⟨atSign, colonFirst, colonLast⟩

end Neosurf.Nsurl
