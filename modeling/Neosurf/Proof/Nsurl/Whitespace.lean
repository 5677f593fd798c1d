/-
This file shows which white space around a URL string `nsurl_create` ignores.
-/

import Neosurf.Proof.Bytes
import Neosurf.Proof.Nsurl.Sections
import Neosurf.Proof.Nsurl.Extents
import Neosurf.Proof.Nsurl.WellFormed

namespace Neosurf.Nsurl

/-- The markers before the query move by so many places. -/
def UrlMarkers.moved (k : Nat) (m : UrlMarkers) : UrlMarkers :=
  { m with start := m.start + k, schemeEnd := m.schemeEnd + k, authority := m.authority + k
           colonFirst := m.colonFirst + k, atSign := m.atSign + k, colonLast := m.colonLast + k
           path := m.path + k }

/-- The markers all move by so many places. -/
def UrlMarkers.shift (k : Nat) (m : UrlMarkers) : UrlMarkers :=
  { m.moved k with query := m.query + k, fragment := m.fragment + k, stop := m.stop + k }

/-- The scan moves by so many places. -/
def Scan.moved (k : Nat) (scan : Scan) : Scan :=
  { scan with pos := scan.pos + k, marker := scan.marker.moved k }

section Behind

variable {k : Nat} {urlS urlS' : Bytes}

/-- The second string stands so many places behind in the first. -/
def Behind (k : Nat) (urlS' urlS : Bytes) : Prop := ∀ pos, urlS'.drop (pos + k) = urlS.drop pos

theorem behind_append (front urlS : Bytes) : Behind front.length (front ++ urlS) urlS := by
  intro pos
  rw [Nat.add_comm, ← List.drop_drop, List.drop_left]

theorem Behind.byteAt (behind : Behind k urlS' urlS) (pos : Nat) :
    byteAt urlS' (pos + k) = Neosurf.byteAt urlS pos := by
  have here := byteAt_drop urlS' (pos + k) 0
  rw [behind pos, byteAt_drop] at here
  exact here.symm

theorem Behind.slice (behind : Behind k urlS' urlS) (first last : Nat) :
    slice urlS' (first + k) (last + k) = Nsurl.slice urlS first last := by
  rw [Nsurl.slice, Nsurl.slice, List.drop_take, List.drop_take, behind first,
    Nat.add_sub_add_right]

theorem scanScheme_behind (behind : Behind k urlS' urlS) (joining : Bool) (marker : UrlMarkers) :
    scanScheme urlS' joining (marker.moved k) = (scanScheme urlS joining marker).moved k := by
  have next : urlS'.drop (marker.start + k + 1) = urlS.drop (marker.start + 1) := by
    rw [Nat.add_right_comm, behind]
  have after (n : Nat) : marker.start + k + 1 + n = marker.start + 1 + n + k := by omega
  have name (n : Nat) : (urlS'.take (n + k)).drop (marker.start + k) =
      (urlS.take n).drop marker.start := behind.slice marker.start n
  rw [scanScheme, scanScheme]
  simp only [UrlMarkers.moved, behind.byteAt, next, after, name]
  split_ifs
  · simp only [Scan.moved, UrlMarkers.moved, UrlMarkers.startAuthority, Scan.mk.injEq,
      UrlMarkers.mk.injEq, and_self, true_and, and_true]
    omega
  · rfl
  · rfl
  · rfl

theorem stepAuthority_moved (c : Byte) (pos : Nat) (marker : UrlMarkers) :
    stepAuthority c (pos + k) (marker.moved k) = (stepAuthority c pos marker).moved k := by
  simp only [stepAuthority, UrlMarkers.moved, Nat.add_right_cancel_iff, ne_eq]
  split_ifs <;> rfl

theorem walkAuthority_moved (text : Bytes) (pos : Nat) (marker : UrlMarkers) :
    walkAuthority text (pos + k) (marker.moved k) =
      ((walkAuthority text pos marker).1 + k, (walkAuthority text pos marker).2.moved k) := by
  induction text generalizing pos marker with
  | nil => rfl
  | cons c rest ih =>
      rw [walkAuthority, walkAuthority]
      split
      · rfl
      · rw [stepAuthority_moved, Nat.add_right_comm, ih]

theorem scanAuthority_behind (behind : Behind k urlS' urlS) (length : urlS'.length = urlS.length + k)
    (joining : Bool) (scan : Scan) :
    scanAuthority urlS' joining (scan.moved k) = (scanAuthority urlS joining scan).moved k := by
  have second : byteAt urlS' (scan.pos + k + 1) = byteAt urlS (scan.pos + 1) := by
    rw [Nat.add_right_comm, behind.byteAt]
  have starts : startsAuthority urlS' joining (scan.moved k) = startsAuthority urlS joining scan := by
    have ends : (scan.marker.schemeEnd + k != scan.marker.start + k) =
        (scan.marker.schemeEnd != scan.marker.start) := by
      rw [Bool.eq_iff_iff]
      simp
    simp only [startsAuthority, Scan.moved, UrlMarkers.moved, behind.byteAt, second, ends]
  have skipped : skipSlashes urlS' (scan.moved k) = skipSlashes urlS scan + k := by
    simp only [skipSlashes, Scan.moved, behind scan.pos]
    omega
  have first : byteAt urlS' (scan.moved k).pos = byteAt urlS scan.pos := behind.byteAt _
  rw [scanAuthority, scanAuthority, starts, skipped, first]
  by_cases found : startsAuthority urlS joining scan = true
  · rw [if_pos found, if_pos found]
    have marker : (if (byteAt urlS scan.pos == chr '/') = true then
        (scan.moved k).marker.startAuthority (skipSlashes urlS scan + k)
        else (scan.moved k).marker) = (if (byteAt urlS scan.pos == chr '/') = true then
          scan.marker.startAuthority (skipSlashes urlS scan) else scan.marker).moved k := by
      split <;> rfl
    simp only [marker, behind (skipSlashes urlS scan), walkAuthority_moved]
    rfl
  · rw [if_neg found, if_neg found]
    simp only [Scan.moved, length, Nat.add_right_cancel_iff]
    split_ifs <;> rfl

theorem scanPath_behind (behind : Behind k urlS' urlS) (length : urlS'.length = urlS.length + k)
    (scan : Scan) : scanPath urlS' (scan.moved k) = scanPath urlS scan + k := by
  have next : urlS'.drop (scan.pos + k + 1) = urlS.drop (scan.pos + 1) := by
    rw [Nat.add_right_comm, behind]
  simp only [scanPath, Scan.moved, UrlMarkers.moved, behind.byteAt, length, next,
    Nat.add_lt_add_iff_right, Nat.add_right_cancel_iff]
  split_ifs <;> omega

theorem scanQuery_behind (behind : Behind k urlS' urlS) (pos : Nat) :
    scanQuery urlS' (pos + k) = scanQuery urlS pos + k := by
  have next : urlS'.drop (pos + k + 1) = urlS.drop (pos + 1) := by
    rw [Nat.add_right_comm, behind]
  simp only [scanQuery, behind.byteAt, next]
  split_ifs <;> omega

end Behind

/-- White space in front is part of the first run. -/
theorem run_append {p : Byte → Bool} {front : Bytes} (all : front.all p = true) (text : Bytes) :
    run p (front ++ text) = front.length + run p text := by
  rw [run, run, List.takeWhile_append_of_pos (List.all_eq_true.mp all), List.length_append]

/-- A text that is not blank ends at the same distance behind white space. -/
theorem endOf_append {text : Bytes} (some : run isSpace text ≠ text.length) (front : Bytes) :
    endOf (front ++ text) = endOf text + front.length := by
  have stops : (text.reverse.takeWhile isSpace).length < text.reverse.length := by
    by_contra all
    have whole : text.reverse.takeWhile isSpace = text.reverse :=
      (List.takeWhile_prefix isSpace).eq_of_length_le (by omega)
    have every : ∀ c ∈ text, isSpace c = true := fun c member =>
      List.takeWhile_eq_self_iff.mp whole c (List.mem_reverse.mpr member)
    exact some (congrArg List.length (List.takeWhile_eq_self_iff.mpr every))
  have same : (text.reverse ++ front.reverse).takeWhile isSpace = text.reverse.takeWhile isSpace := by
    rw [List.takeWhile_append, if_neg (by omega)]
  rw [List.length_reverse] at stops
  rw [endOf, endOf, List.reverse_append, run, same, run, List.length_append]
  omega

/-- White space at the start only moves the markers. -/
theorem getStringMarkers_front {front : Bytes} (blank : front.all isSpace = true) (text : Bytes)
    (joining : Bool) : getStringMarkers (front ++ text) joining =
      (getStringMarkers text joining).shift front.length := by
  have behind := behind_append front text
  have length : (front ++ text).length = text.length + front.length := by
    rw [List.length_append, Nat.add_comm]
  have start : run isSpace (front ++ text) = run isSpace text + front.length := by
    rw [run_append blank, Nat.add_comm]
  have first : UrlMarkers.first (run isSpace text + front.length) =
      (UrlMarkers.first (run isSpace text)).moved front.length := rfl
  by_cases all : run isSpace text = text.length
  · rw [getStringMarkers, getStringMarkers, start, length, if_pos all, if_pos (by omega)]
    rfl
  · rw [getStringMarkers, getStringMarkers, start, length, if_neg all, if_neg (by omega), first,
      scanScheme_behind behind, scanAuthority_behind behind length,
      endOf_append all]
    generalize scanAuthority text joining _ = scan
    simp only [scanPath_behind behind length, scanQuery_behind behind,
      Nat.add_lt_add_iff_right]
    split_ifs
    · simp only [clamp, UrlMarkers.shift, UrlMarkers.moved, Scan.moved, Nat.add_min_add_right]
    · rfl

section Tail

variable {text tail : Bytes}

/-- No white space is one of the characters that the scan looks for. -/
theorem plain_of_isSpace {c : Byte} (space : isSpace c = true) :
    isSchemeChar c = false ∧ endsAuthority c = false ∧ endsPath c = false ∧ c ≠ chr '/' ∧
      c ≠ chr ':' ∧ c ≠ chr '@' ∧ c ≠ chr '?' ∧ c ≠ chr '#' ∧ c ≠ 0 ∧ isAlpha c = false := by
  revert c
  apply byte_cases
  decide

/-- A character that is neither NUL nor white space stands in the text. -/
theorem byteAt_append_eq (blank : tail.all isSpace = true) {c : Byte} (solid : c ≠ 0)
    (other : isSpace c = false) (pos : Nat) :
    byteAt (text ++ tail) pos = c ↔ byteAt text pos = c := by
  simp only [byteAt, List.getD_eq_getElem?_getD]
  by_cases inside : pos < text.length
  · rw [List.getElem?_append_left inside]
  · rw [List.getElem?_append_right (by omega), List.getElem?_eq_none (l := text) (by omega)]
    constructor
    · intro here
      cases found : tail[pos - text.length]? with
      | none =>
          rw [found] at here
          exact absurd here.symm solid
      | some d =>
          rw [found, Option.getD_some] at here
          have space := List.all_eq_true.mp blank d (List.mem_of_getElem? found)
          rw [here, other] at space
          cases space
    · exact fun here => absurd here.symm solid

/-- A run of other characters does not reach into white space. -/
theorem run_append_blank {p : Byte → Bool} (blank : tail.all isSpace = true)
    (stops : ∀ c, isSpace c = true → p c = false) (text : Bytes) :
    run p (text ++ tail) = run p text := by
  rw [run, run, List.takeWhile_append]
  split
  · rename_i whole
    have none : tail.takeWhile p = [] := by
      cases tail with
      | nil => rfl
      | cons c rest =>
          have space := List.all_eq_true.mp blank c List.mem_cons_self
          exact List.takeWhile_cons_of_neg (by rw [stops c space]; simp)
    rw [none, List.append_nil, whole]
  · rfl

/-- A run that accepts white space stops in the text or reaches the end. -/
theorem run_append_through {p : Byte → Bool} (blank : tail.all isSpace = true)
    (through : ∀ c, isSpace c = true → p c = true) (text : Bytes) :
    run p (text ++ tail) =
      if run p text = text.length then text.length + tail.length else run p text := by
  rw [run, run, List.takeWhile_append]
  have all : tail.takeWhile p = tail := List.takeWhile_eq_self_iff.mpr fun c member =>
    through c (List.all_eq_true.mp blank c member)
  split
  · rw [all, List.length_append]
  · rfl

theorem byteAt_append_left {pos : Nat} (inside : pos < text.length) :
    byteAt (text ++ tail) pos = byteAt text pos := by
  simp only [byteAt, List.getD_eq_getElem?_getD]
  rw [List.getElem?_append_left inside]

/-- The scan for a scheme does not see white space behind the text. -/
theorem scanScheme_append (blank : tail.all isSpace = true) (joining : Bool) {marker : UrlMarkers}
    (inside : marker.start < text.length) :
    scanScheme (text ++ tail) joining marker = scanScheme text joining marker := by
  have letters : run isSchemeChar ((text ++ tail).drop (marker.start + 1)) =
      run isSchemeChar (text.drop (marker.start + 1)) := by
    rw [List.drop_append_of_le_length inside, run_append_blank blank]
    exact fun c space => (plain_of_isSpace space).1
  have within := run_le isSchemeChar text (marker.start + 1)
  have colon (pos : Nat) : (byteAt (text ++ tail) pos == chr ':') =
      (byteAt text pos == chr ':') := by
    rw [Bool.eq_iff_iff, beq_iff_eq, beq_iff_eq]
    exact byteAt_append_eq blank (by decide) (by decide) pos
  rw [scanScheme, scanScheme, byteAt_append_left inside]
  simp only [letters, colon]
  rw [List.take_append_of_le_length (by omega)]

/-- The walk over an authority runs through white space behind the text. -/
theorem walkAuthority_append (blank : tail.all isSpace = true) (text : Bytes) (pos : Nat)
    (marker : UrlMarkers) : walkAuthority (text ++ tail) pos marker =
      (if (walkAuthority text pos marker).1 = pos + text.length then
        pos + text.length + tail.length else (walkAuthority text pos marker).1,
        (walkAuthority text pos marker).2) := by
  induction text generalizing pos marker with
  | nil =>
      rw [List.nil_append]
      simp only [walkAuthority, List.length_nil, Nat.add_zero, if_true]
      induction tail generalizing pos with
      | nil => rfl
      | cons c rest ih =>
          rw [List.all_cons, Bool.and_eq_true] at blank
          obtain ⟨-, ends, -, -, colon, mark, -⟩ := plain_of_isSpace blank.1
          have stays : stepAuthority c pos marker = marker := by
            simp [stepAuthority, colon, mark]
          rw [walkAuthority, ends, stays, ih blank.2]
          simp only [Bool.false_eq_true, if_false, List.length_cons, Prod.mk.injEq, and_true]
          omega
  | cons c rest ih =>
      rw [List.cons_append, walkAuthority, walkAuthority]
      split
      · simp
      · rw [ih]
        simp only [List.length_cons, Nat.add_comm rest.length, ← Nat.add_assoc]

/-- A position of the longer text is that of the text, or both lie at its end. -/
def Reaches (size pos' pos : Nat) : Prop := pos' = pos ∨ pos = size ∧ size ≤ pos'

/-- The scan of the longer text is that of the text, but for positions at its end. -/
structure Trails (size : Nat) (scan' scan : Scan) : Prop where
  marker : { scan'.marker with path := scan.marker.path } = scan.marker
  path : Reaches size scan'.marker.path scan.marker.path
  pos : Reaches size scan'.pos scan.pos

/-- A scheme character word of http is all there is: nothing starts an authority. -/
def Unstarted (text : Bytes) (scan : Scan) : Prop :=
  startsAuthority text false scan = false ∧ scan.isHttp = true ∧ scan.pos = text.length

/-- The scan for an authority does not see white space behind the text, unless the whole
text is one word. -/
theorem scanAuthority_append (blank : tail.all isSpace = true) {scan : Scan}
    (inside : scan.pos ≤ text.length) (started : ¬Unstarted text scan) :
    Trails text.length (scanAuthority (text ++ tail) false scan) (scanAuthority text false scan) := by
  have slash (pos : Nat) : (byteAt (text ++ tail) pos == chr '/') = (byteAt text pos == chr '/') := by
    rw [Bool.eq_iff_iff, beq_iff_eq, beq_iff_eq]
    exact byteAt_append_eq blank (by decide) (by decide) pos
  have starts : startsAuthority (text ++ tail) false scan = startsAuthority text false scan := by
    simp only [startsAuthority, slash]
  have slashes : run (· == chr '/') ((text ++ tail).drop scan.pos) =
      run (· == chr '/') (text.drop scan.pos) := by
    rw [List.drop_append_of_le_length inside, run_append_blank blank]
    intro c space
    obtain ⟨-, -, -, other, -⟩ := plain_of_isSpace space
    simpa using other
  have skipped : skipSlashes (text ++ tail) scan = skipSlashes text scan := by
    simp only [skipSlashes, slashes]
  have short : skipSlashes text scan ≤ text.length := by
    have within := run_le (· == chr '/') text scan.pos
    rw [skipSlashes]
    split <;> omega
  rw [scanAuthority, scanAuthority, starts, skipped, slash]
  by_cases found : startsAuthority text false scan = true
  · rw [if_pos found, if_pos found]
    dsimp only
    rw [List.drop_append_of_le_length short, walkAuthority_append blank, List.length_drop]
    generalize walkAuthority _ _ _ = walked
    have reaches : Reaches text.length
        (if walked.1 = skipSlashes text scan + (text.length - skipSlashes text scan) then
          skipSlashes text scan + (text.length - skipSlashes text scan) + tail.length
          else walked.1) walked.1 := by
      rw [Reaches]
      split <;> omega
    exact ⟨rfl, reaches, reaches⟩
  · rw [if_neg found, if_neg found]
    have same : (scan.pos = (text ++ tail).length ∨ byteAt (text ++ tail) scan.pos = chr '/') ∧
          false = false ∧ scan.isHttp = true ↔
        (scan.pos = text.length ∨ byteAt text scan.pos = chr '/') ∧
          false = false ∧ scan.isHttp = true := by
      rw [byteAt_append_eq blank (by decide) (by decide)]
      constructor
      · rintro ⟨here | here, -, http⟩
        · rw [List.length_append] at here
          exact ⟨.inl (by omega), rfl, http⟩
        · exact ⟨.inr here, rfl, http⟩
      · rintro ⟨here | here, -, http⟩
        · exact absurd ⟨by simpa using found, http, here⟩ started
        · exact ⟨.inr here, rfl, http⟩
    rw [if_congr same rfl rfl]
    split
    · exact ⟨rfl, .inl rfl, .inl rfl⟩
    · exact ⟨rfl, .inl rfl, .inl rfl⟩

/-- The path section of the longer text is that of the text, or reaches its end. -/
theorem scanPath_append (blank : tail.all isSpace = true) {scan' scan : Scan}
    (inside : scan.pos ≤ text.length) (before : scan.marker.path ≤ scan.pos)
    (trails : Trails text.length scan' scan) :
    Reaches text.length (scanPath (text ++ tail) scan') (scanPath text scan) := by
  obtain ⟨marker, path, pos⟩ := trails
  have after : scan'.pos ≤ scanPath (text ++ tail) scan' := by
    rw [scanPath]
    split
    · omega
    · exact Nat.le_refl _
  by_cases last : scan.pos = text.length
  · have stays : scanPath text scan = scan.pos := if_neg fun here => by omega
    rw [Reaches] at pos ⊢
    omega
  · have samePos : scan'.pos = scan.pos := pos.resolve_right fun both => last both.1
    have samePath : scan'.marker.path = scan.marker.path :=
      path.resolve_right fun both => by omega
    have sameAuthority : scan'.marker.authority = scan.marker.authority := by
      rw [← marker]
    have through : run (fun c => !endsPath c) ((text ++ tail).drop (scan.pos + 1)) =
        if run (fun c => !endsPath c) (text.drop (scan.pos + 1)) =
            (text.drop (scan.pos + 1)).length
        then (text.drop (scan.pos + 1)).length + tail.length
        else run (fun c => !endsPath c) (text.drop (scan.pos + 1)) := by
      rw [List.drop_append_of_le_length (by omega), run_append_through blank]
      intro c space
      obtain ⟨-, -, ends, -⟩ := plain_of_isSpace space
      rw [ends]
      rfl
    rw [scanPath, scanPath, samePos, samePath, sameAuthority,
      byteAt_append_left (by omega : scan.pos < text.length), through]
    have longer : scan.pos < (text ++ tail).length ↔ scan.pos < text.length := by
      rw [List.length_append]
      omega
    simp only [longer, List.length_drop]
    rw [Reaches]
    split_ifs <;> omega

/-- The query section of the longer text is that of the text, or reaches its end. -/
theorem scanQuery_append (blank : tail.all isSpace = true) {pos' pos : Nat}
    (inside : pos ≤ text.length) (reaches : Reaches text.length pos' pos) :
    Reaches text.length (scanQuery (text ++ tail) pos') (scanQuery text pos) := by
  have after : pos' ≤ scanQuery (text ++ tail) pos' := by
    rw [scanQuery]
    split
    · omega
    · exact Nat.le_refl _
  by_cases last : pos = text.length
  · have stays : scanQuery text pos = pos :=
      if_neg fun mark => absurd (lt_length_of_byteAt mark (by decide)) (by omega)
    rw [Reaches] at reaches ⊢
    omega
  · have same : pos' = pos := reaches.resolve_right fun both => last both.1
    have through : run (· != chr '#') ((text ++ tail).drop (pos + 1)) =
        if run (· != chr '#') (text.drop (pos + 1)) = (text.drop (pos + 1)).length
        then (text.drop (pos + 1)).length + tail.length
        else run (· != chr '#') (text.drop (pos + 1)) := by
      rw [List.drop_append_of_le_length (by omega), run_append_through blank]
      intro c space
      obtain ⟨-, -, -, -, -, -, -, hash, -⟩ := plain_of_isSpace space
      simpa using hash
    rw [scanQuery, scanQuery, same, byteAt_append_left (by omega : pos < text.length), through]
    simp only [List.length_drop]
    rw [Reaches]
    split_ifs <;> omega

/-- A text that ends in no white space ends where it ends behind white space too. -/
theorem endOf_append_blank (blank : tail.all isSpace = true) (full : endOf text = text.length) :
    endOf (text ++ tail) = text.length := by
  have all : tail.reverse.all isSpace = true := by rwa [List.all_reverse]
  have zero : run isSpace text.reverse = 0 ∨ text.length = 0 := by
    rw [endOf] at full
    omega
  rw [endOf, List.reverse_append, run_append all, List.length_append, List.length_reverse]
  rcases zero with none | none
  · omega
  · rw [List.length_eq_zero_iff.mp none]
    simp [run]

end Tail

/-- The walk leaves the last colon before the position. -/
theorem walkAuthority_colonLast (text : Bytes) (pos : Nat) (marker : UrlMarkers)
    (before : marker.colonLast ≤ pos) :
    (walkAuthority text pos marker).2.colonLast ≤ (walkAuthority text pos marker).1 := by
  induction text generalizing pos marker with
  | nil => exact before
  | cons c rest ih =>
      rw [walkAuthority]
      split
      · exact before
      · refine ih (pos + 1) (stepAuthority c pos marker) ?_
        unfold stepAuthority
        split_ifs
        · exact before.trans (Nat.le_succ pos)
        · exact Nat.le_succ pos
        · exact before.trans (Nat.le_succ pos)
        · exact before.trans (Nat.le_succ pos)

/-- The last colon lies in the string. -/
theorem scanAuthority_colonLast {urlS : Bytes} {scan : Scan} (joining : Bool)
    (before : scan.marker.colonLast ≤ scan.pos) (size : scan.pos ≤ urlS.length) :
    (scanAuthority urlS joining scan).marker.colonLast ≤ urlS.length := by
  have slashes := run_le (· == chr '/') urlS scan.pos
  have short : scan.pos ≤ skipSlashes urlS scan ∧ skipSlashes urlS scan ≤ urlS.length := by
    rw [skipSlashes]
    split <;> omega
  rw [scanAuthority]
  split
  · have length := run_le (fun c => !endsAuthority c) urlS (skipSlashes urlS scan)
    dsimp only
    refine (walkAuthority_colonLast _ _ _ ?_).trans ?_
    · split
      · exact Nat.le_refl _
      · omega
    · rw [walkAuthority_pos]
      omega
  · split
    · exact before.trans size
    · exact before.trans size

/-- The scan for a scheme leaves the last colon before the position. -/
theorem scanScheme_colonLast (urlS : Bytes) (joining : Bool) (start : Nat) :
    (scanScheme urlS joining (UrlMarkers.first start)).marker.colonLast ≤
      (scanScheme urlS joining (UrlMarkers.first start)).pos := by
  rw [scanScheme]
  dsimp only
  split_ifs
  · exact Nat.le_refl _
  · change start ≤ start + 1 + _
    omega
  · change start ≤ start + 1 + _
    omega
  · exact Nat.le_refl _

/-- White space behind a text changes no marker, unless the whole text is one word. -/
theorem getStringMarkers_tail {text tail : Bytes} (blank : tail.all isSpace = true)
    (full : endOf text = text.length) (some : run isSpace text ≠ text.length)
    (started : ¬Unstarted text (scanScheme text false (UrlMarkers.first (run isSpace text)))) :
    getStringMarkers (text ++ tail) false = getStringMarkers text false := by
  by_cases none : tail = []
  · rw [none, List.append_nil]
  have longer : text.length < (text ++ tail).length := by
    have positive := List.length_pos_iff.mpr none
    rw [List.length_append]
    omega
  have within : run isSpace text ≤ text.length := by simpa using run_le isSpace text 0
  have start : run isSpace (text ++ tail) = run isSpace text := by
    rw [run, run, List.takeWhile_append]
    exact congrArg List.length (if_neg some)
  have colonLast := scanAuthority_colonLast false (scanScheme_colonLast text false (run isSpace text))
    (scanOrdered_scanScheme some false).size
  have ordered := scanOrdered_scanScheme some false
  have trails := scanAuthority_append blank ordered.size started
  obtain ⟨-, -, atSign, path, pos, size, -⟩ := scanOrdered_scanAuthority ordered false
  rw [getStringMarkers, getStringMarkers, start, if_neg (by omega), if_neg some, full,
    endOf_append_blank blank full, scanScheme_append blank false (by change run isSpace text < _; omega)]
  dsimp only
  generalize scanAuthority text false _ = scan at *
  generalize scanAuthority (text ++ tail) false _ = scan' at *
  have query := scanPath_append blank size pos trails
  have queryBounds := scanPath_bounds text scan size
  have fragment := scanQuery_append blank queryBounds.2 query
  have fragmentBounds := scanQuery_bounds text (scanPath text scan) queryBounds.2
  obtain ⟨marker, pathReaches, -⟩ := trails
  rw [if_pos longer, if_neg (Nat.lt_irrefl _)]
  have atSame : scan'.marker.atSign = scan.marker.atSign := by rw [← marker]
  have colonSame : scan'.marker.colonLast = scan.marker.colonLast := by rw [← marker]
  have pathMin : min scan'.marker.path text.length = scan.marker.path := by
    rw [Reaches] at pathReaches
    omega
  have queryMin : min (scanPath (text ++ tail) scan') text.length = scanPath text scan := by
    rw [Reaches] at query
    omega
  have fragmentMin : min (scanQuery (text ++ tail) (scanPath (text ++ tail) scan')) text.length =
      scanQuery text (scanPath text scan) := by
    rw [Reaches] at fragment
    omega
  rw [clamp]
  simp only [pathMin, queryMin, fragmentMin]
  rw [atSame, colonSame, Nat.min_eq_left (by omega), Nat.min_eq_left (by omega), ← marker]

section Sections

variable {k : Nat} {urlS urlS' : Bytes} {m : UrlMarkers}

/-- Both strings have the same sections under markers that are so many places apart. -/
structure SameSections (k : Nat) (urlS' urlS : Bytes) (stop : Nat) : Prop where
  slice : ∀ first last, last ≤ stop → slice urlS' (first + k) (last + k) = Nsurl.slice urlS first last
  byteAt : ∀ c pos, c = chr '@' ∨ c = chr '?' ∨ c = chr '#' →
    (byteAt urlS' (pos + k) = c ↔ Neosurf.byteAt urlS pos = c)

theorem createScheme_shift (same : SameSections k urlS' urlS m.stop)
    (ordered : Ordered m urlS.length) (buff : Buff) (url : NsurlComponents) :
    createScheme urlS' (m.shift k) buff url = createScheme urlS m buff url := by
  obtain ⟨schemeEnd, authority, atSign, path, query, fragment, stop, size⟩ := ordered
  have text := same.slice m.start m.schemeEnd (by omega)
  simp only [createScheme, UrlMarkers.shift, UrlMarkers.moved, text]

theorem createCredentials_shift (same : SameSections k urlS' urlS m.stop)
    (ordered : Ordered m urlS.length) (buff : Buff) (url : NsurlComponents) :
    createCredentials urlS' (m.shift k) buff url = createCredentials urlS m buff url := by
  obtain ⟨schemeEnd, authority, atSign, path, query, fragment, stop, size⟩ := ordered
  have text := same.slice m.authority m.atSign (by omega)
  have distance (a b : Nat) : ((a + k : Nat) : Int) - ((b + k : Nat) : Int) = (a : Int) - b := by
    omega
  have password : m.colonFirst + k + 1 < m.atSign + k ↔ m.colonFirst + 1 < m.atSign := by omega
  have colon : m.atSign + k = m.colonFirst + k + 1 ↔ m.atSign = m.colonFirst + 1 := by omega
  simp only [createCredentials, UrlMarkers.shift, UrlMarkers.moved, text, distance, password,
    colon, ne_eq, Nat.add_right_cancel_iff]

theorem createPort_shift (m : UrlMarkers) (url : NsurlComponents) (buff : Buff) (norm : Bytes) :
    createPort url (m.shift k) buff norm = createPort url m buff norm := by
  have colon : portColon (m.shift k) = (portColon m).map (· + k) := by
    simp only [portColon, UrlMarkers.shift, UrlMarkers.moved, Nat.add_lt_add_iff_right, ne_eq,
      Nat.add_right_cancel_iff]
    split_ifs <;> rfl
  have distance (a b : Nat) : ((a + k : Nat) : Int) - ((b + k : Nat) : Int) = (a : Int) - b := by
    omega
  rw [createPort, createPort, colon]
  cases portColon m with
  | none => rfl
  | some position =>
      simp only [Option.map_some, UrlMarkers.shift, UrlMarkers.moved, distance,
        Nat.add_right_cancel_iff]

theorem createHost_shift (same : SameSections k urlS' urlS m.stop)
    (ordered : Ordered m urlS.length) (buff : Buff) (url : NsurlComponents) :
    createHost urlS' (m.shift k) buff url = createHost urlS m buff url := by
  obtain ⟨schemeEnd, authority, atSign, path, query, fragment, stop, size⟩ := ordered
  have start : hostStart urlS' (m.shift k) = hostStart urlS m + k := by
    simp only [hostStart, UrlMarkers.shift, UrlMarkers.moved, Nat.add_right_cancel_iff, ne_eq,
      same.byteAt (chr '@') m.atSign (.inl rfl)]
    split <;> omega
  have text := same.slice (hostStart urlS m) m.path (by omega)
  have last : (m.shift k).path = m.path + k := rfl
  simp only [createHost, start, last, text, createPort_shift]

theorem createQuery_shift (same : SameSections k urlS' urlS m.stop)
    (ordered : Ordered m urlS.length) (url : NsurlComponents) :
    createQuery urlS' (m.shift k) url = createQuery urlS m url := by
  obtain ⟨schemeEnd, authority, atSign, path, query, fragment, stop, size⟩ := ordered
  have mark := same.byteAt (chr '?') m.query (.inr (.inl rfl))
  have text (first : Nat) := same.slice first m.fragment (by omega)
  have behind := text (m.query + 1)
  rw [Nat.add_right_comm] at behind
  by_cases here : byteAt urlS m.query = chr '?'
  · simp [createQuery, UrlMarkers.shift, UrlMarkers.moved, here, mark.mpr here, behind]
  · simp [createQuery, UrlMarkers.shift, UrlMarkers.moved, here, mt mark.mp here, text]

theorem createFragment_shift (same : SameSections k urlS' urlS m.stop) (url : NsurlComponents) :
    createFragment urlS' (m.shift k) url = createFragment urlS m url := by
  have mark := same.byteAt (chr '#') m.fragment (.inr (.inr rfl))
  have text (first : Nat) := same.slice first m.stop (Nat.le_refl _)
  have behind := text (m.fragment + 1)
  rw [Nat.add_right_comm] at behind
  by_cases here : byteAt urlS m.fragment = chr '#'
  · simp [createFragment, UrlMarkers.shift, UrlMarkers.moved, here, mark.mpr here, behind]
  · simp [createFragment, UrlMarkers.shift, UrlMarkers.moved, here, mt mark.mp here, text]

/-- The components come from the sections alone. -/
theorem createComponents_shift (junk : Buff)
    (markers : getStringMarkers urlS' false = (getStringMarkers urlS false).shift k)
    (same : SameSections k urlS' urlS (getStringMarkers urlS false).stop) :
    createComponents junk urlS' = createComponents junk urlS := by
  have ordered := ordered_getStringMarkers urlS false
  have text := same.slice (getStringMarkers urlS false).path (getStringMarkers urlS false).query
    (ordered.fragment.trans ordered.stop)
  have type : ((getStringMarkers urlS false).shift k).schemeType =
      (getStringMarkers urlS false).schemeType := rfl
  have path : slice urlS' ((getStringMarkers urlS false).shift k).path
      ((getStringMarkers urlS false).shift k).query =
        slice urlS (getStringMarkers urlS false).path (getStringMarkers urlS false).query := text
  rw [createComponents, createComponents, markers]
  simp only [createScheme_shift same ordered, createCredentials_shift same ordered,
    createHost_shift same ordered, createQuery_shift same ordered, createFragment_shift same,
    type, path]

end Sections

/-- The text is one word of scheme characters that starts with a letter. -/
def BareWord (text : Bytes) : Prop :=
  isAlpha (byteAt text 0) = true ∧ (text.drop 1).all isSchemeChar = true

/-- An http scan that starts no authority found no scheme, and stops behind a word. -/
theorem scanScheme_unstarted {text : Bytes} {marker : UrlMarkers} :
    (scanScheme text false marker).isHttp = true →
      startsAuthority text false (scanScheme text false marker) = false →
      isAlpha (byteAt text marker.start) = true ∧ (scanScheme text false marker).pos =
        marker.start + 1 + run isSchemeChar (text.drop (marker.start + 1)) := by
  rw [scanScheme]
  dsimp only
  split_ifs with letter colon
  · intro http started
    rw [startsAuthority_http http (by dsimp only [UrlMarkers.startAuthority]; omega)] at started
    cases started
  · intro http
    cases http
  · exact fun _ _ => ⟨letter, rfl⟩
  · intro http
    cases http

/-- A word that reaches the end is scanned like this. -/
theorem scanScheme_word {text : Bytes} {marker : UrlMarkers}
    (letter : isAlpha (byteAt text marker.start) = true)
    (all : (text.drop (marker.start + 1)).all isSchemeChar = true) :
    scanScheme text false marker =
      { pos := text.length, isHttp := true, marker := { marker with schemeType := .http } } := by
  have inside : marker.start < text.length := lt_length_of_byteAt rfl (by
    intro nul
    rw [nul] at letter
    exact absurd letter (by decide))
  have size : run isSchemeChar (text.drop (marker.start + 1)) =
      text.length - (marker.start + 1) := by
    rw [run, List.takeWhile_eq_self_iff.mpr (List.all_eq_true.mp all), List.length_drop]
  have pos : marker.start + 1 + (text.length - (marker.start + 1)) = text.length := by omega
  have stops : ¬(byteAt text text.length == chr ':') = true := by
    rw [beq_iff_eq]
    exact fun colon => absurd (lt_length_of_byteAt colon (by decide)) (Nat.lt_irrefl _)
  rw [scanScheme, if_pos letter]
  dsimp only
  rw [size, pos, if_neg stops]
  rfl

/-- The scan finds nothing to start an authority at the end exactly for such a word. -/
theorem unstarted_iff (text : Bytes) :
    Unstarted text (scanScheme text false (UrlMarkers.first (run isSpace text))) ↔
      BareWord (text.dropWhile isSpace) := by
  have body : text.drop (run isSpace text) = text.dropWhile isSpace := drop_run isSpace text
  have first : byteAt text (run isSpace text) = byteAt (text.dropWhile isSpace) 0 := by
    rw [← body, byteAt_drop, Nat.add_zero]
  have rest : text.drop (run isSpace text + 1) = (text.dropWhile isSpace).drop 1 := by
    rw [← body, List.drop_drop]
  have letters := run_le isSchemeChar text (run isSpace text + 1)
  rw [BareWord, ← first, ← rest]
  constructor
  · rintro ⟨started, http, pos⟩
    obtain ⟨letter, place⟩ := scanScheme_unstarted http started
    rw [pos] at place
    change isAlpha (byteAt text (run isSpace text)) = true at letter
    change text.length = run isSpace text + 1 +
      run isSchemeChar (text.drop (run isSpace text + 1)) at place
    refine ⟨letter, ?_⟩
    have size : (text.drop (run isSpace text + 1)).length =
        run isSchemeChar (text.drop (run isSpace text + 1)) := by
      rw [List.length_drop]
      omega
    have whole := (List.takeWhile_prefix isSchemeChar).eq_of_length size.symm
    rw [List.all_eq_true]
    exact List.takeWhile_eq_self_iff.mp whole
  · rintro ⟨letter, all⟩
    rw [@scanScheme_word text (UrlMarkers.first (run isSpace text)) letter all]
    have past (n : Nat) (far : text.length ≤ n) : ¬byteAt text n = chr '/' := fun slash =>
      absurd (lt_length_of_byteAt slash (by decide)) (by omega)
    refine ⟨?_, rfl, rfl⟩
    simp [startsAuthority, past, UrlMarkers.first]

/-- White space in front makes no difference. -/
theorem createComponents_front (junk : Buff) {front : Bytes} (blank : front.all isSpace = true)
    (text : Bytes) : createComponents junk (front ++ text) = createComponents junk text := by
  have behind := behind_append front text
  refine createComponents_shift junk (getStringMarkers_front blank text false) ⟨?_, ?_⟩
  · exact fun first last _ => behind.slice first last
  · intro c pos _
    rw [behind.byteAt]

/-- White space behind a text that is not one word makes no difference. -/
theorem createComponents_tail (junk : Buff) {text tail : Bytes} (blank : tail.all isSpace = true)
    (full : endOf text = text.length) (some : run isSpace text ≠ text.length)
    (several : ¬BareWord (text.dropWhile isSpace)) :
    createComponents junk (text ++ tail) = createComponents junk text := by
  have markers := getStringMarkers_tail blank full some (mt (unstarted_iff text).mp several)
  have size := (ordered_getStringMarkers text false).size
  refine createComponents_shift junk (k := 0) markers ⟨?_, ?_⟩
  · intro first last inside
    rw [slice, slice, Nat.add_zero, Nat.add_zero, List.take_append_of_le_length (by omega)]
  · intro c pos which
    refine byteAt_append_eq blank ?_ ?_ pos
    · rcases which with rfl | rfl | rfl <;> decide
    · rcases which with rfl | rfl | rfl <;> decide

/-- Without a scheme, credentials and a host, the sections before the path are empty. -/
theorem createComponents_hostless (junk : Buff) {text : Bytes}
    (scheme : (getStringMarkers text false).schemeEnd = (getStringMarkers text false).start)
    (atSign : (getStringMarkers text false).atSign = (getStringMarkers text false).authority)
    (path : (getStringMarkers text false).path = (getStringMarkers text false).authority) :
    ∃ c, createComponents junk text = .ok c ∧ c.scheme = some (str "http") ∧ c.host = none := by
  have noScheme : slice text (getStringMarkers text false).start
      (getStringMarkers text false).schemeEnd = [] := slice_eq_nil scheme.le
  have noCredentials : slice text (getStringMarkers text false).authority
      (getStringMarkers text false).atSign = [] := slice_eq_nil atSign.le
  have start : (getStringMarkers text false).atSign ≤
      hostStart text (getStringMarkers text false) := by
    rw [hostStart]
    split <;> omega
  have noHost : slice text (hostStart text (getStringMarkers text false))
      (getStringMarkers text false).path = [] := slice_eq_nil (by omega)
  have credentials (buff : Buff) (url : NsurlComponents) :
      createCredentials text (getStringMarkers text false) buff url =
        .ok ({ url with username := none, password := none }, writeNorm buff []) := by
    simp only [createCredentials, noCredentials, normalise, true_or, if_true, ite_self]
  have host (buff : Buff) (url : NsurlComponents) :
      createHost text (getStringMarkers text false) buff url =
        .ok { url with host := none, port := none } := by
    simp only [createHost, noHost, normalise, or_true, if_true]
  refine ⟨createFragment text (getStringMarkers text false)
    (createQuery text (getStringMarkers text false)
      (createPath (slice text (getStringMarkers text false).path (getStringMarkers text false).query)
        { (createScheme text (getStringMarkers text false) junk
            { schemeType := (getStringMarkers text false).schemeType }).1 with
          username := none, password := none, host := none, port := none })), ?_, ?_, ?_⟩
  · rw [createComponents]
    simp only [credentials, host, bind, Except.bind]
  · simp only [createFragment, createQuery, createPath, createScheme, noScheme, normalise, if_true]
  · simp only [createFragment, createQuery, createPath]

/-- Such a text is no URL. -/
theorem nsurlCreate_hostless (junk : Buff) {text : Bytes} (solid : cstr text = text)
    (scheme : (getStringMarkers text false).schemeEnd = (getStringMarkers text false).start)
    (atSign : (getStringMarkers text false).atSign = (getStringMarkers text false).authority)
    (path : (getStringMarkers text false).path = (getStringMarkers text false).authority) :
    nsurlCreate junk text = .error .badUrl := by
  obtain ⟨c, created, http, none⟩ := createComponents_hostless junk scheme atSign path
  rw [nsurlCreate, solid, created]
  have needs : needsHost c = true := by simp [needsHost, http]
  simp [bind, Except.bind, needs, none]

/-- A blank text is no URL. -/
theorem nsurlCreate_blank (junk : Buff) {text : Bytes} (blank : text.all isSpace = true)
    (solid : cstr text = text) : nsurlCreate junk text = .error .badUrl := by
  have all : run isSpace text = text.length := by
    rw [run, List.takeWhile_eq_self_iff.mpr (List.all_eq_true.mp blank)]
  have markers : getStringMarkers text false = { UrlMarkers.first text.length with
      query := text.length, fragment := text.length, stop := text.length } := by
    rw [getStringMarkers, if_pos all, all]
  exact nsurlCreate_hostless junk solid (by rw [markers]; rfl) (by rw [markers]; rfl)
    (by rw [markers]; rfl)

/-- A word starts inside its text, and ends with it. -/
theorem bareWord_bounds {text : Bytes} (word : BareWord (text.dropWhile isSpace)) :
    isAlpha (byteAt text (run isSpace text)) = true ∧
      (text.drop (run isSpace text + 1)).all isSchemeChar = true ∧
      run isSpace text < text.length ∧ endOf text = text.length := by
  obtain ⟨letter, all⟩ := word
  have body : text.drop (run isSpace text) = text.dropWhile isSpace := drop_run isSpace text
  rw [← body, byteAt_drop, Nat.add_zero] at letter
  rw [← body, List.drop_drop] at all
  have plain (c : Byte) : isAlpha c = true ∨ isSchemeChar c = true → isSpace c = false := by
    revert c
    apply byte_cases
    decide
  have inside : run isSpace text < text.length := lt_length_of_byteAt rfl (by
    intro nul
    rw [nul] at letter
    exact absurd letter (by decide))
  refine ⟨letter, all, inside, ?_⟩
  -- The last character is the letter or a scheme character behind it.
  have final : text.length - 1 < text.length := by omega
  have solid : isSpace text[text.length - 1] = false := by
    by_cases only : text.length - 1 = run isSpace text
    · refine plain _ (.inl ?_)
      rw [byteAt, List.getD_eq_getElem?_getD, ← only, List.getElem?_eq_getElem final] at letter
      exact letter
    · refine plain _ (.inr (List.all_eq_true.mp all _ ?_))
      rw [List.mem_drop_iff_getElem]
      exact ⟨text.length - 1 - (run isSpace text + 1), by omega, by congr 1; omega⟩
  have last := lt_endOf (List.drop_eq_getElem_cons final) solid
  have length := endOf_le text
  omega

/-- The scan for a scheme stops behind a word that reaches the end. -/
def wordScan (text : Bytes) : Scan :=
  { pos := text.length, isHttp := true
    marker := { UrlMarkers.first (run isSpace text) with schemeType := .http } }

/-- No slash starts an authority behind a word. -/
theorem startsAuthority_word {urlS text : Bytes}
    (slash : ∀ pos, text.length ≤ pos → ¬byteAt urlS pos = chr '/') :
    startsAuthority urlS false (wordScan text) = false := by
  simp [startsAuthority, wordScan, slash, UrlMarkers.first]

/-- A word with white space behind it is no URL. -/
theorem nsurlCreate_word_blank (junk : Buff) {text tail : Bytes} (blank : tail.all isSpace = true)
    (more : tail ≠ []) (word : BareWord (text.dropWhile isSpace))
    (solid : cstr (text ++ tail) = text ++ tail) :
    nsurlCreate junk (text ++ tail) = .error .badUrl := by
  obtain ⟨letter, all, inside, full⟩ := bareWord_bounds word
  have longer : text.length < (text ++ tail).length := by
    have positive := List.length_pos_iff.mpr more
    rw [List.length_append]
    omega
  have start : run isSpace (text ++ tail) = run isSpace text := by
    rw [run, run, List.takeWhile_append]
    exact congrArg List.length (if_neg (Nat.ne_of_lt inside))
  have slash (pos : Nat) (far : text.length ≤ pos) : ¬byteAt (text ++ tail) pos = chr '/' := by
    rw [byteAt_append_eq blank (by decide) (by decide)]
    exact fun here => absurd (lt_length_of_byteAt here (by decide)) (by omega)
  have scanned : scanAuthority (text ++ tail) false (scanScheme (text ++ tail) false
      (UrlMarkers.first (run isSpace (text ++ tail)))) = wordScan text := by
    have here : scanScheme text false (UrlMarkers.first (run isSpace text)) = wordScan text :=
      scanScheme_word letter all
    rw [start, scanScheme_append blank false inside, here, scanAuthority,
      startsAuthority_word slash, if_neg (by simp), if_neg]
    rintro ⟨last | here, -⟩
    · exact absurd last (Nat.ne_of_lt longer)
    · exact slash _ (Nat.le_refl _) here
  have some : run isSpace (text ++ tail) ≠ (text ++ tail).length := by omega
  obtain ⟨first, schemeEnd, authority, path⟩ := getStringMarkers_scan some false
  obtain ⟨-, -, low, high, -⟩ := ordered_getStringMarkers (text ++ tail) false
  rw [scanned] at first schemeEnd authority path
  change _ = run isSpace text at first schemeEnd authority
  have early : (getStringMarkers (text ++ tail) false).path ≤ run isSpace text := by
    have same : (getStringMarkers (text ++ tail) false).path =
        if endOf (text ++ tail) < (text ++ tail).length then
          min (run isSpace text) (endOf (text ++ tail)) else run isSpace text := path
    rw [same]
    split
    · exact Nat.min_le_left _ _
    · exact Nat.le_refl _
  exact nsurlCreate_hostless junk solid (by omega) (by omega) (by omega)

/-- The markers of a word give it to the host. -/
theorem getStringMarkers_word {text : Bytes} (word : BareWord (text.dropWhile isSpace)) :
    ∃ query fragment, getStringMarkers text false =
      { UrlMarkers.first (run isSpace text) with
        path := text.length, query, fragment, stop := text.length, schemeType := .http } := by
  obtain ⟨letter, all, inside, full⟩ := bareWord_bounds word
  have slash (pos : Nat) (far : text.length ≤ pos) : ¬byteAt text pos = chr '/' := fun here =>
    absurd (lt_length_of_byteAt here (by decide)) (by omega)
  have here : scanScheme text false (UrlMarkers.first (run isSpace text)) = wordScan text :=
    scanScheme_word letter all
  have scanned : scanAuthority text false (wordScan text) =
      { wordScan text with marker := { (wordScan text).marker with path := text.length } } := by
    rw [scanAuthority, startsAuthority_word slash, if_neg (by simp), if_pos]
    · rfl
    · exact ⟨.inl rfl, rfl, rfl⟩
  have markers : getStringMarkers text false =
      { UrlMarkers.first (run isSpace text) with
        path := text.length
        query := scanPath text (scanAuthority text false (wordScan text))
        fragment := scanQuery text (scanPath text (scanAuthority text false (wordScan text)))
        stop := text.length, schemeType := .http } := by
    rw [getStringMarkers, if_neg (Nat.ne_of_lt inside), here]
    dsimp only
    rw [full, if_neg (Nat.lt_irrefl _), scanned]
    rfl
  exact ⟨_, _, markers⟩

/-- Without a colon or credentials, a host of http is taken over whole. -/
theorem createHost_plain {urlS : Bytes} {m : UrlMarkers} (colon : portColon m = none)
    (full : slice urlS (hostStart urlS m) m.path ≠ []) (buff : Buff) (url : NsurlComponents)
    (type : url.schemeType ≠ .file) :
    ∃ host, createHost urlS m buff url = .ok { url with host := some host, port := none } := by
  have norm : normalise true (slice urlS (hostStart urlS m) m.path) ≠ [] :=
    mt normalise_eq_nil.mp full
  rw [createHost]
  dsimp only
  rw [if_neg (not_or.mpr ⟨type, norm⟩), createPort, colon]
  dsimp only [bind, Except.bind]
  split
  · exact ⟨_, rfl⟩
  · rw [internBuff, if_neg (by omega)]
    exact ⟨_, rfl⟩

/-- A word alone is a URL. -/
theorem nsurlCreate_word (junk : Buff) {text : Bytes} (word : BareWord (text.dropWhile isSpace))
    (solid : cstr text = text) : ∃ url, nsurlCreate junk text = .ok url := by
  obtain ⟨letter, -, inside, -⟩ := bareWord_bounds word
  obtain ⟨query, fragment, markers⟩ := getStringMarkers_word word
  generalize placed : getStringMarkers text false = m at markers
  have noScheme : slice text m.start m.schemeEnd = [] := slice_eq_nil (by rw [markers]; rfl)
  have noCredentials : slice text m.authority m.atSign = [] := slice_eq_nil (by rw [markers]; rfl)
  have start : hostStart text m = run isSpace text := by
    have solid : byteAt text (run isSpace text) ≠ chr '@' := by
      intro mark
      rw [mark] at letter
      exact absurd letter (by decide)
    rw [hostStart, markers]
    exact if_pos ⟨rfl, solid⟩
  have colon : portColon m = none := by
    rw [portColon, markers]
    simp [UrlMarkers.first]
  have full : slice text (hostStart text m) m.path ≠ [] := by
    rw [start, slice, markers]
    simp [inside]
  have type : m.schemeType = .http := by rw [markers]
  have credentials (buff : Buff) (url : NsurlComponents) : createCredentials text m buff url =
      .ok ({ url with username := none, password := none }, writeNorm buff []) := by
    simp only [createCredentials, noCredentials, normalise, true_or, if_true, ite_self]
  obtain ⟨host, named⟩ := createHost_plain colon full
    (writeNorm (createScheme text m junk { schemeType := m.schemeType }).2 [])
    { (createScheme text m junk { schemeType := m.schemeType }).1 with
      username := none, password := none }
    (by rw [createScheme, type]; simp)
  have created : createComponents junk text = .ok (createFragment text m (createQuery text m
      (createPath (slice text m.path m.query)
        { (createScheme text m junk { schemeType := m.schemeType }).1 with
          username := none, password := none, host := some host, port := none }))) := by
    rw [createComponents, placed]
    simp only [credentials, named, bind, Except.bind]
  rw [nsurlCreate, solid, created]
  dsimp only [bind, Except.bind]
  rw [if_neg (fun needs => by cases needs.2), build, componentsToString_withFragment _ rfl]
  exact ⟨_, rfl⟩

/-- Both texts give the same URLs. -/
def SameUrls (text other : Bytes) : Prop :=
  ∀ junk url, nsurlCreate junk text = .ok url ↔ nsurlCreate junk other = .ok url

/-- A text is a body that ends in no white space, and white space behind it. -/
theorem exists_body (text : Bytes) : ∃ body blank, text = body ++ blank ∧
    blank.all isSpace = true ∧ endOf body = body.length := by
  refine ⟨(text.reverse.dropWhile isSpace).reverse, (text.reverse.takeWhile isSpace).reverse,
    ?_, ?_, ?_⟩
  · rw [← List.reverse_append, List.takeWhile_append_dropWhile, List.reverse_reverse]
  · rw [List.all_reverse, List.all_takeWhile]
  · have stops : (text.reverse.dropWhile isSpace).takeWhile isSpace = [] := by
      rw [List.takeWhile_eq_nil_iff]
      exact fun nonempty => List.dropWhile_get_zero_not isSpace _ nonempty
    rw [endOf, List.reverse_reverse, run, stops]
    rfl

/-- No white space stands behind a bare word. -/
theorem bareWord_append {body blank : Bytes} (spaces : blank.all isSpace = true)
    (full : endOf body = body.length)
    (word : BareWord ((body ++ blank).dropWhile isSpace)) : blank = [] := by
  obtain ⟨-, -, -, last⟩ := bareWord_bounds word
  rw [endOf_append_blank spaces full, List.length_append] at last
  exact List.length_eq_zero_iff.mp (by omega)

/-- White space holds no NUL. -/
theorem solid_of_blank {blank : Bytes} (spaces : blank.all isSpace = true) : 0 ∉ blank := by
  intro inside
  exact absurd (List.all_eq_true.mp spaces 0 inside) (by decide)

/-- Without a NUL, equal components give equal URLs. -/
theorem nsurlCreate_congr {junk : Buff} {text other : Bytes} (solid : 0 ∉ text) (firm : 0 ∉ other)
    (same : createComponents junk text = createComponents junk other) :
    nsurlCreate junk text = nsurlCreate junk other := by
  rw [nsurlCreate, nsurlCreate, cstr_of_solid solid, cstr_of_solid firm, same]

/-- White space behind a text makes no difference, unless the text is a bare word. -/
theorem nsurlCreate_tail_iff {text tail : Bytes} (solid : 0 ∉ text)
    (behind : tail.all isSpace = true) :
    SameUrls (text ++ tail) text ↔ tail = [] ∨ ¬BareWord (text.dropWhile isSpace) := by
  obtain ⟨body, blank, rfl, spaces, full⟩ := exists_body text
  have both : (blank ++ tail).all isSpace = true := by rw [List.all_append, spaces, behind]; rfl
  have firm : 0 ∉ body ++ blank ++ tail := by
    rw [List.mem_append, not_or]
    exact ⟨solid, solid_of_blank behind⟩
  by_cases word : BareWord (body.dropWhile isSpace)
  · by_cases bare : blank = []
    · subst bare
      rw [List.append_nil] at solid ⊢
      constructor
      · intro same
        refine Or.inl (by_contra fun more => ?_)
        obtain ⟨url, created⟩ := nsurlCreate_word (fun _ => 0) word (cstr_of_solid solid)
        have failed := nsurlCreate_word_blank (fun _ => 0) behind more word
          (cstr_of_solid (by simpa using firm))
        have found := (same _ url).mpr created
        rw [failed] at found
        cases found
      · rintro (rfl | several)
        · rw [List.append_nil]
          exact fun _ _ => Iff.rfl
        · exact absurd word several
    · have failed (junk : Buff) : nsurlCreate junk (body ++ blank) = .error .badUrl :=
        nsurlCreate_word_blank junk spaces bare word (cstr_of_solid solid)
      have failed' (junk : Buff) : nsurlCreate junk (body ++ blank ++ tail) = .error .badUrl := by
        rw [List.append_assoc]
        exact nsurlCreate_word_blank junk both (by simp [bare]) word
          (cstr_of_solid (by rwa [← List.append_assoc]))
      refine iff_of_true (fun junk url => ?_) (Or.inr fun again => bare ?_)
      · rw [failed, failed']
      · exact bareWord_append spaces full again
  · refine iff_of_true (fun junk url => ?_) (Or.inr fun again => word ?_)
    · by_cases some : run isSpace body = body.length
      · -- Nothing but white space is left in either text.
        have spaceBody : body.all isSpace = true := by
          rw [run] at some
          rw [List.all_eq_true]
          exact List.takeWhile_eq_self_iff.mp
            ((List.takeWhile_prefix isSpace).eq_of_length some)
        rw [nsurlCreate_blank junk (by simp [spaceBody, spaces]) (cstr_of_solid solid),
          nsurlCreate_blank junk (by simp [spaceBody, spaces, behind]) (cstr_of_solid firm)]
      · rw [nsurlCreate_congr firm solid]
        rw [List.append_assoc, createComponents_tail junk both full some word,
          createComponents_tail junk spaces full some word]
    · rw [bareWord_append spaces full again, List.append_nil] at again
      exact again

/-- White space around a text makes no difference, unless it stands behind a bare word. -/
theorem nsurlCreate_surrounded_iff {text front tail : Bytes} (solid : 0 ∉ text)
    (before : front.all isSpace = true) (behind : tail.all isSpace = true) :
    SameUrls (front ++ text ++ tail) text ↔ tail = [] ∨ ¬BareWord (text.dropWhile isSpace) := by
  have firm : 0 ∉ text ++ tail := by
    rw [List.mem_append, not_or]
    exact ⟨solid, solid_of_blank behind⟩
  have whole : 0 ∉ front ++ text ++ tail := by
    rw [List.append_assoc, List.mem_append, not_or]
    exact ⟨solid_of_blank before, firm⟩
  have moved (junk : Buff) : nsurlCreate junk (front ++ text ++ tail) =
      nsurlCreate junk (text ++ tail) := by
    refine nsurlCreate_congr whole firm ?_
    rw [List.append_assoc, createComponents_front junk before]
  rw [← nsurlCreate_tail_iff solid behind, SameUrls, SameUrls]
  simp only [moved]

theorem nsurlCreate_surrounded_host : SameUrls (str " " ++ str "http://h/" ++ str " ")
      (str "http://h/") ↔ str " " = [] ∨ ¬BareWord ((str "http://h/").dropWhile isSpace) :=
  nsurlCreate_surrounded_iff (by decide) (by decide) (by decide)

/-- The word `foo` is a URL, but not with a blank behind it. -/
theorem nsurlCreate_foo_blank :
    ¬∀ text front tail : Bytes, 0 ∉ text → front.all isSpace = true → tail.all isSpace = true →
      SameUrls (front ++ text ++ tail) text := by
  intro same
  have here := same (str "foo") [] (str " ") (by decide) rfl rfl (fun _ => 0)
  have word : BareWord ((str "foo").dropWhile isSpace) := ⟨by decide, by decide⟩
  have failed : nsurlCreate (fun _ => 0) (str "foo" ++ str " ") = .error .badUrl :=
    nsurlCreate_word_blank _ rfl (by decide) word (by decide)
  obtain ⟨url, created⟩ := nsurlCreate_word (fun _ => 0) word (by decide)
  have found := (here url).mpr created
  rw [List.nil_append, failed] at found
  cases found

end Neosurf.Nsurl
