/-
This file proves when the buffer of a Cookie header has room for its cookies.
-/

import Neosurf.Construction.Urldb.Cookie

namespace Neosurf.Urldb.CookieBuffer

/-- The text ends at its NUL, which is the last byte that was written. -/
structure Terminated (buf : CookieBuffer) : Prop where
  used : buf.used = buf.text.length + 1
  written : buf.written = buf.used

theorem initial_terminated (version : Nat) : (initial version).Terminated := ⟨rfl, rfl⟩

/-- A terminated text is continued when its size is counted. -/
theorem sprintf_spec {buf : CookieBuffer} (ready : buf.Terminated) (text : Bytes) {size : Nat}
    (counted : size = text.length) :
    (buf.sprintf text size).Terminated ∧ (buf.sprintf text size).text = buf.text ++ text ∧
      (buf.sprintf text size).alloc = buf.alloc := by
  have whole : buf.text.take (buf.used - 1) = buf.text := by
    rw [ready.used]
    exact List.take_of_length_le (by omega)
  have joined : (buf.sprintf text size).text = buf.text ++ text := congrArg (· ++ text) whole
  refine ⟨⟨?_, ?_⟩, joined, rfl⟩
  · rw [joined, List.length_append]
    change buf.used + size = _
    rw [ready.used, counted]
    omega
  · change max buf.written (buf.used + text.length) = buf.used + size
    rw [ready.written, counted]
    omega

/-- A text is continued by another one, with quotes or without them. -/
theorem sprintfQuoted_spec {buf : CookieBuffer} (ready : buf.Terminated) (text : Bytes)
    (quoted : Bool) :
    (buf.sprintfQuoted text quoted).Terminated ∧
      (buf.sprintfQuoted text quoted).text =
        buf.text ++ (if quoted then quote text else text) ∧
      (buf.sprintfQuoted text quoted).alloc = buf.alloc := by
  cases quoted with
  | true =>
      refine sprintf_spec ready _ ?_
      simp only [quote, List.length_append]
      rfl
  | false => exact sprintf_spec ready text rfl

/-- A text is continued by an attribute, if it is there. -/
theorem attribute_spec {buf : CookieBuffer} (ready : buf.Terminated) (present : Bool)
    (mark text : Bytes) {size : Nat} (counted : size = mark.length) :
    let after := if present then
      (buf.sprintf mark size).sprintfQuoted text (hasSeparator text) else buf
    after.Terminated ∧
      after.text = buf.text ++ (if present then mark ++ quoteSeparated text else []) ∧
      after.alloc = buf.alloc := by
  cases present with
  | true =>
      obtain ⟨marked, first, sameMark⟩ := sprintf_spec ready mark counted
      obtain ⟨done, rest, sameText⟩ := sprintfQuoted_spec marked text (hasSeparator text)
      refine ⟨done, ?_, sameText.trans sameMark⟩
      rw [if_pos rfl, rest, first, List.append_assoc]
      rfl
  | false => exact ⟨ready, (List.append_nil _).symm, rfl⟩

theorem grow_terminated {buf : CookieBuffer} (ready : buf.Terminated) (maxLen : Nat) :
    (buf.grow maxLen).Terminated ∧ (buf.grow maxLen).text = buf.text := by
  unfold grow
  split
  · exact ⟨⟨ready.used, ready.written⟩, rfl⟩
  · exact ⟨ready, rfl⟩

/-- A cookie is written behind the text, and only the estimate grows the buffer. -/
theorem concatCookie_spec (version : Nat) {buf : CookieBuffer} (ready : buf.Terminated)
    (c : Cookie) :
    (buf.concatCookie version c).Terminated ∧
      (buf.concatCookie version c).text = buf.text ++ Urldb.concatCookie version c ∧
      (buf.concatCookie version c).alloc = (buf.grow (maxLen c)).alloc := by
  obtain ⟨grown, kept⟩ := grow_terminated ready (maxLen c)
  have size : 2 + c.name.length + 1 = (str "; " ++ c.name ++ str "=").length := by
    simp only [List.length_append]
    rfl
  obtain ⟨named, name, sameName⟩ := sprintf_spec grown (str "; " ++ c.name ++ str "=") size
  rw [concatCookie, Urldb.concatCookie, cookieValue]
  by_cases old : version = COOKIE_NETSCAPE
  · obtain ⟨done, value, sameValue⟩ := sprintfQuoted_spec named c.value c.valueWasQuoted
    simp only [old, if_true]
    refine ⟨done, ?_, sameValue.trans sameName⟩
    rw [value, name, kept]
    simp only [List.append_assoc, List.append_nil]
  · have whole : (if c.valueWasQuoted then quote c.value else quoteSeparated c.value) =
        if c.valueWasQuoted || hasSeparator c.value then quote c.value else c.value := by
      cases c.valueWasQuoted <;> rfl
    obtain ⟨valued, value, sameValue⟩ :=
      sprintfQuoted_spec named c.value (c.valueWasQuoted || hasSeparator c.value)
    simp only [old, if_false, whole]
    obtain ⟨placed, path, samePath⟩ := attribute_spec valued c.pathFromSet (str "; $Path=") c.path
      (rfl : 8 = (str "; $Path=").length)
    obtain ⟨done, domain, sameDomain⟩ := attribute_spec placed c.domainFromSet (str "; $Domain=")
      c.domain (rfl : 10 = (str "; $Domain=").length)
    refine ⟨done, ?_, sameDomain.trans (samePath.trans (sameValue.trans sameName))⟩
    rw [domain, path, value, name, kept]
    simp only [List.append_assoc]

/-- The text of a cookie is no longer than its estimate. -/
theorem length_concatCookie_le (version : Nat) (c : Cookie) :
    (Urldb.concatCookie version c).length ≤ maxLen c := by
  have quoted (text : Bytes) : (quote text).length = text.length + 2 := by
    simp only [quote, List.length_append]
    rw [show (str "\"").length = 1 from rfl]
    omega
  have separated (text : Bytes) : (quoteSeparated text).length ≤ text.length + 2 := by
    unfold quoteSeparated
    split
    · exact (quoted text).le
    · omega
  have value : (cookieValue version c).length ≤ c.value.length + 2 := by
    unfold cookieValue
    split_ifs
    · exact (quoted _).le
    · omega
    · exact separated _
  have path := separated c.path
  have domain := separated c.domain
  have marks : (str "; ").length = 2 ∧ (str "=").length = 1 ∧ (str "; $Path=").length = 8 ∧
      (str "; $Domain=").length = 10 := ⟨rfl, rfl, rfl, rfl⟩
  unfold Urldb.concatCookie maxLen
  split_ifs <;> simp only [List.length_append, List.length_nil, marks] <;> omega

/-- The next cookie of a header is appended. -/
theorem after_succ {matched : List Cookie} {count : Nat} {c : Cookie}
    (next : matched[count]? = some c) :
    after matched (count + 1) =
      (after matched count).concatCookie (lowestVersion matched) c := by
  rw [after, List.take_add_one, next, Option.toList_some, List.foldl_append]
  rfl

/-- Behind the last cookie nothing is appended. -/
theorem after_succ_of_end {matched : List Cookie} {count : Nat} (ended : matched[count]? = none) :
    after matched (count + 1) = after matched count := by
  rw [after, List.take_add_one, ended, Option.toList_none, List.append_nil]
  rfl

theorem after_terminated (matched : List Cookie) (count : Nat) :
    (after matched count).Terminated := by
  induction count with
  | zero => exact initial_terminated _
  | succ count ih =>
      cases next : matched[count]? with
      | none => rwa [after_succ_of_end next]
      | some c =>
          rw [after_succ next]
          exact (concatCookie_spec _ ih c).1

/-- The buffer holds the text of the version and of the cookies. -/
theorem after_text (matched : List Cookie) (count : Nat) :
    (after matched count).text = (initial (lowestVersion matched)).text ++
      (matched.take count).flatMap (Urldb.concatCookie (lowestVersion matched)) := by
  induction count with
  | zero => simp [after]
  | succ count ih =>
      cases next : matched[count]? with
      | none => rw [after_succ_of_end next, ih, List.take_add_one, next, Option.toList_none,
          List.append_nil]
      | some c =>
          rw [after_succ next, (concatCookie_spec _ (after_terminated matched count) c).2.1, ih,
            List.take_add_one, next, Option.toList_some, List.flatMap_append, List.append_assoc,
            List.flatMap_singleton]

/-- The header is the text of the buffer, without its start for old cookies. -/
theorem cookieHeader_eq {matched : List Cookie} (some_cookie : matched ≠ []) :
    cookieHeader matched = some
      (if lowestVersion matched = COOKIE_NETSCAPE then (after matched matched.length).text.drop 2
        else (after matched matched.length).text) := by
  rw [after_text, List.take_length, cookieHeader]
  rw [if_neg some_cookie]
  split
  · rename_i old
    rw [old]
    rfl
  · rename_i new
    have text : (initial (lowestVersion matched)).text =
        str "$Version=" ++ decimal (lowestVersion matched) := if_pos (Nat.pos_of_ne_zero new)
    rw [text]

theorem lowestVersion_le (matched : List Cookie) : lowestVersion matched ≤ COOKIE_RFC2965 := by
  refine List.foldlRecOn (motive := fun version => version ≤ COOKIE_RFC2965) matched _ le_rfl ?_
  intro version below c _
  split
  · omega
  · exact below

/-- The buffer starts with room for the version. -/
theorem initial_fits {version : Nat} (known : version ≤ COOKIE_RFC2965) :
    (initial version).written ≤ (initial version).alloc := by
  have cases : version = 0 ∨ version = 1 ∨ version = 2 := by
    unfold COOKIE_RFC2965 at known
    omega
  rcases cases with rfl | rfl | rfl <;> decide

/-- A cookie is no longer than the room in the buffer and 4096 bytes more. -/
def RoomFor (version : Nat) (buf : CookieBuffer) (c : Cookie) : Prop :=
  buf.used + (Urldb.concatCookie version c).length ≤ buf.alloc + 4096

/-- A cookie is written within the buffer exactly when there is room for it. -/
theorem concatCookie_fits_iff (version : Nat) {buf : CookieBuffer} (ready : buf.Terminated)
    (c : Cookie) :
    (buf.concatCookie version c).written ≤ (buf.concatCookie version c).alloc ↔
      RoomFor version buf c := by
  obtain ⟨done, text, alloc⟩ := concatCookie_spec version ready c
  have used : (buf.concatCookie version c).used =
      buf.used + (Urldb.concatCookie version c).length := by
    rw [done.used, text, List.length_append, ready.used]
    omega
  have estimate := length_concatCookie_le version c
  rw [done.written, used, alloc, grow, RoomFor]
  split
  · exact Iff.rfl
  · omega

/-- The bytes that are written for the cookies of a header stay within the buffer exactly when
there is room for each cookie before it is appended. -/
theorem after_fits_iff (matched : List Cookie) :
    (∀ count, (after matched count).written ≤ (after matched count).alloc) ↔
      ∀ count c, matched[count]? = some c →
        RoomFor (lowestVersion matched) (after matched count) c := by
  have step {count : Nat} {c : Cookie} (next : matched[count]? = some c) :
      (after matched (count + 1)).written ≤ (after matched (count + 1)).alloc ↔
        RoomFor (lowestVersion matched) (after matched count) c := by
    rw [after_succ next]
    exact concatCookie_fits_iff _ (after_terminated matched count) c
  constructor
  · intro fits count c next
    exact (step next).mp (fits (count + 1))
  · intro room count
    induction count with
    | zero => exact initial_fits (lowestVersion_le matched)
    | succ count ih =>
        cases next : matched[count]? with
        | none => rwa [after_succ_of_end next]
        | some c => exact (step next).mpr (room count c next)

/-- The text of a new cookie has its path. -/
theorem length_path_le {version : Nat} {c : Cookie} (new : version ≠ COOKIE_NETSCAPE)
    (set : c.pathFromSet = true) : c.path.length ≤ (Urldb.concatCookie version c).length := by
  have path : c.path.length ≤ (quoteSeparated c.path).length := by
    unfold quoteSeparated quote
    split
    · simp only [List.length_append]
      omega
    · exact le_rfl
  simp only [Urldb.concatCookie, new, set, if_true, if_false, List.length_append]
  omega

/-- This cookie was set with a path of so many characters. -/
def longPath (size : Nat) : Cookie where
  name := str "a"
  value := str "b"
  pathFromSet := true
  path := List.replicate size (chr '/')
  domain := str "example.org"
  version := 1

/-- A cookie with a path of 9000 characters overflows the buffer. -/
theorem longPath_overflows :
    ¬∀ count, (after [longPath 9000] count).written ≤ (after [longPath 9000] count).alloc := by
  intro fits
  have version : lowestVersion [longPath 9000] = 1 := by decide
  have room := (concatCookie_fits_iff 1 (initial_terminated 1) (longPath 9000)).mp (by
    have last := fits 1
    rw [after, version] at last
    exact last)
  have new : 1 ≠ COOKIE_NETSCAPE := by decide
  have path : (longPath 9000).path.length = 9000 := List.length_replicate
  have size := length_path_le new (rfl : (longPath 9000).pathFromSet = true)
  unfold RoomFor at room
  rw [(initial_terminated 1).used] at room
  have small : (initial 1).alloc = 4096 := rfl
  omega

end Neosurf.Urldb.CookieBuffer
