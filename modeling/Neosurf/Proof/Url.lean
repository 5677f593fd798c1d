/-
This file proves that an escaped text is unescaped to itself, and that a POSIX path comes back from
the URL that is made of it.
-/

import Neosurf.Construction.Url
import Neosurf.Proof.Bytes
import Neosurf.Proof.Nsurl.Consistent
import Neosurf.Proof.Nsurl.DotEscapes
import Neosurf.Proof.Nsurl.Extents

namespace Neosurf

variable {c : Byte}

/-- Each byte is the number of its two hexadecimal digits. -/
theorem hex_digits (c : Byte) :
    isHex (upperHexDigit ((c >>> 4) &&& 0xf)) = true ∧ isHex (upperHexDigit (c &&& 0xf)) = true ∧
      (xdigitToHex (upperHexDigit ((c >>> 4) &&& 0xf)) <<< 4 |||
        xdigitToHex (upperHexDigit (c &&& 0xf))) = c := by
  revert c
  apply byte_cases
  decide

/-- An escape is read back as its byte. -/
theorem unescapeBytes_escape (c : Byte) (rest : Bytes) :
    unescapeBytes (chr '%' :: upperHexDigit ((c >>> 4) &&& 0xf) :: upperHexDigit (c &&& 0xf) ::
      rest) = c :: unescapeBytes rest := by
  obtain ⟨high, low, value⟩ := hex_digits c
  rw [unescapeBytes, if_pos ⟨rfl, high, low⟩, value]

/-- A byte that starts no escape is copied. -/
theorem unescapeBytes_copy (plain : c ≠ chr '%') (rest : Bytes) :
    unescapeBytes (c :: rest) = c :: unescapeBytes rest := by
  cases rest with
  | nil => rfl
  | cons c1 rest =>
      cases rest with
      | nil => rfl
      | cons c2 rest => rw [unescapeBytes, if_neg fun escape => plain escape.1]

/-- The percent sign is escaped when it is no exception. -/
theorem needsEscape_percent {escexceptions : Option Bytes}
    (allowed : ∀ set ∈ escexceptions, chr '%' ∉ cstr set) :
    needsEscape escexceptions (chr '%') = true := by
  have none_excepts : (escexceptions.any fun set => (cstr set).contains (chr '%')) = false := by
    cases escexceptions with
    | none => rfl
    | some set =>
        simpa using allowed set rfl
  rw [needsEscape, none_excepts]
  decide

/-- What stands for a byte in the escaped text is read back as the byte. -/
theorem unescapeBytes_escapeByte {escexceptions : Option Bytes}
    (allowed : ∀ set ∈ escexceptions, chr '%' ∉ cstr set) (c : Byte) (rest : Bytes) :
    unescapeBytes (escapeByte false escexceptions c ++ rest) = c :: unescapeBytes rest := by
  rw [escapeByte]
  split
  next =>
      rw [if_neg fun space => Bool.false_ne_true space.2]
      exact unescapeBytes_escape c rest
  next copied =>
      apply unescapeBytes_copy
      rintro rfl
      exact copied (needsEscape_percent allowed)

theorem unescapeBytes_flatMap {escexceptions : Option Bytes}
    (allowed : ∀ set ∈ escexceptions, chr '%' ∉ cstr set) (s : Bytes) :
    unescapeBytes (s.flatMap (escapeByte false escexceptions)) = s := by
  induction s with
  | nil => rfl
  | cons c s inductionHypothesis =>
      rw [List.flatMap_cons, unescapeBytes_escapeByte allowed, inductionHypothesis]

/-- An escape holds no NUL. -/
theorem solid_escapeByte (sptoplus : Bool) (escexceptions : Option Bytes) (c : Byte) :
    0 ∉ escapeByte sptoplus escexceptions c := by
  have digit (c : Byte) :
      upperHexDigit ((c >>> 4) &&& 0xf) ≠ 0 ∧ upperHexDigit (c &&& 0xf) ≠ 0 := by
    revert c
    apply byte_cases
    decide
  rw [escapeByte]
  split
  next =>
      split
      next => decide
      next => simpa [chr, eq_comm] using digit c
  next copied =>
      rw [List.mem_singleton]
      rintro rfl
      exact copied (by simp [needsEscape])

/-- The length may be counted by either side. -/
theorem urlUnescape_whole {s : Bytes} (solid : 0 ∉ s) {length : Nat}
    (counted : length = 0 ∨ length = s.length) :
    urlUnescape (some s) length = .ok ((unescapeBytes s).length, unescapeBytes s) := by
  have whole : s.take (if length = 0 then (cstr s).length else length) = s := by
    rw [cstr_of_solid solid]
    split
    next => exact List.take_length
    next given => rw [counted.resolve_left given, List.take_length]
  rw [urlUnescape, whole]

/-- Escaping is undone, whether the length of the escaped text is passed or left to be found. -/
theorem urlUnescape_urlEscape {s : Bytes} (solid : 0 ∉ s) {escexceptions : Option Bytes}
    (allowed : ∀ set ∈ escexceptions, chr '%' ∉ cstr set) :
    ∃ escaped, urlEscape (some s) false escexceptions = .ok escaped ∧
      ∀ length, length = 0 ∨ length = escaped.length →
        urlUnescape (some escaped) length = .ok (s.length, s) := by
  refine ⟨_, rfl, fun length counted => ?_⟩
  rw [urlUnescape_whole ?solid counted, unescapeBytes_flatMap allowed, cstr_of_solid solid]
  intro inside
  obtain ⟨c, -, zero⟩ := List.mem_flatMap.1 inside
  exact solid_escapeByte false escexceptions c zero

/-- A slash is kept beside an escaped byte above the ASCII characters. -/
theorem urlUnescape_urlEscape_path :
    ∃ escaped, urlEscape (some (str "/%" ++ [0xe9])) false (some (str "/")) = .ok escaped ∧
      ∀ length, length = 0 ∨ length = escaped.length →
        urlUnescape (some escaped) length = .ok (3, str "/%" ++ [0xe9]) :=
  urlUnescape_urlEscape (by decide) (by rintro _ ⟨⟩; decide)

end Neosurf

namespace Neosurf

open Nsurl

/-- The exceptions leave out the slash only. -/
def pathExceptions : Option Bytes := some (str "/")

/-- This is the escaped form of a path. -/
def escapedPath (path : Bytes) : Bytes := path.flatMap (escapeByte false pathExceptions)

/-- The characters are tested one by one, so that the test can be run. -/
theorem escapeByte_plain (c : Byte) :
    (escapeByte false pathExceptions c).all (fun b => b != 0 && !endsPath b && !isSpace b) = true := by
  revert c
  apply byte_cases
  decide

/-- What `url_escape` makes of a byte. No character of it is a delimiter or white space, an escape
is of the byte, and a byte that needs none stays as it is. -/
theorem escapeByte_facts (c : Byte) :
    (∀ b ∈ escapeByte false pathExceptions c, b ≠ 0 ∧ endsPath b = false ∧ isSpace b = false) ∧
    (needsEscape pathExceptions c = true →
      hexToValue2Chars (upperHexDigit ((c >>> 4) &&& 0xf)) (upperHexDigit (c &&& 0xf)) = some c ∧
        c ≠ chr '/') ∧
    (needsEscape pathExceptions c = false → c ≠ chr '%' ∧ isNoEscape c = true) ∧
    (isUnreserved c = true → c ≠ chr '%') := by
  constructor
  · intro b inside
    have plain := List.all_eq_true.mp (escapeByte_plain c) b inside
    simpa [and_assoc] using plain
  · revert c
    apply byte_cases
    decide

variable {text : Bytes}

theorem escapedPath_plain (path : Bytes) : ∀ b ∈ escapedPath path,
    b ≠ 0 ∧ endsPath b = false ∧ isSpace b = false := by
  intro b inside
  obtain ⟨c, -, inside⟩ := List.mem_flatMap.mp inside
  exact (escapeByte_facts c).1 b inside

/-- The normal form of an escaped character is read back as the character. -/
theorem unescape_normalise_escapeByte (c : Byte) (text : Bytes) :
    unescapeBytes (normalise false (escapeByte false pathExceptions c ++ text)) =
      c :: unescapeBytes (normalise false text) := by
  obtain ⟨-, escaped, plain, unreserved⟩ := escapeByte_facts c
  cases needs : needsEscape pathExceptions c with
  | true =>
      rw [escapeByte, if_pos needs, if_neg fun space => Bool.false_ne_true space.2]
      have starts : StartsEscape (chr '%' :: upperHexDigit ((c >>> 4) &&& 0xf) ::
          upperHexDigit (c &&& 0xf) :: text) c text := ⟨_, _, rfl, (escaped needs).1⟩
      have escape := normalise_escape starts
      cases free : isUnreserved c with
      | true =>
          rw [if_pos free] at escape
          exact (congrArg unescapeBytes escape).trans (unescapeBytes_copy (unreserved free) _)
      | false =>
          rw [if_neg (by simp [free])] at escape
          exact (congrArg unescapeBytes escape).trans (unescapeBytes_escape c _)
  | false =>
      obtain ⟨other, kept⟩ := plain needs
      rw [escapeByte, if_neg (by simp [needs])]
      have alone : normaliseChar false c = [c] := by simp [normaliseChar, kept]
      have unescaped (value : Byte) (tail : Bytes) : ¬ StartsEscape (c :: text) value tail := by
        rintro ⟨h, l, escape, -⟩
        cases escape
        exact other rfl
      obtain ⟨front, split, same⟩ := normalise_cons unescaped
      have front_eq : front = [c] := by
        rcases same with rfl | ⟨rfl, -⟩
        · exact alone
        · rfl
      rw [List.singleton_append, split, front_eq]
      exact unescapeBytes_copy other _

/-- The normal form of an escaped path is read back as the path. -/
theorem unescape_normalise_escapedPath (path : Bytes) :
    unescapeBytes (normalise false (escapedPath path)) = path := by
  induction path with
  | nil => rfl
  | cons c path ih =>
      rw [escapedPath, List.flatMap_cons, unescape_normalise_escapeByte]
      exact congrArg (c :: ·) ih

/-- The markers of a file URL where nothing ends the path. -/
theorem getStringMarkers_file (plain : ∀ b ∈ text, endsPath b = false ∧ isSpace b = false) :
    getStringMarkers (fileSchemePrefix ++ text) false =
      { start := 0, schemeEnd := 4, authority := 7, colonFirst := 7, atSign := 7, colonLast := 7,
        path := 7, query := 8 + text.length, fragment := 8 + text.length,
        stop := 8 + text.length, schemeType := .file } := by
  let urlS := fileSchemePrefix ++ text
  have size : urlS.length = 8 + text.length := List.length_append
  have scheme : scanScheme urlS false (UrlMarkers.first 0) =
      ⟨5, false, { UrlMarkers.first 0 with
        schemeEnd := 4, schemeType := .file }.startAuthority 5⟩ := rfl
  have authority : scanAuthority urlS false (scanScheme urlS false (UrlMarkers.first 0)) =
      ⟨7, false, { UrlMarkers.first 0 with
        schemeEnd := 4, schemeType := .file }.startAuthority 7⟩ := by
    have starts : startsAuthority urlS false ⟨5, false, { UrlMarkers.first 0 with
        schemeEnd := 4, schemeType := .file }.startAuthority 5⟩ = true := rfl
    have skips : skipSlashes urlS ⟨5, false, { UrlMarkers.first 0 with
        schemeEnd := 4, schemeType := .file }.startAuthority 5⟩ = 7 := by
      rw [skipSlashes]
      have slashes : run (· == chr '/') (urlS.drop 5) =
          (text.takeWhile (· == chr '/')).length + 1 + 1 + 1 := rfl
      rw [slashes, if_neg Bool.false_ne_true]
      dsimp only
      omega
    rw [scheme, scanAuthority, if_pos starts, skips]
    rfl
  have whole : run (fun c => !endsPath c) text = text.length := by
    rw [Nsurl.run, List.takeWhile_eq_self_iff.mpr fun c inside => by simp [(plain c inside).1]]
  have path : scanPath urlS (scanAuthority urlS false (scanScheme urlS false
      (UrlMarkers.first 0))) = 8 + text.length := by
    rw [authority, scanPath, if_pos ⟨by dsimp only; omega, Or.inl rfl⟩]
    exact congrArg (8 + ·) whole
  have query : scanQuery urlS (8 + text.length) = 8 + text.length := by
    rw [scanQuery, if_neg]
    intro mark
    have inside := lt_length_of_byteAt mark (by decide)
    omega
  have stop : endOf urlS = 8 + text.length := by
    have letters : fileSchemePrefix.all (fun b => !isSpace b) = true := by decide
    have solid : ∀ b ∈ urlS.reverse, isSpace b = false := by
      intro b inside
      rcases List.mem_append.mp (List.mem_reverse.mp inside) with first | later
      · simpa using List.all_eq_true.mp letters b first
      · exact (plain b later).2
    have none : run isSpace urlS.reverse = 0 := by
      cases reversed : urlS.reverse with
      | nil => rfl
      | cons b rest =>
          have last := solid b (by rw [reversed]; exact List.mem_cons_self)
          rw [Nsurl.run, List.takeWhile_cons_of_neg (by simp [last])]
          rfl
    rw [endOf, none, size, Nat.sub_zero]
  have start : run isSpace urlS = 0 := rfl
  have nonempty : ¬ 0 = urlS.length := by omega
  change getStringMarkers urlS false = _
  rw [getStringMarkers, start, if_neg nonempty]
  simp only [path, query, stop]
  rw [authority, if_neg (by omega)]
  rfl

/-- These are the components of a file URL. -/
def fileComponents (text : Bytes) : NsurlComponents :=
  { scheme := some (str "file")
    schemeType := .file
    path := some (normalise false (chr '/' :: text)) }

theorem createComponents_file (junk : Buff)
    (plain : ∀ b ∈ text, endsPath b = false ∧ isSpace b = false) :
    createComponents junk (fileSchemePrefix ++ text) = .ok (fileComponents text) := by
  let urlS := fileSchemePrefix ++ text
  have size : urlS.length = 8 + text.length := List.length_append
  obtain ⟨m, found⟩ : ∃ m, getStringMarkers urlS false = m := ⟨_, rfl⟩
  have markers := getStringMarkers_file plain
  change getStringMarkers urlS false = _ at markers
  have scheme : createScheme urlS m junk { schemeType := m.schemeType } =
      ({ scheme := some (str "file"), schemeType := .file },
        writeNorm junk (str "file")) := by
    rw [← found, markers]
    rfl
  have ended : slice urlS (8 + text.length) (8 + text.length) = [] := slice_eq_nil (Nat.le_refl _)
  have no_byte : byteAt urlS (8 + text.length) = 0 := by
    rw [byteAt, List.getD_eq_getElem?_getD, List.getElem?_eq_none (Nat.le_of_eq size)]
    rfl
  have path : slice urlS m.path m.query = chr '/' :: text := by
    rw [← found, markers, slice, ← size, List.take_length]
    rfl
  have query (c : NsurlComponents) : createQuery urlS m c = { c with query := none } := by
    rw [createQuery, ← found, markers]
    dsimp only
    rw [no_byte, if_pos (show (0 : Byte) ≠ chr '?' by decide), ended]
    rfl
  have fragment (c : NsurlComponents) : createFragment urlS m c = { c with fragment := none } := by
    rw [createFragment, ← found, markers]
    dsimp only
    rw [no_byte, if_pos (show (0 : Byte) ≠ chr '#' by decide), ended]
    rfl
  change createComponents junk urlS = _
  have typed {buff : Buff} : createCredentials urlS m buff
      { scheme := some (str "file"), schemeType := .file } =
        .ok ({ scheme := some (str "file"), schemeType := .file },
          writeNorm buff (normalise false (slice urlS m.authority m.atSign))) := by
    rw [createCredentials, if_pos rfl]
  have hostless {buff : Buff} : createHost urlS m buff
      { scheme := some (str "file"), schemeType := .file } =
        .ok { scheme := some (str "file"), schemeType := .file } := by
    rw [createHost, if_pos (Or.inl rfl)]
  have filled : normalise false (chr '/' :: text) ≠ [] := fun empty => by
    cases normalise_eq_nil.mp empty
  rw [createComponents, found]
  simp only [scheme, typed, path, query, fragment, createPath, if_pos filled]
  change Except.bind (.ok _) _ = _
  simp only [Except.bind, hostless]
  rfl

/-- The object of a file URL keeps its components. -/
theorem nsurlCreate_file (junk : Buff)
    (plain : ∀ b ∈ text, b ≠ 0 ∧ endsPath b = false ∧ isSpace b = false) :
    ∃ url, nsurlCreate junk (fileSchemePrefix ++ text) = .ok url ∧
      url.components = fileComponents text := by
  have solid : 0 ∉ fileSchemePrefix ++ text := by
    intro inside
    rcases List.mem_append.mp inside with first | later
    · exact absurd first (by decide)
    · exact (plain 0 later).1 rfl
  have built : build (fileComponents text) =
      .ok (derive (fileComponents text) (serialised (fileComponents text))
        (serialised (fileComponents text)).length) := by
    rw [build, componentsToString_withFragment _ rfl]
    rfl
  refine ⟨_, ?_, build_components built⟩
  rw [nsurlCreate, cstr_of_solid solid,
    createComponents_file junk fun b inside => (plain b inside).2]
  have web : needsHost (fileComponents text) = false := rfl
  change (if needsHost (fileComponents text) = true ∧ (fileComponents text).host = none then
    .error .badUrl else build (fileComponents text)) = _
  rw [if_neg fun needs => Bool.false_ne_true (web.symm.trans needs.1)]
  exact built

/-- Only the first slash is dropped. -/
theorem dropWhile_escapedPath {rest : Bytes} (absolute : rest.head? ≠ some (chr '/')) :
    (escapedPath (chr '/' :: rest)).dropWhile (· == chr '/') = escapedPath rest := by
  have first : escapedPath (chr '/' :: rest) = chr '/' :: escapedPath rest := rfl
  rw [first, List.dropWhile_cons_of_pos (by simp)]
  cases rest with
  | nil => rfl
  | cons c rest =>
      have other : c ≠ chr '/' := fun same => absolute (by rw [same]; rfl)
      rw [escapedPath, List.flatMap_cons, escapeByte]
      split
      · rw [if_neg fun space => Bool.false_ne_true space.2]
        rfl
      · rw [List.singleton_append, List.dropWhile_cons_of_neg (by simpa using other)]

/-- A path that starts with one slash comes back from its URL, whatever its other bytes are. -/
theorem posixNsurlToPath_posixPathToNsurl (junk : Buff) {rest : Bytes}
    (absolute : rest.head? ≠ some (chr '/')) (solid : 0 ∉ rest) :
    ∃ url, posixPathToNsurl junk (some (chr '/' :: rest)) = some (.ok url) ∧
      posixNsurlToPath (some url) = .ok (chr '/' :: rest) := by
  obtain ⟨url, created, components⟩ := nsurlCreate_file junk (escapedPath_plain rest)
  have escaped : urlEscape (some (chr '/' :: rest)) false (some (str "/")) =
      .ok (escapedPath (chr '/' :: rest)) := by
    rw [urlEscape, cstr_of_solid]
    · rfl
    · rw [List.mem_cons, not_or]
      exact ⟨by decide, solid⟩
  obtain ⟨norm, same⟩ : ∃ norm, normalise false (escapedPath (chr '/' :: rest)) = norm := ⟨_, rfl⟩
  have filled : norm.length ≠ 0 := fun empty => by
    rw [List.length_eq_zero_iff, ← same, normalise_eq_nil] at empty
    cases empty
  have read : unescapeBytes norm = chr '/' :: rest := by
    rw [← same, unescape_normalise_escapedPath]
  refine ⟨url, ?_, ?_⟩
  · rw [posixPathToNsurl]
    dsimp only
    rw [if_neg (show byteAt (chr '/' :: rest) 0 ≠ 0 by change chr '/' ≠ 0; decide), escaped]
    dsimp only
    rw [dropWhile_escapedPath absolute, created]
  · have path : (fileComponents (escapedPath rest)).path = some norm := congrArg some same
    have scheme : lwcStringCaselessIsequal ((fileComponents (escapedPath rest)).scheme.getD [])
        (str "file") = (lwcErrorOk, true) := rfl
    simp only [posixNsurlToPath, components, scheme, path, urlUnescape, if_neg filled,
      List.take_length, read]
    rfl

/-- A name with escapes, marks, a tilde, a space and a byte above the ASCII characters. -/
theorem posixNsurlToPath_name :
    ∃ url, posixPathToNsurl (fun _ => 0) (some (chr '/' :: (str "~a/%41?b#c d" ++ [0xe9]))) =
        some (.ok url) ∧
      posixNsurlToPath (some url) = .ok (chr '/' :: (str "~a/%41?b#c d" ++ [0xe9])) :=
  posixNsurlToPath_posixPathToNsurl (fun _ => 0) (by decide) (by decide)

end Neosurf
