/-
This file compares how the parser of cookies treats a comma, and blanks around names and
values, with the rules that it states.
-/

import Mathlib.Data.List.TakeWhile
import Neosurf.Construction.Urldb.Database
import Neosurf.Proof.Urldb.StoredCookies

namespace Neosurf.Urldb

variable {env : Environment} {P : Draft → Prop}

@[simp] theorem push_draft (s : ParseState) (c : Byte) : (s.push c).draft = s.draft := by
  unfold ParseState.push
  split_ifs <;> rfl

theorem startValue_draft {s after : ParseState} {c : Byte} (done : startValue s c = some after) :
    after.draft = s.draft := by
  unfold startValue at done
  split_ifs at done
  · cases done
    rfl
  · cases done
    rfl

@[simp] theorem commaOrText_draft (s : ParseState) (c : Byte) (rest : Bytes) :
    (commaOrText s c rest).1.draft = s.draft := by
  unfold commaOrText
  split
  · rfl
  · exact push_draft s c

@[simp] theorem separatorOrText_draft (s : ParseState) (c : Byte) (rest : Bytes) :
    (separatorOrText s c rest).1.draft = s.draft := by
  unfold separatorOrText
  split
  · rfl
  · exact commaOrText_draft s c rest

/-- What every attribute preserves, a character preserves. -/
theorem parseChar_rule (avpair : ∀ d n v quoted, P d → P (parseAvpair env d n v quoted))
    {prev : Option Byte} {s : ParseState} {c : Byte} {rest : Bytes} (before : P s.draft) :
    P (parseChar env prev s c rest).1.draft := by
  unfold parseChar
  cases started : startValue s c with
  | none => exact before
  | some t =>
      rw [← startValue_draft started] at before
      have flushed : P (t.flush env).draft := avpair _ _ _ _ before
      dsimp only
      split
      · exact before
      · split
        · exact before
        · split
          · split
            · exact flushed
            · rw [separatorOrText_draft]
              exact flushed
          · rw [commaOrText_draft]
            exact before

/-- What every attribute preserves, the loop of `urldb_parse_cookie` preserves. -/
theorem parseLoop_rule (avpair : ∀ d n v quoted, P d → P (parseAvpair env d n v quoted))
    {prev : Option Byte} {s : ParseState} {text : Bytes} (before : P s.draft) :
    P (parseLoop env prev s text).1.draft := by
  induction text generalizing prev s with
  | nil => exact before
  | cons c rest ih =>
      rw [parseLoop]
      split
      · split
        · exact before
        · exact before
      · split
        · exact ih before
        · have kept : P (parseChar env prev s c rest).1.draft := parseChar_rule avpair before
          dsimp only
          split
          · exact kept
          · exact ih kept

/-- Only a domain with a dot at its start is taken from a header. -/
theorem parseAvpair_domain {d : Draft} {n v : Bytes} {quoted : Bool}
    (before : ∀ domain, d.domain = some domain → byteAt domain 0 = chr '.') :
    ∀ domain, (parseAvpair env d n v quoted).domain = some domain → byteAt domain 0 = chr '.' := by
  unfold parseAvpair
  dsimp only
  split
  · exact before
  · split
    · split
      · rename_i dot
        intro domain same
        cases same
        exact dot
      · exact before
    · split_ifs <;> exact before

/-- A parsed cookie is for a domain with a dot at its start, or for the host of the page. -/
theorem parseCookie_domain {url : Nsurl} {header rest : Bytes} {c : Cookie}
    (parsed : parseCookie env url header = some (c, rest)) :
    byteAt c.domain 0 = chr '.' ∨ url.components.host.map cstr = some c.domain := by
  unfold parseCookie at parsed
  simp only [Option.bind_eq_bind, Option.bind_eq_some_iff, Option.some.injEq, Prod.mk.injEq]
    at parsed
  obtain ⟨d, complete, rfl, _⟩ := parsed
  have dotted : ∀ domain, ((parseLoop env none {} header).1.flush env).draft.domain = some domain →
      byteAt domain 0 = chr '.' := by
    apply parseAvpair_domain
    apply parseLoop_rule (P := fun d => ∀ domain, d.domain = some domain → byteAt domain 0 = chr '.')
      (fun d n v quoted => parseAvpair_domain)
    intro domain impossible
    cases impossible
  revert dotted complete
  generalize ((parseLoop env none {} header).1.flush env).draft = draft
  intro complete dotted
  unfold Draft.complete at complete
  cases given : draft.domain with
  | none =>
      cases own : draft.path <;>
        simp only [given, own, Option.bind_eq_bind, Option.bind_eq_some_iff, Option.some.injEq,
          Prod.exists] at complete
      · obtain ⟨_, _, _, _, domain, domain_eq, _, _, rfl⟩ := complete
        exact Or.inr domain_eq
      · obtain ⟨_, _, _, _, domain, domain_eq, _, _, rfl⟩ := complete
        exact Or.inr domain_eq
  | some domain =>
      have dot := dotted domain given
      cases own : draft.path <;>
        simp only [given, own, Option.bind_eq_bind, Option.bind_eq_some_iff, Option.some.injEq,
          Prod.exists] at complete
      · obtain ⟨_, _, _, _, _, rfl, _, _, rfl⟩ := complete
        exact Or.inl dot
      · obtain ⟨_, _, _, _, _, rfl, _, _, rfl⟩ := complete
        exact Or.inl dot

end Neosurf.Urldb

namespace Neosurf.Urldb

/-- The rule: an equals sign stands before the next semicolon, or before the end of the input. -/
def commaRule (rest : Bytes) : Bool := (rest.takeWhile (· ≠ chr ';')).contains (chr '=')

/-- After a comma stands a semicolon, or an equals sign that is none of the last two characters, or
none among at least two, or an equals sign alone. -/
def FitsComma (rest : Bytes) : Prop :=
  chr ';' ∈ rest ∨ (2 ≤ rest.length ∧ (chr '=' ∈ rest → chr '=' ∈ rest.take (rest.length - 2))) ∨
    rest = [chr '=']

instance (rest : Bytes) : Decidable (FitsComma rest) := inferInstanceAs (Decidable (_ ∨ _ ∨ _))

/-- An unquoted comma is looked at in every state of the loop. -/
theorem parseChar_comma (env : Environment) (prev : Option Byte) {s : ParseState}
    (unquoted : s.quoted = false) (rest : Bytes) :
    (parseChar env prev s (chr ',') rest).2 = commaEnds rest := by
  have ends (t : ParseState) (plain : t.quoted = false) :
      (commaOrText t (chr ',') rest).2 = commaEnds rest := by
    rw [commaOrText]
    cases commaEnds rest <;> simp [plain]
  have separator (t : ParseState) : separatorOrText t (chr ',') rest = commaOrText t (chr ',') rest :=
    if_neg fun equals => absurd equals.2.2 (by decide)
  obtain ⟨t, started, plain⟩ : ∃ t, startValue s (chr ',') = some t ∧ t.quoted = false := by
    rw [startValue]
    split_ifs with first blank
    · exact absurd blank (by decide)
    · exact ⟨_, rfl, unquoted⟩
    · exact ⟨_, rfl, unquoted⟩
  have quote : ¬chr ',' = chr '"' := by decide
  have equals : ¬chr ',' = chr '=' := by decide
  have semicolon : ¬chr ',' = chr ';' := by decide
  simp only [parseChar, started, quote, equals, semicolon, and_false, false_and, if_false]
  split_ifs
  · rw [separator, ends (t.flush env) plain]
  · exact ends t plain

/-- Without a semicolon the rule looks at the whole rest. -/
theorem commaRule_eq {rest : Bytes} (alone : chr ';' ∉ rest) :
    commaRule rest = rest.contains (chr '=') := by
  have whole : rest.takeWhile (· ≠ chr ';') = rest := by
    rw [List.takeWhile_eq_self_iff]
    intro c inside
    exact decide_eq_true fun same => alone (same ▸ inside)
  rw [commaRule, whole]

/-- The test of the parser keeps to the rule exactly where it fits. -/
theorem commaEnds_iff (rest : Bytes) : commaEnds rest = commaRule rest ↔ FitsComma rest := by
  by_cases separated : chr ';' ∈ rest
  · have same : commaEnds rest = commaRule rest := if_pos (List.contains_iff_mem.mpr separated)
    exact iff_of_true same (.inl separated)
  · have alone : ¬rest.contains (chr ';') = true := fun found =>
      separated (List.contains_iff_mem.mp found)
    rw [commaRule_eq separated, commaEnds, if_neg alone, FitsComma, or_iff_right separated]
    split_ifs with short
    · -- Fewer than two characters end the cookie, which only a single equals sign agrees with.
      rw [or_iff_right (fun long => absurd long.1 short.not_ge)]
      cases rest with
      | nil => decide
      | cons c tail =>
          have empty : tail = [] := List.length_eq_zero_iff.mp (by rw [List.length_cons] at short; omega)
          simp [empty, eq_comm]
    · have long : 2 ≤ rest.length := not_lt.mp short
      have single : rest ≠ [chr '='] := by
        rintro rfl
        exact absurd long (by decide)
      rw [or_iff_left single, Bool.eq_iff_iff, List.contains_iff_mem, List.contains_iff_mem]
      have whole : chr '=' ∈ rest.take (rest.length - 2) → chr '=' ∈ rest := List.mem_of_mem_take
      tauto

/-- An unquoted comma ends the cookie as the rule says exactly where it fits. -/
theorem parseChar_comma_iff (env : Environment) (prev : Option Byte) (s : ParseState)
    (unquoted : s.quoted = false) (rest : Bytes) :
    ((parseChar env prev s (chr ',') rest).2 = true ↔ commaRule rest = true) ↔
      FitsComma rest := by
  rw [parseChar_comma env prev unquoted rest, ← commaEnds_iff rest]
  exact Bool.eq_iff_iff.symm

/-- A comma of a date does not end its cookie. -/
theorem parseChar_comma_date :
    (parseChar plainEnvironment none {} (chr ',') (str " 1 Jan 2030; Path=/")).2 = true ↔
      commaRule (str " 1 Jan 2030; Path=/") = true :=
  (parseChar_comma_iff plainEnvironment none {} rfl (str " 1 Jan 2030; Path=/")).mpr (by decide)

/-- The equals sign at the end of an input without a line end is not seen. -/
theorem parseChar_comma_unseen : (∃ url c, Nsurl.nsurlCreate (fun _ => 0) (str "http://h/a") = .ok url ∧
      parseCookie plainEnvironment url (str "a=b,c=") = some (c, []) ∧ c.value = str "b,c=" ∧
      commaRule (str "c=") = true) ∧
    ¬∀ env prev (s : ParseState) rest, s.quoted = false →
      ((parseChar env prev s (chr ',') rest).2 = true ↔ commaRule rest = true) := by
  refine ⟨⟨_, _, rfl, rfl, rfl, rfl⟩, fun all => ?_⟩
  have same := all plainEnvironment none {} (str "c=") rfl
  rw [parseChar_comma plainEnvironment none rfl] at same
  exact absurd same (by decide)

/-- A text has no blank at its end. -/
def EndsSolid (text : Bytes) : Prop := ∀ c, text.getLast? = some c → isBlank c = false

/-- A text has no blank at its start and none at its end. -/
def Trimmed (text : Bytes) : Prop :=
  (∀ c, text.head? = some c → isBlank c = false) ∧ EndsSolid text

/-- This is a call of `urldb_parse_avpair`. -/
structure AvpairCall where
  draft : Draft
  name : Bytes
  value : Bytes
  wasQuoted : Bool
  deriving DecidableEq, Repr

namespace AvpairCall

variable (env : Environment) (call : AvpairCall)

/-- The cookie after the call. -/
def after : Draft := parseAvpair env call.draft call.name call.value call.wasQuoted

/-- A text that is stored has no blank at its ends, unless it was quoted. -/
def Keeps (field : Draft → Option Bytes) : Prop :=
  field call.draft = none → ∀ text, field (call.after env) = some text →
    call.wasQuoted = true ∨ Trimmed text

/-- What the call stores has no blank at its ends outside quotes. -/
structure Clean : Prop where
  comment : call.Keeps env Draft.comment
  domain : call.Keeps env Draft.domain
  path : call.Keeps env Draft.path
  name : call.draft.name = none → ∀ n v quoted, (call.after env).name = some (n, v, quoted) →
    Trimmed n ∧ (quoted = true ∨ Trimmed v)

/-- The places where a call may store its texts. -/
inductive Slot where
  | comment
  | domain
  | path
  | name
  | nothing
  deriving DecidableEq, Repr

/-- The name, and what the cookie has already, decide where the texts are stored. -/
def slot : Slot :=
  let n := call.name.dropWhile isBlank
  let named (text : String) : Bool := strcasecmp n (str text) == .eq
  if call.draft.comment = none ∧ named "Comment" then .comment
  else if call.draft.domain = none ∧ named "Domain" then
    if byteAt (call.value.dropWhile isBlank) 0 = chr '.' then .domain else .nothing
  else if named "Max-Age" then .nothing
  else if call.draft.path = none ∧ named "Path" then .path
  else if named "Version" then .nothing
  else if named "Expires" then .nothing
  else if named "Secure" then .nothing
  else if named "HttpOnly" then .nothing
  else if call.draft.name = none then .name
  else .nothing

/-- The texts that are stored do not end in a blank, unless the value was quoted. -/
def Solid : Prop :=
  (call.slot = .name → EndsSolid (call.name.dropWhile isBlank)) ∧
    (call.slot ≠ .nothing → call.wasQuoted = true ∨ EndsSolid (call.value.dropWhile isBlank))

/-- The text of the value without the blanks at its start. -/
abbrev text : Bytes := call.value.dropWhile isBlank

/-- The texts of a cookie stay the same. -/
structure Untouched (d after : Draft) : Prop where
  comment : after.comment = d.comment
  domain : after.domain = d.domain
  path : after.path = d.path
  name : after.name = d.name

/-- What the call does in each place. -/
theorem after_cases :
    (call.slot = .comment ∧ call.draft.comment = none ∧
      call.after env = { call.draft with comment := some call.text }) ∨
    (call.slot = .domain ∧ call.draft.domain = none ∧
      call.after env = { call.draft with domain := some call.text }) ∨
    (call.slot = .path ∧ call.draft.path = none ∧
      call.after env = { call.draft with path := some call.text }) ∨
    (call.slot = .name ∧ call.draft.name = none ∧ call.after env =
      { call.draft with name := some (call.name.dropWhile isBlank, call.text, call.wasQuoted) }) ∨
    (call.slot = .nothing ∧ Untouched call.draft (call.after env)) := by
  rw [slot, after, parseAvpair]
  dsimp only
  by_cases comment : call.draft.comment = none ∧
      (strcasecmp (call.name.dropWhile isBlank) (str "Comment") == .eq) = true
  · rw [if_pos comment, if_pos comment]
    exact .inl ⟨rfl, comment.1, rfl⟩
  rw [if_neg comment, if_neg comment]
  by_cases domain : call.draft.domain = none ∧
      (strcasecmp (call.name.dropWhile isBlank) (str "Domain") == .eq) = true
  · rw [if_pos domain, if_pos domain]
    split_ifs
    · exact .inr (.inl ⟨rfl, domain.1, rfl⟩)
    · exact .inr (.inr (.inr (.inr ⟨rfl, rfl, rfl, rfl, rfl⟩)))
  rw [if_neg domain, if_neg domain]
  by_cases age : (strcasecmp (call.name.dropWhile isBlank) (str "Max-Age") == .eq) = true
  · rw [if_pos age, if_pos age]
    exact .inr (.inr (.inr (.inr ⟨rfl, rfl, rfl, rfl, rfl⟩)))
  rw [if_neg age, if_neg age]
  by_cases path : call.draft.path = none ∧
      (strcasecmp (call.name.dropWhile isBlank) (str "Path") == .eq) = true
  · rw [if_pos path, if_pos path]
    exact .inr (.inr (.inl ⟨rfl, path.1, rfl⟩))
  rw [if_neg path, if_neg path]
  by_cases version : (strcasecmp (call.name.dropWhile isBlank) (str "Version") == .eq) = true
  · rw [if_pos version, if_pos version]
    exact .inr (.inr (.inr (.inr ⟨rfl, rfl, rfl, rfl, rfl⟩)))
  rw [if_neg version, if_neg version]
  by_cases expires : (strcasecmp (call.name.dropWhile isBlank) (str "Expires") == .eq) = true
  · rw [if_pos expires, if_pos expires]
    exact .inr (.inr (.inr (.inr ⟨rfl, rfl, rfl, rfl, rfl⟩)))
  rw [if_neg expires, if_neg expires]
  by_cases secure : (strcasecmp (call.name.dropWhile isBlank) (str "Secure") == .eq) = true
  · rw [if_pos secure, if_pos secure]
    exact .inr (.inr (.inr (.inr ⟨rfl, rfl, rfl, rfl, rfl⟩)))
  rw [if_neg secure, if_neg secure]
  by_cases http : (strcasecmp (call.name.dropWhile isBlank) (str "HttpOnly") == .eq) = true
  · rw [if_pos http, if_pos http]
    exact .inr (.inr (.inr (.inr ⟨rfl, rfl, rfl, rfl, rfl⟩)))
  rw [if_neg http, if_neg http]
  by_cases name : call.draft.name = none
  · rw [if_pos name, if_pos name]
    exact .inr (.inr (.inr (.inl ⟨rfl, name, rfl⟩)))
  · rw [if_neg name, if_neg name]
    exact .inr (.inr (.inr (.inr ⟨rfl, rfl, rfl, rfl, rfl⟩)))

end AvpairCall

/-- Only the end of a text decides once the blanks at its start are gone. -/
theorem trimmed_dropWhile (text : Bytes) :
    Trimmed (text.dropWhile isBlank) ↔ EndsSolid (text.dropWhile isBlank) := by
  refine ⟨fun trimmed => trimmed.2, fun solid => ⟨fun c first => ?_, solid⟩⟩
  have kept := List.head?_dropWhile_not isBlank text
  rw [first] at kept
  simpa using kept

namespace AvpairCall

variable {env : Environment} {call : AvpairCall} {field : Draft → Option Bytes}

theorem keeps_of_same (same : field (call.after env) = field call.draft) :
    call.Keeps env field := by
  intro missing text stored
  rw [same, missing] at stored
  cases stored

theorem keeps_iff (missing : field call.draft = none)
    (stored : field (call.after env) = some call.text) :
    call.Keeps env field ↔ call.wasQuoted = true ∨ EndsSolid call.text := by
  rw [Keeps, ← trimmed_dropWhile]
  constructor
  · exact fun keeps => keeps missing call.text stored
  · intro clean _ text here
    rw [stored] at here
    cases here
    exact clean

/-- A name that was there is kept. -/
theorem name_of_same (same : (call.after env).name = call.draft.name) :
    call.draft.name = none → ∀ n v quoted, (call.after env).name = some (n, v, quoted) →
      Trimmed n ∧ (quoted = true ∨ Trimmed v) := by
  intro missing n v quoted stored
  rw [same, missing] at stored
  cases stored

/-- A call stores clean texts exactly when they are solid. -/
theorem clean_iff (env : Environment) (call : AvpairCall) : call.Clean env ↔ call.Solid := by
  rcases after_cases env call with ⟨slot, missing, stored⟩ | ⟨slot, missing, stored⟩ |
    ⟨slot, missing, stored⟩ | ⟨slot, missing, stored⟩ | ⟨slot, same⟩
  · have keeps : call.Keeps env Draft.comment ↔ call.wasQuoted = true ∨ EndsSolid call.text :=
      keeps_iff missing (by rw [stored])
    rw [Solid, slot]
    exact ⟨fun clean => ⟨fun other => absurd other (by decide), fun _ => keeps.mp clean.comment⟩,
      fun solid => ⟨keeps.mpr (solid.2 (by decide)), keeps_of_same (by rw [stored]),
        keeps_of_same (by rw [stored]), name_of_same (by rw [stored])⟩⟩
  · have keeps : call.Keeps env Draft.domain ↔ call.wasQuoted = true ∨ EndsSolid call.text :=
      keeps_iff missing (by rw [stored])
    rw [Solid, slot]
    exact ⟨fun clean => ⟨fun other => absurd other (by decide), fun _ => keeps.mp clean.domain⟩,
      fun solid => ⟨keeps_of_same (by rw [stored]), keeps.mpr (solid.2 (by decide)),
        keeps_of_same (by rw [stored]), name_of_same (by rw [stored])⟩⟩
  · have keeps : call.Keeps env Draft.path ↔ call.wasQuoted = true ∨ EndsSolid call.text :=
      keeps_iff missing (by rw [stored])
    rw [Solid, slot]
    exact ⟨fun clean => ⟨fun other => absurd other (by decide), fun _ => keeps.mp clean.path⟩,
      fun solid => ⟨keeps_of_same (by rw [stored]), keeps_of_same (by rw [stored]),
        keeps.mpr (solid.2 (by decide)), name_of_same (by rw [stored])⟩⟩
  · have named : (call.after env).name =
        some (call.name.dropWhile isBlank, call.text, call.wasQuoted) := by rw [stored]
    rw [Solid, slot, ← trimmed_dropWhile, ← trimmed_dropWhile]
    constructor
    · intro clean
      have texts := clean.name missing _ _ _ named
      exact ⟨fun _ => texts.1, fun _ => texts.2⟩
    · intro solid
      refine ⟨keeps_of_same (by rw [stored]), keeps_of_same (by rw [stored]),
        keeps_of_same (by rw [stored]), fun _ n v quoted here => ?_⟩
      rw [named] at here
      cases here
      exact ⟨solid.1 rfl, solid.2 (by decide)⟩
  · rw [Solid, slot]
    exact iff_of_true ⟨keeps_of_same same.comment, keeps_of_same same.domain,
      keeps_of_same same.path, name_of_same same.name⟩
      ⟨fun other => absurd other (by decide), fun other => absurd rfl other⟩

end AvpairCall

/-- The state of the loop is passed to `urldb_parse_avpair`. -/
def ParseState.call (s : ParseState) : AvpairCall := ⟨s.draft, s.name, s.value, s.wasQuoted⟩

/-- The call that a character causes: a semicolon, or the first character after a quoted value. -/
def callAt (prev : Option Byte) (s : ParseState) (c : Byte) : Option AvpairCall :=
  match startValue s c with
  | none => none
  | some s =>
      if s.inValue ∧ s.valueVerbatim = false ∧ c = chr '"' ∧ prev ≠ some (chr '\\') then none
      else if s.quoted = false ∧ s.inValue = false ∧ c = chr '=' then none
      else if s.quoted = false ∧ (s.wasQuoted ∨ c = chr ';') then some s.call
      else none

/-- The calls of the loop over a text, in order. -/
def loopCalls (env : Environment) (prev : Option Byte) (s : ParseState) : Bytes → List AvpairCall
  | [] => []
  | c :: rest =>
      if c = 13 ∧ byteAt rest 0 = 10 then []
      else if c = 13 ∨ c = 10 then loopCalls env (some c) s rest
      else
        (callAt prev s c).toList ++
          let (s, ends) := parseChar env prev s c rest
          if ends then [] else loopCalls env (some c) s rest

/-- The calls that `urldb_parse_cookie` makes for a text, the last one after its loop. -/
def avpairCalls (env : Environment) (header : Bytes) : List AvpairCall :=
  loopCalls env none {} header ++ [(parseLoop env none {} header).1.call]

end Neosurf.Urldb
