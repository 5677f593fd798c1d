/-
This file shows for which URLs `nsurl_get_utf8` changes nothing but the host.
-/

import Neosurf.Construction.Nsurl.Create
import Neosurf.Proof.Idna
import Neosurf.Proof.Nsurl.Consistent
import Neosurf.Proof.Nsurl.WellFormed

namespace Neosurf.Nsurl

/-- This is the text before the credentials. -/
def schemeText (c : NsurlComponents) : Bytes :=
  c.scheme.getD [] ++ str ":" ++ piece (slashPath c) (str "//")

/-- This is the text of the credentials without their `@`. -/
def credentialsText (c : NsurlComponents) : Bytes :=
  c.username.getD [] ++ marked (str ":") c.password

/-- This is the text behind the host. -/
def behindHost (c : NsurlComponents) : Bytes :=
  marked (str ":") c.port ++ c.path.getD [] ++ marked (str "?") c.query ++
    marked (str "#") c.fragment

/-- This is what the parts behind the host give: the first mark of the query or the fragment
needs a port or a path before it. -/
def behindText (c : NsurlComponents) : Bytes :=
  marked (str ":") c.port ++ c.path.getD [] ++
    piece ((c.port.isSome || c.path.isSome) && c.query.isSome) (str "?") ++ c.query.getD [] ++
    piece ((c.port.isSome || c.path.isSome || c.query.isSome) && c.fragment.isSome) (str "#") ++
    c.fragment.getD []

/-- The mark of the credentials stands between them and the host. -/
theorem serialised_split (c : NsurlComponents) : serialised c =
    schemeText c ++ (credentialsText c ++
      piece ((c.username.isSome || c.password.isSome) && c.host.isSome) (str "@") ++
        (c.host.getD [] ++ behindHost c)) := by
  simp only [serialised, baseText, authorityText, schemeText, credentialsText, behindHost,
    List.append_assoc]

/-- An empty text is an error, and another one comes with its length. -/
theorem componentsToString_eq (c : NsurlComponents) (parts : Parts) :
    componentsToString c parts =
      if getString c (getStringFlags c parts) = [] then .error .badUrl
      else .ok (getString c (getStringFlags c parts),
        (getString c (getStringFlags c parts)).length) := by
  have length := getString_length c (getStringFlags c parts)
    (fun mark => (Bool.and_eq_true_iff.mp mark).2) (fun mark => (Bool.and_eq_true_iff.mp mark).2)
  simp only [componentsToString, ← length, List.length_eq_zero_iff]

/-- The parts before the host leave out the mark of the credentials. -/
theorem componentsToString_beforeHost {c : NsurlComponents} (present : c.scheme.isSome = true) :
    componentsToString c (SCHEME ||| CREDENTIALS) =
      .ok (schemeText c ++ credentialsText c, (schemeText c ++ credentialsText c).length) := by
  have flags : getStringFlags c (SCHEME ||| CREDENTIALS) =
      { scheme := true, schemePunctuation := true, authorityPunctuation := slashPath c
        username := c.username.isSome, password := c.password.isSome
        credentialsPunctuation := false, host := false, port := false, path := false
        queryPunctuation := false, query := false
        fragmentPunctuation := false, fragment := false } := by
    have parts : wants (SCHEME ||| CREDENTIALS) SCHEME = true ∧
        wants (SCHEME ||| CREDENTIALS) USERNAME = true ∧
        wants (SCHEME ||| CREDENTIALS) PASSWORD = true ∧
        wants (SCHEME ||| CREDENTIALS) HOST = false ∧
        wants (SCHEME ||| CREDENTIALS) PORT = false ∧
        wants (SCHEME ||| CREDENTIALS) PATH = false ∧
        wants (SCHEME ||| CREDENTIALS) QUERY = false ∧
        wants (SCHEME ||| CREDENTIALS) FRAGMENT = false ∧
        decide (SCHEME < SCHEME ||| CREDENTIALS) = true := by decide
    obtain ⟨h1, h2, h3, h4, h5, h6, h7, h8, h9⟩ := parts
    simp [getStringFlags, present, h1, h2, h3, h4, h5, h6, h7, h8, h9]
  have text : getString c (getStringFlags c (SCHEME ||| CREDENTIALS)) =
      schemeText c ++ credentialsText c := by
    simp only [flags, getString, schemeText, credentialsText, piece_true, piece_false,
      piece_isSome, piece_isSome_mark, List.append_assoc, List.append_nil]
  have full : schemeText c ++ credentialsText c ≠ [] := by
    simp [schemeText, show str ":" = [chr ':'] from rfl]
  rw [componentsToString_eq, text, if_neg full]

/-- The parts behind the host lose the first mark when neither a port nor a path stands
before it, and nothing at all is an error. -/
theorem componentsToString_behindHost (c : NsurlComponents) :
    componentsToString c (PORT ||| PATH ||| QUERY ||| FRAGMENT) =
      if behindText c = [] then .error .badUrl
      else .ok (behindText c, (behindText c).length) := by
  have flags : getStringFlags c (PORT ||| PATH ||| QUERY ||| FRAGMENT) =
      { scheme := false, schemePunctuation := false, authorityPunctuation := false
        username := false, password := false, credentialsPunctuation := false, host := false
        port := c.port.isSome, path := c.path.isSome
        queryPunctuation := (c.port.isSome || c.path.isSome) && c.query.isSome
        query := c.query.isSome
        fragmentPunctuation := (c.port.isSome || c.path.isSome || c.query.isSome) &&
          c.fragment.isSome
        fragment := c.fragment.isSome } := by
    have parts : wants (PORT ||| PATH ||| QUERY ||| FRAGMENT) SCHEME = false ∧
        wants (PORT ||| PATH ||| QUERY ||| FRAGMENT) USERNAME = false ∧
        wants (PORT ||| PATH ||| QUERY ||| FRAGMENT) PASSWORD = false ∧
        wants (PORT ||| PATH ||| QUERY ||| FRAGMENT) HOST = false ∧
        wants (PORT ||| PATH ||| QUERY ||| FRAGMENT) PORT = true ∧
        wants (PORT ||| PATH ||| QUERY ||| FRAGMENT) PATH = true ∧
        wants (PORT ||| PATH ||| QUERY ||| FRAGMENT) QUERY = true ∧
        wants (PORT ||| PATH ||| QUERY ||| FRAGMENT) FRAGMENT = true := by decide
    obtain ⟨h1, h2, h3, h4, h5, h6, h7, h8⟩ := parts
    simp only [getStringFlags, h1, h2, h3, h4, h5, h6, h7, h8, Bool.and_true, Bool.and_false,
      Bool.false_and, Bool.false_or, Bool.or_false]
    cases c.port <;> cases c.path <;> cases c.query <;> simp
  have text : getString c (getStringFlags c (PORT ||| PATH ||| QUERY ||| FRAGMENT)) =
      behindText c := by
    simp only [flags, getString, behindText, piece_false, piece_isSome, piece_isSome_mark,
      List.nil_append]
    cases c.query <;> cases c.fragment <;> simp
  rw [componentsToString_eq, text]

/-- A port or a path keeps every mark. -/
theorem behindText_eq {c : NsurlComponents} (stands : c.port.isSome = true ∨ c.path.isSome = true) :
    behindText c = behindHost c := by
  have some : (c.port.isSome || c.path.isSome) = true := by
    rcases stands with port | path
    · rw [port, Bool.true_or]
    · rw [path, Bool.or_true]
  rw [behindText, behindHost, some]
  cases c.query <;> cases c.fragment <;> simp

/-- Without a port and a path the first mark is lost, when there is one. -/
theorem behindText_lost {c : NsurlComponents} (port : c.port = none) (path : c.path = none) :
    behindText c = [] ∨ ∃ mark, mark ≠ 0 ∧ behindHost c = mark :: behindText c := by
  rw [behindText, behindHost, port, path]
  cases c.query with
  | some query => exact .inr ⟨chr '?', by decide, by cases c.fragment <;> simp <;> rfl⟩
  | none =>
      cases c.fragment with
      | some fragment => exact .inr ⟨chr '#', by decide, by simp; rfl⟩
      | none => exact .inl rfl

/-- The scheme of a created URL is a C string. -/
theorem solid_createScheme (junk : Buff) (url : NsurlComponents) (text : Bytes) :
    0 ∉ ((createScheme (cstr text) (getStringMarkers (cstr text) false) junk url).1.scheme.getD
      []) := by
  obtain ⟨-, -, present⟩ := schemeScanned_getStringMarkers (cstr text) false
  generalize getStringMarkers (cstr text) false = m at present
  have lower (c : Byte) : toLower c = 0 → c = 0 := by
    revert c
    apply byte_cases
    decide
  rw [createScheme]
  dsimp only [Option.getD_some]
  split
  · decide
  · rename_i named
    have some : m.schemeEnd ≠ m.start := fun same =>
      named (normalise_eq_nil.mpr (slice_eq_nil same.le))
    rw [normalise_true (present some).2.2, folded, List.mem_map]
    rintro ⟨c, inside, folds⟩
    rw [lower c folds] at inside
    exact solid_cstr text (List.mem_of_mem_take (List.mem_of_mem_drop inside))

/-- A created URL has a scheme that is a C string, and no path that is empty. -/
theorem nsurlCreate_solid {junk : Buff} {text : Bytes} {url : Nsurl}
    (created : nsurlCreate junk text = .ok url) : url.components.scheme.isSome = true ∧
      0 ∉ url.components.scheme.getD [] ∧ url.components.path ≠ some [] := by
  obtain ⟨c, done, created⟩ := bind_eq_ok created
  split at created
  · cases created
  rw [build_components created]
  refine ⟨createComponents_isSome done, ?_⟩
  unfold createComponents at done
  dsimp only at done
  obtain ⟨⟨first, buff⟩, credentials, done⟩ := bind_eq_ok done
  obtain ⟨second, host, done⟩ := bind_eq_ok done
  have scheme : second.scheme = (createScheme (cstr text) (getStringMarkers (cstr text) false) junk
      { schemeType := (getStringMarkers (cstr text) false).schemeType }).1.scheme := by
    rw [createHost_frame host, createCredentials_frame credentials]
  cases done
  constructor
  · change 0 ∉ second.scheme.getD []
    rw [scheme]
    exact solid_createScheme junk _ text
  · change (if _ then _ else _) ≠ some []
    split_ifs with full needs
    · exact fun empty => full (Option.some.inj empty)
    · exact fun empty => absurd (Option.some.inj empty) (by decide)
    · exact fun empty => by cases empty

/-- This is the text of a URL with another host. -/
def withHost (url : Nsurl) (host : Bytes) : Bytes :=
  getString { url.components with host := some host }
    (getStringFlags { url.components with host := some host } WITH_FRAGMENT)

/-- The call gives the stored text without a host, and with one the text in which the decoded
host stands for it. -/
def ReplacesHost (url : Nsurl) : Prop :=
  (url.components.host = none →
    ∃ string length, getUtf8 url = some (string, length) ∧ cstr string = access url) ∧
  ∀ host decoded, url.components.host = some host → idnaDecode host host.length = some decoded →
    ∃ string length, getUtf8 url = some (string, length) ∧
      cstr string = cstr (withHost url decoded)

section Hosts

variable {url : Nsurl} {host decoded : Bytes}

/-- A decoded host stands between the parts before and behind it. -/
theorem getUtf8_host (present : url.components.scheme.isSome = true)
    (named : url.components.host = some host) (done : idnaDecode host host.length = some decoded) :
    (getUtf8 url).map Prod.fst = if behindText url.components = [] then none
      else some (cstr (schemeText url.components ++ credentialsText url.components) ++ decoded ++
        cstr (behindText url.components)) := by
  obtain ⟨solid, -⟩ := idnaDecode_solid done
  have short (text : Bytes) : (cstr text).length ≤ text.length :=
    (List.takeWhile_prefix _).length_le
  rw [getUtf8, named]
  simp only [done, Option.bind_eq_bind, Option.bind_some, get, componentsToString_behindHost,
    componentsToString_beforeHost present, Except.toOption]
  split_ifs with nothing
  · rfl
  · simp only [Option.bind_some, Option.map_some, cstr_of_solid solid]
    rw [List.take_of_length_le]
    have before := short (schemeText url.components ++ credentialsText url.components)
    have behind := short (behindText url.components)
    simp only [List.length_append] at before ⊢
    omega

theorem withHost_eq (present : url.components.scheme.isSome = true) (host : Bytes) :
    withHost url host = schemeText url.components ++ (credentialsText url.components ++
      (piece (url.components.username.isSome || url.components.password.isSome) (str "@") ++
        (host ++ behindHost url.components))) := by
  have text := componentsToString_withFragment { url.components with host := some host } present
  rw [componentsToString_eq] at text
  split_ifs at text
  rw [withHost, (Prod.mk.inj (Except.ok.inj text)).1, serialised_split]
  simp only [Option.isSome_some, Bool.and_true, Option.getD_some, List.append_assoc]
  rfl

/-- A lost mark makes the text behind the host no longer. -/
theorem length_behindText (c : NsurlComponents) :
    (cstr (behindText c)).length ≤ (cstr (behindHost c)).length := by
  by_cases stands : c.port.isSome = true ∨ c.path.isSome = true
  · rw [behindText_eq stands]
  · rw [not_or, Option.not_isSome_iff_eq_none, Option.not_isSome_iff_eq_none] at stands
    rcases behindText_lost stands.1 stands.2 with nothing | ⟨mark, solid, same⟩
    · rw [nothing]
      exact Nat.zero_le _
    · rw [same, cstr, cstr, List.takeWhile_cons_of_pos (by simpa using solid)]
      exact Nat.le_succ _

/-- Without its `@` a URL with credentials is another one. -/
theorem not_replaced_of_credentials (present : url.components.scheme.isSome = true)
    (scheme : 0 ∉ schemeText url.components) (solid : 0 ∉ decoded) (full : decoded ≠ [])
    (login : (url.components.username.isSome || url.components.password.isSome) = true) :
    cstr (schemeText url.components ++ credentialsText url.components) ++ decoded ++
      cstr (behindText url.components) ≠ cstr (withHost url decoded) := by
  have positive := List.length_pos_iff.mpr full
  have behind := length_behindText url.components
  rw [withHost_eq present, login, piece_true, cstr_append_of_solid scheme,
    cstr_append_of_solid scheme]
  by_cases broken : 0 ∈ credentialsText url.components
  · rw [cstr_append_of_broken broken]
    intro same
    have length := congrArg List.length same
    simp only [List.length_append] at length
    omega
  · have mark : 0 ∉ str "@" := by decide
    rw [cstr_append_of_solid broken, cstr_append_of_solid mark, cstr_append_of_solid solid,
      cstr_of_solid broken]
    intro same
    have length := congrArg List.length same
    simp only [List.length_append, show (str "@").length = 1 from rfl] at length
    omega

/-- The decoded host replaces the host exactly without credentials, and with a port or a
path. -/
theorem replacesHost_iff (present : url.components.scheme.isSome = true)
    (scheme : 0 ∉ schemeText url.components) (path : url.components.path ≠ some [])
    (named : url.components.host = some host) (done : idnaDecode host host.length = some decoded) :
    (∃ string length, getUtf8 url = some (string, length) ∧
        cstr string = cstr (withHost url decoded)) ↔
      url.components.username = none ∧ url.components.password = none ∧
        (url.components.port.isSome = true ∨ url.components.path.isSome = true) := by
  obtain ⟨solid, full⟩ := idnaDecode_solid done
  have result := getUtf8_host present named done
  constructor
  · rintro ⟨string, length, found, same⟩
    have something : behindText url.components ≠ [] := by
      intro nothing
      rw [found, if_pos nothing] at result
      cases result
    rw [found, if_neg something] at result
    have text : string = cstr (schemeText url.components ++ credentialsText url.components) ++
        decoded ++ cstr (behindText url.components) := Option.some.inj result
    have whole : cstr string = string := by
      refine cstr_of_solid ?_
      rw [text]
      simp only [List.mem_append, not_or]
      exact ⟨⟨solid_cstr _, solid⟩, solid_cstr _⟩
    rw [whole, text] at same
    have none : (url.components.username.isSome || url.components.password.isSome) = false := by
      cases login : url.components.username.isSome || url.components.password.isSome with
      | false => rfl
      | true => exact absurd same (not_replaced_of_credentials present scheme solid full login)
    rw [Bool.or_eq_false_iff, Option.isSome_eq_false_iff, Option.isNone_iff_eq_none,
      Option.isSome_eq_false_iff, Option.isNone_iff_eq_none] at none
    refine ⟨none.1, none.2, by_contra fun stands => ?_⟩
    rw [not_or, Option.not_isSome_iff_eq_none, Option.not_isSome_iff_eq_none] at stands
    have login : credentialsText url.components = [] := by
      rw [credentialsText, none.1, none.2]
      rfl
    rcases behindText_lost stands.1 stands.2 with lost | ⟨mark, notNul, behind⟩
    · exact something lost
    · rw [withHost_eq present, none.1, none.2, login, behind] at same
      simp only [Option.isSome_none, Bool.or_false, piece_false, List.nil_append,
        List.append_nil] at same
      rw [cstr_of_solid scheme, cstr_append_of_solid scheme, cstr_append_of_solid solid, cstr,
        cstr, List.takeWhile_cons_of_pos (by simpa using notNul)] at same
      have length := congrArg List.length same
      simp only [List.length_append, List.length_cons] at length
      omega
  · rintro ⟨user, password, stands⟩
    have something : behindText url.components ≠ [] := by
      rw [behindText]
      rcases stands with port | some
      · obtain ⟨text, port⟩ := Option.isSome_iff_exists.mp port
        simp [port, show str ":" = [chr ':'] from rfl]
      · obtain ⟨text, some⟩ := Option.isSome_iff_exists.mp some
        rw [some] at path
        have long : text ≠ [] := fun empty => path (by rw [empty])
        simp [some, long]
    rw [if_neg something] at result
    obtain ⟨⟨string, length⟩, found, text⟩ := Option.map_eq_some_iff.mp result
    refine ⟨string, length, found, ?_⟩
    have login : credentialsText url.components = [] := by
      rw [credentialsText, user, password]
      rfl
    change string = _ at text
    rw [text, withHost_eq present, user, password, login, behindText_eq stands]
    simp only [Option.isSome_none, Bool.or_false, piece_false, List.nil_append, List.append_nil]
    rw [cstr_of_solid scheme, cstr_append_of_solid scheme, cstr_append_of_solid solid,
      List.append_assoc, cstr_append_of_solid scheme, cstr_append_of_solid solid,
      cstr_of_solid (solid_cstr _)]

end Hosts

/-- The call loses the `@` behind credentials, and the mark of the query or fragment, or
everything, when neither a port nor a path follows the host. -/
theorem getUtf8_replacesHost_iff {junk : Buff} {text : Bytes} {url : Nsurl}
    (created : nsurlCreate junk text = .ok url) :
    ReplacesHost url ↔ ∀ host decoded, url.components.host = some host →
      idnaDecode host host.length = some decoded →
        url.components.username = none ∧ url.components.password = none ∧
          (url.components.port.isSome = true ∨ url.components.path.isSome = true) := by
  obtain ⟨present, named, path⟩ := nsurlCreate_solid created
  have scheme : 0 ∉ schemeText url.components := by
    rw [schemeText, List.mem_append, List.mem_append, not_or, not_or]
    refine ⟨⟨named, by decide⟩, ?_⟩
    cases slashPath url.components <;> decide
  constructor
  · rintro ⟨-, replaces⟩ host decoded stored done
    exact (replacesHost_iff present scheme path stored done).mp (replaces host decoded stored done)
  · intro fits
    refine ⟨fun absent => ?_, fun host decoded stored done =>
      (replacesHost_iff present scheme path stored done).mpr (fits host decoded stored done)⟩
    obtain ⟨-, consistent⟩ := nsurlCreate_consistent created
    obtain ⟨length, string⟩ := consistent.string
    refine ⟨url.string, length, ?_, rfl⟩
    rw [getUtf8, absent, get, string]
    rfl

theorem getUtf8_replacesHost_plain :
    ∃ url, nsurlCreate (fun _ => 0) (str "http://h/") = .ok url ∧ ReplacesHost url := by
  obtain ⟨url, created, user, password, path⟩ : ∃ url : Nsurl,
      nsurlCreate (fun _ => 0) (str "http://h/") = .ok url ∧ url.components.username = none ∧
        url.components.password = none ∧ url.components.path.isSome = true :=
    ⟨_, rfl, rfl, rfl, rfl⟩
  exact ⟨url, created, (getUtf8_replacesHost_iff created).mpr fun _ _ _ _ =>
    ⟨user, password, Or.inr path⟩⟩

/-- The text of `http://u@h/` comes out as `http://uh/`. -/
theorem getUtf8_loses_credentials_mark :
    ¬∀ (junk : Buff) (text : Bytes) (url : Nsurl), nsurlCreate junk text = .ok url →
      ReplacesHost url := by
  intro replaces
  obtain ⟨url, created, host, short, whole⟩ : ∃ url : Nsurl,
      nsurlCreate (fun _ => 0) (str "http://u@h/") = .ok url ∧
        url.components.host = some (str "h") ∧
        getUtf8 url = some (str "http://uh/", 11) ∧ withHost url (str "h") = str "http://u@h/" :=
    ⟨_, rfl, rfl, rfl, rfl⟩
  have decodes : idnaDecode (str "h") (str "h").length = some (str "h") := rfl
  obtain ⟨string, length, found, same⟩ :=
    (replaces _ _ url created).2 (str "h") (str "h") host decodes
  rw [short] at found
  cases found
  rw [whole] at same
  exact absurd same (by decide)

end Neosurf.Nsurl
