import Neosurf.Construction.Urldb.Cookies
import Neosurf.Proof.Urldb.GetCookie
import Neosurf.Proof.Urldb.CookieRules
import Neosurf.Proof.Urldb.Stowed

namespace Neosurf.Urldb

section ReturnCookie

/-- A text contains the name of a cookie, an equals sign and its value, which may be quoted. -/
def Contains (text : Bytes) (c : Cookie) : Prop :=
  ∃ before value after, text = before ++ (c.name ++ str "=" ++ value) ++ after ∧
    (value = c.value ∨ value = quote c.value)

theorem cookieValue_cases (version : Nat) (c : Cookie) :
    cookieValue version c = c.value ∨ cookieValue version c = quote c.value := by
  unfold cookieValue quoteSeparated
  split_ifs
  · exact Or.inr rfl
  · exact Or.inl rfl
  · exact Or.inr rfl
  · exact Or.inl rfl

/-- The text for a cookie starts with a semicolon and a blank, and goes on with its name and
value. -/
theorem concatCookie_eq (version : Nat) (c : Cookie) : ∃ more, concatCookie version c =
    str "; " ++ (c.name ++ str "=" ++ cookieValue version c) ++ more := by
  unfold concatCookie
  simp only [List.append_assoc]
  exact ⟨_, rfl⟩

/-- A header contains all cookies that it is built from. -/
theorem cookieHeader_contains {matched : List Cookie} {c : Cookie} (inside : c ∈ matched) :
    ∃ text, cookieHeader matched = some text ∧ Contains text c := by
  obtain ⟨first, last, rfl⟩ := List.append_of_mem inside
  have nonempty : first ++ c :: last ≠ [] := by simp
  unfold cookieHeader
  dsimp only
  generalize lowestVersion (first ++ c :: last) = version
  obtain ⟨more, own⟩ := concatCookie_eq version c
  rw [if_neg nonempty, List.flatMap_append, List.flatMap_cons, own]
  by_cases old : version = COOKIE_NETSCAPE
  · refine ⟨_, if_pos old, ?_⟩
    cases first with
    | nil =>
        exact ⟨[], cookieValue version c, more ++ last.flatMap (concatCookie version),
          by simp [str, List.append_assoc], cookieValue_cases version c⟩
    | cons d first =>
        obtain ⟨more', other⟩ := concatCookie_eq version d
        refine ⟨(d.name ++ str "=" ++ cookieValue version d) ++ more' ++
          first.flatMap (concatCookie version) ++ str "; ", cookieValue version c,
          more ++ last.flatMap (concatCookie version), ?_, cookieValue_cases version c⟩
        rw [List.flatMap_cons, other]
        simp [str, List.append_assoc]
  · refine ⟨_, if_neg old, str "$Version=" ++ decimal version ++
      first.flatMap (concatCookie version) ++ str "; ", cookieValue version c,
      more ++ last.flatMap (concatCookie version), ?_, cookieValue_cases version c⟩
    simp only [List.append_assoc]

open SiblingTree

variable {env : Environment} {db : Database}

/-- The place of a cookie meets the way of a lookup: at the root, at the only segment, or under
the port zero at the end of the way, above it, or in a directory that it passes. -/
def Meets (port : Nat) (own looked : List Bytes) : Prop :=
  own = [[]] ∨ (own = looked ∧ own.length = 1) ∨
    port = 0 ∧ (own <+: looked ∨ ∃ dirs, own = dirs ++ [[]] ∧ dirs <+: looked ∧ dirs ≠ looked)

/-- A cookie at a place that meets the way of a lookup is stored where it looks. -/
theorem storedAt_of_meets {scheme : LwcString} {port : Nat} {own looked : List Bytes} {t : Paths}
    {hosts : List HostData} {path : Bytes} {c : Cookie} {nodes nodes' : List PathData}
    {d node : PathData} (matching : pathMatches path c = true) (meets : Meets port own looked)
    (nonempty : looked ≠ [])
    (way : t.walk (PathData.isAt scheme port) looked = some (nodes' ++ [node]))
    (there : t.walk (PathData.isAt scheme 0) own = some (nodes ++ [d])) (stored : c ∈ d.cookies) :
    ∃ place, StoredAt ⟨hosts, node, (levelsOf scheme port none looked t).reverse⟩ path c place := by
  -- A place that shares all but its last segment with the way.
  have beside (dirs rest : List Bytes) (segment other : Bytes) (own_eq : own = dirs ++ [other])
      (looked_eq : looked = dirs ++ segment :: rest) (shared : dirs = [] ∨ port = 0)
      (same : other = [] ∨ (rest = [] ∧ other = segment)) :
      ∃ place, StoredAt ⟨hosts, node, (levelsOf scheme port none looked t).reverse⟩ path c
        place := by
    subst own_eq looked_eq
    obtain ⟨before, level, after, levels, size, inside, segment_eq⟩ :=
      @exists_level scheme port 0 dirs rest segment other t none _ _ _ (shared.imp_right Eq.symm)
        way there
    have shown : level ∈ (levelsOf scheme port none (dirs ++ segment :: rest) t).reverse := by
      rw [levels]
      simp
    by_cases empty : other = []
    · exact ⟨.directory, level, shown, d, inside, segment_eq.trans empty, stored⟩
    · obtain ⟨rfl, rfl⟩ := same.resolve_left empty
      have node_segment := (isAt_iff.mp (test_of_walk_concat way)).1
      rw [List.length_nil, List.length_eq_zero_iff] at size
      refine ⟨.exact, ?_, level, ?_, d, inside, segment_eq.trans node_segment.symm, stored⟩
      · change node.segment ≠ []
        rw [node_segment]
        exact empty
      · change (levelsOf scheme port none (dirs ++ [other]) t).reverse.head? = some level
        rw [levels, size, List.head?_reverse, List.getLast?_concat]
  have own_nonempty : own ≠ [] := by
    rintro rfl
    rw [walk, Option.some.injEq] at there
    exact absurd there (by simp)
  rcases meets with root | ⟨single, one⟩ | ⟨port_eq, ⟨more, above⟩ | ⟨dirs, own_eq, ⟨more, above⟩, proper⟩⟩
  · cases looked with
    | nil => exact absurd rfl nonempty
    | cons segment rest => exact beside [] rest segment [] root rfl (Or.inl rfl) (Or.inl rfl)
  · obtain ⟨segment, own_eq⟩ := List.length_eq_one_iff.mp one
    exact beside [] [] segment segment own_eq (single.symm.trans own_eq) (Or.inl rfl)
      (Or.inr ⟨rfl, rfl⟩)
  · subst port_eq
    cases more with
    | nil =>
        rw [List.append_nil] at above
        have own_eq := (List.dropLast_append_getLast own_nonempty).symm
        exact beside own.dropLast [] (own.getLast own_nonempty) (own.getLast own_nonempty) own_eq
          (above.symm.trans own_eq) (Or.inr rfl) (Or.inr ⟨rfl, rfl⟩)
    | cons segment rest =>
        subst above
        obtain ⟨level, inside, parent_eq⟩ := @exists_parent scheme 0 own rest segment t none _ _ _
          way there
        exact ⟨.parent, level, List.mem_reverse.mpr inside, d, parent_eq, stored, matching⟩
  · subst port_eq
    cases more with
    | nil => exact absurd (List.append_nil dirs ▸ above) proper
    | cons segment rest =>
        exact beside dirs rest segment [] own_eq above.symm (Or.inr rfl) (Or.inl rfl)

/-- A way whose keys are those of a cookie has its segments, and it is empty or under the port
zero. -/
theorem segments_of_way {scheme scheme' : LwcString} {port : Nat} {dirs own : List Bytes}
    (same : (dirs.map fun segment => (scheme, port, segment)) =
      own.map fun segment => (scheme', 0, segment)) : own = dirs ∧ (dirs = [] ∨ port = 0) := by
  constructor
  · have names := congrArg (List.map fun key => key.2.2) same
    rw [List.map_map, List.map_map] at names
    simpa [Function.comp_def] using names.symm
  · cases dirs with
    | nil => exact Or.inl rfl
    | cons dir dirs =>
        cases own with
        | nil => cases same
        | cons segment own =>
            rw [List.map_cons, List.map_cons, List.cons.injEq] at same
            exact Or.inr (congrArg (fun key => key.2.1) same.1)

/-- The same holds for the way to a sibling, which has a port of its own. -/
theorem segments_of_keys {scheme scheme' : LwcString} {port : Nat} {dirs own : List Bytes}
    {key : LwcString × Nat × Bytes}
    (same : (dirs.map fun segment => (scheme, port, segment)) ++ [key] =
      own.map fun segment => (scheme', 0, segment)) :
    own = dirs ++ [key.2.2] ∧ (dirs = [] ∨ port = 0) := by
  rcases List.eq_nil_or_concat' own with rfl | ⟨first, last, rfl⟩
  · simp at same
  · rw [List.map_append, List.map_singleton] at same
    obtain ⟨way, key_eq⟩ := List.append_inj' same rfl
    obtain ⟨rfl, shared⟩ := segments_of_way way
    cases key_eq
    exact ⟨rfl, shared⟩

/-- A cookie that a lookup finds in the paths of a host has no dot at the start of its domain,
and its place meets the way of the lookup. -/
theorem meets_of_storedAt {scheme : LwcString} {port : Nat} {looked : List Bytes} {t : Paths}
    {hosts : List HostData} {path : Bytes} {c : Cookie} {nodes : List PathData} {node : PathData}
    {place : Place} (stowed : t.AllAt PathData.key PathData.Stowed [])
    (way : t.walk (PathData.isAt scheme port) looked = some (nodes ++ [node]))
    (stored : StoredAt ⟨hosts, node, (levelsOf scheme port none looked t).reverse⟩ path c place)
    (other : place ≠ .domain) :
    byteAt c.domain 0 ≠ chr '.' ∧ Meets port (segments c.path) looked := by
  -- A cookie of a sibling stands beside the way.
  have beside {before after : List Level} {level : Level} {q : PathData}
      (split : levelsOf scheme port none looked t = before ++ level :: after)
      (sibling : q ∈ level.siblings.toList) (inside : c ∈ q.cookies) :
      byteAt c.domain 0 ≠ chr '.' ∧ ∃ dirs segment rest, looked = dirs ++ segment :: rest ∧
        rest.length = after.length ∧ segments c.path = dirs ++ [q.segment] ∧
        (dirs = [] ∨ port = 0) := by
    obtain ⟨dirs, segment, rest, looked_eq, size, siblings, _⟩ := allAt_level stowed way split
    obtain ⟨noDot, scheme', keys⟩ := siblings q sibling c inside
    rw [List.nil_append] at keys
    obtain ⟨own_eq, shared⟩ := segments_of_keys keys
    exact ⟨noDot, dirs, segment, rest, looked_eq, size, own_eq, shared⟩
  cases place with
  | exact =>
      obtain ⟨_, level, last, q, sibling, segment_eq, inside⟩ := stored
      rw [List.head?_reverse] at last
      obtain ⟨before, split⟩ := List.getLast?_eq_some_iff.mp last
      obtain ⟨noDot, dirs, segment, rest, rfl, size, own_eq, shared⟩ := beside split sibling inside
      rw [List.length_nil, List.length_eq_zero_iff] at size
      subst size
      have passed := (isAt_iff.mp (test_of_walk_concat way)).1
      change q.segment = node.segment at segment_eq
      rw [segment_eq, passed] at own_eq
      refine ⟨noDot, Or.inr ?_⟩
      rw [own_eq]
      rcases shared with rfl | zero
      · exact Or.inl ⟨rfl, rfl⟩
      · exact Or.inr ⟨zero, Or.inl (List.prefix_refl _)⟩
  | directory =>
      obtain ⟨level, shown, q, sibling, empty, inside⟩ := stored
      obtain ⟨before, after, split⟩ := List.append_of_mem (List.mem_reverse.mp shown)
      obtain ⟨noDot, dirs, segment, rest, rfl, _, own_eq, shared⟩ := beside split sibling inside
      rw [empty] at own_eq
      refine ⟨noDot, ?_⟩
      rw [own_eq]
      rcases shared with rfl | zero
      · exact Or.inl rfl
      · exact Or.inr (Or.inr ⟨zero, Or.inr ⟨dirs, rfl, List.prefix_append _ _, by simp⟩⟩)
  | parent =>
      obtain ⟨level, shown, p, parent_eq, inside, _⟩ := stored
      obtain ⟨before, after, split⟩ := List.append_of_mem (List.mem_reverse.mp shown)
      obtain ⟨dirs, segment, rest, rfl, _, _, above⟩ := allAt_level stowed way split
      rcases above with ⟨_, top⟩ | ⟨p', same, known⟩
      · rw [top] at parent_eq
        cases parent_eq
      · rw [parent_eq, Option.some.injEq] at same
        subst same
        obtain ⟨noDot, scheme', keys⟩ := known c inside
        rw [List.nil_append] at keys
        obtain ⟨own_eq, shared⟩ := segments_of_way keys
        have nonempty : dirs ≠ [] := own_eq ▸ List.splitOn_ne_nil _ _
        refine ⟨noDot, Or.inr (Or.inr ⟨shared.resolve_left nonempty, Or.inl ?_⟩)⟩
        rw [own_eq]
        exact List.prefix_append _ _
  | domain => exact absurd rfl other

/-- The lookup of a page meets a cookie: a domain cookie when the labels of its domain end the
host, another one when the place of its path meets the way of the page. -/
def Reaches (env : Environment) (url : Nsurl) (c : Cookie) : Prop :=
  if byteAt c.domain 0 = chr '.' then
    ∃ host, hostStr url = some host ∧
      (lookedParts env (cookieHost c)).map folded <+: (lookedParts env host).map folded
  else ∃ path, pathQuery url = some path ∧ Meets (portInt url) (segments c.path) (segments path)

/-- The host of a page fits, its port is small, and its path starts with a slash. -/
structure PageFits (env : Environment) (url : Nsurl) : Prop where
  web : url.components.scheme = some (str "http") ∨ url.components.scheme = some (str "https")
  port : portInt url < 2 ^ 16
  path : ∃ path, pathQuery url = some path ∧ byteAt path 0 = chr '/'
  host : ∀ host, hostStr url = some host → Fits env host

/-- A header with one cookie was accepted for a page. -/
structure Accepted (env : Environment) (db : Database) (header : Bytes) (url : Nsurl) (c : Cookie)
    (after : Database) : Prop where
  single : ∃ rest, parseCookie env url header = some (c, rest) ∧ rest.length ≤ 2
  done : setCookie env db header url none = .done after true

/-- An accepted cookie has passed the checks and is stored. -/
theorem Accepted.stored {header : Bytes} {url : Nsurl} {c : Cookie} {after : Database}
    (accepted : Accepted env db header url c after) :
    ∃ scheme path host, url.components.scheme = some scheme ∧ url.components.path = some path ∧
      url.components.host = some host ∧ validCookie env host path c = true ∧
      after = insertCookie env db c scheme (Nsurl.defragment url) := by
  obtain ⟨⟨rest, parsed, short⟩, done⟩ := accepted
  rcases setCookie_cases done with ⟨_, impossible⟩ | ⟨scheme, path, host, scheme_eq, path_eq, host_eq, done⟩
  · cases impossible
  · rw [setCookies, parsed] at done
    dsimp only at done
    by_cases valid : validCookie env host path c = true
    · rw [if_pos valid, if_pos short] at done
      cases done
      exact ⟨scheme, path, host, scheme_eq, path_eq, host_eq, valid, rfl⟩
    · rw [if_neg valid] at done
      cases done

/-- The walk to a domain is the start of the walk to a host below it. -/
theorem walk_prefix {parts others : List Bytes} {t : Hosts} {walked first : List HostData}
    (above : parts.map folded <+: others.map folded) (whole : t.walk others = some walked)
    (start : t.walk parts = some first) : ∀ h ∈ first, h ∈ walked := by
  obtain ⟨more, same⟩ := above
  obtain ⟨same_parts, rest, split, parts_eq, _⟩ := List.map_eq_append_iff.mp same.symm
  rw [split] at whole
  obtain ⟨firstWalked, below, begins, rfl⟩ := walk_append whole
  have both : t.walk parts = some firstWalked := by
    rw [Hosts.walk_congr parts_eq.symm]
    exact begins
  rw [start, Option.some.injEq] at both
  intro h inside
  exact List.mem_append_left below (both ▸ inside)

/-- What the lookup of a page finds after a cookie was accepted for it. -/
theorem Accepted.lookup {header : Bytes} {url : Nsurl} {c : Cookie} {after : Database}
    (later : Int) (sound : Sound env db) (fits : PageFits env url)
    (own_fits : Fits env (cookieHost c)) (accepted : Accepted env db header url c after) :
    ∃ scheme path host looked above h nodes node,
      url.components.path = some path ∧ hostStr url = some host ∧ pathQuery url = some looked ∧
      Findable env host ∧ pathMatches path c = true ∧
      after = insertCookie env db c scheme (Nsurl.defragment url) ∧
      (addHost (env.at later) (bloomInsert after url.hash) host).hosts.walk
        (lookedParts env host) = some (above ++ [h]) ∧
      (addUrl (env.at later) after url).1.hosts.walk (lookedParts env host) =
        some (above ++ [h.addPath scheme (portInt url) looked (setUrl url)]) ∧
      (h.addPath scheme (portInt url) looked (setUrl url)).paths.walk
        (PathData.isAt scheme (portInt url)) (segments looked) = some (nodes ++ [node]) ∧
      findUrl (env.at later) (addUrl (env.at later) after url).1 url =
        some ⟨above ++ [h.addPath scheme (portInt url) looked (setUrl url)], node,
          (levelsOf scheme (portInt url) none (segments looked)
            (h.addPath scheme (portInt url) looked (setUrl url)).paths).reverse⟩ := by
  obtain ⟨scheme, path, host, scheme_eq, path_eq, host_eq, valid, rfl⟩ := accepted.stored
  obtain ⟨looked, looked_eq, slash⟩ := fits.path
  have hostStr_eq : hostStr url = some (cstr host) := by rw [hostStr, host_eq]
  have findable := (fits.host _ hostStr_eq).1
  have parts_eq : hostParts (env.at later) (cstr host) = lookedParts env (cstr host) :=
    hostParts_eq findable
  have matching : pathMatches path c = true := by
    rw [validCookie] at valid
    simp only [Bool.and_eq_true] at valid
    exact valid.1.1
  have web : scheme ≠ str "mailto" := by
    rintro rfl
    rcases fits.web with same | same
    · rw [scheme_eq] at same
      exact absurd same (by decide)
    · rw [scheme_eq] at same
      exact absurd same (by decide)
  have stored_sound : Sound (env.at later)
      (insertCookie env db c scheme (Nsurl.defragment url)) :=
    (sound_at later).mpr (sound_insertCookie scheme _ own_fits sound)
  obtain ⟨above, h, nodes, node, walked, _, way, _, found⟩ := findUrl_addUrl_shape stored_sound
    scheme_eq hostStr_eq looked_eq web fits.port slash findable
  have whole : (addUrl (env.at later) (insertCookie env db c scheme (Nsurl.defragment url))
      url).1.hosts.walk (lookedParts env (cstr host)) =
        some (above ++ [h.addPath scheme (portInt url) looked (setUrl url)]) := by
    rw [addUrl_eq scheme_eq hostStr_eq looked_eq, ← parts_eq]
    exact walk_addPath_self walked
  rw [parts_eq] at walked
  exact ⟨scheme, path, cstr host, looked, above, h, nodes, setUrl url node, path_eq, hostStr_eq,
    looked_eq, findable, matching, rfl, walked, whole, way, found⟩

/-- A cookie is sent to its page when the lookup of the page meets it. -/
theorem mem_cookiesFor_of_reaches {header : Bytes} {url : Nsurl} {c : Cookie} {after : Database}
    (later : Int) (sound : Sound env db) (fits : PageFits env url)
    (own_fits : Fits env (cookieHost c)) (accepted : Accepted env db header url c after)
    (live : c.expired env.now = false) (live_later : c.expired later = false)
    (reaches : Reaches env url c) : c ∈ cookiesFor (env.at later) after url true := by
  obtain ⟨scheme, path, host, looked, above, h, nodes, node, path_eq, host_eq, looked_eq, findable,
    matching, rfl, walked, whole, way, found⟩ := accepted.lookup later sound fits own_fits
  obtain ⟨rest, parsed, _⟩ := accepted.single
  suffices reached : ∃ place, StoredAt
      ⟨above ++ [h.addPath scheme (portInt url) looked (setUrl url)], node,
        (levelsOf scheme (portInt url) none (segments looked)
          (h.addPath scheme (portInt url) looked (setUrl url)).paths).reverse⟩ path c place by
    obtain ⟨place, stored⟩ := reached
    exact mem_cookiesFor.mpr ⟨_, path, found, path_eq, live_later, place, stored, fun _ _ => rfl⟩
  rw [Reaches] at reaches
  by_cases dot : byteAt c.domain 0 = chr '.'
  · have domain_eq : cookieHost c = c.domain.drop 1 := if_pos dot
    rw [if_pos dot, domain_eq] at reaches
    rw [domain_eq] at own_fits
    obtain ⟨host', host'_eq, suffix⟩ := reaches
    rw [host_eq, Option.some.injEq] at host'_eq
    subst host'_eq
    obtain ⟨aboveDomain, domain, start, stored⟩ := insertCookie_domain scheme
      (Nsurl.defragment url) dot live own_fits.1 sound
    obtain ⟨both, begins, kept⟩ := walk_addUrl_cookies (env.at later) url start
    have there : domain.cookies ∈ (aboveDomain ++ [domain]).map HostData.cookies :=
      List.mem_map_of_mem (by simp)
    rw [← kept] at there
    obtain ⟨changed, inside, same⟩ := List.mem_map.mp there
    refine ⟨.domain, changed, walk_prefix suffix whole begins changed inside, ?_, matching⟩
    rw [same]
    exact stored
  · rw [if_neg dot] at reaches
    obtain ⟨looked', looked'_eq, meets⟩ := reaches
    rw [looked_eq, Option.some.injEq] at looked'_eq
    subst looked'_eq
    obtain ⟨domain, page_eq, own⟩ :=
      Option.map_eq_some_iff.mp ((parseCookie_domain parsed).resolve_left dot)
    have same_host : host = c.domain := by
      rw [hostStr, page_eq, Option.some.injEq] at host_eq
      exact host_eq.symm.trans own
    subst same_host
    obtain ⟨aboveOwn, ownHost, ownNodes, ownNode, start, ownWay, stored⟩ := insertCookie_path scheme
      (Nsurl.defragment url) dot live findable sound
    have begins := @walk_addHost (env.at later)
      (bloomInsert (insertCookie env db c scheme (Nsurl.defragment url)) url.hash) c.domain _ _ start
    have same : above ++ [h] = aboveOwn ++ [ownHost] := Option.some.inj (walked.symm.trans begins)
    obtain ⟨rfl, last_eq⟩ := List.append_inj' same rfl
    cases last_eq
    obtain ⟨nodes', d', there, cookies_eq⟩ := @walk_setUrl_cookies scheme scheme (portInt url) 0
      (segments looked) _ url _ _ _ ownWay
    have nonempty : segments looked ≠ [] := List.splitOn_ne_nil _ _
    refine storedAt_of_meets matching meets nonempty way there ?_
    rw [cookies_eq]
    exact stored

/-- A cookie is only sent to its page when the lookup of the page meets it. -/
theorem reaches_of_mem_cookiesFor {header : Bytes} {url : Nsurl} {c : Cookie} {after : Database}
    (later : Int) (sound : Sound env db) (stowed : Stowed env db) (fits : PageFits env url)
    (own_fits : Fits env (cookieHost c)) (accepted : Accepted env db header url c after)
    (sent : c ∈ cookiesFor (env.at later) after url true) : Reaches env url c := by
  obtain ⟨scheme, path, host, looked, above, h, nodes, node, _, host_eq, looked_eq, _, _, rfl, _,
    whole, way, found⟩ := accepted.lookup later sound fits own_fits
  obtain ⟨found', path', found'_eq, _, _, place, stored, _⟩ := mem_cookiesFor.mp sent
  rw [found, Option.some.injEq] at found'_eq
  subst found'_eq
  have kept : Stowed env
      (addUrl (env.at later) (insertCookie env db c scheme (Nsurl.defragment url)) url).1 :=
    (stowed_at later).mp (stowed_addUrl url ((stowed_at later).mpr
      (stowed_insertCookie scheme _ own_fits.1 sound stowed)))
  have hosts := allAt_walk part_of_isNamed kept whole
  rw [Reaches]
  by_cases domain : place = .domain
  · subst domain
    obtain ⟨holder, inside, held, _⟩ := stored
    obtain ⟨first, start, known⟩ := hosts holder inside
    obtain ⟨dot, parts_eq⟩ := known.1 c held
    rw [List.nil_append] at parts_eq
    rw [if_pos dot, parts_eq]
    exact ⟨host, host_eq, start.map folded⟩
  · obtain ⟨first, _, known⟩ := hosts (h.addPath scheme (portInt url) looked (setUrl url)) (by simp)
    obtain ⟨noDot, meets⟩ := meets_of_storedAt known.2 way stored domain
    rw [if_neg noDot]
    exact ⟨looked, looked_eq, meets⟩

/-- The text that a page gets contains a cookie. -/
def Returned (env : Environment) (db : Database) (url : Nsurl) (c : Cookie) : Prop :=
  ∃ text, (getCookie env db url true).2 = some text ∧ Contains text c

/-- In every state that a run reaches with fitting hosts, a cookie that is accepted for a fitting
page is sent to it exactly when the lookup of the page meets it, and then the text for the page
contains it. -/
theorem getCookie_returns (reached : Reachable env Fitting db) {now later : Int} {header : Bytes}
    {url : Nsurl} {c : Cookie} {after : Database} (fits : PageFits env url)
    (own_fits : Fits env (cookieHost c)) (accepted : Accepted (env.at now) db header url c after)
    (live : c.expired now = false) (live_later : c.expired later = false) :
    (c ∈ cookiesFor (env.at later) after url true ↔ Reaches env url c) ∧
      (Reaches env url c → Returned (env.at later) after url c) := by
  have sound : Sound (env.at now) db := (sound_at now).mpr (sound_run reached)
  have stowed : Stowed (env.at now) db := (stowed_at now).mpr (stowed_run reached)
  have page : PageFits (env.at now) url := ⟨fits.web, fits.port, fits.path, fits.host⟩
  have sent (reaches : Reaches env url c) : c ∈ cookiesFor (env.at later) after url true :=
    @mem_cookiesFor_of_reaches (env.at now) _ _ _ _ _ later sound page own_fits accepted live
      live_later reaches
  refine ⟨⟨fun inside => ?_, sent⟩, fun reaches => cookieHeader_contains (sent reaches)⟩
  exact @reaches_of_mem_cookiesFor (env.at now) _ _ _ _ _ later sound stowed page own_fits accepted
    inside

/-- A cookie of `http://h/a/b` is sent back to it. -/
theorem getCookie_returns_plain : ∃ page c db,
    Nsurl.nsurlCreate (fun _ => 0) (str "http://h/a/b") = .ok page ∧
      Accepted (plainEnvironment.at 100) {} (str "a=b") page c db ∧
      Returned (plainEnvironment.at 100) db page c := by
  have computed : ∃ page c rest db,
      Nsurl.nsurlCreate (fun _ => 0) (str "http://h/a/b") = .ok page ∧
      parseCookie (plainEnvironment.at 100) page (str "a=b") = some (c, rest) ∧ rest.length ≤ 2 ∧
      setCookie (plainEnvironment.at 100) {} (str "a=b") page none = .done db true ∧
      page.components.scheme = some (str "http") ∧ portInt page = 0 ∧
      pathQuery page = some (str "/a/b") ∧ hostStr page = some (str "h") ∧
      c.domain = str "h" ∧ c.path = str "/a" ∧ c.expires = -1 :=
    ⟨_, _, _, _, rfl, rfl, by decide, rfl, rfl, rfl, rfl, rfl, rfl, rfl, rfl⟩
  obtain ⟨page, c, rest, db, created, parsed, short, done, scheme_eq, port_eq, path_eq, host_eq,
    domain_eq, own_eq, session⟩ := computed
  have noDot : byteAt c.domain 0 ≠ chr '.' := by
    rw [domain_eq]
    decide
  have fits : PageFits plainEnvironment page :=
    { web := Or.inl scheme_eq
      port := by
        rw [port_eq]
        decide
      path := ⟨_, path_eq, by decide⟩
      host := fun host same => by
        rw [host_eq, Option.some.injEq] at same
        subst same
        exact fits_plainEnvironment (by decide) }
  have own_fits : Fits plainEnvironment (cookieHost c) := by
    rw [cookieHost, if_neg noDot, domain_eq]
    exact fits_plainEnvironment (by decide)
  have live : c.expired 100 = false := by
    rw [Cookie.expired, session]
    rfl
  have reaches : Reaches plainEnvironment page c := by
    rw [Reaches, if_neg noDot, port_eq, own_eq]
    exact ⟨_, path_eq, Or.inr (Or.inr ⟨rfl, Or.inl ⟨[str "b"], rfl⟩⟩)⟩
  have accepted : Accepted (plainEnvironment.at 100) {} (str "a=b") page c db :=
    ⟨⟨rest, parsed, short⟩, done⟩
  exact ⟨page, c, db, created, accepted,
    (getCookie_returns .empty fits own_fits accepted live live).2 reaches⟩

/-- A cookie of `http://h:81/a/b` is not sent back to it. -/
theorem getCookie_misses_port : ∃ page c db,
    Nsurl.nsurlCreate (fun _ => 0) (str "http://h:81/a/b") = .ok page ∧
      Accepted plainEnvironment {} (str "a=b") page c db ∧
      Reachable plainEnvironment (fun _ _ _ => True) db ∧
      c.expires = -1 ∧ c.secure = false ∧ c.httpOnly = false ∧
      (getCookie plainEnvironment db page true).2 = none ∧
      ¬ Returned plainEnvironment db page c := by
  have computed : ∃ page c rest,
      Nsurl.nsurlCreate (fun _ => 0) (str "http://h:81/a/b") = .ok page ∧
      parseCookie plainEnvironment page (str "a=b") = some (c, rest) ∧ rest.length ≤ 2 ∧
      c.expires = -1 ∧ c.secure = false ∧ c.httpOnly = false ∧
      (setCookie plainEnvironment {} (str "a=b") page none).check (fun db =>
        (getCookie plainEnvironment db page true).2.isNone) = true :=
    ⟨_, _, _, rfl, rfl, by decide, rfl, rfl, rfl, by decide⟩
  obtain ⟨page, c, rest, created, parsed, short, session, plain, scripted, checked⟩ := computed
  obtain ⟨db, done, nothing⟩ := SetResult.check_eq_true checked
  rw [Option.isNone_iff_eq_none] at nothing
  refine ⟨page, c, db, created, ⟨⟨rest, parsed, short⟩, done⟩, reachable_setCookie done, session,
    plain, scripted, nothing, ?_⟩
  rintro ⟨text, present, _⟩
  rw [nothing] at present
  cases present

end ReturnCookie

section FindOwn

open SiblingTree

variable {env : Environment} {db : Database} {url : Nsurl} {found : Found}

/-- A URL leads to these hosts, and its path and query to this place below the last one. -/
def Leads (env : Environment) (db : Database) (url : Nsurl) (hosts : List HostData)
    (leaf : HostData) (scheme : LwcString) (path : Bytes) (nodes : List PathData) : Prop :=
  ∃ host, url.components.scheme = some scheme ∧ hostStr url = some host ∧
    pathQuery url = some path ∧ db.hosts.walk (lookedParts env host) = some hosts ∧
    hosts.getLast? = some leaf ∧
    leaf.paths.walk (PathData.isAt scheme (portInt url)) (segments path) = some nodes

/-- There is a node at the place of a URL: under its scheme and port, with its host, path and
query. -/
def HasRecord (env : Environment) (db : Database) (url : Nsurl) : Prop :=
  ∃ hosts leaf scheme path nodes, Leads env db url hosts leaf scheme path nodes

/-- What was found is the node at the place of the URL. -/
def Found.Own (env : Environment) (db : Database) (url : Nsurl) (found : Found) : Prop :=
  ∃ leaf scheme path nodes,
    Leads env db url found.hosts leaf scheme path (nodes ++ [found.node]) ∧
      found.levels = (levelsOf scheme (portInt url) none (segments path) leaf.paths).reverse

theorem narrow_eq_self_iff {port : Nat} : narrow port = port ↔ port < 2 ^ 16 :=
  Nat.mod_eq_iff_lt (by decide)

/-- The hosts that a lookup finds have the names of the parts of its host. -/
theorem walk_of_searchFind {host : Bytes} {chain : Chain} {hosts : List HostData}
    (indexed : Indexed db) (searched : searchFind env db host = some chain)
    (walked : db.hosts.walk chain.reverse = some hosts) :
    db.hosts.walk (lookedParts env host) = some hosts := by
  rw [← walked]
  exact (Hosts.walk_congr (searchFind_spec indexed searched).2 db.hosts).symm

theorem segments_ne_nil (path : Bytes) : segments path ≠ [] := List.splitOn_ne_nil _ _

/-- The last node on a way has the port of the way. -/
theorem port_of_walk {scheme : LwcString} {port : Nat} {path : List Bytes} {t : Paths}
    {nodes : List PathData} {d : PathData} (nonempty : path ≠ [])
    (walked : t.walk (PathData.isAt scheme port) path = some (nodes ++ [d])) : d.port = port := by
  rw [← List.dropLast_append_getLast nonempty] at walked
  exact (isAt_iff.mp (test_of_walk_concat walked)).2.2

/-- In every run that only adds fitting hosts, a lookup answers with the node of its own URL
exactly when there is one and its port was not cut. -/
theorem findUrl_own_iff (reached : Reachable env Fitting db) (now : Int)
    (done : findUrl (env.at now) db url = some found) :
    found.Own (env.at now) db url ↔
      portInt url < 2 ^ 16 ∧ HasRecord (env.at now) db url := by
  have sound : Sound (env.at now) db := (sound_at now).mpr (sound_run reached)
  obtain ⟨_, scheme, host, chain, path, scheme_eq, _, host_eq, searched, walked, path_eq, below⟩ :=
    findUrl_eq_some.mp done
  obtain ⟨_, _, leaf, last, matched⟩ := findPath_eq_some.mp below
  have looked := walk_of_searchFind sound.toIndexed searched walked
  constructor
  · rintro ⟨leaf', scheme', path', nodes, leads, _⟩
    refine ⟨?_, found.hosts, leaf', scheme', path', nodes ++ [found.node], leads⟩
    obtain ⟨_, _, _, _, _, _, own⟩ := leads
    have cut := (findUrl_upward done scheme_eq found.node List.mem_cons_self).2
    rw [← narrow_eq_self_iff, ← cut]
    exact port_of_walk (segments_ne_nil path') own
  · rintro ⟨small, hosts, leaf', scheme', path', nodes, leads⟩
    obtain ⟨host', scheme_eq', host_eq', path_eq', looked', last', own⟩ := leads
    rw [scheme_eq, Option.some.injEq] at scheme_eq'
    rw [host_eq, Option.some.injEq] at host_eq'
    rw [path_eq, Option.some.injEq] at path_eq'
    subst scheme_eq' host_eq' path_eq'
    rw [looked, Option.some.injEq] at looked'
    subst looked'
    rw [last, Option.some.injEq] at last'
    subst last'
    have sorted : Paths.Ordered leaf.paths :=
      all_walk sound.ordered walked leaf (List.mem_of_getLast? last)
    have filled : nodes ≠ [] := by
      have length := (forall₂_walk own).length_eq
      rw [← List.length_pos_iff, ← length, List.length_pos_iff]
      exact segments_ne_nil path
    have whole : nodes.dropLast ++ [nodes.getLast filled] = nodes :=
      List.dropLast_append_getLast filled
    rw [← whole] at own
    have exact_match : matchPath scheme (portInt url) ⟨none, leaf.paths⟩ [] leaf.paths
        (segments path) = some _ := matchPath_levels sorted own
    rw [narrow_eq_self_iff.mpr small, exact_match, List.append_nil] at matched
    obtain ⟨node_eq, levels_eq⟩ := Prod.mk.inj (Option.some.inj matched)
    rw [node_eq] at own
    exact ⟨leaf, scheme, path, nodes.dropLast,
      ⟨host, scheme_eq, host_eq, path_eq, looked, last, own⟩, levels_eq.symm⟩

/-- The URL `http://h/x` is found at its own node after it was added. -/
theorem findUrl_own_added : ∃ url db found,
    Nsurl.nsurlCreate (fun _ => 0) (str "http://h/x") = .ok url ∧
      Reachable plainEnvironment Fitting db ∧
      findUrl (plainEnvironment.at 0) db url = some found ∧
      (found.Own (plainEnvironment.at 0) db url ↔
        portInt url < 2 ^ 16 ∧ HasRecord (plainEnvironment.at 0) db url) := by
  have computed : ∃ url, Nsurl.nsurlCreate (fun _ => 0) (str "http://h/x") = .ok url ∧
      hostStr url = some (str "h") ∧
      (findUrl (plainEnvironment.at 0) (addUrl (plainEnvironment.at 0) {} url).1 url).isSome =
        true :=
    ⟨_, rfl, rfl, by decide⟩
  obtain ⟨url, created, host_eq, present⟩ := computed
  obtain ⟨found, done⟩ := Option.isSome_iff_exists.mp present
  have fitting : Fitting (plainEnvironment.at 0) {} (.addUrl url) := by
    intro host added
    rw [Adds, host_eq, Option.some.injEq] at added
    rw [← added]
    exact fits_plainEnvironment (by decide)
  have reached := Reachable.step 0 (.addUrl url) .empty fitting rfl
  exact ⟨url, _, found, created, reached, done, findUrl_own_iff reached 0 done⟩

/-- Once a cookie was stored for the path `/ab`, the URL `http://h/a` finds its node. -/
theorem findUrl_finds_longer : ∃ page url db found,
    Nsurl.nsurlCreate (fun _ => 0) (str "http://h/ab/c") = .ok page ∧
      Nsurl.nsurlCreate (fun _ => 0) (str "http://h/a") = .ok url ∧
      setCookie plainEnvironment {} (str "a=b; Path=/ab") page none = .done db true ∧
      Reachable plainEnvironment (fun _ _ _ => True) db ∧
      findUrl plainEnvironment db url = some found ∧ found.node.segment = str "ab" ∧
      ¬ found.Own plainEnvironment db url := by
  have computed : ∃ page url, Nsurl.nsurlCreate (fun _ => 0) (str "http://h/ab/c") = .ok page ∧
      Nsurl.nsurlCreate (fun _ => 0) (str "http://h/a") = .ok url ∧
      pathQuery url = some (str "/a") ∧
      (setCookie plainEnvironment {} (str "a=b; Path=/ab") page none).check (fun db =>
        (findUrl plainEnvironment db url).any fun found => found.node.segment == str "ab") = true :=
    ⟨_, _, rfl, rfl, rfl, by decide⟩
  obtain ⟨page, url, created, other, path_eq, checked⟩ := computed
  obtain ⟨db, done, checked⟩ := SetResult.check_eq_true checked
  cases here : findUrl plainEnvironment db url with
  | none =>
      rw [here] at checked
      cases checked
  | some found =>
      rw [here, Option.any_some, beq_iff_eq] at checked
      refine ⟨page, url, db, found, created, other, done, reachable_setCookie done, here, checked, ?_⟩
      rintro ⟨leaf, scheme, path, nodes, ⟨_, _, _, path_eq', _, _, own⟩, _⟩
      rw [path_eq, Option.some.injEq] at path_eq'
      subst path_eq'
      have walked : leaf.paths.walk (PathData.isAt scheme (portInt url)) ([] ++ [str "a"]) =
          some (nodes ++ [found.node]) :=
        own
      have same : found.node.segment = str "a" := (isAt_iff.mp (test_of_walk_concat walked)).1
      rw [checked] at same
      exact absurd same (by decide)

end FindOwn

end Neosurf.Urldb
