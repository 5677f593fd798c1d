import Neosurf.Proof.Nsurl.Consistent
import Neosurf.Proof.Nsurl.Sections

namespace Neosurf.Nsurl

/-- A path is present and starts at the root. -/
def FromRoot (c : NsurlComponents) : Prop :=
  ∃ path, c.path = some path ∧ path.head? = some (chr '/')

/-- These URLs need a path. -/
def NeedsPath (c : NsurlComponents) : Prop :=
  (c.host.isSome = true ∧ c.schemeType ≠ .mailto) ∨ c.schemeType = .file

/-- The scheme type of http and of https. -/
def IsWeb (schemeType : SchemeType) : Prop := schemeType = .http ∨ schemeType = .https

/-- The scheme type is that of the scheme, a web URL has a host, and a URL that needs a path has
one from the root. -/
structure WellFormed (c : NsurlComponents) : Prop where
  scheme : ∃ scheme, c.scheme = some scheme ∧ c.schemeType = schemeTypeOf scheme
  host : IsWeb c.schemeType → c.host.isSome = true
  path : NeedsPath c → FromRoot c

/-- A text starts with a letter, and the path section of a file URL is empty or starts at the
root. -/
def CreateFits (text : Bytes) : Prop :=
  let urlS := cstr text
  let m := getStringMarkers urlS false
  isAlpha (byteAt (reference text) 0) = true ∧
    (m.schemeType = .file → OpensRoot (slice urlS m.path m.query))

/-- A reference with an authority of its own, or with a scheme, has a host section in a web URL,
and a path section that is empty or starts at the root in a file URL. -/
def JoinFits (base : NsurlComponents) (rel : Bytes) : Prop :=
  let urlS := cstr rel
  let m := getStringMarkers urlS true
  let parts := joinedParts urlS m
  let schemeType := if parts.baseScheme then base.schemeType else m.schemeType
  parts.baseAuthority = false →
    (IsWeb schemeType → slice urlS (hostStart urlS m) m.path ≠ []) ∧
    (schemeType = .file → OpensRoot (removeDotSegments (slice urlS m.path m.query)))

/-- A new scheme is not data, a web scheme meets a host, and a scheme that needs a path meets
one from the root. -/
def ReplaceFits (c : NsurlComponents) (scheme : LwcString) : Prop :=
  let replaced := { c with schemeType := replacedSchemeType scheme }
  caselessEqual scheme (str "data") = false ∧
    (IsWeb replaced.schemeType → c.host.isSome = true) ∧ (NeedsPath replaced → FromRoot c)

/-- A run of the URL operations assembles these URLs from texts, references and schemes that
fit. -/
inductive Assembled : Nsurl → Prop where
  | create (junk : Buff) (text : Bytes) {url : Nsurl} (fits : CreateFits text)
      (done : nsurlCreate junk text = .ok url) : Assembled url
  | join (junk : Buff) (rel : Bytes) {base url : Nsurl} (before : Assembled base)
      (fits : JoinFits base.components rel) (done : nsurlJoin junk base rel = .ok url) :
      Assembled url
  | defragment {url : Nsurl} (before : Assembled url) : Assembled (defragment url)
  | refragment (frag : LwcString) {url : Nsurl} (before : Assembled url) :
      Assembled (refragment url frag)
  | replaceQuery (query : Bytes) {url : Nsurl} (before : Assembled url) :
      Assembled (replaceQuery url query)
  | replaceScheme (scheme : LwcString) {url : Nsurl} (before : Assembled url)
      (fits : ReplaceFits url.components scheme) : Assembled (replaceScheme url scheme)
  | parent {url : Nsurl} (before : Assembled url) : Assembled (parent url)

theorem createPath_fromRoot {text : Bytes} {c : NsurlComponents} (needs : NeedsPath c)
    (root : OpensRoot text) : FromRoot (createPath text c) := by
  have slash : ((c.host.isSome && c.schemeType != .mailto) || c.schemeType == .file) = true := by
    rcases needs with ⟨host, type⟩ | type
    · simp [host, type]
    · simp [type]
  rw [createPath, FromRoot]
  dsimp only
  rcases root with rfl | head
  · exact ⟨str "/", by rw [if_neg (by simp [normalise]), if_pos slash], rfl⟩
  · refine ⟨normalise false text, if_pos fun empty => ?_, head_normalise head⟩
    rw [normalise_eq_nil.mp empty] at head
    cases head

/-- A host section that is not empty gives a host, except in a file URL. -/
theorem createHost_isSome {urlS : Bytes} {pegs : UrlMarkers} {buff : Buff}
    {url c : NsurlComponents} (done : createHost urlS pegs buff url = .ok c) :
    c.host.isSome = true ↔
      url.schemeType ≠ .file ∧ slice urlS (hostStart urlS pegs) pegs.path ≠ [] := by
  unfold createHost at done
  dsimp only at done
  split at done
  · rename_i none
    rw [normalise_eq_nil] at none
    cases done
    simp only [Option.isSome_none, Bool.false_eq_true, false_iff, not_and_or, not_not]
    exact none
  · rename_i present
    rw [normalise_eq_nil, not_or] at present
    obtain ⟨⟨port, length⟩, -, done⟩ := bind_eq_ok done
    dsimp only at done
    split at done
    · cases done
      exact ⟨fun _ => present, fun _ => rfl⟩
    · obtain ⟨host, -, done⟩ := bind_eq_ok done
      cases done
      exact ⟨fun _ => present, fun _ => rfl⟩

theorem schemeTypeOf_folded (name : Bytes) : schemeTypeOf (folded name) = schemeTypeOf name := by
  have same (known : Bytes) : caselessEqual (folded name) known = caselessEqual name known := by
    rw [caselessEqual, caselessEqual, ← folded, folded_folded, folded]
  simp only [schemeTypeOf, same]

/-- The name of a web scheme in lower case. -/
theorem isWeb_schemeTypeOf {name : Bytes} (lower : folded name = name)
    (web : IsWeb (schemeTypeOf name)) : name = str "http" ∨ name = str "https" := by
  have known {text : Bytes} (same : caselessEqual name text = true) : name = folded text := by
    rw [caselessEqual, beq_iff_eq, ← folded, lower] at same
    exact same
  unfold schemeTypeOf at web
  split_ifs at web with http https
  · exact Or.inl (known http)
  · exact Or.inr (known https)
  all_goals rcases web with other | other <;> cases other

/-- A scheme is stored in lower case beside its type. -/
theorem createScheme_typed {urlS : Bytes} {joining : Bool} (buff : Buff)
    (known : (getStringMarkers urlS joining).schemeEnd = (getStringMarkers urlS joining).start →
      joining = false ∧ isAlpha (byteAt urlS (getStringMarkers urlS joining).start) = true) :
    ∃ name, (createScheme urlS (getStringMarkers urlS joining) buff
        { schemeType := (getStringMarkers urlS joining).schemeType }).1 =
      { scheme := some name, schemeType := (getStringMarkers urlS joining).schemeType } ∧
        (getStringMarkers urlS joining).schemeType = schemeTypeOf name ∧ folded name = name := by
  obtain ⟨-, absent, present⟩ := schemeScanned_getStringMarkers urlS joining
  generalize getStringMarkers urlS joining = m at known absent present
  rw [createScheme]
  dsimp only
  by_cases same : m.schemeEnd = m.start
  · have empty : normalise true (slice urlS m.start m.schemeEnd) = [] := by
      rw [normalise_eq_nil]
      exact slice_eq_nil same.le
    refine ⟨str "http", ?_, ?_, by decide⟩
    · rw [if_pos empty]
    · rw [absent same, if_pos (known same)]
      rfl
  · obtain ⟨type, nonempty, plain⟩ := present same
    refine ⟨folded (slice urlS m.start m.schemeEnd), ?_, ?_, folded_folded _⟩
    · rw [if_neg (fun empty => nonempty (normalise_eq_nil.mp empty)), normalise_true plain]
    · rw [schemeTypeOf_folded, type]

/-- A created URL is well formed when its text fits. -/
theorem nsurlCreate_wellFormed {junk : Buff} {text : Bytes} {url : Nsurl}
    (fits : CreateFits text) (done : nsurlCreate junk text = .ok url) :
    WellFormed url.components := by
  obtain ⟨c, created, done⟩ := bind_eq_ok done
  split at done
  · cases done
  rename_i hosted
  rw [build_components done]
  have start := (schemeScanned_getStringMarkers (cstr text) false).start
  have letter : isAlpha (byteAt (cstr text) (getStringMarkers (cstr text) false).start) = true := by
    have first := fits.1
    rw [reference, ← drop_run, byteAt_drop, Nat.add_zero, ← start] at first
    exact first
  obtain ⟨name, scheme, type, lower⟩ := createScheme_typed junk fun _ => ⟨rfl, letter⟩
  unfold createComponents at created
  dsimp only at created
  obtain ⟨⟨first, buff⟩, credentials, created⟩ := bind_eq_ok created
  obtain ⟨second, host, created⟩ := bind_eq_ok created
  have named := createHost_isSome host
  have frame := createHost_frame host
  rw [createCredentials_frame credentials, scheme] at frame named
  cases created
  have stored : second.scheme = some name ∧
      second.schemeType = (getStringMarkers (cstr text) false).schemeType := by
    rw [frame]
    exact ⟨rfl, rfl⟩
  constructor
  · exact ⟨name, stored.1, stored.2.trans type⟩
  · intro web
    have needs : needsHost second = true := by
      rw [needsHost, stored.1]
      rcases isWeb_schemeTypeOf lower (type ▸ stored.2 ▸ web) with rfl | rfl <;> rfl
    by_contra absent
    exact hosted ⟨needs, by simpa using absent⟩
  · intro needs
    refine createPath_fromRoot (c := second) needs ?_
    rcases needs with ⟨present, -⟩ | file
    · exact opensRoot_path (named.mp present).2
    · exact fits.2 (stored.2 ▸ file)

/-- The scheme of a joined URL is its own or that of the base, beside its type. -/
theorem joinScheme_typed {base : NsurlComponents} (junk : Buff) (rel : Bytes)
    (before : WellFormed base) :
    let m := getStringMarkers rel true
    let scheme := (joinScheme junk base rel m).1
    (∃ name, scheme.scheme = some name ∧ scheme.schemeType = schemeTypeOf name) ∧
      scheme.schemeType =
        if (joinedParts rel m).baseScheme then base.schemeType else m.schemeType := by
  dsimp only
  rw [joinScheme]
  by_cases own : (joinedParts rel (getStringMarkers rel true)).baseScheme = true
  · rw [if_pos own, if_pos own]
    exact ⟨before.scheme, rfl⟩
  · rw [if_neg own, if_neg own]
    obtain ⟨name, scheme, type, -⟩ := @createScheme_typed rel true junk fun same =>
      absurd (beq_iff_eq.mpr same) own
    rw [scheme]
    exact ⟨⟨name, rfl, type⟩, rfl⟩

/-- The path of a joined URL starts at the root when it needs to. -/
theorem joinPath_fromRoot {base stage c : NsurlComponents} {rel : Bytes}
    (kept : (joinedParts rel (getStringMarkers rel true)).baseAuthority = true → FromRoot base)
    (own : (joinedParts rel (getStringMarkers rel true)).baseAuthority = false →
      OpensRoot (removeDotSegments (slice rel (getStringMarkers rel true).path
        (getStringMarkers rel true).query)))
    (needs : NeedsPath stage) (done : joinPath base rel (getStringMarkers rel true) stage = .ok c) :
    FromRoot c := by
  generalize getStringMarkers rel true = m at kept own done
  unfold joinPath at done
  dsimp only at done
  split at done
  · rename_i basePath
    cases done
    refine kept ?_
    exact (Bool.and_eq_true_iff.mp basePath).1
  · rename_i notBase
    split at done
    · rename_i merged
      have authority := (Bool.and_eq_true_iff.mp (Bool.and_eq_true_iff.mp merged).1).1
      obtain ⟨path, stored, head⟩ := kept authority
      rw [stored] at done
      cases done
      refine createPath_fromRoot needs (opensRoot_removeDotSegments (Or.inr ?_))
      have front := directory_head head
      obtain ⟨rest, shape⟩ := List.head?_eq_some_iff.mp front
      rw [shape]
      rfl
    · rename_i notMerged
      cases done
      refine createPath_fromRoot needs ?_
      by_cases authority : (joinedParts rel m).baseAuthority = true
      · apply opensRoot_removeDotSegments
        apply opensRoot_slice
        by_contra other
        have merged : (joinedParts rel m).mergedPath = ((joinedParts rel m).baseAuthority &&
            !(joinedParts rel m).basePath && byteAt rel m.path != chr '/') := rfl
        rw [merged] at notMerged
        simp [authority, notBase, other] at notMerged
      · exact own (by simpa using authority)

/-- The host of a joined URL is that of the base, or comes from its own host section. -/
theorem joinAuthority_isSome {base stage : NsurlComponents} {rel : Bytes} {m : UrlMarkers}
    {state : NsurlComponents × Buff} (done : joinAuthority base rel m state = .ok stage) :
    ((joinedParts rel m).baseAuthority = true ∧ stage.host = base.host) ∨
      (joinedParts rel m).baseAuthority = false ∧ (stage.host.isSome = true ↔
        stage.schemeType ≠ .file ∧ slice rel (hostStart rel m) m.path ≠ []) := by
  have frame := joinAuthority_frame done
  unfold joinAuthority at done
  split at done
  · rename_i kept
    cases done
    exact Or.inl ⟨kept, rfl⟩
  · rename_i own
    obtain ⟨⟨first, buff⟩, credentials, done⟩ := bind_eq_ok done
    have type : first.schemeType = stage.schemeType := by
      rw [frame, createCredentials_frame credentials]
    have named := createHost_isSome done
    rw [type] at named
    exact Or.inr ⟨by simpa using own, named⟩

/-- A joined URL is well formed when its base is and its reference fits. -/
theorem nsurlJoin_wellFormed {junk : Buff} {base url : Nsurl} {rel : Bytes}
    (before : WellFormed base.components) (fits : JoinFits base.components rel)
    (done : nsurlJoin junk base rel = .ok url) : WellFormed url.components := by
  obtain ⟨c, joined, done⟩ := bind_eq_ok done
  rw [build_components done]
  obtain ⟨⟨name, named, type⟩, chosen⟩ := joinScheme_typed junk (cstr rel) before
  unfold JoinFits at fits
  dsimp only at fits
  unfold joinComponents at joined
  dsimp only at joined
  obtain ⟨stage, authority, joined⟩ := bind_eq_ok joined
  obtain ⟨pathed, path, joined⟩ := bind_eq_ok joined
  have frame := joinAuthority_frame authority
  have scheme : stage.scheme = some name := by rw [frame, named]
  have stored : stage.schemeType = schemeTypeOf name := by rw [frame, type]
  have kept : c = { stage with path := c.path, query := c.query, fragment := c.fragment } := by
    cases joined
    rw [createFragment, joinQuery_frame, joinPath_frame path]
  have fromRoot : FromRoot pathed → FromRoot c := by
    cases joined
    rw [createFragment, joinQuery_frame]
    exact id
  have stageType : stage.schemeType = _ := (by rw [frame] : _ = _).trans chosen
  rw [← stageType] at fits
  have sameType (base : (joinedParts (cstr rel) (getStringMarkers (cstr rel) true)).baseAuthority
      = true) := stageType.trans (if_pos (Bool.and_eq_true_iff.mp base).1)
  have notFile : IsWeb stage.schemeType → stage.schemeType ≠ .file := by
    rintro (web | web) file <;> rw [web] at file <;> cases file
  rw [kept]
  constructor
  · exact ⟨name, scheme, stored⟩
  · intro web
    change stage.host.isSome = true
    rcases joinAuthority_isSome authority with ⟨base, same⟩ | ⟨own, same⟩
    · rw [same]
      exact before.host (sameType base ▸ web)
    · exact same.mpr ⟨notFile web, (fits own).1 web⟩
  · intro needs
    have needs : NeedsPath stage := needs
    refine fromRoot (joinPath_fromRoot (fun base => ?_) (fun own => ?_) needs path)
    · rcases joinAuthority_isSome authority with ⟨-, same⟩ | ⟨own, -⟩
      · apply before.path
        rw [NeedsPath, ← same, ← sameType base]
        exact needs
      · rw [base] at own
        cases own
    · rcases joinAuthority_isSome authority with ⟨base, -⟩ | ⟨-, same⟩
      · rw [base] at own
        cases own
      · rcases needs with ⟨present, -⟩ | file
        · exact opensRoot_removeDotSegments (opensRoot_path (same.mp present).2)
        · exact (fits own).2 file

/-- The scheme types of both lists differ for data only. -/
theorem replacedSchemeType_eq {scheme : LwcString}
    (listed : caselessEqual scheme (str "data") = false) :
    replacedSchemeType scheme = schemeTypeOf scheme := by
  simp only [replacedSchemeType, schemeTypeOf, lwcStringCaselessIsequal, listed,
    Bool.false_eq_true, if_false]
  rfl

theorem replaceScheme_wellFormed {url : Nsurl} {scheme : LwcString}
    (fits : ReplaceFits url.components scheme) :
    WellFormed (replaceScheme url scheme).components :=
  ⟨⟨scheme, rfl, replacedSchemeType_eq fits.1⟩, fits.2.1, fits.2.2⟩

/-- A parent has a path from the root when the URL has one. -/
theorem parent_fromRoot {url : Nsurl} (root : FromRoot url.components) :
    FromRoot (parent url).components := by
  obtain ⟨path, stored, head⟩ := root
  obtain ⟨rest, rfl⟩ := List.head?_eq_some_iff.mp head
  have slash := slashPath_parent (chr '/' :: rest)
  refine ⟨(chr '/' :: rest).take (parentPathLen (chr '/' :: rest)), ?_, ?_⟩
  · rw [parent_components, stored]
    rfl
  · cases shape : (chr '/' :: rest).take (parentPathLen (chr '/' :: rest)) with
    | nil =>
        rw [shape] at slash
        exact absurd slash (by simp [byteAt, chr])
    | cons c text =>
        rw [shape] at slash
        have first : c = chr '/' := by simpa [byteAt] using slash
        rw [first]
        rfl

theorem defragment_wellFormed {url : Nsurl} (before : WellFormed url.components) :
    WellFormed (defragment url).components := by
  unfold defragment
  dsimp only
  split
  · exact before
  · exact ⟨before.scheme, before.host, before.path⟩

/-- Every URL of a run whose texts, references and schemes fit is well formed. -/
theorem assembled_wellFormed {url : Nsurl} (reached : Assembled url) :
    WellFormed url.components := by
  induction reached with
  | create junk text fits done => exact nsurlCreate_wellFormed fits done
  | join junk rel before fits done ih => exact nsurlJoin_wellFormed ih fits done
  | defragment before ih => exact defragment_wellFormed ih
  | refragment frag before ih => exact ⟨ih.scheme, ih.host, ih.path⟩
  | replaceQuery query before ih => exact ⟨ih.scheme, ih.host, ih.path⟩
  | replaceScheme scheme before fits ih => exact replaceScheme_wellFormed fits
  | parent before ih => exact ⟨ih.scheme, ih.host, fun needs => parent_fromRoot (ih.path needs)⟩

/-- The URL of `http://a/b`. -/
theorem assembled_wellFormed_create :
    ∃ url, nsurlCreate (fun _ => 0) (str "http://a/b") = .ok url ∧ WellFormed url.components :=
  ⟨_, rfl, assembled_wellFormed
    (.create (fun _ => 0) (str "http://a/b") ⟨rfl, fun file => by cases file⟩ rfl)⟩

/-- The URL of `//h/` has the scheme http and the type of another scheme, and joining `http:g`
gives a URL of the type http without a host. -/
theorem create_mistypes_scheme :
    (∃ url, nsurlCreate (fun _ => 0) (str "//h/") = .ok url ∧
      url.components.scheme = some (str "http") ∧ url.components.schemeType = .other ∧
      ¬ WellFormed url.components) ∧
    ∃ base url, nsurlCreate (fun _ => 0) (str "http://a/b") = .ok base ∧
      nsurlJoin (fun _ => 0) base (str "http:g") = .ok url ∧
      url.components.schemeType = .http ∧ url.components.host = none ∧
      ¬ WellFormed url.components := by
  constructor
  · refine ⟨_, rfl, rfl, rfl, fun formed => ?_⟩
    obtain ⟨name, scheme, type⟩ := formed.scheme
    cases scheme
    exact absurd type (by decide)
  · refine ⟨_, _, rfl, rfl, rfl, rfl, fun formed => ?_⟩
    exact absurd (formed.host (Or.inl rfl)) (by decide)

end Neosurf.Nsurl
