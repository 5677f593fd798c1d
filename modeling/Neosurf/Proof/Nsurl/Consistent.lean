import Neosurf.Construction.Nsurl.Create
import Neosurf.Proof.Nsurl.Markers
import Neosurf.Proof.Nsurl.Sections

namespace Neosurf.Nsurl

/-- A component follows its mark when it is present. -/
def marked (mark : Bytes) (c : Option LwcString) : Bytes :=
  match c with
  | some text => mark ++ text
  | none => []

/-- This is the text from the scheme's colon up to the path. -/
def authorityText (c : NsurlComponents) : Bytes :=
  str ":" ++ piece (slashPath c) (str "//") ++ c.username.getD [] ++
  marked (str ":") c.password ++
  piece ((c.username.isSome || c.password.isSome) && c.host.isSome) (str "@") ++
  c.host.getD [] ++ marked (str ":") c.port

/-- This is the text of a URL up to its query. -/
def baseText (c : NsurlComponents) : Bytes :=
  c.scheme.getD [] ++ authorityText c ++ c.path.getD []

/-- A component with a scheme has this full text. -/
def serialised (c : NsurlComponents) : Bytes :=
  baseText c ++ marked (str "?") c.query ++ marked (str "#") c.fragment

@[simp] theorem piece_true (text : Bytes) : piece true text = text := rfl

@[simp] theorem piece_false (text : Bytes) : piece false text = [] := rfl

@[simp] theorem pieceLength_true (size : Nat) : pieceLength true size = size := rfl

@[simp] theorem pieceLength_false (size : Nat) : pieceLength false size = 0 := rfl

@[simp] theorem marked_none (mark : Bytes) : marked mark none = [] := rfl

@[simp] theorem marked_some (mark text : Bytes) : marked mark (some text) = mark ++ text := rfl

theorem piece_length (selected : Bool) (text : Bytes) :
    (piece selected text).length = pieceLength selected text.length := by
  cases selected <;> rfl

/-- A present component is written as it stands. -/
theorem piece_isSome (c : Option LwcString) : piece c.isSome (c.getD []) = c.getD [] := by
  cases c <;> rfl

theorem piece_isSome_mark (mark : Bytes) (c : Option LwcString) :
    piece c.isSome (mark ++ c.getD []) = marked mark c := by
  cases c <;> rfl

/-- The added lengths are the length of the written text. -/
theorem getString_length (c : NsurlComponents) (flags : StringFlags)
    (queryMark : flags.queryPunctuation = true → flags.query = true)
    (fragmentMark : flags.fragmentPunctuation = true → flags.fragment = true) :
    (getString c flags).length = getStringLength c flags := by
  have inner (outer mark : Bool) (text body : Bytes) (implied : mark = true → outer = true) :
      (piece outer (piece mark text ++ body)).length =
        pieceLength mark text.length + pieceLength outer body.length := by
    cases outer <;> cases mark <;> simp_all
  simp only [getString, getStringLength, List.length_append, piece_length,
    inner _ _ _ _ queryMark, inner _ _ _ _ fragmentMark]
  simp only [show (str ":").length = 1 from rfl, show (str "//").length = 2 from rfl,
    show (str "@").length = 1 from rfl, show (str "?").length = 1 from rfl,
    show (str "#").length = 1 from rfl]
  omega

/-- The flags of a full text with a scheme. -/
theorem getStringFlags_withFragment (c : NsurlComponents) (present : c.scheme.isSome = true) :
    getStringFlags c WITH_FRAGMENT =
      { scheme := true
        schemePunctuation := true
        authorityPunctuation := slashPath c
        username := c.username.isSome
        password := c.password.isSome
        credentialsPunctuation := (c.username.isSome || c.password.isSome) && c.host.isSome
        host := c.host.isSome
        port := c.port.isSome
        path := c.path.isSome
        queryPunctuation := c.query.isSome
        query := c.query.isSome
        fragmentPunctuation := c.fragment.isSome
        fragment := c.fragment.isSome } := by
  have all : wants WITH_FRAGMENT SCHEME = true ∧ wants WITH_FRAGMENT USERNAME = true ∧
      wants WITH_FRAGMENT PASSWORD = true ∧ wants WITH_FRAGMENT HOST = true ∧
      wants WITH_FRAGMENT PORT = true ∧ wants WITH_FRAGMENT PATH = true ∧
      wants WITH_FRAGMENT QUERY = true ∧ wants WITH_FRAGMENT FRAGMENT = true ∧
      decide (SCHEME < WITH_FRAGMENT) = true := by decide
  obtain ⟨h1, h2, h3, h4, h5, h6, h7, h8, h9⟩ := all
  simp [getStringFlags, present, h1, h2, h3, h4, h5, h6, h7, h8, h9]

/-- Components with a scheme serialise to their text and its length. -/
theorem componentsToString_withFragment (c : NsurlComponents) (present : c.scheme.isSome = true) :
    componentsToString c WITH_FRAGMENT = .ok (serialised c, (serialised c).length) := by
  have flags := getStringFlags_withFragment c present
  have text : getString c (getStringFlags c WITH_FRAGMENT) = serialised c := by
    simp only [flags, getString, serialised, baseText, authorityText, piece_true, piece_isSome,
      piece_isSome_mark, List.append_assoc]
    cases c.query <;> cases c.fragment <;> simp
  have length := getString_length c (getStringFlags c WITH_FRAGMENT)
    (by simp [flags]) (by simp [flags])
  rw [text] at length
  have positive : (serialised c).length ≠ 0 := by
    simp [serialised, baseText, authorityText, show (str ":") = [58] from rfl]
  simp only [componentsToString, text, ← length, positive, if_false]

/-- The text of a component set grows by one mark and the component. -/
theorem markedSize_eq (mark : Byte) (c : Option LwcString) :
    (marked [mark] c).length = markedSize c := by
  cases c <;> simp [markedSize, size, Nat.add_comm]

/-- The stored string, length and hash agree with the components. -/
structure Consistent (url : Nsurl) : Prop where
  string : ∃ length, componentsToString url.components WITH_FRAGMENT = .ok (url.string, length)
  length : url.length = url.string.length
  hash : url.hash = calcHash url.components

/-- A run of the URL operations obtains these URLs. The condition limits the URLs that
`nsurl_parent` is called on. -/
inductive Obtained (condition : Nsurl → Prop) : Nsurl → Prop where
  | create (junk : Buff) (text : Bytes) {url : Nsurl}
      (done : nsurlCreate junk text = .ok url) : Obtained condition url
  | join (junk : Buff) (rel : Bytes) {base url : Nsurl} (before : Obtained condition base)
      (done : nsurlJoin junk base rel = .ok url) : Obtained condition url
  | defragment {url : Nsurl} (before : Obtained condition url) :
      Obtained condition (defragment url)
  | refragment (frag : LwcString) {url : Nsurl} (before : Obtained condition url) :
      Obtained condition (refragment url frag)
  | replaceQuery (query : Bytes) {url : Nsurl} (before : Obtained condition url)
      (noHash : chr '#' ∉ query) : Obtained condition (replaceQuery url query)
  | replaceScheme (scheme : LwcString) {url : Nsurl} (before : Obtained condition url) :
      Obtained condition (replaceScheme url scheme)
  | parent {url : Nsurl} (before : Obtained condition url) (allowed : condition url) :
      Obtained condition (parent url)

/-- With a scheme, consistency is an equation for each stored field. -/
theorem consistent_iff {url : Nsurl} (present : url.components.scheme.isSome = true) :
    Consistent url ↔ url.string = serialised url.components ∧
      url.length = (serialised url.components).length ∧ url.hash = calcHash url.components := by
  have text := componentsToString_withFragment url.components present
  constructor
  · rintro ⟨⟨length, string⟩, size, hash⟩
    rw [text, Except.ok.injEq, Prod.mk.injEq] at string
    exact ⟨string.1.symm, by rw [size, string.1], hash⟩
  · rintro ⟨string, length, hash⟩
    exact ⟨⟨_, by rw [text, string]⟩, by rw [length, string], hash⟩

/-- A derived URL is consistent when its string is the text of its components. -/
theorem derive_consistent {c : NsurlComponents} {string : Bytes} {length : Nat}
    (present : c.scheme.isSome = true) (text : string = serialised c)
    (exact_length : length = (serialised c).length) : Consistent (derive c string length) :=
  (consistent_iff present).mpr ⟨text, exact_length, rfl⟩

/-- The builder stores a consistent URL. -/
theorem build_consistent {c : NsurlComponents} {url : Nsurl} (present : c.scheme.isSome = true)
    (done : build c = .ok url) : Consistent url ∧ url.components = c := by
  unfold build at done
  rw [componentsToString_withFragment c present] at done
  cases done
  exact ⟨derive_consistent present rfl rfl, rfl⟩

/-- The marked components stand at the end of the text. -/
theorem serialised_length (c : NsurlComponents) :
    (serialised c).length = (baseText c).length + markedSize c.query + markedSize c.fragment := by
  simp only [serialised, List.length_append, show str "?" = [chr '?'] from rfl,
    show str "#" = [chr '#'] from rfl, markedSize_eq]

theorem take_append_length {first rest : Bytes} {count : Nat} (same : count = first.length) :
    (first ++ rest).take count = first := by
  rw [same, List.take_left]

/-- Removing the fragment's size leaves the text before it. -/
theorem take_beforeFragment (c : NsurlComponents) :
    (serialised c).take ((serialised c).length - markedSize c.fragment) =
      baseText c ++ marked (str "?") c.query := by
  apply take_append_length
  rw [serialised_length, List.length_append, show str "?" = [chr '?'] from rfl, markedSize_eq]
  omega

theorem defragment_consistent {url : Nsurl} (present : url.components.scheme.isSome = true)
    (before : Consistent url) : Consistent (defragment url) := by
  obtain ⟨string, length, -⟩ := (consistent_iff present).mp before
  unfold defragment
  dsimp only
  split
  · exact before
  · rw [string, length]
    refine derive_consistent present ?_ ?_
    · rw [take_beforeFragment]
      simp [serialised, baseText, authorityText, slashPath]
    · rw [serialised_length, serialised_length]
      simp only [markedSize, Option.isSome_none, Bool.false_eq_true, if_false]
      rw [Nat.add_sub_cancel]
      rfl

theorem refragment_consistent {url : Nsurl} (frag : LwcString)
    (present : url.components.scheme.isSome = true) (before : Consistent url) :
    Consistent (refragment url frag) := by
  obtain ⟨string, length, -⟩ := (consistent_iff present).mp before
  unfold refragment
  dsimp only
  rw [string, length]
  refine derive_consistent present ?_ ?_
  · rw [take_beforeFragment]
    simp [serialised, baseText, authorityText, slashPath]
  · rw [serialised_length, serialised_length]
    simp only [markedSize, size, Option.isSome_some, if_true, Option.getD_some]
    change _ = (baseText url.components).length + _ + _
    omega

theorem replaceQuery_consistent {url : Nsurl} (query : Bytes)
    (present : url.components.scheme.isSome = true) (before : Consistent url) :
    Consistent (replaceQuery url query) := by
  obtain ⟨string, length, -⟩ := (consistent_iff present).mp before
  have base : (serialised url.components).take ((serialised url.components).length -
      markedSize url.components.query - markedSize url.components.fragment) =
      baseText url.components := by
    rw [serialised, List.append_assoc]
    apply take_append_length
    rw [← List.append_assoc, ← serialised, serialised_length]
    omega
  unfold replaceQuery
  dsimp only
  rw [string, length]
  refine derive_consistent present ?_ ?_
  · rw [base]
    cases url.components.fragment <;> by_cases empty : cstr query = [] <;>
      simp [serialised, baseText, authorityText, slashPath, empty]
  · rw [serialised_length, serialised_length]
    by_cases empty : cstr query = []
    · simp only [empty, if_true, List.length_nil, markedSize, Option.isSome_none,
        Bool.false_eq_true, if_false]
      change _ = (baseText url.components).length + _ + _
      omega
    · simp only [empty, if_false, markedSize, size, Option.isSome_some, if_true,
        Option.getD_some]
      change _ = (baseText url.components).length + _ + _
      omega

/-- The text after the scheme does not depend on it. -/
theorem serialised_scheme (c : NsurlComponents) :
    ∃ rest, ∀ (scheme : Option LwcString) (schemeType : SchemeType),
      serialised { c with scheme, schemeType } = scheme.getD [] ++ rest := by
  refine ⟨authorityText c ++ c.path.getD [] ++ marked (str "?") c.query ++
    marked (str "#") c.fragment, fun scheme schemeType => ?_⟩
  simp only [serialised, baseText, List.append_assoc]
  rfl

theorem replaceScheme_consistent {url : Nsurl} (scheme : LwcString)
    (present : url.components.scheme.isSome = true) (before : Consistent url) :
    Consistent (replaceScheme url scheme) := by
  obtain ⟨string, length, -⟩ := (consistent_iff present).mp before
  obtain ⟨rest, texts⟩ := serialised_scheme url.components
  have old : serialised url.components = url.components.scheme.getD [] ++ rest :=
    texts url.components.scheme url.components.schemeType
  have restLength : url.length - size url.components.scheme = rest.length := by
    rw [length, old, List.length_append, size]
    omega
  unfold replaceScheme
  dsimp only
  rw [restLength]
  refine derive_consistent rfl ?_ ?_
  · rw [texts, string, length, old, List.length_append, Nat.add_sub_cancel, List.drop_left,
      List.take_length, Option.getD_some]
  · rw [texts, List.length_append, Option.getD_some, Nat.add_comm]

theorem directory_length_le (path : Bytes) : (directory path).length ≤ path.length := by
  rw [directory, List.length_reverse, ← @List.length_reverse _ path]
  exact List.IsSuffix.length_le (List.dropWhile_suffix _)

/-- The parent's path is a prefix of the path. -/
theorem parentPathLen_le (path : Bytes) : parentPathLen path ≤ path.length := by
  unfold parentPathLen
  split
  · refine (directory_length_le _).trans ?_
    split
    · simp
    · exact Nat.le_refl _
  · exact Nat.le_refl _

/-- A directory keeps a slash at its start. -/
theorem directory_head {path : Bytes} (slash : path.head? = some (chr '/')) :
    (directory path).head? = some (chr '/') := by
  obtain ⟨rest, rfl⟩ := List.head?_eq_some_iff.mp slash
  rw [directory, List.reverse_cons, List.dropWhile_append]
  split
  · rfl
  · simp

/-- The parent's path starts with a slash exactly when the path does. -/
theorem slashPath_parent (path : Bytes) :
    (byteAt (path.take (parentPathLen path)) 0 == chr '/') = (byteAt path 0 == chr '/') := by
  have positive : path.head? = some (chr '/') → 0 < parentPathLen path := by
    intro slash
    have nonempty : ∀ text : Bytes, text.head? = some (chr '/') →
        0 < (directory text).length := by
      intro text head
      have start := directory_head head
      cases equal : directory text with
      | nil => rw [equal] at start; cases start
      | cons => simp
    unfold parentPathLen
    split
    · rename_i long
      apply nonempty
      split
      · obtain ⟨rest, rfl⟩ := List.head?_eq_some_iff.mp slash
        cases rest with
        | nil => simp at long
        | cons => simp
      · exact slash
    · obtain ⟨rest, rfl⟩ := List.head?_eq_some_iff.mp slash
      simp
  cases path with
  | nil => rfl
  | cons c rest =>
      by_cases slash : c = chr '/'
      · have some_length := positive (by rw [slash]; rfl)
        cases equal : parentPathLen (c :: rest) with
        | zero => omega
        | succ n => rfl
      · cases equal : parentPathLen (c :: rest) with
        | zero =>
            have other : (c == chr '/') = false := by simpa using slash
            change (byteAt [] 0 == chr '/') = (c == chr '/')
            rw [other]
            rfl
        | succ n => rfl

/-- These are the components of a parent. -/
theorem parent_components (url : Nsurl) :
    (parent url).components = { url.components with
      path := if url.components.path.getD [] = [] then none
        else some ((url.components.path.getD []).take
          (parentPathLen (url.components.path.getD [])))
      query := none
      fragment := none } := rfl

/-- The text of the parent is a prefix of the text of the URL. -/
theorem parent_serialised (url : Nsurl) {path : Bytes}
    (same : path = url.components.path.getD []) :
    serialised (parent url).components = (serialised url.components).take
      ((baseText url.components).length - (path.length - parentPathLen path)) := by
  have slash : slashPath (parent url).components = slashPath url.components := by
    rw [parent_components]
    unfold slashPath
    cases stored : url.components.path with
    | none => rfl
    | some text =>
        cases text with
        | nil => rfl
        | cons c rest => exact slashPath_parent (c :: rest)
  have pathText : (parent url).components.path.getD [] = path.take (parentPathLen path) := by
    rw [parent_components, ← same]
    dsimp only
    split
    · rename_i empty
      rw [empty]
      rfl
    · rfl
  have authority : authorityText (parent url).components = authorityText url.components := by
    unfold authorityText
    rw [slash, parent_components]
  have within := parentPathLen_le path
  rw [serialised, baseText, pathText, authority, show (parent url).components.query = none from rfl,
    show (parent url).components.fragment = none from rfl,
    show (parent url).components.scheme = url.components.scheme from rfl]
  simp only [marked_none, List.append_nil, serialised, baseText, ← same]
  rw [List.append_assoc _ (marked _ _), List.take_append_of_le_length, List.take_append,
    List.take_of_length_le (l := _ ++ authorityText _)]
  · congr 2
    simp only [List.length_append]
    omega
  · simp only [List.length_append]
    omega
  · simp only [List.length_append]
    omega

/-- The stored length of a parent exceeds its text by the question mark it forgets. -/
theorem parent_length {url : Nsurl} (present : url.components.scheme.isSome = true)
    (before : Consistent url) :
    (parent url).length = (serialised (parent url).components).length +
      if url.components.query.isSome then 1 else 0 := by
  obtain ⟨-, length, -⟩ := (consistent_iff present).mp before
  have within := parentPathLen_le (url.components.path.getD [])
  have room : (url.components.path.getD []).length ≤ (baseText url.components).length := by
    simp only [baseText, List.length_append]
    omega
  rw [parent_serialised url rfl, List.length_take, serialised_length]
  change url.length - size url.components.query - markedSize url.components.fragment -
    ((url.components.path.getD []).length - parentPathLen (url.components.path.getD [])) = _
  rw [length, serialised_length]
  cases stored : url.components.query with
  | none => simp [markedSize, size]; omega
  | some query => simp [markedSize, size]; omega

/-- A parent is consistent exactly when the URL has no query. -/
theorem parent_consistent_iff {url : Nsurl} (present : url.components.scheme.isSome = true)
    (before : Consistent url) :
    Consistent (parent url) ↔ url.components.query = none := by
  have length := parent_length present before
  constructor
  · intro after
    obtain ⟨-, exact_length, -⟩ :=
      (@consistent_iff (parent url) present).mp after
    cases stored : url.components.query with
    | none => rfl
    | some query =>
        rw [exact_length, stored] at length
        simp at length
  · intro noQuery
    obtain ⟨string, stored, -⟩ := (consistent_iff present).mp before
    simp only [noQuery, Option.isSome_none, Bool.false_eq_true, if_false, Nat.add_zero] at length
    refine derive_consistent present (Eq.trans ?_ (parent_serialised url rfl).symm) length
    rw [string, stored, serialised_length, noQuery]
    simp only [markedSize, size, Option.isSome_none, Option.getD_none, List.length_nil,
      Bool.false_eq_true, if_false, Nat.sub_zero, Nat.add_zero, Nat.add_sub_cancel]

/-- A created URL stores consistent data under a scheme. -/
theorem nsurlCreate_consistent {junk : Buff} {text : Bytes} {url : Nsurl}
    (done : nsurlCreate junk text = .ok url) :
    url.components.scheme.isSome = true ∧ Consistent url := by
  obtain ⟨c, created, done⟩ := bind_eq_ok done
  split at done
  · cases done
  · have present := createComponents_isSome created
    obtain ⟨after, same⟩ := build_consistent present done
    exact ⟨by rw [same, present], after⟩

/-- A joined URL stores consistent data under the scheme of the base or its own. -/
theorem nsurlJoin_consistent {junk : Buff} {base url : Nsurl} {rel : Bytes}
    (present : base.components.scheme.isSome = true) (done : nsurlJoin junk base rel = .ok url) :
    url.components.scheme.isSome = true ∧ Consistent url := by
  obtain ⟨c, joined, done⟩ := bind_eq_ok done
  have kept := joinComponents_isSome present joined
  obtain ⟨after, same⟩ := build_consistent kept done
  exact ⟨by rw [same, kept], after⟩

/-- Every URL of a run has a scheme, and consistent data when no parent is taken of a
URL with a query. -/
theorem obtained_invariant {url : Nsurl}
    (reached : Obtained (fun url => url.components.query = none) url) :
    url.components.scheme.isSome = true ∧ Consistent url := by
  induction reached with
  | create junk text done => exact nsurlCreate_consistent done
  | join junk rel before done ih => exact nsurlJoin_consistent ih.1 done
  | @defragment url before ih =>
      refine ⟨?_, defragment_consistent ih.1 ih.2⟩
      unfold defragment
      dsimp only
      split
      · exact ih.1
      · exact ih.1
  | refragment frag before ih => exact ⟨ih.1, refragment_consistent frag ih.1 ih.2⟩
  | replaceQuery query before noHash ih => exact ⟨ih.1, replaceQuery_consistent query ih.1 ih.2⟩
  | replaceScheme scheme before ih => exact ⟨rfl, replaceScheme_consistent scheme ih.1 ih.2⟩
  | parent before allowed ih => exact ⟨ih.1, (parent_consistent_iff ih.1 ih.2).mpr allowed⟩

/-- Every URL of a run is consistent when no parent is taken of a URL with a query. -/
theorem obtained_consistent {url : Nsurl}
    (reached : Obtained (fun url => url.components.query = none) url) : Consistent url :=
  (obtained_invariant reached).2

/-- The parent of `http://a/b/c#f` is consistent. -/
theorem obtained_consistent_parent :
    ∃ url, nsurlCreate (fun _ => 0) (str "http://a/b/c#f") = .ok url ∧ Consistent (parent url) :=
  ⟨_, rfl, obtained_consistent (.parent (.create (fun _ => 0) (str "http://a/b/c#f") rfl) rfl)⟩

/-- URLs of runs that compare as equal have the same hash, and the same text as well when their
fragments are compared. -/
theorem obtained_compare {url other : Nsurl}
    (reached : Obtained (fun url => url.components.query = none) url)
    (reached' : Obtained (fun url => url.components.query = none) other) :
    (compare url other COMPLETE = true → url.hash = other.hash) ∧
      (compare url other WITH_FRAGMENT = true →
        access url = access other ∧ url.length = other.length) := by
  obtain ⟨present, same⟩ := obtained_invariant reached
  obtain ⟨present', same'⟩ := obtained_invariant reached'
  constructor
  · intro equal
    simp [compare, wants, COMPLETE, AUTHORITY, CREDENTIALS, SCHEME, USERNAME, PASSWORD, HOST, PORT,
      PATH, QUERY, FRAGMENT, componentCompare_iff] at equal
    rw [same.hash, same'.hash]
    simp only [calcHash, equal]
  · intro equal
    simp [compare, wants, WITH_FRAGMENT, COMPLETE, AUTHORITY, CREDENTIALS, SCHEME, USERNAME,
      PASSWORD, HOST, PORT, PATH, QUERY, FRAGMENT, componentCompare_iff] at equal
    have text : url.string = other.string := by
      rw [((consistent_iff present).mp same).1, ((consistent_iff present').mp same').1]
      simp only [serialised, baseText, authorityText, slashPath, equal]
    exact ⟨congrArg cstr text, by rw [same.length, same'.length, text]⟩

theorem obtained_compare_fragment : ∃ url, nsurlCreate (fun _ => 0) (str "http://a/b#f") = .ok url ∧
    (compare url (defragment url) COMPLETE = true → url.hash = (defragment url).hash) ∧
      (compare url (defragment url) WITH_FRAGMENT = true →
        access url = access (defragment url) ∧ url.length = (defragment url).length) :=
  ⟨_, rfl, obtained_compare (.create (fun _ => 0) (str "http://a/b#f") rfl)
    (.defragment (.create (fun _ => 0) (str "http://a/b#f") rfl))⟩

/-- Of several changes of the fragment in a run only the last one counts. -/
theorem obtained_fragments {url : Nsurl}
    (reached : Obtained (fun url => url.components.query = none) url) (frag other : LwcString) :
    defragment (refragment url frag) = defragment url ∧
      refragment (defragment url) frag = refragment url frag ∧
      refragment (refragment url other) frag = refragment url frag := by
  obtain ⟨-, same⟩ := obtained_invariant reached
  obtain ⟨base, isBase⟩ : ∃ base, url.length - markedSize url.components.fragment = base := ⟨_, rfl⟩
  have fits : (url.string.take base).length = base := by
    rw [List.length_take, ← same.length]
    omega
  have whole : defragment url =
      derive { url.components with fragment := none } (url.string.take base) base := by
    rw [defragment]
    dsimp only
    split
    · rename_i absent
      have all : base = url.string.length := by
        rw [← isBase, absent, same.length]
        rfl
      rw [← absent, all, List.take_length, derive, ← same.hash, ← same.length]
    · rw [isBase]
  have again (frag : LwcString) : base + 1 + frag.length - markedSize (some frag) = base := by
    simp only [markedSize, size, Option.isSome_some, if_true, Option.getD_some]
    omega
  have cut (frag : LwcString) : (url.string.take base ++ str "#" ++ frag).take base =
      url.string.take base := by
    rw [List.append_assoc]
    exact take_append_length fits.symm
  refine ⟨?_, ?_, ?_⟩
  · rw [whole, defragment, refragment]
    simp only [derive, isBase, again, cut]
    rfl
  · rw [whole, refragment, refragment]
    simp only [derive, isBase]
    simp [markedSize, List.take_take]
  · rw [refragment, refragment, refragment]
    simp only [derive, isBase, again, cut]

theorem obtained_fragments_create : ∃ url,
    nsurlCreate (fun _ => 0) (str "http://a/b#f") = .ok url ∧
      defragment (refragment url (str "g")) = defragment url ∧
      refragment (defragment url) (str "g") = refragment url (str "g") ∧
      refragment (refragment url (str "h")) (str "g") = refragment url (str "g") :=
  ⟨_, rfl, obtained_fragments (.create (fun _ => 0) (str "http://a/b#f") rfl) (str "g") (str "h")⟩

/-- The parent of `http://a/b/c?q` stores a length of twelve for eleven characters. -/
theorem parent_inconsistent :
    ∃ url, Obtained (fun _ => True) url ∧ url.length = 12 ∧ ¬ Consistent url := by
  have created : ∃ url, nsurlCreate (fun _ => 0) (str "http://a/b/c?q") = .ok url ∧
      url.components.query = some (str "q") ∧ (parent url).length = 12 := ⟨_, rfl, rfl, rfl⟩
  obtain ⟨url, done, query, length⟩ := created
  obtain ⟨present, before⟩ := nsurlCreate_consistent done
  refine ⟨parent url, .parent (.create _ _ done) trivial, length, fun after => ?_⟩
  have absent := (parent_consistent_iff present before).mp after
  rw [query] at absent
  cases absent

/-- This is a reference without the white space at its start. -/
def reference (rel : Bytes) : Bytes := (cstr rel).dropWhile isSpace

/-- The URL has the scheme and the authority of the base. -/
structure SameAuthority (url base : Nsurl) : Prop where
  scheme : url.components.scheme = base.components.scheme
  username : url.components.username = base.components.username
  password : url.components.password = base.components.password
  host : url.components.host = base.components.host
  port : url.components.port = base.components.port

/-- A join with this reference keeps the authority of every base with a host and a path
that starts with a slash. -/
def KeepsAuthority (rel : Bytes) : Prop :=
  ∀ (junk : Buff) (base url : Nsurl), base.components.host.isSome = true →
    byteAt (base.components.path.getD []) 0 = chr '/' →
    nsurlJoin junk base rel = .ok url → SameAuthority url base

/-- The builder keeps the components. -/
theorem build_components {c : NsurlComponents} {url : Nsurl} (done : build c = .ok url) :
    url.components = c := by
  obtain ⟨⟨string, length⟩, -, done⟩ := bind_eq_ok done
  cases done
  rfl

/-- The base gives the authority unless the reference leaks one. -/
theorem joinedParts_reference {rel : Bytes} (noScheme : hasScheme (reference rel) = false)
    (noSlash : byteAt (reference rel) 0 ≠ chr '/') :
    let parts := joinedParts (cstr rel) (getStringMarkers (cstr rel) true)
    parts.baseScheme = true ∧ parts.baseAuthority = !leaksAuthority (reference rel) := by
  obtain ⟨schemeEnd, authority⟩ := getStringMarkers_reference noScheme noSlash
  have scheme : ((getStringMarkers (cstr rel) true).schemeEnd ==
      (getStringMarkers (cstr rel) true).start) = true := by
    rw [schemeEnd, beq_self_eq_true]
  refine ⟨scheme, ?_⟩
  rw [joinedParts]
  dsimp only
  rw [scheme, authority, Bool.true_and]
  rfl

/-- A join that takes over the authority has the authority of the base. -/
theorem nsurlJoin_baseAuthority {junk : Buff} {base url : Nsurl} {rel : Bytes}
    (scheme : (joinedParts (cstr rel) (getStringMarkers (cstr rel) true)).baseScheme = true)
    (authority : (joinedParts (cstr rel) (getStringMarkers (cstr rel) true)).baseAuthority = true)
    (done : nsurlJoin junk base rel = .ok url) : SameAuthority url base := by
  obtain ⟨c, joined, built⟩ := bind_eq_ok done
  have kept := build_components built
  obtain ⟨stage, found, same⟩ := joinComponents_authority joined
  rw [joinAuthority, if_pos authority] at found
  cases found
  rw [joinScheme, if_pos scheme] at same
  refine ⟨?_, ?_, ?_, ?_, ?_⟩ <;> rw [kept, same]

/-- A file URL reads neither credentials nor a host. -/
theorem joinAuthority_file (base : NsurlComponents) {rel : Bytes} {m : UrlMarkers}
    (state : NsurlComponents × Buff) (file : state.1.schemeType = .file)
    (authority : (joinedParts rel m).baseAuthority = false) :
    joinAuthority base rel m state = .ok { state.1 with
      username := none, password := none, host := none, port := none } := by
  rw [joinAuthority, authority, createCredentials, if_pos file]
  change createHost rel m _ _ = _
  rw [createHost, if_pos (Or.inl file)]

/-- Only a merge with an absent path fails. -/
theorem joinPath_isOk (base : NsurlComponents) {rel : Bytes} {m : UrlMarkers}
    (unmerged : (joinedParts rel m).mergedPath = false) (start : NsurlComponents) :
    ∃ c, joinPath base rel m start = .ok c := by
  rw [joinPath, unmerged]
  split
  · exact ⟨_, rfl⟩
  · exact ⟨_, rfl⟩

/-- The components of a join under a file base that reads an authority have no host. -/
theorem joinComponents_file {base : NsurlComponents} {rel : Bytes} (junk : Buff)
    (file : base.schemeType = .file)
    (scheme : (joinedParts rel (getStringMarkers rel true)).baseScheme = true)
    (authority : (joinedParts rel (getStringMarkers rel true)).baseAuthority = false) :
    ∃ c, joinComponents junk base rel = .ok c ∧ c.host = none := by
  have unmerged : (joinedParts rel (getStringMarkers rel true)).mergedPath = false := by
    change ((joinedParts rel (getStringMarkers rel true)).baseAuthority && _ && _) = false
    rw [authority, Bool.false_and, Bool.false_and]
  have first : joinScheme junk base rel (getStringMarkers rel true) =
      ({ scheme := base.scheme, schemeType := base.schemeType }, junk) := by
    rw [joinScheme, if_pos scheme]
  have stage := joinAuthority_file base (joinScheme junk base rel (getStringMarkers rel true))
    (by rw [first, file]) authority
  obtain ⟨pathed, path⟩ := joinPath_isOk base unmerged
    { (joinScheme junk base rel (getStringMarkers rel true)).1 with
      username := none, password := none, host := none, port := none }
  have joined : joinComponents junk base rel = .ok (createFragment rel (getStringMarkers rel true)
      (joinQuery base rel (getStringMarkers rel true) pathed)) := by
    rw [joinComponents, stage]
    change (joinPath base rel (getStringMarkers rel true) _ >>= _) = _
    rw [path]
    rfl
  refine ⟨_, joined, ?_⟩
  obtain ⟨found, authorityStage, same⟩ := joinComponents_authority joined
  rw [stage] at authorityStage
  cases authorityStage
  rw [same]

/-- A join that reads an authority under a file base ends without a host. -/
theorem nsurlJoin_file (base : Nsurl) {rel : Bytes} (junk : Buff)
    (present : base.components.scheme.isSome = true) (file : base.components.schemeType = .file)
    (scheme : (joinedParts (cstr rel) (getStringMarkers (cstr rel) true)).baseScheme = true)
    (authority :
      (joinedParts (cstr rel) (getStringMarkers (cstr rel) true)).baseAuthority = false) :
    ∃ url, nsurlJoin junk base rel = .ok url ∧ url.components.host = none := by
  obtain ⟨c, joined, host⟩ := joinComponents_file junk file scheme authority
  have kept := joinComponents_isSome present joined
  refine ⟨derive c (serialised c) (serialised c).length, ?_, host⟩
  rw [nsurlJoin, joined]
  change build c = _
  rw [build, componentsToString_withFragment c kept]
  rfl

/-- A reference without scheme and slash keeps the authority of every base exactly when it
leaks no authority of its own. -/
theorem keepsAuthority_iff {rel : Bytes} (noScheme : hasScheme (reference rel) = false)
    (noSlash : byteAt (reference rel) 0 ≠ chr '/') :
    KeepsAuthority rel ↔ leaksAuthority (reference rel) = false := by
  obtain ⟨scheme, authority⟩ := joinedParts_reference noScheme noSlash
  constructor
  · intro keeps
    by_contra leaks
    rw [Bool.not_eq_false] at leaks
    rw [leaks, Bool.not_true] at authority
    -- The base is what `nsurl_replace_scheme` makes of `http://a/`.
    obtain ⟨base, created, host, path⟩ : ∃ base, nsurlCreate (fun _ => 0) (str "http://a/") =
        .ok base ∧ base.components.host = some (str "a") ∧
        base.components.path = some (str "/") := ⟨_, rfl, rfl, rfl⟩
    obtain ⟨url, done, absent⟩ := nsurlJoin_file
      (replaceScheme base (str "file")) (fun _ => 0) rfl rfl scheme authority
    have same := (keeps _ _ _ (by change base.components.host.isSome = true; rw [host]; rfl)
      (by change byteAt (base.components.path.getD []) 0 = _; rw [path]; rfl) done).host
    rw [absent] at same
    change none = base.components.host at same
    rw [host] at same
    cases same
  · intro keeps junk base url host path done
    rw [keeps, Bool.not_false] at authority
    exact nsurlJoin_baseAuthority scheme authority done

/-- The query-only reference `?q` keeps the authority of every base. -/
theorem keepsAuthority_query : KeepsAuthority (str "?q") :=
  (@keepsAuthority_iff (str "?q") (by decide) (by decide)).mpr (by decide)

/-- The reference `foo//evil` replaces the host of `http://a/b`. -/
theorem join_replaces_host : ∃ base url,
    nsurlCreate (fun _ => 0) (str "http://a/b") = .ok base ∧
      nsurlJoin (fun _ => 0) base (str "foo//evil") = .ok url ∧
      hasScheme (reference (str "foo//evil")) = false ∧
      byteAt (reference (str "foo//evil")) 0 ≠ chr '/' ∧
      base.components.host = some (str "a") ∧ base.components.path = some (str "/b") ∧
      url.components.host = some (str "evil") ∧ ¬ KeepsAuthority (str "foo//evil") := by
  refine ⟨_, _, rfl, rfl, by decide, by decide, rfl, rfl, rfl, fun keeps => ?_⟩
  exact absurd ((keepsAuthority_iff (by decide) (by decide)).mp keeps) (by decide)

end Neosurf.Nsurl
