import Neosurf.Construction.Nsurl.Create
import Neosurf.Proof.Nsurl.Markers

namespace Neosurf.Nsurl

/-- A successful bind has a successful first part. -/
theorem bind_eq_ok {ε α β : Type} {first : Except ε α} {next : α → Except ε β} {result : β}
    (done : (first >>= next) = .ok result) :
    ∃ value, first = .ok value ∧ next value = .ok result := by
  cases first with
  | error e => cases done
  | ok value => exact ⟨value, rfl, done⟩

/-- The credentials section changes only the credentials. -/
theorem createCredentials_frame {urlS : Bytes} {pegs : UrlMarkers} {buff buff' : Buff}
    {url c : NsurlComponents} (done : createCredentials urlS pegs buff url = .ok (c, buff')) :
    c = { url with username := c.username, password := c.password } := by
  unfold createCredentials at done
  dsimp only at done
  split at done
  · cases done; rfl
  · split at done
    · cases done; rfl
    · split at done
      · obtain ⟨password, -, done⟩ := bind_eq_ok done
        obtain ⟨username, -, done⟩ := bind_eq_ok done
        cases done; rfl
      · obtain ⟨username, -, done⟩ := bind_eq_ok done
        cases done; rfl

/-- The host section changes only the host and the port. -/
theorem createHost_frame {urlS : Bytes} {pegs : UrlMarkers} {buff : Buff}
    {url c : NsurlComponents} (done : createHost urlS pegs buff url = .ok c) :
    c = { url with host := c.host, port := c.port } := by
  unfold createHost at done
  dsimp only at done
  split at done
  · cases done; rfl
  · obtain ⟨⟨port, length⟩, -, done⟩ := bind_eq_ok done
    dsimp only at done
    split at done
    · cases done; rfl
    · obtain ⟨host, -, done⟩ := bind_eq_ok done
      cases done; rfl

/-- The authority of a joined URL changes neither the scheme nor what follows. -/
theorem joinAuthority_frame {base : NsurlComponents} {rel : Bytes} {m : UrlMarkers}
    {state : NsurlComponents × Buff} {c : NsurlComponents}
    (done : joinAuthority base rel m state = .ok c) :
    c = { state.1 with
      username := c.username, password := c.password, host := c.host, port := c.port } := by
  unfold joinAuthority at done
  split at done
  · cases done; rfl
  · obtain ⟨⟨first, buff⟩, credentials, done⟩ := bind_eq_ok done
    have host := createHost_frame done
    rw [createCredentials_frame credentials] at host
    rw [host]

/-- The path of a joined URL changes nothing else. -/
theorem joinPath_frame {base : NsurlComponents} {rel : Bytes} {m : UrlMarkers}
    {start c : NsurlComponents} (done : joinPath base rel m start = .ok c) :
    c = { start with path := c.path } := by
  unfold joinPath at done
  dsimp only at done
  split at done
  · cases done; rfl
  · split at done
    · split at done
      · cases done
      · cases done; rfl
    · cases done; rfl

/-- The query of a joined URL changes nothing else. -/
theorem joinQuery_frame (base : NsurlComponents) (rel : Bytes) (m : UrlMarkers)
    (c : NsurlComponents) :
    joinQuery base rel m c = { c with query := (joinQuery base rel m c).query } := by
  unfold joinQuery
  split <;> rfl

/-- A joined URL has the authority that its authority stage computes. -/
theorem joinComponents_authority {junk : Buff} {base c : NsurlComponents} {rel : Bytes}
    (done : joinComponents junk base rel = .ok c) :
    ∃ stage, joinAuthority base rel (getStringMarkers rel true)
        (joinScheme junk base rel (getStringMarkers rel true)) = .ok stage ∧
      c = { stage with path := c.path, query := c.query, fragment := c.fragment } := by
  unfold joinComponents at done
  dsimp only at done
  obtain ⟨stage, authority, done⟩ := bind_eq_ok done
  obtain ⟨pathed, path, done⟩ := bind_eq_ok done
  refine ⟨stage, authority, ?_⟩
  cases done
  simp only [createFragment]
  rw [joinQuery_frame, joinPath_frame path]

/-- The first section always gives a scheme. -/
theorem createScheme_isSome (urlS : Bytes) (pegs : UrlMarkers) (buff : Buff)
    (url : NsurlComponents) : (createScheme urlS pegs buff url).1.scheme.isSome = true := rfl

/-- Created components have a scheme. -/
theorem createComponents_isSome {junk : Buff} {urlS : Bytes} {c : NsurlComponents}
    (done : createComponents junk urlS = .ok c) : c.scheme.isSome = true := by
  unfold createComponents at done
  dsimp only at done
  obtain ⟨⟨first, buff⟩, credentials, done⟩ := bind_eq_ok done
  obtain ⟨second, host, done⟩ := bind_eq_ok done
  cases done
  have kept := congrArg NsurlComponents.scheme (createHost_frame host)
  have first_scheme := congrArg NsurlComponents.scheme (createCredentials_frame credentials)
  change second.scheme.isSome = true
  rw [kept]
  change first.scheme.isSome = true
  rw [first_scheme]
  rfl

/-- Joined components keep the scheme of the base or have their own. -/
theorem joinComponents_isSome {junk : Buff} {base c : NsurlComponents} {rel : Bytes}
    (present : base.scheme.isSome = true) (done : joinComponents junk base rel = .ok c) :
    c.scheme.isSome = true := by
  obtain ⟨stage, authority, same⟩ := joinComponents_authority done
  rw [same, joinAuthority_frame authority]
  simp only [joinScheme]
  split
  · exact present
  · exact createScheme_isSome _ _ _ _

/-- A path is empty or starts at the root. -/
def OpensRoot (text : Bytes) : Prop := text = [] ∨ text.head? = some (chr '/')

theorem normalise_ne_nil {caseless : Bool} (c : Byte) (rest : Bytes) :
    normalise caseless (c :: rest) ≠ [] := by
  have char (c : Byte) : normaliseChar caseless c ≠ [] := by
    unfold normaliseChar
    split
    · exact List.cons_ne_nil _ _
    · split
      · exact List.cons_ne_nil _ _
      · exact List.cons_ne_nil _ _
  unfold normalise
  split
  · contradiction
  · split
    · split
      · exact List.cons_ne_nil _ _
      · split <;> exact List.cons_ne_nil _ _
    · simp [char]
  · simp [char]

/-- Only an empty section has an empty normal form. -/
theorem normalise_eq_nil {caseless : Bool} {text : Bytes} :
    normalise caseless text = [] ↔ text = [] := by
  cases text with
  | nil => exact ⟨fun _ => rfl, fun _ => rfl⟩
  | cons c rest => simp [normalise_ne_nil]

/-- A slash at the start stays. -/
theorem head_normalise {text : Bytes} (slash : text.head? = some (chr '/')) :
    (normalise false text).head? = some (chr '/') := by
  obtain ⟨rest, rfl⟩ := List.head?_eq_some_iff.mp slash
  have char : normaliseChar false (chr '/') = [chr '/'] := by decide
  match rest with
  | [] => simp [normalise, char]
  | [h] => simp [normalise, char]
  | h :: l :: rest =>
      rw [normalise, if_neg (by decide), char]
      rfl

/-- A text without escapes only loses the case of its letters in a scheme. -/
theorem normalise_true {text : Bytes} (plain : chr '%' ∉ text) :
    normalise true text = folded text := by
  fun_induction normalise true text with
  | case1 => rfl
  | case2 h l rest failed ih => exact absurd List.mem_cons_self plain
  | case3 h l rest value _ _ ih => exact absurd List.mem_cons_self plain
  | case4 h l rest value _ _ ih => exact absurd List.mem_cons_self plain
  | case5 c h l rest other ih =>
      rw [ih fun later => plain (List.mem_cons_of_mem c later)]
      rfl
  | case6 c rest short ih =>
      rw [ih fun later => plain (List.mem_cons_of_mem c later)]
      rfl

/-- An output in reverse order is empty or starts at the root. -/
def EndsAtRoot (output : Bytes) : Prop := output = [] ∨ output.getLast? = some (chr '/')

theorem endsAtRoot_suffix {part output : Bytes} (suffix : part <:+ output)
    (rooted : EndsAtRoot output) : EndsAtRoot part := by
  obtain ⟨before, rfl⟩ := suffix
  cases part with
  | nil => exact Or.inl rfl
  | cons c rest =>
      refine Or.inr ?_
      have last := rooted.resolve_left (by simp)
      rwa [List.getLast?_append_of_ne_nil _ (List.cons_ne_nil c rest)] at last

theorem endsAtRoot_slash {before output : Bytes} (rooted : EndsAtRoot output) :
    EndsAtRoot (before ++ chr '/' :: output) := by
  refine Or.inr ?_
  rw [List.getLast?_append_of_ne_nil _ (List.cons_ne_nil _ _)]
  rcases rooted with rfl | last
  · rfl
  · rw [List.getLast?_cons, last]
    rfl

theorem opensRoot_drop {text : Bytes} {pos : Nat} (slash : byteAt text pos = chr '/') :
    OpensRoot (text.drop pos) := by
  rw [drop_of_byteAt slash (by decide)]
  exact Or.inr rfl

theorem opensRoot_dropWhile (text : Bytes) : OpensRoot (text.dropWhile (· ≠ chr '/')) := by
  induction text with
  | nil => exact Or.inl rfl
  | cons c rest ih =>
      rw [List.dropWhile_cons]
      split
      · exact ih
      · rename_i slash
        rw [show c = chr '/' by simpa using slash]
        exact Or.inr rfl

/-- A path from the root stays one without its dot segments. -/
theorem endsAtRoot_removeDots (rounds : Nat) {path output : Bytes} (root : OpensRoot path)
    (rooted : EndsAtRoot output) : EndsAtRoot (removeDots rounds path output) := by
  induction rounds generalizing path output with
  | zero => exact rooted
  | succ rounds ih =>
      rw [removeDots]
      dsimp only
      by_cases empty : path = []
      · rw [if_pos empty]
        exact rooted
      have head := root.resolve_left empty
      obtain ⟨rest, rfl⟩ := List.head?_eq_some_iff.mp head
      have first : byteAt (chr '/' :: rest) 0 = chr '/' := rfl
      have noDot : ¬ chr '/' = chr '.' := by decide
      simp only [first, noDot, false_and, if_false, true_and, empty]
      split
      · rename_i dot
        exact ih (opensRoot_drop dot.2) rooted
      · split
        · exact @endsAtRoot_slash [] output rooted
        · split
          · rename_i dots
            refine ih (opensRoot_drop dots.2.2) (endsAtRoot_suffix ?_ rooted)
            exact (List.drop_suffix _ _).trans (List.dropWhile_suffix _)
          · split
            · exact endsAtRoot_suffix (List.dropWhile_suffix _) rooted
            · refine ih ?_ (endsAtRoot_slash rooted)
              have after : (chr '/' :: rest).drop (1 + (rest.takeWhile (· ≠ chr '/')).length) =
                  rest.dropWhile (· ≠ chr '/') := by
                rw [Nat.add_comm, List.drop_succ_cons, List.drop_length_takeWhile]
              rw [List.drop_succ_cons, List.drop_zero, after]
              exact opensRoot_dropWhile rest

theorem opensRoot_removeDotSegments {path : Bytes} (root : OpensRoot path) :
    OpensRoot (removeDotSegments path) := by
  rcases endsAtRoot_removeDots path.length root (Or.inl rfl) with empty | last
  · left
    rw [removeDotSegments, empty]
    rfl
  · right
    rw [removeDotSegments, List.head?_reverse, last]

/-- The scan of the authority keeps the scheme. -/
theorem scanAuthority_frame (urlS : Bytes) (joining : Bool) (scan : Scan) :
    let marker := (scanAuthority urlS joining scan).marker
    marker.start = scan.marker.start ∧ marker.schemeEnd = scan.marker.schemeEnd ∧
      marker.schemeType = scan.marker.schemeType := by
  rw [scanAuthority]
  split
  · dsimp only
    split
    · obtain ⟨_, start, schemeEnd, type⟩ := walkAuthority_frame
        (urlS.drop (skipSlashes urlS scan)) (skipSlashes urlS scan)
        (scan.marker.startAuthority (skipSlashes urlS scan))
      exact ⟨start, schemeEnd, type⟩
    · obtain ⟨_, start, schemeEnd, type⟩ := walkAuthority_frame
        (urlS.drop (skipSlashes urlS scan)) (skipSlashes urlS scan) scan.marker
      exact ⟨start, schemeEnd, type⟩
  · split <;> exact ⟨rfl, rfl, rfl⟩

/-- What the scan tells about the scheme: there is none, with http as the default for a letter
when nothing is joined, or there is one with its type. -/
structure SchemeScanned (urlS : Bytes) (joining : Bool) (marker : UrlMarkers) : Prop where
  start : marker.start = run isSpace urlS
  absent : marker.schemeEnd = marker.start → marker.schemeType =
    if joining = false ∧ isAlpha (byteAt urlS marker.start) = true then .http else .other
  present : marker.schemeEnd ≠ marker.start →
    marker.schemeType = schemeTypeOf (slice urlS marker.start marker.schemeEnd) ∧
      slice urlS marker.start marker.schemeEnd ≠ [] ∧
      chr '%' ∉ slice urlS marker.start marker.schemeEnd

/-- A run of characters behind a first one. -/
theorem slice_run {urlS : Bytes} {pos : Nat} {c : Byte} {rest : Bytes} (p : Byte → Bool)
    (shape : urlS.drop pos = c :: rest) :
    slice urlS pos (pos + 1 + run p (urlS.drop (pos + 1))) = c :: rest.takeWhile p := by
  have tail : urlS.drop (pos + 1) = rest := by
    rw [← List.drop_drop, shape, List.drop_one, List.tail_cons]
  have size : pos + 1 + run p rest - pos = run p rest + 1 := by omega
  rw [slice, List.drop_take, shape, tail, size, List.take_succ_cons, run,
    ← List.prefix_iff_eq_take.mp (List.takeWhile_prefix p)]

theorem schemeScanned_scanScheme (urlS : Bytes) (joining : Bool) :
    SchemeScanned urlS joining
      (scanScheme urlS joining (UrlMarkers.first (run isSpace urlS))).marker := by
  have here (c : Byte) : isAlpha c = true → c ≠ chr '%' ∧ c ≠ 0 := by
    revert c
    apply byte_cases
    decide
  have later (c : Byte) : isSchemeChar c = true → c ≠ chr '%' := by
    revert c
    apply byte_cases
    decide
  by_cases letter : isAlpha (byteAt urlS (UrlMarkers.first (run isSpace urlS)).start) = true
  · have shape := drop_of_byteAt rfl (here _ letter).2
    rw [scanScheme, if_pos letter]
    dsimp only
    split_ifs with colon join
    · refine ⟨rfl, fun same => ?_, fun _ => ?_⟩
      · dsimp only [UrlMarkers.startAuthority, UrlMarkers.first] at same
        omega
      · dsimp only [UrlMarkers.startAuthority]
        rw [slice_run isSchemeChar shape]
        refine ⟨?_, List.cons_ne_nil _ _, ?_⟩
        · rw [← slice_run isSchemeChar shape]
          rfl
        · rw [List.mem_cons, not_or]
          refine ⟨(here _ letter).1.symm, fun inside => ?_⟩
          exact later _ (List.mem_takeWhile_imp inside) rfl
    · refine ⟨rfl, fun _ => (if_neg fun both => ?_).symm, fun other => absurd rfl other⟩
      rw [join] at both
      cases both.1
    · refine ⟨rfl, fun _ => (if_pos ⟨?_, letter⟩).symm, fun other => absurd rfl other⟩
      simpa using join
  · rw [scanScheme, if_neg letter]
    exact ⟨rfl, fun _ => (if_neg fun both => letter both.2).symm, fun other => absurd rfl other⟩

/-- The markers of a string tell about its scheme. -/
theorem schemeScanned_getStringMarkers (urlS : Bytes) (joining : Bool) :
    SchemeScanned urlS joining (getStringMarkers urlS joining) := by
  by_cases blank : run isSpace urlS = urlS.length
  · have past : byteAt urlS (run isSpace urlS) = 0 := by
      rw [blank, byteAt, List.getD_eq_getElem?_getD, List.getElem?_eq_none (Nat.le_refl _)]
      rfl
    have other : ¬ isAlpha 0 = true := by decide
    have found : getStringMarkers urlS joining = { UrlMarkers.first (run isSpace urlS) with
        query := run isSpace urlS, fragment := run isSpace urlS, stop := run isSpace urlS } := by
      rw [getStringMarkers]
      exact if_pos blank
    rw [found]
    exact ⟨rfl, fun _ => by simp [UrlMarkers.first, past, other], fun other => absurd rfl other⟩
  · have scanned := schemeScanned_scanScheme urlS joining
    obtain ⟨start, schemeEnd, type⟩ := scanAuthority_frame urlS joining
      (scanScheme urlS joining (UrlMarkers.first (run isSpace urlS)))
    have found : (getStringMarkers urlS joining).start =
          (scanScheme urlS joining (UrlMarkers.first (run isSpace urlS))).marker.start ∧
        (getStringMarkers urlS joining).schemeEnd =
          (scanScheme urlS joining (UrlMarkers.first (run isSpace urlS))).marker.schemeEnd ∧
        (getStringMarkers urlS joining).schemeType =
          (scanScheme urlS joining (UrlMarkers.first (run isSpace urlS))).marker.schemeType := by
      rw [← start, ← schemeEnd, ← type, getStringMarkers, if_neg blank]
      dsimp only
      split <;> exact ⟨rfl, rfl, rfl⟩
    constructor
    · rw [found.1]
      exact scanned.start
    · rw [found.1, found.2.1, found.2.2]
      exact scanned.absent
    · rw [found.1, found.2.1, found.2.2]
      exact scanned.present

/-- A run ends at the end of the string or before a character that fails. -/
theorem run_stops (p : Byte → Bool) (urlS : Bytes) (pos : Nat) :
    urlS.length ≤ pos + run p (urlS.drop pos) ∨
      p (byteAt urlS (pos + run p (urlS.drop pos))) = false := by
  have after : urlS.drop (pos + run p (urlS.drop pos)) = (urlS.drop pos).dropWhile p := by
    rw [← List.drop_drop, drop_run]
  cases shape : (urlS.drop pos).dropWhile p with
  | nil =>
      left
      rw [shape] at after
      exact List.drop_eq_nil_iff.mp after
  | cons c rest =>
      right
      have char : byteAt urlS (pos + run p (urlS.drop pos)) = c := by
        rw [← Nat.add_zero (_ + _), ← byteAt_drop, after, shape]
        rfl
      rw [char]
      have stops := List.head?_dropWhile_not p (urlS.drop pos)
      rw [shape] at stops
      exact stops

/-- Where the path begins: after an authority, at a character that ends one or at the end, or
nothing was found before it. -/
def PathScanned (urlS : Bytes) (scan : Scan) : Prop :=
  scan.marker.path = scan.pos ∧
      (urlS.length ≤ scan.pos ∨ endsAuthority (byteAt urlS scan.pos) = true) ∨
    scan.marker.path = scan.marker.atSign

theorem pathScanned_scanAuthority {urlS : Bytes} {joining : Bool} {scan : Scan}
    (before : scan.marker.path = scan.marker.atSign) :
    PathScanned urlS (scanAuthority urlS joining scan) := by
  rw [scanAuthority]
  split
  · left
    dsimp only
    rw [walkAuthority_pos]
    refine ⟨rfl, ?_⟩
    rcases run_stops (fun c => !endsAuthority c) urlS (skipSlashes urlS scan) with past | stops
    · exact Or.inl past
    · exact Or.inr (by simpa using stops)
  · split
    · rename_i here
      refine Or.inl ⟨rfl, ?_⟩
      rcases here.1 with past | slash
      · exact Or.inl past.ge
      · right
        dsimp only
        rw [slash]
        rfl
    · exact Or.inr before

/-- A slice that begins with a slash, or with nothing. -/
theorem opensRoot_slice {urlS : Bytes} {first last : Nat} (slash : byteAt urlS first = chr '/') :
    OpensRoot (slice urlS first last) := by
  rw [slice, List.drop_take, drop_of_byteAt slash (by decide)]
  cases last - first with
  | zero => exact Or.inl rfl
  | succ n => exact Or.inr rfl

theorem slice_eq_nil {urlS : Bytes} {first last : Nat} (empty : last ≤ first) :
    slice urlS first last = [] := by
  rw [slice, List.drop_eq_nil_iff, List.length_take]
  omega

/-- The path section behind an authority is empty or starts at the root. -/
theorem opensRoot_scanPath {urlS : Bytes} {scan : Scan}
    (ends : urlS.length ≤ scan.pos ∨ endsAuthority (byteAt urlS scan.pos) = true) (stop : Nat) :
    OpensRoot (slice urlS (min scan.pos stop) (min (scanPath urlS scan) stop)) := by
  by_cases late : stop ≤ scan.pos
  · left
    apply slice_eq_nil
    omega
  rw [Nat.min_eq_left (by omega)]
  by_cases slash : byteAt urlS scan.pos = chr '/'
  · exact opensRoot_slice slash
  · left
    have same : scanPath urlS scan = scan.pos := by
      rw [scanPath]
      refine if_neg fun here => ?_
      rcases ends with past | ends
      · omega
      · rcases here.2 with root | ⟨-, inside⟩
        · exact slash root
        · rw [endsAuthority, Bool.or_eq_true, Bool.or_eq_true, beq_iff_eq] at ends
          rw [endsPath, Bool.or_eq_false_iff] at inside
          rcases ends with (root | query) | fragment
          · exact slash root
          · rw [query] at inside
            cases inside.1
          · rw [fragment] at inside
            cases inside.2
    apply slice_eq_nil
    omega

theorem scanScheme_path (urlS : Bytes) (joining : Bool) (start : Nat) :
    (scanScheme urlS joining (UrlMarkers.first start)).marker.path =
      (scanScheme urlS joining (UrlMarkers.first start)).marker.atSign := by
  rw [scanScheme]
  dsimp only
  split_ifs <;> rfl

/-- The path behind a host is empty or starts at the root. -/
theorem opensRoot_path {urlS : Bytes} {joining : Bool}
    (host : slice urlS (hostStart urlS (getStringMarkers urlS joining))
      (getStringMarkers urlS joining).path ≠ []) :
    OpensRoot (slice urlS (getStringMarkers urlS joining).path
      (getStringMarkers urlS joining).query) := by
  have within (m : UrlMarkers) : m.atSign ≤ hostStart urlS m := by
    rw [hostStart]
    split <;> omega
  have behind (m : UrlMarkers) (same : m.path = m.atSign) : slice urlS (hostStart urlS m) m.path = [] := by
    apply slice_eq_nil
    rw [same]
    exact within m
  by_cases blank : run isSpace urlS = urlS.length
  · refine absurd (behind _ ?_) host
    rw [getStringMarkers]
    dsimp only
    rw [if_pos blank]
    rfl
  have scanned := @pathScanned_scanAuthority urlS joining _
    (scanScheme_path urlS joining (run isSpace urlS))
  have found : getStringMarkers urlS joining =
      let scan := scanAuthority urlS joining
        (scanScheme urlS joining (UrlMarkers.first (run isSpace urlS)))
      let query := scanPath urlS scan
      let full := { scan.marker with
        query, fragment := scanQuery urlS query, stop := endOf urlS }
      if endOf urlS < urlS.length then clamp (endOf urlS) full else full := if_neg blank
  generalize scanAuthority urlS joining (scanScheme urlS joining (UrlMarkers.first _)) = scan
    at scanned found
  dsimp only at found
  rcases scanned with ⟨place, ends⟩ | same
  · split at found
    · have root := opensRoot_scanPath ends (endOf urlS)
      rw [found]
      dsimp only [clamp]
      rw [place]
      exact root
    · have root := opensRoot_scanPath ends (max scan.pos (scanPath urlS scan))
      rw [Nat.min_eq_left (Nat.le_max_left _ _), Nat.min_eq_left (Nat.le_max_right _ _)] at root
      rw [found]
      dsimp only
      rw [place]
      exact root
  · refine absurd (behind _ ?_) host
    rw [found]
    split
    · dsimp only [clamp]
      rw [same]
    · exact same

end Neosurf.Nsurl
