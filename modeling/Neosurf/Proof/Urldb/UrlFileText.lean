import Neosurf.Construction.Urldb.UrlFile
import Neosurf.Proof.Bytes
import Neosurf.Proof.Urldb.AddUrl
import Neosurf.ToMathlib.SiblingTree.Places

namespace Neosurf.Urldb

open SiblingTree

/-- The path buffer below a node. -/
def bufferAt (above : List (LwcString × Nat × Bytes)) : Bytes :=
  str "/" ++ above.flatMap fun key => cstr key.2.2 ++ [chr '/']

/-- The path of a node. -/
def pathAt (keys : List (LwcString × Nat × Bytes)) : Bytes :=
  str "/" ++ [chr '/'].intercalate (keys.map fun key => cstr key.2.2)

theorem pathAt_concat (above : List (LwcString × Nat × Bytes)) (key : LwcString × Nat × Bytes) :
    pathAt (above ++ [key]) = bufferAt above ++ cstr key.2.2 := by
  rw [pathAt, bufferAt, List.append_assoc]
  congr 1
  induction above with
  | nil => simp [List.intercalate]
  | cons first above ih =>
      rw [List.flatMap_cons, List.append_assoc, ← ih, List.cons_append, List.map_cons]
      cases above <;> simp [List.intercalate]

theorem bufferAt_concat (above : List (LwcString × Nat × Bytes)) (key : LwcString × Nat × Bytes) :
    bufferAt (above ++ [key]) = bufferAt above ++ cstr key.2.2 ++ [chr '/'] := by
  simp [bufferAt]

/-- The nodes without children that are saved, with their keys. -/
def savedLeaves (expiry : Int) (above : List (LwcString × Nat × Bytes)) (t : Paths) :
    List (List (LwcString × Nat × Bytes) × PathData) :=
  (t.leavesAt PathData.key above).filter fun x => x.2.isSaved expiry

theorem savedLeaves_leaf (expiry : Int) (above : List (LwcString × Nat × Bytes)) (d : PathData)
    (next : Paths) : savedLeaves expiry above (.cons d .nil next) =
      (if d.isSaved expiry then [(above ++ [d.key], d)] else []) ++ savedLeaves expiry above next := by
  rw [savedLeaves, leavesAt, List.filter_cons]
  split <;> rfl

theorem savedLeaves_inner (expiry : Int) (above : List (LwcString × Nat × Bytes)) (d e : PathData)
    (below after next : Paths) : savedLeaves expiry above (.cons d (.cons e below after) next) =
      savedLeaves expiry (above ++ [d.key]) (.cons e below after) ++ savedLeaves expiry above next :=
  List.filter_append _ _

/-- The paths are written with a buffer that is left as it was. -/
theorem writePaths_eq (expiry : Int) (above : List (LwcString × Nat × Bytes)) (t : Paths) :
    writePaths expiry (bufferAt above) t =
      ((savedLeaves expiry above t).flatMap fun x => writeUrl (pathAt x.1) x.2, bufferAt above) := by
  induction t generalizing above with
  | nil => rfl
  | cons d children next children_ih next_ih =>
      have own : (bufferAt above ++ cstr d.segment).take
          ((bufferAt above ++ cstr d.segment).length - (cstr d.segment).length) = bufferAt above := by
        rw [List.length_append, Nat.add_sub_cancel, List.take_left']
        rfl
      cases children with
      | nil =>
          rw [writePaths]
          simp only [own, next_ih above]
          have text : pathAt (above ++ [d.key]) = bufferAt above ++ cstr d.segment :=
            pathAt_concat above d.key
          rw [savedLeaves_leaf]
          split <;> simp [text]
      | cons e below after =>
          have inner := children_ih (above ++ [d.key])
          have text : bufferAt (above ++ [d.key]) = bufferAt above ++ cstr d.segment ++ [chr '/'] :=
            bufferAt_concat above d.key
          have up : (bufferAt above ++ cstr d.segment ++ [chr '/']).take
              ((bufferAt above ++ cstr d.segment ++ [chr '/']).length - 1) =
                bufferAt above ++ cstr d.segment := by
            rw [← List.dropLast_eq_take, List.dropLast_concat]
          rw [text] at inner
          rw [writePaths]
          simp only [inner, up, own, next_ih above]
          rw [savedLeaves_inner, List.flatMap_append]

theorem countUrls_eq (expiry : Int) (above : List (LwcString × Nat × Bytes)) (t : Paths) :
    countUrls expiry t = (savedLeaves expiry above t).length := by
  induction t generalizing above with
  | nil => rfl
  | cons d children next children_ih next_ih =>
      cases children with
      | nil =>
          rw [countUrls, next_ih above, savedLeaves_leaf, List.length_append]
          split <;> rfl
      | cons e below after =>
          rw [countUrls, next_ih above, children_ih (above ++ [d.key]), savedLeaves_inner,
            List.length_append]

theorem writeTree_eq (expiry : Int) (db : Database) (t : AATree Chain) :
    writeTree expiry db t = t.toList.flatMap (writeHost expiry db) := by
  induction t with
  | empty => rfl
  | node level chain left right left_ih right_ih =>
      rw [writeTree, AATree.toList, List.flatMap_append, List.flatMap_cons, left_ih, right_ih,
        List.append_assoc]

/-- The path of a node as the text of its segments. -/
def pathOf (keys : List (LwcString × Nat × Bytes)) : Bytes :=
  str "/" ++ [chr '/'].intercalate (keys.map fun key => key.2.2)

theorem mem_intercalate {sep : Bytes} {parts : List Bytes} {part : Bytes} {c : Byte}
    (stored : part ∈ parts) (inside : c ∈ part) : c ∈ sep.intercalate parts := by
  induction parts with
  | nil => cases stored
  | cons first rest ih =>
      cases rest with
      | nil => simpa [List.intercalate, List.mem_singleton.mp stored] using inside
      | cons second rest =>
          have split : sep.intercalate (first :: second :: rest) =
              first ++ (sep ++ sep.intercalate (second :: rest)) := by simp [List.intercalate]
          rw [split, List.mem_append, List.mem_append]
          rcases List.mem_cons.mp stored with rfl | later
          · exact Or.inl inside
          · exact Or.inr (Or.inr (ih later))

theorem map_cstr_eq {sep : Bytes} {parts : List Bytes} (plain : Unbroken (sep.intercalate parts)) :
    parts.map cstr = parts := by
  have same : parts.map cstr = parts.map id := by
    apply List.map_congr_left
    intro part stored
    exact cstr_of_unbroken fun c inside => plain c (mem_intercalate stored inside)
  rw [same, List.map_id]

theorem pathAt_eq {keys : List (LwcString × Nat × Bytes)} (plain : Unbroken (pathOf keys)) :
    pathAt keys = pathOf keys := by
  rw [pathOf, unbroken_append] at plain
  have same := map_cstr_eq plain.2
  rw [List.map_map] at same
  rw [pathAt, pathOf, ← same]
  rfl

/-- A title that is saved as it is and read again. -/
structure TitleFits (title : Bytes) : Prop where
  filled : title ≠ []
  printable : ∀ c ∈ title, 32 ≤ c
  trimmed : title.length = 1 ∨ title.getLast? ≠ some (chr ' ')
  short : title.length + 1 < MAXIMUM_URL_LENGTH

/-- The port as it is printed. -/
def portText (port : Nat) : Bytes := if port = 0 then [] else printInt port

/-- The text that is read for a node is a URL with its scheme, its path and its page, and all
lines fit in their buffers. -/
structure UrlFits (junk : Bytes → Nsurl.Buff) (host : Bytes)
    (keys : List (LwcString × Nat × Bytes)) (d : PathData) : Prop where
  scheme : Unbroken d.scheme ∧ d.scheme.length + 1 < 64
  port : d.port < 10 ^ 8
  path : Unbroken (pathOf keys) ∧ (pathOf keys).length + 1 < MAXIMUM_URL_LENGTH
  type : -2 ^ 31 ≤ d.urld.type ∧ d.urld.type < 2 ^ 31
  lastVisit : 0 ≤ d.urld.lastVisit ∧ d.urld.lastVisit ≤ Llcache.LAST_SECOND
  title : ∀ title, d.urld.title = some title → TitleFits title
  url : ∃ url, Nsurl.nsurlCreate (junk (loadedText host d.scheme (portText d.port) (pathOf keys)))
      (loadedText host d.scheme (portText d.port) (pathOf keys)) = .ok url ∧
    url.components.scheme = some d.scheme ∧ pathQuery url = some (pathOf keys) ∧
    ∀ page, d.url = some page → Nsurl.compare url page pageParts = true

theorem TitleFits.unbroken {title : Bytes} (fits : TitleFits title) : Unbroken title := by
  intro c inside
  have printable := fits.printable c inside
  constructor <;> rintro rfl <;> exact absurd printable (by decide)

theorem tidyTitle_eq {title : Bytes} (fits : TitleFits title) : tidyTitle title = title := by
  have same : title.map (fun c => if c < 32 then chr ' ' else c) = title := by
    have kept : title.map (fun c => if c < 32 then chr ' ' else c) = title.map id := by
      apply List.map_congr_left
      intro c inside
      rw [if_neg (UInt8.not_lt.mpr (fits.printable c inside))]
      rfl
    rw [kept, List.map_id]
  have last : ((title.drop 1).reverse.dropWhile (· == chr ' ')) = (title.drop 1).reverse := by
    cases shown : (title.drop 1).reverse with
    | nil => rfl
    | cons c rest =>
        apply List.dropWhile_cons_of_neg
        have end_eq : title.getLast? = some c := by
          have here : (title.drop 1).getLast? = some c := by
            rw [← List.head?_reverse, shown, List.head?_cons]
          rw [List.getLast?_drop] at here
          split at here
          · cases here
          · exact here
        rcases fits.trimmed with single | trimmed
        · have empty : title.drop 1 = [] := List.drop_eq_nil_of_le (by omega)
          rw [empty] at shown
          cases shown
        · rw [end_eq] at trimmed
          simpa using trimmed
  rw [tidyTitle, cstr_of_unbroken fits.unbroken]
  rw [same, last, List.reverse_reverse, List.take_append_drop]

theorem line_append {text rest : Bytes} (plain : Unbroken text) : line text ++ rest = text ++ LF :: rest := by
  rw [line, cstr_of_unbroken plain, List.append_assoc, List.singleton_append]

theorem fgets_line_append {size : Nat} {text rest : Bytes} (plain : Unbroken text)
    (fits : text.length + 1 < size) :
    fgets size (line text ++ rest) = some (text ++ [LF], rest) := by
  rw [line_append plain, fgets_line plain fits]

/-- A number fits in every buffer for a line. -/
theorem fgets_printInt {value : Int} {rest : Bytes} (bound : value.natAbs < 10 ^ 20) :
    fgets MAXIMUM_URL_LENGTH (line (printInt value) ++ rest) = some (printInt value ++ [LF], rest) := by
  have short := length_printInt_le (by omega) bound
  apply fgets_line_append (unbroken_printInt value)
  rw [MAXIMUM_URL_LENGTH]
  omega

theorem not_isDigit_LF : ∀ c, ([LF] : Bytes).head? = some c → isDigit c = false := by
  rintro c ⟨⟩
  rfl

theorem atoi_line {value : Int} (low : -2 ^ 31 ≤ value) (high : value < 2 ^ 31) :
    atoi (cstr (printInt value ++ [LF])) = value := by
  rw [cstr_line (unbroken_printInt value)]
  exact atoi_printInt low high not_isDigit_LF

theorem readTime_line {time before : Int} (start : 0 ≤ time) (calendar : time ≤ Llcache.LAST_SECOND) :
    readTime (cstr (printInt time ++ [LF])) before = time := by
  rw [cstr_line (unbroken_printInt time), readTime, snptimet_printInt start calendar not_isDigit_LF]

theorem toInt32_small (value : Int) : -2 ^ 31 ≤ toInt32 value ∧ toInt32 value < 2 ^ 31 := by
  unfold toInt32
  omega

/-- The number of visits is read again, also when it is printed as a negative number. -/
theorem visits_eq (visits : UInt32) :
    UInt32.ofNat (toInt32 visits.toNat % 2 ^ 32).toNat = visits := by
  have small := visits.toNat_lt
  have same : (toInt32 visits.toNat % 2 ^ 32).toNat = visits.toNat := by
    unfold toInt32
    omega
  rw [same, UInt32.ofNat_toNat]

/-- The data of a URL is read again. -/
theorem readUrlData_lines {u : UrlData} {rest : Bytes}
    (type : -2 ^ 31 ≤ u.type ∧ u.type < 2 ^ 31)
    (lastVisit : 0 ≤ u.lastVisit ∧ u.lastVisit ≤ Llcache.LAST_SECOND)
    (title : ∀ title, u.title = some title → TitleFits title) :
    readUrlData (line (printInt (toInt32 u.visits.toNat)) ++ (line (printInt u.lastVisit) ++
      (line (printInt (toInt32 u.type)) ++ (line [] ++ (line (tidyTitle (u.title.getD [])) ++ rest)))))
        {} = (u, rest) := by
  have visits_small := toInt32_small u.visits.toNat
  have time_small : u.lastVisit.natAbs < 10 ^ 20 := by
    have calendar := lastVisit.2
    rw [Llcache.LAST_SECOND] at calendar
    omega
  have type_eq : toInt32 u.type = u.type := toInt32_eq type.1 type.2
  have empty : Unbroken [] := by simp [Unbroken]
  have title_line : fgets MAXIMUM_URL_LENGTH (line (tidyTitle (u.title.getD [])) ++ rest) =
      some (u.title.getD [] ++ [LF], rest) ∧ chomp (u.title.getD [] ++ [LF]) = u.title.getD [] := by
    cases here : u.title with
    | none => exact ⟨fgets_line_append empty (by decide), rfl⟩
    | some text =>
        have fits := title text here
        rw [Option.getD_some, tidyTitle_eq fits]
        exact ⟨fgets_line_append fits.unbroken fits.short, chomp_line fits.unbroken⟩
  rw [readUrlData, type_eq, fgets_printInt (by omega)]
  dsimp only
  rw [fgets_printInt time_small]
  dsimp only
  rw [fgets_printInt (by omega)]
  dsimp only
  rw [fgets_line_append empty (by decide)]
  dsimp only
  rw [title_line.1]
  dsimp only
  rw [title_line.2, atoi_line visits_small.1 visits_small.2, visits_eq,
    readTime_line lastVisit.1 lastVisit.2, atoi_line type.1 type.2]
  cases here : u.title with
  | none =>
      rw [Option.getD_none, if_pos rfl]
      cases u
      cases here
      rfl
  | some text =>
      rw [Option.getD_some, if_neg (title text here).filled]
      cases u
      cases here
      rfl

/-- The database after a path was added below a host, with data that was read for it. -/
def restoreUrl (env : Environment) (host : Bytes) (scheme : LwcString) (port : Nat) (path : Bytes)
    (url : Nsurl) (change : UrlData → UrlData) (db : Database) : Database :=
  updateUrlData (hostParts env host) scheme port path change
    (addPath (hostParts env host) scheme port path (setUrl url) (bloomInsert db url.hash))

theorem portText_spec {port : Nat} (small : port < 10 ^ 8) :
    Unbroken (portText port) ∧ (portText port).length + 1 < 10 ∧
      line (if port = 0 then [] else printInt (toInt32 port)) = line (portText port) ∧
      (atoi (portText port) % 2 ^ 32).toNat = port := by
  have same : toInt32 port = port := toInt32_eq (by omega) (by omega)
  rw [portText, same]
  split
  · rename_i zero
    rw [zero]
    exact ⟨by simp [Unbroken], by decide, rfl, by decide⟩
  · refine ⟨unbroken_printInt _, ?_, rfl, ?_⟩
    · have length := length_printInt_nat_le (by omega : 0 < 8) small
      omega
    · have read : atoi (printInt port ++ []) = port :=
        atoi_printInt (by omega) (by omega) (by simp)
      rw [List.append_nil] at read
      rw [read]
      omega

/-- The lines of a URL are read again. -/
theorem loadEntry_writeUrl {env : Environment} {junk : Bytes → Nsurl.Buff} {host rest : Bytes}
    {keys : List (LwcString × Nat × Bytes)} {d : PathData} (fits : UrlFits junk host keys d)
    (db : Database) : ∃ url change,
      loadEntry env junk host (writeUrl (pathAt keys) d ++ rest) db =
        (restoreUrl env host d.scheme d.port (pathOf keys) url change db, .ok rest) ∧
      change {} = d.urld ∧ ∀ page, d.url = some page → Nsurl.compare url page pageParts = true := by
  obtain ⟨port_plain, port_short, port_line, port_eq⟩ := portText_spec fits.port
  obtain ⟨url, created, scheme_eq, path_eq, same⟩ := fits.url
  have data := @readUrlData_lines d.urld rest fits.type fits.lastVisit fits.title
  rw [writeUrl, port_line, pathAt_eq fits.path.1]
  simp only [List.append_assoc]
  rw [loadEntry, fgets_line_append fits.scheme.1 fits.scheme.2]
  dsimp only
  rw [fgets_line_append port_plain port_short]
  dsimp only
  rw [fgets_line_append fits.path.1 fits.path.2]
  dsimp only
  rw [chomp_line fits.scheme.1, chomp_line port_plain, chomp_line fits.path.1]
  simp only [created, path_eq, scheme_eq, port_eq]
  refine ⟨url, fun u => (readUrlData _ u).1, ?_, congrArg Prod.fst data, same⟩
  rw [data, restoreUrl]

end Neosurf.Urldb
