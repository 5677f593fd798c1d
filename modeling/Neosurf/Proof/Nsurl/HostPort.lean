/-
This file shows for which URL strings the host and the port are split where they stand.
-/

import Neosurf.Proof.Idna
import Neosurf.Proof.Nsurl.Userinfo

namespace Neosurf.Nsurl

/-- This is the host section of a string. -/
def hostSection (urlS : Bytes) (m : UrlMarkers) : Bytes := slice urlS (hostStart urlS m) m.path

/-- This is what stands before it in the authority: nothing, or credentials with their `@`. -/
def beforeSection (urlS : Bytes) (m : UrlMarkers) : Bytes :=
  slice urlS m.authority (hostStart urlS m)

/-- This is the text behind the last colon. -/
def behindColon (text : Bytes) : Bytes := (text.reverse.takeWhile (· ≠ chr ':')).reverse

/-- This is the text before the last colon. -/
def beforeColon (text : Bytes) : Bytes := ((text.reverse.dropWhile (· ≠ chr ':')).drop 1).reverse

theorem lastColon {text : Bytes} (inside : chr ':' ∈ text) :
    text = beforeColon text ++ chr ':' :: behindColon text ∧ chr ':' ∉ behindColon text := by
  obtain ⟨divided, clean⟩ := takeWhile_colon (List.mem_reverse.mpr inside)
  constructor
  · have back := congrArg List.reverse divided
    rw [List.reverse_reverse, List.reverse_append, List.reverse_cons, List.append_assoc] at back
    exact back
  · rw [behindColon, List.mem_reverse]
    exact clean

/-- The parts of an authority with a host section. -/
theorem authority_parts {urlS : Bytes} {joining : Bool}
    (full : hostSection urlS (getStringMarkers urlS joining) ≠ []) :
    slice urlS (getStringMarkers urlS joining).authority (getStringMarkers urlS joining).path =
        beforeSection urlS (getStringMarkers urlS joining) ++
          hostSection urlS (getStringMarkers urlS joining) ∧
      (beforeSection urlS (getStringMarkers urlS joining) = [] ∧
          (getStringMarkers urlS joining).atSign = (getStringMarkers urlS joining).authority ∨
        beforeSection urlS (getStringMarkers urlS joining) = [chr '@'] ∧
          (getStringMarkers urlS joining).atSign = (getStringMarkers urlS joining).authority ∨
        ∃ user, user ≠ [] ∧ beforeSection urlS (getStringMarkers urlS joining) = user ++ [chr '@'] ∧
          (getStringMarkers urlS joining).atSign =
            (getStringMarkers urlS joining).authority + user.length) := by
  have placed := (placed_getStringMarkers urlS joining).atSign
  have ordered := ordered_getStringMarkers urlS joining
  generalize getStringMarkers urlS joining = m at *
  have within : hostStart urlS m < m.path := by
    by_contra behind
    exact full (slice_eq_nil (by omega))
  have start : m.authority ≤ hostStart urlS m := by
    have low := ordered.atSign
    rw [hostStart]
    split <;> omega
  refine ⟨slice_append start within.le, ?_⟩
  by_cases alone : m.atSign = m.authority
  · by_cases mark : byteAt urlS m.atSign = chr '@'
    · right; left
      have here : hostStart urlS m = m.authority + 1 := by
        rw [hostStart, if_neg (fun both => both.2 mark), alone]
      rw [alone] at mark
      rw [beforeSection, here, slice, List.drop_take, Nat.add_sub_cancel_left,
        drop_of_byteAt mark (by decide)]
      exact ⟨rfl, alone⟩
    · left
      have here : hostStart urlS m = m.authority := by
        rw [hostStart, if_pos ⟨alone, mark⟩, alone]
      exact ⟨slice_eq_nil here.le, alone⟩
  · right; right
    have inside : chr '@' ∈ (slice urlS m.authority m.path).tail := by
      by_contra absent
      rw [List.firstPlace_eq_zero_iff.mpr absent] at placed
      exact alone placed
    obtain ⟨user, rest, shape, some, -, place⟩ := List.exists_firstPlace inside
    rw [place] at placed
    have here : hostStart urlS m = m.authority + (user.length + 1) := by
      rw [hostStart, if_neg (fun both => alone both.1), placed, Nat.add_assoc]
    refine ⟨user, some, ?_, placed⟩
    rw [beforeSection, slice_eq_take within.le, shape, here, Nat.add_sub_cancel_left,
      List.take_length_add_append]
    rfl

/-- A colon of the credentials stands before their `@`. -/
theorem colon_before_mark {urlS first rest : Bytes} {m : UrlMarkers}
    (before : beforeSection urlS m = [] ∧ m.atSign = m.authority ∨
      beforeSection urlS m = [chr '@'] ∧ m.atSign = m.authority ∨
        ∃ user, user ≠ [] ∧ beforeSection urlS m = user ++ [chr '@'] ∧
          m.atSign = m.authority + user.length)
    (divided : beforeSection urlS m = first ++ chr ':' :: rest) :
    m.authority + first.length < m.atSign := by
  have here : (beforeSection urlS m)[first.length]? = some (chr ':') := by
    rw [divided, List.getElem?_append_right (Nat.le_refl _), Nat.sub_self]
    rfl
  rcases before with ⟨nothing, -⟩ | ⟨alone, -⟩ | ⟨user, -, parted, place⟩
  · rw [nothing] at here
    cases here
  · rw [alone] at here
    have mark := List.mem_of_getElem? here
    exact absurd (List.mem_singleton.mp mark) (by decide)
  · rw [parted] at here
    rcases Nat.lt_or_ge first.length user.length with short | long
    · omega
    · rw [List.getElem?_append_right long] at here
      have mark := List.mem_of_getElem? here
      exact absurd (List.mem_singleton.mp mark) (by decide)

/-- The colon that may separate the port: none for a mailto URL, one of the credentials when they
have two and the section has none, and else the last one of the section, unless it opens the
authority. -/
theorem portColon_eq {urlS : Bytes} {joining : Bool}
    (full : hostSection urlS (getStringMarkers urlS joining) ≠ []) :
    let m := getStringMarkers urlS joining
    (m.schemeType = .mailto → portColon m = none) ∧
      (m.schemeType ≠ .mailto → chr ':' ∉ hostSection urlS m →
        ((beforeSection urlS m).tail.count (chr ':') ≤ 1 → portColon m = none) ∧
        (2 ≤ (beforeSection urlS m).tail.count (chr ':') →
          ∃ colon, portColon m = some colon ∧ colon < m.atSign)) ∧
      (m.schemeType ≠ .mailto → ∀ host port, hostSection urlS m = host ++ chr ':' :: port →
        chr ':' ∉ port → portColon m = if beforeSection urlS m ++ host = [] then none
          else some (m.authority + (beforeSection urlS m ++ host).length)) := by
  obtain ⟨parts, before⟩ := authority_parts full
  obtain ⟨-, colonFirst, colonLast⟩ := placed_getStringMarkers urlS joining
  rw [parts] at colonFirst colonLast
  generalize getStringMarkers urlS joining = m at *
  dsimp only
  have low : m.authority ≤ m.atSign := by
    rcases before with ⟨-, place⟩ | ⟨-, place⟩ | ⟨user, -, -, place⟩ <;> omega
  refine ⟨fun mailto => ?_, fun other absent => ?_, fun other host port shape clean => ?_⟩
  · rw [colonPlace, if_pos mailto] at colonFirst colonLast
    rw [portColon, if_neg (by omega), if_neg (by omega)]
  · rw [colonPlace, if_neg other] at colonFirst colonLast
    rw [List.firstPlace_append_of_notMem absent] at colonFirst
    rw [List.lastPlace_append_of_notMem absent] at colonLast
    constructor
    · intro once
      have early : m.colonFirst ≤ m.atSign := by
        by_cases inside : chr ':' ∈ (beforeSection urlS m).tail
        · obtain ⟨first, rest, divided, -, -, place⟩ := List.exists_firstPlace inside
          have front := colon_before_mark before divided
          omega
        · rw [List.firstPlace_eq_zero_iff.mpr inside] at colonFirst
          omega
      rw [List.lastPlace, if_neg (by omega)] at colonLast
      rw [portColon, if_neg (by omega), if_neg (by omega)]
    · intro twice
      obtain ⟨first, rest, divided, inside, -, place⟩ := List.exists_lastPlace twice
      have front := colon_before_mark before divided
      have positive : 0 < first.length := by
        cases first with
        | nil => cases inside
        | cons c first => exact Nat.succ_pos _
      refine ⟨m.colonLast, ?_, by omega⟩
      rw [portColon, if_neg (by omega), if_pos (by omega)]
  · rw [colonPlace, if_neg other, shape, ← List.append_assoc] at colonFirst colonLast
    by_cases opens : beforeSection urlS m ++ host = []
    · rw [opens, List.nil_append] at colonFirst colonLast
      rw [List.firstPlace_eq_zero_iff.mpr clean] at colonFirst
      rw [List.lastPlace, List.tail_cons, List.count_eq_zero.mpr clean, if_neg (by omega)]
        at colonLast
      rw [if_pos opens, portColon, if_neg (by omega), if_neg (by omega)]
    · have positive := List.length_pos_iff.mpr opens
      rw [if_neg opens]
      by_cases several : chr ':' ∈ (beforeSection urlS m ++ host).tail
      · rw [List.lastPlace_append several clean] at colonLast
        rw [portColon, if_neg (by omega), if_pos (by omega), colonLast]
      · have behind : m.atSign < m.authority + (beforeSection urlS m ++ host).length := by
          rcases before with ⟨-, place⟩ | ⟨-, place⟩ | ⟨user, -, parted, place⟩
          · omega
          · omega
          · rw [parted, List.length_append, List.length_append, List.length_singleton]
            omega
        rw [List.firstPlace_append opens several] at colonFirst
        have once : (beforeSection urlS m ++ host ++ chr ':' :: port).tail.count (chr ':') < 2 := by
          rw [List.tail_append_of_ne_nil opens, List.count_append, List.count_eq_zero.mpr several,
            List.count_cons_self, List.count_eq_zero.mpr clean]
          omega
        rw [List.lastPlace, if_neg (by omega)] at colonLast
        rw [portColon, if_pos ⟨by omega, by omega⟩, colonFirst]

/-- A host section has a port behind its last colon when only digits stand there. -/
def hasPort (m : UrlMarkers) (text : Bytes) : Bool :=
  m.schemeType != .mailto && text.contains (chr ':') &&
    (normalise true (behindColon text)).all isDigit

/-- This is the text of the host. -/
def hostText (m : UrlMarkers) (text : Bytes) : Bytes :=
  if hasPort m text then beforeColon text else text

/-- A host that IDNA rejects stays as it is. -/
def encodedHost (norm : Bytes) : Bytes := (idnaEncode norm norm.length).getD norm

/-- An empty port and the port of http are not stored. -/
def storedPort (url : NsurlComponents) (norm : Bytes) : Option LwcString :=
  if norm = [] ∨ url.scheme ≠ none ∧ url.schemeType = .http ∧ norm = str "80" then none
  else some norm

/-- These are the host and the port of a section. A file URL has neither. -/
def hostAndPort (m : UrlMarkers) (url : NsurlComponents) (text : Bytes) : NsurlComponents :=
  if url.schemeType = .file ∨ text = [] then { url with host := none, port := none }
  else { url with
    host := some (encodedHost (normalise true (hostText m text)))
    port := if hasPort m text then storedPort url (normalise true (behindColon text)) else none }

/-- This is the one character that the code skips for the port when it stands at the `@`. -/
def portSkip (m : UrlMarkers) : Int := if m.atSign = m.authority then 1 else 0

/-- The split position lies inside the normal form, and the lengths that are computed from it for
a port and its host do not wrap. -/
structure SplitInside (m : UrlMarkers) (norm : Bytes) (position : Int) : Prop where
  low : 0 ≤ position
  high : position ≤ norm.length
  lengths : portDigits norm position = .ok true →
    position + portSkip m ≤ norm.length ∧ 0 ≤ position - (1 - portSkip m)

/-- The host and the port are stored as they stand in the section, split inside of it. -/
def KeepsHost (urlS : Bytes) (joining : Bool) (url : NsurlComponents) : Prop :=
  let m := getStringMarkers urlS joining
  (∀ buff, createHost urlS m buff url = .ok (hostAndPort m url (hostSection urlS m))) ∧
    (url.schemeType ≠ .file → hostSection urlS m ≠ [] → ∀ colon, portColon m = some colon →
      SplitInside m (normalise true (hostSection urlS m)) (colon - m.atSign))

theorem length_normalise_true_le (text : Bytes) : (normalise true text).length ≤ text.length := by
  fun_induction normalise true text with
  | case1 => exact Nat.le_refl _
  | case2 h l rest failed ih => exact Nat.succ_le_succ ih
  | case3 h l rest value found reserved ih => cases reserved
  | case4 h l rest value found free ih =>
      rw [List.length_cons, List.length_cons, List.length_cons, List.length_cons]
      omega
  | case5 c h l rest other ih => exact Nat.succ_le_succ ih
  | case6 c rest short ih => exact Nat.succ_le_succ ih

/-- The buffer holds the written text. -/
theorem internBuff_writeNorm_drop {norm : Bytes} {n : Nat} (buff : Buff) (within : n ≤ norm.length) :
    internBuff (writeNorm buff norm) n (norm.length - n) = .ok (norm.drop n) := by
  rw [internBuff, if_neg (by omega), Except.ok.injEq]
  apply List.ext_getElem
  · rw [List.length_map, List.length_range, List.length_drop]
    omega
  · intro i first second
    rw [List.length_drop] at second
    have inside : n + i < norm.length := by omega
    rw [List.getElem_map, List.getElem_range, List.getElem_drop, Int.toNat_natCast, writeNorm,
      if_pos inside, byteAt_eq, List.getElem?_eq_getElem inside, Option.getD_some]

section Split

variable {urlS norm host port : Bytes} {m : UrlMarkers} {buff : Buff} {url : NsurlComponents}
  {colon tested moved : Nat}

/-- The colon that is used stands so far from the one of the normal form: as many places as the
host loses by its escapes, and one more for the digits behind an `@`, and for the port behind an
`@` that opens the authority. -/
structure SplitAt (m : UrlMarkers) (norm host port : Bytes) (tested moved colon : Nat) : Prop where
  shape : norm = host ++ chr ':' :: port
  found : portColon m = some colon
  position : (colon : Int) - m.atSign = host.length + tested
  skip : (tested : Int) + portSkip m = moved + 1
  near : moved ≤ tested

/-- The text behind some place of the port. -/
theorem SplitAt.drop (split : SplitAt m norm host port tested moved colon) (n : Nat) :
    norm.drop (host.length + (n + 1)) = port.drop n := by
  rw [split.shape, ← List.drop_drop, List.drop_left, List.drop_succ_cons]

/-- The digits are looked for from there on. -/
theorem SplitAt.portDigits (split : SplitAt m norm host port tested moved colon) :
    portDigits norm (colon - m.atSign) = .ok ((port.drop tested).all isDigit) := by
  have place : ((host.length : Int) + tested + 1).toNat = host.length + (tested + 1) := by omega
  rw [Nsurl.portDigits, split.position, if_neg (by omega), place, split.drop]

/-- Two digits are read at the place of the port. -/
theorem isDefaultPort_eq {offset : Nat} (within : offset ≤ norm.length) :
    isDefaultPort url norm offset = .ok (decide (url.scheme ≠ none ∧ url.schemeType = .http ∧
      norm.drop offset = str "80")) := by
  have first : byteAt norm offset = byteAt (norm.drop offset) 0 := by rw [byteAt_drop, Nat.add_zero]
  have second : byteAt norm (offset + 1) = byteAt (norm.drop offset) 1 := by rw [byteAt_drop]
  have size : (norm.length : Int) - offset = 2 ↔ (norm.drop offset).length = 2 := by
    rw [List.length_drop]
    omega
  have inside : ¬(offset : Int) < 0 := by omega
  simp only [isDefaultPort, Int.toNat_natCast, first, second, size, inside, if_false]
  generalize norm.drop offset = text
  by_cases web : url.scheme ≠ none ∧ url.schemeType = .http
  · by_cases two : text.length = 2
    · obtain ⟨c, d, rfl⟩ := List.length_eq_two.mp two
      rw [if_pos ⟨web.1, web.2, two⟩, Except.ok.injEq, Bool.eq_iff_iff]
      simp [web, byteAt, str]
    · have other : text ≠ str "80" := fun same => two (by rw [same]; rfl)
      rw [if_neg (fun all => two all.2.2)]
      simp [other]
  · rw [if_neg (fun all => web ⟨all.1, all.2.1⟩)]
    have none : ¬(url.scheme ≠ none ∧ url.schemeType = .http ∧ text = str "80") := fun all =>
      web ⟨all.1, all.2.1⟩
    rw [decide_eq_false none]

/-- With only digits from there on, the port is read from its place, and the host is cut there. -/
theorem SplitAt.createPort_digits (split : SplitAt m norm host port tested moved colon)
    (digits : (port.drop tested).all isDigit = true) (within : moved ≤ port.length) :
    createPort url m (writeNorm buff norm) norm =
      .ok (storedPort url (port.drop moved), (host.length : Int) + moved) := by
  have length : norm.length = host.length + (port.length + 1) := by
    rw [split.shape, List.length_append, List.length_cons]
  have skip := split.skip
  have offset : (colon : Int) - m.atSign + (if m.atSign = m.authority then 1 else 0) =
      (host.length + (moved + 1) : Nat) := by
    rw [portSkip] at skip
    rw [split.position]
    omega
  have rest : (colon : Int) - m.atSign - (1 - if m.atSign = m.authority then 1 else 0) =
      (host.length : Int) + moved := by
    omega
  have short : host.length + (moved + 1) ≤ norm.length := by omega
  rw [createPort, split.found]
  simp only [split.portDigits, bind, Except.bind, digits, if_true]
  rw [offset, rest, isDefaultPort_eq short, internBuff_writeNorm_drop buff short, split.drop]
  have empty : (norm.length : Int) ≤ (host.length + (moved + 1) : Nat) ↔ port.drop moved = [] := by
    rw [List.drop_eq_nil_iff]
    omega
  have notBefore : ¬((host.length + (moved + 1) : Nat) : Int) < 0 := by omega
  simp only [empty, notBefore, false_or, decide_eq_true_eq, storedPort]
  by_cases redundant : url.scheme ≠ none ∧ url.schemeType = .http ∧ port.drop moved = str "80"
  · rw [if_pos (.inl redundant), if_pos (.inr redundant)]
  · by_cases nothing : port.drop moved = []
    · rw [if_pos (.inr nothing), if_pos (.inl nothing)]
    · rw [if_neg (not_or.mpr ⟨redundant, nothing⟩), if_neg (not_or.mpr ⟨nothing, redundant⟩)]

/-- Other characters from there on leave all to the host. -/
theorem SplitAt.createPort_other (split : SplitAt m norm host port tested moved colon)
    (other : ¬(port.drop tested).all isDigit = true) :
    createPort url m (writeNorm buff norm) norm = .ok (none, (norm.length : Int)) := by
  rw [createPort, split.found]
  simp only [split.portDigits, bind, Except.bind, Bool.eq_false_iff.mpr other]
  rfl

/-- Both readings of the host end at the colon. -/
theorem SplitAt.encode (split : SplitAt m norm host port tested moved colon) {len : Int}
    (within : (host.length : Int) ≤ len) :
    idnaEncode norm len = idnaEncode host host.length := by
  rw [split.shape]
  exact idnaEncode_colon host port within

/-- This is where the split goes wrong or right: no escape moves the port of a section that has
one; or what is tested for digits has another character; or there is nothing to store as a port,
neither at its own place nor where it is read, and the host ends at the colon for the encoder. -/
def PortFits (url : NsurlComponents) (host port : Bytes) (tested moved : Nat) : Prop :=
  moved = 0 ∧ port.all isDigit = true ∨ ¬(port.drop tested).all isDigit = true ∨
    moved ≤ port.length ∧ storedPort url (port.drop moved) = none ∧
      (port.all isDigit = true → storedPort url port = none) ∧
      (idnaEncode host host.length).isSome = true

/-- These are the host and the port that a section with a colon should give. -/
def rightSplit (url : NsurlComponents) (norm host port : Bytes) : NsurlComponents :=
  if port.all isDigit = true then
    { url with host := some (encodedHost host), port := storedPort url port }
  else { url with host := some (encodedHost norm), port := none }

/-- The host comes from the front of the normal form that is left for it. -/
theorem createHost_of_port {port : Option LwcString} {length : Nat}
    (type : url.schemeType ≠ .file) (own : normalise true (hostSection urlS m) = norm)
    (full : norm ≠ []) (within : length ≤ norm.length)
    (found : createPort url m (writeNorm buff norm) norm = .ok (port, (length : Int))) :
    createHost urlS m buff url = .ok { url with
      host := some ((idnaEncode norm length).getD (norm.take length)), port } := by
  rw [hostSection] at own
  simp only [createHost, own]
  rw [if_neg (not_or.mpr ⟨type, full⟩), found]
  simp only [bind, Except.bind, internBuff_writeNorm buff within]
  cases idnaEncode norm length <;> rfl

/-- A port that is read from behind its place is another one, when there is one. -/
theorem storedPort_drop_iff {moved : Nat} (within : moved ≤ port.length) :
    storedPort url (port.drop moved) = storedPort url port ↔
      moved = 0 ∨ storedPort url (port.drop moved) = none ∧ storedPort url port = none := by
  constructor
  · intro same
    cases stored : storedPort url port with
    | none => exact .inr ⟨same.trans stored, rfl⟩
    | some text =>
        left
        rw [stored] at same
        have whole (other : Bytes) (here : storedPort url other = some text) : text = other := by
          rw [storedPort] at here
          split_ifs at here
          exact (Option.some.inj here).symm
        have length := congrArg List.length ((whole _ same).symm.trans (whole _ stored))
        rw [List.length_drop] at length
        have some : port ≠ [] := by
          rintro rfl
          cases stored
        have positive := List.length_pos_iff.mpr some
        omega
  · rintro (rfl | ⟨read, own⟩)
    · rfl
    · rw [read, own]

/-- The split of a section with a colon is right exactly when it fits. -/
theorem SplitAt.right_iff (split : SplitAt m norm host port tested moved colon)
    (type : url.schemeType ≠ .file) (own : normalise true (hostSection urlS m) = norm) :
    ((∀ buff, createHost urlS m buff url = .ok (rightSplit url norm host port)) ∧
        SplitInside m norm (colon - m.atSign)) ↔ PortFits url host port tested moved := by
  have length : norm.length = host.length + (port.length + 1) := by
    rw [split.shape, List.length_append, List.length_cons]
  have full : norm ≠ [] := by
    rw [← List.length_pos_iff]
    omega
  have skip := split.skip
  have near := split.near
  by_cases digits : (port.drop tested).all isDigit = true
  · by_cases within : moved ≤ port.length
    · have inside : SplitInside m norm (colon - m.atSign) := by
        have once : 0 ≤ portSkip m ∧ portSkip m ≤ 1 := by
          rw [portSkip]
          split <;> omega
        rw [split.position]
        exact ⟨by omega, by omega, fun _ => ⟨by omega, by omega⟩⟩
      have made (buff : Buff) : createHost urlS m buff url = .ok { url with
          host := some ((idnaEncode host host.length).getD (norm.take (host.length + moved)))
          port := storedPort url (port.drop moved) } := by
        have found : createPort url m (writeNorm buff norm) norm =
            .ok (storedPort url (port.drop moved), ((host.length + moved : Nat) : Int)) := by
          rw [split.createPort_digits digits within]
          rfl
        have result := createHost_of_port type own full
          (by omega : host.length + moved ≤ norm.length) found
        rw [split.encode (by omega)] at result
        exact result
      have right : (∀ buff, createHost urlS m buff url = .ok (rightSplit url norm host port)) ↔
          { url with
            host := some ((idnaEncode host host.length).getD (norm.take (host.length + moved)))
            port := storedPort url (port.drop moved) } = rightSplit url norm host port := by
        simp only [made, Except.ok.injEq, forall_const]
      rw [right, and_iff_left inside, PortFits, rightSplit, encodedHost, encodedHost,
        split.encode (by omega : (host.length : Int) ≤ norm.length)]
      have cut : norm.take (host.length + moved) = host ↔ moved = 0 := by
        constructor
        · intro same
          have size := congrArg List.length same
          rw [List.length_take] at size
          omega
        · rintro rfl
          rw [split.shape, Nat.add_zero, List.take_left]
      have whole : ¬norm.take (host.length + moved) = norm := by
        intro same
        have size := congrArg List.length same
        rw [List.length_take] at size
        omega
      have tested : ¬¬(port.drop tested).all isDigit = true := not_not.mpr digits
      by_cases all : port.all isDigit = true
      · rw [if_pos all]
        simp only [NsurlComponents.mk.injEq, Option.some.injEq, true_and, and_true, tested,
          storedPort_drop_iff within, all, within, false_or, true_implies]
        cases idnaEncode host host.length with
        | some encoded => simp
        | none => simp +contextual [cut]
      · rw [if_neg all]
        simp only [NsurlComponents.mk.injEq, Option.some.injEq, true_and, and_true, tested, all,
          within, false_or]
        cases idnaEncode host host.length with
        | some encoded => simp
        | none => simp [whole]
    · constructor
      · rintro ⟨-, inside⟩
        have fits := (inside.lengths (by rw [split.portDigits, digits])).1
        rw [split.position] at fits
        omega
      · rintro (⟨still, -⟩ | other | ⟨short, -⟩)
        · omega
        · exact absurd digits other
        · exact absurd short within
  · have some : tested < port.length := by
      by_contra all
      rw [List.drop_eq_nil_of_le (by omega)] at digits
      exact digits rfl
    have noPort : ¬port.all isDigit = true := fun all => digits (by
      rw [List.all_eq_true] at all ⊢
      exact fun c inside => all c (List.mem_of_mem_drop inside))
    refine iff_of_true ⟨fun buff => ?_, ?_⟩ (.inr (.inl digits))
    · rw [createHost_of_port type own full (Nat.le_refl _) (split.createPort_other digits),
        rightSplit, if_neg noPort, encodedHost, List.take_length]
    · rw [split.position]
      refine ⟨by omega, by omega, fun all => ?_⟩
      rw [← split.position, split.portDigits, Except.ok.injEq] at all
      exact absurd all digits

end Split

/-- The section has no colon, and the credentials have at most one behind their first character;
or it has a colon that opens the authority, and no port behind it; or the split fits. A file URL
has no host, and no colon divides the section of a mailto URL. -/
def HostFits (urlS : Bytes) (joining : Bool) (url : NsurlComponents) : Prop :=
  let m := getStringMarkers urlS joining
  let text := hostSection urlS m
  let before := beforeSection urlS m
  let host := normalise true (beforeColon text)
  let port := normalise true (behindColon text)
  let lost := (beforeColon text).length - host.length
  url.schemeType = .file ∨ text = [] ∨ m.schemeType = .mailto ∨
    chr ':' ∉ text ∧ before.tail.count (chr ':') ≤ 1 ∨
    chr ':' ∈ text ∧ (before ++ beforeColon text = [] → ¬port.all isDigit = true) ∧
      (before ++ beforeColon text ≠ [] →
        PortFits url host port (lost + if before = [] then 0 else 1)
          (lost + if before = [chr '@'] then 1 else 0))

/-- Without a colon for a port, all is the host. -/
theorem createHost_noColon {urlS : Bytes} {m : UrlMarkers} {url : NsurlComponents}
    (type : url.schemeType ≠ .file) (full : hostSection urlS m ≠ []) (unused : portColon m = none)
    (buff : Buff) : createHost urlS m buff url = .ok { url with
      host := some (encodedHost (normalise true (hostSection urlS m))), port := none } := by
  have found : createPort url m (writeNorm buff (normalise true (hostSection urlS m)))
      (normalise true (hostSection urlS m)) =
        .ok (none, ((normalise true (hostSection urlS m)).length : Int)) := by
    rw [createPort, unused]
  rw [createHost_of_port type rfl (mt normalise_eq_nil.mp full) (Nat.le_refl _) found,
    List.take_length, encodedHost]

/-- A section without a port is the host. -/
theorem hostAndPort_noPort {m : UrlMarkers} {url : NsurlComponents} {text : Bytes}
    (type : url.schemeType ≠ .file) (full : text ≠ []) (portless : hasPort m text = false) :
    hostAndPort m url text =
      { url with host := some (encodedHost (normalise true text)), port := none } := by
  rw [hostAndPort, if_neg (not_or.mpr ⟨type, full⟩), hostText, portless]
  rfl

/-- A section with a colon has the split that it should. -/
theorem hostAndPort_colon {m : UrlMarkers} {url : NsurlComponents} {text : Bytes}
    (type : url.schemeType ≠ .file) (other : m.schemeType ≠ .mailto) (colon : chr ':' ∈ text) :
    hostAndPort m url text = rightSplit url (normalise true text) (normalise true (beforeColon text))
      (normalise true (behindColon text)) := by
  have full : text ≠ [] := List.ne_nil_of_mem colon
  have has : hasPort m text = (normalise true (behindColon text)).all isDigit := by
    simp [hasPort, other, colon]
  rw [hostAndPort, if_neg (not_or.mpr ⟨type, full⟩), hostText, has, rightSplit]
  split <;> rfl

/-- A section without a colon, or with one that opens the authority, is never split. -/
theorem keepsHost_unsplit {urlS : Bytes} {m : UrlMarkers} {url : NsurlComponents}
    (type : url.schemeType ≠ .file) (full : hostSection urlS m ≠ []) (unused : portColon m = none) :
    ((∀ buff, createHost urlS m buff url = .ok (hostAndPort m url (hostSection urlS m))) ∧
      (url.schemeType ≠ .file → hostSection urlS m ≠ [] → ∀ colon, portColon m = some colon →
        SplitInside m (normalise true (hostSection urlS m)) (colon - m.atSign))) ↔
      { url with host := some (encodedHost (normalise true (hostSection urlS m))), port := none } =
        hostAndPort m url (hostSection urlS m) := by
  simp only [createHost_noColon type full unused, Except.ok.injEq, forall_const, unused]
  constructor
  · exact fun both => both.1
  · exact fun same => ⟨same, fun _ _ colon found => by cases found⟩

/-- The last colon of the section is used for the split. -/
theorem splitAt_section {urlS host port norm : Bytes} {m : UrlMarkers}
    (before : beforeSection urlS m = [] ∧ m.atSign = m.authority ∨
      beforeSection urlS m = [chr '@'] ∧ m.atSign = m.authority ∨
        ∃ user, user ≠ [] ∧ beforeSection urlS m = user ++ [chr '@'] ∧
          m.atSign = m.authority + user.length)
    (shape : norm = normalise true host ++ chr ':' :: port)
    (used : portColon m = some (m.authority + (beforeSection urlS m ++ host).length)) :
    SplitAt m norm (normalise true host) port
      (host.length - (normalise true host).length + if beforeSection urlS m = [] then 0 else 1)
      (host.length - (normalise true host).length +
        if beforeSection urlS m = [chr '@'] then 1 else 0)
      (m.authority + (beforeSection urlS m ++ host).length) := by
  have short := length_normalise_true_le host
  rw [List.length_append] at used ⊢
  rcases before with ⟨parted, place⟩ | ⟨parted, place⟩ | ⟨user, some, parted, place⟩
  · rw [parted] at used ⊢
    rw [if_pos rfl, if_neg (by simp)]
    have skip : portSkip m = 1 := if_pos place
    refine ⟨shape, used, ?_, ?_, Nat.le_refl _⟩
    · rw [place, List.length_nil]
      omega
    · omega
  · rw [parted] at used ⊢
    rw [if_neg (by simp), if_pos rfl]
    have skip : portSkip m = 1 := if_pos place
    refine ⟨shape, used, ?_, ?_, Nat.le_refl _⟩
    · rw [place, List.length_singleton]
      omega
    · omega
  · have positive := List.length_pos_iff.mpr some
    have longer : user ++ [chr '@'] ≠ [chr '@'] := by
      intro same
      have length := congrArg List.length same
      rw [List.length_append, List.length_singleton] at length
      omega
    rw [parted] at used ⊢
    rw [if_neg (by simp), if_neg longer]
    have skip : portSkip m = 0 := if_neg (by omega)
    refine ⟨shape, used, ?_, ?_, by omega⟩
    · rw [place, List.length_append, List.length_singleton]
      omega
    · omega

/-- A colon that opens the authority stays in the host. -/
theorem rightSplit_opening {url : NsurlComponents} {port : Bytes} :
    { url with host := some (encodedHost (normalise true [] ++ chr ':' :: port)), port := none } =
        rightSplit url (normalise true [] ++ chr ':' :: port) (normalise true []) port ↔
      ¬port.all isDigit = true := by
  have empty : normalise true [] = [] := rfl
  have whole : encodedHost (chr ':' :: port) = chr ':' :: port := by
    have label : idnaHostLabelLength (cstr (chr ':' :: port)) ((chr ':' :: port).length : Nat) = 0 := by
      rw [cstr, List.takeWhile_cons_of_pos (by decide), idnaHostLabelLength_cons]
      exact if_pos (.inr rfl)
    rw [encodedHost, idnaEncode, if_pos label]
    rfl
  have nothing : encodedHost [] = [] := rfl
  rw [empty, List.nil_append, rightSplit, whole]
  by_cases digits : port.all isDigit = true
  · rw [if_pos digits, nothing]
    simp [digits]
  · rw [if_neg digits]
    simp [digits]

end Neosurf.Nsurl
