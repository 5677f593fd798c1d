/-
This file compares what `idna_encode` writes with the buffer that it writes to, and its answer with
the labels of the host.
-/

import Neosurf.Construction.Idna
import Neosurf.Proof.Bytes
import Neosurf.ToMathlib.SplitOn

namespace Neosurf

/-- The host ends at a NUL or a colon, and the byte at the length passes for a dot. -/
def idnaText : Bytes → Int → Bytes
  | [], _ => []
  | c :: rest, len =>
      if c = 0 ∨ c = chr ':' then []
      else (if len = 0 then chr '.' else c) :: idnaText rest (len - 1)

/-- These labels are copied: no empty label and no label that is not LDH stands before them. -/
def idnaLabels (host : Bytes) (len : Int) : List Bytes :=
  ((idnaText (cstr host) len).splitOn (chr '.')).takeWhile fun label =>
    label ≠ [] && idnaIsLdh label

/-- Each label takes one more byte for its dot. -/
def labelsSize (labels : List Bytes) : Nat := (labels.map fun label => label.length + 1).sum

theorem idnaHostLabelLength_nil (len : Int) : idnaHostLabelLength [] len = 0 := by
  simp [idnaHostLabelLength]

theorem idnaHostLabelLength_cons (c : Byte) (rest : Bytes) (len : Int) :
    idnaHostLabelLength (c :: rest) len =
      if len = 0 ∨ endsLabel c = true then 0 else idnaHostLabelLength rest (len - 1) + 1 := by
  rw [idnaHostLabelLength, idnaHostLabelLength, List.takeWhile_cons]
  cases endsLabel c with
  | true => simp
  | false =>
      simp only [Bool.not_false, if_true, List.length_cons, Bool.false_eq_true, or_false]
      split_ifs <;> omega

/-- The text starts with the first label, and its rest follows a separator. -/
theorem idnaText_label (host : Bytes) (len : Int) :
    idnaText host len =
      host.take (idnaHostLabelLength host len) ++
        if byteAt host (idnaHostLabelLength host len) = 0 ∨
            byteAt host (idnaHostLabelLength host len) = chr ':' then []
        else chr '.' :: idnaText (host.drop (idnaHostLabelLength host len + 1))
          (len - idnaHostLabelLength host len - 1) := by
  induction host generalizing len with
  | nil => simp [idnaText, byteAt]
  | cons c rest ih =>
      rw [idnaHostLabelLength_cons, idnaText]
      by_cases stops : c = 0 ∨ c = chr ':'
      · have ends : endsLabel c = true := by
          rcases stops with rfl | rfl <;> rfl
        simp [stops, ends, byteAt]
      · rw [if_neg stops]
        by_cases spent : len = 0
        · simp [spent, byteAt, stops]
        · cases ends : endsLabel c with
          | true =>
              have dot : c = chr '.' := by
                simpa [endsLabel, not_or.mp stops] using ends
              simp [spent, byteAt, dot]
              decide
          | false =>
              have later : len - 1 - (idnaHostLabelLength rest (len - 1) : Int) - 1 =
                  len - ((idnaHostLabelLength rest (len - 1) + 1 : Nat) : Int) - 1 := by
                omega
              rw [if_neg spent, if_neg (by simp [spent]), ih (len - 1), later]
              simp [byteAt]

/-- No label has a dot. -/
theorem not_mem_label (host : Bytes) (len : Int) :
    chr '.' ∉ host.take (idnaHostLabelLength host len) := by
  induction host generalizing len with
  | nil => simp
  | cons c rest ih =>
      rw [idnaHostLabelLength_cons]
      split
      · simp
      · rename_i inside
        rw [List.take_succ_cons, List.mem_cons, not_or]
        refine ⟨?_, ih (len - 1)⟩
        rintro rfl
        exact inside (.inr rfl)

/-- The first part of the text is the first label. -/
theorem splitOn_idnaText (host : Bytes) (len : Int) :
    (idnaText host len).splitOn (chr '.') =
      host.take (idnaHostLabelLength host len) ::
        if byteAt host (idnaHostLabelLength host len) = 0 ∨
            byteAt host (idnaHostLabelLength host len) = chr ':' then []
        else (idnaText (host.drop (idnaHostLabelLength host len + 1))
          (len - idnaHostLabelLength host len - 1)).splitOn (chr '.') := by
  have clean := not_mem_label host len
  rw [idnaText_label]
  split
  · rw [List.append_nil, List.splitOn_eq_singleton clean]
  · rw [List.splitOn_append_cons_self_of_not_mem clean]

/-- The length of a label is at most that of the host. -/
theorem idnaHostLabelLength_le (host : Bytes) (len : Int) :
    idnaHostLabelLength host len ≤ host.length := by
  have within := (List.takeWhile_prefix (fun c => !endsLabel c) (l := host)).length_le
  unfold idnaHostLabelLength
  simp only
  split <;> omega

theorem labelsSize_cons (label : Bytes) (labels : List Bytes) :
    labelsSize (label :: labels) = label.length + 1 + labelsSize labels := by
  simp [labelsSize]

/-- Every round of the loop writes one label and its dot. -/
theorem idnaEncodeLabelsWritten_eq {rounds : Nat} {host : Bytes} (len : Int) (written : Nat)
    (enough : host.length < rounds) :
    idnaEncodeLabelsWritten rounds host len written =
      written + labelsSize (((idnaText host len).splitOn (chr '.')).takeWhile fun label =>
        label ≠ [] && idnaIsLdh label) := by
  induction rounds generalizing host len written with
  | zero => omega
  | succ rounds ih =>
      have within := idnaHostLabelLength_le host len
      have size : (host.take (idnaHostLabelLength host len)).length =
          idnaHostLabelLength host len := List.length_take_of_le within
      have empty : host.take (idnaHostLabelLength host len) = [] ↔
          idnaHostLabelLength host len = 0 := by
        rw [← List.length_eq_zero_iff, size]
      rw [idnaEncodeLabelsWritten, splitOn_idnaText, List.takeWhile_cons]
      by_cases last : idnaHostLabelLength host len = 0
      · simp [last, labelsSize]
      · cases ldh : idnaIsLdh (host.take (idnaHostLabelLength host len)) with
        | false => simp [last, labelsSize]
        | true =>
            have copied : (decide (host.take (idnaHostLabelLength host len) ≠ []) && true) = true := by
              simp [empty, last]
            simp only [last, if_false, Bool.true_eq_false, copied, if_true, labelsSize_cons, size]
            split
            · rw [List.takeWhile_nil, labelsSize, List.map_nil, List.sum_nil]
              omega
            · have shorter : (host.drop (idnaHostLabelLength host len + 1)).length < rounds := by
                rw [List.length_drop]
                omega
              rw [ih _ _ shorter]
              omega

/-- The copied labels fill so much of the buffer. -/
theorem idnaEncodeWritten_eq (host : Bytes) (len : Int) :
    idnaEncodeWritten host len = labelsSize (idnaLabels host len) := by
  rw [idnaEncodeWritten, idnaEncodeLabelsWritten_eq len 0 (Nat.lt_succ_self _), Nat.zero_add,
    idnaLabels]

/-- The encoded labels are what was written. -/
theorem length_idnaEncodeLabels {rounds : Nat} {host fqdn ace : Bytes} {len : Int}
    (done : idnaEncodeLabels rounds host len fqdn = some ace) :
    ace.length = idnaEncodeLabelsWritten rounds host len fqdn.length := by
  induction rounds generalizing host fqdn len with
  | zero =>
      cases done
      rfl
  | succ rounds ih =>
      have within := idnaHostLabelLength_le host len
      rw [idnaEncodeLabels] at done
      rw [idnaEncodeLabelsWritten]
      simp only at done ⊢
      split_ifs at done ⊢ with last invalid stops
      · cases done
        rfl
      · cases done
        simp only [List.length_append, List.length_take_of_le within, List.length_singleton]
      · rw [ih done]
        simp only [List.length_append, List.length_take_of_le within, List.length_singleton]

/-- The encoded form and its NUL take no more than what was written. -/
theorem length_idnaEncode {host ace : Bytes} {len : Int} (done : idnaEncode host len = some ace) :
    ace.length + 1 ≤ idnaEncodeWritten host len ∨ ace = [] := by
  change (if _ then _ else _) = some ace at done
  split_ifs at done
  obtain ⟨fqdn, labels, rfl⟩ := Option.map_eq_some_iff.mp done
  have size := length_idnaEncodeLabels labels
  rw [List.length_nil] at size
  rw [idnaEncodeWritten, ← size, List.length_dropLast]
  cases fqdn with
  | nil => exact .inr rfl
  | cons c rest =>
      left
      simp

/-- The encoder stays within its buffer, and an encoded form that does not fit with its
NUL is an error. -/
def StaysWithinFqdn (host : Bytes) (len : Nat) : Prop :=
  idnaEncodeWritten host len ≤ fqdnSize ∧
    ∀ ace, idnaEncode host len = some ace → ace.length + 1 ≤ fqdnSize

/-- The encoder stays within its buffer when the copied labels and their dots fit. -/
theorem staysWithinFqdn_iff (host : Bytes) (len : Nat) :
    StaysWithinFqdn host len ↔ labelsSize (idnaLabels host len) ≤ fqdnSize := by
  rw [← idnaEncodeWritten_eq]
  constructor
  · exact fun stays => stays.1
  · intro fits
    refine ⟨fits, fun ace done => ?_⟩
    rcases length_idnaEncode done with short | rfl
    · exact short.trans fits
    · decide

/-- The encoder never looks at the size of its buffer: it stays within exactly when the
leading valid labels and their dots fit. -/
theorem idnaEncode_stays_iff (host : Bytes) (len : Nat) :
    StaysWithinFqdn host len ↔ labelsSize (idnaLabels host len) ≤ fqdnSize :=
  staysWithinFqdn_iff host len

/-- One label of 256 letters leaves no room for its dot. -/
theorem idnaEncode_overruns : ¬StaysWithinFqdn (List.replicate 256 (chr 'a')) 256 := by
  intro stays
  have written := stays.1
  rw [idnaEncodeWritten_eq] at written
  exact absurd written (by decide +kernel)

/-- A text that ends the host behind the first one. -/
def EndsHost (rest : Bytes) : Prop := rest = [] ∨ ∃ more, rest = chr ':' :: more

/-- The length of the first label is the same before an end of the host. -/
theorem idnaHostLabelLength_append {host rest : Bytes} {len : Int} (ends : EndsHost rest)
    (within : (host.length : Int) ≤ len) :
    idnaHostLabelLength (host ++ rest) len = idnaHostLabelLength host host.length := by
  have stops : rest.takeWhile (fun c => !endsLabel c) = [] := by
    rcases ends with rfl | ⟨more, rfl⟩
    · rfl
    · rfl
  have label : (host ++ rest).takeWhile (fun c => !endsLabel c) =
      host.takeWhile fun c => !endsLabel c := by
    rw [List.takeWhile_append, stops, List.append_nil]
    split
    · rename_i whole
      exact ((List.takeWhile_prefix _).eq_of_length whole).symm
    · rfl
  have size := (List.takeWhile_prefix (fun c => !endsLabel c) (l := host)).length_le
  rw [idnaHostLabelLength, idnaHostLabelLength, label, if_neg (by omega), if_neg (by omega)]
  omega

/-- The encoder copies the same labels before an end of the host. -/
theorem idnaEncodeLabels_append {rounds rounds' : Nat} {host rest fqdn : Bytes} {len : Int}
    (ends : EndsHost rest) (within : (host.length : Int) ≤ len) (enough : host.length < rounds)
    (enough' : host.length < rounds') :
    idnaEncodeLabels rounds (host ++ rest) len fqdn =
      idnaEncodeLabels rounds' host host.length fqdn := by
  induction rounds generalizing rounds' host len fqdn with
  | zero => omega
  | succ rounds ih =>
      obtain ⟨rounds', rfl⟩ : ∃ k, rounds' = k + 1 := ⟨rounds' - 1, by omega⟩
      have short := idnaHostLabelLength_le host host.length
      have label : (host ++ rest).take (idnaHostLabelLength host host.length) =
          host.take (idnaHostLabelLength host host.length) := List.take_append_of_le_length short
      rw [idnaEncodeLabels, idnaEncodeLabels, idnaHostLabelLength_append ends within]
      simp only [label]
      generalize idnaHostLabelLength host host.length = size at *
      rcases Nat.lt_or_eq_of_le short with inside | last
      · have next : (host ++ rest).drop (size + 1) = host.drop (size + 1) ++ rest :=
          List.drop_append_of_le_length inside
        have left : ((host.drop (size + 1)).length : Int) = host.length - size - 1 := by
          rw [List.length_drop]
          omega
        have again := fun fqdn => @ih rounds' (host.drop (size + 1)) fqdn (len - size - 1)
          (by omega) (by omega) (by omega)
        have same : byteAt (host ++ rest) size = byteAt host size := by
          rw [byteAt, byteAt, List.getD_eq_getElem?_getD, List.getD_eq_getElem?_getD,
            List.getElem?_append_left inside]
        simp only [same, next, again, left]
      · -- The label reaches the end, which stops both loops.
        have stops : byteAt (host ++ rest) size = 0 ∨ byteAt (host ++ rest) size = chr ':' := by
          rw [last, byteAt, List.getD_eq_getElem?_getD,
            List.getElem?_append_right (Nat.le_refl _), Nat.sub_self]
          rcases ends with rfl | ⟨more, rfl⟩
          · exact .inl rfl
          · exact .inr rfl
        have nul : byteAt host size = 0 := by
          rw [last, byteAt, List.getD_eq_getElem?_getD, List.getElem?_eq_none (Nat.le_refl _)]
          rfl
        simp only [stops, if_true, nul, true_or]

/-- A colon ends the host that is encoded. -/
theorem idnaEncode_colon (host rest : Bytes) {len : Int} (within : (host.length : Int) ≤ len) :
    idnaEncode (host ++ chr ':' :: rest) len = idnaEncode host host.length := by
  have short : (cstr host).length ≤ host.length := (List.takeWhile_prefix _).length_le
  obtain ⟨tail, ends, cut⟩ : ∃ tail, EndsHost tail ∧
      cstr (host ++ chr ':' :: rest) = cstr host ++ tail := by
    by_cases broken : 0 ∈ host
    · exact ⟨[], .inl rfl, by rw [cstr_append_of_broken broken, List.append_nil]⟩
    · have colon : cstr (chr ':' :: rest) = chr ':' :: cstr rest := by
        rw [cstr, List.takeWhile_cons_of_pos (by decide)]
        rfl
      exact ⟨chr ':' :: cstr rest, .inr ⟨_, rfl⟩, by
        rw [cstr_append_of_solid broken, cstr_of_solid broken, colon]⟩
  have alone (len : Int) (fits : ((cstr host).length : Int) ≤ len) :
      idnaHostLabelLength (cstr host) len =
        idnaHostLabelLength (cstr host) (cstr host).length := by
    have same := idnaHostLabelLength_append (.inl rfl : EndsHost []) fits
    rwa [List.append_nil] at same
  have labels (fqdn : Bytes) : idnaEncodeLabels ((cstr host ++ tail).length + 1)
      (cstr host ++ tail) len fqdn =
        idnaEncodeLabels ((cstr host).length + 1) (cstr host) host.length fqdn := by
    have first := @idnaEncodeLabels_append ((cstr host ++ tail).length + 1)
      ((cstr host).length + 1) (cstr host) tail fqdn len ends (by omega)
      (by rw [List.length_append]; omega) (Nat.lt_succ_self _)
    have second := @idnaEncodeLabels_append ((cstr host).length + 1)
      ((cstr host).length + 1) (cstr host) [] fqdn host.length (.inl rfl) (by omega)
      (Nat.lt_succ_self _) (Nat.lt_succ_self _)
    rw [List.append_nil] at second
    rw [first, second]
  simp only [idnaEncode, cut, labels, alone host.length (by omega),
    idnaHostLabelLength_append ends (by omega : ((cstr host).length : Int) ≤ len)]

/-- The decoder copies labels of the host, each with its dot. -/
theorem idnaDecodeLabels_solid {rounds : Nat} {host fqdn result : Bytes} {len : Int}
    (done : idnaDecodeLabels rounds host len fqdn = some result) (solid : 0 ∉ host)
    (before : 0 ∉ fqdn) : 0 ∉ result ∧ fqdn.length ≤ result.length ∧
      (rounds ≠ 0 → idnaHostLabelLength host len ≠ 0 → fqdn.length + 2 ≤ result.length) := by
  induction rounds generalizing host fqdn len with
  | zero =>
      cases done
      exact ⟨before, Nat.le_refl _, fun some => absurd rfl some⟩
  | succ rounds ih =>
      have within := idnaHostLabelLength_le host len
      have copied : 0 ∉ fqdn ++ host.take (idnaHostLabelLength host len) ++ [chr '.'] := by
        simp only [List.mem_append, List.mem_singleton, not_or]
        exact ⟨⟨before, fun inside => solid (List.mem_of_mem_take inside)⟩, by decide⟩
      have size : (fqdn ++ host.take (idnaHostLabelLength host len) ++ [chr '.']).length =
          fqdn.length + idnaHostLabelLength host len + 1 := by
        simp only [List.length_append, List.length_take_of_le within, List.length_singleton]
      rw [idnaDecodeLabels] at done
      simp only at done
      split_ifs at done with last ace stops
      · cases done
        exact ⟨before, Nat.le_refl _, fun _ some => absurd last some⟩
      · cases done
        refine ⟨copied, ?_, fun _ some => ?_⟩
        · rw [size]
          omega
        · rw [size]
          omega
      · obtain ⟨clean, longer, -⟩ := ih done
          (fun inside => solid (List.mem_of_mem_drop inside)) copied
        rw [size] at longer
        exact ⟨clean, by omega, fun _ some => by omega⟩

/-- A decoded host is a C string that is not empty. -/
theorem idnaDecode_solid {host decoded : Bytes} {len : Int}
    (done : idnaDecode host len = some decoded) : 0 ∉ decoded ∧ decoded ≠ [] := by
  change (if _ then _ else _) = some decoded at done
  split_ifs at done with label
  obtain ⟨fqdn, labels, rfl⟩ := Option.map_eq_some_iff.mp done
  obtain ⟨clean, -, longer⟩ := idnaDecodeLabels_solid labels (solid_cstr host) List.not_mem_nil
  have size := longer (Nat.succ_ne_zero _) label
  rw [List.length_nil] at size
  refine ⟨fun inside => clean (List.dropLast_subset _ inside), fun empty => ?_⟩
  have shorter : fqdn.dropLast.length = fqdn.length - 1 := List.length_dropLast
  rw [empty, List.length_nil] at shorter
  omega

/-- A label is copied. -/
def isCopied (label : Bytes) : Bool := label ≠ [] && idnaIsLdh label

/-- The loop copies the labels before the first one that cannot be copied, and fails if that one is
not empty. -/
theorem idnaEncodeLabels_eq {rounds : Nat} {host : Bytes} (len : Int) (fqdn : Bytes)
    (enough : host.length < rounds) :
    idnaEncodeLabels rounds host len fqdn =
      if (((idnaText host len).splitOn (chr '.')).dropWhile isCopied).headD [] = [] then
        some (fqdn ++ (((idnaText host len).splitOn (chr '.')).takeWhile isCopied).flatMap
          (· ++ [chr '.']))
      else none := by
  induction rounds generalizing host len fqdn with
  | zero => omega
  | succ rounds ih =>
      have within := idnaHostLabelLength_le host len
      have empty : host.take (idnaHostLabelLength host len) = [] ↔
          idnaHostLabelLength host len = 0 := by
        rw [← List.length_eq_zero_iff, List.length_take_of_le within]
      rw [idnaEncodeLabels, splitOn_idnaText, List.takeWhile_cons, List.dropWhile_cons]
      by_cases last : idnaHostLabelLength host len = 0
      · simp [last, isCopied]
      · have nonempty : host.take (idnaHostLabelLength host len) ≠ [] := fun none => last (empty.mp none)
        cases ldh : idnaIsLdh (host.take (idnaHostLabelLength host len)) with
        | false => simp [last, isCopied, ldh, nonempty]
        | true =>
            have copied : isCopied (host.take (idnaHostLabelLength host len)) = true := by
              simp [isCopied, ldh, nonempty]
            simp only [last, if_false, Bool.true_eq_false, copied, if_true]
            split
            · simp
            · have shorter : (host.drop (idnaHostLabelLength host len + 1)).length < rounds := by
                rw [List.length_drop]
                omega
              rw [ih _ _ shorter, List.flatMap_cons, List.append_assoc]
              simp only [List.append_assoc]

/-- A host name has letters, digits, hyphens and dots. -/
def HostName (host : Bytes) : Prop := ∀ c ∈ host, c = chr '.' ∨ isLdhChar c = true

/-- A host name is read to its end. -/
theorem idnaText_hostName {host : Bytes} (name : HostName host) :
    cstr host = host ∧ idnaText host host.length = host := by
  have plain : ∀ c : Byte, c = chr '.' ∨ isLdhChar c = true → c ≠ 0 ∧ c ≠ chr ':' := by
    apply byte_cases
    decide
  have solid : 0 ∉ host := fun inside => (plain 0 (name 0 inside)).1 rfl
  refine ⟨cstr_of_solid solid, ?_⟩
  clear solid
  induction host with
  | nil => rfl
  | cons c rest ih =>
      have first := plain c (name c List.mem_cons_self)
      have later : ((c :: rest).length : Int) - 1 = rest.length := by
        rw [List.length_cons]
        omega
      have inside : ((c :: rest).length : Int) ≠ 0 := by
        rw [List.length_cons]
        omega
      rw [idnaText, if_neg (not_or.mpr first), if_neg inside, later,
        ih fun c inside => name c (List.mem_cons_of_mem _ inside)]

/-- A host name loses one trailing dot. -/
def withoutFinalDot (host : Bytes) : Bytes :=
  if host.getLast? = some (chr '.') then host.dropLast else host

/-- These are the labels of a host name, without the empty one behind a trailing dot. -/
def hostLabels (host : Bytes) : List Bytes := (withoutFinalDot host).splitOn (chr '.')

theorem splitOn_eq_hostLabels (host : Bytes) :
    host.splitOn (chr '.') = hostLabels host ∨ host.splitOn (chr '.') = hostLabels host ++ [[]] := by
  unfold hostLabels withoutFinalDot
  split
  · rename_i dot
    right
    have parts : host = host.dropLast ++ [chr '.'] := (List.dropLast_append_getLast? _ dot).symm
    conv_lhs => rw [parts]
    rw [List.splitOn_append_cons_self, List.splitOn_nil]
  · exact .inl rfl

/-- An empty label behind the others is neither copied nor an error. -/
theorem takeWhile_hostLabels (host : Bytes) :
    (host.splitOn (chr '.')).takeWhile isCopied = (hostLabels host).takeWhile isCopied ∧
      ((host.splitOn (chr '.')).dropWhile isCopied).headD [] =
        ((hostLabels host).dropWhile isCopied).headD [] := by
  have uncopied : isCopied [] = false := rfl
  rcases splitOn_eq_hostLabels host with same | dotted
  · rw [same]
    exact ⟨rfl, rfl⟩
  · rw [dotted]
    induction hostLabels host with
    | nil => simp [uncopied]
    | cons label rest ih =>
        rw [List.cons_append, List.takeWhile_cons, List.takeWhile_cons, List.dropWhile_cons,
          List.dropWhile_cons]
        cases isCopied label with
        | false => exact ⟨rfl, rfl⟩
        | true => exact ⟨congrArg (label :: ·) ih.1, ih.2⟩

/-- The dots behind the labels stand between them without the last one. -/
theorem dropLast_flatMap_dots (c : Byte) (labels : List Bytes) :
    (labels.flatMap (· ++ [c])).dropLast = [c].intercalate labels := by
  induction labels with
  | nil => rfl
  | cons label rest ih =>
      cases rest with
      | nil => simp
      | cons next rest =>
          rw [List.intercalate_cons_cons, List.flatMap_cons, List.dropLast_append_of_ne_nil (by simp),
            ih]

/-- The encoder joins the labels that are copied. -/
theorem idnaEncode_hostName {host : Bytes} (name : HostName host) :
    idnaEncode host host.length =
      if (hostLabels host).headD [] ≠ [] ∧ ((hostLabels host).dropWhile isCopied).headD [] = [] then
        some ([chr '.'].intercalate ((hostLabels host).takeWhile isCopied))
      else none := by
  obtain ⟨solid, text⟩ := idnaText_hostName name
  obtain ⟨copied, left⟩ := takeWhile_hostLabels host
  have within := idnaHostLabelLength_le host host.length
  have first : (hostLabels host).headD [] = host.take (idnaHostLabelLength host host.length) := by
    have parts := splitOn_idnaText host host.length
    rw [text] at parts
    rcases splitOn_eq_hostLabels host with same | dotted
    · rw [← same, parts, List.headD_cons]
    · rw [dotted] at parts
      have nonempty : hostLabels host ≠ [] := List.splitOn_ne_nil _ _
      cases labels : hostLabels host with
      | nil => exact absurd labels nonempty
      | cons label rest =>
          rw [labels, List.cons_append] at parts
          exact (List.cons.inj parts).1
  have empty : (hostLabels host).headD [] = [] ↔ idnaHostLabelLength host host.length = 0 := by
    rw [first, ← List.length_eq_zero_iff, List.length_take_of_le within]
  rw [idnaEncode, solid]
  rw [idnaEncodeLabels_eq _ _ (Nat.lt_succ_self _), text, copied, left]
  simp only [ne_eq, empty]
  by_cases last : idnaHostLabelLength host host.length = 0
  · simp [last]
  · by_cases fails : ((hostLabels host).dropWhile isCopied).headD [] = []
    · rw [if_neg last, if_pos fails, if_pos ⟨last, fails⟩, Option.map_some, List.nil_append,
        dropLast_flatMap_dots]
    · rw [if_neg last, if_neg fails, if_neg fun both => fails both.2, Option.map_none]

/-- A label of letters, digits and hyphens, not at its ends. -/
def ProperLabel (label : Bytes) : Prop :=
  label ≠ [] ∧ label.head? ≠ some (chr '-') ∧ label.getLast? ≠ some (chr '-')

/-- The labels of a host name have no dot, and what else they have can be copied. -/
theorem hostLabels_hostName {host label : Bytes} (name : HostName host)
    (inside : label ∈ hostLabels host) :
    chr '.' ∉ label ∧ (isCopied label = true ↔ ProperLabel label) := by
  have clean : chr '.' ∉ label := List.not_mem_of_mem_splitOn inside
  refine ⟨clean, ?_⟩
  have letters : label.all isLdhChar = true := by
    rw [List.all_eq_true]
    intro c found
    have among : c ∈ host := by
      have kept : c ∈ withoutFinalDot host := List.mem_of_mem_splitOn inside found
      unfold withoutFinalDot at kept
      split at kept
      · exact List.mem_of_mem_dropLast kept
      · exact kept
    rcases name c among with rfl | letter
    · exact absurd found clean
    · exact letter
  simp [isCopied, idnaIsLdh, ProperLabel, letters]

/-- The encoder answers with the whole host, but for a trailing dot, and stays within its buffer. -/
structure EncodesAll (host : Bytes) : Prop where
  encoded : idnaEncode host host.length = some (withoutFinalDot host)
  within : StaysWithinFqdn host host.length

/-- The encoder answers with another host. -/
def LosesLabels (host : Bytes) : Prop :=
  ∃ ace, idnaEncode host host.length = some ace ∧ ace ≠ withoutFinalDot host

/-- An empty label stands behind proper ones. -/
def EmptyBehindProper (labels : List Bytes) : Prop :=
  ∃ before after, labels = before ++ [] :: after ∧ before ≠ [] ∧ ∀ label ∈ before, ProperLabel label

/-- The copied labels make the whole host exactly when they are all labels. -/
theorem intercalate_copied_iff {host : Bytes} (name : HostName host) :
    (hostLabels host).headD [] ≠ [] ∧
        [chr '.'].intercalate ((hostLabels host).takeWhile isCopied) = withoutFinalDot host ↔
      ∀ label ∈ hostLabels host, isCopied label = true := by
  have whole : [chr '.'].intercalate (hostLabels host) = withoutFinalDot host :=
    List.intercalate_splitOn (chr '.')
  constructor
  · rintro ⟨first, same⟩
    have copied : (hostLabels host).takeWhile isCopied ≠ [] := by
      intro none
      rw [none] at same
      have single : hostLabels host = [[]] := by
        rw [hostLabels, ← same]
        rfl
      exact first (by rw [single, List.headD_cons])
    have clean : ∀ label ∈ (hostLabels host).takeWhile isCopied, chr '.' ∉ label :=
      fun label inside => (hostLabels_hostName name ((List.takeWhile_prefix isCopied).subset inside)).1
    have labels := List.splitOn_intercalate (chr '.') clean copied
    rw [same] at labels
    exact List.takeWhile_eq_self_iff.mp labels.symm
  · intro all
    have first : (hostLabels host).headD [] ≠ [] := by
      cases labels : hostLabels host with
      | nil => exact absurd labels (List.splitOn_ne_nil _ _)
      | cons label rest =>
          rw [labels] at all
          intro empty
          rw [List.headD_cons] at empty
          have copied := all label List.mem_cons_self
          rw [empty] at copied
          cases copied
    exact ⟨first, by rw [List.takeWhile_eq_self_iff.mpr all, whole]⟩

/-- The encoder answers with a host when the labels that it copies end at an empty one. -/
theorem idnaEncode_eq_some_iff {host ace : Bytes} (name : HostName host) :
    idnaEncode host host.length = some ace ↔
      ((hostLabels host).headD [] ≠ [] ∧ ((hostLabels host).dropWhile isCopied).headD [] = []) ∧
        [chr '.'].intercalate ((hostLabels host).takeWhile isCopied) = ace := by
  rw [idnaEncode_hostName name, Option.ite_none_right_eq_some, Option.some_inj]

/-- The answer is the whole host when all labels are copied. -/
theorem idnaEncode_whole_iff {host : Bytes} (name : HostName host) :
    idnaEncode host host.length = some (withoutFinalDot host) ↔
      ∀ label ∈ hostLabels host, isCopied label = true := by
  rw [idnaEncode_eq_some_iff name, ← intercalate_copied_iff name]
  constructor
  · rintro ⟨⟨first, -⟩, same⟩
    exact ⟨first, same⟩
  · intro whole
    have all := (intercalate_copied_iff name).mp whole
    have ended : (hostLabels host).dropWhile isCopied = [] := List.dropWhile_eq_nil_iff.mpr all
    exact ⟨⟨whole.1, by rw [ended, List.headD_nil]⟩, whole.2⟩

/-- The answer is cut when an empty label stands behind proper ones. -/
theorem losesLabels_iff {host : Bytes} (name : HostName host) :
    LosesLabels host ↔ EmptyBehindProper (hostLabels host) := by
  have proper (label : Bytes) (inside : label ∈ hostLabels host) :
      isCopied label = true ↔ ProperLabel label := (hostLabels_hostName name inside).2
  constructor
  · rintro ⟨ace, done, other⟩
    obtain ⟨⟨first, ended⟩, rfl⟩ := (idnaEncode_eq_some_iff name).mp done
    have parts := List.takeWhile_append_dropWhile (p := isCopied) (l := hostLabels host)
    cases left : (hostLabels host).dropWhile isCopied with
    | nil =>
        have all := (intercalate_copied_iff name).mpr (List.dropWhile_eq_nil_iff.mp left)
        exact absurd all.2 other
    | cons label after =>
        rw [left] at ended parts
        rw [List.headD_cons] at ended
        rw [ended] at parts
        refine ⟨(hostLabels host).takeWhile isCopied, after, parts.symm, fun none => ?_,
          fun label inside => ?_⟩
        · rw [none, List.nil_append] at parts
          rw [← parts] at first
          exact first rfl
        · exact (proper label ((List.takeWhile_prefix isCopied).subset inside)).mp
            (List.mem_takeWhile_imp inside)
  · rintro ⟨before, after, labels, some, valid⟩
    have copied : ∀ label ∈ before, isCopied label = true := by
      intro label inside
      refine (proper label ?_).mpr (valid label inside)
      rw [labels]
      exact List.mem_append_left _ inside
    have ended : (hostLabels host).dropWhile isCopied = [] :: after := by
      rw [labels, List.dropWhile_append_of_pos copied]
      rfl
    have first : (hostLabels host).headD [] ≠ [] := by
      cases before with
      | nil => exact absurd rfl some
      | cons label rest =>
          rw [labels, List.cons_append, List.headD_cons]
          exact (valid label List.mem_cons_self).1
    refine ⟨_, (idnaEncode_eq_some_iff name).mpr ⟨⟨first, by rw [ended, List.headD_cons]⟩, rfl⟩, ?_⟩
    intro same
    have all := (intercalate_copied_iff name).mp ⟨first, same⟩
    have empty := all [] (by rw [labels]; exact List.mem_append_right _ List.mem_cons_self)
    cases empty

/-- A host name is encoded as a whole exactly when all its labels are proper and they fit into the
buffer with their dots. It is cut without an error exactly when an empty label stands behind
proper ones. -/
theorem idnaEncode_keeps_iff {host : Bytes} (name : HostName host) :
    (EncodesAll host ↔ (∀ label ∈ hostLabels host, ProperLabel label) ∧
      labelsSize (hostLabels host) ≤ fqdnSize) ∧
    (LosesLabels host ↔ EmptyBehindProper (hostLabels host)) := by
  have proper : (∀ label ∈ hostLabels host, isCopied label = true) ↔
      ∀ label ∈ hostLabels host, ProperLabel label :=
    forall₂_congr fun label inside => (hostLabels_hostName name inside).2
  have copied (all : ∀ label ∈ hostLabels host, isCopied label = true) :
      idnaLabels host host.length = hostLabels host := by
    obtain ⟨solid, text⟩ := idnaText_hostName name
    rw [idnaLabels, solid, text]
    exact (takeWhile_hostLabels host).1.trans (List.takeWhile_eq_self_iff.mpr all)
  refine ⟨?_, losesLabels_iff name⟩
  rw [← proper]
  constructor
  · intro whole
    have all := (idnaEncode_whole_iff name).mp whole.encoded
    have fits := (staysWithinFqdn_iff host host.length).mp whole.within
    rw [copied all] at fits
    exact ⟨all, fits⟩
  · rintro ⟨all, fits⟩
    refine ⟨(idnaEncode_whole_iff name).mpr all, (staysWithinFqdn_iff host host.length).mpr ?_⟩
    rw [copied all]
    exact fits

theorem idnaEncode_keeps_example :
    (EncodesAll (str "a.b.") ↔ (∀ label ∈ hostLabels (str "a.b."), ProperLabel label) ∧
      labelsSize (hostLabels (str "a.b.")) ≤ fqdnSize) ∧
    (LosesLabels (str "a.b.") ↔ EmptyBehindProper (hostLabels (str "a.b."))) :=
  idnaEncode_keeps_iff (by rw [HostName, ← List.forall_iff_forall_mem]; decide)

/-- A label behind an empty one is lost. -/
theorem idnaEncode_drops_label : idnaEncode (str "a..b") 4 = some (str "a") ∧
    ¬EncodesAll (str "a..b") := by
  refine ⟨by decide, fun whole => ?_⟩
  exact absurd whole.encoded (by decide)

end Neosurf
