/-
This file proves that a certificate chain comes back from the query that is made of it.
-/

import Mathlib.Algebra.Order.BigOperators.Group.List
import Neosurf.Construction.SslCerts
import Neosurf.Proof.Base64
import Neosurf.Proof.Nsoption
import Neosurf.Proof.Nsurl.Consistent
import Neosurf.Proof.Nsurl.DotEscapes
import Neosurf.Proof.Nsurl.Extents
import Neosurf.Proof.Bytes
import Neosurf.ToMathlib.SplitOn

namespace Neosurf.SslCerts

open Nsurl

/-- These are the parts of the query for one certificate. -/
def certParts (cert : Cert) : List Bytes :=
  (str "cert=" ++ Base64.encodeUrl cert.der) ::
    if cert.err ≠ SSL_CERT_ERR_OK then [str "certerr=" ++ printErr cert.err] else []

/-- This is the query for a chain. -/
def chainQuery (chain : CertChain) : Bytes :=
  [chr '&'].intercalate (chain.flatMap certParts)

/-- A character that a URL keeps in its query. -/
def isQueryChar (c : Byte) : Bool :=
  isNoEscape c && c != chr '%' && c != chr '#' && !isSpace c && c != 0

/-- A character that stands in one part of the query. -/
def isPartChar (c : Byte) : Bool := isQueryChar c && c != chr '&'

section Text

variable {cert : Cert} {chain : CertChain} {allocsize : Nat} {urlstr : Bytes}

theorem toInt32_bounds (value : Int) : -2 ^ 31 ≤ toInt32 value ∧ toInt32 value < 2 ^ 31 := by
  unfold toInt32
  omega

theorem length_printErr_le (err : UInt32) : (printErr err).length ≤ 11 := by
  have bounds := toInt32_bounds err.toNat
  have below : (toInt32 err.toNat).natAbs < 10 ^ 10 := by omega
  exact length_printInt_le (by decide) below

/-- This is the text of a certificate with its separators. -/
def certText (cert : Cert) : Bytes := (certParts cert).flatMap (chr '&' :: ·)

/-- This is the space that `cert_chain_to_query` counts for a certificate. -/
def certSpace (cert : Cert) : Nat :=
  7 + 4 * ((cert.der.length + 2) / 3) + if cert.err ≠ SSL_CERT_ERR_OK then 20 else 0

theorem length_encodeUrl (der : Bytes) :
    (Base64.encodeUrl der).length = 4 * ((der.length + 2) / 3) := by
  rw [Base64.encodeUrl, Base64.length_tableEncode]
  omega

/-- The text of a certificate takes less than its space. -/
theorem length_certText_lt (cert : Cert) : (certText cert).length < certSpace cert := by
  have size := length_encodeUrl cert.der
  have digits := length_printErr_le cert.err
  have name : (str "cert=").length = 5 := rfl
  have errName : (str "certerr=").length = 8 := rfl
  rw [certText, certParts, certSpace]
  split
  · simp only [List.flatMap_cons, List.flatMap_nil, List.length_append, List.length_cons,
      List.length_nil]
    omega
  · simp only [List.flatMap_cons, List.flatMap_nil, List.length_append, List.length_cons,
      List.length_nil]
    omega

/-- A round of the loop fails nowhere while there is space for the certificate. -/
theorem putCert_eq (space : urlstr.length + certSpace cert ≤ allocsize) :
    putCert allocsize urlstr cert = .ok (urlstr ++ certText cert) := by
  have size := length_encodeUrl cert.der
  have digits := length_printErr_le cert.err
  have name : (str "&cert=").length = 6 := rfl
  have errName : (str "&certerr=").length = 9 := rfl
  have first : printEnd allocsize (str "&cert=") urlstr = .ok (urlstr ++ str "&cert=") := by
    rw [printEnd, if_neg]
    rw [certSpace] at space
    omega
  have second : encodeEnd allocsize cert.der (urlstr ++ str "&cert=") =
      .ok (urlstr ++ str "&cert=" ++ Base64.encodeUrl cert.der) := by
    rw [encodeEnd, if_neg]
    rw [certSpace] at space
    rw [List.length_append]
    omega
  rw [putCert, first]
  change (encodeEnd allocsize cert.der (urlstr ++ str "&cert=") >>= _) = _
  rw [second]
  change (if cert.err ≠ SSL_CERT_ERR_OK then _ else _) = _
  rw [certSpace] at space
  rw [certText, certParts]
  split
  · rename_i fault
    rw [if_pos fault] at space
    rw [printEnd, if_neg]
    · simp [str, List.append_assoc]
    · simp only [List.length_append]
      omega
  · simp [str, List.append_assoc]

/-- The loop writes the text of each certificate, with space left for the NUL. -/
theorem foldlM_putCert (space : urlstr.length + (chain.map certSpace).sum ≤ allocsize) :
    chain.foldlM (putCert allocsize) urlstr = .ok (urlstr ++ chain.flatMap certText) := by
  induction chain generalizing urlstr with
  | nil => simp [pure, Except.pure]
  | cons cert chain ih =>
      rw [List.map_cons, List.sum_cons] at space
      have room := length_certText_lt cert
      rw [List.foldlM_cons, putCert_eq (by omega)]
      change chain.foldlM (putCert allocsize) (urlstr ++ certText cert) = _
      rw [ih (by rw [List.length_append]; omega), List.flatMap_cons, List.append_assoc]

/-- No write of the loop fails, and what it writes ends before the buffer does. -/
theorem chainText_eq (chain : CertChain) :
    chainText chain = .ok (str "about:certificate" ++ chain.flatMap certText) ∧
      (str "about:certificate" ++ chain.flatMap certText).length < queryAllocSize chain := by
  have name : (str "about:certificate").length = 17 := rfl
  have total : queryAllocSize chain = 20 + (chain.map certSpace).sum := rfl
  have lengths : (chain.flatMap certText).length ≤ (chain.map certSpace).sum := by
    rw [List.length_flatMap]
    exact List.sum_le_sum fun cert _ => (length_certText_lt cert).le
  constructor
  · exact foldlM_putCert (by omega)
  · rw [List.length_append]
    omega

end Text

section Query

variable {cert : Cert} {chain : CertChain} {text : Bytes}

/-- A query of plain characters is kept as it is. -/
theorem normalise_queryChars (plain : ∀ c ∈ text, isQueryChar c = true) :
    normalise false text = text := by
  induction text with
  | nil => rfl
  | cons c text ih =>
      have first := plain c List.mem_cons_self
      have kept : isNoEscape c = true := by
        simp only [isQueryChar, Bool.and_eq_true] at first
        exact first.1.1.1.1
      have other : c ≠ chr '%' := by
        simp only [isQueryChar, Bool.and_eq_true, bne_iff_ne] at first
        exact first.1.1.1.2
      have unescaped (value : Byte) (tail : Bytes) : ¬StartsEscape (c :: text) value tail := by
        rintro ⟨h, l, escape, -⟩
        cases escape
        exact other rfl
      obtain ⟨front, split, same⟩ := normalise_cons unescaped
      have front_eq : front = [c] := by
        rcases same with rfl | ⟨rfl, -⟩
        · simp [normaliseChar, kept]
        · rfl
      rw [split, front_eq, ih fun d inside => plain d (List.mem_cons_of_mem c inside)]
      rfl

theorem isPartChar_urlEncodingTable (sextet : Byte) (small : sextet < 64) :
    isPartChar (Base64.urlEncodingTable sextet) = true := by
  revert sextet
  apply byte_cases
  decide

theorem isPartChar_encodeUrl (der : Bytes) : ∀ c ∈ Base64.encodeUrl der, isPartChar c = true := by
  intro c inside
  rw [Base64.encodeUrl, Base64.tableEncode_eq, List.mem_append] at inside
  rcases inside with inside | pad
  · obtain ⟨sextet, stored, rfl⟩ := List.mem_map.mp inside
    exact isPartChar_urlEncodingTable sextet (Base64.sextetsOf_small der sextet stored)
  · have only : c = chr '=' := by
      induction der using Base64.padsOf.induct with
      | case1 a b c rest ih => exact ih pad
      | case2 a b => exact List.mem_singleton.mp pad
      | case3 a => simpa [Base64.padsOf] using pad
      | case4 => cases pad
    rw [only]
    decide

theorem isPartChar_of_isDigit (c : Byte) (digit : isDigit c = true) : isPartChar c = true := by
  revert c
  apply byte_cases
  decide

theorem isPartChar_printErr (err : UInt32) : ∀ c ∈ printErr err, isPartChar c = true := by
  have digits (n : Nat) : ∀ c ∈ str (toString n), isPartChar c = true :=
    fun c inside => isPartChar_of_isDigit c (isDigit_of_mem inside)
  intro c inside
  unfold printErr printInt at inside
  split at inside
  · rcases List.mem_append.mp inside with minus | digit
    · rw [List.mem_singleton.mp minus]
      decide
    · exact digits _ c digit
  · exact digits _ c inside

/-- The parts of the query are plain. -/
theorem isPartChar_certParts {part : Bytes} (inside : part ∈ certParts cert) :
    ∀ c ∈ part, isPartChar c = true := by
  have name : (str "cert=").all isPartChar = true := by decide
  have errName : (str "certerr=").all isPartChar = true := by decide
  have cases : part = str "cert=" ++ Base64.encodeUrl cert.der ∨
      part = str "certerr=" ++ printErr cert.err := by
    rw [certParts, List.mem_cons] at inside
    rcases inside with rfl | inside
    · exact .inl rfl
    · split at inside
      · exact .inr (List.mem_singleton.mp inside)
      · cases inside
  intro c stored
  rcases cases with rfl | rfl
  · rcases List.mem_append.mp stored with first | later
    · exact List.all_eq_true.mp name c first
    · exact isPartChar_encodeUrl _ c later
  · rcases List.mem_append.mp stored with first | later
    · exact List.all_eq_true.mp errName c first
    · exact isPartChar_printErr _ c later

theorem ampersand_not_mem {part : Bytes} (plain : ∀ c ∈ part, isPartChar c = true) :
    chr '&' ∉ part := by
  intro inside
  exact absurd (plain _ inside) (by decide)

/-- The query falls into the parts that it was made of. -/
theorem splitOn_chainQuery (filled : chain ≠ []) :
    (chainQuery chain).splitOn (chr '&') = chain.flatMap certParts := by
  apply List.splitOn_intercalate
  · intro part inside
    obtain ⟨cert, -, inside⟩ := List.mem_flatMap.mp inside
    exact ampersand_not_mem (isPartChar_certParts inside)
  · cases chain with
    | nil => exact absurd rfl filled
    | cons cert chain =>
        rw [List.flatMap_cons, certParts]
        exact List.cons_ne_nil _ _

/-- The text of the certificates is the query behind a separator. -/
theorem cons_chainQuery (filled : chain ≠ []) :
    chr '&' :: chainQuery chain = chain.flatMap certText := by
  rw [chainQuery, List.cons_intercalate_singleton, List.flatMap_assoc]
  · rfl
  · cases chain with
    | nil => exact absurd rfl filled
    | cons cert chain => exact List.cons_ne_nil _ _

theorem isQueryChar_chainQuery (filled : chain ≠ []) :
    ∀ c ∈ chainQuery chain, isQueryChar c = true := by
  intro c inside
  have stored : c ∈ chain.flatMap certText := by
    rw [← cons_chainQuery filled]
    exact List.mem_cons_of_mem _ inside
  obtain ⟨cert, -, stored⟩ := List.mem_flatMap.mp stored
  obtain ⟨part, own, stored⟩ := List.mem_flatMap.mp stored
  rcases List.mem_cons.mp stored with rfl | stored
  · decide
  · have plain := isPartChar_certParts own c stored
    rw [isPartChar, Bool.and_eq_true] at plain
    exact plain.1

/-- The query of a long certificate is no shorter than the reader asks for. -/
theorem length_chainQuery_ge (filled : chain ≠ []) (long : ∀ cert ∈ chain, 48 < cert.der.length) :
    MIN_CERT_LEN ≤ (chainQuery chain).length := by
  have minimum : MIN_CERT_LEN = 64 := rfl
  have whole := congrArg List.length (cons_chainQuery filled)
  cases chain with
  | nil => exact absurd rfl filled
  | cons cert chain =>
      have first := long cert List.mem_cons_self
      have size := length_encodeUrl cert.der
      simp only [List.length_cons, List.flatMap_cons, List.length_append, certText, certParts] at whole
      omega

/-- A number printed as an `int` is read back as the value of the enumeration. -/
theorem strtoul10_printErr (err : UInt32) : (strtoul10 (printErr err)).toUInt32 = err := by
  have bound := err.toNat_lt
  have read (n : Nat) : readDigits 10 (str (toString n)) = n := by
    rw [str_toString]
    exact readDigits_toDigits (by decide) (by decide) n
  unfold printErr printInt
  split
  · rename_i negative
    have value : (toInt32 err.toNat).natAbs = 2 ^ 32 - err.toNat := by
      unfold toInt32 at negative ⊢
      omega
    have high : 2 ^ 31 ≤ err.toNat := by
      unfold toInt32 at negative
      omega
    have number : strtoul10 (str "-" ++ str (toString (toInt32 err.toNat).natAbs)) =
        unsignedLong true (2 ^ 32 - err.toNat) := by
      change unsignedLong true (readDigits 10 (str (toString (toInt32 err.toNat).natAbs))) = _
      rw [read, value]
    rw [number, unsignedLong, if_neg (by omega), if_pos rfl]
    apply UInt32.toNat_inj.mp
    rw [Nat.toUInt32, UInt32.toNat_ofNat']
    omega
  · rename_i positive
    have value : (toInt32 err.toNat).natAbs = err.toNat := by
      unfold toInt32 at positive ⊢
      omega
    obtain ⟨c, digits, split, digit⟩ := exists_head_str_toString (toInt32 err.toNat).natAbs
    have whole := read (toInt32 err.toNat).natAbs
    obtain ⟨space, minus, plus, -⟩ := of_isDigit digit
    rw [split] at whole ⊢
    rw [strtoul10, List.dropWhile_cons_of_neg (by simp [space]), splitSign, if_neg minus,
      if_neg plus]
    dsimp only
    rw [whole, value, unsignedLong_of_small (by omega)]
    exact UInt32.ofNat_toNat

/-- The part of a long certificate adds it to the chain. -/
theorem processQuerySection_cert {der : Bytes} (long : 48 < der.length)
    (room : chain.length < MAX_CERT_DEPTH) :
    processQuerySection (str "cert=" ++ Base64.encodeUrl der) chain =
      .ok (chain ++ [{ err := SSL_CERT_ERR_OK, der }]) := by
  have size := length_encodeUrl der
  have name : (str "cert=").length = 5 := rfl
  have minimum : MIN_CERT_LEN = 64 := rfl
  have starts : startsWith (str "cert=") (str "cert=" ++ Base64.encodeUrl der) = true := by
    rw [startsWith, List.isPrefixOf_iff_prefix]
    exact List.prefix_append _ _
  have rest : (str "cert=" ++ Base64.encodeUrl der).drop 5 = Base64.encodeUrl der := rfl
  rw [processQuerySection, if_pos ⟨by rw [List.length_append]; omega, starts⟩, if_pos room, rest,
    (Base64.decode_encode der).2]

theorem modify_concat {α : Type} (items : List α) (item : α) (change : α → α) :
    (items ++ [item]).modify items.length change = items ++ [change item] := by
  induction items with
  | nil => rfl
  | cons first items ih => exact congrArg (first :: ·) ih

theorem length_printInt_pos (value : Int) : 0 < (printInt value).length := by
  have digits := List.length_pos_iff.mpr (str_toString_ne_nil value.natAbs)
  unfold printInt
  split
  · rw [List.length_append]
    omega
  · exact digits

/-- The part of an error code sets it in the last certificate. -/
theorem processQuerySection_err (err : UInt32) :
    processQuerySection (str "certerr=" ++ printErr err) (chain ++ [cert]) =
      .ok (chain ++ [{ cert with err }]) := by
  have name : (str "certerr=").length = 8 := rfl
  have filled := length_printInt_pos (toInt32 err.toNat)
  change 0 < (printErr err).length at filled
  have other : startsWith (str "cert=") (str "certerr=" ++ printErr err) = false := by
    rw [← Bool.not_eq_true, startsWith, List.isPrefixOf_iff_prefix]
    intro starts
    have first := List.prefix_iff_eq_take.mp starts
    rw [List.take_append_of_le_length (by decide)] at first
    exact absurd first (by decide)
  have starts : startsWith (str "certerr=") (str "certerr=" ++ printErr err) = true := by
    rw [startsWith, List.isPrefixOf_iff_prefix]
    exact List.prefix_append _ _
  have rest : (str "certerr=" ++ printErr err).drop 8 = printErr err := List.drop_left' name
  have last : (chain ++ [cert]).length - 1 = chain.length := by simp
  rw [processQuerySection, if_neg (by rw [other]; simp),
    if_pos ⟨by rw [List.length_append]; omega, starts⟩, rest, strtoul10_printErr, last,
    modify_concat]

/-- The parts of a certificate add it to the chain. -/
theorem foldlM_certParts (long : 48 < cert.der.length) (room : chain.length < MAX_CERT_DEPTH) :
    (certParts cert).foldlM (fun chain part => processQuerySection part chain) chain =
      .ok (chain ++ [cert]) := by
  rw [certParts, List.foldlM_cons, processQuerySection_cert long room]
  change List.foldlM _ (chain ++ [_]) _ = _
  split
  · rw [List.foldlM_cons, processQuerySection_err]
    rfl
  · rename_i fault
    rw [not_not] at fault
    rw [List.foldlM_nil, ← fault]
    rfl

/-- The parts of all certificates are read in their order. -/
theorem foldlM_chainParts (first : CertChain) {rest : CertChain}
    (long : ∀ cert ∈ rest, 48 < cert.der.length) (room : first.length + rest.length ≤ MAX_CERT_DEPTH) :
    (rest.flatMap certParts).foldlM (fun chain part => processQuerySection part chain) first =
      .ok (first ++ rest) := by
  induction rest generalizing first with
  | nil => simp [pure, Except.pure]
  | cons cert rest ih =>
      rw [List.length_cons] at room
      rw [List.flatMap_cons, List.foldlM_append,
        foldlM_certParts (long cert List.mem_cons_self) (by omega)]
      change List.foldlM _ (first ++ [cert]) _ = _
      rw [ih _ (fun other inside => long other (List.mem_cons_of_mem cert inside))
        (by rw [List.length_append, List.length_singleton]; omega), List.append_assoc]
      rfl

/-- The part of a short certificate is left out. -/
theorem processQuerySection_short {der : Bytes} (short : der.length ≤ 48) :
    processQuerySection (str "cert=" ++ Base64.encodeUrl der) chain = .ok chain := by
  have size := length_encodeUrl der
  have name : (str "cert=").length = 5 := rfl
  have minimum : MIN_CERT_LEN = 64 := rfl
  have other : startsWith (str "certerr=") (str "cert=" ++ Base64.encodeUrl der) = false := by
    rw [← Bool.not_eq_true, startsWith, List.isPrefixOf_iff_prefix]
    intro starts
    have first := congrArg (List.take 5) (List.prefix_iff_eq_take.mp starts)
    rw [List.take_take, List.take_append_of_le_length (by decide)] at first
    exact absurd first (by decide)
  rw [processQuerySection, if_neg, if_neg (by rw [other]; simp)]
  rintro ⟨long, -⟩
  rw [List.length_append] at long
  omega

theorem length_processQuerySection_err (err : UInt32) (chain : CertChain) :
    ∃ read, processQuerySection (str "certerr=" ++ printErr err) chain = .ok read ∧
      read.length = chain.length := by
  rcases List.eq_nil_or_concat chain with rfl | ⟨before, cert, rfl⟩
  · rw [processQuerySection, if_neg]
    · split
      · exact ⟨_, rfl, rfl⟩
      · exact ⟨_, rfl, rfl⟩
    · rintro ⟨-, starts⟩
      rw [startsWith, List.isPrefixOf_iff_prefix] at starts
      have first := List.prefix_iff_eq_take.mp starts
      rw [List.take_append_of_le_length (by decide)] at first
      exact absurd first (by decide)
  · rw [List.concat_eq_append]
    exact ⟨_, processQuerySection_err err, by simp⟩

/-- The reader finds as many certificates as there are long ones. -/
theorem length_foldlM_chainParts (rest first : CertChain)
    (room : first.length + rest.length ≤ MAX_CERT_DEPTH) :
    ∃ read, (rest.flatMap certParts).foldlM (fun chain part => processQuerySection part chain) first =
        .ok read ∧
      read.length = first.length + rest.countP fun cert => 48 < cert.der.length := by
  induction rest generalizing first with
  | nil => exact ⟨first, rfl, rfl⟩
  | cons cert rest ih =>
      rw [List.length_cons] at room
      by_cases long : 48 < cert.der.length
      · obtain ⟨read, parts, size⟩ := ih (first ++ [cert]) (by simp; omega)
        refine ⟨read, ?_, ?_⟩
        · rw [List.flatMap_cons, List.foldlM_append, foldlM_certParts long (by omega)]
          exact parts
        · rw [size, List.countP_cons_of_pos (by simpa using long), List.length_append,
            List.length_singleton]
          omega
      · have short : cert.der.length ≤ 48 := by omega
        have own : ∃ read, (certParts cert).foldlM
            (fun chain part => processQuerySection part chain) first = .ok read ∧
              read.length = first.length := by
          rw [certParts, List.foldlM_cons, processQuerySection_short short]
          change ∃ read, List.foldlM _ first _ = _ ∧ _
          split
          · obtain ⟨read, found, size⟩ := length_processQuerySection_err cert.err first
            rw [List.foldlM_cons, found]
            exact ⟨read, rfl, size⟩
          · exact ⟨first, rfl, rfl⟩
        obtain ⟨middle, found, same⟩ := own
        obtain ⟨read, parts, size⟩ := ih middle (by omega)
        refine ⟨read, ?_, ?_⟩
        · rw [List.flatMap_cons, List.foldlM_append, found]
          exact parts
        · rw [size, same, List.countP_cons_of_neg (by simpa using short)]

end Query

section Url

variable {query : Bytes}

/-- The markers of a certificate URL. -/
theorem getStringMarkers_about (plain : ∀ c ∈ query, isQueryChar c = true) :
    getStringMarkers (str "about:certificate?" ++ query) false =
      { start := 0, schemeEnd := 5, authority := 6, colonFirst := 6, atSign := 6, colonLast := 6,
        path := 6, query := 17, fragment := 18 + query.length, stop := 18 + query.length,
        schemeType := .other } := by
  let urlS := str "about:certificate?" ++ query
  have size : urlS.length = 18 + query.length := List.length_append
  have scheme : scanScheme urlS false (UrlMarkers.first 0) =
      ⟨6, false, { UrlMarkers.first 0 with schemeEnd := 5 }.startAuthority 6⟩ := rfl
  have authority : scanAuthority urlS false (scanScheme urlS false (UrlMarkers.first 0)) =
      ⟨6, false, { UrlMarkers.first 0 with schemeEnd := 5 }.startAuthority 6⟩ := by
    have starts : startsAuthority urlS false
        ⟨6, false, { UrlMarkers.first 0 with schemeEnd := 5 }.startAuthority 6⟩ = false := rfl
    rw [scheme, scanAuthority, if_neg (by rw [starts]; exact Bool.false_ne_true),
      if_neg fun http => Bool.false_ne_true http.2.2]
  have path : scanPath urlS (scanAuthority urlS false (scanScheme urlS false
      (UrlMarkers.first 0))) = 17 := by
    rw [authority, scanPath, if_pos ⟨by dsimp only; omega, Or.inr ⟨rfl, rfl⟩⟩]
    rfl
  have whole : run (· != chr '#') query = query.length := by
    rw [Nsurl.run, List.takeWhile_eq_self_iff.mpr]
    intro c inside
    have solid := plain c inside
    simp only [isQueryChar, Bool.and_eq_true] at solid
    exact solid.1.1.2
  have fragment : scanQuery urlS 17 = 18 + query.length := by
    rw [scanQuery, if_pos (show byteAt urlS 17 = chr '?' from rfl)]
    exact congrArg (18 + ·) whole
  have stop : endOf urlS = 18 + query.length := by
    have letters : (str "about:certificate?").all (fun b => !isSpace b) = true := by decide
    have solid : ∀ b ∈ urlS.reverse, isSpace b = false := by
      intro b inside
      rcases List.mem_append.mp (List.mem_reverse.mp inside) with first | later
      · simpa using List.all_eq_true.mp letters b first
      · have solid := plain b later
        simp only [isQueryChar, Bool.and_eq_true, Bool.not_eq_true'] at solid
        exact solid.1.2
    have none : run isSpace urlS.reverse = 0 := by
      cases reversed : urlS.reverse with
      | nil => rfl
      | cons b rest =>
          have last := solid b (by rw [reversed]; exact List.mem_cons_self)
          rw [Nsurl.run, List.takeWhile_cons_of_neg (by simp [last])]
          rfl
    rw [endOf, none, size, Nat.sub_zero]
  have start : run isSpace urlS = 0 := rfl
  have nonempty : ¬ 0 = urlS.length := by omega
  change getStringMarkers urlS false = _
  rw [getStringMarkers, start, if_neg nonempty]
  simp only [path, fragment, stop]
  rw [authority, if_neg (by omega)]
  rfl

/-- These are the components of a certificate URL. -/
def aboutComponents (query : Bytes) : NsurlComponents :=
  { scheme := some (str "about"), path := some (str "certificate"), query := some query }

theorem createComponents_about (junk : Buff) (filled : query ≠ [])
    (plain : ∀ c ∈ query, isQueryChar c = true) :
    createComponents junk (str "about:certificate?" ++ query) = .ok (aboutComponents query) := by
  let urlS := str "about:certificate?" ++ query
  have size : urlS.length = 18 + query.length := List.length_append
  obtain ⟨m, found⟩ : ∃ m, getStringMarkers urlS false = m := ⟨_, rfl⟩
  have markers := getStringMarkers_about plain
  change getStringMarkers urlS false = _ at markers
  have scheme : createScheme urlS m junk { schemeType := m.schemeType } =
      ({ scheme := some (str "about") }, writeNorm junk (str "about")) := by
    rw [← found, markers]
    rfl
  have credentials {buff : Buff} : createCredentials urlS m buff { scheme := some (str "about") } =
      .ok ({ scheme := some (str "about") }, writeNorm buff []) := by
    have none : slice urlS m.authority m.atSign = [] := by
      rw [← found, markers]
      exact slice_eq_nil (Nat.le_refl _)
    rw [createCredentials, none]
    rfl
  have hostless {buff : Buff} : createHost urlS m buff { scheme := some (str "about") } =
      .ok { scheme := some (str "about") } := by
    have none : slice urlS (hostStart urlS m) m.path = [] := by
      rw [← found, markers]
      exact slice_eq_nil (Nat.le_refl _)
    rw [createHost, none]
    rfl
  have path : slice urlS m.path m.query = str "certificate" := by
    rw [← found, markers]
    rfl
  have asked (c : NsurlComponents) : createQuery urlS m c = { c with query := some query } := by
    have text : slice urlS 18 (18 + query.length) = query := by
      rw [slice, ← size, List.take_length]
      rfl
    rw [createQuery, ← found, markers]
    dsimp only
    rw [if_neg (not_not.mpr (show byteAt urlS 17 = chr '?' from rfl)), text,
      normalise_queryChars plain, if_pos filled]
  have fragment (c : NsurlComponents) : createFragment urlS m c = { c with fragment := none } := by
    have no_byte : byteAt urlS (18 + query.length) = 0 := by
      rw [byteAt, List.getD_eq_getElem?_getD, List.getElem?_eq_none (Nat.le_of_eq size)]
      rfl
    rw [createFragment, ← found, markers]
    dsimp only
    rw [no_byte, if_pos (show (0 : Byte) ≠ chr '#' by decide), slice_eq_nil (Nat.le_refl _)]
    rfl
  change createComponents junk urlS = _
  rw [createComponents, found]
  simp only [scheme, credentials, path, asked, fragment]
  change Except.bind (.ok _) _ = _
  simp only [Except.bind, hostless]
  rfl

/-- A certificate URL keeps its query. -/
theorem nsurlCreate_about (junk : Buff) (filled : query ≠ [])
    (plain : ∀ c ∈ query, isQueryChar c = true) :
    ∃ url, nsurlCreate junk (str "about:certificate?" ++ query) = .ok url ∧
      Nsurl.get url QUERY = .ok (query, query.length) := by
  have solid : 0 ∉ str "about:certificate?" ++ query := by
    intro inside
    rcases List.mem_append.mp inside with first | later
    · exact absurd first (by decide)
    · exact absurd (plain 0 later) (by decide)
  have built : build (aboutComponents query) =
      .ok (derive (aboutComponents query) (serialised (aboutComponents query))
        (serialised (aboutComponents query)).length) := by
    rw [build, componentsToString_withFragment _ rfl]
    rfl
  refine ⟨derive (aboutComponents query) (serialised (aboutComponents query))
    (serialised (aboutComponents query)).length, ?_, ?_⟩
  · rw [nsurlCreate, cstr_of_solid solid, createComponents_about junk filled plain]
    have web : needsHost (aboutComponents query) = false := rfl
    change (if needsHost (aboutComponents query) = true ∧ (aboutComponents query).host = none then
      .error .badUrl else build (aboutComponents query)) = _
    rw [if_neg fun needs => Bool.false_ne_true (web.symm.trans needs.1)]
    exact built
  · have flags : getStringFlags (aboutComponents query) QUERY =
        { scheme := false, schemePunctuation := false, authorityPunctuation := false
          username := false, password := false, credentialsPunctuation := false
          host := false, port := false, path := false, queryPunctuation := false
          query := true, fragmentPunctuation := false, fragment := false } := rfl
    have long : query.length ≠ 0 := fun empty => filled (List.length_eq_zero_iff.mp empty)
    rw [Nsurl.get, derive, componentsToString, flags]
    simp [getStringLength, getString, pieceLength, piece, aboutComponents, long]

end Url

/-- A chain becomes a URL that fits in its buffer. It comes back from the query exactly when each
certificate has more than 48 bytes. -/
theorem certChainFromQuery_certChainToQuery (junk : Buff) {chain : CertChain} (filled : chain ≠ [])
    (room : chain.length ≤ MAX_CERT_DEPTH) :
    ∃ urlstr url, chainText chain = .ok urlstr ∧ urlstr.length < queryAllocSize chain ∧
      certChainToQuery junk chain = .ok url ∧
      (certChainFromQuery url = .ok chain ↔ ∀ cert ∈ chain, 48 < cert.der.length) := by
  obtain ⟨text, fits⟩ := chainText_eq chain
  have plain := isQueryChar_chainQuery filled
  have marked : (str "about:certificate" ++ chain.flatMap certText).set 17 (chr '?') =
      str "about:certificate?" ++ chainQuery chain := by
    rw [← cons_chainQuery filled]
    rfl
  have nonempty : chainQuery chain ≠ [] := by
    intro empty
    have whole := congrArg List.length (cons_chainQuery filled)
    cases chain with
    | nil => exact filled rfl
    | cons cert rest =>
        rw [empty] at whole
        simp [certText, certParts, str] at whole
  obtain ⟨url, created, query⟩ := nsurlCreate_about junk nonempty plain
  refine ⟨_, url, text, fits, ?_, ?_⟩
  · rw [certChainToQuery, text]
    dsimp only [bind, Except.bind]
    rw [marked, created]
  · constructor
    · intro read
      obtain ⟨found, parts, size⟩ := length_foldlM_chainParts chain [] (by simpa using room)
      rw [certChainFromQuery, query] at read
      dsimp only at read
      split at read
      · cases read
      · rw [splitOn_chainQuery filled, parts] at read
        change (if found.length = 0 then _ else _) = _ at read
        split at read
        · cases read
        · cases read
          have all := size.symm
          rw [List.length_nil, Nat.zero_add, List.countP_eq_length] at all
          simpa using all
    · intro long
      have minimum := length_chainQuery_ge filled long
      rw [certChainFromQuery, query]
      dsimp only
      rw [if_neg (by omega), splitOn_chainQuery filled,
        foldlM_chainParts [] long (by simpa using room)]
      change (if ([] ++ chain).length = 0 then _ else _) = _
      rw [List.nil_append, if_neg fun empty => filled (List.length_eq_zero_iff.mp empty)]

/-- A long certificate without a fault and a short one that signs itself. -/
theorem certChainFromQuery_short : ∃ urlstr url,
    chainText [⟨0, List.replicate 49 7⟩, ⟨6, [1, 2, 3]⟩] = .ok urlstr ∧
      urlstr.length < queryAllocSize [⟨0, List.replicate 49 7⟩, ⟨6, [1, 2, 3]⟩] ∧
      certChainToQuery (fun _ => 0) [⟨0, List.replicate 49 7⟩, ⟨6, [1, 2, 3]⟩] = .ok url ∧
      (certChainFromQuery url = .ok [⟨0, List.replicate 49 7⟩, ⟨6, [1, 2, 3]⟩] ↔
        ∀ cert ∈ [Cert.mk 0 (List.replicate 49 7), Cert.mk 6 [1, 2, 3]], 48 < cert.der.length) :=
  certChainFromQuery_certChainToQuery (fun _ => 0) (List.cons_ne_nil _ _) (by decide)

end Neosurf.SslCerts
