/-
This file proves what `cstr` leaves of a text that holds a NUL or none, that an escape needs two
digits, and what the reading and printing functions of `stdio.h` do.
-/

import Mathlib.Data.List.TakeWhile
import Neosurf.Construction.Bytes
import Neosurf.Construction.Llcache.Metadata

namespace Neosurf

variable {text more : Bytes}

/-- A text without a NUL is a whole C string. -/
theorem cstr_of_solid (solid : 0 ∉ text) : cstr text = text := by
  rw [cstr, List.takeWhile_eq_self_iff]
  intro c inside
  rw [decide_eq_true_eq]
  rintro rfl
  exact solid inside

/-- A C string holds no NUL. -/
theorem solid_cstr (text : Bytes) : 0 ∉ cstr text := by
  intro inside
  simpa using List.mem_takeWhile_imp inside

/-- The C string runs on behind a text without a NUL. -/
theorem cstr_append_of_solid (solid : 0 ∉ text) (more : Bytes) :
    cstr (text ++ more) = text ++ cstr more := by
  rw [cstr, List.takeWhile_append_of_pos, ← cstr]
  intro c inside
  rw [decide_eq_true_eq]
  rintro rfl
  exact solid inside

/-- The C string ends inside a text with a NUL. -/
theorem cstr_append_of_broken (broken : 0 ∈ text) (more : Bytes) :
    cstr (text ++ more) = cstr text := by
  rw [cstr, List.takeWhile_append, if_neg, ← cstr]
  intro whole
  have same := (List.takeWhile_prefix (fun c : Byte => decide (c ≠ 0))).eq_of_length whole
  have solid := solid_cstr text
  rw [cstr, same] at solid
  exact solid broken

/-- A character that is no digit makes no value. -/
theorem hexToValue2Chars_of_none {c : Byte} (noDigit : hexToValue c = none) (d : Byte) :
    hexToValue2Chars c d = none ∧ hexToValue2Chars d c = none := by
  constructor
  · rw [hexToValue2Chars, noDigit]
  · rw [hexToValue2Chars, noDigit]
    cases hexToValue d <;> rfl

end Neosurf

namespace Neosurf

/-- A text stays on one line and has no NUL. -/
def Unbroken (text : Bytes) : Prop := ∀ c ∈ text, c ≠ LF ∧ c ≠ 0

instance (text : Bytes) : Decidable (Unbroken text) :=
  List.decidableBAll (fun c => c ≠ LF ∧ c ≠ 0) text

theorem cstr_of_unbroken {text : Bytes} (plain : Unbroken text) : cstr text = text := by
  rw [cstr, List.takeWhile_eq_self_iff]
  intro c inside
  simpa using (plain c inside).2

theorem unbroken_append {a b : Bytes} : Unbroken (a ++ b) ↔ Unbroken a ∧ Unbroken b := by
  simp only [Unbroken, List.forall_mem_append]

theorem splitLine_line {size : Nat} {text rest : Bytes} (plain : Unbroken text)
    (fits : text.length < size) :
    splitLine size (text ++ LF :: rest) = (text ++ [LF], rest) := by
  induction text generalizing size with
  | nil =>
      cases size with
      | zero => simp at fits
      | succ size => simp [splitLine]
  | cons c text ih =>
      cases size with
      | zero => simp at fits
      | succ size =>
          have short : text.length < size := by simpa using fits
          rw [List.cons_append, splitLine, if_neg (plain c List.mem_cons_self).1,
            ih (fun d inside => plain d (List.mem_cons_of_mem c inside)) short]
          rfl

/-- A line that fits in the buffer is read as a whole. -/
theorem fgets_line {size : Nat} {text rest : Bytes} (plain : Unbroken text)
    (fits : text.length + 1 < size) :
    fgets size (text ++ LF :: rest) = some (text ++ [LF], rest) := by
  rw [fgets, if_neg (by simp), splitLine_line plain (by omega)]

theorem cstr_line {text : Bytes} (plain : Unbroken text) : cstr (text ++ [LF]) = text ++ [LF] := by
  rw [cstr, List.takeWhile_eq_self_iff]
  intro c inside
  rcases List.mem_append.mp inside with own | last
  · simpa using (plain c own).2
  · rw [List.mem_singleton.mp last]
    decide

theorem chomp_line {text : Bytes} (plain : Unbroken text) : chomp (text ++ [LF]) = text := by
  rw [chomp, cstr_line plain, List.dropLast_concat]

theorem str_toString (n : Nat) : str (toString n) = (Nat.toDigits 10 n).map chr := by
  rw [str, Nat.toString_eq_ofList_toDigits, String.toList_ofList]

/-- A digit is printed as the byte of its value. -/
theorem digitChar_spec {n : Nat} (small : n < 10) :
    isDigit (chr n.digitChar) = true ∧ (chr n.digitChar - chr '0').toNat = n := by
  revert n
  decide

theorem exists_digitChar {n : Nat} {c : Char} (inside : c ∈ Nat.toDigits 10 n) :
    ∃ d < 10, c = d.digitChar := by
  have digit := Nat.isDigit_of_mem_toDigits (by omega) (by omega) inside
  rw [Char.isDigit, Bool.and_eq_true, decide_eq_true_iff, decide_eq_true_iff] at digit
  have low : 48 ≤ c.toNat := digit.1
  have high : c.toNat ≤ 57 := digit.2
  refine ⟨c.toNat - 48, by omega, Char.toNat_inj.mp ?_⟩
  rw [Nat.toNat_digitChar_of_lt_ten (by omega)]
  omega

theorem isDigit_of_mem {n : Nat} {c : Byte} (inside : c ∈ str (toString n)) : isDigit c = true := by
  rw [str_toString] at inside
  obtain ⟨d, stored, rfl⟩ := List.mem_map.mp inside
  obtain ⟨value, small, rfl⟩ := exists_digitChar stored
  exact (digitChar_spec small).1

/-- The digits of a number have its value. -/
theorem foldl_str_toString (n : Nat) :
    (str (toString n)).foldl (fun value c => 10 * value + (c - chr '0').toNat) 0 = n := by
  have along (digits : List Char) (all : ∀ c ∈ digits, ∃ d < 10, c = Nat.digitChar d)
      (value : Nat) : (digits.map chr).foldl (fun value c => 10 * value + (c - chr '0').toNat) value =
        Nat.ofDigitChars 10 digits value := by
    induction digits generalizing value with
    | nil => rfl
    | cons c digits ih =>
        obtain ⟨d, small, rfl⟩ := all c List.mem_cons_self
        rw [List.map_cons, List.foldl_cons, (digitChar_spec small).2,
          ih fun c inside => all c (List.mem_cons_of_mem _ inside),
          Nat.ofDigitChars_cons_digitChar_of_lt_ten small]
  rw [str_toString, along _ (fun c => exists_digitChar), Nat.ofDigitChars_ten_toDigits]

theorem str_toString_ne_nil (n : Nat) : str (toString n) ≠ [] := by
  rw [str_toString, ne_eq, List.map_eq_nil_iff]
  exact Nat.toDigits_ne_nil

/-- The digits of a number end before any other character. -/
theorem takeWhile_str_toString (n : Nat) {rest : Bytes}
    (ends : ∀ c, rest.head? = some c → isDigit c = false) :
    (str (toString n) ++ rest).takeWhile isDigit = str (toString n) := by
  rw [List.takeWhile_append_of_pos fun c => isDigit_of_mem]
  cases rest with
  | nil => simp
  | cons c rest => rw [List.takeWhile_cons_of_neg (by simpa using ends c rfl), List.append_nil]

/-- A digit is no space and no sign. -/
theorem of_isDigit {c : Byte} (digit : isDigit c = true) :
    isSpace c = false ∧ c ≠ chr '-' ∧ c ≠ chr '+' ∧ c ≠ LF ∧ c ≠ 0 ∧ c ≠ chr ' ' := by
  have all : ∀ c : Byte, isDigit c = true → isSpace c = false ∧ c ≠ chr '-' ∧ c ≠ chr '+' ∧ c ≠ LF ∧
      c ≠ 0 ∧ c ≠ chr ' ' := by
    apply byte_cases
    decide
  exact all c digit

theorem exists_head_str_toString (n : Nat) :
    ∃ c digits, str (toString n) = c :: digits ∧ isDigit c = true := by
  cases digits : str (toString n) with
  | nil => exact absurd digits (str_toString_ne_nil n)
  | cons c rest =>
      refine ⟨c, rest, rfl, ?_⟩
      apply isDigit_of_mem (n := n)
      rw [digits]
      exact List.mem_cons_self

theorem toInt32_eq {value : Int} (low : -2 ^ 31 ≤ value) (high : value < 2 ^ 31) :
    toInt32 value = value := by
  unfold toInt32
  omega

theorem atoi_of_digit {c : Byte} {rest : Bytes} (digit : isDigit c = true) :
    atoi (c :: rest) = toInt32 (min ((((c :: rest).takeWhile isDigit).foldl
      (fun value c => 10 * value + (c - chr '0').toNat) 0 : Nat) : Int) (2 ^ 63 - 1)) := by
  obtain ⟨space, minus, plus, _⟩ := of_isDigit digit
  unfold atoi
  simp [space, minus, plus]

/-- A printed number is read again. -/
theorem atoi_printInt {value : Int} {rest : Bytes} (low : -2 ^ 31 ≤ value) (high : value < 2 ^ 31)
    (ends : ∀ c, rest.head? = some c → isDigit c = false) : atoi (printInt value ++ rest) = value := by
  unfold printInt
  by_cases negative : value < 0
  · have start : (str "-" ++ str (toString value.natAbs) ++ rest).dropWhile isSpace =
        chr '-' :: (str (toString value.natAbs) ++ rest) := rfl
    rw [if_pos negative, atoi]
    simp only [start, BEq.rfl, Bool.true_or, if_true, takeWhile_str_toString _ ends,
      foldl_str_toString, List.head?_cons]
    rw [toInt32_eq] <;> omega
  · obtain ⟨c, digits, split, digit⟩ := exists_head_str_toString value.natAbs
    have run := takeWhile_str_toString value.natAbs ends
    have size := foldl_str_toString value.natAbs
    rw [split, List.cons_append] at run
    rw [split] at size
    rw [if_neg negative, split, List.cons_append, atoi_of_digit digit, run, size, toInt32_eq] <;> omega

/-- A printed time is read again, up to the end of the calendar. -/
theorem snptimet_printInt {time : Int} {rest : Bytes} (start : 0 ≤ time)
    (calendar : time ≤ Llcache.LAST_SECOND)
    (ends : ∀ c, rest.head? = some c → isDigit c = false) :
    Llcache.snptimet (printInt time ++ rest) = .ok time := by
  have later : ¬ time < 0 := by omega
  have early : ¬ Llcache.LAST_SECOND < time.natAbs := by omega
  rw [printInt, if_neg later, Llcache.snptimet, takeWhile_str_toString _ ends, foldl_str_toString,
    if_neg (by simp only [str_toString_ne_nil, early, or_self, not_false_eq_true])]
  congr
  omega

theorem unbroken_printInt (value : Int) : Unbroken (printInt value) := by
  have digits (n : Nat) : Unbroken (str (toString n)) := by
    intro c inside
    obtain ⟨_, _, _, line, nul, _⟩ := of_isDigit (isDigit_of_mem inside)
    exact ⟨line, nul⟩
  unfold printInt
  split
  · exact unbroken_append.mpr ⟨by decide, digits _⟩
  · exact digits _

theorem space_not_mem_printInt (value : Int) : chr ' ' ∉ printInt value := by
  have digits (n : Nat) : chr ' ' ∉ str (toString n) := by
    intro inside
    obtain ⟨_, _, _, _, _, space⟩ := of_isDigit (isDigit_of_mem inside)
    exact space rfl
  unfold printInt
  split
  · rw [List.mem_append]
    rintro (minus | inside)
    · exact absurd minus (by decide)
    · exact digits _ inside
  · exact digits _

theorem length_str_toString_le {n size : Nat} (positive : 0 < size) (bound : n < 10 ^ size) :
    (str (toString n)).length ≤ size := by
  rw [str_toString, List.length_map, Nat.length_toDigits_le_iff (by omega) positive]
  exact bound

theorem length_printInt_nat_le {n size : Nat} (positive : 0 < size) (bound : n < 10 ^ size) :
    (printInt n).length ≤ size := by
  have natural : ¬ (n : Int) < 0 := by omega
  rw [printInt, if_neg natural, Int.natAbs_natCast]
  exact length_str_toString_le positive bound

/-- The length of a printed number is bounded by the power of ten above it. -/
theorem length_printInt_le {value : Int} {size : Nat} (positive : 0 < size)
    (bound : value.natAbs < 10 ^ size) : (printInt value).length ≤ size + 1 := by
  have digits := length_str_toString_le positive bound
  unfold printInt
  split
  · rw [List.length_append]
    have minus : (str "-").length = 1 := rfl
    omega
  · omega

end Neosurf
