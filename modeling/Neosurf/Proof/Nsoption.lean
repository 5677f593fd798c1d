/-
This file proves that a written option table is read again.
-/

import Mathlib.Data.List.Forall2
import Mathlib.Tactic.SplitIfs
import Neosurf.Construction.Nsoption
import Neosurf.Proof.Bytes
import Neosurf.Proof.Urldb.HostTree

namespace Neosurf

section Digits

variable {base n : Nat}

theorem exists_digit (wide : 1 < base) {c : Char} (inside : c ∈ Nat.toDigits base n) :
    ∃ d < base, c = d.digitChar := by
  induction n using Nat.strongRecOn with
  | ind n ih =>
      rw [Nat.toDigits_eq_if wide] at inside
      split at inside
      · rename_i small
        exact ⟨n, small, List.mem_singleton.mp inside⟩
      · rename_i large
        rcases List.mem_append.mp inside with earlier | last
        · exact ih (n / base) (Nat.div_lt_self (by omega) wide) earlier
        · exact ⟨n % base, Nat.mod_lt n (by omega), List.mem_singleton.mp last⟩

/-- The first digit of a positive number is not zero. -/
theorem head_toDigits (wide : 1 < base) (positive : 0 < n) :
    (Nat.toDigits base n).head? ≠ some '0' := by
  induction n using Nat.strongRecOn with
  | ind n ih =>
      rw [Nat.toDigits_eq_if wide]
      split
      · rw [List.head?_cons, ne_eq, Option.some_inj, Nat.digitChar_eq_zero]
        omega
      · rename_i large
        rw [List.head?_append_of_ne_nil _ Nat.toDigits_ne_nil]
        exact ih (n / base) (Nat.div_lt_self positive wide)
          (Nat.div_pos (Nat.le_of_not_lt large) (by omega))

theorem hexToValue_digitChar {d : Nat} (small : d < 16) :
    (hexToValue (chr d.digitChar)).map UInt8.toNat = some d := by
  revert d
  decide

theorem isDigitOf_digitChar {d : Nat} (small : d < base) (narrow : base ≤ 16) :
    isDigitOf base (chr d.digitChar) = true := by
  have value := hexToValue_digitChar (show d < 16 by omega)
  rw [Option.map_eq_some_iff] at value
  obtain ⟨v, found, rfl⟩ := value
  rw [isDigitOf, found, Option.any_some, decide_eq_true_iff]
  exact small

/-- The digits of a number have its value in their base. -/
theorem foldl_toDigits (wide : 1 < base) (narrow : base ≤ 16) (n : Nat) :
    ((Nat.toDigits base n).map chr).foldl
      (fun value c => base * value + ((hexToValue c).getD 0).toNat) 0 = n := by
  have last {d : Nat} (small : d < base) : ((hexToValue (chr d.digitChar)).getD 0).toNat = d := by
    have value := hexToValue_digitChar (show d < 16 by omega)
    rw [Option.map_eq_some_iff] at value
    obtain ⟨v, found, rfl⟩ := value
    rw [found, Option.getD_some]
  induction n using Nat.strongRecOn with
  | ind n ih =>
      rw [Nat.toDigits_eq_if wide]
      split
      · rename_i small
        rw [List.map_cons, List.map_nil, List.foldl_cons, List.foldl_nil, last small]
        omega
      · rename_i large
        have smaller : n / base < n := Nat.div_lt_self (by omega) wide
        rw [List.map_append, List.foldl_append, ih _ smaller, List.map_cons, List.map_nil,
          List.foldl_cons, List.foldl_nil, last (Nat.mod_lt n (by omega)), Nat.div_add_mod]

/-- All digits are read when the text holds no other character. -/
theorem readDigits_of_all {text : Bytes} (all : ∀ c ∈ text, isDigitOf base c = true) :
    readDigits base text =
      text.foldl (fun value c => base * value + ((hexToValue c).getD 0).toNat) 0 := by
  rw [readDigits, List.takeWhile_eq_self_iff.mpr all]

set_option maxRecDepth 4000 in
/-- A hexadecimal digit is no space, no sign and no letter of a prefix. -/
theorem of_isDigitOf {c : Byte} (digit : isDigitOf 16 c = true) :
    isSpace c = false ∧ c ≠ chr '-' ∧ c ≠ chr '+' ∧ c ≠ chr 'x' ∧ c ≠ chr 'X' ∧ c ≠ LF ∧ c ≠ 0 := by
  revert c
  apply byte_cases
  decide

/-- A digit starts a number without a sign. -/
theorem splitSign_of_digit {c : Byte} {rest : Bytes} (digit : isDigitOf 16 c = true) :
    splitSign ((c :: rest).dropWhile isSpace) = (false, c :: rest) := by
  obtain ⟨space, minus, plus, _⟩ := of_isDigitOf digit
  rw [List.dropWhile_cons_of_neg (by simp [space]), splitSign, if_neg minus, if_neg plus]

theorem unsignedLong_of_small {size : Nat} (small : size < 2 ^ 64) :
    unsignedLong false size = size := by
  rw [unsignedLong, if_neg (by omega), if_neg Bool.false_ne_true]

/-- The digits of a number are digits in its base. -/
theorem isDigitOf_of_mem (wide : 1 < base) (narrow : base ≤ 16) {c : Byte}
    (inside : c ∈ (Nat.toDigits base n).map chr) : isDigitOf base c = true := by
  obtain ⟨d, stored, rfl⟩ := List.mem_map.mp inside
  obtain ⟨value, small, rfl⟩ := exists_digit wide stored
  exact isDigitOf_digitChar small narrow

theorem readDigits_toDigits (wide : 1 < base) (narrow : base ≤ 16) (n : Nat) :
    readDigits base ((Nat.toDigits base n).map chr) = n := by
  rw [readDigits_of_all fun c => isDigitOf_of_mem wide narrow, foldl_toDigits wide narrow]

/-- A printed unsigned number is read again. -/
theorem strtoul_toString (small : n < 2 ^ 64) : strtoul (str (toString n)) = n := by
  rw [str_toString]
  cases n with
  | zero => decide
  | succ n =>
      have whole : readDigits 10 ((Nat.toDigits 10 (n + 1)).map chr) = n + 1 :=
        readDigits_toDigits (by decide) (by decide) (n + 1)
      have first : (Nat.toDigits 10 (n + 1)).head? ≠ some '0' :=
        head_toDigits (by decide) (by omega)
      cases digits : Nat.toDigits 10 (n + 1) with
      | nil => exact absurd digits Nat.toDigits_ne_nil
      | cons c rest =>
          have inside : c ∈ Nat.toDigits 10 (n + 1) := by rw [digits]; exact List.mem_cons_self
          obtain ⟨d, low, rfl⟩ := exists_digit (by decide) inside
          have digit : isDigitOf 16 (chr d.digitChar) = true :=
            isDigitOf_digitChar (by omega) (le_refl 16)
          have decimal : chr d.digitChar ≠ chr '0' := by
            rw [digits, List.head?_cons, ne_eq, Option.some_inj, Nat.digitChar_eq_zero] at first
            have apart : ∀ d < 10, d ≠ 0 → chr d.digitChar ≠ chr '0' := by decide
            exact apart d low first
          rw [digits, List.map_cons] at whole
          rw [List.map_cons, strtoul, splitSign_of_digit digit]
          simp only [splitBase, if_neg decimal]
          rw [whole, unsignedLong_of_small small]

/-- The hexadecimal digits of a small number are filled up to six. -/
theorem printHex6_spec (small : n < 16 ^ 6) :
    (printHex6 n).length = 6 ∧ (∀ c ∈ printHex6 n, isDigitOf 16 c = true) ∧
      readDigits 16 (printHex6 n) = n := by
  have size : (Nat.toDigits 16 n).length ≤ 6 :=
    (Nat.length_toDigits_le_iff (by decide) (by decide)).mpr small
  have split : printHex6 n =
      List.replicate (6 - (Nat.toDigits 16 n).length) (chr '0') ++ (Nat.toDigits 16 n).map chr := by
    rw [printHex6, List.leftpad, List.map_append, List.map_replicate]
  have all : ∀ c ∈ printHex6 n, isDigitOf 16 c = true := by
    intro c inside
    rw [split] at inside
    rcases List.mem_append.mp inside with filled | inside
    · rw [List.eq_of_mem_replicate filled]
      decide
    · exact isDigitOf_of_mem (by decide) (le_refl 16) inside
  refine ⟨?_, all, ?_⟩
  · rw [split, List.length_append, List.length_replicate, List.length_map]
    omega
  · have zeros (k : Nat) : (List.replicate k (chr '0')).foldl
        (fun value c => 16 * value + ((hexToValue c).getD 0).toNat) 0 = 0 := by
      induction k with
      | zero => rfl
      | succ k ih => exact ih
    rw [readDigits_of_all all, split, List.foldl_append, zeros,
      foldl_toDigits (by decide) (le_refl 16)]

/-- Six printed digits are read again. -/
theorem sscanfHex_printHex6 (small : n < 16 ^ 6) : sscanfHex (printHex6 n) = some n.toUInt32 := by
  obtain ⟨size, all, value⟩ := printHex6_spec small
  cases digits : printHex6 n with
  | nil =>
      rw [digits] at size
      cases size
  | cons c rest =>
      rw [digits] at all value
      have first : isDigitOf 16 c = true := all c List.mem_cons_self
      have unprefixed : skipHexPrefix (c :: rest) = c :: rest := by
        cases rest with
        | nil => rfl
        | cons x rest =>
            obtain ⟨_, _, _, lower, upper, _⟩ := of_isDigitOf
              (all x (List.mem_cons_of_mem c List.mem_cons_self))
            rw [skipHexPrefix, if_neg (by simp only [lower, upper, or_self, and_false,
              not_false_eq_true])]
      have some_read : ¬ (c :: rest).takeWhile (isDigitOf 16) = [] := by
        rw [List.takeWhile_eq_self_iff.mpr all]
        exact List.cons_ne_nil c rest
      rw [sscanfHex, splitSign_of_digit first]
      simp only [unprefixed, if_neg some_read, value]
      rw [unsignedLong_of_small (by omega)]

end Digits

namespace Nsoption

/-- This is where each bit of a swapped colour comes from. -/
theorem testBit_rbSwap (c : UInt32) (i : Nat) :
    (rbSwap c).toNat.testBit i =
      if i < 8 then c.toNat.testBit (i + 16)
      else if i < 16 then c.toNat.testBit i
      else if i < 24 then c.toNat.testBit (i - 16)
      else false := by
  have blue : (0x000000FF : UInt32).toNat = 2 ^ 8 - 1 := rfl
  have green : (0x0000FF00 : UInt32).toNat = (2 ^ 8 - 1) <<< 8 := rfl
  have red : (0x00FF0000 : UInt32).toNat = (2 ^ 8 - 1) <<< 16 := rfl
  have none : (0 : UInt32).toNat % 32 = 0 := rfl
  have sixteen : (16 : UInt32).toNat % 32 = 16 := rfl
  rw [rbSwap]
  simp only [UInt32.toNat_or, UInt32.toNat_and, UInt32.toNat_shiftLeft, UInt32.toNat_shiftRight,
    blue, green, red, none, sixteen, Nat.testBit_or, Nat.testBit_and, Nat.testBit_mod_two_pow,
    Nat.testBit_shiftLeft, Nat.testBit_shiftRight, Nat.testBit_two_pow_sub_one]
  split_ifs with first second third
  · simp [first, show ¬ 16 ≤ i by omega, Nat.add_comm]
  · simp [show i < 32 by omega, show 8 ≤ i by omega, show i - 8 < 8 by omega,
      show ¬ 16 ≤ i by omega]
  · simp [show i < 32 by omega, show 16 ≤ i by omega, show i - 16 < 8 by omega,
      show ¬ i - 8 < 8 by omega, first]
  · simp [show ¬ i - 16 < 8 by omega, show ¬ i - 8 < 8 by omega, first]

/-- Two swaps only lose the bits above the three colours. -/
theorem rbSwap_rbSwap (c : UInt32) : rbSwap (rbSwap c) = c &&& 0xFFFFFF := by
  have mask : (0xFFFFFF : UInt32).toNat = 2 ^ 24 - 1 := rfl
  apply UInt32.toNat_inj.mp
  apply Nat.eq_of_testBit_eq
  intro i
  rw [UInt32.toNat_and, Nat.testBit_and, mask, Nat.testBit_two_pow_sub_one, testBit_rbSwap]
  split_ifs with first second third
  · rw [testBit_rbSwap, if_neg (by omega), if_neg (by omega), if_pos (by omega), Nat.add_sub_cancel]
    simp [show i < 24 by omega]
  · rw [testBit_rbSwap, if_neg first, if_pos second]
    simp [show i < 24 by omega]
  · rw [testBit_rbSwap, if_pos (by omega), Nat.sub_add_cancel (by omega)]
    simp [third]
  · simp [third]

/-- A swapped colour has six hexadecimal digits. -/
theorem rbSwap_lt (c : UInt32) : (rbSwap c).toNat < 16 ^ 6 := by
  have small : (rbSwap c).toNat < 2 ^ 24 := by
    apply Nat.lt_pow_two_of_testBit
    intro i above
    rw [testBit_rbSwap, if_neg (by omega), if_neg (by omega), if_neg (by omega)]
  exact small

/-- Only the 24 colour bits of a colour are kept. -/
def OptionValue.masked : OptionValue → OptionValue
  | .colour c => .colour (c &&& 0xFFFFFF)
  | value => value

/-- A printed value is read again into a row of its type. -/
theorem strtooption_printValue {value old : OptionValue} (same : value.type = old.type) :
    strtooption (printValue value) old = value.masked := by
  cases value with
  | bool b =>
      cases old <;> try cases same
      cases b <;> rfl
  | integer i =>
      cases old <;> try cases same
      have read : atoi (printInt i.toInt ++ []) = i.toInt :=
        atoi_printInt i.le_toInt i.toInt_lt (by intro c none; cases none)
      rw [List.append_nil] at read
      rw [printValue, strtooption, read, Int32.ofInt_toInt]
      rfl
  | uint u =>
      cases old <;> try cases same
      have small := u.toNat_lt
      rw [printValue, strtooption, strtoul_toString (by omega)]
      simp [OptionValue.masked]
  | colour c =>
      cases old <;> try cases same
      rw [printValue, strtooption, sscanfHex_printHex6 (rbSwap_lt c)]
      simp [OptionValue.masked, rbSwap_rbSwap]
  | string s =>
      cases old <;> try cases same
      cases s with
      | none => rfl
      | some text =>
          obtain ⟨bytes, filled, solid⟩ := text
          have whole : cstr bytes = bytes := cstr_of_solid solid
          simp [printValue, strtooption, OptionText.strdup?, whole, filled, OptionValue.masked]

/-- Only the 24 colour bits of a row's colour are kept. -/
def NsoptionS.masked (o : NsoptionS) : NsoptionS := { o with value := o.value.masked }

/-- A row that counts as unset has the default value. -/
theorem eq_of_not_isSet {value default : OptionValue} (same : value.type = default.type)
    (unset : nsoptionIsSet value default = false) : value = default := by
  cases value <;> cases default <;> try cases same
  case string s d =>
      cases s <;> cases d <;> try cases unset
      · rfl
      · rename_i s d
        have equal : s.bytes = d.bytes := by simpa [nsoptionIsSet, strcmp] using unset
        cases s
        cases d
        cases equal
        rfl
  all_goals simp_all [nsoptionIsSet]

/-- A key is made of letters, digits and underscores, and is not long. -/
def isPlainKey (key : Bytes) : Bool :=
  !key.isEmpty && key.all (fun c => isAlphanumerical c || c == chr '_') && key.length ≤ 32

/-- The number whose digits are the characters of a key without their case. -/
def keyCode (key : Bytes) : Nat := (folded key).foldl (fun code c => 256 * code + c.toNat) 1

theorem keys_spec (frontend : Frontend) :
    ((defaults frontend).map NsoptionS.key).all isPlainKey = true ∧
      ((defaults frontend).map fun o => keyCode o.key).Nodup := by
  cases frontend <;> decide

set_option maxRecDepth 4000 in
/-- A character of a plain key starts no line and ends no key. -/
theorem of_keyChar {c : Byte} (inside : (isAlphanumerical c || c == chr '_') = true) :
    isBlank c = false ∧ c ≠ chr '#' ∧ c ≠ chr ':' ∧ c ≠ LF ∧ c ≠ 0 := by
  revert c
  apply byte_cases
  decide

section Lines

variable {o : NsoptionS}

theorem keyChar_of_mem (plain : isPlainKey o.key = true) {c : Byte} (inside : c ∈ o.key) :
    isBlank c = false ∧ c ≠ chr '#' ∧ c ≠ chr ':' ∧ c ≠ LF ∧ c ≠ 0 := by
  simp only [isPlainKey, Bool.and_eq_true, List.all_eq_true] at plain
  exact of_keyChar (plain.1.2 c inside)

/-- The key and the value of a printed line are found again. -/
theorem getKeyValue_printLine (plain : isPlainKey o.key = true) :
    getKeyValue (printLine o) = .ok (o.key, printValue o.value) := by
  have unbroken : ∀ c ∈ o.key, decide (c ≠ chr ':') = true := by
    intro c inside
    rw [decide_eq_true_iff]
    exact (keyChar_of_mem plain inside).2.2.1
  have line : printLine o = o.key ++ chr ':' :: (printValue o.value ++ [LF]) := by
    simp [printLine]
  obtain ⟨c, key, split⟩ : ∃ c key, o.key = c :: key := by
    cases found : o.key with
    | nil => simp [isPlainKey, found] at plain
    | cons c key => exact ⟨c, key, rfl⟩
  have own : c ∈ o.key := by rw [split]; exact List.mem_cons_self
  obtain ⟨blank, comment, _⟩ := keyChar_of_mem plain own
  have start : (printLine o).dropWhile isBlank = printLine o := by
    rw [line, split, List.cons_append, List.dropWhile_cons_of_neg (by simp [blank])]
  have first : (printLine o).head? = some c := by
    rw [line, split]
    rfl
  have value : ((printLine o).dropWhile (· ≠ chr ':')).tail = printValue o.value ++ [LF] := by
    rw [line, List.dropWhile_append_of_pos unbroken]
    simp
  have key_again : (printLine o).takeWhile (· ≠ chr ':') = o.key := by
    rw [line, List.takeWhile_append_of_pos unbroken]
    simp
  have last : (printLine o).getLast? = some LF := by
    rw [printLine, List.getLast?_concat]
  simp only [getKeyValue, start, first, if_neg comment, value, key_again, last, if_true,
    List.dropLast_concat]
  rw [if_neg (by simp)]

/-- A printed line changes the row of its key. -/
theorem optionline_printLine {before after : List NsoptionS} {d : NsoptionS}
    (plain : isPlainKey o.key = true) (key : o.key = d.key) (type : o.value.type = d.value.type)
    (early : ∀ b ∈ before, folded o.key ≠ folded b.key) :
    (optionline (before ++ d :: after) (printLine o)).2 = before ++ o.masked :: after := by
  have passed : (strcasecmp o.key d.key == .eq) = true := by
    rw [beq_iff_eq, strcasecmp_eq_iff, key]
  have missed : ∀ b ∈ before, (strcasecmp o.key b.key == .eq) = false := by
    intro b inside
    rw [beq_eq_false_iff_ne, ne_eq, strcasecmp_eq_iff]
    exact early b inside
  rw [optionline, getKeyValue_printLine plain]
  simp only
  rw [List.changeFirst_split missed passed, strtooption_printValue type, NsoptionS.masked, key]

/-- The value of an option has no line break and fits on a line with its key. -/
def fitsLine (o : NsoptionS) : Bool :=
  match o.value with
  | .string (some text) =>
      !text.bytes.contains LF && o.key.length + text.bytes.length + 2 < NSOPTION_MAX_LINE_LEN
  | _ => true

/-- A printed line is read as a whole. -/
theorem fgets_printLine {rest : Bytes} (plain : isPlainKey o.key = true)
    (fits : fitsLine o = true) :
    fgets NSOPTION_MAX_LINE_LEN (printLine o ++ rest) = some (printLine o, rest) ∧
      cstr (printLine o) = printLine o := by
  have key : Unbroken (o.key ++ [chr ':']) := by
    apply unbroken_append.mpr ⟨fun c inside => ?_, by decide⟩
    obtain ⟨_, _, _, line, nul⟩ := keyChar_of_mem plain inside
    exact ⟨line, nul⟩
  have short : o.key.length ≤ 32 := by
    simp only [isPlainKey, Bool.and_eq_true, decide_eq_true_iff] at plain
    exact plain.2
  have value : Unbroken (printValue o.value) ∧
      o.key.length + (printValue o.value).length + 2 < NSOPTION_MAX_LINE_LEN := by
    rw [NSOPTION_MAX_LINE_LEN]
    cases written : o.value with
    | bool b =>
        have size : (printValue (.bool b)).length = 1 := rfl
        refine ⟨?_, by omega⟩
        cases b <;> decide
    | integer i =>
        have low := i.le_toInt
        have high := i.toInt_lt
        have size : (printValue (.integer i)).length ≤ 10 + 1 :=
          length_printInt_le (by decide) (by omega)
        exact ⟨unbroken_printInt i.toInt, by omega⟩
    | uint u =>
        have small := u.toNat_lt
        have size : (printValue (.uint u)).length ≤ 10 :=
          length_str_toString_le (by decide) (by omega)
        have printed : printInt u.toNat = printValue (.uint u) := by
          rw [printInt, if_neg (by omega)]
          rfl
        exact ⟨printed ▸ unbroken_printInt u.toNat, by omega⟩
    | colour c =>
        obtain ⟨size, digits, _⟩ := printHex6_spec (rbSwap_lt c)
        refine ⟨fun d inside => ?_, by rw [printValue]; omega⟩
        obtain ⟨_, _, _, _, _, line, nul⟩ := of_isDigitOf (digits d inside)
        exact ⟨line, nul⟩
    | string s =>
        cases s with
        | none =>
            refine ⟨fun c inside => (List.not_mem_nil inside).elim, ?_⟩
            rw [printValue, Option.elim_none, List.length_nil]
            omega
        | some text =>
            simp only [fitsLine, written, Bool.and_eq_true, decide_eq_true_iff, Bool.not_eq_true',
              List.contains_eq_mem, decide_eq_false_iff_not] at fits
            refine ⟨fun c inside => ⟨?_, ?_⟩, fits.2⟩
            · rintro rfl
              exact fits.1 inside
            · rintro rfl
              exact text.solid inside
  have unbroken := unbroken_append.mpr ⟨key, value.1⟩
  have size : (o.key ++ [chr ':'] ++ printValue o.value).length + 1 < NSOPTION_MAX_LINE_LEN := by
    simp only [List.length_append, List.length_singleton]
    omega
  refine ⟨?_, cstr_line unbroken⟩
  rw [printLine, List.append_assoc, List.singleton_append, fgets_line unbroken size]

end Lines

/-- The row has the key and the type of the other one. -/
def SameSlot (o d : NsoptionS) : Prop := o.key = d.key ∧ o.value.type = d.value.type

instance (o d : NsoptionS) : Decidable (SameSlot o d) := inferInstanceAs (Decidable (_ ∧ _))

/-- What is read of a row: a colour that was written has lost the bits above its 24. -/
def readBack (o d : NsoptionS) : NsoptionS :=
  if nsoptionIsSet o.value d.value = true then o.masked else o

/-- The lines of a table are read one after the other into the rows of the default table. -/
theorem readLines_nsoptionOutput {opts defs before : List NsoptionS} {fuel : Nat}
    (same : List.Forall₂ SameSlot opts defs) (plain : ∀ o ∈ opts, isPlainKey o.key = true)
    (fits : ∀ o ∈ opts, fitsLine o = true)
    (apart : ((before ++ opts).map fun o => folded o.key).Nodup)
    (enough : (nsoptionOutput opts defs false).length ≤ fuel) :
    readLines fuel (nsoptionOutput opts defs false) (before ++ defs) =
      before ++ opts.zipWith readBack defs := by
  induction same generalizing before fuel with
  | nil =>
      cases fuel with
      | zero => rfl
      | succ fuel => rfl
  | @cons o d opts defs slot _ ih =>
      have plain_rest := fun p inside => plain p (List.mem_cons_of_mem o inside)
      have fits_rest := fun p inside => fits p (List.mem_cons_of_mem o inside)
      by_cases set : nsoptionIsSet o.value d.value = true
      · have out : nsoptionOutput (o :: opts) (d :: defs) false =
            printLine o ++ nsoptionOutput opts defs false := by
          simp [nsoptionOutput, set]
        rw [out] at enough ⊢
        have positive : 0 < (printLine o).length := by
          simp only [printLine, List.length_append, List.length_singleton]
          omega
        rw [List.length_append] at enough
        obtain ⟨fuel, rfl⟩ : ∃ k, fuel = k + 1 := ⟨fuel - 1, by omega⟩
        have own := plain o List.mem_cons_self
        obtain ⟨line, whole⟩ := @fgets_printLine _ (nsoptionOutput opts defs false) own
          (fits o List.mem_cons_self)
        have early : ∀ b ∈ before, folded o.key ≠ folded b.key := by
          intro b inside equal
          rw [List.map_append, List.nodup_append] at apart
          exact apart.2.2 _ (List.mem_map_of_mem inside) _ (by simp) equal.symm
        rw [readLines, line]
        simp only [whole]
        have later := @ih (before ++ [o.masked]) fuel plain_rest fits_rest
          (by simpa [NsoptionS.masked] using apart) (by omega)
        rw [optionline_printLine own slot.1 slot.2 early, List.zipWith_cons_cons, readBack,
          if_pos set]
        simpa using later
      · have value : o.value = d.value := eq_of_not_isSet slot.2 (by simpa using set)
        have row : o = d := by
          cases o
          cases d
          cases slot.1
          cases value
          rfl
        have out : nsoptionOutput (o :: opts) (d :: defs) false =
            nsoptionOutput opts defs false := by
          simp [nsoptionOutput, set]
        rw [out] at enough ⊢
        have later := @ih (before ++ [o]) fuel plain_rest fits_rest (by simpa using apart) enough
        rw [List.zipWith_cons_cons, readBack, if_neg set, ← row]
        simpa using later

section Masks

variable {name : String} {change : OptionValue → OptionValue} {opts defs : List NsoptionS}

/-- A check of another type sees no difference in a colour, and leaves colours alone. -/
structure SparesColours (change : OptionValue → OptionValue) : Prop where
  masked : ∀ value, (change value).masked = change value.masked
  colour : ∀ value c, change value = .colour c ↔ value = .colour c

theorem sparesColours_clampInteger (low high : Int32) : SparesColours (clampInteger low high) :=
  ⟨fun value => by cases value <;> rfl, fun value c => by cases value <;> simp [clampInteger]⟩

theorem sparesColours_atLeastZero : SparesColours atLeastZero :=
  ⟨fun value => by cases value <;> rfl, fun value c => by cases value <;> simp [atLeastZero]⟩

theorem sparesColours_atLeastOne : SparesColours atLeastOne :=
  ⟨fun value => by cases value <;> rfl, fun value c => by cases value <;> simp [atLeastOne]⟩

theorem sparesColours_clampUint (low high : UInt32) : SparesColours (clampUint low high) :=
  ⟨fun value => by cases value <;> rfl, fun value c => by cases value <;> simp [clampUint]⟩

theorem sparesColours_limitRetries (timeout : UInt32) : SparesColours (limitRetries timeout) :=
  ⟨fun value => by cases value <;> rfl, fun value c => by cases value <;> simp [limitRetries]⟩

theorem map_masked_changed (spares : SparesColours change) :
    (opts.map (NsoptionS.changed name change)).map NsoptionS.masked =
      (opts.map NsoptionS.masked).map (NsoptionS.changed name change) := by
  rw [List.map_map, List.map_map]
  apply List.map_congr_left
  intro o _
  rw [Function.comp_apply, Function.comp_apply, NsoptionS.changed, NsoptionS.changed]
  by_cases named : o.key = literal name
  · rw [if_pos named, if_pos (show o.masked.key = literal name from named)]
    simp only [NsoptionS.masked, spares.masked]
  · rw [if_neg named, if_neg (show ¬ o.masked.key = literal name from named)]

theorem isBlack_changed (spares : SparesColours change) :
    isBlack (opts.map (NsoptionS.changed name change)) = isBlack opts := by
  rw [isBlack, isBlack, List.all_map]
  apply List.all_congr rfl
  intro o
  have same : (change o.value == .colour 0) = (o.value == .colour 0) := by
    rw [Bool.eq_iff_iff, beq_iff_eq, beq_iff_eq]
    exact spares.colour o.value 0
  rw [Function.comp_apply, NsoptionS.changed]
  split
  · rw [same]
  · rfl

theorem uintAt_masked : uintAt (opts.map NsoptionS.masked) name = uintAt opts name := by
  rw [uintAt, uintAt, List.find?_map]
  have same : ((fun o : NsoptionS => decide (o.key = literal name)) ∘ NsoptionS.masked) =
      fun o => decide (o.key = literal name) := rfl
  rw [same]
  cases opts.find? fun o => decide (o.key = literal name) with
  | none => rfl
  | some o =>
      obtain ⟨key, value⟩ := o
      cases value <;> rfl

theorem map_masked_clampSizes :
    (clampSizes opts).map NsoptionS.masked = clampSizes (opts.map NsoptionS.masked) := by
  simp only [clampSizes, map_masked_changed (sparesColours_clampInteger _ _),
    map_masked_changed sparesColours_atLeastZero]

theorem isBlack_clampSizes : isBlack (clampSizes opts) = isBlack opts := by
  simp only [clampSizes, isBlack_changed (sparesColours_clampInteger _ _),
    isBlack_changed sparesColours_atLeastZero]

theorem map_masked_limitFetches :
    (limitFetches opts).map NsoptionS.masked = limitFetches (opts.map NsoptionS.masked) := by
  simp only [limitFetches, map_masked_changed (sparesColours_limitRetries _),
    map_masked_changed (sparesColours_clampUint _ _), map_masked_changed sparesColours_atLeastOne]
  rw [← map_masked_changed sparesColours_atLeastOne,
    ← map_masked_changed (sparesColours_clampUint _ _), uintAt_masked]

theorem map_masked_returnColours :
    (returnColours opts defs).map NsoptionS.masked =
      returnColours (opts.map NsoptionS.masked) (defs.map NsoptionS.masked) := by
  rw [returnColours, returnColours, List.map_zipWith, List.zipWith_map]
  congr
  funext o d
  by_cases sys : isSysColour o.key = true
  · rw [if_pos sys, if_pos (show isSysColour o.masked.key = true from sys)]
    rfl
  · rw [if_neg sys, if_neg (show ¬ isSysColour o.masked.key = true from sys)]

/-- The checks of other options do not look at the system colours. -/
theorem returnColours_changed (other : isSysColour (literal name) = false) :
    returnColours (opts.map (NsoptionS.changed name change)) defs =
      (returnColours opts defs).map (NsoptionS.changed name change) := by
  rw [returnColours, returnColours, List.map_zipWith, List.zipWith_map_left]
  congr
  funext o d
  by_cases named : o.key = literal name
  · have plain : ¬ isSysColour o.key = true := by rw [named, other]; exact Bool.false_ne_true
    simp only [NsoptionS.changed, if_pos named, if_neg plain]
  · by_cases sys : isSysColour o.key = true
    · simp only [NsoptionS.changed, if_neg named, if_pos sys]
    · simp only [NsoptionS.changed, if_neg named, if_neg sys]

theorem uintAt_returnColours (other : isSysColour (literal name) = false)
    (size : opts.length = defs.length) :
    uintAt (returnColours opts defs) name = uintAt opts name := by
  have same : (returnColours opts defs).find? (fun o => o.key = literal name) =
      opts.find? fun o => o.key = literal name := by
    induction opts generalizing defs with
    | nil => rfl
    | cons o opts ih =>
        cases defs with
        | nil => cases size
        | cons d defs =>
            have rest := @ih defs (by simpa using size)
            rw [returnColours] at rest ⊢
            rw [List.zipWith_cons_cons, List.find?_cons, List.find?_cons, rest]
            by_cases named : o.key = literal name
            · have plain : ¬ isSysColour o.key = true := by
                rw [named, other]
                exact Bool.false_ne_true
              rw [if_neg plain]
            · by_cases sys : isSysColour o.key = true
              · simp [if_pos sys, named]
              · simp [if_neg sys, named]
  rw [uintAt, uintAt, same]

theorem limitFetches_returnColours (size : opts.length = defs.length) :
    limitFetches (returnColours opts defs) = returnColours (limitFetches opts) defs := by
  have retries : isSysColour (literal "max_retried_fetches") = false := by decide
  have timeout : isSysColour (literal "curl_fetch_timeout") = false := by decide
  simp only [limitFetches, returnColours_changed retries, returnColours_changed timeout]
  rw [← returnColours_changed retries, ← returnColours_changed timeout,
    uintAt_returnColours timeout (by simpa using size)]

/-- Two tables that differ above the colour bits only are checked alike, when both are black or
none is. -/
theorem masked_nsoptionValidate_congr {opts' : List NsoptionS}
    (same : opts.map NsoptionS.masked = opts'.map NsoptionS.masked)
    (black : isBlack opts = isBlack opts') :
    (nsoptionValidate opts (some defs)).map NsoptionS.masked =
      (nsoptionValidate opts' (some defs)).map NsoptionS.masked := by
  simp only [nsoptionValidate, isBlack_clampSizes, black, map_masked_limitFetches]
  split
  · rw [map_masked_returnColours, map_masked_returnColours, map_masked_clampSizes,
      map_masked_clampSizes, same]
  · rw [map_masked_clampSizes, map_masked_clampSizes, same]

/-- A black table gets the default colours, and is else checked like one that is not black. -/
theorem masked_nsoptionValidate_black {opts' : List NsoptionS} (size : opts'.length = defs.length)
    (same : opts.map NsoptionS.masked = opts'.map NsoptionS.masked) (black : isBlack opts = true)
    (shown : isBlack opts' = false) :
    (nsoptionValidate opts (some defs)).map NsoptionS.masked =
      (returnColours (nsoptionValidate opts' (some defs)) defs).map NsoptionS.masked := by
  have sized : (clampSizes opts').length = defs.length := by simpa [clampSizes] using size
  simp only [nsoptionValidate, isBlack_clampSizes, black, shown, if_true, Bool.false_eq_true,
    if_false]
  rw [← limitFetches_returnColours sized, map_masked_limitFetches, map_masked_limitFetches,
    map_masked_returnColours, map_masked_returnColours, map_masked_clampSizes,
    map_masked_clampSizes, same]

end Masks

/-- The table has the rows of the default table, with values of its own. -/
def IsTable (frontend : Frontend) (opts : List NsoptionS) : Prop :=
  List.Forall₂ SameSlot opts (defaults frontend)

/-- Every option has come back, colours up to their 24 colour bits. -/
def Restored (read opts : List NsoptionS) : Prop :=
  read.map NsoptionS.masked = opts.map NsoptionS.masked

section Tables

variable {frontend : Frontend} {opts defs std : List NsoptionS}

theorem IsTable.sameSlot (own : IsTable frontend opts) (other : IsTable frontend defs) :
    List.Forall₂ SameSlot opts defs := by
  have back : List.Forall₂ SameSlot (defaults frontend) defs :=
    other.flip.imp fun o d slot => ⟨slot.1.symm, slot.2.symm⟩
  rw [IsTable] at own
  clear other
  generalize defaults frontend = rows at own back
  induction own generalizing defs with
  | nil => cases back; exact .nil
  | cons slot _ ih =>
      cases back with
      | cons next rest => exact .cons ⟨slot.1.trans next.1, slot.2.trans next.2⟩ (ih rest)

theorem IsTable.map_key (own : IsTable frontend opts) :
    opts.map NsoptionS.key = (defaults frontend).map NsoptionS.key := by
  rw [IsTable] at own
  generalize defaults frontend = rows at own
  induction own with
  | nil => rfl
  | cons slot _ ih => rw [List.map_cons, List.map_cons, slot.1, ih]

/-- The keys of a table are plain, and no two of them are equal without their case. -/
theorem IsTable.keys (own : IsTable frontend opts) :
    (∀ o ∈ opts, isPlainKey o.key = true) ∧ (opts.map fun o => folded o.key).Nodup := by
  obtain ⟨plain, apart⟩ := keys_spec frontend
  rw [← own.map_key, List.all_eq_true] at plain
  have codes : (defaults frontend).map (fun o => keyCode o.key) =
      (opts.map NsoptionS.key).map keyCode := by
    rw [own.map_key, List.map_map]
    rfl
  have folds : (opts.map NsoptionS.key).map keyCode =
      (opts.map fun o => folded o.key).map
        fun key => key.foldl (fun code c => 256 * code + c.toNat) 1 := by
    rw [List.map_map, List.map_map]
    rfl
  rw [codes, folds] at apart
  exact ⟨fun o inside => plain o.key (List.mem_map_of_mem inside), List.Nodup.of_map _ apart⟩

theorem masked_masked (o : NsoptionS) : o.masked.masked = o.masked := by
  obtain ⟨key, value⟩ := o
  cases value with
  | colour c => simp [NsoptionS.masked, OptionValue.masked, UInt32.and_assoc]
  | _ => rfl

theorem masked_readBack (o d : NsoptionS) : (readBack o d).masked = o.masked := by
  rw [readBack]
  split
  · exact masked_masked o
  · rfl

/-- What is read differs from what was written above the colour bits only. -/
theorem map_masked_readBack (same : List.Forall₂ SameSlot opts defs) :
    (opts.zipWith readBack defs).map NsoptionS.masked = opts.map NsoptionS.masked := by
  induction same with
  | nil => rfl
  | cons _ _ ih => rw [List.zipWith_cons_cons, List.map_cons, List.map_cons, masked_readBack, ih]

theorem isBlack_masked (black : isBlack opts = true) :
    isBlack (opts.map NsoptionS.masked) = true := by
  rw [isBlack, List.all_eq_true] at black ⊢
  intro o inside
  obtain ⟨p, stored, rfl⟩ := List.mem_map.mp inside
  have own := black p stored
  rw [Bool.or_eq_true] at own ⊢
  apply own.imp_right
  intro zero
  rw [NsoptionS.masked, eq_of_beq zero]
  rfl

/-- A black table is read as a black one. -/
theorem isBlack_readBack (same : List.Forall₂ SameSlot opts defs) (black : isBlack opts = true) :
    isBlack (opts.zipWith readBack defs) = true := by
  induction same with
  | nil => rfl
  | @cons o d opts defs _ _ ih =>
      rw [isBlack, List.all_cons, Bool.and_eq_true] at black
      rw [List.zipWith_cons_cons, isBlack, List.all_cons, Bool.and_eq_true]
      refine ⟨?_, ih black.2⟩
      have own : isBlack [o] = true := by rw [isBlack, List.all_cons, black.1]; rfl
      have cleared := isBlack_masked own
      rw [readBack]
      split
      · simpa [isBlack] using cleared
      · exact black.1

/-- This is what is written, and what is read into a copy of the defaults. -/
theorem nsoptionRead_nsoptionOutput (globals : Globals) (path : Bytes)
    (table : IsTable frontend opts) (default : IsTable frontend defs)
    (global : globals.nsoptionsDefault = some std) (fits : ∀ o ∈ opts, fitsLine o = true) :
    nsoptionWrite globals (some path) (some opts) (some defs) true =
        .ok (nsoptionOutput opts defs false) ∧
      nsoptionRead globals (some path) (some defs) (some (nsoptionOutput opts defs false)) =
        .ok (nsoptionValidate (opts.zipWith readBack defs) (some std)) := by
  obtain ⟨plain, apart⟩ := table.keys
  have lines := @readLines_nsoptionOutput opts defs [] _ (table.sameSlot default) plain fits apart
    (le_refl _)
  rw [List.nil_append, List.nil_append] at lines
  exact ⟨rfl, by simp [nsoptionRead, global, lines]⟩

/-- A table that is checked, written and read into the defaults comes back. Only one whose system
colours have no colour bit but are not all zero may be taken for an old black one, and gets the
system colours of the default table. -/
theorem nsoptionRead_nsoptionWrite {globals : Globals} {path : Bytes}
    (table : IsTable frontend opts) (default : IsTable frontend defs)
    (standard : IsTable frontend std) (global : globals.nsoptionsDefault = some std)
    (valid : nsoptionValidate opts (some std) = opts) (fits : ∀ o ∈ opts, fitsLine o = true) :
    ∃ file read, nsoptionWrite globals (some path) (some opts) (some defs) true = .ok file ∧
      nsoptionRead globals (some path) (some defs) (some file) = .ok read ∧
      (Restored read opts ∨ isBlack opts = false ∧ isBlack (opts.map NsoptionS.masked) = true ∧
        Restored read (returnColours opts std)) := by
  have same := table.sameSlot default
  obtain ⟨written, found⟩ := nsoptionRead_nsoptionOutput globals path table default global fits
  refine ⟨_, _, written, found, ?_⟩
  have masks := map_masked_readBack same
  by_cases black : isBlack (opts.zipWith readBack defs) = isBlack opts
  · left
    rw [Restored, masked_nsoptionValidate_congr masks black, valid]
  · have shown : isBlack opts = false := by
      cases own : isBlack opts with
      | false => rfl
      | true => exact absurd ((isBlack_readBack same own).trans own.symm) black
    have lost : isBlack (opts.zipWith readBack defs) = true := by simpa [shown] using black
    have size : opts.length = std.length := (table.sameSlot standard).length_eq
    refine Or.inr ⟨shown, masks ▸ isBlack_masked lost, ?_⟩
    rw [Restored, masked_nsoptionValidate_black size masks lost shown, valid]

end Tables

/-- Every system colour of this table is the transparent one, which has no colour bit. -/
def transparentTable : List NsoptionS :=
  (defaults .gtk).map fun o =>
    if isSysColour o.key then { o with value := .colour 0x01000000 } else o

theorem transparentTable_spec :
    List.Forall₂ SameSlot transparentTable (defaults .gtk) ∧
      List.Forall₂ SameSlot (defaults .gtk) (defaults .gtk) ∧
      transparentTable.all fitsLine = true ∧
      nsoptionValidate transparentTable (some (defaults .gtk)) = transparentTable ∧
      (nsoptionValidate (transparentTable.zipWith readBack (defaults .gtk))
        (some (defaults .gtk))).map NsoptionS.masked ≠ transparentTable.map NsoptionS.masked := by
  decide

/-- A table of transparent system colours is checked, but does not come back. -/
theorem transparentTable_lost :
    IsTable .gtk transparentTable ∧
      nsoptionValidate transparentTable (some (defaults .gtk)) = transparentTable ∧
      (∀ o ∈ transparentTable, fitsLine o = true) ∧
      ∃ file read,
        nsoptionWrite ⟨none, some (defaults .gtk)⟩ (some []) (some transparentTable)
          (some (defaults .gtk)) true = .ok file ∧
        nsoptionRead ⟨none, some (defaults .gtk)⟩ (some []) (some (defaults .gtk)) (some file) =
          .ok read ∧
        ¬ Restored read transparentTable := by
  obtain ⟨table, default, fits, valid, lost⟩ := transparentTable_spec
  rw [List.all_eq_true] at fits
  obtain ⟨written, found⟩ :=
    nsoptionRead_nsoptionOutput ⟨none, some (defaults .gtk)⟩ [] table default rfl fits
  exact ⟨table, valid, fits, _, _, written, found, lost⟩

/-- The table is read with the system colours of the default table. -/
theorem transparentTable_read :
    ∃ file read,
      nsoptionWrite ⟨none, some (defaults .gtk)⟩ (some []) (some transparentTable)
        (some (defaults .gtk)) true = .ok file ∧
      nsoptionRead ⟨none, some (defaults .gtk)⟩ (some []) (some (defaults .gtk)) (some file) =
        .ok read ∧
      (Restored read transparentTable ∨ isBlack transparentTable = false ∧
        isBlack (transparentTable.map NsoptionS.masked) = true ∧
        Restored read (returnColours transparentTable (defaults .gtk))) := by
  obtain ⟨table, default, fits, valid, _⟩ := transparentTable_spec
  exact nsoptionRead_nsoptionWrite table default default rfl valid (List.all_eq_true.mp fits)

end Nsoption

end Neosurf
