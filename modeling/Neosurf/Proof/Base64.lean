/-
This file proves that what the base64 encoders write is read back by the decoders.
-/

import Neosurf.Construction.Base64
import Mathlib.Data.List.TakeWhile
import Mathlib.Tactic.IntervalCases

namespace Neosurf.Base64

/-- The decoding table reads back each character of the encoding table, and the pad as the end. -/
structure ReadsBack (decoding encoding : Byte → Byte) : Prop where
  sextet : ∀ sextet < 64, decoding (encoding sextet) = sextet
  pad : decoding (chr '=') = 64

theorem tables_readBack : ReadsBack decodingTable encodingTable := by
  refine ⟨?_, by decide⟩
  intro sextet
  revert sextet
  apply byte_cases
  decide

theorem urlTables_readBack : ReadsBack urlDecodingTable urlEncodingTable := by
  refine ⟨?_, by decide⟩
  intro sextet
  revert sextet
  apply byte_cases
  decide

/-- These are the sextets that the encoder looks up, without the pads. -/
def sextetsOf : Bytes → Bytes
  | a :: b :: c :: rest =>
      a >>> 2 :: ((a &&& 3) <<< 4 ||| b >>> 4) :: ((b &&& 15) <<< 2 ||| c >>> 6) :: (c &&& 63) ::
        sextetsOf rest
  | [a, b] => [a >>> 2, (a &&& 3) <<< 4 ||| b >>> 4, (b &&& 15) <<< 2]
  | [a] => [a >>> 2, (a &&& 3) <<< 4]
  | [] => []

/-- The pads fill the last group of four characters. -/
def padsOf : Bytes → Bytes
  | _ :: _ :: _ :: rest => padsOf rest
  | [_, _] => [chr '=']
  | [_] => [chr '=', chr '=']
  | [] => []

section Bits

variable (a b c : Byte)

/-- Two bytes are equal when their bits are. -/
theorem byte_ext {a b : Byte} (bits : ∀ i < 8, a.toBitVec.getLsbD i = b.toBitVec.getLsbD i) :
    a = b := by
  apply UInt8.eq_of_toBitVec_eq
  apply BitVec.eq_of_getLsbD_eq
  exact bits

theorem firstByte : (a >>> 2) <<< 2 ||| ((a &&& 3) <<< 4 ||| b >>> 4) >>> 4 = a := by
  apply byte_ext
  intro i small
  interval_cases i <;> simp

theorem firstByte_last : (a >>> 2) <<< 2 ||| ((a &&& 3) <<< 4) >>> 4 = a := by
  apply byte_ext
  intro i small
  interval_cases i <;> simp

theorem secondByte :
    ((a &&& 3) <<< 4 ||| b >>> 4) <<< 4 ||| ((b &&& 15) <<< 2 ||| c >>> 6) >>> 2 = b := by
  apply byte_ext
  intro i small
  interval_cases i <;> simp

theorem secondByte_last :
    ((a &&& 3) <<< 4 ||| b >>> 4) <<< 4 ||| ((b &&& 15) <<< 2) >>> 2 = b := by
  apply byte_ext
  intro i small
  interval_cases i <;> simp

theorem thirdByte : ((b &&& 15) <<< 2 ||| c >>> 6) <<< 6 ||| c &&& 63 = c := by
  apply byte_ext
  intro i small
  interval_cases i <;> simp

end Bits

variable {decoding encoding : Byte → Byte}

/-- The sextets have six bits. -/
theorem sextetsOf_small (input : Bytes) : ∀ sextet ∈ sextetsOf input, sextet < 64 := by
  have shifted (a : Byte) : a >>> 2 < 64 := by
    revert a
    apply byte_cases
    decide
  have masked (a : Byte) : a &&& 63 < 64 := by
    revert a
    apply byte_cases
    decide
  have joined (a b : Byte) : (a &&& 3) <<< 4 ||| b >>> 4 < 64 := by
    have whole : (a &&& 3) <<< 4 ||| b >>> 4 = ((a &&& 3) <<< 4 ||| b >>> 4) &&& 63 := by
      apply byte_ext
      intro i small
      interval_cases i <;> simp
    rw [whole]
    exact masked _
  have joined' (b c : Byte) : (b &&& 15) <<< 2 ||| c >>> 6 < 64 := by
    have whole : (b &&& 15) <<< 2 ||| c >>> 6 = ((b &&& 15) <<< 2 ||| c >>> 6) &&& 63 := by
      apply byte_ext
      intro i small
      interval_cases i <;> simp
    rw [whole]
    exact masked _
  have first (a : Byte) : (a &&& 3) <<< 4 < 64 := by
    revert a
    apply byte_cases
    decide
  have second (b : Byte) : (b &&& 15) <<< 2 < 64 := by
    revert b
    apply byte_cases
    decide
  fun_induction sextetsOf input <;> simp_all

/-- The encoder writes the characters of the sextets, then the pads. -/
theorem tableEncode_eq (input : Bytes) :
    tableEncode encoding input = (sextetsOf input).map encoding ++ padsOf input := by
  induction input using tableEncode.induct with
  | case1 a b c rest ih => simp [tableEncode, sextetsOf, padsOf, ih]
  | case2 a b => rfl
  | case3 a => rfl
  | case4 => rfl

theorem encode_eq (input : Bytes) : encode input = tableEncode encodingTable input := by
  induction input using encode.induct with
  | case1 a b c rest ih => simp [tableEncode, encode, ih]
  | case2 a b => rfl
  | case3 a => rfl
  | case4 => rfl

theorem decode_eq (input : Bytes) : decode input = base64DecodeAlloc decodingTable input := rfl

/-- The decoder stops at the first pad. -/
theorem takeWhile_padsOf (readsBack : ReadsBack decoding encoding) (input : Bytes) :
    ((padsOf input).map decoding).takeWhile (· ≠ 64) = [] := by
  induction input using padsOf.induct with
  | case1 a b c rest ih => exact ih
  | case2 a b => simp [padsOf, readsBack.pad]
  | case3 a => simp [padsOf, readsBack.pad]
  | case4 => rfl

/-- The decoder has seen every sextet when it stops. -/
theorem sextets_tableEncode (readsBack : ReadsBack decoding encoding) (input : Bytes) :
    (((tableEncode encoding input).map decoding).takeWhile (· ≠ 64)).filter (· < 64) =
      sextetsOf input := by
  have same : (sextetsOf input).map (decoding ∘ encoding) = sextetsOf input := by
    refine (List.map_congr_left fun sextet inside => ?_).trans (List.map_id _)
    exact readsBack.sextet sextet (sextetsOf_small input sextet inside)
  have others : ∀ sextet ∈ sextetsOf input, decide (sextet ≠ 64) = true := by
    intro sextet inside
    have small := sextetsOf_small input sextet inside
    exact decide_eq_true fun pad => absurd (pad ▸ small) (by decide)
  rw [tableEncode_eq, List.map_append, List.map_map, same, List.takeWhile_append_of_pos others,
    takeWhile_padsOf readsBack, List.append_nil, List.filter_eq_self]
  intro sextet inside
  exact decide_eq_true (sextetsOf_small input sextet inside)

/-- A group of four characters before others makes three more bytes. -/
theorem decodedLen_group (a b c d : Byte) {rest : Bytes} (long : 2 ≤ rest.length) :
    decodedLen (a :: b :: c :: d :: rest) = decodedLen rest + 3 := by
  have last : byteAt (a :: b :: c :: d :: rest) ((a :: b :: c :: d :: rest).length - 1) =
      byteAt rest (rest.length - 1) := by
    obtain ⟨count, size⟩ := Nat.exists_eq_add_of_le long
    simp [byteAt, size, show 2 + count + 1 + 1 + 1 + 1 - 1 = 2 + count - 1 + 4 by omega]
  have second : byteAt (a :: b :: c :: d :: rest) ((a :: b :: c :: d :: rest).length - 2) =
      byteAt rest (rest.length - 2) := by
    obtain ⟨count, size⟩ := Nat.exists_eq_add_of_le long
    simp [byteAt, size, show 2 + count + 1 + 1 + 1 + 1 - 2 = 2 + count - 2 + 4 by omega]
  have here : 1 < rest.length := by omega
  have longer : 1 < (a :: b :: c :: d :: rest).length := by simp
  have size : (a :: b :: c :: d :: rest).length = rest.length + 4 := rfl
  simp only [decodedLen, last, second, here, longer, true_and]
  rw [size]
  split <;> split <;> omega

theorem length_tableEncode (input : Bytes) :
    (tableEncode encoding input).length = (input.length + 2) / 3 * 4 := by
  induction input using tableEncode.induct with
  | case1 a b c rest ih =>
      simp only [tableEncode, List.length_cons, ih]
      omega
  | case2 a b => simp [tableEncode]
  | case3 a => simp [tableEncode]
  | case4 => simp [tableEncode]

/-- The characters of sextets are no pads. -/
theorem ReadsBack.plain (readsBack : ReadsBack decoding encoding) {sextet : Byte}
    (small : sextet < 64) : encoding sextet ≠ chr '=' := by
  intro pad
  have value := readsBack.sextet sextet small
  rw [pad, readsBack.pad] at value
  rw [← value] at small
  exact absurd small (by decide)

/-- The buffer has the size of the encoded input. -/
theorem decodedLen_tableEncode (readsBack : ReadsBack decoding encoding) (input : Bytes) :
    decodedLen (tableEncode encoding input) = input.length := by
  have small := sextetsOf_small input
  induction input using tableEncode.induct with
  | case1 a b c rest ih =>
      simp only [sextetsOf, List.forall_mem_cons] at small
      rw [tableEncode]
      cases rest with
      | nil =>
          have plain3 := readsBack.plain small.2.2.1
          have plain4 := readsBack.plain small.2.2.2.1
          simp [tableEncode, decodedLen, byteAt, plain3, plain4]
      | cons d rest =>
          rw [decodedLen_group, ih small.2.2.2.2]
          · rfl
          · rw [length_tableEncode, List.length_cons]
            omega
  | case2 a b =>
      simp only [sextetsOf, List.forall_mem_cons] at small
      simp [tableEncode, decodedLen, byteAt, readsBack.plain small.2.2.1]
  | case3 a => simp [tableEncode, decodedLen, byteAt]
  | case4 => simp [tableEncode, decodedLen]

/-- The decoder joins the sextets of the encoder into the bytes again. -/
theorem decodeSextets_sextetsOf (input decoded : Bytes) :
    decodeSextets (decoded.length + input.length) (sextetsOf input) decoded = decoded ++ input := by
  induction input using sextetsOf.induct generalizing decoded with
  | case1 a b c rest ih =>
      rw [sextetsOf, decodeSextets, firstByte, secondByte, thirdByte]
      split
      case isTrue full =>
          have last : rest = [] := by
            rw [← List.length_eq_zero_iff]
            simp only [List.length_cons] at full
            omega
          subst last
          simp
      case isFalse =>
          have grown := ih (decoded ++ [a, b, c])
          have size : (decoded ++ [a, b, c]).length + rest.length =
              decoded.length + (a :: b :: c :: rest).length := by
            simp only [List.length_append, List.length_cons, List.length_nil]
            omega
          rw [size] at grown
          rw [grown, List.append_assoc]
          rfl
  | case2 a b =>
      rw [sextetsOf, decodeSextets, firstByte, secondByte_last]
      simp
  | case3 a =>
      rw [sextetsOf, decodeSextets, firstByte_last]
      simp
  | case4 => simp [sextetsOf, decodeSextets]

/-- What a table writes, a table that reads it back decodes. -/
theorem base64DecodeAlloc_tableEncode (readsBack : ReadsBack decoding encoding) (input : Bytes) :
    base64DecodeAlloc decoding (tableEncode encoding input) = input := by
  have whole := decodeSextets_sextetsOf input []
  rw [base64DecodeAlloc, sextets_tableEncode readsBack, decodedLen_tableEncode readsBack]
  simpa using whole

/-- Both decoders read back what their encoders write. -/
theorem decode_encode (input : Bytes) :
    decode (encode input) = input ∧ decodeUrl (encodeUrl input) = input := by
  constructor
  · rw [encode_eq, decode_eq]
    exact base64DecodeAlloc_tableEncode tables_readBack input
  · exact base64DecodeAlloc_tableEncode urlTables_readBack input

end Neosurf.Base64
