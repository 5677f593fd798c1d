/-
This file models the base64 encoders and decoders of libnsutils, the standard ones and those for
URLs.
-/

import Neosurf.Construction.Bytes

namespace Neosurf.Base64

/-- A character is a sextet, the pad, or not in the encoding set. -/
def decodingTable (c : Byte) : Byte :=
  if isAlphaUpper c then c - chr 'A'
  else if isAlphaLower c then c - chr 'a' + 26
  else if isDigit c then c - chr '0' + 52
  else if c = chr '+' then 62
  else if c = chr '/' then 63
  else if c = chr '=' then 64
  else 0xff

/-- The decoder reads the sextets before the first pad. -/
def sextets (input : Bytes) : Bytes :=
  ((input.map decodingTable).takeWhile (· ≠ 64)).filter (· < 64)

/-- The size of the buffer counts the pads at the end. The character before a single one
is the NUL of the line before. -/
def decodedLen (input : Bytes) : Nat :=
  let pads := (if byteAt input (input.length - 1) = chr '=' then 1 else 0) +
    (if 1 < input.length ∧ byteAt input (input.length - 2) = chr '=' then 1 else 0)
  (input.length + 3) / 4 * 3 - pads

/-- Four sextets make three bytes, unless the buffer has no space for them. The sextets
at the end make what still fits. -/
def decodeSextets (decodedLen : Nat) : Bytes → Bytes → Bytes
  | s0 :: s1 :: s2 :: s3 :: rest, decoded =>
      let bytes := [s0 <<< 2 ||| s1 >>> 4, s1 <<< 4 ||| s2 >>> 2, s2 <<< 6 ||| s3]
      if decodedLen - 3 ≤ decoded.length then decoded ++ bytes.take (decodedLen - decoded.length)
      else decodeSextets decodedLen rest (decoded ++ bytes)
  | [s0, s1, s2], decoded =>
      decoded ++ [s0 <<< 2 ||| s1 >>> 4, s1 <<< 4 ||| s2 >>> 2, s2 <<< 6].take
        (decodedLen - decoded.length)
  | [s0, s1], decoded =>
      decoded ++ [s0 <<< 2 ||| s1 >>> 4, s1 <<< 4].take (decodedLen - decoded.length)
  | [s0], decoded => decoded ++ [s0 <<< 2].take (decodedLen - decoded.length)
  | [], decoded => decoded

/-- This is `nsu_base64_decode_alloc`, which only fails without memory. -/
def decode (input : Bytes) : Bytes := decodeSextets (decodedLen input) (sextets input) []

/-- This is the character of a sextet in `b64_encoding_table`. -/
def encodingTable (sextet : Byte) : Byte :=
  if sextet < 26 then chr 'A' + sextet
  else if sextet < 52 then chr 'a' + (sextet - 26)
  else if sextet < 62 then chr '0' + (sextet - 52)
  else if sextet = 62 then chr '+'
  else chr '/'

/-- This is `nsu_base64_encode` into a buffer that is large enough. Pads replace the characters of
missing octets. -/
def encode : Bytes → Bytes
  | a :: b :: c :: rest =>
      encodingTable (a >>> 2) :: encodingTable ((a &&& 3) <<< 4 ||| b >>> 4) ::
        encodingTable ((b &&& 15) <<< 2 ||| c >>> 6) :: encodingTable (c &&& 63) :: encode rest
  | [a, b] =>
      [encodingTable (a >>> 2), encodingTable ((a &&& 3) <<< 4 ||| b >>> 4),
        encodingTable ((b &&& 15) <<< 2), chr '=']
  | [a] => [encodingTable (a >>> 2), encodingTable ((a &&& 3) <<< 4), chr '=', chr '=']
  | [] => []

/-- This is `base64_decode_alloc` with a decoding table, which only fails without memory. -/
def base64DecodeAlloc (table : Byte → Byte) (input : Bytes) : Bytes :=
  decodeSextets (decodedLen input) (((input.map table).takeWhile (· ≠ 64)).filter (· < 64)) []

/-- This is `table_encode` with an encoding table, into a buffer that is large enough. -/
def tableEncode (table : Byte → Byte) : Bytes → Bytes
  | a :: b :: c :: rest =>
      table (a >>> 2) :: table ((a &&& 3) <<< 4 ||| b >>> 4) ::
        table ((b &&& 15) <<< 2 ||| c >>> 6) :: table (c &&& 63) :: tableEncode table rest
  | [a, b] =>
      [table (a >>> 2), table ((a &&& 3) <<< 4 ||| b >>> 4), table ((b &&& 15) <<< 2), chr '=']
  | [a] => [table (a >>> 2), table ((a &&& 3) <<< 4), chr '=', chr '=']
  | [] => []

/-- This is `b64url_decoding_table`. -/
def urlDecodingTable (c : Byte) : Byte :=
  if isAlphaUpper c then c - chr 'A'
  else if isAlphaLower c then c - chr 'a' + 26
  else if isDigit c then c - chr '0' + 52
  else if c = chr '-' then 62
  else if c = chr '_' then 63
  else if c = chr '=' then 64
  else 0xff

/-- This is `b64url_encoding_table`. -/
def urlEncodingTable (sextet : Byte) : Byte :=
  if sextet < 26 then chr 'A' + sextet
  else if sextet < 52 then chr 'a' + (sextet - 26)
  else if sextet < 62 then chr '0' + (sextet - 52)
  else if sextet = 62 then chr '-'
  else chr '_'

/-- This is `nsu_base64_decode_alloc_url`. -/
def decodeUrl (input : Bytes) : Bytes := base64DecodeAlloc urlDecodingTable input

/-- The encoder for URLs into a buffer that is large enough. -/
def encodeUrl (input : Bytes) : Bytes := tableEncode urlEncodingTable input

end Neosurf.Base64
