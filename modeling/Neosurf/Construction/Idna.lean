import Neosurf.Construction.Bytes

namespace Neosurf

/-- These characters separate host labels. -/
def endsLabel (c : Byte) : Bool := c == chr '.' || c == chr ':' || c == 0

/-- This is `idna__host_label_length`. A negative length is a wrapped `size_t`,
which no label reaches. -/
def idnaHostLabelLength (host : Bytes) (maxLength : Int) : Nat :=
  let length := (host.takeWhile fun c => !endsLabel c).length
  if maxLength < 0 then length else min length maxLength.toNat

/-- A label may hold these characters. -/
def isLdhChar (c : Byte) : Bool := c == chr '-' || isAlphanumerical c

/-- This is `idna__is_ldh`: no hyphen stands at either end. -/
def idnaIsLdh (label : Bytes) : Bool :=
  label.head? != some (chr '-') && label.getLast? != some (chr '-') && label.all isLdhChar

/-- The loop of `idna_encode` copies one valid label for each round. A label that
is not LDH would need `idna__utf8_to_ucs4`, which is not implemented. -/
def idnaEncodeLabels : Nat → Bytes → Int → Bytes → Option Bytes
  | 0, _, _, fqdn => some fqdn
  | rounds + 1, host, len, fqdn =>
      let labelLen := idnaHostLabelLength host len
      if labelLen = 0 then some fqdn
      else if idnaIsLdh (host.take labelLen) = false then none
      else
        let fqdn := fqdn ++ host.take labelLen ++ [chr '.']
        let c := byteAt host labelLen
        if c = 0 ∨ c = chr ':' then some fqdn
        else idnaEncodeLabels rounds (host.drop (labelLen + 1)) (len - labelLen - 1) fqdn

/-- This is `idna_encode`, with `none` for its errors. The host ends at its NUL, and
the C buffer of 256 bytes gives a longer name no defined result. -/
def idnaEncode (host : Bytes) (len : Int) : Option Bytes :=
  let host := cstr host
  if idnaHostLabelLength host len = 0 then none
  else (idnaEncodeLabels (host.length + 1) host len []).map List.dropLast

/-- This is `idna__is_ace`, which reads the prefix from the host. -/
def idnaIsAce (host : Bytes) (labelLen : Nat) : Bool :=
  idnaIsLdh (host.take labelLen) && byteAt host 0 == chr 'x' && byteAt host 1 == chr 'n' &&
    byteAt host 2 == chr '-' && byteAt host 3 == chr '-'

/-- The loop of `idna_decode` copies one label for each round. A label in ACE form
would need `idna__ucs4_to_utf8`, which is not implemented. -/
def idnaDecodeLabels : Nat → Bytes → Int → Bytes → Option Bytes
  | 0, _, _, fqdn => some fqdn
  | rounds + 1, aceHost, aceLen, fqdn =>
      let labelLen := idnaHostLabelLength aceHost aceLen
      if labelLen = 0 then some fqdn
      else if idnaIsAce aceHost labelLen then none
      else
        let fqdn := fqdn ++ aceHost.take labelLen ++ [chr '.']
        let c := byteAt aceHost labelLen
        if c = 0 ∨ c = chr ':' then some fqdn
        else idnaDecodeLabels rounds (aceHost.drop (labelLen + 1)) (aceLen - labelLen - 1) fqdn

/-- This is `idna_decode`, with `none` for its errors, under the same reading of the
C buffer as `idnaEncode`. -/
def idnaDecode (aceHost : Bytes) (aceLen : Int) : Option Bytes :=
  let aceHost := cstr aceHost
  if idnaHostLabelLength aceHost aceLen = 0 then none
  else (idnaDecodeLabels (aceHost.length + 1) aceHost aceLen []).map List.dropLast

/-- These bytes the loop of `idna_encode` writes to its buffer. -/
def idnaEncodeLabelsWritten : Nat → Bytes → Int → Nat → Nat
  | 0, _, _, written => written
  | rounds + 1, host, len, written =>
      let labelLen := idnaHostLabelLength host len
      if labelLen = 0 then written
      else if idnaIsLdh (host.take labelLen) = false then written
      else
        let written := written + labelLen + 1
        let c := byteAt host labelLen
        if c = 0 ∨ c = chr ':' then written
        else idnaEncodeLabelsWritten rounds (host.drop (labelLen + 1)) (len - labelLen - 1) written

/-- So many bytes from its start on `idna_encode` writes to the buffer `fqdn`. -/
def idnaEncodeWritten (host : Bytes) (len : Int) : Nat :=
  let host := cstr host
  idnaEncodeLabelsWritten (host.length + 1) host len 0

/-- This is the size of the buffer `fqdn`. -/
def fqdnSize : Nat := 256

end Neosurf
