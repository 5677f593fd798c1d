/-
This file models the percent escaping of `utils/url.c`, and how `utils/file.c` turns POSIX paths into
URLs and back.
-/

import Neosurf.Construction.Bytes
import Neosurf.Construction.Nsurl.Create

namespace Neosurf

def isHex (c : Byte) : Bool := isDigit c || isAfUpper c || isAfLower c

/-- The value is only meant for a hexadecimal digit. -/
def xdigitToHex (c : Byte) : Byte :=
  if chr '0' ≤ c ∧ c ≤ chr '9' then c - chr '0'
  else if chr 'A' ≤ c ∧ c ≤ chr 'F' then c - chr 'A' + 10
  else c - chr 'a' + 10

/-- The loop of `url_unescape` needs three bytes. The last two are copied as they are. -/
def unescapeBytes : Bytes → Bytes
  | c :: c1 :: c2 :: rest =>
      if c = chr '%' ∧ isHex c1 ∧ isHex c2 then
        (xdigitToHex c1 <<< 4 ||| xdigitToHex c2) :: unescapeBytes rest
      else c :: unescapeBytes (c1 :: c2 :: rest)
  | short => short

/-- The results are the length and the bytes. A length of zero asks for `strlen`. -/
def urlUnescape (s : Option Bytes) (length : Nat) : Except Nserror (Nat × Bytes) :=
  match s with
  | none => .error .badParameter
  | some s =>
      let result := unescapeBytes (s.take (if length = 0 then (cstr s).length else length))
      .ok (result.length, result)

/-- These are the gen-delims, the sub-delims and the other characters to escape. -/
def reserved : Bytes := str ":/?#[]@" ++ str "!$&'()*+,;=" ++ str "<>%\"\x7b\x7d|\\^`~"

/-- These are the bytes that `url_escape` does not copy. -/
def needsEscape (escexceptions : Option Bytes) (c : Byte) : Bool :=
  0x80 ≤ c || (reserved.contains c && !escexceptions.any fun set => (cstr set).contains c) ||
    c ≤ 0x20 || c == 0x7f

def upperHexDigit (value : Byte) : Byte := byteAt (str "0123456789ABCDEF") value.toNat

/-- This is one round of the loop of `url_escape`. -/
def escapeByte (sptoplus : Bool) (escexceptions : Option Bytes) (c : Byte) : Bytes :=
  if needsEscape escexceptions c then
    if c = 0x20 ∧ sptoplus then [chr '+']
    else [chr '%', upperHexDigit ((c >>> 4) &&& 0xf), upperHexDigit (c &&& 0xf)]
  else [c]

/-- The escaped text is written byte by byte up to the terminator. -/
def urlEscape (unescaped : Option Bytes) (sptoplus : Bool) (escexceptions : Option Bytes) :
    Except Nserror Bytes :=
  match unescaped with
  | none => .error .badParameter
  | some unescaped => .ok ((cstr unescaped).flatMap (escapeByte sptoplus escexceptions))

end Neosurf

namespace Neosurf

/-- This is `FILE_SCHEME_PREFIX`. -/
def fileSchemePrefix : Bytes := str "file:///"

/-- This is `posix_path_to_nsurl`. It has no result where C gives none to `nsurl_create`. The junk
is what the fresh buffer of that function happens to hold. -/
def posixPathToNsurl (junk : Nsurl.Buff) (path : Option Bytes) : Option (Except Nserror Nsurl) :=
  match path with
  | none => some (.error .badParameter)
  | some path =>
      if byteAt path 0 = 0 then some (.error .badParameter)
      else match urlEscape (some path) false (some (str "/")) with
        | .error e => some (.error e)
        | .ok escpath =>
            let escpaths := escpath.dropWhile (· == chr '/')
            match Nsurl.nsurlCreate junk (fileSchemePrefix ++ escpaths) with
            | .ok url => some (.ok url)
            | .error .badUrl => some (.error .badUrl)
            | .error .undefined => none

/-- This is `posix_nsurl_to_path`. A URL always has a scheme. -/
def posixNsurlToPath (url : Option Nsurl) : Except Nserror Bytes :=
  match url with
  | none => .error .badParameter
  | some url =>
      let (error, same) := lwcStringCaselessIsequal (url.components.scheme.getD []) (str "file")
      if error ≠ lwcErrorOk then .error .badParameter
      else if !same then .error .badParameter
      else match url.components.path with
        | none => .error .badParameter
        | some urlpath => (urlUnescape (some urlpath) urlpath.length).map Prod.snd

end Neosurf
