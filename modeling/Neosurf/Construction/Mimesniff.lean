/-
This file models `content/mimesniff.c`, with the parser of `utils/http/content-type.c` that it
uses. The functions are modelled twice: by their answers, and with every read of the data.
-/

import Neosurf.Construction.Http
import Neosurf.ToMathlib.Reading

namespace Neosurf.Mimesniff

/-- The errors of the sniffer. -/
inductive SniffError
  | needData
  | notFound
  deriving DecidableEq, Repr

/-- This is `http_parse_content_type`, without the parameters, which cannot make it fail. -/
def parseContentType (headerValue : Bytes) : Option Bytes := do
  let (type, rest) ← Http.parseToken (Http.skipLWS headerValue)
  let rest := Http.skipLWS rest
  if byteAt rest 0 = chr '/' then
    let (subtype, _) ← Http.parseToken (Http.skipLWS (rest.drop 1))
    some (type ++ [chr '/'] ++ subtype)
  else none

/-- A binary octet is none of the control characters of a text. -/
def isBinaryOctet (c : Byte) : Bool :=
  c ≤ 0x1f && c != 0x1b && c != 13 && c != 12 && c != 10 && c != 9

/-- This is `mimesniff__has_binary_octets`. -/
def hasBinaryOctets (data : Bytes) : Bool := data.any isBinaryOctet

/-- Each type has a signature, which is safe or not. -/
def exactMatchTypes : List (Bytes × Bytes × Bool) :=
  [(str "image/gif", str "GIF87a", true),
    (str "image/gif", str "GIF89a", true),
    (str "image/png", [0x89, 0x50, 0x4e, 0x47, 0x0d, 0x0a, 0x1a, 0x0a], true),
    (str "image/jpeg", [0xff, 0xd8, 0xff], true),
    (str "image/bmp", str "BM", true),
    (str "image/vnd.microsoft.icon", [0, 0, 1, 0], true),
    (str "application/ogg", str "OggS" ++ [0], true),
    (str "video/webm", [0x1a, 0x45, 0xdf, 0xa3], true),
    (str "application/x-rar-compressed", str "Rar " ++ [0x1a, 0x07, 0x00], true),
    (str "application/zip", str "PK" ++ [3, 4], true),
    (str "application/x-gzip", [0x1f, 0x8b, 0x08], true),
    (str "application/postscript", str "%!PS-Adobe-", true),
    (str "application/pdf", str "%PDF-", false)]

/-- This is `mimesniff__match_unknown_exact`. -/
def matchUnknownExact (data : Bytes) (allowUnsafe : Bool) : Option Bytes :=
  (exactMatchTypes.find? fun entry =>
    startsWith entry.2.1 data && (allowUnsafe || entry.2.2)).map Prod.fst

/-- These signatures stand behind the mark and the size of a RIFF file. -/
def riffMatchTypes : List (Bytes × Bytes) :=
  [(str "image/webp", str "WEBPVP"), (str "audio/wave", str "WAVE")]

/-- This is `mimesniff__match_unknown_riff`. -/
def matchUnknownRiff (data : Bytes) : Option Bytes :=
  (riffMatchTypes.find? fun entry =>
    startsWith (str "RIFF") data && startsWith entry.2 (data.drop 8)).map Prod.fst

/-- These are the byte order marks. -/
def bomMatchTypes : List (Bytes × Bytes) :=
  [(str "text/plain", [0xfe, 0xff]), (str "text/plain", [0xff, 0xfe]),
    (str "text/plain", [0xef, 0xbb, 0xbf])]

/-- This is `mimesniff__match_unknown_bom`. -/
def matchUnknownBom (data : Bytes) : Option Bytes :=
  (bomMatchTypes.find? fun entry => startsWith entry.2 data).map Prod.fst

/-- These characters may stand before a signature. -/
def isSniffedSpace (c : Byte) : Bool := c == 9 || c == 10 || c == 12 || c == 13 || c == chr ' '

/-- Before a blank or the end of a tag these signatures mark HTML. -/
def wsInexactMatchTypes : List Bytes :=
  [str "<!DOCTYPE HTML", str "<HTML", str "<HEAD", str "<SCRIPT", str "<IFRAME", str "<H1",
    str "<DIV", str "<FONT", str "<TABLE", str "<A", str "<STYLE", str "<TITLE", str "<B",
    str "<BODY", str "<BR", str "<P", str "<!--"]

/-- This is `mimesniff__match_unknown_ws`. -/
def matchUnknownWs (data : Bytes) : Option Bytes :=
  let data := data.dropWhile isSniffedSpace
  if data = [] then none
  else if startsWith (str "<?xml") data then some (str "text/xml")
  else if wsInexactMatchTypes.any fun sig =>
      sig.length + 1 ≤ data.length && startsWith (folded sig) (folded data) &&
        (byteAt data sig.length == chr ' ' || byteAt data sig.length == chr '>') then
    some (str "text/html")
  else none

/-- The size of a box is big-endian. -/
def boxSizeOf (b₀ b₁ b₂ b₃ : Byte) : Nat :=
  b₀.toNat * 2 ^ 24 + b₁.toNat * 2 ^ 16 + b₂.toNat * 2 ^ 8 + b₃.toNat

/-- This is `mimesniff__match_mp4`. -/
def matchMp4 (data : Bytes) (len : Nat) : Option Bytes :=
  let boxSize := boxSizeOf (byteAt data 0) (byteAt data 1) (byteAt data 2) (byteAt data 3)
  let brand := fun i => startsWith (str "mp4") (data.drop i)
  if len < 12 || len < boxSize || boxSize % 4 != 0 then none
  else if !startsWith (str "ftyp") (data.drop 4) then none
  else if brand 8 then some (str "video/mp4")
  -- for a box size of zero the end of the loop wraps, and nothing but the data stops it
  else if (List.range (data.length / 4 + 1)).any fun i =>
      4 ≤ i && (boxSize == 0 || i * 4 + 4 ≤ boxSize) && brand (i * 4) then
    some (str "video/mp4")
  else none

/-- This is `mimesniff__match_unknown`. The size of a box is trusted beyond the length. -/
def matchUnknown (data : Bytes) (len : Nat) (allowUnsafe : Bool) : Option Bytes :=
  let sniffed := data.take len
  (matchUnknownExact sniffed allowUnsafe).or <| (matchUnknownRiff sniffed).or <|
    if allowUnsafe then
      (matchUnknownBom sniffed).or <| (matchUnknownWs sniffed).or <| matchMp4 data len
    else none

/-- This is `mimesniff__compute_unknown`. -/
def computeUnknown : Option Bytes → Except SniffError Bytes
  | none => .error .needData
  | some data =>
      let len := min data.length 512
      .ok <| (matchUnknown data len true).getD <|
        if hasBinaryOctets (data.take len) then str "application/octet-stream"
        else str "text/plain"

/-- This is `mimesniff__compute_text_or_binary`. -/
def computeTextOrBinary : Option Bytes → Except SniffError Bytes
  | none => .error .needData
  | some data =>
      let len := min data.length 512
      if 3 ≤ len && (matchUnknownBom (data.take len)).isSome then .ok (str "text/plain")
      else if !hasBinaryOctets (data.take len) then .ok (str "text/plain")
      else .ok <| (matchUnknown data len false).getD (str "application/octet-stream")

/-- These are the types of images with their signatures. -/
def imageTypes : List (Bytes × Bytes) :=
  [(str "image/gif", str "GIF87a"),
    (str "image/gif", str "GIF89a"),
    (str "image/png", [0x89, 0x50, 0x4e, 0x47, 0x0d, 0x0a, 0x1a, 0x0a]),
    (str "image/jpeg", [0xff, 0xd8, 0xff]),
    (str "image/bmp", str "BM"),
    (str "image/vnd.microsoft.icon", [0, 0, 1, 0])]

/-- This is `mimesniff__compute_image`. -/
def computeImage (officialType : Bytes) : Option Bytes → Except SniffError Bytes
  | none => .error .needData
  | some data =>
      .ok <|
        match imageTypes.find? fun entry => startsWith entry.2 data with
        | some entry => entry.1
        | none =>
            if startsWith (str "RIFF") data && startsWith (str "WEBPVP") (data.drop 8) then
              str "image/webp"
            else officialType

/-- The states of `mimesniff__compute_feed_or_html`. -/
inductive FeedState
  | beforeBom
  | beforeMarkup
  | markupStart
  | commentOrDoctype
  | inComment
  | inDoctype
  | inPi
  | inTag
  | inRdf (rdf rss : Bool)

/-- This is the loop of `mimesniff__compute_feed_or_html`, which reads some bytes twice. -/
def feedOrHtml : Nat → FeedState → Bytes → Bytes
  | 0, _, _ => str "text/html"
  | _, _, [] => str "text/html"
  | rounds + 1, state, c :: rest =>
      let data := c :: rest
      let rssNs := str "http://purl.org/rss/1.0"
      let rdfNs := str "http://www.w3.org/1999/02/22-rdf-syntax-ns#"
      match state with
      | .beforeBom =>
          feedOrHtml rounds .beforeMarkup
            (if startsWith [0xef, 0xbb, 0xbf] data then data.drop 3 else data)
      | .beforeMarkup =>
          if c == 9 || c == 10 || c == 13 || c == chr ' ' then feedOrHtml rounds .beforeMarkup rest
          else if c != chr '<' then str "text/html"
          else feedOrHtml rounds .markupStart rest
      | .markupStart =>
          if c == chr '!' then feedOrHtml rounds .commentOrDoctype rest
          else if c == chr '?' then feedOrHtml rounds .inPi rest
          else feedOrHtml rounds .inTag data
      | .commentOrDoctype =>
          if startsWith (str "--") data then feedOrHtml rounds .inComment (data.drop 2)
          else feedOrHtml rounds .inDoctype data
      | .inComment =>
          if startsWith (str "-->") data then feedOrHtml rounds .beforeMarkup (data.drop 3)
          else feedOrHtml rounds .inComment rest
      | .inDoctype =>
          feedOrHtml rounds (if c == chr '>' then .beforeMarkup else .inDoctype) rest
      | .inPi =>
          if startsWith (str "?>") data then feedOrHtml rounds .beforeMarkup (data.drop 2)
          else feedOrHtml rounds .inPi rest
      | .inTag =>
          if startsWith (str "rss") data then str "application/rss+xml"
          else if startsWith (str "feed") data then str "application/atom+xml"
          else if startsWith (str "rdf:RDF") data then
            feedOrHtml rounds (.inRdf false false) (data.drop 7)
          else str "text/html"
      | .inRdf rdf rss =>
          let (rdf, rss, left) :=
            if startsWith rssNs data then (rdf, true, data.drop rssNs.length)
            else if startsWith rdfNs data then (true, rss, data.drop rdfNs.length)
            else (rdf, rss, rest)
          if rdf && rss then str "application/rss+xml"
          else feedOrHtml rounds (.inRdf rdf rss) left

/-- This is `mimesniff__compute_feed_or_html`. -/
def computeFeedOrHtml : Option Bytes → Except SniffError Bytes
  | none => .error .needData
  | some data =>
      let data := data.take 512
      .ok (feedOrHtml (2 * data.length + 1) .beforeBom data)

/-- The choices of `mimesniff_compute_effective_type`: an answer without the data, or one of its
sniffers. The content factory tells the MIME types of images. -/
def effectiveTypeBy {α : Type*} (isImage : Bytes → Bool) (contentTypeHeader : Option Bytes)
    (sniffAllowed imageOnly : Bool) (answer : Except SniffError Bytes → α)
    (computeUnknown computeTextOrBinary computeFeedOrHtml : α) (computeImage : Bytes → α) : α :=
  let textTypes : List Bytes :=
    [str "text/plain", str "text/plain; charset=ISO-8859-1", str "text/plain; charset=iso-8859-1",
      str "text/plain; charset=UTF-8"]
  match contentTypeHeader with
  | none => if !sniffAllowed then answer (.error .notFound) else computeUnknown
  | some header =>
      match parseContentType header with
      | none => if !sniffAllowed then answer (.error .notFound) else computeUnknown
      | some mediaType =>
          let is := fun text => caselessEqual mediaType (str text)
          if !sniffAllowed then answer (.ok mediaType)
          else if imageOnly then
            if is "image/svg+xml" then answer (.ok (str "image/svg+xml"))
            else computeImage mediaType
          else if textTypes.contains header then computeTextOrBinary
          else if is "unknown/unknown" || is "application/unknown" || is "*/*" then computeUnknown
          else if 4 < mediaType.length &&
              caselessEqual (mediaType.drop (mediaType.length - 4)) (str "+xml") then
            answer (.ok mediaType)
          else if is "text/xml" || is "application/xml" then answer (.ok mediaType)
          else if isImage mediaType then computeImage mediaType
          else if is "text/html" then computeFeedOrHtml
          else answer (.ok mediaType)

/-- This is `mimesniff_compute_effective_type`. -/
def computeEffectiveType (isImage : Bytes → Bool) (contentTypeHeader : Option Bytes)
    (data : Option Bytes) (sniffAllowed imageOnly : Bool) : Except SniffError Bytes :=
  effectiveTypeBy isImage contentTypeHeader sniffAllowed imageOnly id (computeUnknown data)
    (computeTextOrBinary data) (computeFeedOrHtml data) fun officialType =>
      computeImage officialType data

namespace Checked

open Reading

/-- A signature is compared where as much of it is left before an end. -/
def startsAt (data : Bytes) (i stop : Nat) (sig : Bytes) : Reading Bool :=
  if sig.length ≤ stop - i then compareAll data i sig else done false

/-- Characters are compared one by one, where as many are left before an end. -/
def readsAt (data : Bytes) (i stop : Nat) (sig : Bytes) : Reading Bool :=
  if sig.length ≤ stop - i then compareUpTo data i sig else done false

/-- This is `strncasecmp` over the length of its second text. -/
def caselessAt (data : Bytes) (i : Nat) : Bytes → Reading Bool
  | [] => done true
  | c :: sig => do
      let b ← readAt data i
      if toLower c == toLower b then caselessAt data (i + 1) sig else done false

/-- This is the loop of `mimesniff__has_binary_octets`. -/
def hasBinaryOctets (data : Bytes) : Nat → Nat → Reading Bool
  | 0, _ => done false
  | left + 1, i => do
      let c ← readAt data i
      if isBinaryOctet c then done true else hasBinaryOctets data left (i + 1)

/-- This is `mimesniff__match_unknown_exact`. -/
def matchUnknownExact (data : Bytes) (len : Nat) (allowUnsafe : Bool) :
    Reading (Option Bytes) := do
  let found ← exactMatchTypes.findM? fun entry => do
    let same ← startsAt data 0 len entry.2.1
    done (same && (allowUnsafe || entry.2.2))
  done (found.map Prod.fst)

/-- The signature of a RIFF file is compared first. -/
def riffAt (data : Bytes) (len : Nat) (sig : Bytes) : Reading Bool :=
  if sig.length + 8 ≤ len then do
    let riff ← compareAll data 0 (str "RIFF")
    if riff then compareAll data 8 sig else done false
  else done false

/-- This is `mimesniff__match_unknown_riff`. -/
def matchUnknownRiff (data : Bytes) (len : Nat) : Reading (Option Bytes) := do
  let found ← riffMatchTypes.findM? fun entry => riffAt data len entry.2
  done (found.map Prod.fst)

/-- This is `mimesniff__match_unknown_bom`. -/
def matchUnknownBom (data : Bytes) (len : Nat) : Reading (Option Bytes) := do
  let found ← bomMatchTypes.findM? fun entry => startsAt data 0 len entry.2
  done (found.map Prod.fst)

/-- The first loop of `mimesniff__match_unknown_ws` skips white space. -/
def skipSpace (data : Bytes) : Nat → Nat → Reading Nat
  | 0, i => done i
  | left + 1, i => do
      let c ← readAt data i
      if isSniffedSpace c then skipSpace data left (i + 1) else done i

/-- A signature stands before a blank or the end of a tag. -/
def tagAt (data : Bytes) (i len : Nat) (sig : Bytes) : Reading Bool :=
  if len < sig.length + 1 then done false
  else do
    let same ← caselessAt data i sig
    if same then do
      let c ← readAt data (i + sig.length)
      done (c == chr ' ' || c == chr '>')
    else done false

/-- This is `mimesniff__match_unknown_ws`. -/
def matchUnknownWs (data : Bytes) (len : Nat) : Reading (Option Bytes) := do
  let i ← skipSpace data len 0
  if i = len then done none
  else do
    let xml ← startsAt data i len (str "<?xml")
    if xml then done (some (str "text/xml"))
    else do
      let found ← wsInexactMatchTypes.findM? (tagAt data i (len - i))
      done (found.map fun _ => str "text/html")

/-- The loop of `mimesniff__match_mp4` compares the compatible brands up to the last one. -/
def brandLoop (data : Bytes) (last : Nat) : Nat → Nat → Reading (Option Bytes)
  | 0, _ => running
  | rounds + 1, i =>
      if i ≤ last then do
        let brand ← compareUpTo data i (str "mp4")
        if brand then done (some (str "video/mp4"))
        else brandLoop data last rounds ((i + 4) % 2 ^ 32)
      else done none

/-- The place of the last brand is counted in 32 bits. -/
def lastBrand (boxSize : Nat) : Nat := (boxSize + (2 ^ 32 - 4)) % 2 ^ 32

/-- The second part of `mimesniff__match_mp4` compares the type of the box and its brands. -/
def matchBrands (rounds : Nat) (data : Bytes) (boxSize : Nat) : Reading (Option Bytes) := do
  let ftyp ← compareUpTo data 4 (str "ftyp")
  if ftyp then do
    let major ← compareUpTo data 8 (str "mp4")
    if major then done (some (str "video/mp4"))
    else brandLoop data (lastBrand boxSize) rounds 16
  else done none

/-- This is `mimesniff__match_mp4`. -/
def matchMp4 (rounds : Nat) (data : Bytes) (len : Nat) : Reading (Option Bytes) :=
  if len < 12 then done none
  else do
    let b₀ ← readAt data 0
    let b₁ ← readAt data 1
    let b₂ ← readAt data 2
    let b₃ ← readAt data 3
    let boxSize := boxSizeOf b₀ b₁ b₂ b₃
    if len < boxSize ∨ boxSize % 4 ≠ 0 then done none else matchBrands rounds data boxSize

/-- One matcher after the other is tried. -/
def orElse (first : Reading (Option Bytes)) (next : Reading (Option Bytes)) :
    Reading (Option Bytes) := do
  match ← first with
  | some type => done (some type)
  | none => next

/-- This is `mimesniff__match_unknown`. -/
def matchUnknown (rounds : Nat) (data : Bytes) (len : Nat) (allowUnsafe : Bool) :
    Reading (Option Bytes) :=
  orElse (matchUnknownExact data len allowUnsafe) <| orElse (matchUnknownRiff data len) <|
    if allowUnsafe then
      orElse (matchUnknownBom data len) <| orElse (matchUnknownWs data len) <|
        matchMp4 rounds data len
    else done none

/-- This is `mimesniff__compute_unknown`. -/
def computeUnknown (rounds : Nat) : Option Bytes → Reading (Except SniffError Bytes)
  | none => done (.error .needData)
  | some data => do
      let len := min data.length 512
      match ← matchUnknown rounds data len true with
      | some type => done (.ok type)
      | none => do
          let binary ← hasBinaryOctets data len 0
          done (.ok (if binary then str "application/octet-stream" else str "text/plain"))

/-- This is `mimesniff__compute_text_or_binary`. -/
def computeTextOrBinary (rounds : Nat) : Option Bytes → Reading (Except SniffError Bytes)
  | none => done (.error .needData)
  | some data => do
      let len := min data.length 512
      let bom ← (if 3 ≤ len then bomMatchTypes.findM? fun entry => compareUpTo data 0 entry.2
        else done none)
      if bom.isSome then done (.ok (str "text/plain"))
      else do
        let binary ← hasBinaryOctets data len 0
        if !binary then done (.ok (str "text/plain"))
        else do
          let found ← matchUnknown rounds data len false
          done (.ok (found.getD (str "application/octet-stream")))

/-- This is `mimesniff__compute_image`. -/
def computeImage (officialType : Bytes) : Option Bytes → Reading (Except SniffError Bytes)
  | none => done (.error .needData)
  | some data => do
      match ← imageTypes.findM? fun entry => startsAt data 0 data.length entry.2 with
      | some entry => done (.ok entry.1)
      | none => do
          let webp ← riffAt data data.length (str "WEBPVP")
          done (.ok (if webp then str "image/webp" else officialType))

/-- This is the loop of `mimesniff__compute_feed_or_html`. -/
def feedOrHtml (data : Bytes) (stop : Nat) : Nat → FeedState → Nat → Reading Bytes
  | 0, _, _ => running
  | rounds + 1, state, i =>
      if stop ≤ i then done (str "text/html")
      else do
        let c ← readAt data i
        match state with
        | .beforeBom => do
            let bom ← readsAt data i stop [0xef, 0xbb, 0xbf]
            feedOrHtml data stop rounds .beforeMarkup (if bom then i + 3 else i)
        | .beforeMarkup =>
            if c == 9 || c == 10 || c == 13 || c == chr ' ' then
              feedOrHtml data stop rounds .beforeMarkup (i + 1)
            else if c != chr '<' then feedOrHtml data stop rounds .beforeMarkup stop
            else feedOrHtml data stop rounds .markupStart (i + 1)
        | .markupStart =>
            if c == chr '!' then feedOrHtml data stop rounds .commentOrDoctype (i + 1)
            else if c == chr '?' then feedOrHtml data stop rounds .inPi (i + 1)
            else feedOrHtml data stop rounds .inTag i
        | .commentOrDoctype => do
            let comment ← readsAt data i stop (str "--")
            if comment then feedOrHtml data stop rounds .inComment (i + 2)
            else feedOrHtml data stop rounds .inDoctype i
        | .inComment => do
            let ended ← readsAt data i stop (str "-->")
            if ended then feedOrHtml data stop rounds .beforeMarkup (i + 3)
            else feedOrHtml data stop rounds .inComment (i + 1)
        | .inDoctype =>
            feedOrHtml data stop rounds (if c == chr '>' then .beforeMarkup else .inDoctype) (i + 1)
        | .inPi => do
            let ended ← readsAt data i stop (str "?>")
            if ended then feedOrHtml data stop rounds .beforeMarkup (i + 2)
            else feedOrHtml data stop rounds .inPi (i + 1)
        | .inTag => do
            let rss ← startsAt data i stop (str "rss")
            if rss then done (str "application/rss+xml")
            else do
              let feed ← startsAt data i stop (str "feed")
              if feed then done (str "application/atom+xml")
              else do
                let rdf ← startsAt data i stop (str "rdf:RDF")
                if rdf then feedOrHtml data stop rounds (.inRdf false false) (i + 7)
                else feedOrHtml data stop rounds .inTag stop
        | .inRdf rdf rss => do
            let rssNs := str "http://purl.org/rss/1.0"
            let rdfNs := str "http://www.w3.org/1999/02/22-rdf-syntax-ns#"
            let isRss ← startsAt data i stop rssNs
            let isRdf ← (if isRss then done false else startsAt data i stop rdfNs)
            if (rdf || isRdf) && (rss || isRss) then done (str "application/rss+xml")
            else
              feedOrHtml data stop rounds (.inRdf (rdf || isRdf) (rss || isRss))
                (i + if isRss then rssNs.length else if isRdf then rdfNs.length else 1)

/-- This is `mimesniff__compute_feed_or_html`. -/
def computeFeedOrHtml (rounds : Nat) : Option Bytes → Reading (Except SniffError Bytes)
  | none => done (.error .needData)
  | some data => do
      let type ← feedOrHtml data (min data.length 512) rounds .beforeBom 0
      done (.ok type)

/-- This is `mimesniff_compute_effective_type`, in so many rounds of its loops. -/
def computeEffectiveType (rounds : Nat) (isImage : Bytes → Bool)
    (contentTypeHeader : Option Bytes) (data : Option Bytes) (sniffAllowed imageOnly : Bool) :
    Reading (Except SniffError Bytes) :=
  effectiveTypeBy isImage contentTypeHeader sniffAllowed imageOnly done
    (computeUnknown rounds data) (computeTextOrBinary rounds data) (computeFeedOrHtml rounds data)
    fun officialType => computeImage officialType data

end Checked

end Neosurf.Mimesniff
