/-
This file models how `utils/hashtable.c` fills a hash table from a text.
-/

import Neosurf.Construction.Bytes

namespace Neosurf.Hashtable

def LINE_BUFFER_SIZE : Nat := 512

/-- The pairs that are added to a table, and the answer. -/
structure Loaded where
  added : List (Bytes × Bytes) := []
  res : Nserror := .ok
  deriving DecidableEq

/-- A line adds at most one pair. The key and the value are C strings. -/
def processLine (ln : Bytes) : Except Nserror (Option (Bytes × Bytes)) :=
  let key := ln.dropWhile fun c => c == chr ' ' || c == 9
  if byteAt key 0 = 0 ∨ byteAt key 0 = chr '#' then .ok none
  else if !key.contains (chr ':') then .error .invalid
  else
    .ok (some (cstr (key.takeWhile (· ≠ chr ':')), cstr ((key.dropWhile (· ≠ chr ':')).drop 1)))

/-- The line buffer `s` holds the `slen` bytes in it that count. An index outside the buffer has
no result. -/
def plainLoop : Bytes → Bytes → List (Bytes × Bytes) → Option Loaded
  | [], s, added =>
      if s.length = 0 then some { added }
      else if LINE_BUFFER_SIZE ≤ s.length then none
      else
        match processLine s with
        | .error res => some { added, res }
        | .ok pair => some { added := added ++ pair.toList }
  | c :: data, s, added =>
      if LINE_BUFFER_SIZE ≤ s.length then none
      else if c = LF then
        match processLine s with
        | .error res => some { added, res }
        | .ok pair => plainLoop data [] (added ++ pair.toList)
      else if LINE_BUFFER_SIZE < s.length + 1 then plainLoop data [] added
      else plainLoop data (s ++ [c]) added

def hashAddInlinePlain (data : Bytes) : Option Loaded := plainLoop data [] []

/-- This is a run of `inflate` over a compressed text. For the text that is left and the space in
the buffer, it says how much of the text comes and whether `Z_STREAM_END` comes with it. -/
structure Inflate where
  delivered : Bytes → Nat → Nat
  ended : Bytes → Nat → Bool
  fits : ∀ left avail, delivered left avail ≤ avail
  available : ∀ left avail, delivered left avail ≤ left.length
  complete : ∀ left avail, ended left avail = true → delivered left avail = left.length
  progress : ∀ left avail, 0 < avail → ended left avail = false → 0 < delivered left avail

/-- The buffer after its lines, or a line that is refused. -/
inductive Drained where
  | rest (s : Bytes) (added : List (Bytes × Bytes))
  | refused (loaded : Loaded)

/-- The loop over the lines in the buffer. It has gone past the start of a line. -/
def drain : Bytes → Bytes → List (Bytes × Bytes) → Drained
  | line, [], added => .rest line added
  | line, c :: s, added =>
      if c = LF then
        match processLine line with
        | .error res => .refused { added, res }
        | .ok pair => drain [] s (added ++ pair.toList)
      else drain (line ++ [c]) s added

/-- This is the loop of `hash_add_inline_gzip`, whose buffer `s` holds the `used` bytes. -/
def gzipLoop (inflate : Inflate) : Nat → Bytes → Bytes → List (Bytes × Bytes) → Option Loaded
  | 0, _, _, _ => none
  | rounds + 1, left, s, added =>
      let avail := LINE_BUFFER_SIZE - s.length
      let delivered := inflate.delivered left avail
      if LINE_BUFFER_SIZE < s.length + delivered then none
      else
        match drain [] (s ++ left.take delivered) added with
        | .refused loaded => some loaded
        | .rest s added =>
            let s := if s.length = LINE_BUFFER_SIZE then [] else s
            if inflate.ended left avail then some { added }
            else gzipLoop inflate rounds (left.drop delivered) s added

/-- The content is what the data is inflated to. Each call but the last brings a byte of it. -/
def hashAddInlineGzip (inflate : Inflate) (content : Bytes) : Option Loaded :=
  gzipLoop inflate (content.length + 1) content [] []

/-- The last character of what `gzgets` has read is taken for the newline. In an empty string it
is before the buffer. -/
def fileLoop : Nat → Bytes → List (Bytes × Bytes) → Option Loaded
  | 0, _, added => some { added }
  | rounds + 1, file, added =>
      match fgets LINE_BUFFER_SIZE file with
      | none => some { added }
      | some (s, file) =>
          if (cstr s).length = 0 then none
          else
            match processLine (chomp s) with
            | .error res => some { added, res }
            | .ok pair => fileLoop rounds file (added ++ pair.toList)

/-- A file is its content when it can be opened. Each call of `gzgets` reads a byte of it. -/
def hashAddFile (gzopen : Bytes → Option Bytes) (path : Option Bytes) : Option Loaded :=
  match path with
  | none => some { res := .badParameter }
  | some path =>
      match gzopen path with
      | none => some { res := .notFound }
      | some content => fileLoop content.length content []

end Neosurf.Hashtable
