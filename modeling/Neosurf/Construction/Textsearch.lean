/-
This file models `content/textsearch.c`: the search for a pattern in a text, and the list of
matches of a free text search.
-/

import Neosurf.Construction.Bytes
import Neosurf.ToMathlib.Loops
import Neosurf.ToMathlib.LinkedCells
import Neosurf.ToMathlib.Wildcards

namespace Neosurf

namespace Textsearch

/-- A character of the text is the one in the pattern, up to its case if that does not count. -/
def sameChar (caseSens : Bool) (c ch : Byte) : Bool :=
  if caseSens then c == ch else toUpper c == toUpper ch

/-- These are the four variables of the search that its stack saves. A pointer into the pattern is
what is left of it from there on, and a pointer into the text is a position. -/
structure Point where
  ss : Nat
  s : Nat
  p : Bytes
  first : Bool
  deriving DecidableEq

/-- The variables of the search, with the stack from its top. -/
structure Search where
  now : Point
  context : List Point

/-- This is `NOF_ELEMENTS(context)`. -/
def contextSize : Nat := 16

/-- The scan stops at the first character that is the given one. -/
def scan (string : Bytes) (caseSens : Bool) (ch : Byte) (s : Nat) : Nat :=
  s + ((string.drop s).takeWhile fun c => !sameChar caseSens c ch).length

/-- A failed comparison resumes with the stacked context, if there is one. -/
def resume : List Point → Search ⊕ Option (Nat × Nat)
  | [] => .inr none
  | top :: context => .inl ⟨top, context⟩

/-- The end of the pattern was reached. -/
def endOfPattern (now : Point) : Search ⊕ Option (Nat × Nat) :=
  .inr (some (now.ss, max (now.s - now.ss) 1))

/-- The search goes past one character of the text. The first one starts the match. -/
def advance (now : Point) (s : Nat) (p : Bytes) (context : List Point) : Search :=
  ⟨⟨if now.first then s else now.ss, s + 1, p, false⟩, context⟩

/-- This is one turn of the loop of `content_textsearch_find_pattern`. -/
def findTurn (string : Bytes) (caseSens : Bool) (search : Search) :
    Search ⊕ Option (Nat × Nat) :=
  let now := search.now
  match now.p with
  | [] => endOfPattern now
  | ch :: p =>
      if ch == chr '*' then
        match p.dropWhile (· == chr '*') with
        | [] => endOfPattern now
        | ch :: p =>
            let s := if ch == chr '#' then now.s else scan string caseSens ch now.s
            if s < string.length then
              let context := if search.context.length < contextSize then
                ⟨now.ss, s + 1, chr '*' :: ch :: p, now.first⟩ :: search.context
                else search.context
              .inl (advance now s p context)
            else resume search.context
      else
        match string[now.s]? with
        | some c =>
            if ch == chr '#' || sameChar caseSens c ch then
              .inl (advance now now.s p search.context)
            else resume search.context
        | none => resume search.context

/-- The search starts at a virtual '*' before the pattern. -/
def findStart (pattern : Bytes) : Search := ⟨⟨0, 0, chr '*' :: pattern, true⟩, []⟩

/-- This is `content_textsearch_find_pattern` within a number of turns of its loop. It returns the
position and the length of a match, or no match. -/
def findPattern (turns : Nat) (string pattern : Bytes) (caseSens : Bool) :
    Option (Option (Nat × Nat)) :=
  Loop.run (findTurn string caseSens) turns (findStart pattern)

/-- This is `list_entry` without its two pointers. Boxes are opaque here, and a selection object is
the positions that it was set to. -/
structure ListEntry where
  startIdx : Nat
  endIdx : Nat
  startBox : Nat
  endBox : Nat
  sel : Option (Nat × Nat)
  deriving DecidableEq

/-- This is `struct textsearch_context`. The ends are the pointers of the head entry `found`. -/
structure TextsearchContext where
  guiP : Nat
  found : LinkedEnds
  current : Option Nat
  string : Option Bytes
  prevCaseSens : Bool
  newsearch : Bool

inductive TextsearchType where
  | textsearchFind | textsearchMatch | textsearchBack | textsearchForward | textsearchRecent
  deriving DecidableEq

/-- These are the flags of a search. -/
structure SearchFlags where
  caseSensitive : Bool
  forwards : Bool
  showall : Bool

structure Rect where
  x0 : Int
  y0 : Int
  x1 : Int
  y1 : Int

/-- These are the messages that a search broadcasts. -/
inductive Message where
  | textsearch (type : TextsearchType) (ctx : Nat) (state : Bool) (string : Option Bytes)
  | scroll (area : Option Rect)

/-- A context with the memory of the entries and the messages so far, the last one first. Memory
for an entry is taken at addresses in ascending order. -/
structure State where
  ts : TextsearchContext
  memory : CellMemory ListEntry
  allocated : Nat
  sent : List Message

/-- What the memory and the handlers of the content answer in the course of a call. The find
handler tries to add matches, some of them without memory, and ends with a result. -/
structure Replies where
  contextMem : Bool
  headMem : Bool
  duplicateMem : Bool
  stringMem : Bool
  selectionMem : Nat → Bool
  added : List (ListEntry × Bool)
  findResult : Nserror
  bounds : Except Nserror Rect

/-- This is `textsearch_broadcast`. -/
def broadcast (type : TextsearchType) (state : Bool) (string : Option Bytes) (s : State) : State :=
  { s with sent := .textsearch type s.ts.guiP state string :: s.sent }

/-- The list is emptied before its entries are freed. -/
def freeMatches (s : State) : State :=
  { s with
    ts.found := {}
    memory := CellMemory.freeFrom s.allocated s.ts.found.first s.memory }

/-- All entries are highlighted, or the current one. -/
def highlighted (all : Bool) (current : Option Nat) (selectionMem : Nat → Bool) (a : Nat)
    (entry : ListEntry) : ListEntry :=
  let add := all || current == some a
  { entry with
    sel := if add then
        if entry.sel.isNone && selectionMem a then some (entry.startIdx, entry.endIdx)
        else entry.sel
      else none }

def searchShowAll (all : Bool) (replies : Replies) (s : State) : State :=
  { s with
    memory := CellMemory.mapFrom (highlighted all s.ts.current replies.selectionMem) s.allocated
      s.ts.found.first s.memory }

/-- This is `content_textsearch_add_match`. -/
def addMatch (s : State) (entry : ListEntry) (mem : Bool) : State :=
  if mem then
    let last := s.ts.found.last
    { s with
      ts.found := s.ts.found.extended s.allocated
      memory := CellMemory.setNext
        (Function.update s.memory s.allocated (some ⟨last, none, { entry with sel := none }⟩))
        last (some s.allocated)
      allocated := s.allocated + 1 }
  else s

/-- The current entry is read, if there is one. There is no answer for an entry that was freed. -/
def currentEntry (s : State) : Option (Option (LinkedCell ListEntry)) :=
  match s.ts.current with
  | none => some none
  | some a => (s.memory a).map some

/-- A search goes on from the current match in the direction that was asked for. -/
def continueSearch (forwards : Bool) (s : State) : Option State := do
  let entry ← currentEntry s
  match entry with
  | none => some s
  | some entry =>
      let beside := if forwards then entry.next else entry.prev
      some { s with ts.current := beside.or s.ts.current }

/-- The content is asked where the current match is, and scrolled to it. -/
def scrollToMatch (replies : Replies) (s : State) : State × Nserror :=
  match replies.bounds with
  | .ok bounds => ({ s with sent := .scroll (some bounds) :: s.sent }, .ok)
  | .error e => (s, e)

/-- This is the second part of `search_text`, from the update of the match state on. -/
def updateStates (showall : Bool) (replies : Replies) (s : State) : Option (State × Nserror) := do
  let s := broadcast .textsearchMatch s.ts.current.isSome none s
  let s := searchShowAll showall replies s
  let entry ← currentEntry s
  let s := broadcast .textsearchBack (entry.any (·.prev.isSome)) none s
  let s := broadcast .textsearchForward (entry.any (·.next.isSome)) none s
  if s.ts.current = none then some (s, .ok) else some (scrollToMatch replies s)

/-- A new search drops the matches of the one before and asks the content for its own. -/
def startSearch (string : Bytes) (replies : Replies) (s : State) : State :=
  let s := freeMatches { s with ts.current := none }
  let s := { s with ts.string := if replies.stringMem then some string else none }
  let s := broadcast .textsearchFind true none s
  let s := replies.added.foldl (fun s entry => addMatch s entry.1 entry.2) s
  broadcast .textsearchFind false none s

/-- This is `search_text`. -/
def searchText (string : Bytes) (flags : SearchFlags) (replies : Replies) (s : State) :
    Option (State × Nserror) :=
  if s.ts.newsearch || s.ts.prevCaseSens != flags.caseSensitive then
    let s := startSearch string replies s
    if replies.findResult ≠ .ok then some (freeMatches s, replies.findResult)
    else
      updateStates flags.showall replies
        { s with
          ts.prevCaseSens := flags.caseSensitive
          ts.current := s.ts.found.first
          ts.newsearch := false }
  else do
    let s ← continueSearch flags.forwards s
    updateStates flags.showall replies s

/-- A string of nothing but wildcards is not searched for. -/
def onlyWildcards (string : Bytes) : Bool := string.all fun c => c == chr '#' || c == chr '*'

/-- This is `content_textsearch_step`. -/
def step (flags : SearchFlags) (string : Bytes) (replies : Replies) (s : State) :
    Option (State × Nserror) :=
  let s := broadcast .textsearchRecent false (some string) s
  if onlyWildcards string then
    let s := freeMatches s
    let s := broadcast .textsearchMatch true none s
    let s := broadcast .textsearchBack false none s
    let s := broadcast .textsearchForward false none s
    some ({ s with sent := .scroll none :: s.sent }, .ok)
  else searchText string flags replies s

/-- The content keeps the string and the context of its search. -/
structure Content where
  string : Option Bytes
  context : Option TextsearchContext
  memory : CellMemory ListEntry
  allocated : Nat
  sent : List Message

/-- A content starts without a search. -/
def Content.initial : Content := ⟨none, none, fun _ => none, 0, []⟩

/-- The context of a content with what is around it. -/
def Content.state (c : Content) (ts : TextsearchContext) : State :=
  ⟨ts, c.memory, c.allocated, c.sent⟩

def Content.ofState (string : Option Bytes) (s : State) : Content :=
  ⟨string, some s.ts, s.memory, s.allocated, s.sent⟩

/-- This is `content_textsearch_destroy`. -/
def destroy (s : State) : State :=
  let s := if s.ts.string.isSome then broadcast .textsearchRecent false s.ts.string s else s
  let s := broadcast .textsearchBack true none s
  let s := broadcast .textsearchForward true none s
  freeMatches s

/-- The context of a content is destroyed if it has one. -/
def Content.dropContext (c : Content) : Content :=
  match c.context with
  | none => c
  | some ts =>
      let s := destroy (c.state ts)
      ⟨c.string, none, s.memory, s.allocated, s.sent⟩

/-- This is `content_textsearch_create`, for a content with both handlers or without. -/
def create (supported : Bool) (guiData : Nat) (replies : Replies) :
    Except Nserror TextsearchContext :=
  if !supported then .error .notImplemented
  else if !replies.contextMem then .error .nomem
  else if !replies.headMem then .error .nomem
  else .ok ⟨guiData, {}, none, none, false, true⟩

/-- This is `content_textsearch__clear`. -/
def clear (c : Content) : Content := Content.dropContext { c with string := none }

/-- A call of the search with its arguments and what is answered in the course of it. -/
structure Call where
  context : Nat
  flags : SearchFlags
  string : Option Bytes
  replies : Replies

/-- The search goes on with the same string. -/
def Call.continues (c : Content) (call : Call) : Bool :=
  call.string.isSome && c.context.isSome && call.string == c.string

/-- This is `content_textsearch`. There is no result where a freed entry is read. -/
def contentTextsearch (supported : Bool) (c : Content) (call : Call) :
    Option (Content × Nserror) :=
  match call.string with
  | none => some (clear c, .ok)
  | some string =>
      match c.context with
      | some ts =>
          if c.string = some string then do
            let (s, _) ← step call.flags string call.replies (c.state ts)
            some (.ofState c.string s, .ok)
          else newSearch string
      | none => newSearch string
where
  newSearch (string : Bytes) : Option (Content × Nserror) :=
    if !call.replies.duplicateMem then some ({ c with string := none }, .nomem)
    else
      let c := Content.dropContext { c with string := some string }
      match create supported call.context call.replies with
      | .error e => some (c, e)
      | .ok ts => do
          let (s, _) ← step call.flags string call.replies (c.state ts)
          some (.ofState c.string s, .ok)

end Textsearch

end Neosurf
