/-
This file models the history tree of `desktop/browser_history.c`. Entries are found by their
address, and the thumbnails are left out.
-/

import Mathlib.Logic.Function.Basic
import Neosurf.Construction.Bytes

namespace Neosurf.LocalHistory

/-- This is `struct history_page`. The scroll position is held as the bits of two floats. -/
structure HistoryPage where
  url : Bytes
  fragId : Option Bytes
  title : Bytes
  scrollX : UInt32
  scrollY : UInt32
  deriving DecidableEq

/-- This is `struct history_entry`. -/
structure HistoryEntry where
  page : HistoryPage
  back : Option Nat
  next : Option Nat
  forward : Option Nat
  forwardPref : Option Nat
  forwardLast : Option Nat
  children : Nat
  x : Int
  y : Int
  deriving DecidableEq

/-- This is `struct history` with the memory of its entries, whose free addresses begin at
`fresh`. -/
structure History where
  memory : Nat → Option HistoryEntry
  fresh : Nat
  start : Option Nat
  current : Option Nat
  width : Int
  height : Int

/-- These are `LOCAL_HISTORY_WIDTH` and the other measures of the layout. -/
structure Measures where
  width : Int
  height : Int
  rightMargin : Int
  bottomMargin : Int

namespace History

variable (h : History)

/-- An entry is changed in place. -/
def modify (a : Nat) (change : HistoryEntry → HistoryEntry) : History :=
  { h with memory := Function.update h.memory a ((h.memory a).map change) }

/-- This is `calloc` for an entry that is then filled in. -/
def allocate (e : HistoryEntry) : History :=
  { h with memory := Function.update h.memory h.fresh (some e), fresh := h.fresh + 1 }

/-- An entry follows its previous sibling, if there is one. -/
def linkAfter (prev : Option Nat) (entry : Nat) : History :=
  match prev with
  | none => h
  | some prev => h.modify prev fun e => { e with next := some entry }

end History

/-- What a clone copies before it looks at the children. The rest is zero. -/
def HistoryEntry.copied (e : HistoryEntry) : HistoryEntry :=
  { page := { e.page with scrollX := 0, scrollY := 0 }
    back := e.back
    next := e.next
    forward := e.forward
    forwardPref := e.forwardPref
    forwardLast := e.forwardLast
    children := 0
    x := 0
    y := 0 }

/-- The links to one child are led to its clone. -/
def HistoryEntry.relink (child newChild : Nat) (e : HistoryEntry) : HistoryEntry :=
  { e with
    forward := if e.forward = some child then some newChild else e.forward
    forwardPref := if e.forwardPref = some child then some newChild else e.forwardPref
    forwardLast := if e.forwardLast = some child then some newChild else e.forwardLast }

namespace History

mutual

/-- This is `browser_window_history__clone_entry`. It is `none` when an entry is missing or the
rounds run out. -/
def cloneEntry : Nat → History → Nat → Option (History × Nat)
  | 0, _, _ => none
  | rounds + 1, h, entry => do
      let e ← h.memory entry
      let new := h.fresh
      let h ← cloneChildren rounds (h.allocate e.copied) new none e.forward
      let h := if h.current = some entry then { h with current := some new } else h
      some (h, new)

/-- This is its loop over the children, after the one that was cloned as `prev`. -/
def cloneChildren : Nat → History → Nat → Option Nat → Option Nat → Option History
  | _, h, _, _, none => some h
  | 0, _, _, _, some _ => none
  | rounds + 1, h, new, prev, some child => do
      let (h, newChild) ← cloneEntry rounds h child
      let h := h.modify newChild fun e => { e with back := some new }
      let h := h.linkAfter prev newChild
      let h := h.modify new (HistoryEntry.relink child newChild)
      let e ← h.memory child
      cloneChildren rounds h new (some newChild) e.next

end

mutual

/-- This is `browser_window_history__layout_subtree`, with the greatest `y` that it uses. -/
def layoutSubtree (m : Measures) : Nat → History → Nat → Int → Int → Option (History × Int)
  | 0, _, _, _, _ => none
  | rounds + 1, h, entry, x, y => do
      let h := if h.width < x + m.width then { h with width := x + m.width } else h
      let e ← h.memory entry
      match e.forward with
      | none => some (h.modify entry fun e => { e with x := x, y := y }, y + m.height)
      | some child => do
          let (h, y1) ← layoutChildren m rounds h child (x + m.width + m.rightMargin) y
          some (h.modify entry fun e =>
            { e with x := x, y := (y + y1).tdiv 2 - m.height.tdiv 2 }, y1)

/-- This is its loop, which places the subtrees of the children below each other. -/
def layoutChildren (m : Measures) : Nat → History → Nat → Int → Int → Option (History × Int)
  | 0, _, _, _, _ => none
  | rounds + 1, h, child, x, y => do
      let (h, y1) ← layoutSubtree m rounds h child x y
      let e ← h.memory child
      match e.next with
      | none => some (h, y1)
      | some next => layoutChildren m rounds h next x (y1 + m.bottomMargin)

end

/-- A walk over the tree meets no entry twice, so this many rounds are enough. -/
def rounds (h : History) : Nat := 2 * h.fresh

/-- This is `browser_window_history__layout`. -/
def layout (m : Measures) (h : History) : Option History := do
  let h := { h with width := 0 }
  let h ←
    match h.start with
    | none => some { h with height := 0 }
    | some start => do
        let (h, height) ←
          layoutSubtree m h.rounds h start (m.rightMargin.tdiv 2) (m.bottomMargin.tdiv 2)
        some { h with height := height }
  some { h with
    width := h.width + m.rightMargin.tdiv 2
    height := h.height + m.bottomMargin.tdiv 2 }

/-- This is `browser_window_history_create`. -/
def create (m : Measures) : History :=
  { memory := fun _ => none
    fresh := 0
    start := none
    current := none
    width := m.rightMargin.tdiv 2
    height := m.bottomMargin.tdiv 2 }

/-- This is `browser_window_history_clone`. -/
def clone (m : Measures) (h : History) : Option History :=
  match h.start with
  | none => some (create m)
  | some start => do
      let (h, newStart) ← cloneEntry h.rounds h start
      some { h with start := some newStart }

/-- The new entry is linked as the last child of the current one. -/
def link (h : History) (entry : Nat) : Option History :=
  match h.current with
  | none => some { h with start := some entry, current := some entry }
  | some current => do
      let e ← h.memory current
      let h :=
        match e.forwardLast with
        | some last => h.modify last fun e => { e with next := some entry }
        | none => h.modify current fun e => { e with forward := some entry }
      some { h.modify current fun e =>
        { e with
          forwardPref := some entry
          forwardLast := some entry
          children := e.children + 1 } with current := some entry }

/-- This is `browser_window_history_add`. -/
def add (m : Measures) (h : History) (url title : Bytes) (fragId : Option Bytes) :
    Option History := do
  let entry := h.fresh
  let h := h.allocate
    { page := ⟨url, fragId, title, 0, 0⟩
      back := h.current
      next := none
      forward := none
      forwardPref := none
      forwardLast := none
      children := 0
      x := 0
      y := 0 }
  let h ← h.link entry
  h.layout m

/-- This is `browser_window_history_update`: the current page gets its title again, and its scroll
position when the window tells it. -/
def update (h : History) (title : Bytes) (scroll : Option (UInt32 × UInt32)) : History :=
  match h.current with
  | none => h
  | some current => h.modify current fun e =>
      { e with
        page := { e.page with
          title := title
          scrollX := (scroll.map Prod.fst).getD e.page.scrollX
          scrollY := (scroll.map Prod.snd).getD e.page.scrollY } }

/-- This is what `browser_window_history_go` does to the history of its own window. The page that
is left is updated, if a content is shown. -/
def go (h : History) (entry : Nat) (left : Option (Bytes × Option (UInt32 × UInt32))) : History :=
  let h :=
    match left with
    | none => h
    | some (title, scroll) => h.update title scroll
  { h with current := some entry }

/-- This is what it does when a new window is asked for. The history that the new window starts
with is cloned while the entry stands for the current one. -/
def goNewWindow (m : Measures) (h : History) (entry : Nat) : Option History :=
  { h with current := some entry }.clone m

end History

end Neosurf.LocalHistory
