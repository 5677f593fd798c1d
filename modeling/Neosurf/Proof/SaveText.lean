/-
This file shows what is saved of the text of a box tree.
-/

import Neosurf.Construction.SaveText

namespace Neosurf.SaveText

open Html MarkedForest

variable {junk : Nat → Byte}

/-- A box is extracted at its place in document order. -/
theorem extractText_eq (siblings : Bool) (parent : Option Box) (isMarker : Bool) (boxes : Boxes)
    (state : Before × SaveTextState) :
    extractText junk siblings parent isMarker boxes state =
      (visits siblings parent isMarker boxes).foldlM (fun state v => extractBox junk v state)
        state := by
  induction boxes generalizing siblings parent isMarker state with
  | nil => rfl
  | cons box marker children next marker_ih children_ih next_ih =>
      rw [extractText, visits]
      simp only [List.foldlM_append, List.foldlM_cons, marker_ih, children_ih, next_ih, bind_assoc]
      cases siblings with
      | true => rfl
      | false => rfl

/-- What one text adds. -/
structure Piece where
  whitespace : Bytes
  text : Bytes
  space : Bytes

/-- This is the copy of its text that is noted. -/
def Piece.copy (piece : Piece) : Nat × Nat :=
  (piece.text.length, piece.text.length + piece.whitespace.length)

def Piece.bytes (piece : Piece) : Bytes := piece.whitespace ++ piece.text ++ piece.space

/-- The pieces of the boxes in their order. -/
def pieces : Before → List (Visit Box) → List Piece
  | _, [] => []
  | s, v :: rest =>
      let (s, whitespace, _) := solveWhitespace v s
      match textToSave v.data with
      | some text =>
          ⟨whitespace, readMemory text v.data.length, if 0 < v.data.space then str " " else []⟩ ::
            pieces ⟨false, .none⟩ rest
      | none => pieces s rest

/-- This is the text that was saved. -/
def SaveTextState.saved (save : SaveTextState) : Bytes := save.block.take save.length

theorem length_readMemory (pointer : Nat → Byte) (length : Nat) :
    (readMemory pointer length).length = length := by
  rw [readMemory, List.length_map, List.length_range]

/-- A longer read starts with the shorter one. -/
theorem take_readMemory (pointer : Nat → Byte) {length more : Nat} (le : length ≤ more) :
    (readMemory pointer more).take length = readMemory pointer length := by
  rw [readMemory, ← List.map_take, List.take_range, Nat.min_eq_left le, readMemory]

/-- What is in the block stays there. -/
theorem take_realloc (junk : Nat → Byte) {block : Bytes} {size : Nat}
    (larger : block.length ≤ size) :
    (realloc junk size block).take block.length = block := by
  rw [realloc, take_readMemory _ larger, readMemory]
  apply List.ext_getElem
  · simp
  · intro i _ inside
    simp [inside]

/-- A write within the block. -/
theorem write_spec (block bytes : Bytes) (pos : Nat) (fits : pos + bytes.length ≤ block.length) :
    ∃ block', write block pos bytes = some block' ∧ block'.length = block.length ∧
      ∀ n ≤ bytes.length, block'.take (pos + n) = block.take pos ++ bytes.take n := by
  refine ⟨_, if_pos fits, ?_, fun n le => ?_⟩
  · simp only [List.length_append, List.length_take, List.length_drop]
    omega
  · have before : (block.take pos).length = pos := List.length_take_of_le (by omega)
    rw [List.append_assoc, List.take_append, before, Nat.add_sub_cancel_left,
      List.take_of_length_le (by omega), List.take_append_of_le_length le]

/-- The block has more memory afterwards, and the same text. -/
theorem enlarge_spec (junk : Nat → Byte) {save : SaveTextState} (within : save.length ≤ save.alloc)
    (newLength : Nat) :
    (enlarge junk newLength save).length = save.length ∧
      (enlarge junk newLength save).copies = save.copies ∧
      newLength ≤ (enlarge junk newLength save).alloc ∧
      (enlarge junk newLength save).saved = save.saved := by
  rw [enlarge]
  split
  · have inside : save.length ≤ save.block.length := within
    have larger : save.block.length ≤ max newLength (save.alloc + save.alloc / 4) := by
      rw [SaveTextState.alloc]
      omega
    refine ⟨rfl, rfl, ?_, ?_⟩
    · rw [SaveTextState.alloc, realloc, length_readMemory]
      exact Nat.le_max_left ..
    · have kept := congrArg (List.take save.length) (take_realloc junk larger)
      rw [List.take_take, Nat.min_eq_left inside] at kept
      exact kept
  · exact ⟨rfl, rfl, by omega, rfl⟩

/-- A text comes after what was saved, with its whitespace and its space. The copy reads as many
bytes behind the text as there are of the whitespace. -/
theorem addToBuffer_spec (junk : Nat → Byte) {save : SaveTextState}
    (within : save.length ≤ save.alloc) (text : Nat → Byte) (length : Nat) (box : Box)
    (whitespace : Bytes) :
    ∃ save', addToBuffer junk text length box (some whitespace) whitespace.length save =
        some save' ∧ save'.length ≤ save'.alloc ∧
      save'.saved = save.saved ++ (whitespace ++ readMemory text length ++
        if 0 < box.space then str " " else []) ∧
      save'.copies = (length, length + whitespace.length) :: save.copies := by
  obtain ⟨space, found⟩ : ∃ space, (if 0 < box.space then 1 else 0) = space := ⟨_, rfl⟩
  obtain ⟨larger, enlarged⟩ : ∃ larger, enlarge junk (save.length + whitespace.length +
      (length + whitespace.length) + space) save = larger := ⟨_, rfl⟩
  obtain ⟨same, copies, room, saved⟩ := enlarge_spec junk within
    (save.length + whitespace.length + (length + whitespace.length) + space)
  rw [enlarged] at same copies room saved
  have memory : larger.alloc = larger.block.length := rfl
  obtain ⟨block₁, written₁, size₁, first⟩ := write_spec larger.block whitespace larger.length
    (by omega)
  obtain ⟨block₂, written₂, size₂, second⟩ := write_spec block₁
    (readMemory text (length + whitespace.length)) (larger.length + whitespace.length)
    (by rw [length_readMemory]; omega)
  have after : block₂.take (larger.length + (length + whitespace.length)) =
      save.saved ++ (whitespace ++ readMemory text length) := by
    rw [show larger.length + (length + whitespace.length) =
      larger.length + whitespace.length + length by omega,
      second length (by rw [length_readMemory]; omega), first _ (Nat.le_refl _), List.take_length,
      take_readMemory _ (Nat.le_add_right ..), List.append_assoc]
    exact congrArg (· ++ _) saved
  rw [addToBuffer]
  simp only [Option.isSome_some, if_true, found, enlarged, List.take_length, written₁, written₂,
    Option.bind_eq_bind, Option.bind_some]
  by_cases spaced : 0 < box.space
  · rw [if_pos spaced] at found
    subst found
    obtain ⟨block₃, written₃, size₃, third⟩ := write_spec block₂ (str " ")
      (larger.length + (length + whitespace.length)) (by change _ + 1 ≤ _; omega)
    refine ⟨⟨block₃, larger.length + (length + whitespace.length) + 1,
      (length, length + whitespace.length) :: larger.copies⟩, ?_, ?_, ?_, ?_⟩
    · simp only [if_true, written₃, Option.bind_some]
    · change larger.length + (length + whitespace.length) + 1 ≤ block₃.length
      omega
    · rw [if_pos spaced]
      refine (third 1 (Nat.le_refl 1)).trans ?_
      rw [after, List.append_assoc save.saved]
      rfl
    · rw [copies]
  · rw [if_neg spaced] at found
    subst found
    refine ⟨⟨block₂, larger.length + (length + whitespace.length), _⟩, rfl, ?_, ?_, ?_⟩
    · change larger.length + (length + whitespace.length) ≤ block₂.length
      omega
    · rw [if_neg spaced, List.append_nil]
      exact after
    · rw [copies]

/-- What a state has after some boxes: their pieces, and a copy for each of them. -/
structure Extracted (added : List Piece) (save save' : SaveTextState) : Prop where
  within : save'.length ≤ save'.alloc
  saved : save'.saved = save.saved ++ added.flatMap Piece.bytes
  copies : save'.copies = (added.map Piece.copy).reverse ++ save.copies

theorem extractBoxes_spec (junk : Nat → Byte) (boxes : List (Visit Box)) (s : Before)
    {save : SaveTextState}
    (within : save.length ≤ save.alloc) :
    ∃ s' save', boxes.foldlM (fun state v => extractBox junk v state) (s, save) =
      some (s', save') ∧ Extracted (pieces s boxes) save save' := by
  induction boxes generalizing s save with
  | nil => exact ⟨s, save, rfl, within, by simp [pieces], by simp [pieces]⟩
  | cons v rest ih =>
      obtain ⟨s₁, found⟩ : ∃ s₁, (solveWhitespace v s).1 = s₁ := ⟨_, rfl⟩
      obtain ⟨whitespace, solved⟩ : ∃ w, (solveWhitespace v s).2.1 = w := ⟨_, rfl⟩
      have whole : solveWhitespace v s = (s₁, whitespace, whitespace.length) := by
        rw [← found, ← solved]
        rfl
      cases here : textToSave v.data with
      | none =>
          obtain ⟨s', save', done, extracted⟩ := ih s₁ within
          refine ⟨s', save', ?_, ?_⟩
          · rw [List.foldlM_cons, extractBox, whole, here]
            exact done
          · rw [pieces, whole, here]
            exact extracted
      | some text =>
          obtain ⟨save₁, added, within₁, saved₁, copies₁⟩ :=
            addToBuffer_spec junk within text v.data.length v.data whitespace
          obtain ⟨s', save', done, within', saved, copies⟩ := ih ⟨false, .none⟩ within₁
          refine ⟨s', save', ?_, ?_⟩
          · rw [List.foldlM_cons, extractBox, whole, here]
            simp only [added, Option.bind_eq_bind, Option.bind_some]
            exact done
          · rw [pieces, whole, here]
            refine ⟨within', ?_, ?_⟩
            · rw [saved, saved₁, List.flatMap_cons, List.append_assoc]
              rfl
            · rw [copies, copies₁, List.map_cons, List.reverse_cons, List.append_assoc, Piece.copy,
                length_readMemory]
              rfl

/-- These are the pieces of a box tree. -/
def piecesOf (tree : Boxes) : List Piece := pieces ⟨true, .none⟩ (visits false none false tree)

/-- The pieces of all boxes are saved in document order, and nothing is written beyond the block.
No copy reads beyond the text of its box exactly if no piece has whitespace before it. -/
theorem saveAsText_spec (junk : Nat → Byte) (tree : Boxes) :
    ∃ save, saveAsText junk tree = some save ∧
      save.block.take save.length = (piecesOf tree).flatMap Piece.bytes ∧
      ((∀ copy ∈ save.copies, copy.2 ≤ copy.1) ↔
        ∀ piece ∈ piecesOf tree, piece.whitespace = []) := by
  have start : (⟨[], 0, []⟩ : SaveTextState).length ≤ (⟨[], 0, []⟩ : SaveTextState).alloc :=
    Nat.le_refl 0
  obtain ⟨s', save, done, -, saved, copies⟩ :=
    extractBoxes_spec junk (visits false none false tree) ⟨true, .none⟩ start
  refine ⟨save, ?_, saved, ?_⟩
  · rw [saveAsText, extractText_eq, done]
    rfl
  · rw [copies, List.append_nil]
    simp only [List.mem_reverse, List.forall_mem_map]
    refine forall₂_congr fun piece _ => ?_
    rw [Piece.copy, ← List.length_eq_zero_iff]
    omega

/-- The text of a box in memory, with the NUL behind it. -/
def textBox (text : Bytes) : Box :=
  ⟨.text, some (byteAt text), text.length, 0, none, 0⟩

/-- Two paragraphs of one character each. -/
def twoParagraphs : Boxes :=
  let paragraph (text : Bytes) (next : Boxes) : Boxes :=
    .cons ⟨.block, none, 0, 0, none, 0⟩ .nil (.cons (textBox text) .nil .nil .nil) next
  .cons ⟨.block, none, 0, 0, none, 0⟩ .nil (paragraph (str "a") (paragraph (str "b") .nil)) .nil

/-- The second paragraph starts after an empty line, and three bytes are read for its one. -/
theorem saveAsText_twoParagraphs : ∃ save, saveAsText (fun _ => 0) twoParagraphs = some save ∧
    save.block.take save.length = str "a\n\nb" ∧ (1, 3) ∈ save.copies :=
  ⟨_, rfl, by decide, by decide⟩

end Neosurf.SaveText
