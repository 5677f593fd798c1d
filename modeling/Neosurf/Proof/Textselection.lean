/-
This file proves when the text that is copied from a box tree is the selected part of its text.
-/

import Mathlib.Tactic.SplitIfs
import Neosurf.Construction.Textselection

namespace Neosurf.Textselection

open Html MarkedForest SaveText

/-- The part of a text at this offset that lies in the range. -/
def slice (start stop offset : Nat) (text : Bytes) : Bytes :=
  (text.drop (start - offset)).take (stop - max start offset)

section Slices

variable {start stop offset : Nat} {a b text : Bytes}

theorem slice_nil : slice start stop offset [] = [] := by simp [slice]

theorem slice_append :
    slice start stop offset (a ++ b) =
      slice start stop offset a ++ slice start stop (offset + a.length) b := by
  have behind : start - offset - a.length = start - (offset + a.length) := by omega
  have room : stop - max start offset - (a.length - (start - offset)) =
      stop - max start (offset + a.length) := by omega
  rw [slice, List.drop_append, List.take_append, List.length_drop, behind, room]
  rfl

theorem slice_of_after (after : stop ≤ offset) : slice start stop offset text = [] := by
  rw [slice, show stop - max start offset = 0 by omega, List.take_zero]

theorem slice_of_before (before : offset + text.length ≤ start) :
    slice start stop offset text = [] := by
  rw [slice, List.drop_eq_nil_of_le (by omega), List.take_nil]

/-- One byte is in the range or not. -/
theorem slice_singleton (c : Byte) (below : offset < stop) :
    slice start stop offset [c] = if start ≤ offset then [c] else [] := by
  by_cases inside : start ≤ offset
  · rw [if_pos inside, slice, show start - offset = 0 by omega, List.drop_zero,
      List.take_of_length_le (by rw [List.length_singleton]; omega)]
  · rw [if_neg inside, slice_of_before (by rw [List.length_singleton]; omega)]

end Slices

/-- A box as it is constructed: a line break has no text, and a missing text has no length. -/
structure IsBuilt (b : Box) : Prop where
  br : b.type = .br → b.text = none
  length : b.text = none → b.length = 0

/-- All boxes are as constructed, and a list marker is a single box. -/
def Built : Boxes → Prop
  | nil => True
  | cons box listMarker children next =>
      IsBuilt box ∧ (listMarker = nil ∨ ∃ m, listMarker = cons m nil nil nil ∧ IsBuilt m) ∧
        Built children ∧ Built next

/-- The text of a box with its trailing space. -/
def boxText (b : Box) : Bytes :=
  match b.text with
  | some text => readMemory text b.length ++ if b.space = 0 then [] else str " "
  | none => []

/-- This is the textual representation: the texts of the boxes in the order of their labels. -/
def representation (siblings : Bool) : Boxes → Bytes
  | nil => []
  | cons box listMarker children next =>
      (if siblings then representation false listMarker else []) ++ boxText box ++
        representation true children ++ if siblings then representation true next else []

/-- The boxes in the order of their labels. -/
def labelledBoxes (siblings : Bool) : Boxes → List Box
  | nil => []
  | cons box listMarker children next =>
      (if siblings then labelledBoxes false listMarker else []) ++ box ::
        labelledBoxes true children ++ if siblings then labelledBoxes true next else []

/-- Each box has the offset of its text. -/
def Labelled (siblings : Bool) : Boxes → Nat → Prop
  | nil, _ => True
  | cons box listMarker children next, idx =>
      let own := if siblings then idx + (representation false listMarker).length else idx
      (siblings = true → Labelled false listMarker idx) ∧ box.byteOffset = own ∧
        Labelled true children (own + (boxText box).length) ∧
        (siblings = true → Labelled true next
          (own + (boxText box).length + (representation true children).length))

/-- What a box adds to the copy besides white space before it. -/
def boxPiece (start stop : Nat) (b : Box) : Bytes :=
  if b.type ≠ .br ∧ isTextlessFloat b = false then
    match selectedPart b start stop with
    | some (startOff, endOff) =>
        boxBytes b startOff (min b.length endOff - startOff) ++ if b.space != 0 then str " " else []
    | none => []
  else []

/-- What all boxes of a tree add, where none is left out. -/
def copiedText (start stop : Nat) (siblings : Bool) : Boxes → Bytes
  | nil => []
  | cons box listMarker children next =>
      copiedText start stop false listMarker ++ boxPiece start stop box ++
        copiedText start stop true children ++
        if siblings then copiedText start stop true next else []

section Labels

theorem length_boxText (b : Box) :
    (boxText b).length = if b.text.isSome then b.length + spaceLen b else 0 := by
  rw [boxText, spaceLen]
  cases b.text with
  | none => rfl
  | some text =>
      simp only [Option.isSome_some, if_true, List.length_append, readMemory, List.length_map,
        List.length_range]
      split <;> rfl

/-- Labelling changes no text. -/
theorem representation_label (siblings other : Bool) (t : Boxes) (idx : Nat) :
    representation other (selectionLabelSubtree siblings t idx).1 = representation other t := by
  induction t generalizing siblings other idx with
  | nil => rfl
  | cons box listMarker children next mark_ih children_ih next_ih =>
      cases siblings with
      | true =>
          simp only [selectionLabelSubtree, representation, if_true, mark_ih, children_ih, next_ih]
          rfl
      | false =>
          simp only [selectionLabelSubtree, representation, Bool.false_eq_true, if_false,
            children_ih]
          rfl

/-- The labels are the offsets of the texts, and the last one is the length of the whole. -/
theorem label_spec (siblings : Bool) (t : Boxes) (idx : Nat) :
    Labelled siblings (selectionLabelSubtree siblings t idx).1 idx ∧
      (selectionLabelSubtree siblings t idx).2 = idx + (representation siblings t).length := by
  induction t generalizing siblings idx with
  | nil => exact ⟨trivial, rfl⟩
  | cons box listMarker children next mark_ih children_ih next_ih =>
      have text (idx : Nat) : boxText { box with byteOffset := idx } = boxText box := rfl
      have own (idx : Nat) : (if box.text.isSome then idx + (box.length + spaceLen box) else idx) =
          idx + (boxText box).length := by
        rw [length_boxText]
        split <;> rfl
      cases siblings with
      | true =>
          simp only [selectionLabelSubtree, Labelled, representation, if_true, own, text,
            representation_label, List.length_append, (mark_ih _ _).2, (children_ih _ _).2,
            (next_ih _ _).2]
          exact ⟨⟨fun _ => (mark_ih false idx).1, trivial, (children_ih true _).1, fun _ =>
            (next_ih true _).1⟩, by omega⟩
      | false =>
          simp only [selectionLabelSubtree, Labelled, representation, Bool.false_eq_true, if_false,
            own, text, representation_label, List.length_append, (children_ih _ _).2,
            List.length_nil, IsEmpty.forall_iff, true_and, and_true]
          exact ⟨(children_ih true _).1, by omega⟩

theorem built_label {t : Boxes} (built : Built t) (siblings : Bool) (idx : Nat) :
    Built (selectionLabelSubtree siblings t idx).1 := by
  induction t generalizing siblings idx with
  | nil => exact built
  | cons box listMarker children next _ children_ih next_ih =>
      obtain ⟨own, mark, inner, later⟩ := built
      cases siblings with
      | true =>
          simp only [selectionLabelSubtree, if_true]
          refine ⟨⟨own.br, own.length⟩, ?_, children_ih inner true _, next_ih later true _⟩
          rcases mark with rfl | ⟨m, rfl, leaf⟩
          · exact Or.inl rfl
          · exact Or.inr ⟨_, rfl, ⟨leaf.br, leaf.length⟩⟩
      | false => exact ⟨⟨own.br, own.length⟩, mark, children_ih inner true _, later⟩

end Labels

section Pieces

variable {start stop : Nat} {b : Box}

/-- The selected part of a box runs from the start of the range to its end, as far as the text and
the space go. -/
theorem selectedPart_eq : selectedPart b start stop =
    if 0 < b.length + spaceLen b ∧ start < b.byteOffset + (b.length + spaceLen b) ∧
        b.byteOffset < stop then
      some (start - b.byteOffset,
        min (b.length + spaceLen b) (start - b.byteOffset + (stop - max start b.byteOffset)))
    else none := by
  rw [selectedPart]
  by_cases some_length : 0 < b.length + spaceLen b
  · by_cases whole : start ≤ b.byteOffset ∧ b.byteOffset + (b.length + spaceLen b) ≤ stop
    · have early : start - b.byteOffset = 0 := by omega
      rw [if_pos some_length, if_pos whole, if_pos (by omega), early]
      congr
      omega
    · by_cases part : start < b.byteOffset + (b.length + spaceLen b) ∧ b.byteOffset < stop
      · have offset : (if b.byteOffset < start then start - b.byteOffset else 0) =
            start - b.byteOffset := by
          split <;> omega
        simp only [if_pos some_length, if_neg whole, if_pos part, offset]
        have own : 0 < b.length + spaceLen b ∧
            start < b.byteOffset + (b.length + spaceLen b) ∧ b.byteOffset < stop :=
          ⟨some_length, part⟩
        rw [if_pos own]
        congr
        split <;> omega
      · simp only [if_pos some_length, if_neg whole, if_neg part]
        rw [if_neg (by tauto)]
  · rw [if_neg some_length, if_neg (by tauto)]

theorem selectedPart_of_after (after : stop ≤ b.byteOffset) : selectedPart b start stop = none := by
  rw [selectedPart_eq, if_neg (by omega)]

theorem selectedPart_of_before (before : b.byteOffset + (b.length + spaceLen b) ≤ start) :
    selectedPart b start stop = none := by
  rw [selectedPart_eq, if_neg (by omega)]

theorem boxPiece_of_none (missed : selectedPart b start stop = none) :
    boxPiece start stop b = [] := by
  rw [boxPiece, missed]
  exact ite_self []

theorem boxPiece_of_after (after : stop ≤ b.byteOffset) : boxPiece start stop b = [] :=
  boxPiece_of_none (selectedPart_of_after after)

/-- A box whose text is before the range adds nothing, and neither does one without a text. -/
theorem boxPiece_of_before (built : IsBuilt b)
    (before : b.byteOffset + (boxText b).length < start) : boxPiece start stop b = [] := by
  apply boxPiece_of_none
  apply selectedPart_of_before
  rw [length_boxText] at before
  cases text : b.text with
  | none =>
      have empty := built.length text
      have space : spaceLen b ≤ 1 := by
        unfold spaceLen
        split <;> omega
      omega
  | some text =>
      rw [text, Option.isSome_some, if_pos rfl] at before
      omega

theorem copied_append (sel : SelectionString) (text : Bytes) (space : Bool) :
    (sel.append false text space).copied = sel.copied ++ (text ++ if space then str " " else []) ∧
      (sel.append true text space).copied = sel.copied := by
  simp [SelectionString.append, SelectionString.copied]

theorem copied_copyOwn (v : Visit Box) (state : Before × SelectionString) :
    (copyOwn start stop v state).2.copied = state.2.copied ++ boxPiece start stop v.data := by
  obtain ⟨s, sel⟩ := state
  rw [copyOwn, boxPiece]
  by_cases eligible : v.data.type ≠ .br ∧ isTextlessFloat v.data = false
  · simp only [if_pos eligible]
    cases selectedPart v.data start stop with
    | none => simp
    | some r =>
        obtain ⟨startOff, endOff⟩ := r
        simp only [selectionCopyBox]
        rw [(copied_append _ _ _).1]
        split
        · rfl
        · rw [(copied_append _ _ _).2]
  · simp only [if_neg eligible, List.append_nil]

/-- The space of the box is copied although it is not in the range. -/
def Spurious (start stop : Nat) (b : Box) : Prop :=
  b.type ≠ .br ∧ isTextlessFloat b = false ∧ b.space ≠ 0 ∧ start ≤ b.byteOffset + b.length ∧
    b.byteOffset < stop ∧ (b.text.isSome → stop ≤ b.byteOffset + b.length)

theorem readMemory_slice (text : Nat → Byte) (length skip count : Nat) :
    ((readMemory text length).drop skip).take count =
      readMemory (fun i => text (skip + i)) (min length (skip + count) - skip) := by
  apply List.ext_getElem
  · simp only [List.length_take, List.length_drop, readMemory, List.length_map, List.length_range]
    omega
  · intro i _ _
    simp [readMemory]

theorem slice_readMemory (text : Nat → Byte) (length : Nat) :
    slice start stop b.byteOffset (readMemory text length) =
      readMemory (fun i => text (start - b.byteOffset + i))
        (min length (start - b.byteOffset + (stop - max start b.byteOffset)) -
          (start - b.byteOffset)) :=
  readMemory_slice text length _ _

/-- A box without a text adds at most a space. -/
theorem boxPiece_of_textless (built : IsBuilt b) (missing : b.text = none) :
    (Spurious start stop b ∧ boxPiece start stop b = str " ") ∨
      (¬ Spurious start stop b ∧ boxPiece start stop b = []) := by
  have empty := built.length missing
  by_cases eligible : b.type ≠ .br ∧ isTextlessFloat b = false
  · by_cases space : b.space = 0
    · refine Or.inr ⟨fun spurious => spurious.2.2.1 space, boxPiece_of_none ?_⟩
      rw [selectedPart_eq, if_neg (by simp [empty, spaceLen, space])]
    · have one : spaceLen b = 1 := if_neg space
      by_cases selected : start ≤ b.byteOffset ∧ b.byteOffset < stop
      · refine Or.inl ⟨⟨eligible.1, eligible.2, space, by omega, selected.2, by simp [missing]⟩, ?_⟩
        rw [boxPiece, if_pos eligible, selectedPart_eq, if_pos (by omega)]
        simp [boxBytes, missing, space]
      · refine Or.inr ⟨fun spurious => selected ⟨?_, spurious.2.2.2.2.1⟩, boxPiece_of_none ?_⟩
        · have := spurious.2.2.2.1
          omega
        · rw [selectedPart_eq, if_neg (by omega)]
  · refine Or.inr ⟨fun spurious => eligible ⟨spurious.1, spurious.2.1⟩, ?_⟩
    rw [boxPiece, if_neg eligible]

/-- A box adds its part of the range, and its space at most beyond it. -/
theorem boxPiece_eq (built : IsBuilt b) (range : start ≤ stop) :
    (Spurious start stop b ∧
        boxPiece start stop b = slice start stop b.byteOffset (boxText b) ++ str " ") ∨
      (¬ Spurious start stop b ∧
        boxPiece start stop b = slice start stop b.byteOffset (boxText b)) := by
  cases text : b.text with
  | none =>
      have nothing : boxText b = [] := by rw [boxText, text]
      rw [nothing, slice_nil, List.nil_append]
      exact boxPiece_of_textless built text
  | some t =>
      have eligible : b.type ≠ .br ∧ isTextlessFloat b = false := by
        refine ⟨fun br => ?_, by simp [isTextlessFloat, text]⟩
        rw [built.br br] at text
        cases text
      have size : (boxText b).length = b.length + spaceLen b := by
        rw [length_boxText, text, Option.isSome_some, if_pos rfl]
      have long : b.space ≠ 0 → spaceLen b = 1 := fun space => if_neg space
      by_cases selected : 0 < b.length + spaceLen b ∧
          start < b.byteOffset + (b.length + spaceLen b) ∧ b.byteOffset < stop
      · have own : (readMemory t b.length).length = b.length := by simp [readMemory]
        have piece : boxPiece start stop b =
            slice start stop b.byteOffset (readMemory t b.length) ++
              if b.space = 0 then [] else str " " := by
          have bound : min b.length (min (b.length + spaceLen b)
              (start - b.byteOffset + (stop - max start b.byteOffset))) =
              min b.length (start - b.byteOffset + (stop - max start b.byteOffset)) := by omega
          rw [boxPiece, if_pos eligible, selectedPart_eq, if_pos selected, slice_readMemory]
          simp only [boxBytes, text, bound]
          by_cases space : b.space = 0 <;> simp [space]
        have whole : boxText b = readMemory t b.length ++ if b.space = 0 then [] else str " " := by
          rw [boxText, text]
        rw [piece, whole, slice_append, own]
        by_cases space : b.space = 0
        · refine Or.inr ⟨fun spurious => spurious.2.2.1 space, ?_⟩
          rw [if_pos space, slice_nil]
        · have one := long space
          have single : str " " = [chr ' '] := by decide
          rw [if_neg space, single]
          by_cases after : stop ≤ b.byteOffset + b.length
          · refine Or.inl ⟨⟨eligible.1, eligible.2, space, by omega, selected.2.2,
              fun _ => after⟩, ?_⟩
            rw [slice_of_after after, List.append_nil]
          · refine Or.inr ⟨fun spurious => after (spurious.2.2.2.2.2 (by simp [text])), ?_⟩
            rw [slice_singleton _ (by omega), if_pos (by omega)]
      · refine Or.inr ⟨fun spurious => selected ?_, ?_⟩
        · have one := long spurious.2.2.1
          have from_start := spurious.2.2.2.1
          exact ⟨by omega, by omega, spurious.2.2.2.2.1⟩
        · rw [boxPiece_of_none (by rw [selectedPart_eq, if_neg selected])]
          symm
          by_cases before : b.byteOffset + (boxText b).length ≤ start
          · exact slice_of_before before
          · by_cases after : stop ≤ b.byteOffset
            · exact slice_of_after after
            · have empty : boxText b = [] := List.length_eq_zero_iff.mp (by omega)
              rw [empty, slice_nil]

end Pieces

section Subtrees

variable {start stop idx : Nat} {t listMarker : Boxes} {m : Box}

/-- A list marker is missing or a single box. -/
theorem copiedText_marker
    (single : listMarker = nil ∨ ∃ m, listMarker = cons m nil nil nil ∧ IsBuilt m)
    (empty : ∀ m, listMarker = cons m nil nil nil → IsBuilt m → boxPiece start stop m = []) :
    copiedText start stop false listMarker = [] := by
  rcases single with rfl | ⟨m, rfl, built⟩
  · rfl
  · simp [copiedText, empty m rfl built]

/-- Boxes behind the range add nothing. -/
theorem copiedText_of_after (built : Built t) (labelled : Labelled true t idx)
    (after : stop ≤ idx) : copiedText start stop true t = [] := by
  induction t generalizing idx with
  | nil => rfl
  | cons box listMarker children next _ children_ih next_ih =>
      obtain ⟨own, mark, inner, later⟩ := built
      simp only [Labelled, if_true] at labelled
      obtain ⟨first, here, below, beside⟩ := labelled
      have marker : copiedText start stop false listMarker = [] := by
        apply copiedText_marker mark
        rintro m rfl _
        have offset := (first trivial).2.1
        simp only [Bool.false_eq_true, if_false] at offset
        exact boxPiece_of_after (by omega)
      rw [copiedText, marker, boxPiece_of_after (by omega), children_ih inner below (by omega),
        if_pos rfl, next_ih later (beside trivial) (by omega)]
      rfl

/-- Boxes whose text ends before the range add nothing. -/
theorem copiedText_of_before (built : Built t) (labelled : Labelled true t idx)
    (before : idx + (representation true t).length < start) :
    copiedText start stop true t = [] := by
  induction t generalizing idx with
  | nil => rfl
  | cons box listMarker children next _ children_ih next_ih =>
      obtain ⟨own, mark, inner, later⟩ := built
      simp only [Labelled, if_true] at labelled
      obtain ⟨first, here, below, beside⟩ := labelled
      simp only [representation, if_true, List.length_append] at before
      have marker : copiedText start stop false listMarker = [] := by
        apply copiedText_marker mark
        rintro m rfl leaf
        have offset := (first trivial).2.1
        simp only [Bool.false_eq_true, if_false] at offset
        refine boxPiece_of_before leaf ?_
        simp only [representation, Bool.false_eq_true, if_false, List.append_nil,
          List.nil_append] at before
        omega
      rw [copiedText, marker, boxPiece_of_before own (by omega),
        children_ih inner below (by omega), if_pos rfl, next_ih later (beside trivial) (by omega)]
      rfl

theorem copied_single (m : Box) (parent : Option Box) (isMarker : Bool)
    (state : Before × SelectionString) :
    (selectionCopy start stop false false parent isMarker (cons m nil nil nil) state).2.copied =
      state.2.copied ++ boxPiece start stop m := by
  rw [selectionCopy]
  simp only [Bool.false_and, Bool.false_eq_true, if_false, selectionCopy]
  split
  · rename_i after
    rw [boxPiece_of_after after, List.append_nil]
  · exact copied_copyOwn _ state

theorem copied_marker
    (single : listMarker = nil ∨ ∃ m, listMarker = cons m nil nil nil ∧ IsBuilt m)
    (parent : Option Box) (state : Before × SelectionString) :
    (selectionCopy start stop false false parent true listMarker state).2.copied =
      state.2.copied ++ copiedText start stop false listMarker := by
  rcases single with rfl | ⟨m, rfl, _⟩
  · rw [selectionCopy, copiedText, List.append_nil]
  · rw [copied_single]
    simp [copiedText]

/-- What is left out of the traversal would add nothing. -/
theorem copied_selectionCopy (built : Built t) (labelled : Labelled true t idx) (skipping : Bool)
    (parent : Option Box) (isMarker : Bool) (state : Before × SelectionString) :
    (selectionCopy start stop skipping true parent isMarker t state).2.copied =
      state.2.copied ++ copiedText start stop true t := by
  induction t generalizing idx skipping parent isMarker state with
  | nil => rw [selectionCopy, copiedText, List.append_nil]
  | cons box listMarker children next _ children_ih next_ih =>
      have whole := labelled
      obtain ⟨own, mark, inner, later⟩ := built
      simp only [Labelled, if_true] at labelled
      obtain ⟨first, here, below, beside⟩ := labelled
      rw [selectionCopy]
      split
      · rename_i skipped
        have alone : copiedText start stop true (cons box listMarker children nil) = [] := by
          have apart : Labelled true (cons box listMarker children nil) idx := by
            simp only [Labelled, if_true]
            exact ⟨first, here, below, fun _ => trivial⟩
          refine copiedText_of_before ⟨own, mark, inner, trivial⟩ apart ?_
          cases next with
          | nil => simp [startsBefore] at skipped
          | cons following marker' children' next' =>
              have offset := (beside trivial).2.1
              rw [if_pos rfl] at offset
              simp only [startsBefore, Bool.and_eq_true, decide_eq_true_iff] at skipped
              simp only [representation, if_true, List.length_append, List.length_nil]
              omega
        have split : copiedText start stop true (cons box listMarker children next) =
            copiedText start stop true (cons box listMarker children nil) ++
              copiedText start stop true next := by
          simp [copiedText]
        rw [next_ih later (beside trivial), split, alone, List.nil_append]
      · simp only [if_true]
        rw [next_ih later (beside trivial), copiedText, if_pos rfl]
        split
        · rename_i after
          rw [copied_marker mark, boxPiece_of_after after,
            copiedText_of_after inner below (by omega)]
          simp
        · rw [children_ih inner below, copied_copyOwn, copied_marker mark]
          simp

end Subtrees

/-- The copy is as long as the part of the text or longer, and the same exactly if this holds. -/
def Covers (copied part : Bytes) (faithful : Prop) : Prop :=
  ∃ more, copied.length = part.length + more ∧ (more = 0 ↔ faithful) ∧ (more = 0 → copied = part)

section Copies

variable {start stop idx : Nat} {t listMarker : Boxes} {a b c d : Bytes} {P Q : Prop}

theorem Covers.append (first : Covers a b P) (second : Covers c d Q) :
    Covers (a ++ c) (b ++ d) (P ∧ Q) := by
  obtain ⟨n, size, faithful, same⟩ := first
  obtain ⟨m, size', faithful', same'⟩ := second
  refine ⟨n + m, ?_, ?_, fun none => ?_⟩
  · rw [List.length_append, List.length_append]
    omega
  · rw [← faithful, ← faithful']
    omega
  · rw [same (by omega), same' (by omega)]

theorem Covers.eq_iff (covers : Covers a b P) : a = b ↔ P := by
  obtain ⟨n, size, faithful, same⟩ := covers
  constructor
  · rintro rfl
    exact faithful.mp (by omega)
  · exact fun holds => same (faithful.mpr holds)

theorem Covers.congr (covers : Covers a b P) (same : P ↔ Q) : Covers a b Q := by
  obtain ⟨n, size, faithful, equal⟩ := covers
  exact ⟨n, size, faithful.trans same, equal⟩

/-- A piece that is not in the text is to be empty. -/
theorem covers_nil : Covers a [] (a = []) := by
  refine ⟨a.length, by simp, List.length_eq_zero_iff, fun none => List.length_eq_zero_iff.mp none⟩

theorem covers_boxPiece {box : Box} (built : IsBuilt box) (range : start ≤ stop) :
    Covers (boxPiece start stop box) (slice start stop box.byteOffset (boxText box))
      (¬ Spurious start stop box) := by
  rcases boxPiece_eq built range with ⟨spurious, more⟩ | ⟨faithful, same⟩
  · refine ⟨1, ?_, by simp [spurious], fun one => absurd one (by decide)⟩
    rw [more, List.length_append]
    rfl
  · exact ⟨0, by rw [same, Nat.add_zero], by simp [faithful], fun _ => same⟩

/-- The copy of labelled boxes holds the selected part of their text, and the spaces that are not
in the range. -/
theorem covers_copiedText (built : Built t) (labelled : Labelled true t idx)
    (range : start ≤ stop) :
    Covers (copiedText start stop true t) (slice start stop idx (representation true t))
      (∀ b ∈ labelledBoxes true t, ¬ Spurious start stop b) := by
  induction t generalizing idx with
  | nil => exact ⟨0, by simp [copiedText, representation, slice_nil], by simp [labelledBoxes],
      fun _ => by simp [copiedText, representation, slice_nil]⟩
  | cons box listMarker children next _ children_ih next_ih =>
      obtain ⟨own, mark, inner, later⟩ := built
      simp only [Labelled, if_true] at labelled
      obtain ⟨first, here, below, beside⟩ := labelled
      have marker : Covers (copiedText start stop false listMarker)
          (slice start stop idx (representation false listMarker))
          (∀ b ∈ labelledBoxes false listMarker, ¬ Spurious start stop b) := by
        rcases mark with rfl | ⟨m, rfl, leaf⟩
        · exact ⟨0, by simp [copiedText, representation, slice_nil], by simp [labelledBoxes],
            fun _ => by simp [copiedText, representation, slice_nil]⟩
        · have offset := (first trivial).2.1
          simp only [Bool.false_eq_true, if_false] at offset
          have single : Covers (boxPiece start stop m)
              (slice start stop m.byteOffset (boxText m)) (¬ Spurious start stop m) :=
            covers_boxPiece leaf range
          rw [offset] at single
          simpa [copiedText, representation, labelledBoxes] using single
      have piece : Covers (boxPiece start stop box)
          (slice start stop box.byteOffset (boxText box)) (¬ Spurious start stop box) :=
        covers_boxPiece own range
      rw [here] at piece
      have whole := ((marker.append piece).append (children_ih inner below)).append
        (next_ih later (beside trivial))
      simp only [copiedText, representation, labelledBoxes, if_true, slice_append,
        List.length_append, ← Nat.add_assoc]
      refine whole.congr ?_
      simp only [List.forall_mem_append, List.forall_mem_cons]
      tauto

end Copies

/-- No byte of the text of the box is in the range, and its space is not copied either. -/
def Apart (start stop : Nat) (b : Box) : Prop :=
  ¬ Spurious start stop b ∧
    (boxText b = [] ∨ b.byteOffset + (boxText b).length ≤ start ∨ stop ≤ max start b.byteOffset)

theorem boxPiece_eq_nil {start stop : Nat} {b : Box} (built : IsBuilt b) (range : start ≤ stop) :
    boxPiece start stop b = [] ↔ Apart start stop b := by
  have part : slice start stop b.byteOffset (boxText b) = [] ↔
      boxText b = [] ∨ b.byteOffset + (boxText b).length ≤ start ∨
        stop ≤ max start b.byteOffset := by
    rw [slice, List.take_eq_nil_iff, List.drop_eq_nil_iff, ← List.length_eq_zero_iff]
    omega
  rw [Apart, ← part]
  rcases boxPiece_eq built range with ⟨spurious, more⟩ | ⟨faithful, same⟩
  · have long : boxPiece start stop b ≠ [] := by
      rw [more]
      simp [str]
    exact ⟨fun none => absurd none long, fun apart => absurd spurious apart.1⟩
  · rw [same]
    exact ⟨fun none => ⟨faithful, none⟩, fun apart => apart.2⟩

section Root

variable {start stop idx : Nat} {root : Box} {listMarker children next : Boxes}

/-- A root that is labelled alone copies its list marker, itself and its children. -/
theorem copied_root (built : Built (cons root listMarker children next))
    (labelled : Labelled false (cons root listMarker children next) idx) (parent : Option Box)
    (isMarker : Bool) (state : Before × SelectionString) :
    (selectionCopy start stop false false parent isMarker
        (cons root listMarker children next) state).2.copied =
      state.2.copied ++ (copiedText start stop false listMarker ++
        (boxPiece start stop root ++ copiedText start stop true children)) := by
  obtain ⟨own, mark, inner, later⟩ := built
  obtain ⟨_, here, below, _⟩ := labelled
  rw [selectionCopy]
  simp only [Bool.false_and, Bool.false_eq_true, if_false] at here below ⊢
  split
  · rename_i after
    rw [copied_marker mark, boxPiece_of_after after, copiedText_of_after inner below (by omega)]
    simp
  · rw [copied_selectionCopy inner below, copied_copyOwn, copied_marker mark]
    simp

theorem covers_root (built : Built (cons root listMarker children next))
    (labelled : Labelled false (cons root listMarker children next) idx) (range : start ≤ stop) :
    Covers (boxPiece start stop root ++ copiedText start stop true children)
      (slice start stop idx (representation false (cons root listMarker children next)))
      (∀ b ∈ labelledBoxes false (cons root listMarker children next), ¬ Spurious start stop b) := by
  obtain ⟨own, mark, inner, later⟩ := built
  obtain ⟨_, here, below, _⟩ := labelled
  simp only [Bool.false_eq_true, if_false] at here below
  have piece : Covers (boxPiece start stop root)
      (slice start stop root.byteOffset (boxText root)) (¬ Spurious start stop root) :=
    covers_boxPiece own range
  rw [here] at piece
  have whole := piece.append (covers_copiedText inner below range)
  rw [← slice_append] at whole
  simpa [representation, labelledBoxes] using whole

/-- The list marker of the root is not in the text, so that it must not be copied. -/
theorem copy_root (built : Built (cons root listMarker children next))
    (labelled : Labelled false (cons root listMarker children next) 0) (range : start ≤ stop) :
    (∃ sel, htmlTextselectionCopy (cons root listMarker children next) start stop = .ok sel ∧
        sel.copied = ((representation false (cons root listMarker children next)).drop start).take
          (stop - start)) ↔
      (∀ b ∈ labelledBoxes false (cons root listMarker children next), ¬ Spurious start stop b) ∧
        ∀ m, listMarker = cons m nil nil nil → Apart start stop m := by
  have copied : (selectionCopy start stop false false none false
      (cons root listMarker children next) (⟨true, .none⟩, ⟨[]⟩)).2.copied = _ :=
    copied_root built labelled none false (⟨true, .none⟩, ⟨[]⟩)
  have covers := (covers_nil (a := copiedText start stop false listMarker)).append
    (covers_root built labelled range)
  have whole : slice start stop 0 (representation false (cons root listMarker children next)) =
      ((representation false (cons root listMarker children next)).drop start).take
        (stop - start) := by
    rw [slice, Nat.sub_zero, Nat.max_zero]
  have marker : copiedText start stop false listMarker = [] ↔
      ∀ m, listMarker = cons m nil nil nil → Apart start stop m := by
    rcases built.2.1 with rfl | ⟨m, rfl, leaf⟩
    · simp [copiedText]
    · simp [copiedText, boxPiece_eq_nil leaf range]
  have none_before : (SelectionString.mk []).copied = [] := rfl
  rw [none_before, List.nil_append] at copied
  rw [List.nil_append, whole] at covers
  rw [and_comm, ← marker, ← covers.eq_iff, ← copied]
  exact ⟨fun ⟨sel, copy, same⟩ => by obtain rfl := Except.ok.inj copy; exact same,
    fun same => ⟨_, rfl, same⟩⟩

end Root

/-- What is copied is the selected part of the text exactly when the range does not end inside a
text before its space, holds no space of a box without a text, and leaves out the marker of the
root. -/
theorem htmlTextselectionCopy_spec {root : Box} {listMarker children next t : Boxes}
    {last start stop : Nat} (built : Built (cons root listMarker children next))
    (labelled : htmlTextselectionGetEnd (cons root listMarker children next) = .ok (t, last))
    (range : start ≤ stop) :
    (∃ sel, htmlTextselectionCopy t start stop = .ok sel ∧
        sel.copied = ((representation false (cons root listMarker children next)).drop start).take
          (stop - start)) ↔
      (∀ b ∈ labelledBoxes false t, ¬ Spurious start stop b) ∧
        ∀ m, listMarker = cons m nil nil nil → Apart start stop m := by
  have offsets := (label_spec false (cons root listMarker children next) 0).1
  have kept := built_label built false 0
  have same := representation_label false false (cons root listMarker children next) 0
  obtain ⟨rfl, _⟩ := Prod.mk.inj (Except.ok.inj labelled)
  rw [← same]
  exact copy_root kept offsets range

/-- A text "ab" with a trailing space. -/
def wordBox : Box := ⟨.text, some fun i => if i = 0 then chr 'a' else chr 'b', 2, 1, none, 0⟩

theorem built_word : Built (cons wordBox nil nil nil) :=
  ⟨⟨nofun, nofun⟩, Or.inl rfl, trivial, trivial⟩

/-- The whole word is copied with its space. -/
theorem word_copied :
    ∃ sel, htmlTextselectionCopy (cons wordBox nil nil nil) 0 3 = .ok sel ∧
      sel.copied = ((representation false (cons wordBox nil nil nil)).drop 0).take 3 := by
  refine (htmlTextselectionCopy_spec built_word rfl (by decide)).mpr ⟨?_, nofun⟩
  intro b member spurious
  obtain rfl := List.mem_singleton.mp member
  exact absurd (spurious.2.2.2.2.2 rfl) (by decide)

/-- One letter is copied with a space that is not in the range. -/
theorem letter_copied_with_space :
    htmlTextselectionGetEnd (cons wordBox nil nil nil) = .ok (cons wordBox nil nil nil, 3) ∧
      (htmlTextselectionCopy (cons wordBox nil nil nil) 0 1).map SelectionString.copied =
        .ok (str "a ") ∧
      ((representation false (cons wordBox nil nil nil)).drop 0).take 1 = str "a" :=
  ⟨rfl, rfl, by decide⟩

end Neosurf.Textselection
