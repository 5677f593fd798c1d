/-
This file proves what the details of the undo buffer hold.
-/

import Neosurf.Proof.Textarea.Lines
import Neosurf.ToMathlib.LinearHistory

namespace Neosurf.Editing

section Memory

variable (memory : Nat → Byte)

theorem length_readBytes (start length : Nat) :
    (readBytes memory start length).length = length := by
  simp [readBytes]

theorem readBytes_writeBytes (start : Nat) (bytes : Bytes) :
    readBytes (writeBytes memory start bytes) start bytes.length = bytes := by
  refine List.ext_getElem (length_readBytes _ _ _) fun i _ inside => ?_
  simp [readBytes, writeBytes, inside]

theorem writeBytes_before {start i : Nat} (before : i < start) (bytes : Bytes) :
    writeBytes memory start bytes i = memory i := by
  simp [writeBytes, Nat.not_le.mpr before]

theorem writeBytes_behind {start i : Nat} {bytes : Bytes} (behind : start + bytes.length ≤ i) :
    writeBytes memory start bytes i = memory i := by
  have past : bytes.length ≤ i - start := by omega
  simp [writeBytes, past]

variable {memory}

theorem readBytes_congr {other : Nat → Byte} {start length : Nat}
    (same : ∀ i, start ≤ i → i < start + length → other i = memory i) :
    readBytes other start length = readBytes memory start length := by
  refine List.map_congr_left fun i inside => same _ (by omega) ?_
  have := List.mem_range.mp inside
  omega

end Memory

/-- The text holds one piece, the detail's space the piece that it is swapped with. -/
structure Swaps (memory : Nat → Byte) (detail : UndoDetail) (before mine theirs after : Bytes) :
    Prop where
  bTextStart : detail.bTextStart = before.length
  bTextEnd : detail.bTextEnd = before.length + mine.length
  bEnd : detail.bEnd = detail.bStart + theirs.length
  held : readBytes memory detail.bStart theirs.length = theirs
  mine_fits : mine.length ≤ detail.bLimit
  theirs_fits : theirs.length ≤ detail.bLimit

/-- The detail leads from one text to another. -/
def Leads (memory : Nat → Byte) (detail : UndoDetail) (here there : Bytes) : Prop :=
  ∃ before mine theirs after, here = before ++ mine ++ after ∧
    there = before ++ theirs ++ after ∧ Swaps memory detail before mine theirs after

/-- Both undo buffers hold the same for a detail. -/
def SameDetail (undo other : Undo) (n : Nat) : Prop :=
  other.details n = undo.details n ∧ ∀ detail, undo.details n = some detail →
    ∀ i, detail.bStart ≤ i → i < detail.bStart + detail.bLimit → other.text i = undo.text i

/-- The detail with a number leads from one text to another. -/
def LeadsAt (undo : Undo) (n : Nat) (here there : Bytes) : Prop :=
  ∃ detail, undo.details n = some detail ∧ Leads undo.text detail here there

/-- The details lead back through the past, whose nearest text has the highest number. -/
def Undoes (undo : Undo) : Bytes → List Bytes → Prop
  | _, [] => True
  | here, there :: past => LeadsAt undo past.length here there ∧ Undoes undo there past

/-- The details from a number on lead through the future. -/
def Redoes (undo : Undo) : Nat → Bytes → List Bytes → Prop
  | _, _, [] => True
  | n, here, there :: future => LeadsAt undo n here there ∧ Redoes undo (n + 1) there future

/-- The spaces of the details come one after the other. -/
def Laid (undo : Undo) (count : Nat) : Prop :=
  ∀ i j detail later, i < j → j < count → undo.details i = some detail →
    undo.details j = some later → detail.bStart + detail.bLimit ≤ later.bStart

variable {undo other : Undo} {n : Nat} {here there : Bytes}

theorem LeadsAt.same (leads : LeadsAt undo n here there) (same : SameDetail undo other n) :
    LeadsAt other n here there := by
  obtain ⟨detail, found, before, mine, theirs, after, hereEq, thereEq, swaps⟩ := leads
  refine ⟨detail, same.1.trans found, before, mine, theirs, after, hereEq, thereEq,
    { swaps with held := ?_ }⟩
  refine (readBytes_congr fun i low high => same.2 detail found i low ?_).trans swaps.held
  have := swaps.theirs_fits
  omega

theorem Undoes.same {past : List Bytes} (undoes : Undoes undo here past)
    (same : ∀ i < past.length, SameDetail undo other i) : Undoes other here past := by
  induction past generalizing here with
  | nil => trivial
  | cons there past ih =>
      obtain ⟨leads, undoes⟩ := undoes
      refine ⟨leads.same (same _ (by simp)), ih undoes fun i low => same i ?_⟩
      rw [List.length_cons]
      omega

theorem Redoes.same {future : List Bytes} (redoes : Redoes undo n here future)
    (same : ∀ i, n ≤ i → i < n + future.length → SameDetail undo other i) :
    Redoes other n here future := by
  induction future generalizing here n with
  | nil => trivial
  | cons there future ih =>
      obtain ⟨leads, redoes⟩ := redoes
      refine ⟨leads.same (same n (le_refl _) (by simp)), ih redoes fun i low high =>
        same i (by omega) ?_⟩
      rw [List.length_cons]
      omega

variable {ta : Textarea}

/-- A text is replaced at two of its places. -/
theorem Textarea.replaceTextInternal_some {bStart bEnd : Nat} (editable : ta.readonly = false)
    (ordered : bStart ≤ bEnd) (inside : bEnd ≤ ta.text.length) (rep : Bytes)
    (addToClipboard : Bool) :
    ta.replaceTextInternal bStart bEnd (some rep) addToClipboard =
      ta.splice bStart bEnd rep := by
  have start : min bStart ta.text.length = bStart := Nat.min_eq_left (le_trans ordered inside)
  simp only [Textarea.replaceTextInternal, editable, Bool.false_and, Bool.false_eq_true, if_false,
    Nat.min_eq_left inside, start]
  split
  · rename_i same
    simp [Textarea.insertText, editable, start, ← same]
  · rw [if_neg (by omega)]

/-- What a splice leaves between the text before and the text after it. -/
theorem spliceText_pieces {multi : Bool} (before mine rep : Bytes) {after : Bytes}
    (clean : Clean multi after) :
    ∃ found, spliceText multi (before ++ mine ++ after) before.length
        (before.length + mine.length) rep = before ++ found ++ after ∧
      Normalised multi rep found := by
  have start : (before ++ mine ++ after).take before.length = before := by simp
  have finish : (before ++ mine ++ after).drop (before.length + mine.length) = after := by
    rw [← List.length_append, List.drop_left]
  rw [spliceText, start, finish]
  exact normalises_piece before clean (le_refl _)

/-- A swap replaces the text of the detail and keeps what it held. -/
theorem Textarea.swapDetail_eq {detail : UndoDetail} {temp theirs : Bytes}
    (found : ta.undo.details n = some detail)
    (between : ta.removedText detail = some temp)
    (read : readBytes ta.undo.text detail.bStart (detail.bEnd - detail.bStart) = theirs)
    (replaced : ta.replaceTextInternal detail.bTextStart detail.bTextEnd (some theirs) false =
      ta.splice detail.bTextStart detail.bTextEnd theirs) (nextDetail : Nat) :
    ta.swapDetail n nextDetail = some { (ta.splice detail.bTextStart detail.bTextEnd theirs) with
      ok := true
      textarea := { (ta.splice detail.bTextStart detail.bTextEnd theirs).textarea with
        undo := { ta.undo with
          nextDetail := nextDetail
          details := Function.update ta.undo.details n (some { detail with
            bTextEnd := detail.bTextStart + theirs.length
            bEnd := detail.bStart + (detail.bTextEnd - detail.bTextStart) })
          text := writeBytes ta.undo.text detail.bStart temp } }
      caret := some (detail.bTextStart + theirs.length) } := by
  have length : detail.bEnd - detail.bStart = theirs.length := by
    rw [← read, length_readBytes]
  rw [Textarea.swapDetail, found]
  simp only [Option.bind_eq_bind, Option.bind_some, between, ← length, read, replaced]

/-- The detail's pieces change places. -/
theorem Textarea.swapDetail_leads {detail : UndoDetail} (editable : ta.readonly = false)
    (found : ta.undo.details n = some detail) (cleanHere : Clean ta.multiline ta.text)
    (cleanThere : Clean ta.multiline there)
    (leads : Leads ta.undo.text detail ta.text there) (nextDetail : Nat) :
    ∃ changed, ta.swapDetail n nextDetail = some changed ∧ changed.ok = true ∧
      ∃ swapped memory, changed.textarea = { ta with
        text := there
        undo := { ta.undo with
          nextDetail := nextDetail
          details := Function.update ta.undo.details n (some swapped)
          text := memory } } ∧
      swapped.bStart = detail.bStart ∧ swapped.bLimit = detail.bLimit ∧
      Leads memory swapped there ta.text ∧
      ∀ i, i < detail.bStart ∨ detail.bStart + detail.bLimit ≤ i → memory i = ta.undo.text i := by
  obtain ⟨before, mine, theirs, after, hereEq, thereEq, swaps⟩ := leads
  have length : ta.text.length = before.length + mine.length + after.length := by
    simp [hereEq]
    omega
  have between : ta.removedText detail = some mine := by
    rw [Textarea.removedText, swaps.bTextStart, swaps.bTextEnd]
    split
    · rw [Textarea.textBetween, if_pos (by omega), hereEq, ← List.length_append,
        List.take_left, List.drop_left]
    · rename_i none
      rw [List.length_eq_zero_iff.mp (by omega : mine.length = 0)]
  have read : readBytes ta.undo.text detail.bStart (detail.bEnd - detail.bStart) = theirs := by
    rw [swaps.bEnd, Nat.add_sub_cancel_left, swaps.held]
  have spliced : spliceText ta.multiline ta.text detail.bTextStart detail.bTextEnd theirs =
      there := by
    rw [hereEq] at cleanHere
    obtain ⟨new, same, spec⟩ := spliceText_pieces before mine theirs
      (clean_append.mp cleanHere).2
    rw [thereEq] at cleanThere
    rw [spec.kept (clean_append.mp (clean_append.mp cleanThere).1).2] at same
    rw [hereEq, swaps.bTextStart, swaps.bTextEnd, same, thereEq]
  have ordered : detail.bTextStart ≤ detail.bTextEnd := by
    rw [swaps.bTextStart, swaps.bTextEnd]
    omega
  have inside : detail.bTextEnd ≤ ta.text.length := by
    rw [swaps.bTextEnd]
    omega
  have replaced := ta.replaceTextInternal_some editable ordered inside theirs false
  have written : readBytes (writeBytes ta.undo.text detail.bStart mine) detail.bStart mine.length =
      mine := readBytes_writeBytes _ _ _
  refine ⟨_, Textarea.swapDetail_eq found between read replaced nextDetail, rfl, { detail with
      bTextEnd := before.length + theirs.length
      bEnd := detail.bStart + mine.length },
    writeBytes ta.undo.text detail.bStart mine, ?_, rfl, rfl,
    ⟨before, theirs, mine, after, thereEq, hereEq, ?_⟩, ?_⟩
  · rw [swaps.bTextStart, swaps.bTextEnd] at spliced ⊢
    simp only [Textarea.splice, spliced, Nat.add_sub_cancel_left]
  · exact ⟨swaps.bTextStart, rfl, rfl, written, swaps.theirs_fits, swaps.mine_fits⟩
  · intro i apart
    rcases apart with low | high
    · exact writeBytes_before _ low _
    · refine writeBytes_behind _ (le_trans ?_ high)
      have := swaps.mine_fits
      omega

end Neosurf.Editing
