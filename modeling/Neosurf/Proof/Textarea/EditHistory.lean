/-
This file proves that the text of a textarea is a linear history, as long as no redo is made
before any edit.
-/

import Neosurf.Proof.Textarea.UndoBuffer

namespace Neosurf.Editing

/-- A copy puts the selection on the clipboard and is no edit. -/
def EditCall.IsCopy : EditCall → Prop
  | .replace bStart bEnd rep addToClipboard =>
      bStart ≠ bEnd ∧ rep = none ∧ addToClipboard = true
  | _ => False

instance : DecidablePred EditCall.IsCopy := fun call => by
  cases call <;> unfold EditCall.IsCopy <;> infer_instance

/-- This is the text that an edit leaves. -/
def editedText (multi : Bool) (text : Bytes) (bStart bEnd : Nat) (rep : Option Bytes) : Bytes :=
  (rep.map fun rep => spliceText multi text bStart bEnd rep).getD text

/-- This is what a call does to a linear history, and what it should return. -/
def historyCall (multi : Bool) (h : LinearHistory Bytes) :
    EditCall → Bool × LinearHistory Bytes
  | .replace bStart bEnd rep addToClipboard =>
      if (EditCall.replace bStart bEnd rep addToClipboard).IsCopy then (true, h)
      else (true, h.edit (editedText multi h.present bStart bEnd rep))
  | .undo => (h.undo.map fun undone => (true, undone)).getD (false, h)
  | .redo => (h.redo.map fun redone => (true, redone)).getD (false, h)
  | .setText text =>
      (true, LinearHistory.fresh (normaliseText multi (cstr text) 0 ((cstr text).length + 1)))

/-- What each call should return, and the text after it. -/
def historyAnswers (multi : Bool) : LinearHistory Bytes → List EditCall → List (Bool × Bytes)
  | _, [] => []
  | h, call :: calls =>
      ((historyCall multi h call).1, (historyCall multi h call).2.present) ::
        historyAnswers multi (historyCall multi h call).2 calls

/-- A replacement is made between two places of the text. -/
def EditCall.Within (text : Bytes) : EditCall → Prop
  | .replace bStart bEnd _ _ => bStart ≤ bEnd ∧ bEnd ≤ text.length
  | _ => True

instance (text : Bytes) : DecidablePred (EditCall.Within text) := fun call => by
  cases call <;> unfold EditCall.Within <;> infer_instance

/-- Every replacement is made between two places of the text that it finds. -/
def CallsWithin (multi : Bool) : LinearHistory Bytes → List EditCall → Prop
  | _, [] => True
  | h, call :: calls =>
      call.Within h.present ∧ CallsWithin multi (historyCall multi h call).2 calls

instance instDecidableCallsWithin (multi : Bool) :
    ∀ h calls, Decidable (CallsWithin multi h calls)
  | _, [] => isTrue trivial
  | h, call :: calls =>
      have := instDecidableCallsWithin multi (historyCall multi h call).2 calls
      inferInstanceAs (Decidable (call.Within h.present ∧ _))

/-- There is an edit since the textarea was created or its text was set. -/
def EditCall.edited (before : Bool) : EditCall → Bool
  | .replace bStart bEnd rep addToClipboard =>
      before || !decide (EditCall.replace bStart bEnd rep addToClipboard).IsCopy
  | .setText _ => false
  | _ => before

/-- A redo is made only where there is an edit. -/
def RedoesEdits : Bool → List EditCall → Prop
  | _, [] => True
  | before, call :: calls =>
      (call = .redo → before = true) ∧ RedoesEdits (call.edited before) calls

instance instDecidableRedoesEdits : ∀ before calls, Decidable (RedoesEdits before calls)
  | _, [] => isTrue trivial
  | before, call :: calls =>
      have := instDecidableRedoesEdits (call.edited before) calls
      inferInstanceAs (Decidable (_ ∧ _))

/-- The undo buffer holds the history. -/
structure Follows (ta : Textarea) (h : LinearHistory Bytes) : Prop where
  editable : ta.readonly = false
  text : ta.text = h.present
  next : ta.undo.nextDetail = h.past.length
  last : ta.undo.lastDetail = h.edits - 1
  clean : ∀ a, h.Holds a → Clean ta.multiline a
  undoes : Undoes ta.undo h.present h.past
  redoes : Redoes ta.undo h.past.length h.present h.future
  laid : Laid ta.undo h.edits

variable {ta : Textarea} {h k : LinearHistory Bytes}

theorem follows_create (multiline : Bool) :
    Follows (Textarea.create multiline false) (LinearHistory.fresh []) where
  editable := rfl
  text := rfl
  next := rfl
  last := rfl
  clean := fun a held => by
    rcases held with old | rfl | new
    · cases old
    · exact clean_nil
    · cases new
  undoes := trivial
  redoes := trivial
  laid := fun i j _ _ _ inside => by cases inside

theorem follows_setText (follows : Follows ta h) (text : Bytes) :
    Follows (ta.setText text).textarea (historyCall ta.multiline h (.setText text)).2 where
  editable := follows.editable
  text := rfl
  next := rfl
  last := rfl
  clean := fun a held => by
    rcases held with old | rfl | new
    · cases old
    · obtain ⟨found, same, spec⟩ : Normalises ta.multiline [] (cstr text) []
        ((cstr text).length + 1) := normalises_piece [] clean_nil (Nat.le_succ _)
      simp only [List.nil_append, List.append_nil, List.length_nil] at same
      show Clean ta.multiline (normaliseText ta.multiline (cstr text) 0 ((cstr text).length + 1))
      rw [same]
      exact spec.clean
    · cases new
  undoes := trivial
  redoes := trivial
  laid := fun i j _ _ _ inside => by cases inside

/-- A change of one detail and its space leaves the other details alone. -/
theorem SameDetail.of_swap {undo other : Undo} {n m count : Nat} {detail swapped : UndoDetail}
    (found : undo.details n = some detail) (laid : Laid undo count) (inside : n < count)
    (details : other.details = Function.update undo.details n (some swapped))
    (text : ∀ i, i < detail.bStart ∨ detail.bStart + detail.bLimit ≤ i → other.text i = undo.text i)
    (apart : m ≠ n) (low : m < count) : SameDetail undo other m := by
  refine ⟨by rw [details, Function.update_of_ne apart], fun next same i start finish => text i ?_⟩
  rcases Nat.lt_or_gt_of_ne apart with before | behind
  · have := laid m n next detail before inside same found
    omega
  · have := laid n m detail next behind low found same
    omega

theorem Laid.of_swap {undo other : Undo} {n count : Nat} {detail swapped : UndoDetail}
    (found : undo.details n = some detail) (laid : Laid undo count)
    (details : other.details = Function.update undo.details n (some swapped))
    (start : swapped.bStart = detail.bStart) (limit : swapped.bLimit = detail.bLimit) :
    Laid other count := by
  have place : ∀ i next, other.details i = some next → ∃ old, undo.details i = some old ∧
      next.bStart = old.bStart ∧ next.bLimit = old.bLimit := by
    intro i next same
    rw [details] at same
    by_cases here : i = n
    · subst here
      rw [Function.update_self] at same
      cases same
      exact ⟨detail, found, start, limit⟩
    · rw [Function.update_of_ne here] at same
      exact ⟨next, same, rfl, rfl⟩
  intro i j earlier later low high foundEarlier foundLater
  obtain ⟨a, foundA, startA, limitA⟩ := place i earlier foundEarlier
  obtain ⟨b, foundB, startB, _⟩ := place j later foundLater
  rw [startA, limitA, startB]
  exact laid i j a b low high foundA foundB

/-- A swap moves to the neighbouring text and turns the detail between them round. -/
theorem follows_swap {n : Nat} {there : Bytes} (follows : Follows ta h) (inside : n < h.edits)
    (held : h.Holds there) (leads : LeadsAt ta.undo n h.present there) (nextDetail : Nat) :
    ∃ changed, ta.swapDetail n nextDetail = some changed ∧ changed.ok = true ∧
      changed.textarea.multiline = ta.multiline ∧ changed.textarea.readonly = false ∧
      changed.textarea.text = there ∧ changed.textarea.undo.nextDetail = nextDetail ∧
      changed.textarea.undo.lastDetail = ta.undo.lastDetail ∧
      LeadsAt changed.textarea.undo n there h.present ∧ Laid changed.textarea.undo h.edits ∧
      ∀ m < h.edits, m ≠ n → SameDetail ta.undo changed.textarea.undo m := by
  obtain ⟨detail, found, leads⟩ := leads
  rw [← follows.text] at leads
  have cleanHere : Clean ta.multiline ta.text :=
    follows.text ▸ follows.clean _ (Or.inr (Or.inl rfl))
  obtain ⟨changed, run, ok, swapped, memory, same, start, limit, back, text⟩ :=
    Textarea.swapDetail_leads follows.editable found cleanHere (follows.clean _ held) leads
      nextDetail
  refine ⟨changed, run, ok, ?_⟩
  rw [same]
  refine ⟨rfl, follows.editable, rfl, rfl, rfl, ⟨swapped, Function.update_self _ _ _, ?_⟩,
    follows.laid.of_swap found rfl start limit,
    fun m low apart => SameDetail.of_swap found follows.laid inside rfl text apart low⟩
  rw [← follows.text]
  exact back

theorem follows_undo (follows : Follows ta h) :
    ∃ changed, ta.undoText false = some changed ∧
      changed.ok = (historyCall ta.multiline h .undo).1 ∧
      changed.textarea.multiline = ta.multiline ∧
      Follows changed.textarea (historyCall ta.multiline h .undo).2 := by
  obtain ⟨past, present, future⟩ := h
  have next := follows.next
  rw [Textarea.undoText, if_neg (by simp [follows.editable]), if_neg (by simp)]
  cases past with
  | nil => exact ⟨_, if_pos next, rfl, rfl, follows⟩
  | cons there past =>
      simp only [List.length_cons] at next
      obtain ⟨leads, undoes⟩ := follows.undoes
      have count := LinearHistory.edits_undo
        (rfl : LinearHistory.undo ⟨there :: past, present, future⟩ =
          some ⟨past, there, present :: future⟩)
      have size : LinearHistory.edits ⟨there :: past, present, future⟩ =
          past.length + 1 + future.length := rfl
      obtain ⟨changed, run, ok, multi, editable, text, nextDetail, lastDetail, back, laid, same⟩ :=
        follows_swap follows (by omega) (Or.inl List.mem_cons_self) leads past.length
      rw [if_neg (by omega), next, Nat.add_sub_cancel]
      refine ⟨changed, run, ok, multi, ⟨editable, text, nextDetail, ?_, fun a held => ?_,
        undoes.same fun i low => same i (by omega) (by omega),
        ⟨back, follows.redoes.same fun i (low : past.length + 1 ≤ i)
          (high : i < past.length + 1 + future.length) => same i (by omega) (by omega)⟩, ?_⟩⟩
      · rw [lastDetail, follows.last, ← count]
        rfl
      · rw [multi]
        refine follows.clean a ?_
        rcases held with old | rfl | new
        · exact Or.inl (List.mem_cons_of_mem _ old)
        · exact Or.inl List.mem_cons_self
        · rcases List.mem_cons.mp new with rfl | new
          · exact Or.inr (Or.inl rfl)
          · exact Or.inr (Or.inr new)
      · rw [← count] at laid
        exact laid

theorem follows_redo (follows : Follows ta h) (edited : h.edits ≠ 0) :
    ∃ changed, ta.undoText true = some changed ∧
      changed.ok = (historyCall ta.multiline h .redo).1 ∧
      changed.textarea.multiline = ta.multiline ∧
      Follows changed.textarea (historyCall ta.multiline h .redo).2 := by
  obtain ⟨past, present, future⟩ := h
  have next := follows.next
  have last := follows.last
  simp only [LinearHistory.edits] at next last edited
  rw [Textarea.undoText, if_neg (by simp [follows.editable]), if_pos rfl]
  cases future with
  | nil =>
      simp only [List.length_nil] at last edited
      exact ⟨_, if_pos (by omega), rfl, rfl, follows⟩
  | cons there future =>
      simp only [List.length_cons] at last
      obtain ⟨leads, redoes⟩ := follows.redoes
      have count := LinearHistory.edits_redo
        (rfl : LinearHistory.redo ⟨past, present, there :: future⟩ =
          some ⟨present :: past, there, future⟩)
      have size : LinearHistory.edits ⟨past, present, there :: future⟩ =
          past.length + (future.length + 1) := rfl
      obtain ⟨changed, run, ok, multi, editable, text, nextDetail, lastDetail, back, laid, same⟩ :=
        follows_swap (n := past.length) follows (by omega) (Or.inr (Or.inr List.mem_cons_self)) leads (past.length + 1)
      rw [if_neg (by omega), next]
      refine ⟨changed, run, ok, multi, ⟨editable, text, nextDetail, ?_, fun a held => ?_,
        ⟨back, follows.undoes.same fun i (low : i < past.length) =>
          same i (by omega) (by omega)⟩,
        redoes.same fun i low high => same i ?_ ?_, ?_⟩⟩
      · rw [lastDetail, follows.last, ← count]
        rfl
      · rw [multi]
        refine follows.clean a ?_
        rcases held with old | rfl | new
        · rcases List.mem_cons.mp old with rfl | old
          · exact Or.inr (Or.inl rfl)
          · exact Or.inl old
        · exact Or.inr (Or.inr List.mem_cons_self)
        · exact Or.inr (Or.inr (List.mem_cons_of_mem _ new))
      · have : i < past.length + 1 + future.length := high
        omega
      · have : past.length + 1 ≤ i := low
        omega
      · rw [← count] at laid
        exact laid

section Replace

variable {bStart bEnd : Nat}

/-- The space of the next detail is behind those of the past. -/
theorem Follows.nextOffset (follows : Follows ta h) :
    ∃ offset, ta.undo.nextOffset = some offset ∧ ∀ i < h.past.length, ∀ detail,
      ta.undo.details i = some detail → detail.bStart + detail.bLimit ≤ offset := by
  obtain ⟨past, present, future⟩ := h
  have next : ta.undo.nextDetail = past.length := follows.next
  rw [Undo.nextOffset, next]
  cases past with
  | nil => exact ⟨0, if_pos rfl, fun i low => by cases low⟩
  | cons there past =>
      obtain ⟨⟨last, found, _⟩, _⟩ := follows.undoes
      rw [if_neg (by simp), List.length_cons, Nat.add_sub_cancel, found]
      refine ⟨_, rfl, fun i (low : i < past.length + 1) detail same => ?_⟩
      rcases Nat.lt_succ_iff_lt_or_eq.mp low with before | rfl
      · have size : LinearHistory.edits ⟨there :: past, present, future⟩ =
            past.length + 1 + future.length := rfl
        exact le_trans (follows.laid i past.length detail last before (by omega) same found)
          (Nat.le_add_right _ _)
      · rw [found] at same
        cases same
        exact le_refl _

/-- The text before, between and after two places. -/
theorem text_pieces (text : Bytes) (ordered : bStart ≤ bEnd) :
    text = text.take bStart ++ (text.take bEnd).drop bStart ++ text.drop bEnd := by
  have start : (text.take bEnd).take bStart = text.take bStart := by
    rw [List.take_take, Nat.min_eq_left ordered]
  rw [← start, List.take_append_drop, List.take_append_drop]

/-- An edit leaves the text before and after its places, and what is between them is clean and
fits its detail's space. -/
theorem editedText_pieces {multi : Bool} {text : Bytes} (clean : Clean multi text)
    (ordered : bStart ≤ bEnd) (inside : bEnd ≤ text.length) (rep : Option Bytes) :
    ∃ found, editedText multi text bStart bEnd rep = text.take bStart ++ found ++ text.drop bEnd ∧
      Clean multi found ∧ found.length ≤ max (bEnd - bStart) ((rep.map (·.length)).getD 0) := by
  have pieces := text_pieces text ordered
  have cleanPieces := clean
  rw [pieces] at cleanPieces
  have cleanEnds := clean_append.mp cleanPieces
  cases rep with
  | none =>
      refine ⟨(text.take bEnd).drop bStart, pieces, (clean_append.mp cleanEnds.1).2, ?_⟩
      simp [Nat.min_eq_left inside]
  | some rep =>
      obtain ⟨found, same, spec⟩ := normalises_piece (text.take bStart) cleanEnds.2
        (le_refl rep.length)
      have start : (text.take bStart).length = bStart := by
        rw [List.length_take, Nat.min_eq_left (le_trans ordered inside)]
      rw [start] at same
      exact ⟨found, same, spec.clean, le_trans spec.length_le (Nat.le_max_right _ _)⟩

/-- An edit of an editable textarea changes its text alone. -/
theorem replaceTextInternal_edit (ta : Textarea) (editable : ta.readonly = false) (ordered : bStart ≤ bEnd)
    (inside : bEnd ≤ ta.text.length) (rep : Option Bytes) (addToClipboard : Bool) :
    ∃ reflow, ta.replaceTextInternal bStart bEnd rep addToClipboard =
      { ok := true
        byteDelta := (editedText ta.multiline ta.text bStart bEnd rep).length - ta.text.length
        textarea := { ta with text := editedText ta.multiline ta.text bStart bEnd rep }
        reflow := reflow } := by
  cases rep with
  | none =>
      obtain ⟨multiline, readonly, text, undo⟩ := ta
      cases editable
      exact ⟨none, by simp [Textarea.replaceTextInternal, Textarea.unchanged, editedText, ordered]⟩
  | some rep =>
      exact ⟨some bStart, ta.replaceTextInternal_some editable ordered inside rep addToClipboard⟩

/-- A copied piece of text is the newest detail's. -/
theorem Textarea.copyToUndoBuffer_eq {offset : Nat} (next : ta.undo.nextOffset = some offset)
    (ordered : bStart ≤ bEnd) (inside : bEnd ≤ ta.text.length) (repLen : Nat) :
    ∃ detail : UndoDetail, detail.bStart = offset ∧ detail.bEnd = offset + (bEnd - bStart) ∧
      detail.bLimit = max (bEnd - bStart) repLen ∧ detail.bTextStart = bStart ∧
      ta.copyToUndoBuffer bStart bEnd repLen = some { ta with undo := { ta.undo with
        details := Function.update ta.undo.details ta.undo.nextDetail (some detail)
        text := writeBytes ta.undo.text offset ((ta.text.take bEnd).drop bStart) } } := by
  refine ⟨⟨offset, offset + bEnd - bStart, max (bEnd - bStart) repLen, bStart,
    ((ta.undo.details ta.undo.nextDetail).map (·.bTextEnd)).getD 0⟩, rfl,
    Nat.add_sub_assoc ordered offset, rfl, rfl, ?_⟩
  simp only [Textarea.copyToUndoBuffer, next, Textarea.textBetween, if_pos (And.intro ordered inside),
    Option.bind_eq_bind, Option.bind_some]

/-- The newest detail leads back to the text before the edit. -/
theorem follows_recorded (detail : UndoDetail) (memory : Nat → Byte) {edited : Bytes}
    (follows : Follows ta h) (leads : Leads memory detail edited ta.text)
    (clean : Clean ta.multiline edited)
    (behind : ∀ i < h.past.length, ∀ earlier, ta.undo.details i = some earlier →
      earlier.bStart + earlier.bLimit ≤ detail.bStart)
    (kept : ∀ i < detail.bStart, memory i = ta.undo.text i) :
    Follows { ta with
      text := edited
      undo :=
        { nextDetail := h.past.length + 1
          lastDetail := h.past.length
          details := Function.update ta.undo.details h.past.length (some detail)
          text := memory } } (h.edit edited) where
  editable := follows.editable
  text := rfl
  next := rfl
  last := rfl
  clean := fun a held => by
    rcases held with old | rfl | new
    · rcases List.mem_cons.mp old with rfl | old
      · exact follows.clean _ (Or.inr (Or.inl rfl))
      · exact follows.clean _ (Or.inl old)
    · exact clean
    · cases new
  undoes := by
    refine ⟨⟨detail, Function.update_self _ _ _, follows.text ▸ leads⟩,
      follows.undoes.same fun i low => ⟨Function.update_of_ne (Nat.ne_of_lt low) _ _, ?_⟩⟩
    intro earlier found j start finish
    exact kept j (lt_of_lt_of_le finish (behind i low earlier found))
  redoes := trivial
  laid := by
    have size : (h.edit edited).edits = h.past.length + 1 := rfl
    intro i j earlier later low high foundEarlier foundLater
    have before : i < h.past.length := by omega
    dsimp only at foundEarlier foundLater
    rw [Function.update_of_ne (Nat.ne_of_lt before)] at foundEarlier
    by_cases newest : j = h.past.length
    · subst newest
      rw [Function.update_self] at foundLater
      cases foundLater
      exact behind i before earlier foundEarlier
    · rw [Function.update_of_ne newest] at foundLater
      refine follows.laid i j earlier later low ?_ foundEarlier foundLater
      rw [LinearHistory.edits]
      omega

/-- An edit adds its detail behind those of the past, and all others are forgotten. -/
theorem follows_edit (follows : Follows ta h) (ordered : bStart ≤ bEnd)
    (inside : bEnd ≤ h.present.length) {rep : Option Bytes} {addToClipboard : Bool}
    (noCopy : ¬ (EditCall.replace bStart bEnd rep addToClipboard).IsCopy) :
    ∃ changed, ta.replaceText bStart bEnd rep addToClipboard = some changed ∧
      changed.ok = true ∧ changed.textarea.multiline = ta.multiline ∧
      Follows changed.textarea (h.edit (editedText ta.multiline h.present bStart bEnd rep)) := by
  obtain ⟨offset, nextOffset, behind⟩ := follows.nextOffset
  rw [← follows.text] at inside
  obtain ⟨detail, start, finish, limit, textStart, copied⟩ := Textarea.copyToUndoBuffer_eq
    nextOffset ordered inside ((rep.map (·.length)).getD 0)
  have clean : Clean ta.multiline ta.text :=
    follows.text ▸ follows.clean _ (Or.inr (Or.inl rfl))
  obtain ⟨found, edited, cleanFound, fits⟩ := editedText_pieces clean ordered inside rep
  obtain ⟨reflow, replaced⟩ := replaceTextInternal_edit { ta with undo := { ta.undo with
      details := Function.update ta.undo.details ta.undo.nextDetail (some detail)
      text := writeBytes ta.undo.text offset ((ta.text.take bEnd).drop bStart) } }
    follows.editable ordered inside rep addToClipboard
  have other : (!(bStart != bEnd && rep.isNone && addToClipboard)) = true := by
    rw [Bool.not_eq_true', ← Bool.not_eq_true]
    exact fun copy => noCopy (by simpa [EditCall.IsCopy, and_assoc] using copy)
  have newLength : (editedText ta.multiline ta.text bStart bEnd rep).length =
      bStart + found.length + (ta.text.length - bEnd) := by
    simp [edited]
    omega
  have before : (ta.text.take bStart).length = bStart := by
    rw [List.length_take, Nat.min_eq_left (le_trans ordered inside)]
  have between : ((ta.text.take bEnd).drop bStart).length = bEnd - bStart := by
    rw [List.length_drop, List.length_take, Nat.min_eq_left inside]
  have cleanEdited : Clean ta.multiline (editedText ta.multiline ta.text bStart bEnd rep) := by
    have pieces := clean
    rw [text_pieces ta.text ordered] at pieces
    have ends := clean_append.mp pieces
    rw [edited]
    exact ((clean_append.mp ends.1).1.append cleanFound).append ends.2
  have recorded := follows_recorded { detail with bTextEnd := bStart + found.length }
    (writeBytes ta.undo.text offset ((ta.text.take bEnd).drop bStart)) follows
    ⟨ta.text.take bStart, found, (ta.text.take bEnd).drop bStart, ta.text.drop bEnd, edited,
      text_pieces ta.text ordered, ?_⟩ cleanEdited ?_ ?_
  · have textEnd : ((bEnd : Int) + ((editedText ta.multiline ta.text bStart bEnd rep).length -
        ta.text.length)).toNat = bStart + found.length := by omega
    refine ⟨_, by
      rw [Textarea.replaceText, if_pos other, copied]
      simp only [Option.bind_eq_bind, Option.bind_some, replaced, if_true]
      rfl, rfl, rfl, ?_⟩
    simp only [Textarea.recordChange, Function.update_self, Function.update_idem, textEnd,
      Option.map_some, follows.next]
    rw [← follows.text]
    exact recorded
  · refine ⟨textStart.trans before.symm, by rw [before], ?_, ?_, ?_, ?_⟩
    · rw [between, finish, start]
    · rw [start]
      exact readBytes_writeBytes _ _ _
    · rw [limit]
      exact fits
    · rw [limit, between]
      exact Nat.le_max_left _ _
  · rw [start]
    exact behind
  · rw [start]
    exact fun i low => writeBytes_before _ low _

/-- A copy changes nothing. -/
theorem follows_copy (follows : Follows ta h) (ordered : bStart ≤ bEnd) {rep : Option Bytes}
    {addToClipboard : Bool}
    (copy : (EditCall.replace bStart bEnd rep addToClipboard).IsCopy) :
    ∃ changed, ta.replaceText bStart bEnd rep addToClipboard = some changed ∧
      changed.ok = true ∧ changed.textarea = ta := by
  obtain ⟨apart, rfl, rfl⟩ := copy
  have selected : (!(bStart != bEnd && (none : Option Bytes).isNone && true)) = false := by
    simp [apart]
  refine ⟨_, by rw [Textarea.replaceText, selected]; rfl, ?_, ?_⟩
  · simp [Textarea.replaceTextInternal, follows.editable, Textarea.unchanged, ordered]
  · simp [Textarea.replaceTextInternal, follows.editable, Textarea.unchanged]

end Replace

/-- A call that is no redo of nothing does to the text what it does to the history. -/
theorem follows_call (follows : Follows ta h) {call : EditCall} (within : call.Within h.present)
    (edited : call = .redo → h.edits ≠ 0) :
    ∃ changed, ta.call call = some changed ∧ changed.ok = (historyCall ta.multiline h call).1 ∧
      changed.textarea.multiline = ta.multiline ∧
      Follows changed.textarea (historyCall ta.multiline h call).2 := by
  cases call with
  | replace bStart bEnd rep addToClipboard =>
      by_cases copy : (EditCall.replace bStart bEnd rep addToClipboard).IsCopy
      · obtain ⟨changed, run, ok, same⟩ := follows_copy follows within.1 copy
        rw [historyCall, if_pos copy]
        exact ⟨changed, run, ok, congrArg Textarea.multiline same, same.symm ▸ follows⟩
      · rw [historyCall, if_neg copy]
        exact follows_edit follows within.1 within.2 copy
  | undo => exact follows_undo follows
  | redo => exact follows_redo follows (edited rfl)
  | setText text => exact ⟨_, rfl, rfl, rfl, follows_setText follows text⟩

/-- There is something to go back or forward to exactly after an edit. -/
theorem edits_historyCall {multi before : Bool} (same : before = true ↔ h.edits ≠ 0)
    (call : EditCall) :
    call.edited before = true ↔ (historyCall multi h call).2.edits ≠ 0 := by
  cases call with
  | replace bStart bEnd rep addToClipboard =>
      rw [historyCall, EditCall.edited]
      split
      · rename_i copy
        simpa [copy] using same
      · rename_i edit
        simp [edit, LinearHistory.edit, LinearHistory.edits]
  | undo =>
      show before = true ↔ _
      rw [historyCall]
      cases undone : h.undo with
      | none => exact same
      | some k => rw [same, ← LinearHistory.edits_undo undone]; rfl
  | redo =>
      show before = true ↔ _
      rw [historyCall]
      cases redone : h.redo with
      | none => exact same
      | some k => rw [same, ← LinearHistory.edits_redo redone]; rfl
  | setText text => simp [historyCall, EditCall.edited, LinearHistory.fresh, LinearHistory.edits]

theorem swapDetail_ok {n nextDetail : Nat} {changed : Changed}
    (run : ta.swapDetail n nextDetail = some changed) : changed.ok = true := by
  simp only [Textarea.swapDetail, Option.bind_eq_bind, Option.bind_eq_some_iff] at run
  obtain ⟨detail, _, temp, _, same⟩ := run
  rw [← Option.some.inj same]

/-- A redo before any edit makes a change that was never made, or reads no detail at all. -/
theorem redo_unedited (follows : Follows ta h) (unedited : h.edits = 0) {changed : Changed}
    (run : ta.call .redo = some changed) :
    changed.ok = true ∧ (historyCall ta.multiline h .redo).1 = false := by
  have future : h.future = [] := by
    rw [← List.length_eq_zero_iff]
    exact (Nat.add_eq_zero_iff.mp unedited).2
  have next : ta.undo.nextDetail = 0 := by
    rw [follows.next]
    exact (Nat.add_eq_zero_iff.mp unedited).1
  rw [Textarea.call, Textarea.undoText, if_neg (by simp [follows.editable]), if_pos rfl,
    if_neg (by rw [next]; exact Nat.not_lt_zero _)] at run
  refine ⟨swapDetail_ok run, ?_⟩
  rw [historyCall, LinearHistory.redo_eq_none.mpr future]
  rfl

/-- The calls answer as the linear history does, as long as every redo has an edit before it. -/
theorem answers_iff {multi before : Bool} {calls : List EditCall} (follows : Follows ta h)
    (multiline : ta.multiline = multi) (same : before = true ↔ h.edits ≠ 0)
    (within : CallsWithin multi h calls) :
    ta.answers calls = some (historyAnswers multi h calls) ↔ RedoesEdits before calls := by
  induction calls generalizing ta h before with
  | nil => exact iff_of_true rfl trivial
  | cons call calls ih =>
      obtain ⟨inside, within⟩ := within
      subst multiline
      by_cases guarded : call = .redo → before = true
      · obtain ⟨changed, run, ok, multi, later⟩ := follows_call follows inside fun redo =>
          same.mp (guarded redo)
        rw [RedoesEdits, and_iff_right guarded, ← ih later multi (edits_historyCall same call) within,
          Textarea.answers, run, Option.bind_eq_bind, Option.bind_some, historyAnswers, ok,
          later.text]
        cases changed.textarea.answers calls with
        | none => simp
        | some answers => simp
      · refine iff_of_false (fun run => ?_) fun redoes => guarded redoes.1
        obtain ⟨rfl, unedited⟩ : call = .redo ∧ ¬ before = true := by simpa using guarded
        simp only [Textarea.answers, Option.bind_eq_bind, Option.bind_eq_some_iff] at run
        obtain ⟨changed, redone, later, _, answers⟩ := run
        obtain ⟨ok, refused⟩ := redo_unedited follows (not_not.mp (mt same.mpr unedited)) redone
        have heads := (List.cons.inj (Option.some.inj answers)).1
        rw [ok, refused] at heads
        cases (Prod.mk.inj heads).1

/-- Everything that an editable textarea answers is what a linear history of its texts answers,
exactly when every redo comes after an edit that no call of `textarea_set_text` discarded. -/
theorem editCalls_history_iff (multiline : Bool) (calls : List EditCall)
    (within : CallsWithin multiline (LinearHistory.fresh []) calls) :
    (Textarea.create multiline false).answers calls =
        some (historyAnswers multiline (LinearHistory.fresh []) calls) ↔
      RedoesEdits false calls :=
  answers_iff (follows_create multiline) rfl (by simp [LinearHistory.fresh, LinearHistory.edits])
    within

/-- Two edits, the first with a normalised line break, are taken back and made again. -/
theorem editCalls_history_twoEdits :
    (Textarea.create true false).answers
        [.replace 0 0 (some (str "a\r\nb")) false, .replace 1 3 (some (str "xyz")) false,
          .undo, .undo, .undo, .redo, .redo, .redo] =
      some (historyAnswers true (LinearHistory.fresh [])
        [.replace 0 0 (some (str "a\r\nb")) false, .replace 1 3 (some (str "xyz")) false,
          .undo, .undo, .undo, .redo, .redo, .redo]) :=
  (editCalls_history_iff true _ (by decide)).mpr (by decide)

/-- Once the text is set, a redo makes an edit of the discarded history once more: the first
letter of the new text is lost. -/
theorem redo_discardedEdit :
    (Textarea.create true false).answers
        [.replace 0 0 (some (str "a")) false, .setText (str "bc"), .redo] =
      some [(true, str "a"), (true, str "bc"), (true, str "c")] ∧
    historyAnswers true (LinearHistory.fresh [])
        [.replace 0 0 (some (str "a")) false, .setText (str "bc"), .redo] =
      [(true, str "a"), (true, str "bc"), (false, str "bc")] := by
  decide

end Neosurf.Editing
