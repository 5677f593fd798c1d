/-
This file proves for which data URLs the type reaches the users of the fetch.
-/

import Neosurf.Construction.Fetch
import Neosurf.Proof.Bytes

namespace Neosurf.FetchData

variable {before : Vector Byte 7} {aborts : List FetchMsg → Bool} {c processed : Context}
  {mimetype : Bytes}

/-- The text between `data:` and the first comma. -/
def typeText (url : Bytes) : Bytes := (url.drop 5).takeWhile (· ≠ chr ',')

/-- A text without a final `;base64`. -/
def uncoded (text : Bytes) : Bytes :=
  if str ";base64" <:+ text then text.take (text.length - 7) else text

/-- The type that a data URL states. -/
def statedType (url : Bytes) : Bytes :=
  if uncoded (typeText url) = [] then str "text/plain;charset=US-ASCII" else uncoded (typeText url)

/-- The users get the stated type, in a header too, and the test for `;base64` stays inside the
type. -/
structure TypeGiven (before : Vector Byte 7) (aborts : List FetchMsg → Bool)
    (c processed : Context) : Prop where
  inside : 0 ≤ base64Start (copyMimetype (c.url.drop 5))
  stated : processed.mimetype = statedType c.url
  delivered : .header (str "Content-Type: " ++ statedType c.url) ∈ pollContext before aborts c

/-- A string of seven bytes is read over the last seven bytes of a block and the memory before. -/
theorem stringFrom_base64Start (before : Vector Byte 7) (mimetype : Bytes) :
    stringFrom before mimetype (base64Start mimetype) = str ";base64" ↔
      (before.toList ++ mimetype).drop mimetype.length = str ";base64" := by
  have start : (7 + base64Start mimetype).toNat = mimetype.length := by
    rw [base64Start]
    omega
  rw [stringFrom, start]
  constructor
  · intro found
    have size : ((before.toList ++ mimetype).drop mimetype.length).length = 7 := by simp
    rw [cstr] at found
    have same := (List.takeWhile_prefix (fun c : Byte => decide (c ≠ 0))
      (l := (before.toList ++ mimetype).drop mimetype.length)).eq_of_length
      (by rw [found, size]; rfl)
    rw [← same, found]
  · intro found
    rw [found]
    decide

/-- Inside the block the memory before is not read. -/
theorem stringFrom_inside (long : 7 ≤ mimetype.length) :
    stringFrom before mimetype (base64Start mimetype) = str ";base64" ↔
      str ";base64" <:+ mimetype := by
  have behind : (before.toList ++ mimetype).drop mimetype.length =
      mimetype.drop (mimetype.length - 7) := by
    rw [List.drop_append, List.drop_eq_nil_of_le (by simpa using long)]
    simp
  rw [stringFrom_base64Start, behind, List.suffix_iff_eq_drop, eq_comm]
  rfl

/-- An accepted URL has a comma, and its type is the copy, cut where the test finds `;base64`. -/
theorem process_ok (accepted : process before c = .ok processed) :
    chr ',' ∈ c.url.drop 5 ∧ processed.mimetype =
      let copy := copyMimetype (c.url.drop 5)
      if stringFrom before copy (base64Start copy) = str ";base64" then
        truncate copy (base64Start copy)
      else copy := by
  rw [process] at accepted
  split at accepted
  next => cases accepted
  next =>
      dsimp only at accepted
      split at accepted
      next => cases accepted
      next comma =>
          split at accepted
          next => cases accepted
          next =>
              cases accepted
              simp only [beq_iff_eq]
              refine ⟨?_, rfl⟩
              rw [Bool.not_eq_true, Bool.not_eq_false', List.contains_iff_mem] at comma
              exact comma

/-- Without a type text the copy is the default, else it is the text. -/
theorem copyMimetype_eq (comma : chr ',' ∈ c.url.drop 5) :
    copyMimetype (c.url.drop 5) =
      if typeText c.url = [] then str "text/plain;charset=US-ASCII" else typeText c.url := by
  rw [copyMimetype, typeText]
  cases params : c.url.drop 5 with
  | nil => simp [params] at comma
  | cons first rest => by_cases starts : first = chr ',' <;> simp [byteAt, starts]

theorem mem_sendHeader {text : Bytes} {s : Sending} {msg : FetchMsg} :
    msg ∈ (sendHeader aborts text s).sent ↔
      msg ∈ s.sent ∨ text.length < 64 ∧ msg = .header text := by
  have fits : (64 ≤ printedLength text ∨ printedLength text < 0) ↔ 64 ≤ text.length := by
    rw [printedLength]
    split <;> omega
  rw [sendHeader, if_congr fits rfl rfl]
  split
  next long =>
      rw [or_iff_left]
      omega
  next short => simp [sendCallback, Nat.lt_of_not_le short]

/-- A step that is not taken after an abort adds nothing else. -/
theorem mem_unlessAborted {send : Sending → Sending} {s : Sending} {msg : FetchMsg}
    (absent : msg ∈ (send s).sent ↔ msg ∈ s.sent) :
    msg ∈ (unlessAborted send s).sent ↔ msg ∈ s.sent := by
  rw [unlessAborted]
  split
  next => rfl
  next => exact absent

/-- Of the messages only the first one is a header with a type. -/
theorem mem_sendResult {type : Bytes} :
    .header (str "Content-Type: " ++ type) ∈ (sendResult aborts processed).sent ↔
      processed.mimetype = type ∧ type.length < 50 := by
  rw [sendResult, mem_unlessAborted, mem_unlessAborted, mem_unlessAborted, mem_unlessAborted,
    mem_sendHeader]
  · simp only [List.not_mem_nil, false_or, FetchMsg.header.injEq, List.append_cancel_left_eq]
    have size (type : Bytes) : (str "Content-Type: " ++ type).length = 14 + type.length := by
      rw [List.length_append]
      rfl
    rw [size]
    constructor
    · rintro ⟨short, rfl⟩
      exact ⟨rfl, by omega⟩
    · rintro ⟨rfl, short⟩
      exact ⟨by omega, rfl⟩
  · simp [mem_sendHeader, str, chr]
  · simp [mem_sendHeader, str, chr]
  · simp [sendCallback]
  · simp [sendCallback]

theorem uncoded_eq_nil {text : Bytes} : uncoded text = [] ↔ text = [] ∨ text = str ";base64" := by
  rw [uncoded]
  split
  next coded =>
      obtain ⟨type, rfl⟩ := coded
      have cut : (type ++ str ";base64").length - 7 = type.length := by
        rw [List.length_append]
        rfl
      rw [cut, List.take_left, or_iff_right (List.append_ne_nil_of_right_ne_nil _ (by decide)),
        List.append_left_eq_self]
  next plain =>
      refine (or_iff_left ?_).symm
      rintro rfl
      exact plain (List.suffix_refl _)

/-- With room for the test the code cuts as the URL states. -/
theorem process_uncoded (accepted : process before c = .ok processed)
    (long : 7 ≤ (copyMimetype (c.url.drop 5)).length) :
    processed.mimetype = uncoded (copyMimetype (c.url.drop 5)) := by
  obtain ⟨-, mimetype⟩ := process_ok accepted
  have start : base64Start (copyMimetype (c.url.drop 5)) =
      ((copyMimetype (c.url.drop 5)).length - 7 : Nat) := by
    rw [base64Start]
    omega
  rw [mimetype, uncoded]
  dsimp only
  rw [if_congr (stringFrom_inside long) rfl rfl, truncate, start]
  rfl

/-- The type of an accepted URL is given when it is absent, or when its text has room for the test,
is not just `;base64` and leaves a type that fits into the buffer of the header. -/
theorem typeGiven_iff (before : Vector Byte 7) (aborts : List FetchMsg → Bool)
    {c processed : Context} (pending : c.aborted = false)
    (accepted : process before c = .ok processed) :
    TypeGiven before aborts c processed ↔
      typeText c.url = [] ∨ 7 ≤ (typeText c.url).length ∧ typeText c.url ≠ str ";base64" ∧
        (statedType c.url).length < 50 := by
  have copy := copyMimetype_eq (process_ok accepted).1
  have cut := process_uncoded accepted
  have sent : pollContext before aborts c = (sendResult aborts processed).sent := by
    rw [pollContext, pending, accepted]
    rfl
  by_cases absent : typeText c.url = []
  · rw [if_pos absent] at copy
    have default : statedType c.url = str "text/plain;charset=US-ASCII" := by
      rw [statedType, absent]
      decide
    rw [copy] at cut
    have uncut : processed.mimetype = str "text/plain;charset=US-ASCII" :=
      (cut (by decide)).trans (by decide)
    refine iff_of_true ⟨?_, uncut.trans default.symm, ?_⟩ (.inl absent)
    · rw [copy]
      decide
    · rw [sent, mem_sendResult, uncut, default]
      decide
  · rw [if_neg absent] at copy
    rw [copy] at cut
    have inside : 0 ≤ base64Start (typeText c.url) ↔ 7 ≤ (typeText c.url).length := by
      rw [base64Start]
      omega
    rw [or_iff_right absent]
    constructor
    · rintro ⟨start, stated, delivered⟩
      rw [copy, inside] at start
      rw [sent, mem_sendResult] at delivered
      refine ⟨start, ?_, delivered.2⟩
      intro onlyCoded
      rw [cut start, statedType, onlyCoded] at stated
      exact absurd stated (by decide)
    · rintro ⟨long, more, short⟩
      have nonempty : uncoded (typeText c.url) ≠ [] := by
        rw [Ne, uncoded_eq_nil]
        exact not_or.2 ⟨absent, more⟩
      have stated : processed.mimetype = statedType c.url := by
        rw [cut long, statedType, if_neg nonempty]
      refine ⟨?_, stated, ?_⟩
      · rw [copy]
        exact inside.2 long
      · rw [sent, mem_sendResult]
        exact ⟨stated, short⟩

/-- Every fetch that is not locked is sent its messages once. -/
theorem poll_eq (ring saveRing : List Context) :
    poll before aborts ring saveRing =
      ((ring.filter fun c => !c.locked).map fun c => (c, pollContext before aborts c),
        saveRing ++ ring.filter (·.locked)) := by
  induction ring generalizing saveRing with
  | nil => simp [poll]
  | cons c ring inductionHypothesis =>
      cases locked : c.locked <;> simp [poll, locked, inductionHypothesis]

/-- A page in base64 is given its type. -/
theorem typeGiven_html :
    TypeGiven (Vector.replicate 7 0) (fun _ => false)
      { url := str "data:text/html;base64,PGI+" }
      { url := str "data:text/html;base64,PGI+", mimetype := str "text/html",
        data := str "<b>", base64 := true } :=
  (typeGiven_iff _ _ rfl (by decide)).2 (by decide)

/-- This is the type of a word processor's documents. -/
def longTyped : Context where
  url := str "data:application/vnd.openxmlformats-officedocument.wordprocessingml.document,A"

/-- The header with a long type is dropped. -/
theorem longType_not_delivered :
    ∃ processed, process (Vector.replicate 7 0) longTyped = .ok processed ∧
      ¬ TypeGiven (Vector.replicate 7 0) (fun _ => false) longTyped processed := by
  refine ⟨_, rfl, ?_⟩
  intro given
  exact absurd given.delivered (by decide)

end Neosurf.FetchData
