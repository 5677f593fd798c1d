/-
This file shows what holds of the matches of a free text search over all calls.
-/

import Neosurf.Construction.Textsearch

namespace Neosurf.Textsearch

/-- The entries of a context are well linked, and the current one is one of them. -/
structure State.Listed (s : State) (entries : List (Nat × ListEntry)) : Prop where
  list : s.memory.IsList s.ts.found entries
  below : ∀ a ∈ entries.map Prod.fst, a < s.allocated
  size : entries.length ≤ s.allocated
  current : ∀ a, s.ts.current = some a → a ∈ entries.map Prod.fst

def State.Sound (s : State) : Prop := ∃ entries, s.Listed entries

/-- The state that was last broadcast. -/
def lastState (type : TextsearchType) : List Message → Option Bool
  | [] => none
  | .textsearch type' _ state _ :: sent => if type' = type then some state else lastState type sent
  | .scroll _ :: sent => lastState type sent

/-- The current match has an entry before it. -/
def State.HasPrev (s : State) : Prop :=
  ∃ a cell, s.ts.current = some a ∧ s.memory a = some cell ∧ cell.prev.isSome = true

/-- The current match has an entry after it. -/
def State.HasNext (s : State) : Prop :=
  ∃ a cell, s.ts.current = some a ∧ s.memory a = some cell ∧ cell.next.isSome = true

/-- The states that were last broadcast tell whether there are entries beside the current one. -/
structure State.Announced (s : State) : Prop where
  back : lastState .textsearchBack s.sent = some true ↔ s.HasPrev
  forward : lastState .textsearchForward s.sent = some true ↔ s.HasNext

variable {s s' : State} {string : Bytes} {flags : SearchFlags} {replies : Replies}

/-- Without a current match, an emptied list is a sound one. -/
theorem sound_freeMatches (none : s.ts.current = none) : (freeMatches s).Sound := by
  refine ⟨[], ⟨List.nodup_nil, trivial, rfl, rfl⟩, by simp, Nat.zero_le _, fun a same => ?_⟩
  rw [show (freeMatches s).ts.current = s.ts.current from rfl, none] at same
  cases same

/-- One more match comes after the others. -/
theorem sound_addMatch (entry : ListEntry) (mem : Bool) (sound : s.Sound) :
    (addMatch s entry mem).Sound ∧ (addMatch s entry mem).ts.current = s.ts.current ∧
      (addMatch s entry mem).sent = s.sent := by
  cases mem with
  | false => exact ⟨sound, rfl, rfl⟩
  | true =>
      obtain ⟨entries, list, below, size, current⟩ := sound
      have fresh : s.allocated ∉ entries.map Prod.fst := fun inside =>
        Nat.lt_irrefl _ (below _ inside)
      have longer := CellMemory.isList_append (y := { entry with sel := none }) list fresh
      refine ⟨⟨_, longer, ?_, ?_, ?_⟩, rfl, rfl⟩
      · intro a inside
        rw [List.map_append, List.mem_append] at inside
        rcases inside with old | new
        · exact Nat.lt_succ_of_lt (below a old)
        · cases List.mem_singleton.mp new
          exact Nat.lt_succ_self _
      · rw [List.length_append]
        exact Nat.succ_le_succ size
      · intro a same
        rw [List.map_append, List.mem_append]
        exact .inl (current a same)

theorem sound_foldl_addMatch (added : List (ListEntry × Bool)) (sound : s.Sound) :
    (added.foldl (fun s entry => addMatch s entry.1 entry.2) s).Sound ∧
      (added.foldl (fun s entry => addMatch s entry.1 entry.2) s).ts.current = s.ts.current ∧
      (added.foldl (fun s entry => addMatch s entry.1 entry.2) s).sent = s.sent := by
  induction added generalizing s with
  | nil => exact ⟨sound, rfl, rfl⟩
  | cons entry rest ih =>
      obtain ⟨sound', current, sent⟩ := sound_addMatch entry.1 entry.2 sound
      obtain ⟨later, current', sent'⟩ := ih sound'
      exact ⟨later, current'.trans current, sent'.trans sent⟩

/-- Nothing else of a context matters. -/
theorem State.Sound.congr (sound : s.Sound) (memory : s'.memory = s.memory)
    (found : s'.ts.found = s.ts.found) (current : s'.ts.current = s.ts.current)
    (allocated : s'.allocated = s.allocated) : s'.Sound := by
  obtain ⟨entries, list, below, size, inside⟩ := sound
  refine ⟨entries, ?_, ?_, ?_, ?_⟩
  · rw [memory, found]
    exact list
  · rw [allocated]
    exact below
  · rw [allocated]
    exact size
  · rw [current]
    exact inside

/-- A new search has the matches of the content, and no current one yet. -/
theorem sound_startSearch (string : Bytes) (replies : Replies) (s : State) :
    (startSearch string replies s).Sound ∧ (startSearch string replies s).ts.current = none ∧
      (∀ type, type ≠ .textsearchFind →
        lastState type (startSearch string replies s).sent = lastState type s.sent) := by
  have emptied : (freeMatches { s with ts.current := none }).Sound := sound_freeMatches rfl
  let before : State := broadcast .textsearchFind true none
    { freeMatches { s with ts.current := none } with
      ts.string := if replies.stringMem then some string else none }
  obtain ⟨sound, current, sent⟩ := sound_foldl_addMatch replies.added
    (s := before) (emptied.congr rfl rfl rfl rfl)
  refine ⟨sound.congr rfl rfl rfl rfl, current, fun type other => ?_⟩
  have later : (startSearch string replies s).sent =
      .textsearch .textsearchFind (startSearch string replies s).ts.guiP false none ::
        (replies.added.foldl (fun s entry => addMatch s entry.1 entry.2) before).sent := rfl
  rw [later, sent, lastState, if_neg other.symm]
  change lastState type (.textsearch .textsearchFind s.ts.guiP true none :: s.sent) = _
  rw [lastState, if_neg other.symm]

/-- The current entry was not freed, so it can be read. -/
theorem currentEntry_eq (sound : s.Sound) :
    ∃ entry, currentEntry s = some entry ∧
      (entry.any (·.prev.isSome) = true ↔ s.HasPrev) ∧
      (entry.any (·.next.isSome) = true ↔ s.HasNext) := by
  obtain ⟨entries, list, -, -, inside⟩ := sound
  cases current : s.ts.current with
  | none =>
      refine ⟨none, by rw [currentEntry, current], ?_, ?_⟩
      · simp [State.HasPrev, current]
      · simp [State.HasNext, current]
  | some a =>
      obtain ⟨l, x, r, rfl⟩ := CellMemory.exists_split (inside a current)
      obtain ⟨-, -, -, here, -⟩ := list.split
      refine ⟨some ⟨CellMemory.lastOf l, CellMemory.headOf r, x⟩, ?_, ?_, ?_⟩
      · rw [currentEntry, current]
        simp only [here, Option.map_some]
      · simp [State.HasPrev, current, here]
      · simp [State.HasNext, current, here]

theorem sound_searchShowAll (all : Bool) (replies : Replies) (sound : s.Sound) :
    (searchShowAll all replies s).Sound := by
  obtain ⟨entries, list, below, size, current⟩ := sound
  have addresses (change : Nat → ListEntry → ListEntry) :
      (entries.map fun pair => (pair.1, change pair.1 pair.2)).map Prod.fst =
        entries.map Prod.fst := by
    rw [List.map_map]
    rfl
  refine ⟨_, CellMemory.isList_mapFrom list size, ?_, ?_, ?_⟩
  · rw [addresses]
    exact below
  · rw [List.length_map]
    exact size
  · rw [addresses]
    exact current

/-- What a step leaves when its states are updated. -/
structure Updated (s s' : State) : Prop where
  sound : s'.Sound
  announced : s'.Announced
  current : s'.ts.current = s.ts.current

/-- The update reads no freed entry, and it announces what is beside the current match. -/
theorem updateStates_spec (showall : Bool) (replies : Replies) (sound : s.Sound) :
    ∃ s' res, updateStates showall replies s = some (s', res) ∧ Updated s s' := by
  let shown := searchShowAll showall replies
    (broadcast .textsearchMatch s.ts.current.isSome none s)
  have shown_sound : shown.Sound :=
    sound_searchShowAll showall replies (sound.congr rfl rfl rfl rfl)
  obtain ⟨entry, read, prev, next⟩ := currentEntry_eq shown_sound
  let told := broadcast .textsearchForward (entry.any (·.next.isSome)) none
    (broadcast .textsearchBack (entry.any (·.prev.isSome)) none shown)
  have updated : Updated s told := by
    refine ⟨shown_sound.congr rfl rfl rfl rfl, ⟨?_, ?_⟩, rfl⟩
    · change some (entry.any (·.prev.isSome)) = some true ↔ shown.HasPrev
      rw [Option.some.injEq]
      exact prev
    · change some (entry.any (·.next.isSome)) = some true ↔ shown.HasNext
      rw [Option.some.injEq]
      exact next
  have split : updateStates showall replies s =
      if told.ts.current = none then some (told, .ok) else some (scrollToMatch replies told) := by
    rw [updateStates]
    simp only [shown, told] at read ⊢
    rw [read]
    rfl
  rw [split]
  split
  · exact ⟨_, _, rfl, updated⟩
  · rw [scrollToMatch]
    cases replies.bounds with
    | error e => exact ⟨_, _, rfl, updated⟩
    | ok bounds =>
        exact ⟨_, _, rfl, updated.sound.congr rfl rfl rfl rfl,
          ⟨updated.announced.back, updated.announced.forward⟩, updated.current⟩

/-- The entry beside the current one becomes the current one. -/
theorem continueSearch_spec (forwards : Bool) (sound : s.Sound) :
    ∃ s', continueSearch forwards s = some s' ∧ s'.Sound := by
  obtain ⟨entries, list, below, size, inside⟩ := sound
  cases current : s.ts.current with
  | none =>
      refine ⟨s, ?_, entries, list, below, size, inside⟩
      simp [continueSearch, currentEntry, current]
  | some a =>
      obtain ⟨l, x, r, rfl⟩ := CellMemory.exists_split (inside a current)
      obtain ⟨-, -, -, here, -⟩ := list.split
      refine ⟨{ s with ts.current :=
        (if forwards then CellMemory.headOf r else CellMemory.lastOf l).or s.ts.current }, ?_, ?_⟩
      · simp [continueSearch, currentEntry, current, here]
      · refine ⟨_, list, below, size, fun b same => ?_⟩
        change (if forwards then CellMemory.headOf r else CellMemory.lastOf l).or s.ts.current =
          some b at same
        rcases Option.or_eq_some_iff.mp same with beside | ⟨-, same⟩
        · rw [List.map_append, List.map_cons]
          cases forwards with
          | true =>
              exact List.mem_append_right _ (List.mem_cons_of_mem _ (CellMemory.headOf_mem beside))
          | false => exact List.mem_append_left _ (CellMemory.lastOf_mem beside)
        · exact inside b same

/-- Nothing is beside a missing match. -/
theorem announced_iff_of_none (current : s.ts.current = none) :
    s.Announced ↔ lastState .textsearchBack s.sent ≠ some true ∧
      lastState .textsearchForward s.sent ≠ some true := by
  have no_prev : ¬ s.HasPrev := by
    rintro ⟨a, cell, same, -⟩
    rw [current] at same
    cases same
  have no_next : ¬ s.HasNext := by
    rintro ⟨a, cell, same, -⟩
    rw [current] at same
    cases same
  constructor
  · rintro ⟨back, forward⟩
    exact ⟨fun sent => no_prev (back.mp sent), fun sent => no_next (forward.mp sent)⟩
  · rintro ⟨back, forward⟩
    exact ⟨iff_of_false back no_prev, iff_of_false forward no_next⟩

/-- The search of a string calls the find handler of the content. -/
def searches (ts : TextsearchContext) (flags : SearchFlags) (string : Bytes) : Bool :=
  !onlyWildcards string && (ts.newsearch || ts.prevCaseSens != flags.caseSensitive)

/-- What a failed find leaves: no current match, and the states as they were. -/
structure Failed (s s' : State) : Prop where
  current : s'.ts.current = none
  back : lastState .textsearchBack s'.sent = lastState .textsearchBack s.sent
  forward : lastState .textsearchForward s'.sent = lastState .textsearchForward s.sent

/-- A step reads no freed entry. It announces what is beside the current match, unless the find
handler fails. -/
theorem step_spec (sound : s.Sound) (wild : onlyWildcards string = true → s.ts.current = none) :
    ∃ s' res, step flags string replies s = some (s', res) ∧ s'.Sound ∧
      (onlyWildcards string = true → s'.ts.current = none) ∧
      ((searches s.ts flags string && replies.findResult != .ok) = true → Failed s s') ∧
      ((searches s.ts flags string && replies.findResult != .ok) = false → s'.Announced) := by
  let s₁ := broadcast .textsearchRecent false (some string) s
  have sound₁ : s₁.Sound := sound.congr rfl rfl rfl rfl
  rw [step]
  split
  · rename_i only
    have emptied : (freeMatches s₁).Sound := sound_freeMatches (wild only)
    refine ⟨_, _, rfl, emptied.congr rfl rfl rfl rfl, fun _ => wild only, fun fails => ?_,
      fun _ => ?_⟩
    · simp [searches, only] at fails
    · refine (announced_iff_of_none ?_).mpr ⟨?_, ?_⟩
      · exact wild only
      · change some false ≠ some true
        decide
      · change some false ≠ some true
        decide
  · rename_i characters
    rw [searchText]
    split
    · rename_i restarts
      have asks : searches s.ts flags string = true := by
        simp only [searches, characters, Bool.not_false, Bool.true_and]
        exact restarts
      obtain ⟨started, current, states⟩ := sound_startSearch string replies s₁
      split
      · rename_i failed
        refine ⟨_, _, rfl, sound_freeMatches current, fun _ => current, fun _ => ?_, fun fine => ?_⟩
        · refine ⟨current, ?_, ?_⟩
          · exact states _ (by decide)
          · exact states _ (by decide)
        · simp [asks, failed] at fine
      · rename_i found
        let first : State := { startSearch string replies s₁ with
          ts.prevCaseSens := flags.caseSensitive
          ts.current := (startSearch string replies s₁).ts.found.first
          ts.newsearch := false }
        have sound_first : first.Sound := by
          obtain ⟨entries, list, below, size, -⟩ := started
          exact ⟨entries, list, below, size, fun a same =>
            CellMemory.headOf_mem (list.first.symm.trans same)⟩
        obtain ⟨s', res, done, updated⟩ := updateStates_spec flags.showall replies sound_first
        refine ⟨s', res, done, updated.sound, fun only => absurd only characters, fun fails => ?_,
          fun _ => updated.announced⟩
        rw [not_not] at found
        simp [found] at fails
    · rename_i goes_on
      obtain ⟨s₂, continued, sound₂⟩ := continueSearch_spec flags.forwards sound₁
      obtain ⟨s', res, done, updated⟩ := updateStates_spec flags.showall replies sound₂
      refine ⟨s', res, ?_, updated.sound, fun only => absurd only characters, fun fails => ?_,
        fun _ => updated.announced⟩
      · simp only [s₁] at continued
        rw [continued]
        exact done
      · have asks := (Bool.and_eq_true_iff.mp (Bool.and_eq_true_iff.mp fails).1).2
        exact absurd asks goes_on

/-- The context of a content is sound, and it has no current match if its string is nothing but
wildcards. -/
def Content.Sound (c : Content) : Prop :=
  ∀ ts, c.context = some ts → (c.state ts).Sound ∧
    ∀ string, c.string = some string → onlyWildcards string = true → ts.current = none

/-- The states that were last broadcast fit the context, if there is one. -/
def Content.Announced (c : Content) : Prop :=
  ∀ ts, c.context = some ts → (c.state ts).Announced

/-- The find handler of the content is called, and it fails. -/
def findFails (supported : Bool) (c : Content) (call : Call) : Bool :=
  match call.string with
  | none => false
  | some string => !onlyWildcards string && call.replies.findResult != .ok &&
      match if c.string = some string then c.context else none with
      | some ts => ts.newsearch || ts.prevCaseSens != call.flags.caseSensitive
      | none => call.replies.duplicateMem && supported && call.replies.contextMem &&
          call.replies.headMem

/-- Neither state is announced, and no context is to be destroyed, which announces both. -/
def Unannounced (c : Content) (call : Call) : Prop :=
  lastState .textsearchBack c.sent ≠ some true ∧
    lastState .textsearchForward c.sent ≠ some true ∧
    (c.context.isSome = true → c.string = call.string)

instance (c : Content) (call : Call) : Decidable (Unannounced c call) :=
  inferInstanceAs (Decidable (_ ∧ _ ∧ _))

/-- A failed find leaves the states as they are, so they must fit a search without a match. -/
def Fits (supported : Bool) (c : Content) (call : Call) : Prop :=
  findFails supported c call = true → Unannounced c call

instance (supported : Bool) (c : Content) (call : Call) : Decidable (Fits supported c call) :=
  inferInstanceAs (Decidable (_ → _))

variable {supported : Bool} {c : Content} {call : Call}

/-- A content without a context has nothing to announce. -/
theorem fine_of_no_context (none : c.context = none) : c.Sound ∧ c.Announced := by
  refine ⟨fun ts same => ?_, fun ts same => ?_⟩
  · rw [none] at same
    cases same
  · rw [none] at same
    cases same

theorem context_dropContext (c : Content) : c.dropContext.context = none := by
  obtain ⟨string, context, memory, allocated, sent⟩ := c
  cases context <;> rfl

theorem string_dropContext (c : Content) : c.dropContext.string = c.string := by
  obtain ⟨string, context, memory, allocated, sent⟩ := c
  cases context <;> rfl

/-- A context that is destroyed announces both states, and the messages stay as they are where
there is none. -/
theorem sent_dropContext (c : Content) :
    (c.context = none → c.dropContext.sent = c.sent) ∧
      (c.context.isSome = true → lastState .textsearchBack c.dropContext.sent = some true) := by
  obtain ⟨string, context, memory, allocated, sent⟩ := c
  cases context with
  | none => exact ⟨fun _ => rfl, fun some => (by cases some)⟩
  | some ts => exact ⟨fun none => (by cases none), fun _ => rfl⟩

/-- What a step leaves in the content. -/
theorem step_content (call : Call) {string : Bytes} {ts : TextsearchContext}
    (sound : (c.state ts).Sound)
    (same : c.string = some string) (wild : onlyWildcards string = true → ts.current = none) :
    ∃ s' res, step call.flags string call.replies (c.state ts) = some (s', res) ∧
      (Content.ofState c.string s').Sound ∧
      ((searches ts call.flags string && call.replies.findResult != .ok) = true →
        ((Content.ofState c.string s').Announced ↔ lastState .textsearchBack c.sent ≠ some true ∧
          lastState .textsearchForward c.sent ≠ some true)) ∧
      ((searches ts call.flags string && call.replies.findResult != .ok) = false →
        (Content.ofState c.string s').Announced) := by
  obtain ⟨s', res, done, sound', wild', failed, fine⟩ :=
    step_spec sound wild
  refine ⟨s', res, done, fun ts' here => ?_, fun fails => ?_, fun succeeds ts' here => ?_⟩
  · cases here
    refine ⟨sound', fun string' same' only => ?_⟩
    have equal : some string = some string' := same.symm.trans same'
    cases equal
    exact wild' only
  · obtain ⟨current, back, forward⟩ := failed fails
    have announced := announced_iff_of_none current
    rw [back, forward] at announced
    refine Iff.trans ⟨fun all => all _ rfl, fun one ts' here => ?_⟩ announced
    cases here
    exact one
  · cases here
    exact fine succeeds

/-- A context is made where the content supports a search and there is memory. -/
theorem create_cases (supported : Bool) (guiData : Nat) (replies : Replies) :
    (supported && replies.contextMem && replies.headMem) = true ∧
        create supported guiData replies = .ok ⟨guiData, {}, none, none, false, true⟩ ∨
      (supported && replies.contextMem && replies.headMem) = false ∧
        ∃ e, create supported guiData replies = .error e := by
  cases h : supported with
  | false => exact .inr ⟨rfl, _, rfl⟩
  | true =>
      rw [create]
      cases replies.contextMem with
      | false => exact .inr ⟨rfl, _, rfl⟩
      | true =>
          cases replies.headMem with
          | false => exact .inr ⟨rfl, _, rfl⟩
          | true => exact .inl ⟨rfl, rfl⟩

/-- What a call leaves. -/
structure Left (supported : Bool) (c : Content) (call : Call) (c' : Content) : Prop where
  sound : c'.Sound
  announced : c.Announced → (c'.Announced ↔ Fits supported c call)

/-- A search for another string starts in a context of its own. -/
theorem newSearch_spec {string : Bytes} (asked : call.string = some string) (sound : c.Sound)
    (other : c.string = some string → c.context = none) :
    ∃ c' res, contentTextsearch.newSearch supported c call string = some (c', res) ∧
      Left supported c call c' := by
  have no_context : (if c.string = some string then c.context else none) = none := by
    split
    · rename_i same
      exact other same
    · rfl
  have fails : findFails supported c call =
      (!onlyWildcards string && call.replies.findResult != .ok &&
        (call.replies.duplicateMem && supported && call.replies.contextMem &&
          call.replies.headMem)) := by
    rw [findFails, asked]
    simp only [no_context]
  rw [contentTextsearch.newSearch]
  cases duplicate : call.replies.duplicateMem with
  | false =>
      refine ⟨_, _, rfl, fun ts here => ⟨(sound ts here).1, fun _ same => by cases same⟩,
        fun announced => ⟨fun _ fit => ?_, fun _ => announced⟩⟩
      simp [fails, duplicate] at fit
  | true =>
      rw [duplicate, Bool.true_and] at fails
      let named : Content := { c with string := some string }
      let c' := named.dropContext
      rcases create_cases supported call.context call.replies with ⟨room, made⟩ | ⟨room, e, made⟩
      · have fails : findFails supported c call =
            (searches ⟨call.context, {}, none, none, false, true⟩ call.flags string &&
              call.replies.findResult != .ok) := by
          rw [fails, room, searches, Bool.true_or, Bool.and_true, Bool.and_true]
        have empty : (c'.state ⟨call.context, {}, none, none, false, true⟩).Sound :=
          ⟨[], ⟨List.nodup_nil, trivial, rfl, rfl⟩, by simp, Nat.zero_le _, fun a same => by
            cases same⟩
        obtain ⟨s', res, done, sound', failed, fine⟩ :=
          step_content call empty (string_dropContext named) (fun _ => rfl)
        refine ⟨_, .ok, ?_, sound', fun announced => ?_⟩
        · simp only [made, c', named] at done ⊢
          simp only [Bool.not_true, Bool.false_eq_true, if_false, done]
          rfl
        · rw [Fits, fails]
          cases failing : (searches ⟨call.context, {}, none, none, false, true⟩ call.flags string &&
              call.replies.findResult != .ok) with
          | false => exact ⟨fun _ fit => (by cases fit), fun _ => fine failing⟩
          | true =>
              refine (failed failing).trans ⟨fun quiet _ => ?_, fun fits => ?_⟩
              · obtain ⟨same, destroyed⟩ := sent_dropContext named
                cases present : c.context with
                | none =>
                    rw [same present] at quiet
                    exact ⟨quiet.1, quiet.2, fun some => by rw [present] at some; cases some⟩
                | some ts =>
                    refine absurd (destroyed ?_) quiet.1
                    change c.context.isSome = true
                    rw [present]
                    rfl
              · obtain ⟨back, forward, continues⟩ := fits rfl
                have absent : c.context = none := by
                  cases present : c.context with
                  | none => rfl
                  | some ts =>
                      rw [← present]
                      exact other ((continues (by rw [present]; rfl)).trans asked)
                rw [(sent_dropContext named).1 absent]
                exact ⟨back, forward⟩
      · refine ⟨c', e, ?_, (fine_of_no_context (context_dropContext named)).1, fun _ => ?_⟩
        · simp only [made, c', named]
          simp
        · refine ⟨fun _ fit => ?_, fun _ => (fine_of_no_context (context_dropContext named)).2⟩
          rw [fails, room, Bool.and_false] at fit
          cases fit

/-- A call reads no freed entry. Where the states fit the context before, they do so after it
exactly if a failed find had nothing to withdraw. -/
theorem contentTextsearch_spec (supported : Bool) (call : Call) (sound : c.Sound) :
    ∃ c' res, contentTextsearch supported c call = some (c', res) ∧ Left supported c call c' := by
  rw [contentTextsearch]
  cases asked : call.string with
  | none =>
      have fine := fine_of_no_context (context_dropContext { c with string := none })
      refine ⟨_, _, rfl, fine.1, fun _ => ⟨fun _ fails => ?_, fun _ => fine.2⟩⟩
      simp [findFails, asked] at fails
  | some string =>
      cases present : c.context with
      | none => exact newSearch_spec asked sound fun _ => present
      | some ts =>
          by_cases same : c.string = some string
          · have fails : findFails supported c call =
                (searches ts call.flags string && call.replies.findResult != .ok) := by
              rw [findFails, asked, searches]
              simp only [if_pos same, present]
              cases onlyWildcards string <;> cases call.replies.findResult != .ok <;> simp
            obtain ⟨sound', wild⟩ := sound ts present
            obtain ⟨s', res, done, after, failed, fine⟩ :=
              step_content call sound' same (wild string same)
            refine ⟨.ofState c.string s', .ok, ?_, after, fun announced => ?_⟩
            · simp only [if_pos same, done]
              rfl
            · rw [Fits, fails]
              cases failing : (searches ts call.flags string && call.replies.findResult != .ok) with
              | false => exact ⟨fun _ fit => (by cases fit), fun _ => fine failing⟩
              | true =>
                  refine (failed failing).trans ⟨fun quiet _ => ⟨quiet.1, quiet.2, fun _ => ?_⟩,
                    fun fits => ⟨(fits rfl).1, (fits rfl).2.1⟩⟩
                  rw [same, asked]
          · simp only [if_neg same]
            exact newSearch_spec asked sound fun same' => absurd same' same

/-- The content after a call. -/
def afterCall (supported : Bool) (c : Content) (call : Call) : Option Content :=
  (contentTextsearch supported c call).map Prod.fst

/-- No call ever reads a freed entry, the list stays well linked and the current match is one of
its entries. The states that were last broadcast fit the current match in every run where a failed
find has nothing to withdraw. -/
theorem afterCalls_spec (supported : Bool) (calls : List Call) :
    ∃ c, GuardedRuns.run (afterCall supported) Content.initial calls = some c ∧ c.Sound ∧
      (GuardedRuns.Meets (afterCall supported) (Fits supported) Content.initial calls →
        c.Announced) := by
  have general (c : Content) (sound : c.Sound) :
      ∃ c', GuardedRuns.run (afterCall supported) c calls = some c' ∧ c'.Sound ∧
        (c.Announced → GuardedRuns.Meets (afterCall supported) (Fits supported) c calls →
          c'.Announced) := by
    induction calls generalizing c with
    | nil => exact ⟨c, rfl, sound, fun announced _ => announced⟩
    | cons call rest ih =>
        obtain ⟨c', res, done, left⟩ := contentTextsearch_spec supported call sound
        have next : afterCall supported c call = some c' := by rw [afterCall, done]; rfl
        obtain ⟨last, reached, sound', announced⟩ := ih c' left.sound
        refine ⟨last, by rw [GuardedRuns.run, next]; exact reached, sound', fun before meets => ?_⟩
        exact announced ((left.announced before).mpr meets.1) (meets.2 c' next)
  obtain ⟨sound, announced⟩ := fine_of_no_context (c := Content.initial) rfl
  obtain ⟨c, reached, sound, later⟩ := general Content.initial sound
  exact ⟨c, reached, sound, later announced⟩

/-- A search for "ab" where the content has two matches, with the result of its find handler. -/
def twoMatches (caseSensitive : Bool) (findResult : Nserror) : Call where
  context := 0
  flags := ⟨caseSensitive, true, false⟩
  string := some (str "ab")
  replies := {
    contextMem := true
    headMem := true
    duplicateMem := true
    stringMem := true
    selectionMem := fun _ => true
    added := [(⟨0, 2, 0, 0, none⟩, true), (⟨5, 7, 0, 0, none⟩, true)]
    findResult := findResult
    bounds := .error .notFound }

/-- Two steps to the next match. -/
theorem twoMatches_announced : ∃ c, GuardedRuns.run (afterCall true) Content.initial
    [twoMatches true .ok, twoMatches true .ok] = some c ∧ c.Announced := by
  obtain ⟨c, reached, -, announced⟩ :=
    afterCalls_spec true [twoMatches true .ok, twoMatches true .ok]
  exact ⟨c, reached, announced (by decide)⟩

/-- The second search asks for the case to be ignored, and fails. The entry after the first match
stays announced. -/
theorem failed_find_announced : ∃ c ts, GuardedRuns.run (afterCall true) Content.initial
    [twoMatches true .ok, twoMatches false .nomem] = some c ∧ c.context = some ts ∧
      ts.current = none ∧ lastState .textsearchForward c.sent = some true ∧ ¬ c.Announced := by
  refine ⟨_, _, rfl, rfl, rfl, rfl, fun announced => ?_⟩
  exact ((announced_iff_of_none rfl).mp (announced _ rfl)).2 rfl

end Neosurf.Textsearch
