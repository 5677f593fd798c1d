/-
This file proves when a retrieval is given a content of a type that it accepts.
-/

import Neosurf.Proof.Hlcache.Owners

namespace Neosurf.Hlcaching

open Hlcache Mimesniff

variable {factory : Bytes → Option Handler} {s s' s'' : Hlcache} {a l : Nat} {ctx : RetrievalCtx}
  {e : Entry} {react : Reactions} {created : Bool} {mimeType : Bytes} {effectiveType : Option Bytes}
  {steps : List HlcacheStep} {x : HlcacheStep}

/-- The contents are of the types that they were of, and no handle was given a content. -/
structure SameTypes (s s' : Hlcache) : Prop where
  contents : ∀ e' ∈ s'.contentList, ∃ e ∈ s.contentList, e'.mimeType = e.mimeType ∧
    e'.handler = e.handler
  associations : s'.associations = s.associations

/-- A content has the handler that the factory has for its MIME type. -/
def Made (factory : Bytes → Option Handler) (s : Hlcache) : Prop :=
  ∀ e ∈ s.contentList, factory e.mimeType = some e.handler

/-- The handles were given contents of types that their retrievals accept. -/
def AllAccepted (s : Hlcache) : Prop :=
  ∀ given ∈ s.associations, given.acceptedTypes &&& given.type ≠ 0

/-- A retrieval accepts this MIME type. -/
def Acceptable (factory : Bytes → Option Handler) (ctx : RetrievalCtx) (mimeType : Bytes) : Prop :=
  ctx.acceptedTypes &&& typeFromMimeType factory mimeType ≠ 0

/-- The effective type that an event gives a retrieval, when there is one. -/
def LowEvent.sniffed (factory : Bytes → Option Handler) (ctx : RetrievalCtx)
    (event : LowEvent) : Option Bytes :=
  let isImage := fun mimeType => typeFromMimeType factory mimeType = 8
  let imageOnly := ctx.acceptedTypes = 8
  match event with
  | .hadHeaders header =>
      (computeEffectiveType isImage header none ctx.sniffType imageOnly).toOption
  | .hadData header data =>
      (computeEffectiveType isImage header (some data) ctx.sniffType imageOnly).toOption
  | .done header => (computeEffectiveType isImage header none false false).toOption
  | _ => none

/-- The condition of a step. A retrieval that accepts its own type also accepts the MIME type under
which the content that it finds was made. -/
def Agrees (factory : Bytes → Option Handler) (s : Hlcache) : HlcacheStep → Prop
  | .event l event _ _ => ∀ ctx mimeType e,
      s.retrievalCtxRing.find? (fun ctx => ctx.llcache = l) = some ctx →
        event.sniffed factory ctx = some mimeType → Acceptable factory ctx mimeType →
          s.contentList.find? (s.suitable ctx) = some e → Acceptable factory ctx e.mimeType
  | _ => True

/-- All steps of a run meet the condition. -/
def Agreeing (factory : Bytes → Option Handler) : List HlcacheStep → Hlcache → Prop
  | [], _ => True
  | x :: rest, s => Agrees factory s x ∧
      ∀ s', s.step factory x = some s' → Agreeing factory rest s'

instance (s : Hlcache) : Decidable (AllAccepted s) :=
  inferInstanceAs (Decidable (∀ given ∈ s.associations, _))

theorem SameTypes.refl (s : Hlcache) : SameTypes s s :=
  ⟨fun e inside => ⟨e, inside, rfl, rfl⟩, rfl⟩

theorem SameTypes.trans (first : SameTypes s s') (second : SameTypes s' s'') : SameTypes s s'' where
  contents e inside := by
    obtain ⟨e', inside', mimeType', handler'⟩ := second.contents e inside
    obtain ⟨e'', inside'', mimeType'', handler''⟩ := first.contents e' inside'
    exact ⟨e'', inside'', mimeType'.trans mimeType'', handler'.trans handler''⟩
  associations := second.associations.trans first.associations

theorem Frame.sameTypes (frame : Frame s s' a) : SameTypes s s' :=
  ⟨frame.contents, frame.associations⟩

theorem SameTypes.made (same : SameTypes s s') (made : Made factory s) : Made factory s' := by
  intro e' inside'
  obtain ⟨e, inside, mimeType, handler⟩ := same.contents e' inside'
  rw [mimeType, handler]
  exact made e inside

theorem SameTypes.allAccepted_iff (same : SameTypes s s') : AllAccepted s' ↔ AllAccepted s := by
  rw [AllAccepted, same.associations, AllAccepted]

theorem sameTypes_broadcast {msg : HlcacheMsg} {users : List Nat}
    (told : broadcast msg react users s = some s') : SameTypes s s' := by
  induction users generalizing s with
  | nil =>
      cases told
      exact .refl _
  | cons b rest ih =>
      obtain ⟨s₁, first, later⟩ := Option.bind_eq_some_iff.mp told
      exact (frame_deliver first).sameTypes.trans (ih later)

theorem sameTypes_cleanEntry (cleaned : s.cleanEntry e = some s') : SameTypes s s' := by
  obtain ⟨s₁, released, cleaned⟩ := Option.bind_eq_some_iff.mp cleaned
  cases cleaned
  rw [releaseLlcache_eq released]
  exact ⟨fun e inside => ⟨e, List.mem_of_mem_filter inside, rfl, rfl⟩, rfl⟩

theorem sameTypes_clean {forceClean : Bool} {entries : List Entry}
    (cleaned : clean forceClean entries s = some s') : SameTypes s s' := by
  induction entries generalizing s with
  | nil =>
      cases cleaned
      exact .refl _
  | cons e rest ih =>
      rw [Hlcache.clean] at cleaned
      split_ifs at cleaned
      · obtain ⟨s₁, first, later⟩ := Option.bind_eq_some_iff.mp cleaned
        exact (sameTypes_cleanEntry first).trans (ih later)
      · exact ih cleaned

/-- A handle is given a content that is there. -/
theorem associate_accepted_iff (ctx : RetrievalCtx) (made : Made factory s)
    (inside : e ∈ s.contentList) :
    Made factory (s.associate ctx e) ∧
      (AllAccepted (s.associate ctx e) ↔ AllAccepted s ∧ Acceptable factory ctx e.mimeType) := by
  have added : Frame s (s.addUser e.llcache ctx.handle) ctx.handle :=
    frame_modifyEntry fun _ => ⟨rfl, rfl⟩
  have type : typeFromMimeType factory e.mimeType = e.handler.type := by
    rw [typeFromMimeType, made e inside]
    rfl
  refine ⟨added.sameTypes.made made, ?_⟩
  rw [Acceptable, type, and_comm]
  exact List.forall_mem_cons

theorem catchUp_accepted_iff {status : Contents.ContentStatus}
    (told : (s.associate ctx e).catchUp status ctx.handle react = some s') (made : Made factory s)
    (inside : e ∈ s.contentList) :
    Made factory s' ∧ (AllAccepted s' ↔ AllAccepted s ∧ Acceptable factory ctx e.mimeType) := by
  obtain ⟨made', accepted⟩ := associate_accepted_iff ctx made inside
  have caught := (frame_catchUp told).sameTypes
  exact ⟨caught.made made', caught.allAccepted_iff.trans accepted⟩

/-- A new content is added to the cache, and its handle is given it. -/
theorem catchUp_cons_accepted_iff {status : Contents.ContentStatus}
    (told : ({ s with contentList := e :: s.contentList }.associate ctx e).catchUp status
      ctx.handle react = some s')
    (made : Made factory s) (known : factory e.mimeType = some e.handler) :
    Made factory s' ∧ (AllAccepted s' ↔ AllAccepted s ∧ Acceptable factory ctx e.mimeType) := by
  have made' : Made factory { s with contentList := e :: s.contentList } :=
    List.forall_mem_cons.mpr ⟨known, made⟩
  have result := catchUp_accepted_iff told made' List.mem_cons_self
  exact result

/-- The content that a retrieval finds decides whether it accepts what it is given. -/
theorem findContent_accepted_iff {found : Bool} (made : Made factory s)
    (own : Acceptable factory ctx mimeType)
    (run : s.findContent factory ctx mimeType created react = some (s', found)) :
    Made factory s' ∧ (AllAccepted s' ↔ AllAccepted s ∧
      ∀ e, s.contentList.find? (s.suitable ctx) = some e → Acceptable factory ctx e.mimeType) := by
  rw [Hlcache.findContent] at run
  split at run
  · rename_i e here
    obtain ⟨s₁, released, run⟩ := Option.bind_eq_some_iff.mp run
    obtain ⟨s₂, told, run⟩ := Option.bind_eq_some_iff.mp run
    cases run
    have inside : e ∈ s₁.contentList := by
      rw [releaseLlcache_eq released]
      exact List.mem_of_find?_eq_some here
    have same : SameTypes s s₁ := by
      rw [releaseLlcache_eq released]
      exact ⟨fun e inside => ⟨e, inside, rfl, rfl⟩, rfl⟩
    obtain ⟨made', accepted⟩ := catchUp_accepted_iff told (same.made made) inside
    refine ⟨made', ?_⟩
    rw [accepted, same.allAccepted_iff, here]
    simp
  · rename_i nowhere
    rw [nowhere]
    split at run
    · cases run
      exact ⟨made, by simp⟩
    · rename_i handler known
      split_ifs at run
      · obtain ⟨s₁, told, run⟩ := Option.bind_eq_some_iff.mp run
        cases run
        obtain ⟨made', accepted⟩ := catchUp_cons_accepted_iff told made known
        refine ⟨made', ?_⟩
        rw [accepted]
        simp [own]
      · cases run
        exact ⟨made, by simp⟩

theorem migrateType_acceptable (own : Acceptable factory ctx mimeType) :
    s.migrateType factory ctx (some mimeType) created react =
      (s.findContent factory ctx mimeType created react).bind fun result =>
        if result.2 then some result.1 else result.1.report ctx react :=
  if_pos own

theorem migrateType_unacceptable (other : ¬Acceptable factory ctx mimeType) :
    s.migrateType factory ctx (some mimeType) created react =
      if typeFromMimeType factory mimeType = 0 ∧ ctx.mayDownload = true then s.download ctx react
      else s.report ctx react :=
  if_neg other

theorem migrateType_accepted_iff
    (run : s.migrateType factory ctx effectiveType created react = some s')
    (made : Made factory s) :
    Made factory s' ∧ (AllAccepted s' ↔ AllAccepted s ∧
      ∀ mimeType e, effectiveType = some mimeType → Acceptable factory ctx mimeType →
        s.contentList.find? (s.suitable ctx) = some e → Acceptable factory ctx e.mimeType) := by
  cases effectiveType with
  | none =>
      have same : SameTypes s s' := by
        rw [Hlcache.migrateType] at run
        split_ifs at run
        · exact (frame_download run).sameTypes
        · exact (frame_report run).sameTypes
      exact ⟨same.made made, by simp [same.allAccepted_iff]⟩
  | some mimeType =>
      by_cases own : Acceptable factory ctx mimeType
      · obtain ⟨⟨s₁, found⟩, first, run⟩ :=
          Option.bind_eq_some_iff.mp ((migrateType_acceptable own).symm.trans run)
        obtain ⟨made', accepted⟩ := findContent_accepted_iff made own first
        have same : SameTypes s₁ s' := by
          cases found with
          | true =>
              cases run
              exact .refl _
          | false => exact (frame_report run).sameTypes
        refine ⟨same.made made', ?_⟩
        rw [same.allAccepted_iff, accepted]
        refine and_congr_right fun _ => ⟨fun all other e same _ here => ?_, fun all e here => ?_⟩
        · cases same
          exact all e here
        · exact all mimeType e rfl own here
      · have same : SameTypes s s' := by
          rw [migrateType_unacceptable own] at run
          split_ifs at run
          · exact (frame_download run).sameTypes
          · exact (frame_report run).sameTypes
        refine ⟨same.made made, ?_⟩
        rw [same.allAccepted_iff]
        refine ⟨fun all => ⟨all, fun other e same accepts _ => ?_⟩, And.left⟩
        cases same
        exact absurd accepts own

theorem migrateCtx_accepted_iff
    (run : s.migrateCtx factory ctx effectiveType created react = some s')
    (made : Made factory s) :
    Made factory s' ∧ (AllAccepted s' ↔ AllAccepted s ∧
      ∀ mimeType e, effectiveType = some mimeType → Acceptable factory ctx mimeType →
        s.contentList.find? (s.suitable ctx) = some e → Acceptable factory ctx e.mimeType) := by
  obtain ⟨s₁, migrated, run⟩ := Option.bind_eq_some_iff.mp run
  cases run
  have result := migrateType_accepted_iff migrated made
  exact result

theorem deliver_accepted_iff {msg : HlcacheMsg} (told : s.deliver a msg react = some s')
    (made : Made factory s) : Made factory s' ∧ (AllAccepted s' ↔ AllAccepted s) :=
  have same := (frame_deliver told).sameTypes
  ⟨same.made made, same.allAccepted_iff⟩

theorem llcacheCallback_accepted_iff {event : LowEvent}
    (run : s.llcacheCallback factory ctx event created react = some s') (made : Made factory s) :
    Made factory s' ∧ (AllAccepted s' ↔ AllAccepted s ∧
      ∀ mimeType e, event.sniffed factory ctx = some mimeType → Acceptable factory ctx mimeType →
        s.contentList.find? (s.suitable ctx) = some e → Acceptable factory ctx e.mimeType) := by
  cases event with
  | gotCerts => simpa [LowEvent.sniffed] using deliver_accepted_iff run made
  | error => simpa [LowEvent.sniffed] using deliver_accepted_iff run made
  | redirect => simpa [LowEvent.sniffed] using deliver_accepted_iff run made
  | progress =>
      cases run
      exact ⟨made, by simp [LowEvent.sniffed]⟩
  | hadHeaders header =>
      simp only [LowEvent.sniffed, Hlcache.llcacheCallback] at run ⊢
      split at run
      · rename_i mimeType sniffed
        rw [sniffed]
        exact migrateCtx_accepted_iff run made
      · rename_i sniffed
        rw [sniffed]
        exact migrateCtx_accepted_iff run made
      · rename_i sniffed
        cases run
        exact ⟨made, by simp [sniffed, Except.toOption]⟩
  | hadData header data =>
      simp only [LowEvent.sniffed, Hlcache.llcacheCallback] at run ⊢
      split at run
      · rename_i mimeType sniffed
        rw [sniffed]
        exact migrateCtx_accepted_iff run made
      · cases run
  | done header =>
      simp only [LowEvent.sniffed, Hlcache.llcacheCallback] at run ⊢
      split at run
      · rename_i mimeType sniffed
        rw [sniffed]
        exact migrateCtx_accepted_iff run made
      · rename_i sniffed
        rw [sniffed]
        exact migrateCtx_accepted_iff run made
      · rename_i sniffed
        simpa [sniffed, Except.toOption] using deliver_accepted_iff run made

/-- The agreement of the types decides one step. -/
theorem step_accepted_iff (stepped : s.step factory x = some s') (made : Made factory s) :
    Made factory s' ∧ (AllAccepted s' ↔ AllAccepted s ∧ Agrees factory s x) := by
  have quiet (same : SameTypes s s') (agrees : Agrees factory s x) :
      Made factory s' ∧ (AllAccepted s' ↔ AllAccepted s ∧ Agrees factory s x) :=
    ⟨same.made made, by rw [same.allAccepted_iff, and_iff_left agrees]⟩
  cases x with
  | retrieve object sniffType mayDownload acceptedTypes quirks =>
      cases stepped
      exact quiet ⟨fun e inside => ⟨e, inside, rfl, rfl⟩, rfl⟩ trivial
  | event l event created react =>
      rw [Hlcache.step] at stepped
      rw [Agrees]
      cases found : s.retrievalCtxRing.find? fun ctx => ctx.llcache = l with
      | none =>
          rw [found] at stepped
          cases stepped
          exact ⟨made, by simp⟩
      | some ctx =>
          rw [found] at stepped
          obtain ⟨made', accepted⟩ := llcacheCallback_accepted_iff stepped made
          refine ⟨made', accepted.trans (and_congr_right fun _ => ⟨fun all other => ?_, fun all mimeType e =>
            all ctx mimeType e rfl⟩)⟩
          rintro mimeType e ⟨⟩
          exact all mimeType e
  | setStatus l status =>
      cases stepped
      have frame : Frame s (s.modifyEntry l fun e => { e with status := status }) 0 :=
        frame_modifyEntry fun _ => ⟨rfl, rfl⟩
      exact quiet frame.sameTypes trivial
  | broadcast l msg react =>
      rw [Hlcache.step] at stepped
      split at stepped
      · cases stepped
        exact quiet (.refl s) trivial
      · exact quiet (sameTypes_broadcast stepped) trivial
  | release a => exact quiet (frame_handleRelease stepped).sameTypes trivial
  | abort a cloned => exact quiet (frame_handleAbort stepped).sameTypes trivial
  | clean forceClean => exact quiet (sameTypes_clean stepped) trivial
  | moveObject l object =>
      cases stepped
      exact quiet ⟨fun e inside => ⟨e, inside, rfl, rfl⟩, rfl⟩ trivial
  | endDownload l =>
      obtain ⟨s₁, released, stepped⟩ := Option.bind_eq_some_iff.mp stepped
      cases stepped
      rw [releaseLlcache_eq released] at quiet ⊢
      exact quiet ⟨fun e inside => ⟨e, inside, rfl, rfl⟩, rfl⟩ trivial

theorem run_accepted_iff (run : Hlcache.run factory steps s = some s') (made : Made factory s) :
    AllAccepted s' ↔ AllAccepted s ∧ Agreeing factory steps s := by
  induction steps generalizing s with
  | nil =>
      cases run
      exact (and_iff_left trivial).symm
  | cons x rest ih =>
      obtain ⟨s₁, stepped, run⟩ := Option.bind_eq_some_iff.mp run
      obtain ⟨made₁, accepted⟩ := step_accepted_iff stepped made
      have later : (∀ s', s.step factory x = some s' → Agreeing factory rest s') ↔
          Agreeing factory rest s₁ := by
        simp only [stepped, Option.some.injEq, forall_eq']
      rw [ih run made₁, accepted, Agreeing, later, and_assoc]

/-- Every handle of a run was given a content of a type that its retrieval accepts, if and only if
the retrievals that accept their own types also accept the types of the contents they find. -/
theorem allAccepted_iff_agreeing (run : Hlcache.run factory steps init = some s) :
    AllAccepted s ↔ Agreeing factory steps init := by
  have nothing : Made factory init ∧ AllAccepted init :=
    ⟨List.forall_mem_nil _, List.forall_mem_nil _⟩
  rw [run_accepted_iff run nothing.1, and_iff_right nothing.2]

/-- The content handlers of style sheets and of one kind of images. -/
def styleOrImage (mimeType : Bytes) : Option Handler :=
  if mimeType = str "text/css" then some ⟨4, false, true⟩
  else if mimeType = str "image/png" then some ⟨8, false, false⟩
  else none

/-- An image is served as a style sheet, shown as an image, and then imported as a style sheet. -/
def importedImage : List HlcacheStep :=
  let header := some (str "text/css")
  let data := [0x89, 0x50, 0x4e, 0x47, 0x0d, 0x0a, 0x1a, 0x0a]
  let react : Reactions := fun _ _ => .stay
  [.retrieve 0 true false 8 false,
    .event 0 (.hadHeaders header) true react,
    .event 0 (.hadData header data) true react,
    .retrieve 0 false false 4 false,
    .event 1 (.hadHeaders header) true react]

theorem importedImage_accepted :
    (Hlcache.run styleOrImage importedImage init).map (fun s => decide (AllAccepted s)) =
      some false := by
  decide

/-- The style sheet is given an image. -/
theorem importedImage_not_accepted :
    ∃ s, Hlcache.run styleOrImage importedImage init = some s ∧ ¬AllAccepted s := by
  obtain ⟨s, run, accepted⟩ := Option.map_eq_some_iff.mp importedImage_accepted
  exact ⟨s, run, of_decide_eq_false accepted⟩

/-- The import does not agree with the image that it finds. -/
theorem importedImage_not_agreeing : ¬Agreeing styleOrImage importedImage init := by
  obtain ⟨s, run, accepted⟩ := Option.map_eq_some_iff.mp importedImage_accepted
  intro agreeing
  exact absurd ((allAccepted_iff_agreeing run).mpr agreeing) (of_decide_eq_false accepted)

end Neosurf.Hlcaching
