/-
This file proves that a retrieval ends in a sound cache when its context migrates.
-/

import Neosurf.Proof.Hlcache.Types
import Neosurf.Proof.Hlcache.Owners

namespace Neosurf.Hlcaching

/-- A client releases its handle with this reaction. -/
def Reaction.releases : Reaction → Bool
  | .release => true
  | .abortAndRelease _ => true
  | _ => false

variable {s s' : Hlcache} {a : Nat} {h h' : Handle} {e : Entry} {moving pending : List Nat}
  {react : Reactions} {msg : HlcacheMsg}

namespace Sound

theorem fewer (sound : Sound s (moving.filter (· ≠ a)) pending) : Sound s moving pending :=
  sound.mono fun _ => List.mem_of_mem_filter

theorem leave (sound : Sound s moving pending) (live : s.handles a = some h) :
    ∃ s', s.leave h a = some s' ∧ Sound s' (a :: moving) pending ∧ Detached s' a ∧
      s'.handles = s.handles := by
  rw [Hlcache.leave]
  cases entry : h.entry with
  | none => exact sound.dropCtx live entry
  | some l =>
      obtain ⟨sound', detached⟩ := sound.removeUser live entry
      exact ⟨_, rfl, sound', detached, rfl⟩

theorem handleRelease (sound : Sound s moving pending) (live : s.handles a = some h) :
    ∃ s', s.handleRelease a = some s' ∧ Sound s' moving pending := by
  obtain ⟨s₁, left, sound₁, detached, handles⟩ := sound.leave live
  refine ⟨s₁.setHandle a none, ?_, ?_⟩
  · rw [Hlcache.handleRelease, live]
    change (s.leave h a).bind _ = _
    rw [left]
    rfl
  · have released := sound₁.setHandle (handles ▸ live) detached none (by simp)
    rw [List.filter_cons_of_neg (by simp)] at released
    exact released.fewer

theorem handleAbort (sound : Sound s moving pending) (live : s.handles a = some h)
    (apart : a ∉ moving) (cloned : Bool) :
    ∃ s', s.handleAbort a cloned = some s' ∧ Sound s' moving pending ∧
      (s'.handles a).isSome = true := by
  cases entry : h.entry with
  | none =>
      obtain ⟨s₁, dropped, sound₁, detached, handles⟩ := sound.dropCtx live entry
      refine ⟨s₁.setHandle a (some { h with loose := true }), ?_, ?_, ?_⟩
      · simp [Hlcache.handleAbort, live, entry, dropped]
      · have aborted := sound₁.setHandle (handles ▸ live) detached
          (some { h with loose := true }) (by simp [entry])
        rw [List.filter_cons_of_neg (by simp)] at aborted
        exact aborted.fewer
      · rw [setHandle_self]
        rfl
  | some l =>
      obtain ⟨e, inside, rfl, -⟩ := sound.entries a h l live apart entry
      have found : s.contentList.find? (fun other => other.llcache = e.llcache) = some e := by
        obtain ⟨e', found⟩ : ∃ e', s.contentList.find? (fun other => other.llcache = e.llcache) =
            some e' := Option.isSome_iff_exists.mp (List.find?_isSome.mpr ⟨e, inside, by simp⟩)
        have same : e'.llcache = e.llcache := by simpa using List.find?_some found
        rw [found, sound.entry_unique (List.mem_of_find?_eq_some found) inside same]
      have aborted : s.handleAbort a cloned =
          some (if 1 < e.users.length && cloned then s.cloneEntry a e else s) := by
        simp [Hlcache.handleAbort, live, entry, found]
      refine ⟨_, aborted, ?_⟩
      split_ifs
      · refine ⟨(sound.cloneEntry live inside entry).fewer, ?_⟩
        change (Function.update s.handles a ((s.handles a).map _) a).isSome = true
        rw [Function.update_self, live]
        rfl
      · exact ⟨sound, by rw [live]; rfl⟩

theorem tell (sound : Sound s moving pending) (live : s.handles a = some h) (msg : HlcacheMsg) :
    Sound (s.tell a h msg) moving pending := by
  have before {b : Nat} {h' : Handle} (live' : (s.tell a h msg).handles b = some h') :
      ∃ h₀, s.handles b = some h₀ ∧ h'.entry = h₀.entry ∧
        (h₀.failed = true → h'.failed = true) ∧ (h₀.loose = true → h'.loose = true) := by
    by_cases same : b = a
    · subst same
      rw [Hlcache.tell, setHandle_self] at live'
      cases live'
      exact ⟨h, live, rfl, by simp +contextual, by simp +contextual⟩
    · rw [Hlcache.tell, setHandle_of_ne _ same] at live'
      exact ⟨h', live', rfl, id, id⟩
  have after {b : Nat} {h₀ : Handle} (live' : s.handles b = some h₀) :
      ∃ h', (s.tell a h msg).handles b = some h' ∧ h'.entry = h₀.entry := by
    by_cases same : b = a
    · subst same
      rw [live] at live'
      cases live'
      exact ⟨_, setHandle_self _, rfl⟩
    · exact ⟨h₀, (setHandle_of_ne _ same).trans live', rfl⟩
  refine { sound with
    handleBound := fun b beyond => ?_
    users := fun e inside b user => ?_
    named := fun ctx inside => ?_
    entries := fun b h' k live' apart entry => ?_
    free := fun b h' live' apart none => ?_ }
  · have apart : b ≠ a := fun same =>
      absurd (same ▸ beyond) (not_le.mpr (sound.lt_freshHandle live))
    exact (setHandle_of_ne _ apart).trans (sound.handleBound b beyond)
  · obtain ⟨h₀, live₀, entry⟩ := sound.users e inside b user
    obtain ⟨h', live', same⟩ := after live₀
    exact ⟨h', live', same.trans entry⟩
  · obtain ⟨h₀, live₀, entry⟩ := sound.named ctx inside
    obtain ⟨h', live', same⟩ := after live₀
    exact ⟨h', live', same.trans entry⟩
  · obtain ⟨h₀, live₀, same, -⟩ := before live'
    exact sound.entries b h₀ k live₀ apart (same.symm.trans entry)
  · obtain ⟨h₀, live₀, same, failed, loose⟩ := before live'
    exact (sound.free b h₀ live₀ apart (same.symm.trans none)).imp failed (Or.imp_left loose)

/-- A handle that is told of an error or a download does not move any more. -/
theorem tell_last (sound : Sound s moving pending) (live : s.handles a = some h)
    (free : h.entry = none) (last : msg = .error ∨ msg = .download) :
    Sound (s.tell a h msg) (moving.filter (· ≠ a)) pending := by
  have told := sound.tell live msg
  have settled {h' : Handle} (live' : (s.tell a h msg).handles a = some h') :
      h'.entry = none ∧ (h'.failed = true ∨ h'.loose = true) := by
    rw [Hlcache.tell, setHandle_self] at live'
    cases live'
    exact ⟨free, last.imp (by simp +contextual) (by simp +contextual)⟩
  refine { told with
    entries := fun b h' k live' apart entry => ?_
    free := fun b h' live' apart free' => ?_ }
  · by_cases same : b = a
    · subst same
      rw [(settled live').1] at entry
      cases entry
    · exact told.entries b h' k live'
        (fun inside => apart (List.mem_filter.mpr ⟨inside, by simpa using same⟩)) entry
  · by_cases same : b = a
    · subst same
      exact (settled live').2.imp_right Or.inl
    · exact told.free b h' live'
        (fun inside => apart (List.mem_filter.mpr ⟨inside, by simpa using same⟩)) free'

theorem act (sound : Sound s moving pending) (live : s.handles a = some h) (apart : a ∉ moving)
    (reaction : Reaction) :
    ∃ s', s.act a reaction = some s' ∧ Sound s' moving pending ∧
      (reaction.releases = false → (s'.handles a).isSome = true) := by
  cases reaction with
  | stay => exact ⟨s, rfl, sound, fun _ => by simp [live]⟩
  | release =>
      obtain ⟨s', released, sound'⟩ := sound.handleRelease live
      exact ⟨s', released, sound', by simp [Reaction.releases]⟩
  | abort cloned =>
      obtain ⟨s', aborted, sound', live'⟩ := sound.handleAbort live apart cloned
      exact ⟨s', aborted, sound', fun _ => live'⟩
  | abortAndRelease cloned =>
      obtain ⟨s₁, aborted, sound₁, live₁⟩ := sound.handleAbort live apart cloned
      obtain ⟨h₁, live₁⟩ := Option.isSome_iff_exists.mp live₁
      obtain ⟨s', released, sound'⟩ := sound₁.handleRelease live₁
      refine ⟨s', ?_, sound', by simp [Reaction.releases]⟩
      rw [Hlcache.act, aborted]
      exact released

theorem deliver (sound : Sound s moving pending) (live : s.handles a = some h)
    (apart : a ∉ moving) (msg : HlcacheMsg) (react : Reactions) :
    ∃ s', s.deliver a msg react = some s' ∧ Sound s' moving pending ∧
      ((react a msg).releases = false → (s'.handles a).isSome = true) := by
  rw [Hlcache.deliver, live]
  exact (sound.tell live msg).act (setHandle_self _) apart (react a msg)

theorem deliver_last (sound : Sound s moving pending) (live : s.handles a = some h)
    (free : h.entry = none) (last : msg = .error ∨ msg = .download) (react : Reactions) :
    ∃ s', s.deliver a msg react = some s' ∧ Sound s' (moving.filter (· ≠ a)) pending := by
  rw [Hlcache.deliver, live]
  obtain ⟨s', acted, sound', -⟩ :=
    (sound.tell_last live free last).act (setHandle_self _) (by simp) (react a msg)
  exact ⟨s', acted, sound'⟩

end Sound

end Neosurf.Hlcaching

namespace Neosurf.Hlcaching

open Contents

/-- No client releases its handle in a message that another one follows. -/
structure Patient (status : ContentStatus) (a : Nat) (react : Reactions) : Prop where
  loading : status = .ready ∨ status = .done → (react a .loading).releases = false
  ready : status = .done → (react a .ready).releases = false

/-- No context is migrating. -/
def AtRest (s : Hlcache) : Prop :=
  ∀ ctx ∈ s.retrievalCtxRing, ctx.migrateTarget = false

variable {factory : Bytes → Option Handler} {s s' : Hlcache} {a l : Nat} {h : Handle}
  {ctx : RetrievalCtx} {e : Entry} {moving pending : List Nat} {react : Reactions} {created : Bool}
  {mimeType : Bytes} {effectiveType : Option Bytes} {status : ContentStatus}

theorem idle_map {ring : List RetrievalCtx} (rest : ∀ ctx ∈ ring, ctx.migrateTarget = false) :
    (ring.map fun other => if other.llcache = l then { other with migrateTarget := true }
      else other).filter (fun ctx => !ctx.migrateTarget) =
      (ring.filter fun other => other.llcache ≠ l).filter fun ctx => !ctx.migrateTarget := by
  induction ring with
  | nil => rfl
  | cons ctx ring ih =>
      obtain ⟨idle, rest⟩ := List.forall_mem_cons.mp rest
      rw [List.map_cons]
      by_cases same : ctx.llcache = l
      · rw [if_pos same, List.filter_cons_of_neg (by simp), List.filter_cons_of_neg (by simpa)]
        exact ih rest
      · rw [if_neg same, List.filter_cons_of_pos (by simpa), List.filter_cons_of_pos (by simpa),
          List.filter_cons_of_pos (by simpa)]
        exact congrArg _ (ih rest)

theorem ring_findContent {found : Bool}
    (run : s.findContent factory ctx mimeType created react = some (s', found)) :
    ∀ other ∈ s'.retrievalCtxRing, other ∈ s.retrievalCtxRing := by
  rw [Hlcache.findContent] at run
  split at run
  · obtain ⟨s₁, released, run⟩ := Option.bind_eq_some_iff.mp run
    obtain ⟨s₂, told, run⟩ := Option.bind_eq_some_iff.mp run
    cases run
    have eq := releaseLlcache_eq released
    intro other inside
    have before := (frame_catchUp told).ring other inside
    rw [eq] at before
    exact before
  · split at run
    · cases run
      exact fun other => id
    · split_ifs at run
      · obtain ⟨s₁, told, run⟩ := Option.bind_eq_some_iff.mp run
        cases run
        exact (frame_catchUp told).ring
      · cases run
        exact fun other => id

theorem ring_migrateType
    (run : s.migrateType factory ctx effectiveType created react = some s') :
    ∀ other ∈ s'.retrievalCtxRing, other ∈ s.retrievalCtxRing := by
  cases effectiveType with
  | none =>
      rw [Hlcache.migrateType] at run
      split_ifs at run
      · exact (frame_download run).ring
      · exact (frame_report run).ring
  | some mimeType =>
      by_cases own : Acceptable factory ctx mimeType
      · rw [migrateType_acceptable own] at run
        obtain ⟨⟨s₁, found⟩, first, run⟩ := Option.bind_eq_some_iff.mp run
        cases found with
        | true =>
            cases run
            exact ring_findContent first
        | false =>
            intro other inside
            exact ring_findContent first other ((frame_report run).ring other inside)
      · rw [migrateType_unacceptable own] at run
        split_ifs at run
        · exact (frame_download run).ring
        · exact (frame_report run).ring

namespace Sound

theorem catchUp (sound : Sound s moving pending) (live : s.handles a = some h)
    (apart : a ∉ moving) (patient : Patient status a react) :
    ∃ s', s.catchUp status a react = some s' ∧ Sound s' moving pending := by
  obtain ⟨s₁, loading, sound₁, stays₁⟩ := sound.deliver live apart .loading react
  cases status with
  | loading => exact ⟨s₁, loading, sound₁⟩
  | error => exact ⟨s, rfl, sound⟩
  | ready =>
      obtain ⟨h₁, live₁⟩ := Option.isSome_iff_exists.mp (stays₁ (patient.loading (Or.inl rfl)))
      obtain ⟨s₂, ready, sound₂, -⟩ := sound₁.deliver live₁ apart .ready react
      refine ⟨s₂, ?_, sound₂⟩
      rw [Hlcache.catchUp, loading]
      exact ready
  | done =>
      obtain ⟨h₁, live₁⟩ := Option.isSome_iff_exists.mp (stays₁ (patient.loading (Or.inr rfl)))
      obtain ⟨s₂, ready, sound₂, stays₂⟩ := sound₁.deliver live₁ apart .ready react
      obtain ⟨h₂, live₂⟩ := Option.isSome_iff_exists.mp (stays₂ (patient.ready rfl))
      obtain ⟨s₃, done, sound₃, -⟩ := sound₂.deliver live₂ apart .done react
      refine ⟨s₃, ?_, sound₃⟩
      rw [Hlcache.catchUp, loading]
      change (s₁.deliver a .ready react).bind _ = _
      rw [ready]
      exact done

/-- A migrating handle is given a content, and told of its status. -/
theorem catchUp_associate (sound : Sound s [ctx.handle] pending)
    (live : s.handles ctx.handle = some h) (detached : Detached s ctx.handle)
    (inside : e ∈ s.contentList) (patient : Patient status ctx.handle react) :
    ∃ s', (s.associate ctx e).catchUp status ctx.handle react = some s' ∧ Sound s' [] pending := by
  have associated := sound.associate live detached inside
  rw [List.filter_cons_of_neg (by simp), List.filter_nil] at associated
  have live' : (s.associate ctx e).handles ctx.handle = some { h with entry := some e.llcache } := by
    change Function.update s.handles ctx.handle ((s.handles ctx.handle).map _) ctx.handle = _
    rw [Function.update_self, live]
    rfl
  exact associated.catchUp live' List.not_mem_nil patient

theorem report (sound : Sound s [ctx.handle] [ctx.llcache])
    (live : s.handles ctx.handle = some h) (free : h.entry = none) (react : Reactions) :
    ∃ s', s.report ctx react = some s' ∧ Sound s' [] [] := by
  obtain ⟨s₁, told, sound₁⟩ := sound.deliver_last live free (Or.inl rfl) react
  rw [List.filter_cons_of_neg (by simp), List.filter_nil] at sound₁
  obtain ⟨s', released, sound'⟩ := sound₁.releaseLlcache
  refine ⟨s', ?_, sound'⟩
  rw [Hlcache.report, told]
  exact released

/-- A client owns the low-level handle of its download. -/
theorem download (sound : Sound s [ctx.handle] [ctx.llcache])
    (live : s.handles ctx.handle = some h) (free : h.entry = none) (react : Reactions) :
    ∃ s', s.download ctx react = some s' ∧ Sound s' [] [] := by
  have given : Sound { s with downloads := ctx.llcache :: s.downloads } [ctx.handle] [] := by
    refine { sound with owned := fun l => ?_ }
    have owned := sound.owned l
    rw [Hlcache.owners, List.count_cons, List.count_nil] at owned
    rw [← owned, Hlcache.owners]
    change (s.idle.map RetrievalCtx.llcache).count l + (s.contentList.map Entry.llcache).count l +
      (ctx.llcache :: s.downloads).count l + 0 = _
    rw [List.count_cons]
    omega
  obtain ⟨s', told, sound'⟩ := given.deliver_last live free (Or.inr rfl) react
  rw [List.filter_cons_of_neg (by simp), List.filter_nil] at sound'
  exact ⟨s', told, sound'⟩

/-- A new content takes the low-level handle, and the migrating handle is given it. -/
theorem create (sound : Sound s [ctx.handle] [ctx.llcache]) (e : Entry)
    (same : e.llcache = ctx.llcache) (unused : e.users = [])
    (live : s.handles ctx.handle = some h) (detached : Detached s ctx.handle) (react : Reactions) :
    ∃ s', ({ s with contentList := e :: s.contentList }.associate ctx e).catchUp .loading
      ctx.handle react = some s' ∧ Sound s' [] [] := by
  rw [← same] at sound
  have detached' : Detached { s with contentList := e :: s.contentList } ctx.handle := by
    refine ⟨List.forall_mem_cons.mpr ⟨?_, detached.users⟩, detached.named⟩
    rw [unused]
    exact List.not_mem_nil
  exact (sound.addEntry unused).catchUp_associate live detached' List.mem_cons_self
    ⟨by simp, by simp⟩

theorem findContent (sound : Sound s [ctx.handle] [ctx.llcache])
    (factory : Bytes → Option Handler) (mimeType : Bytes) (created : Bool)
    (live : s.handles ctx.handle = some h) (detached : Detached s ctx.handle)
    (patient : ∀ e, s.contentList.find? (s.suitable ctx) = some e →
      Patient e.status ctx.handle react) :
    s.findContent factory ctx mimeType created react = some (s, false) ∨
      ∃ s', s.findContent factory ctx mimeType created react = some (s', true) ∧
        Sound s' [] [] := by
  rw [Hlcache.findContent]
  cases found : s.contentList.find? (s.suitable ctx) with
  | some e =>
      obtain ⟨s₁, released, sound₁⟩ := sound.releaseLlcache
      have eq := releaseLlcache_eq released
      have inside : e ∈ s₁.contentList := eq ▸ List.mem_of_find?_eq_some found
      have detached₁ : Detached s₁ ctx.handle := eq ▸ ⟨detached.users, detached.named⟩
      have live₁ : s₁.handles ctx.handle = some h := by
        rw [eq]
        exact live
      obtain ⟨s', told, sound'⟩ :=
        sound₁.catchUp_associate live₁ detached₁ inside (patient e found)
      refine Or.inr ⟨s', ?_, sound'⟩
      dsimp only
      rw [released]
      change ((s₁.associate ctx e).catchUp e.status ctx.handle react).bind _ = _
      rw [told]
      rfl
  | none =>
      dsimp only
      cases factory mimeType with
      | none => exact Or.inl rfl
      | some handler =>
          dsimp only
          split_ifs
          · obtain ⟨s', told, sound'⟩ := sound.create
              ⟨ctx.llcache, mimeType, handler, ctx.quirks, .loading, []⟩ rfl rfl live detached react
            have created := congrArg (fun made => Option.bind made fun s' => some (s', true)) told
            exact Or.inr ⟨s', created, sound'⟩
          · exact Or.inl rfl

theorem migrateType (sound : Sound s [ctx.handle] [ctx.llcache]) (created : Bool)
    (live : s.handles ctx.handle = some h) (free : h.entry = none) (detached : Detached s ctx.handle)
    (patient : ∀ mimeType e, effectiveType = some mimeType → Acceptable factory ctx mimeType →
      s.contentList.find? (s.suitable ctx) = some e → Patient e.status ctx.handle react) :
    ∃ s', s.migrateType factory ctx effectiveType created react = some s' ∧ Sound s' [] [] := by
  cases effectiveType with
  | none =>
      rw [Hlcache.migrateType]
      split_ifs
      · exact sound.download live free react
      · exact sound.report live free react
  | some mimeType =>
      by_cases own : Acceptable factory ctx mimeType
      · rw [migrateType_acceptable own]
        rcases sound.findContent factory mimeType created live detached (patient mimeType · rfl own) with
          missing | ⟨s', found, sound'⟩
        · rw [missing]
          exact sound.report live free react
        · rw [found]
          exact ⟨s', rfl, sound'⟩
      · rw [migrateType_unacceptable own]
        split_ifs
        · exact sound.download live free react
        · exact sound.report live free react

/-- The context leaves the idle ones when it begins to migrate. -/
theorem beginMigration (sound : Sound s [] []) (rest : AtRest s)
    (inside : ctx ∈ s.retrievalCtxRing) :
    ∃ h, (s.beginMigration ctx).handles ctx.handle = some h ∧ h.entry = none ∧
      Sound (s.beginMigration ctx) [ctx.handle] [ctx.llcache] ∧
        Detached (s.beginMigration ctx) ctx.handle := by
  have waits : ctx ∈ s.idle := mem_idle.mpr ⟨inside, rest ctx inside⟩
  obtain ⟨h, live, free⟩ := sound.named ctx waits
  have dropped := sound.filter_ring waits
  have idle : (s.beginMigration ctx).idle = Hlcache.idle { s with
      retrievalCtxRing := s.retrievalCtxRing.filter fun other => other.llcache ≠ ctx.llcache } := by
    rw [Hlcache.beginMigration, Hlcache.idle, Hlcache.idle]
    exact idle_map rest
  have began : Sound (s.beginMigration ctx) [ctx.handle] [ctx.llcache] :=
    dropped.congr rfl idle rfl rfl rfl rfl rfl
  refine ⟨h, live, free, began, began.detached_of_idle live free fun other inside' same => ?_⟩
  rw [idle] at inside'
  obtain ⟨ring, idle'⟩ := mem_idle.mp inside'
  obtain ⟨ring, apart⟩ := List.mem_filter.mp ring
  have one := sound.ctx_unique (mem_idle.mpr ⟨ring, idle'⟩) waits same
  simp [one] at apart

theorem endMigration (sound : Sound s' [] []) (rest : AtRest s)
    (ring : ∀ other ∈ s'.retrievalCtxRing, other ∈ (s.beginMigration ctx).retrievalCtxRing) :
    Sound (s'.endMigration ctx) [] [] ∧ AtRest (s'.endMigration ctx) := by
  have began : ∀ other ∈ s'.retrievalCtxRing,
      (other.migrateTarget = false ↔ other.llcache ≠ ctx.llcache) := by
    intro other inside
    obtain ⟨before, listed, rfl⟩ := List.mem_map.mp (ring other inside)
    by_cases same : before.llcache = ctx.llcache
    · simp [same]
    · simp [same, rest before listed]
  have idle : (s'.endMigration ctx).idle = s'.idle := by
    rw [Hlcache.endMigration, Hlcache.idle, Hlcache.idle, List.filter_filter]
    refine List.filter_congr fun other inside => ?_
    have iff := began other inside
    cases target : other.migrateTarget with
    | false => simpa using iff.mp target
    | true => rfl
  refine ⟨sound.congr rfl idle rfl rfl rfl rfl rfl, fun other inside => ?_⟩
  obtain ⟨inside, apart⟩ := List.mem_filter.mp inside
  exact (began other inside).mpr (of_decide_eq_true apart)

/-- A migration leaves the cache sound, whatever its client does. -/
theorem migrateCtx (sound : Sound s [] []) (rest : AtRest s) (inside : ctx ∈ s.retrievalCtxRing)
    (patient : ∀ mimeType e, effectiveType = some mimeType → Acceptable factory ctx mimeType →
      s.contentList.find? (s.suitable ctx) = some e → Patient e.status ctx.handle react) :
    ∃ s', s.migrateCtx factory ctx effectiveType created react = some s' ∧ Sound s' [] [] ∧
      AtRest s' := by
  obtain ⟨h, live, free, began, detached⟩ := sound.beginMigration rest inside
  obtain ⟨s₁, migrated, sound₁⟩ := began.migrateType created live free detached patient
  refine ⟨s₁.endMigration ctx, ?_, sound₁.endMigration rest (ring_migrateType migrated)⟩
  rw [Hlcache.migrateCtx, migrated]
  rfl

end Sound

end Neosurf.Hlcaching
