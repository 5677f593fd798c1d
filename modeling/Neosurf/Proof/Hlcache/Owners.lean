/-
This file proves what the operations of the high-level cache leave as it was, who owns the low-level
handles, and where the handles of clients are.
-/

import Neosurf.Construction.Hlcache

namespace Neosurf.Hlcaching

/-- Clients act on one handle: the other handles stay, and so do the types of the contents and the
associations. Contexts are only thrown away. -/
structure Frame (s s' : Hlcache) (a : Nat) : Prop where
  handles : ∀ b, b ≠ a → s'.handles b = s.handles b
  ring : ∀ ctx ∈ s'.retrievalCtxRing, ctx ∈ s.retrievalCtxRing
  contents : ∀ e' ∈ s'.contentList, ∃ e ∈ s.contentList, e'.mimeType = e.mimeType ∧
    e'.handler = e.handler
  associations : s'.associations = s.associations

variable {s s' s'' : Hlcache} {a l : Nat} {ctx : RetrievalCtx} {react : Reactions}
  {msg : HlcacheMsg}

theorem Frame.refl (s : Hlcache) (a : Nat) : Frame s s a :=
  ⟨fun _ _ => rfl, fun _ inside => inside, fun e inside => ⟨e, inside, rfl, rfl⟩, rfl⟩

theorem Frame.trans (first : Frame s s' a) (second : Frame s' s'' a) : Frame s s'' a where
  handles b other := (second.handles b other).trans (first.handles b other)
  ring ctx inside := first.ring ctx (second.ring ctx inside)
  contents e inside := by
    obtain ⟨e', inside', mimeType', handler'⟩ := second.contents e inside
    obtain ⟨e'', inside'', mimeType'', handler''⟩ := first.contents e' inside'
    exact ⟨e'', inside'', mimeType'.trans mimeType'', handler'.trans handler''⟩
  associations := second.associations.trans first.associations

theorem frame_setHandle (h : Option Handle) : Frame s (s.setHandle a h) a :=
  ⟨fun _ other => Function.update_of_ne other _ _, fun _ inside => inside,
    fun e inside => ⟨e, inside, rfl, rfl⟩, rfl⟩

theorem frame_modifyEntry {change : Entry → Entry}
    (same : ∀ e, (change e).mimeType = e.mimeType ∧ (change e).handler = e.handler) :
    Frame s (s.modifyEntry l change) a := by
  refine ⟨fun _ _ => rfl, fun _ inside => inside, fun e' inside => ?_, rfl⟩
  obtain ⟨e, listed, rfl⟩ := List.mem_map.mp inside
  refine ⟨e, listed, ?_⟩
  split_ifs
  · exact same e
  · exact ⟨rfl, rfl⟩

theorem releaseLlcache_eq (released : s.releaseLlcache l = some s') :
    s' = { s with objects := Function.update s.objects l none } := by
  rw [Hlcache.releaseLlcache] at released
  split_ifs at released
  exact (Option.some.inj released).symm

theorem frame_dropCtx (dropped : s.dropCtx a = some s') : Frame s s' a := by
  rw [Hlcache.dropCtx] at dropped
  split at dropped
  · cases dropped
    exact .refl s a
  · obtain ⟨s₁, released, dropped⟩ := Option.bind_eq_some_iff.mp dropped
    cases dropped
    rw [releaseLlcache_eq released]
    exact ⟨fun _ _ => rfl, fun _ inside => List.mem_of_mem_filter inside,
      fun e inside => ⟨e, inside, rfl, rfl⟩, rfl⟩

theorem frame_handleRelease (released : s.handleRelease a = some s') : Frame s s' a := by
  obtain ⟨h, -, released⟩ := Option.bind_eq_some_iff.mp released
  obtain ⟨s₁, first, released⟩ := Option.bind_eq_some_iff.mp released
  cases released
  refine Frame.trans ?_ (frame_setHandle none)
  rw [Hlcache.leave] at first
  split at first
  · cases first
    exact frame_modifyEntry fun _ => ⟨rfl, rfl⟩
  · exact frame_dropCtx first

theorem frame_cloneEntry {e : Entry} (inside : e ∈ s.contentList) : Frame s (s.cloneEntry a e) a := by
  have removed : Frame s (s.removeUser e.llcache a) a := frame_modifyEntry fun _ => ⟨rfl, rfl⟩
  refine ⟨fun b other => Function.update_of_ne other _ _, fun _ inside => inside, ?_, rfl⟩
  intro e' inside'
  rcases List.mem_cons.mp inside' with rfl | inside'
  · exact ⟨e, inside, rfl, rfl⟩
  · exact removed.contents e' inside'

theorem frame_handleAbort {cloned : Bool} (aborted : s.handleAbort a cloned = some s') :
    Frame s s' a := by
  obtain ⟨h, -, aborted⟩ := Option.bind_eq_some_iff.mp aborted
  split at aborted
  · obtain ⟨s₁, dropped, aborted⟩ := Option.bind_eq_some_iff.mp aborted
    cases aborted
    exact (frame_dropCtx dropped).trans (frame_setHandle _)
  · obtain ⟨e, found, aborted⟩ := Option.bind_eq_some_iff.mp aborted
    cases aborted
    split_ifs
    · exact frame_cloneEntry (List.mem_of_find?_eq_some found)
    · exact .refl s a

theorem frame_tell (h : Handle) : Frame s (s.tell a h msg) a :=
  frame_setHandle _

theorem frame_act {reaction : Reaction} (acted : s.act a reaction = some s') : Frame s s' a := by
  cases reaction with
  | stay =>
      cases acted
      exact .refl s a
  | release => exact frame_handleRelease acted
  | abort cloned => exact frame_handleAbort acted
  | abortAndRelease cloned =>
      obtain ⟨s₁, aborted, released⟩ := Option.bind_eq_some_iff.mp acted
      exact (frame_handleAbort aborted).trans (frame_handleRelease released)

theorem frame_deliver (delivered : s.deliver a msg react = some s') : Frame s s' a := by
  obtain ⟨h, -, acted⟩ := Option.bind_eq_some_iff.mp delivered
  exact (frame_tell h).trans (frame_act acted)

theorem frame_catchUp {status : Contents.ContentStatus} (told : s.catchUp status a react = some s') :
    Frame s s' a := by
  cases status with
  | loading => exact frame_deliver told
  | ready =>
      obtain ⟨s₁, first, second⟩ := Option.bind_eq_some_iff.mp told
      exact (frame_deliver first).trans (frame_deliver second)
  | done =>
      obtain ⟨s₁, first, told⟩ := Option.bind_eq_some_iff.mp told
      obtain ⟨s₂, second, third⟩ := Option.bind_eq_some_iff.mp told
      exact ((frame_deliver first).trans (frame_deliver second)).trans (frame_deliver third)
  | error =>
      cases told
      exact .refl s a

theorem frame_report (reported : s.report ctx react = some s') : Frame s s' ctx.handle := by
  obtain ⟨s₁, told, released⟩ := Option.bind_eq_some_iff.mp reported
  rw [releaseLlcache_eq released]
  exact (frame_deliver told).trans
    ⟨fun _ _ => rfl, fun _ inside => inside, fun e inside => ⟨e, inside, rfl, rfl⟩, rfl⟩

theorem frame_download (downloaded : s.download ctx react = some s') : Frame s s' ctx.handle := by
  rw [Hlcache.download] at downloaded
  have given : Frame s { s with downloads := ctx.llcache :: s.downloads } ctx.handle :=
    ⟨fun _ _ => rfl, fun _ inside => inside, fun e inside => ⟨e, inside, rfl, rfl⟩, rfl⟩
  exact given.trans (frame_deliver downloaded)

/-- The contexts that are not migrating. -/
def Hlcache.idle (s : Hlcache) : List RetrievalCtx :=
  s.retrievalCtxRing.filter fun ctx => !ctx.migrateTarget

/-- The number of owners of a low-level handle: contexts, contents and clients. -/
def Hlcache.owners (s : Hlcache) (l : Nat) : Nat :=
  (s.idle.map RetrievalCtx.llcache).count l + (s.contentList.map Entry.llcache).count l +
    s.downloads.count l

/-- Every low-level handle has one owner until it is released. Every handle that is not moving is
a user of its content or is named by a context, until it has failed or is loose. The pending
low-level handles are those of the migrating context. -/
structure Sound (s : Hlcache) (moving pending : List Nat) : Prop where
  owned : ∀ l, s.owners l + pending.count l = if (s.objects l).isSome then 1 else 0
  handleBound : ∀ a, s.freshHandle ≤ a → s.handles a = none
  llcacheBound : ∀ l, s.freshLlcache ≤ l → s.objects l = none
  users : ∀ e ∈ s.contentList, ∀ a ∈ e.users,
    ∃ h, s.handles a = some h ∧ h.entry = some e.llcache
  nodup : ∀ e ∈ s.contentList, e.users.Nodup
  named : ∀ ctx ∈ s.idle, ∃ h, s.handles ctx.handle = some h ∧ h.entry = none
  distinct : (s.idle.map RetrievalCtx.handle).Nodup
  entries : ∀ a h l, s.handles a = some h → a ∉ moving → h.entry = some l →
    ∃ e ∈ s.contentList, e.llcache = l ∧ a ∈ e.users
  free : ∀ a h, s.handles a = some h → a ∉ moving → h.entry = none →
    h.failed = true ∨ h.loose = true ∨ ∃ ctx ∈ s.idle, ctx.handle = a

/-- No content has the handle as its user, and no context names it. -/
structure Detached (s : Hlcache) (a : Nat) : Prop where
  users : ∀ e ∈ s.contentList, a ∉ e.users
  named : ∀ ctx ∈ s.idle, ctx.handle ≠ a

/-- A handle becomes a user of a content. -/
def Hlcache.attach (s : Hlcache) (l a : Nat) : Hlcache :=
  { s.addUser l a with
    handles := Function.update s.handles a
      ((s.handles a).map fun h => { h with entry := some l }) }

variable {s s' : Hlcache} {a k l : Nat} {h h' : Handle} {ctx : RetrievalCtx} {e e' : Entry}
  {moving pending : List Nat}

theorem count_map_filter_ne {α : Type} (f : α → Nat) (xs : List α) (k l : Nat) :
    ((xs.filter fun x => f x ≠ k).map f).count l = if l = k then 0 else (xs.map f).count l := by
  have swapped : (xs.filter fun x => f x ≠ k).map f = (xs.map f).filter fun x => x ≠ k := by
    rw [List.filter_map]
    rfl
  rw [swapped]
  split_ifs with same
  · refine List.count_eq_zero.mpr fun inside => ?_
    simp [same] at inside
  · exact List.count_filter (by simpa using same)

theorem setHandle_self (h : Option Handle) : (s.setHandle a h).handles a = h :=
  Function.update_self ..

theorem setHandle_of_ne {b : Nat} (h : Option Handle) (apart : b ≠ a) :
    (s.setHandle a h).handles b = s.handles b :=
  Function.update_of_ne apart _ _

theorem mem_idle : ctx ∈ s.idle ↔ ctx ∈ s.retrievalCtxRing ∧ ctx.migrateTarget = false := by
  simp [Hlcache.idle]

theorem mem_modifyEntry {change : Entry → Entry} : e' ∈ (s.modifyEntry l change).contentList ↔
    ∃ e ∈ s.contentList, (if e.llcache = l then change e else e) = e' :=
  List.mem_map

/-- To change the users of a content moves no low-level handle. -/
theorem owners_modifyEntry {change : Entry → Entry} (same : ∀ e, (change e).llcache = e.llcache) :
    (s.modifyEntry l change).owners k = s.owners k := by
  have llcaches : (s.modifyEntry l change).contentList.map Entry.llcache =
      s.contentList.map Entry.llcache := by
    rw [Hlcache.modifyEntry, List.map_map]
    refine List.map_congr_left fun e _ => ?_
    change Entry.llcache (if e.llcache = l then change e else e) = e.llcache
    split_ifs
    · exact same e
    · rfl
  rw [Hlcache.owners, llcaches]
  rfl

namespace Sound

theorem ctx_nodup (sound : Sound s moving pending) :
    (s.idle.map RetrievalCtx.llcache).Nodup := by
  refine List.nodup_iff_count_le_one.mpr fun l => ?_
  have owned := sound.owned l
  rw [Hlcache.owners] at owned
  split_ifs at owned <;> omega

theorem entry_nodup (sound : Sound s moving pending) :
    (s.contentList.map Entry.llcache).Nodup := by
  refine List.nodup_iff_count_le_one.mpr fun l => ?_
  have owned := sound.owned l
  rw [Hlcache.owners] at owned
  split_ifs at owned <;> omega

theorem entry_unique (sound : Sound s moving pending) (inside : e ∈ s.contentList)
    (inside' : e' ∈ s.contentList) (same : e.llcache = e'.llcache) : e = e' :=
  List.inj_on_of_nodup_map sound.entry_nodup inside inside' same

theorem ctx_unique (sound : Sound s moving pending) {ctx' : RetrievalCtx} (inside : ctx ∈ s.idle)
    (inside' : ctx' ∈ s.idle) (same : ctx.handle = ctx'.handle) : ctx = ctx' :=
  List.inj_on_of_nodup_map sound.distinct inside inside' same

/-- The owned low-level handles are not released. -/
theorem isSome_of_owner (sound : Sound s moving pending)
    (owner : 0 < s.owners l + pending.count l) : (s.objects l).isSome = true := by
  have owned := sound.owned l
  split_ifs at owned with live
  · exact live
  · omega

theorem isSome_of_ctx (sound : Sound s moving pending) (inside : ctx ∈ s.idle) :
    (s.objects ctx.llcache).isSome = true := by
  have counted := List.count_pos_iff.mpr (List.mem_map_of_mem (f := RetrievalCtx.llcache) inside)
  refine sound.isSome_of_owner ?_
  rw [Hlcache.owners]
  omega

theorem isSome_of_entry (sound : Sound s moving pending) (inside : e ∈ s.contentList) :
    (s.objects e.llcache).isSome = true := by
  have counted := List.count_pos_iff.mpr (List.mem_map_of_mem (f := Entry.llcache) inside)
  refine sound.isSome_of_owner ?_
  rw [Hlcache.owners]
  omega

theorem lt_freshHandle (sound : Sound s moving pending) (live : s.handles a = some h) :
    a < s.freshHandle := by
  by_contra beyond
  rw [sound.handleBound a (not_lt.mp beyond)] at live
  cases live

theorem congr (sound : Sound s moving pending) (contents : s'.contentList = s.contentList)
    (idle : s'.idle = s.idle) (handles : s'.handles = s.handles)
    (objects : s'.objects = s.objects) (downloads : s'.downloads = s.downloads)
    (freshHandle : s'.freshHandle = s.freshHandle) (freshLlcache : s'.freshLlcache = s.freshLlcache) :
    Sound s' moving pending where
  owned l := by
    rw [Hlcache.owners, idle, contents, downloads, objects]
    exact sound.owned l
  handleBound := by
    rw [freshHandle, handles]
    exact sound.handleBound
  llcacheBound := by
    rw [freshLlcache, objects]
    exact sound.llcacheBound
  users := by
    rw [contents, handles]
    exact sound.users
  nodup := by
    rw [contents]
    exact sound.nodup
  named := by
    rw [idle, handles]
    exact sound.named
  distinct := by
    rw [idle]
    exact sound.distinct
  entries := by
    rw [contents, handles]
    exact sound.entries
  free := by
    rw [idle, handles]
    exact sound.free

/-- More handles may move. -/
theorem mono {moving' : List Nat} (sound : Sound s moving pending)
    (more : ∀ a ∈ moving, a ∈ moving') : Sound s moving' pending :=
  { sound with
    entries := fun a h l live apart => sound.entries a h l live fun inside => apart (more a inside)
    free := fun a h live apart => sound.free a h live fun inside => apart (more a inside) }

/-- A pending low-level handle is released. -/
theorem releaseLlcache (sound : Sound s moving (l :: pending)) :
    ∃ s', s.releaseLlcache l = some s' ∧ Sound s' moving pending := by
  have live : (s.objects l).isSome = true :=
    sound.isSome_of_owner (Nat.add_pos_right _ (List.count_pos_iff.mpr List.mem_cons_self))
  refine ⟨_, if_pos live, { sound with owned := fun k => ?_, llcacheBound := fun k beyond => ?_ }⟩
  · change s.owners k + pending.count k =
      if (Function.update s.objects l none k).isSome then 1 else 0
    have owned := sound.owned k
    rw [List.count_cons] at owned
    by_cases same : k = l
    · subst same
      rw [if_pos live, if_pos (beq_self_eq_true k)] at owned
      rw [Function.update_self, if_neg (by simp)]
      omega
    · have other : ¬(l == k) = true := by simpa using Ne.symm same
      rw [if_neg other] at owned
      rw [Function.update_of_ne same]
      exact owned
  · change Function.update s.objects l none k = none
    by_cases same : k = l
    · exact same ▸ Function.update_self ..
    · rw [Function.update_of_ne same]
      exact sound.llcacheBound k beyond

/-- A context is thrown away, and its low-level handle is left to be released. -/
theorem filter_ring (sound : Sound s moving pending) (inside : ctx ∈ s.idle) :
    Sound { s with
      retrievalCtxRing := s.retrievalCtxRing.filter fun other => other.llcache ≠ ctx.llcache }
      (ctx.handle :: moving) (ctx.llcache :: pending) := by
  have idle : Hlcache.idle { s with
      retrievalCtxRing := s.retrievalCtxRing.filter fun other => other.llcache ≠ ctx.llcache } =
      s.idle.filter fun other => other.llcache ≠ ctx.llcache := by
    simp only [Hlcache.idle, List.filter_filter, Bool.and_comm]
  refine { sound with
    owned := fun l => ?_
    named := fun other inside => ?_
    distinct := ?_
    entries := fun a h l live apart => sound.entries a h l live fun inside =>
      apart (List.mem_cons_of_mem _ inside)
    free := fun a h live apart none => ?_ }
  · have owned := sound.owned l
    have once := List.count_eq_one_of_mem sound.ctx_nodup
      (List.mem_map_of_mem (f := RetrievalCtx.llcache) inside)
    rw [Hlcache.owners] at owned ⊢
    rw [idle, count_map_filter_ne, List.count_cons]
    by_cases same : l = ctx.llcache
    · subst same
      rw [if_pos rfl, if_pos (beq_self_eq_true _)]
      rw [once] at owned
      rw [← owned]
      change 0 + (s.contentList.map Entry.llcache).count ctx.llcache +
        s.downloads.count ctx.llcache + _ = _
      omega
    · have other : ¬(ctx.llcache == l) = true := by simpa using Ne.symm same
      rw [if_neg same, if_neg other]
      exact owned
  · rw [idle] at inside
    exact sound.named other (List.mem_of_mem_filter inside)
  · rw [idle]
    exact sound.distinct.sublist (List.filter_sublist.map _)
  · obtain ⟨other, moving⟩ := List.ne_and_not_mem_of_not_mem_cons apart
    refine (sound.free a h live moving none).imp_right fun free => free.imp_right ?_
    rintro ⟨ctx', inside', rfl⟩
    refine ⟨ctx', ?_, rfl⟩
    rw [idle]
    refine List.mem_filter.mpr ⟨inside', ?_⟩
    have apart : ctx'.llcache ≠ ctx.llcache := fun same => other <|
      congrArg RetrievalCtx.handle (List.inj_on_of_nodup_map sound.ctx_nodup inside' inside same)
    simpa using apart

theorem detached_of_idle (sound : Sound s moving pending) (live : s.handles a = some h)
    (free : h.entry = none) (apart : ∀ ctx ∈ s.idle, ctx.handle ≠ a) : Detached s a := by
  refine ⟨fun e inside user => ?_, apart⟩
  obtain ⟨h', live', entry⟩ := sound.users e inside a user
  rw [live] at live'
  cases live'
  rw [free] at entry
  cases entry

/-- The context that names a handle is thrown away, if there is one. -/
theorem dropCtx (sound : Sound s moving pending) (live : s.handles a = some h)
    (free : h.entry = none) :
    ∃ s', s.dropCtx a = some s' ∧ Sound s' (a :: moving) pending ∧ Detached s' a ∧
      s'.handles = s.handles := by
  rw [Hlcache.dropCtx]
  cases found : s.retrievalCtxRing.find? fun ctx => ctx.handle = a ∧ ctx.migrateTarget = false with
  | none =>
      refine ⟨s, rfl, sound.mono fun b => List.mem_cons_of_mem a, ?_, rfl⟩
      refine sound.detached_of_idle live free fun ctx inside same => ?_
      obtain ⟨inside, idle⟩ := mem_idle.mp inside
      have apart := List.find?_eq_none.mp found ctx inside
      simp [same, idle] at apart
  | some ctx =>
      have chosen := List.find?_some found
      obtain ⟨rfl, idle⟩ := of_decide_eq_true chosen
      have inside : ctx ∈ s.idle := mem_idle.mpr ⟨List.mem_of_find?_eq_some found, idle⟩
      obtain ⟨s', released, sound'⟩ := (sound.filter_ring inside).releaseLlcache
      have eq := releaseLlcache_eq released
      refine ⟨s', ?_, sound', ?_, ?_⟩
      · have first : s.releaseLlcache ctx.llcache = some _ := if_pos (sound.isSome_of_ctx inside)
        change (s.releaseLlcache ctx.llcache).bind _ = some s'
        rw [first, eq]
        rfl
      · refine sound'.detached_of_idle (eq ▸ live) free fun other inside' same => ?_
        rw [eq] at inside'
        obtain ⟨ring, idle'⟩ := mem_idle.mp inside'
        obtain ⟨ring, apart⟩ := List.mem_filter.mp ring
        have one := sound.ctx_unique (mem_idle.mpr ⟨ring, idle'⟩) inside same
        simp [one] at apart
      · rw [eq]

/-- A handle that is nowhere is released, fails or gets loose. -/
theorem setHandle (sound : Sound s moving pending) (live : s.handles a = some h)
    (detached : Detached s a) (next : Option Handle)
    (loose : ∀ h', next = some h' → h'.entry = none ∧ (h'.failed = true ∨ h'.loose = true)) :
    Sound (s.setHandle a next) (moving.filter (· ≠ a)) pending := by
  have other {b : Nat} {h' : Handle} (apart : b ≠ a) (live' : s.handles b = some h') :
      (s.setHandle a next).handles b = some h' :=
    (setHandle_of_ne next apart).trans live'
  refine { sound with
    handleBound := fun b beyond => ?_
    users := fun e inside b user => ?_
    named := fun ctx inside => ?_
    entries := fun b h' l live' apart entry => ?_
    free := fun b h' live' apart free => ?_ }
  · have apart : b ≠ a := fun same => by
      have inside := sound.lt_freshHandle live
      exact absurd (same ▸ beyond) (not_le.mpr inside)
    exact (setHandle_of_ne next apart).trans (sound.handleBound b beyond)
  · obtain ⟨h', live', entry⟩ := sound.users e inside b user
    exact ⟨h', other (fun same => detached.users e inside (same ▸ user)) live', entry⟩
  · obtain ⟨h', live', entry⟩ := sound.named ctx inside
    exact ⟨h', other (detached.named ctx inside) live', entry⟩
  · by_cases same : b = a
    · subst same
      rw [setHandle_self] at live'
      rw [(loose h' live').1] at entry
      cases entry
    · have before : s.handles b = some h' := (setHandle_of_ne next same).symm.trans live'
      exact sound.entries b h' l before
        (fun inside => apart (List.mem_filter.mpr ⟨inside, by simpa using same⟩)) entry
  · by_cases same : b = a
    · subst same
      rw [setHandle_self] at live'
      exact (loose h' live').2.imp_right Or.inl
    · have before : s.handles b = some h' := (setHandle_of_ne next same).symm.trans live'
      exact sound.free b h' before
        (fun inside => apart (List.mem_filter.mpr ⟨inside, by simpa using same⟩)) free

/-- A handle is no user of its content any more. -/
theorem removeUser (sound : Sound s moving pending) (live : s.handles a = some h)
    (entry : h.entry = some l) :
    Sound (s.removeUser l a) (a :: moving) pending ∧ Detached (s.removeUser l a) a := by
  have before : ∀ e' ∈ (s.removeUser l a).contentList, ∃ e ∈ s.contentList,
      e'.llcache = e.llcache ∧ e'.users = if e.llcache = l then e.users.erase a else e.users := by
    intro e' listed
    obtain ⟨e, inside, rfl⟩ := mem_modifyEntry.mp listed
    refine ⟨e, inside, ?_⟩
    split_ifs <;> exact ⟨rfl, rfl⟩
  constructor
  · refine { sound with
      owned := fun k => ?_
      users := fun e' inside b user => ?_
      nodup := fun e' inside => ?_
      entries := fun b h' k live' apart entry' => ?_
      free := fun b h' live' apart => sound.free b h' live' fun inside =>
        apart (List.mem_cons_of_mem _ inside) }
    · have owners : (s.removeUser l a).owners k = s.owners k := owners_modifyEntry (by simp)
      rw [owners]
      exact sound.owned k
    · obtain ⟨e, inside, llcache, users⟩ := before e' inside
      rw [llcache]
      refine sound.users e inside b ?_
      rw [users] at user
      split_ifs at user
      · exact List.mem_of_mem_erase user
      · exact user
    · obtain ⟨e, inside, -, users⟩ := before e' inside
      rw [users]
      split_ifs
      · exact (sound.nodup e inside).erase a
      · exact sound.nodup e inside
    · obtain ⟨other, moving⟩ := List.ne_and_not_mem_of_not_mem_cons apart
      obtain ⟨e, inside, rfl, user⟩ := sound.entries b h' k live' moving entry'
      refine ⟨_, mem_modifyEntry.mpr ⟨e, inside, rfl⟩, ?_⟩
      split_ifs
      · exact ⟨rfl, (List.mem_erase_of_ne other).mpr user⟩
      · exact ⟨rfl, user⟩
  · refine ⟨fun e' inside user => ?_, fun ctx inside same => ?_⟩
    · obtain ⟨e, inside, llcache, users⟩ := before e' inside
      rw [users] at user
      split_ifs at user with here
      · exact (sound.nodup e inside).not_mem_erase user
      · obtain ⟨h', live', entry'⟩ := sound.users e inside a user
        rw [live] at live'
        cases live'
        rw [entry] at entry'
        exact here (Option.some.inj entry').symm
    · obtain ⟨h', live', none⟩ := sound.named ctx inside
      rw [same, live] at live'
      cases live'
      rw [entry] at none
      cases none

/-- A handle that is nowhere becomes a user of a content. -/
theorem attach (sound : Sound s moving pending) (live : s.handles a = some h)
    (detached : Detached s a) (inside : e ∈ s.contentList) :
    Sound (s.attach e.llcache a) (moving.filter (· ≠ a)) pending := by
  have self : (s.attach e.llcache a).handles a =
      some { h with entry := some e.llcache } := by
    change Function.update s.handles a
      ((s.handles a).map fun h => { h with entry := some e.llcache }) a = _
    rw [Function.update_self, live]
    rfl
  have other {b : Nat} (apart : b ≠ a) :
      (s.attach e.llcache a).handles b = s.handles b :=
    Function.update_of_ne apart _ _
  have before : ∀ e' ∈ (s.attach e.llcache a).contentList, ∃ e₀ ∈ s.contentList,
      e'.llcache = e₀.llcache ∧
        e'.users = if e₀.llcache = e.llcache then a :: e₀.users else e₀.users := by
    intro e' listed
    obtain ⟨e₀, inside₀, rfl⟩ := mem_modifyEntry.mp listed
    refine ⟨e₀, inside₀, ?_⟩
    split_ifs <;> exact ⟨rfl, rfl⟩
  have added : (if e.llcache = e.llcache then { e with users := a :: e.users } else e) =
      { e with users := a :: e.users } := if_pos rfl
  refine { sound with
    owned := fun k => ?_
    handleBound := fun b beyond => ?_
    users := fun e' inside' b user => ?_
    nodup := fun e' inside' => ?_
    named := fun ctx inside' => ?_
    entries := fun b h' k live' apart entry => ?_
    free := fun b h' live' apart none => ?_ }
  · have owners : (s.addUser e.llcache a).owners k = s.owners k :=
      owners_modifyEntry (by simp)
    have owned := sound.owned k
    rw [← owners] at owned
    exact owned
  · have apart : b ≠ a := fun same =>
      absurd (same ▸ beyond) (not_le.mpr (sound.lt_freshHandle live))
    rw [other apart]
    exact sound.handleBound b beyond
  · obtain ⟨e₀, inside₀, llcache, users⟩ := before e' inside'
    rw [llcache]
    rw [users] at user
    by_cases same : b = a
    · subst same
      split_ifs at user with here
      · exact ⟨_, self, congrArg some here.symm⟩
      · exact absurd user (detached.users e₀ inside₀)
    · rw [other same]
      refine sound.users e₀ inside₀ b ?_
      split_ifs at user
      · exact (List.mem_cons.mp user).resolve_left same
      · exact user
  · obtain ⟨e₀, inside₀, -, users⟩ := before e' inside'
    rw [users]
    split_ifs
    · exact (sound.nodup e₀ inside₀).cons (detached.users e₀ inside₀)
    · exact sound.nodup e₀ inside₀
  · rw [other (detached.named ctx inside')]
    exact sound.named ctx inside'
  · by_cases same : b = a
    · subst same
      rw [self] at live'
      cases live'
      cases entry
      exact ⟨_, mem_modifyEntry.mpr ⟨e, inside, added⟩, rfl, List.mem_cons_self⟩
    · rw [other same] at live'
      have still : b ∉ moving := fun inside =>
        apart (List.mem_filter.mpr ⟨inside, by simpa using same⟩)
      obtain ⟨e₀, inside₀, rfl, user⟩ := sound.entries b h' k live' still entry
      refine ⟨_, mem_modifyEntry.mpr ⟨e₀, inside₀, rfl⟩, ?_⟩
      split_ifs
      · exact ⟨rfl, List.mem_cons_of_mem _ user⟩
      · exact ⟨rfl, user⟩
  · by_cases same : b = a
    · subst same
      rw [self] at live'
      cases live'
      cases none
    · rw [other same] at live'
      exact sound.free b h' live' (fun inside =>
        apart (List.mem_filter.mpr ⟨inside, by simpa using same⟩)) none

/-- A content that nobody uses takes a pending low-level handle. -/
theorem addEntry (sound : Sound s moving (e.llcache :: pending)) (unused : e.users = []) :
    Sound { s with contentList := e :: s.contentList } moving pending := by
  refine { sound with
    owned := fun k => ?_
    users := ?_
    nodup := ?_
    entries := fun b h' k live apart entry => ?_ }
  · have owned := sound.owned k
    rw [Hlcache.owners, List.count_cons] at owned
    rw [← owned, Hlcache.owners]
    change (s.idle.map RetrievalCtx.llcache).count k +
      ((e :: s.contentList).map Entry.llcache).count k + s.downloads.count k + pending.count k = _
    rw [List.map_cons, List.count_cons]
    omega
  · refine List.forall_mem_cons.mpr ⟨?_, sound.users⟩
    rw [unused]
    exact List.forall_mem_nil _
  · refine List.forall_mem_cons.mpr ⟨?_, sound.nodup⟩
    rw [unused]
    exact List.nodup_nil
  · obtain ⟨e', inside, rest⟩ := sound.entries b h' k live apart entry
    exact ⟨e', List.mem_cons_of_mem _ inside, rest⟩

/-- The low-level cache hands out a new handle. -/
theorem newLlcache (sound : Sound s moving pending) (object : Nat) :
    Sound { s with
      objects := Function.update s.objects s.freshLlcache (some object)
      freshLlcache := s.freshLlcache + 1 } moving (s.freshLlcache :: pending) := by
  refine { sound with owned := fun k => ?_, llcacheBound := fun k beyond => ?_ }
  · change s.owners k + (s.freshLlcache :: pending).count k =
      if (Function.update s.objects s.freshLlcache (some object) k).isSome then 1 else 0
    have owned := sound.owned k
    rw [List.count_cons]
    by_cases same : k = s.freshLlcache
    · rw [same, sound.llcacheBound _ (le_refl _), if_neg (by simp)] at owned
      rw [same, Function.update_self, if_pos (beq_self_eq_true _), if_pos (by simp)]
      omega
    · have other : ¬(s.freshLlcache == k) = true := by simpa using Ne.symm same
      rw [if_neg other, Function.update_of_ne same]
      exact owned
  · change Function.update s.objects s.freshLlcache (some object) k = none
    have later : s.freshLlcache + 1 ≤ k := beyond
    rw [Function.update_of_ne (by omega)]
    exact sound.llcacheBound k (by omega)

/-- A handle goes on with a clone of its content. -/
theorem cloneEntry (sound : Sound s moving pending) (live : s.handles a = some h)
    (inside : e ∈ s.contentList) (entry : h.entry = some e.llcache) :
    Sound (s.cloneEntry a e) (moving.filter (· ≠ a)) pending := by
  obtain ⟨object, referenced⟩ := Option.isSome_iff_exists.mp (sound.isSome_of_entry inside)
  obtain ⟨removed, detached⟩ := sound.removeUser live entry
  let clone : Entry := { e with llcache := s.freshLlcache, users := [] }
  have added := (removed.newLlcache object).addEntry (e := clone) rfl
  have apart : Detached { s.removeUser e.llcache a with
      contentList := clone :: (s.removeUser e.llcache a).contentList
      objects := Function.update s.objects s.freshLlcache (some object)
      freshLlcache := s.freshLlcache + 1 } a :=
    ⟨List.forall_mem_cons.mpr ⟨List.not_mem_nil, detached.users⟩, detached.named⟩
  have attached := added.attach live apart List.mem_cons_self
  rw [List.filter_cons_of_neg (by simp)] at attached
  refine attached.congr ?_ rfl rfl ?_ rfl rfl rfl
  · have others : (s.removeUser e.llcache a).contentList.map
        (fun other => if other.llcache = s.freshLlcache then
          { other with users := a :: other.users } else other) =
        (s.removeUser e.llcache a).contentList := by
      refine (List.map_congr_left fun other inside' => if_neg fun same => ?_).trans (List.map_id' _)
      have beyond := removed.llcacheBound s.freshLlcache (le_refl _)
      have live' := removed.isSome_of_entry inside'
      rw [same, beyond] at live'
      cases live'
    have first : (if clone.llcache = s.freshLlcache then
        { clone with users := a :: clone.users } else clone) = { clone with users := [a] } :=
      if_pos rfl
    exact (congrArg₂ List.cons first others).symm
  · change Function.update s.objects s.freshLlcache (s.objects e.llcache) = _
    rw [referenced]
    rfl

theorem associate (sound : Sound s moving pending) (live : s.handles ctx.handle = some h)
    (detached : Detached s ctx.handle) (inside : e ∈ s.contentList) :
    Sound (s.associate ctx e) (moving.filter (· ≠ ctx.handle)) pending :=
  (sound.attach live detached inside).congr rfl rfl rfl rfl rfl rfl rfl

end Sound

end Neosurf.Hlcaching
