/-
This file proves that every run of the high-level cache keeps its handles and its low-level
handles.
-/

import Neosurf.Proof.Hlcache.Migration

namespace Neosurf.Hlcaching

open Contents Hlcache

/-- What a step keeps to. The sniffer finds a type when it has data, as the code asserts. A client
releases its handle in no message that another one follows, and acts on no handle that it has
released. -/
def Permitted (factory : Bytes → Option Handler) (s : Hlcache) : HlcacheStep → Prop
  | .event l event _ react => ∀ ctx,
      s.retrievalCtxRing.find? (fun ctx => ctx.llcache = l) = some ctx →
        (∀ header data, event = .hadData header data → (event.sniffed factory ctx).isSome = true) ∧
          ∀ mimeType e, event.sniffed factory ctx = some mimeType →
            Acceptable factory ctx mimeType → s.contentList.find? (s.suitable ctx) = some e →
              Patient e.status ctx.handle react
  | .release a => (s.handles a).isSome = true
  | .abort a _ => (s.handles a).isSome = true
  | .endDownload l => l ∈ s.downloads
  | _ => True

/-- All steps of a run are permitted. -/
def PermittedRun (factory : Bytes → Option Handler) : List HlcacheStep → Hlcache → Prop
  | [], _ => True
  | x :: rest, s => Permitted factory s x ∧
      ∀ s', s.step factory x = some s' → PermittedRun factory rest s'

/-- The number of contents that a handle uses and of contexts that name it. -/
def Hlcache.places (s : Hlcache) (a : Nat) : Nat :=
  s.contentList.countP (fun e => a ∈ e.users) +
    s.retrievalCtxRing.countP fun ctx => ctx.handle = a

variable {factory : Bytes → Option Handler} {s s' : Hlcache} {a l : Nat} {h : Handle}
  {ctx : RetrievalCtx} {e : Entry} {react : Reactions} {created : Bool} {x : HlcacheStep}
  {steps : List HlcacheStep} {msg : HlcacheMsg} {event : LowEvent} {entries : List Entry}

theorem AtRest.frame (rest : AtRest s) (frame : Frame s s' a) : AtRest s' :=
  fun ctx inside => rest ctx (frame.ring ctx inside)

namespace Sound

/-- A message to one handle, while no context is migrating. -/
theorem deliver_atRest (sound : Sound s [] []) (rest : AtRest s) (live : s.handles a = some h)
    (msg : HlcacheMsg) (react : Reactions) :
    ∃ s', s.deliver a msg react = some s' ∧ Sound s' [] [] ∧ AtRest s' := by
  obtain ⟨s', told, sound', -⟩ := sound.deliver live List.not_mem_nil msg react
  exact ⟨s', told, sound', rest.frame (frame_deliver told)⟩

theorem broadcast (sound : Sound s [] []) (rest : AtRest s) {users : List Nat}
    (nodup : users.Nodup) (live : ∀ a ∈ users, ∃ h, s.handles a = some h) :
    ∃ s', Hlcache.broadcast msg react users s = some s' ∧ Sound s' [] [] ∧ AtRest s' := by
  induction users generalizing s with
  | nil => exact ⟨s, rfl, sound, rest⟩
  | cons b users ih =>
      obtain ⟨⟨h, here⟩, live⟩ := List.forall_mem_cons.mp live
      obtain ⟨apart, nodup⟩ := List.nodup_cons.mp nodup
      obtain ⟨s₁, told, sound₁, rest₁⟩ := sound.deliver_atRest rest here msg react
      have live₁ : ∀ a ∈ users, ∃ h, s₁.handles a = some h := by
        intro a inside
        have other : a ≠ b := fun same => apart (same ▸ inside)
        rw [(frame_deliver told).handles a other]
        exact live a inside
      obtain ⟨s', later, sound', rest'⟩ := ih sound₁ rest₁ nodup live₁
      refine ⟨s', ?_, sound', rest'⟩
      rw [Hlcache.broadcast, told]
      exact later

/-- A content that nobody uses goes, and releases its low-level handle. -/
theorem cleanEntry (sound : Sound s [] []) (inside : e ∈ s.contentList) (unused : e.users = []) :
    ∃ s', s.cleanEntry e = some s' ∧ Sound s' [] [] ∧
      s'.contentList = s.contentList.filter (fun other => other.llcache ≠ e.llcache) ∧
        s'.retrievalCtxRing = s.retrievalCtxRing := by
  have removed : Sound { s with
      contentList := s.contentList.filter fun other => other.llcache ≠ e.llcache } []
      [e.llcache] := by
    refine { sound with
      owned := fun l => ?_
      users := fun e' inside' => sound.users e' (List.mem_of_mem_filter inside')
      nodup := fun e' inside' => sound.nodup e' (List.mem_of_mem_filter inside')
      entries := fun a h l live apart entry => ?_ }
    · have owned := sound.owned l
      have once := List.count_eq_one_of_mem sound.entry_nodup
        (List.mem_map_of_mem (f := Entry.llcache) inside)
      rw [Hlcache.owners, List.count_nil] at owned
      rw [← owned, Hlcache.owners]
      change (s.idle.map RetrievalCtx.llcache).count l +
        ((s.contentList.filter fun other => other.llcache ≠ e.llcache).map Entry.llcache).count l +
          s.downloads.count l + [e.llcache].count l = _
      rw [count_map_filter_ne]
      by_cases same : l = e.llcache
      · rw [same, if_pos rfl, once, List.count_singleton_self]
        omega
      · have other : ¬(e.llcache == l) = true := by simpa using Ne.symm same
        rw [if_neg same, List.count_singleton, if_neg other]
    · obtain ⟨e', inside', rfl, user⟩ := sound.entries a h l live apart entry
      refine ⟨e', List.mem_filter.mpr ⟨inside', ?_⟩, rfl, user⟩
      have other : e'.llcache ≠ e.llcache := fun same => by
        rw [sound.entry_unique inside' inside same, unused] at user
        cases user
      simpa using other
  obtain ⟨s', released, sound'⟩ := removed.releaseLlcache
  have eq := releaseLlcache_eq released
  refine ⟨s', ?_, sound', by rw [eq], by rw [eq]⟩
  have first : s.releaseLlcache e.llcache = some _ := if_pos (sound.isSome_of_entry inside)
  rw [Hlcache.cleanEntry, first, eq]
  rfl

theorem clean (sound : Sound s [] []) (rest : AtRest s) (forceClean : Bool)
    (inside : ∀ e ∈ entries, e ∈ s.contentList) (nodup : (entries.map Entry.llcache).Nodup) :
    ∃ s', Hlcache.clean forceClean entries s = some s' ∧ Sound s' [] [] ∧ AtRest s' := by
  induction entries generalizing s with
  | nil => exact ⟨s, rfl, sound, rest⟩
  | cons e entries ih =>
      obtain ⟨here, inside⟩ := List.forall_mem_cons.mp inside
      rw [List.map_cons] at nodup
      obtain ⟨apart, nodup⟩ := List.nodup_cons.mp nodup
      rw [Hlcache.clean]
      split_ifs with unused
      · obtain ⟨s₁, cleaned, sound₁, contents, ring⟩ := sound.cleanEntry here unused.1
        have rest₁ : AtRest s₁ := by
          rw [AtRest, ring]
          exact rest
        have inside₁ : ∀ e' ∈ entries, e' ∈ s₁.contentList := by
          intro e' listed
          rw [contents]
          refine List.mem_filter.mpr ⟨inside e' listed, ?_⟩
          have other : e'.llcache ≠ e.llcache := fun same =>
            apart (same ▸ List.mem_map_of_mem listed)
          simpa using other
        obtain ⟨s', later, sound', rest'⟩ := ih sound₁ rest₁ inside₁ nodup
        refine ⟨s', ?_, sound', rest'⟩
        rw [cleaned]
        exact later
      · exact ih sound rest inside nodup

theorem llcacheCallback (sound : Sound s [] []) (rest : AtRest s)
    (inside : ctx ∈ s.retrievalCtxRing)
    (sniffs : ∀ header data, event = .hadData header data →
      (event.sniffed factory ctx).isSome = true)
    (patient : ∀ mimeType e, event.sniffed factory ctx = some mimeType →
      Acceptable factory ctx mimeType → s.contentList.find? (s.suitable ctx) = some e →
        Patient e.status ctx.handle react) :
    ∃ s', s.llcacheCallback factory ctx event created react = some s' ∧ Sound s' [] [] ∧
      AtRest s' := by
  obtain ⟨h, live, -⟩ := sound.named ctx (mem_idle.mpr ⟨inside, rest ctx inside⟩)
  have tell := sound.deliver_atRest rest live
  have migrate {effectiveType : Option Bytes}
      (same : ∀ mimeType, effectiveType = some mimeType →
        event.sniffed factory ctx = some mimeType) :
      ∃ s', s.migrateCtx factory ctx effectiveType created react = some s' ∧ Sound s' [] [] ∧
        AtRest s' :=
    sound.migrateCtx rest inside fun mimeType e type => patient mimeType e (same mimeType type)
  cases event with
  | gotCerts => exact tell .sslCerts react
  | error => exact tell .error react
  | redirect => exact tell .redirect react
  | progress => exact ⟨s, rfl, sound, rest⟩
  | hadHeaders header =>
      simp only [LowEvent.sniffed] at migrate
      rw [Hlcache.llcacheCallback]
      split
      · rename_i mimeType sniffed
        exact migrate fun other same => by rw [sniffed]; exact same
      · exact migrate fun other same => by cases same
      · exact ⟨s, rfl, sound, rest⟩
  | hadData header data =>
      simp only [LowEvent.sniffed] at migrate
      have sniffs := sniffs header data rfl
      simp only [LowEvent.sniffed] at sniffs
      rw [Hlcache.llcacheCallback]
      split
      · rename_i mimeType sniffed
        exact migrate fun other same => by rw [sniffed]; exact same
      · rename_i error sniffed
        rw [sniffed] at sniffs
        cases sniffs
  | done header =>
      simp only [LowEvent.sniffed] at migrate
      rw [Hlcache.llcacheCallback]
      split
      · rename_i mimeType sniffed
        exact migrate fun other same => by rw [sniffed]; exact same
      · exact migrate fun other same => by cases same
      · exact tell .error react

/-- A client asks for a content. -/
theorem handleRetrieve (sound : Sound s [] []) (rest : AtRest s) (object : Nat)
    (sniffType mayDownload : Bool) (acceptedTypes : Nat) (quirks : Bool) :
    Sound (s.handleRetrieve object sniffType mayDownload acceptedTypes quirks) [] [] ∧
      AtRest (s.handleRetrieve object sniffType mayDownload acceptedTypes quirks) := by
  have added := sound.newLlcache object
  have other {b : Nat} (apart : b ≠ s.freshHandle) :
      (s.handleRetrieve object sniffType mayDownload acceptedTypes quirks).handles b =
        s.handles b :=
    Function.update_of_ne apart _ _
  have self : (s.handleRetrieve object sniffType mayDownload acceptedTypes quirks).handles
      s.freshHandle = some ⟨none, false, false⟩ :=
    Function.update_self ..
  have apart {b : Nat} {h : Handle} (live : s.handles b = some h) : b ≠ s.freshHandle :=
    (sound.lt_freshHandle live).ne
  refine ⟨{ added with
    owned := fun l => ?_
    handleBound := fun b beyond => ?_
    users := fun e inside b user => ?_
    named := ?_
    distinct := ?_
    entries := fun b h l live still entry => ?_
    free := fun b h live still free => ?_ }, List.forall_mem_cons.mpr ⟨rfl, rest⟩⟩
  · have owned := added.owned l
    rw [Hlcache.owners, List.count_cons, List.count_nil] at owned
    refine Eq.trans ?_ owned
    change ((s.freshLlcache :: s.idle.map RetrievalCtx.llcache).count l) +
      (s.contentList.map Entry.llcache).count l + s.downloads.count l + 0 =
        (s.idle.map RetrievalCtx.llcache).count l + (s.contentList.map Entry.llcache).count l +
          s.downloads.count l + _
    rw [List.count_cons]
    omega
  · have later : s.freshHandle + 1 ≤ b := beyond
    rw [other (by omega)]
    exact sound.handleBound b (by omega)
  · obtain ⟨h, live, entry⟩ := sound.users e inside b user
    exact ⟨h, (other (apart live)).trans live, entry⟩
  · refine List.forall_mem_cons.mpr ⟨⟨_, self, rfl⟩, fun ctx inside => ?_⟩
    obtain ⟨h, live, free⟩ := sound.named ctx inside
    exact ⟨h, (other (apart live)).trans live, free⟩
  · refine List.nodup_cons.mpr ⟨fun inside => ?_, sound.distinct⟩
    obtain ⟨ctx, inside, same⟩ := List.mem_map.mp inside
    obtain ⟨h, live, -⟩ := sound.named ctx inside
    exact apart live same
  · by_cases same : b = s.freshHandle
    · rw [same, self] at live
      cases live
      cases entry
    · rw [other same] at live
      exact sound.entries b h l live still entry
  · by_cases same : b = s.freshHandle
    · exact Or.inr (Or.inr ⟨_, List.mem_cons_self, same.symm⟩)
    · rw [other same] at live
      refine (sound.free b h live still free).imp_right fun free => free.imp_right ?_
      rintro ⟨ctx, inside, named⟩
      exact ⟨ctx, List.mem_cons_of_mem _ inside, named⟩

theorem setStatus (sound : Sound s [] []) (l : Nat) (status : ContentStatus) :
    Sound (s.modifyEntry l fun e => { e with status := status }) [] [] := by
  have before : ∀ e' ∈ (s.modifyEntry l fun e => { e with status := status }).contentList,
      ∃ e ∈ s.contentList, e'.llcache = e.llcache ∧ e'.users = e.users := by
    intro e' listed
    obtain ⟨e, inside, rfl⟩ := mem_modifyEntry.mp listed
    refine ⟨e, inside, ?_⟩
    split_ifs <;> exact ⟨rfl, rfl⟩
  refine { sound with
    owned := fun k => ?_
    users := fun e' listed a user => ?_
    nodup := fun e' listed => ?_
    entries := fun a h k live still entry => ?_ }
  · rw [owners_modifyEntry (by simp)]
    exact sound.owned k
  · obtain ⟨e, inside, llcache, users⟩ := before e' listed
    rw [llcache]
    exact sound.users e inside a (users ▸ user)
  · obtain ⟨e, inside, -, users⟩ := before e' listed
    rw [users]
    exact sound.nodup e inside
  · obtain ⟨e, inside, rfl, user⟩ := sound.entries a h k live still entry
    refine ⟨_, mem_modifyEntry.mpr ⟨e, inside, rfl⟩, ?_⟩
    split_ifs <;> exact ⟨rfl, user⟩

/-- The low-level cache gives a handle another object. -/
theorem moveObject (sound : Sound s [] []) (l object : Nat) :
    Sound { s with
      objects := Function.update s.objects l ((s.objects l).map fun _ => object) } [] [] := by
  have same : ∀ k, (Function.update s.objects l ((s.objects l).map fun _ => object) k).isSome =
      (s.objects k).isSome := by
    intro k
    by_cases here : k = l
    · rw [here, Function.update_self, Option.isSome_map]
    · rw [Function.update_of_ne here]
  refine { sound with owned := fun k => ?_, llcacheBound := fun k beyond => ?_ }
  · rw [same k]
    exact sound.owned k
  · have nothing := same k
    rw [sound.llcacheBound k beyond] at nothing
    exact Option.isNone_iff_eq_none.mp (Option.isSome_eq_false_iff.mp nothing)

/-- A client releases the low-level handle of its download. -/
theorem endDownload (sound : Sound s [] []) (rest : AtRest s) (inside : l ∈ s.downloads) :
    ∃ s', s.step factory (.endDownload l) = some s' ∧ Sound s' [] [] ∧ AtRest s' := by
  have given : Sound { s with downloads := s.downloads.erase l } [] [l] := by
    refine { sound with owned := fun k => ?_ }
    have owned := sound.owned k
    have counted := List.count_pos_iff.mpr inside
    rw [Hlcache.owners, List.count_nil] at owned
    refine Eq.trans ?_ owned
    change (s.idle.map RetrievalCtx.llcache).count k + (s.contentList.map Entry.llcache).count k +
      (s.downloads.erase l).count k + [l].count k = _
    by_cases same : k = l
    · rw [same, List.count_erase_self, List.count_singleton_self]
      omega
    · have other : ¬(l == k) = true := by simpa using Ne.symm same
      rw [List.count_erase_of_ne same, List.count_singleton, if_neg other]
  obtain ⟨s', released, sound'⟩ := given.releaseLlcache
  have eq := releaseLlcache_eq released
  have counted := List.count_pos_iff.mpr inside
  have live : (s.objects l).isSome = true := by
    refine sound.isSome_of_owner ?_
    rw [Hlcache.owners]
    omega
  have first : s.releaseLlcache l = some _ := if_pos live
  refine ⟨s', ?_, sound', ?_⟩
  · rw [Hlcache.step, first, eq]
    rfl
  · rw [eq]
    exact rest

end Sound

/-- One permitted step of a sound cache is defined, and leaves the cache sound. -/
theorem step_sound (sound : Sound s [] []) (rest : AtRest s) (permits : Permitted factory s x) :
    ∃ s', s.step factory x = some s' ∧ Sound s' [] [] ∧ AtRest s' := by
  cases x with
  | retrieve object sniffType mayDownload acceptedTypes quirks =>
      exact ⟨_, rfl, sound.handleRetrieve rest object sniffType mayDownload acceptedTypes quirks⟩
  | event l event created react =>
      rw [Hlcache.step]
      cases found : s.retrievalCtxRing.find? fun ctx => ctx.llcache = l with
      | none => exact ⟨s, rfl, sound, rest⟩
      | some ctx =>
          obtain ⟨sniffs, patient⟩ := permits ctx found
          exact sound.llcacheCallback rest (List.mem_of_find?_eq_some found) sniffs patient
  | setStatus l status =>
      refine ⟨_, rfl, sound.setStatus l status, ?_⟩
      exact rest
  | broadcast l msg react =>
      rw [Hlcache.step]
      cases found : s.contentList.find? fun e => e.llcache = l with
      | none => exact ⟨s, rfl, sound, rest⟩
      | some e =>
          have inside := List.mem_of_find?_eq_some found
          refine sound.broadcast rest (sound.nodup e inside) fun a user => ?_
          obtain ⟨h, live, -⟩ := sound.users e inside a user
          exact ⟨h, live⟩
  | release a =>
      obtain ⟨h, live⟩ := Option.isSome_iff_exists.mp permits
      obtain ⟨s', released, sound'⟩ := sound.handleRelease live
      exact ⟨s', released, sound', rest.frame (frame_handleRelease released)⟩
  | abort a cloned =>
      obtain ⟨h, live⟩ := Option.isSome_iff_exists.mp permits
      obtain ⟨s', aborted, sound', -⟩ := sound.handleAbort live List.not_mem_nil cloned
      exact ⟨s', aborted, sound', rest.frame (frame_handleAbort aborted)⟩
  | clean forceClean => exact sound.clean rest forceClean (fun e => id) sound.entry_nodup
  | moveObject l object =>
      refine ⟨_, rfl, sound.moveObject l object, ?_⟩
      exact rest
  | endDownload l => exact sound.endDownload rest permits

/-- Every permitted run is defined, and ends in a sound cache. -/
theorem run_sound (sound : Sound s [] []) (rest : AtRest s) (permits : PermittedRun factory steps s) :
    ∃ s', Hlcache.run factory steps s = some s' ∧ Sound s' [] [] ∧ AtRest s' := by
  induction steps generalizing s with
  | nil => exact ⟨s, rfl, sound, rest⟩
  | cons x steps ih =>
      obtain ⟨permit, permits⟩ := permits
      obtain ⟨s₁, stepped, sound₁, rest₁⟩ := step_sound sound rest permit
      obtain ⟨s', run, sound', rest'⟩ := ih sound₁ rest₁ (permits s₁ stepped)
      refine ⟨s', ?_, sound', rest'⟩
      rw [Hlcache.run, stepped]
      exact run

theorem init_sound : Sound init [] [] where
  owned _ := rfl
  handleBound _ _ := rfl
  llcacheBound _ _ := rfl
  users := List.forall_mem_nil _
  nodup := List.forall_mem_nil _
  named := List.forall_mem_nil _
  distinct := List.nodup_nil
  entries _ _ _ live := by cases live
  free _ _ live := by cases live

namespace Sound

theorem idle_eq (rest : AtRest s) : s.idle = s.retrievalCtxRing :=
  List.filter_eq_self.mpr fun ctx inside => by simp [rest ctx inside]

/-- A handle that was released is nowhere. -/
theorem places_released (sound : Sound s [] []) (rest : AtRest s) (released : s.handles a = none) :
    s.places a = 0 := by
  have users : s.contentList.countP (fun e => a ∈ e.users) = 0 := by
    refine List.countP_eq_zero.mpr fun e inside user => ?_
    obtain ⟨h, live, -⟩ := sound.users e inside a (of_decide_eq_true user)
    rw [released] at live
    cases live
  have named : s.retrievalCtxRing.countP (fun ctx => ctx.handle = a) = 0 := by
    refine List.countP_eq_zero.mpr fun ctx inside same => ?_
    obtain ⟨h, live, -⟩ := sound.named ctx (idle_eq rest ▸ inside)
    rw [of_decide_eq_true same, released] at live
    cases live
  rw [Hlcache.places, users, named]

/-- A user of a content is in one place. -/
theorem places_entry (sound : Sound s [] []) (rest : AtRest s) (live : s.handles a = some h)
    (entry : h.entry = some l) : s.places a = 1 := by
  obtain ⟨e, inside, same, user⟩ := sound.entries a h l live List.not_mem_nil entry
  have users : s.contentList.countP (fun e => a ∈ e.users) = 1 := by
    have once := List.count_eq_one_of_mem sound.entry_nodup
      (List.mem_map_of_mem (f := Entry.llcache) inside)
    rw [← once, List.count, List.countP_map]
    refine List.countP_congr fun e' inside' => ?_
    simp only [decide_eq_true_eq, Function.comp_apply, beq_iff_eq]
    constructor
    · intro user'
      obtain ⟨h', live', entry'⟩ := sound.users e' inside' a user'
      rw [live] at live'
      cases live'
      rw [entry] at entry'
      exact (Option.some.inj entry').symm.trans same.symm
    · intro llcache
      exact sound.entry_unique inside' inside llcache ▸ user
  have named : s.retrievalCtxRing.countP (fun ctx => ctx.handle = a) = 0 := by
    refine List.countP_eq_zero.mpr fun ctx inside same => ?_
    obtain ⟨h', live', free⟩ := sound.named ctx (idle_eq rest ▸ inside)
    rw [of_decide_eq_true same, live] at live'
    cases live'
    rw [entry] at free
    cases free
  rw [Hlcache.places, users, named]

/-- A handle that a context names is in one place. -/
theorem places_ctx (sound : Sound s [] []) (rest : AtRest s) (inside : ctx ∈ s.retrievalCtxRing) :
    s.places ctx.handle = 1 := by
  obtain ⟨h, live, free⟩ := sound.named ctx (idle_eq rest ▸ inside)
  have users : s.contentList.countP (fun e => ctx.handle ∈ e.users) = 0 := by
    refine List.countP_eq_zero.mpr fun e inside user => ?_
    obtain ⟨h', live', entry⟩ := sound.users e inside ctx.handle (of_decide_eq_true user)
    rw [live] at live'
    cases live'
    rw [free] at entry
    cases entry
  have named : s.retrievalCtxRing.countP (fun other => other.handle = ctx.handle) = 1 := by
    have distinct := sound.distinct
    rw [idle_eq rest] at distinct
    have once := List.count_eq_one_of_mem distinct
      (List.mem_map_of_mem (f := RetrievalCtx.handle) inside)
    rw [← once, List.count, List.countP_map]
    refine List.countP_congr fun other _ => ?_
    simp
  rw [Hlcache.places, users, named]

end Sound

end Neosurf.Hlcaching
