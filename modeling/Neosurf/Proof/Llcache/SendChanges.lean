import Neosurf.Proof.Llcache.CleanChanges
import Neosurf.Proof.Llcache.RetrieveChanges

namespace Neosurf.Llcache

open Cache

variable {rules : Rules} {out : Outside} {s s' : Cache} {id : ObjectId} {o : LlcacheObject}

/-- These acts neither stop a fetch nor change what its response is. -/
def Act.Plain : Act → Prop
  | .chain _ | .httpCode _ | .target _ _ | .queue _ | .read | .release | .stream | .invalidate
  | .length _ => True
  | _ => False

/-- These rules allow the plain acts, the end of every loop and every notification. -/
structure Lax (rules : Rules) : Prop where
  plain : ∀ id o act, act.Plain → rules.permits id o act
  done : ∀ s, rules.turns s none
  notifies : ∀ s notifying, rules.turns s (some (.notifying notifying))

theorem changes_done (lax : Lax rules) : Changes rules out s { s with task := none } :=
  Relation.ReflTransGen.single (Change.turn none (lax.done s))

/-- An act on a pointer that leads nowhere does nothing. -/
theorem changes_edit (act : Act) (enabled : ∀ o, s.find id = some o → act.Enabled out o)
    (permitted : ∀ o, s.find id = some o → rules.permits id o act) :
    Changes rules out s (s.modify id (act.apply out)) := by
  cases found : s.find id with
  | some o =>
      exact Relation.ReflTransGen.single
        (Change.edit act found (enabled o found) (permitted o found))
  | none =>
      have absent : id ∉ s.live.map Slot.id := by
        intro inside
        obtain ⟨o, here⟩ := find_isSome_iff.mpr inside
        rw [found] at here
        cases here
      have same : s.modify id (act.apply out) = s := by
        rw [live, List.map_append, List.mem_append, not_or] at absent
        unfold Cache.modify
        rw [map_modifySlot_of_notMem _ absent.1, map_modifySlot_of_notMem _ absent.2]
      rw [same]

/-- A plain act is always possible. -/
theorem changes_plain (lax : Lax rules) (act : Act)
    (isPlain : act.Plain) (enabled : ∀ o, s.find id = some o → act.Enabled out o) :
    Changes rules out s (s.modify id (act.apply out)) :=
  changes_edit act enabled fun o _ => lax.plain id o act isPlain

/-- The end of a fetch event may abort the fetch after an error. -/
theorem fetchDone_changes {error : Nserror} (tidy : Tidy s)
    (lax : Lax rules)
    (aborts : error ≠ .ok → ∀ s₁ o, Changes rules out s s₁ → s₁.find id = some o →
      o.fetch.fetch ≠ none → rules.permits id o .abort)
    (done : s.fetchDone out id error = some s') : Changes rules out s s' := by
  unfold fetchDone at done
  dsimp only at done
  have first : Changes rules out s { s with task := none } := changes_done lax
  split at done
  · cases done
    exact first
  · rename_i failed
    have cleaned : Changes rules out s
        (if error = .nomem then Cache.clean out true { s with task := none }
          else { s with task := none }) := by
      split
      · exact first.trans
          (clean_changes (fun id o => lax.plain id o .release trivial) true (first.tidy tidy))
      · exact first
    split at done
    · cases done
    · rename_i o found
      split at done
      · cases done
        exact cleaned
      · rename_i running
        cases done
        exact cleaned.tail (Change.edit .abort found trivial (aborts failed _ o cleaned found running))

/-- An error does not abort the fetch of an object without one. -/
theorem fetchDone_still {error : Nserror} (tidy : Tidy s)
    (lax : Lax rules)
    (still : ∀ o, s.find id = some o → o.fetch.fetch = none) (old : id < s.nextObject)
    (done : s.fetchDone out id error = some s') : Changes rules out s s' := by
  refine fetchDone_changes tidy lax (fun _ s₁ o changes found running => ?_) done
  obtain ⟨before, here, later⟩ := changes.later tidy old found
  exact absurd (later.fetch (still before here)) running

theorem fetchDone_ok (lax : Lax rules) (done : s.fetchDone out id .ok = some s') : Changes rules out s s' := by
  cases done
  exact changes_done lax

/-- A candidate is released, if there is one, and its object stays as it is. -/
theorem releaseCandidate_changes (found : s.find id = some o)
    (done : s.releaseCandidate id = some s') : Changes rules out s s' ∧
      ∃ count, s'.find id = some { o with candidate := none, candidateCount := count } := by
  unfold Cache.releaseCandidate at done
  rw [found, Option.bind_some] at done
  cases points : o.candidate with
  | none =>
      rw [points] at done
      cases done
      refine ⟨Relation.ReflTransGen.refl, o.candidateCount, ?_⟩
      rw [found, ← points]
  | some candidate =>
      rw [points] at done
      dsimp only at done
      split at done
      · cases done
      · rename_i present
        cases done
        refine ⟨Relation.ReflTransGen.single (Change.releaseCandidate found points present), ?_⟩
        rw [find_modify, find_modify, found]
        by_cases self : id = candidate
        · exact ⟨o.candidateCount - 1, by simp [self, dropCandidate, recount]⟩
        · exact ⟨o.candidateCount, by simp [self, dropCandidate]⟩

/-- The same rules, but no user moves. -/
def Rules.still (rules : Rules) : Rules :=
  { rules with lands := fun _ _ _ => False, clients := False }

theorem Changes.of_still (changes : Changes rules.still out s s') : Changes rules out s s' := by
  induction changes with
  | refl => exact Relation.ReflTransGen.refl
  | tail _ change ih =>
      exact ih.tail (change.mono (fun _ _ _ permitted => permitted) (fun _ asked => asked)
        (fun _ _ _ never => never.elim) (fun never => never.elim) fun _ _ turned => turned)

/-- What a redirect goes to: an object at rest, one that it opened, or the newest one of its
target as it was. -/
def Target (s : Cache) (pending : Pending) (o o' : LlcacheObject) : Prop :=
  o'.fetch.fetch = none ∨ o'.fetch.redirectCount = o.fetch.redirectCount + 1 ∨
    ∃ found, newest (Nsurl.defragment pending.target) s.cachedObjects = some found ∧
      o'.fetch = found.object.fetch

/-- A redirect is followed to the object that its target is retrieved as. -/
theorem followRedirect_changes {pending : Pending} (tidy : Tidy s)
    (lax : Lax rules)
    (asked : ∀ retrieval, retrieval.url = Nsurl.defragment pending.target →
      retrieval.hstsInUse = pending.hstsInUse → rules.asks retrieval)
    (aborts : ∀ s₁ o, Changes rules out s s₁ → s₁.find id = some o → o.fetch.fetch ≠ none →
      rules.permits id o .abort)
    (lands : ∀ before o o', s.find id = some before → Later before o →
      (before.users = [] → o.users = []) → Target s pending before o' → rules.lands o o' 1)
    (done : s.followRedirect out id pending = some s') : Changes rules out s s' := by
  unfold followRedirect at done
  split at done
  · cases done
  rename_i before found
  have old : id < s.nextObject := tidy.fresh _ (mem_of_find found)
  split at done
  · exact fetchDone_ok lax done
  split at done
  · exact fetchDone_ok lax done
  split at done
  · exact fetchDone_ok lax done
  rename_i post _
  dsimp only at done
  split at done
  · cases done
  · rename_i s₁ error retrieved
    have quiet := (@retrieve_changes rules.still out _ _ _ _ tidy
      (fun id o => lax.plain id o .read trivial) (asked _ rfl rfl) retrieved).1.of_still
    exact quiet.trans (fetchDone_changes (quiet.tidy tidy) lax
      (fun _ s₂ o later => aborts s₂ o (quiet.trans later)) done)
  · rename_i s₁ dest retrieved
    obtain ⟨changes, answers⟩ := @retrieve_changes rules.still out _ _ _ _ tidy
      (fun id o => lax.plain id o .read trivial) (asked _ rfl rfl) retrieved
    obtain ⟨o', present, readable, target⟩ := answers dest rfl
    refine changes.of_still.trans ?_
    refine Relation.ReflTransGen.trans ?_ (fetchDone_ok lax done)
    cases here : s₁.find id with
    | none =>
        unfold moveUsers
        rw [here]
    | some o =>
        obtain ⟨same, there, later⟩ := changes.later tidy old here
        obtain ⟨same', there', pointers⟩ := Changes.steady changes tidy
          (pointers_steady id (fun never => never) fun _ _ _ never => never) old here
        rw [found] at there there'
        cases there
        cases there'
        refine Relation.ReflTransGen.single
          (Change.move 1 here present (Or.inl readable) (lands before o o' found later ?_ target))
        intro empty
        rw [empty] at pointers
        exact List.map_eq_nil_iff.mp pointers

/-- What a redirect may do when its event has been sent. -/
structure Follows (rules : Rules) (out : Outside) (s : Cache) (id : ObjectId) (pending : Pending) :
    Prop where
  asked : ∀ retrieval, retrieval.url = Nsurl.defragment pending.target →
    retrieval.hstsInUse = pending.hstsInUse → rules.asks retrieval
  lands : ∀ before o o', s.find id = some before → Later before o →
    (before.users = [] → o.users = []) → Target s pending before o' → rules.lands o o' 1

/-- The handler of an event goes on when all callbacks have returned, or one has failed. -/
theorem afterSending_changes {pending : Option Pending} {error : Nserror} (tidy : Tidy s)
    (lax : Lax rules)
    (follows : error = .ok → ∀ p, pending = some p → Follows rules out s id p)
    (aborts : error ≠ .ok ∨ pending ≠ none → ∀ s₁ o, Changes rules out s s₁ →
      s₁.find id = some o → o.fetch.fetch ≠ none → rules.permits id o .abort)
    (done : s.afterSending out id pending error = some s') : Changes rules out s s' := by
  unfold afterSending at done
  split at done
  · exact fetchDone_changes tidy lax (fun failed => aborts (Or.inl failed)) done
  · rename_i p
    split at done
    · exact fetchDone_changes tidy lax (fun failed => aborts (Or.inl failed)) done
    · rename_i ok
      have calm : Changes rules out s { s with task := none } := changes_done lax
      obtain ⟨asked, lands⟩ := follows (not_not.mp ok) p rfl
      exact calm.trans (followRedirect_changes (calm.tidy tidy) lax asked
        (fun s₁ o later => aborts (Or.inr nofun) s₁ o (calm.trans later)) lands done)

/-- The next user is called, or the handler goes on. -/
theorem sendTo_changes {event : Event} {pending : Option Pending} {user : Option ObjectUser}
    (tidy : Tidy s) (lax : Lax rules)
    (follows : user = none → ∀ p, pending = some p → Follows rules out s id p)
    (aborts : user = none → pending ≠ none → ∀ s₁ o, Changes rules out s s₁ →
      s₁.find id = some o → o.fetch.fetch ≠ none → rules.permits id o .abort)
    (turned : ∀ s₁ user wasTarget, Changes rules out s s₁ →
      rules.turns s₁ (some (.sending { object := id, event, user, wasTarget, pending })))
    (done : s.sendTo out id event pending user = some s') : Changes rules out s s' := by
  unfold sendTo at done
  split at done
  · exact afterSending_changes tidy lax (fun _ => follows rfl)
      (fun some => aborts rfl (some.resolve_left fun never => never rfl)) done
  · rename_i user
    cases done
    have called : Changes rules out s (s.modify id (changeUser user.handle (setTarget true))) :=
      changes_plain lax (.target user.handle true) trivial fun _ _ => trivial
    exact called.tail (Change.turn _ (turned _ user.handle user.iteratorTarget called))

/-- An event without a redirect changes nothing else. -/
theorem sendEvent_changes {event : Event} (tidy : Tidy s) (lax : Lax rules)
    (turned : ∀ s₁ user wasTarget, Changes rules out s s₁ →
      rules.turns s₁ (some (.sending { object := id, event, user, wasTarget, pending := none })))
    (done : s.sendEvent out id event none = some s') : Changes rules out s s' := by
  unfold sendEvent at done
  split at done
  · cases done
  · exact sendTo_changes tidy lax (fun _ _ none => by cases none)
      (fun _ never => absurd rfl never) turned done

/-- The same fetches answer a retrieval. -/
def SameNewest (s s' : Cache) : Prop :=
  ∀ url, (newest url s'.cachedObjects).map (fun slot => slot.object.fetch) =
    (newest url s.cachedObjects).map fun slot => slot.object.fetch

/-- Changes that keep the URL and the request time keep which object is the newest. -/
theorem newest_map {url : Nsurl} {change : Slot → Slot} (list : List Slot)
    (kept : ∀ slot, (change slot).object.url = slot.object.url ∧
      (change slot).object.cache = slot.object.cache) :
    newest url (list.map change) = (newest url list).map change := by
  have step (list : List Slot) (best : Option Slot) :
      (list.map change).foldl (newer url) (best.map change) =
        (list.foldl (newer url) best).map change := by
    induction list generalizing best with
    | nil => rfl
    | cons slot rest ih =>
        have head : newer url (best.map change) (change slot) = (newer url best slot).map change := by
          obtain ⟨sameUrl, sameCache⟩ := kept slot
          unfold newer
          cases best with
          | none =>
              dsimp only [Option.map_none]
              rw [sameUrl]
              split <;> rfl
          | some best =>
              dsimp only [Option.map_some]
              rw [sameUrl, sameCache, (kept best).2]
              split <;> rfl
        rw [List.map_cons, List.foldl_cons, List.foldl_cons, head, ih]
  exact step list none

theorem sameNewest_users {s₁ : Cache} (change : LlcacheObject → LlcacheObject)
    (list : s₁.cachedObjects = s.cachedObjects.map (modifySlot id change))
    (kept : ∀ o, (change o).url = o.url ∧ (change o).cache = o.cache ∧ (change o).fetch = o.fetch) :
    SameNewest s s₁ := by
  have same (slot : Slot) : (modifySlot id change slot).object.url = slot.object.url ∧
      (modifySlot id change slot).object.cache = slot.object.cache ∧
      (modifySlot id change slot).object.fetch = slot.object.fetch := by
    unfold modifySlot
    split
    · exact kept slot.object
    · exact ⟨rfl, rfl, rfl⟩
  intro url
  rw [list, newest_map _ fun slot => ⟨(same slot).1, (same slot).2.1⟩, Option.map_map]
  congr 1
  funext slot
  exact (same slot).2.2

theorem SameNewest.trans {s₁ s₂ : Cache} (first : SameNewest s s₁) (second : SameNewest s₁ s₂) :
    SameNewest s s₂ := fun url => (second url).trans (first url)

theorem sameNewest_dropUser (now : Int) (id : ObjectId) (user : ObjectUser) :
    SameNewest s (s.dropUser now id user) := by
  refine @sameNewest_users s id _ (removeUser now user) ?_ fun _ => ⟨rfl, rfl, rfl⟩
  unfold dropUser
  split <;> rfl

/-- A callback of an event returns. -/
theorem sendingReturns_changes {sending : Sending} {answer : Nserror} (tidy : Tidy s)
    (lax : Lax rules) (clients : rules.clients)
    (follows : ∀ object p s₁, s.find sending.object = some object → sending.pending = some p →
      Changes rules out s s₁ → SameNewest s s₁ → Follows rules out s₁ sending.object p)
    (aborts : ∀ object, s.find sending.object = some object →
      answer ≠ .ok ∨ sending.pending ≠ none → ∀ s₁ o, Changes rules out s s₁ →
      s₁.find sending.object = some o → o.fetch.fetch ≠ none →
      rules.permits sending.object o .abort)
    (turned : ∀ object, s.find sending.object = some object → ∀ s₁ user wasTarget,
      Changes rules out s s₁ → rules.turns s₁ (some (.sending { sending with user, wasTarget })))
    (done : s.sendingReturns out sending answer = some s') : Changes rules out s s' := by
  unfold sendingReturns at done
  dsimp only at done
  split at done
  · cases done
  rename_i object user looked
  obtain ⟨_, found, -⟩ := Option.bind_eq_some_iff.mp looked
  have called : Changes rules out s
      (s.modify sending.object (changeUser user.handle (setTarget sending.wasTarget))) :=
    changes_plain lax (.target user.handle sending.wasTarget) trivial fun _ _ => trivial
  obtain ⟨s₁, shape⟩ : ∃ s₁, s₁ = (if user.queuedForDelete = true ∧ sending.wasTarget = false then
      (s.modify sending.object (changeUser user.handle (setTarget sending.wasTarget))).dropUser
        out.clock.now sending.object user
    else s.modify sending.object (changeUser user.handle (setTarget sending.wasTarget))) := ⟨_, rfl⟩
  rw [← shape] at done
  have changes : Changes rules out s s₁ := by
    rw [shape]
    split
    · exact called.tail (Change.leave sending.object user clients)
    · exact called
  have newest : SameNewest s s₁ := by
    have first : SameNewest s
        (s.modify sending.object (changeUser user.handle (setTarget sending.wasTarget))) :=
      sameNewest_users _ rfl fun _ => ⟨rfl, rfl, rfl⟩
    rw [shape]
    split
    · exact first.trans (sameNewest_dropUser _ _ _)
    · exact first
  split at done
  · rename_i failed
    exact changes.trans (afterSending_changes (changes.tidy tidy) lax
      (fun ok => absurd ok failed)
      (fun why s₂ o later => aborts _ found (why.imp_left fun _ => failed) s₂ o
        (changes.trans later)) done)
  · exact changes.trans (sendTo_changes (changes.tidy tidy) lax
      (fun _ p pending => follows _ p s₁ found pending changes newest)
      (fun _ why s₂ o later => aborts _ found (Or.inr why) s₂ o (changes.trans later))
      (fun s₂ called was later => turned _ found s₂ called was (changes.trans later)) done)

/-- A fetch of an object with one starts again. -/
theorem refetchObject_changes {change : LlcacheObject → LlcacheObject} {act : Act}
    (tidy : Tidy s) (lax : Lax rules)
    (found : s.find id = some o) (enabled : act.Enabled out o) (permitted : rules.permits id o act)
    (same : act.apply out = fun o => (refetch out (change o)).2)
    (aborts : (refetch out (change o)).1 ≠ .ok → ∀ s₁ o₁, Changes rules out s s₁ →
      s₁.find id = some o₁ → o₁.fetch.fetch ≠ none → rules.permits id o₁ .abort)
    (done : s.refetchObject out id change o = some s') : Changes rules out s s' := by
  unfold refetchObject at done
  rw [← same] at done
  have edit : Changes rules out s (s.modify id (act.apply out)) :=
    Relation.ReflTransGen.single (Change.edit act found enabled permitted)
  exact edit.trans (fetchDone_changes (edit.tidy tidy) lax
    (fun failed s₁ o₁ later => aborts failed s₁ o₁ (edit.trans later)) done)

end Neosurf.Llcache
