/-
This file proves when a broadcast reaches the users of a content. The loop saves the next node
before it calls a user, so that the message gets lost where that node is freed meanwhile.
-/

import Mathlib.Data.List.Nodup
import Mathlib.Data.List.TakeWhile
import Neosurf.Construction.Content

namespace Neosurf.ContentUsers

open Contents (ContentMsg)

/-- The next call of a callback only removes users that are registered, and not the one whose node
the loop has saved. -/
def SparesNext (respond : Nat → List UserCall) (loop : Broadcast) : Prop :=
  ∀ user behind, usersFrom loop.user loop.users = user :: behind → user.callback ≠ 0 →
    ∃ after, runCalls (respond loop.received.length) loop.users = some after ∧
      ∀ next, pointerTo behind = some next → next ∉ after.2

/-- The callbacks spare the next node at every turn. -/
def Spared (message : Message) (respond : Nat → List UserCall) (users : Users) : Prop :=
  ∀ loop, Loop.Reached (broadcastTurn message respond) (.start users) loop →
    SparesNext respond loop

/-- The allocator does not reuse the addresses of these users. -/
def Fresh (respond : Nat → List UserCall) (users : Users) : Prop :=
  ∀ i a callback pw, .add (some a) callback pw ∈ respond i → a ∉ users.map ContentUser.node

/-- The loop ends without a read of a freed node, and every user that was there before and has not
been removed has received the message once. -/
def Delivers (send : Nat → Option Ending) (message : Message) (users : Users) : Prop :=
  ∃ loop, (∀ turns, users.length < turns → send turns = some (.finished loop)) ∧
    ∀ user ∈ users, user.callback ≠ 0 → user.node ∉ loop.freed →
      loop.received.filter (fun received => received.1 = user.node) = [(user.node, message)]

section Lists

variable {users before after : Users} {user : ContentUser} {behind : Users} {a : Nat}

theorem node_of_usersFrom (here : usersFrom (some a) users = user :: behind) : user.node = a := by
  have stops := List.head?_dropWhile_not (fun other : ContentUser => decide (other.node ≠ a)) users
  rw [usersFrom] at here
  rw [here] at stops
  simpa using stops

theorem usersFrom_suffix (pointer : Option Nat) (users : Users) :
    usersFrom pointer users <:+ users := by
  cases pointer with
  | none => exact List.nil_suffix
  | some a => exact List.dropWhile_suffix _

/-- The node that is saved is the one behind. -/
theorem usersFrom_next (distinct : (users.map ContentUser.node).Nodup)
    (here : usersFrom (some a) users = user :: behind) :
    usersFrom (pointerTo behind) users = behind := by
  obtain ⟨front, split⟩ := usersFrom_suffix (some a) users
  rw [here] at split
  subst split
  cases behind with
  | nil => rfl
  | cons next rest =>
      rw [List.append_cons, List.map_append, List.nodup_append] at distinct
      have passed : ∀ other ∈ front ++ [user], decide (other.node ≠ next.node) = true := by
        intro other member
        simp only [decide_eq_true_eq]
        exact distinct.2.2 _ (List.mem_map_of_mem member) _ (by simp)
      rw [List.append_cons, pointerTo, List.head?_cons, Option.map_some, usersFrom,
        List.dropWhile_append_of_pos passed, List.dropWhile_cons_of_neg (by simp)]

theorem usersFrom_eq_nil (gone : usersFrom (some a) users = []) : a ∉ users.map ContentUser.node := by
  intro member
  obtain ⟨other, here, rfl⟩ := List.mem_map.mp member
  rw [usersFrom, List.dropWhile_eq_nil_iff] at gone
  simpa using gone other here

theorem usersFrom_of_not_mem (gone : a ∉ users.map ContentUser.node) :
    usersFrom (some a) users = [] := by
  rw [usersFrom, List.dropWhile_eq_nil_iff]
  intro other member
  simp only [decide_eq_true_eq]
  rintro rfl
  exact gone (List.mem_map_of_mem member)

end Lists

/-- What calls leave of the users from a pointer on: some of them in the same order, the first one
among them, and all that are not freed. -/
structure Kept (pointer : Option Nat) (before after : Users) (freed : List Nat) : Prop where
  distinct : (after.map ContentUser.node).Nodup
  stays : ∀ a ∈ pointer, a ∈ after.map ContentUser.node
  sublist : (usersFrom pointer after).Sublist (usersFrom pointer before)
  left : ∀ user ∈ usersFrom pointer before, user ∈ usersFrom pointer after ∨ user.node ∈ freed

section Calls

variable {users before after later : Users} {pointer node : Option Nat} {callback pw : Nat}
  {freed more : List Nat}

theorem Kept.refl (distinct : (users.map ContentUser.node).Nodup)
    (registered : ∀ a ∈ pointer, a ∈ users.map ContentUser.node) : Kept pointer users users [] where
  distinct := distinct
  stays := registered
  sublist := List.Sublist.refl _
  left _ member := .inl member

theorem Kept.trans (first : Kept pointer before after freed) (second : Kept pointer after later more) :
    Kept pointer before later (freed ++ more) where
  distinct := second.distinct
  stays := second.stays
  sublist := second.sublist.trans first.sublist
  left user member := by
    rcases first.left user member with member | gone
    · rcases second.left user member with member | gone
      · exact .inl member
      · exact .inr (List.mem_append_right _ gone)
    · exact .inr (List.mem_append_left _ gone)

/-- A new user comes before all others. -/
theorem kept_contentAddUser (distinct : (users.map ContentUser.node).Nodup)
    (registered : ∀ a ∈ pointer, a ∈ users.map ContentUser.node) :
    Kept pointer users (contentAddUser node callback pw users) [] := by
  have unchanged := Kept.refl distinct registered
  cases node with
  | none => exact unchanged
  | some new =>
      rw [contentAddUser]
      split
      · exact unchanged
      · rename_i unused
        have same : usersFrom pointer (⟨new, callback, pw⟩ :: users) = usersFrom pointer users := by
          cases pointer with
          | none => rfl
          | some a =>
              have different : new ≠ a := by
                rintro rfl
                exact unused (registered new rfl)
              rw [usersFrom, usersFrom, List.dropWhile_cons_of_pos (by simpa using different)]
        constructor
        · exact List.nodup_cons.mpr ⟨unused, distinct⟩
        · exact fun a pointed => List.mem_cons_of_mem _ (registered a pointed)
        · rw [same]
        · rw [same]
          exact fun user member => .inl member

/-- One user is taken out of the list. -/
theorem contentRemoveUser_spec {gone : Nat}
    (removed : contentRemoveUser callback pw users = some (after, gone)) :
    ∃ front user behind, users = front ++ user :: behind ∧ after = front ++ behind ∧
      gone = user.node := by
  obtain ⟨user, found, result⟩ := Option.map_eq_some_iff.mp removed
  rw [Prod.mk.injEq] at result
  obtain ⟨rfl, rfl⟩ := result
  obtain ⟨matching, front, behind, rfl, others⟩ := List.find?_eq_some_iff_append.mp found
  refine ⟨front, user, behind, rfl, ?_, rfl⟩
  rw [List.eraseP_append_right _ (by simpa using others), List.eraseP_cons_of_pos matching]

theorem kept_contentRemoveUser {gone : Nat} (distinct : (users.map ContentUser.node).Nodup)
    (registered : ∀ a ∈ pointer, a ∈ users.map ContentUser.node)
    (removed : contentRemoveUser callback pw users = some (after, gone))
    (spared : ∀ a ∈ pointer, a ≠ gone) : Kept pointer users after [gone] := by
  obtain ⟨front, user, behind, rfl, rfl, rfl⟩ := contentRemoveUser_spec removed
  have distinct' : ((front ++ behind).map ContentUser.node).Nodup :=
    distinct.sublist (((List.sublist_cons_self user behind).append_left front).map _)
  cases pointer with
  | none => exact ⟨distinct', by simp, by simp [usersFrom], by simp [usersFrom]⟩
  | some a =>
      have other : a ≠ user.node := spared a rfl
      have pass : decide (user.node ≠ a) = true := by simpa using other.symm
      have stays : a ∈ (front ++ behind).map ContentUser.node := by
        have member := registered a rfl
        simp only [List.map_append, List.map_cons, List.mem_append, List.mem_cons] at member ⊢
        tauto
      by_cases passed : ∀ earlier ∈ front, decide (earlier.node ≠ a) = true
      · have before : usersFrom (some a) (front ++ user :: behind) = usersFrom (some a) behind := by
          rw [usersFrom, List.dropWhile_append_of_pos passed,
            List.dropWhile_cons_of_pos (by exact pass), usersFrom]
        have after : usersFrom (some a) (front ++ behind) = usersFrom (some a) behind := by
          rw [usersFrom, List.dropWhile_append_of_pos passed, usersFrom]
        refine ⟨distinct', by simpa using stays, ?_, ?_⟩
        · rw [before, after]
        · rw [before, after]
          exact fun other member => .inl member
      · have filled : (front.dropWhile fun other => decide (other.node ≠ a)).isEmpty = false := by
          rw [List.isEmpty_eq_false_iff, ne_eq, List.dropWhile_eq_nil_iff]
          exact passed
        have from_front : ∀ rest, usersFrom (some a) (front ++ rest) =
            usersFrom (some a) front ++ rest := by
          intro rest
          rw [usersFrom, usersFrom, List.dropWhile_append, filled]
          rfl
        refine ⟨distinct', by simpa using stays, ?_, ?_⟩
        · rw [from_front, from_front]
          exact (List.sublist_cons_self user behind).append_left _
        · rw [from_front, from_front]
          intro other member
          simp only [List.mem_append, List.mem_cons] at member ⊢
          rcases member with member | rfl | member
          · exact .inl (.inl member)
          · exact .inr (.inl rfl)
          · exact .inl (.inr member)

theorem kept_run {call : UserCall} (distinct : (users.map ContentUser.node).Nodup)
    (registered : ∀ a ∈ pointer, a ∈ users.map ContentUser.node)
    (ran : call.run users = some (after, freed)) (spared : ∀ a ∈ pointer, a ∉ freed) :
    Kept pointer users after freed := by
  cases call with
  | add node callback pw =>
      cases ran
      exact kept_contentAddUser distinct registered
  | remove callback pw =>
      obtain ⟨left, removed, result⟩ := Option.map_eq_some_iff.mp ran
      rw [Prod.mk.injEq] at result
      obtain ⟨rfl, rfl⟩ := result
      exact kept_contentRemoveUser distinct registered removed (by simpa using spared)

/-- Calls that free no node behind the pointer keep what the loop goes on with. -/
theorem kept_runCalls {calls : List UserCall} (distinct : (users.map ContentUser.node).Nodup)
    (registered : ∀ a ∈ pointer, a ∈ users.map ContentUser.node)
    (ran : runCalls calls users = some (after, freed)) (spared : ∀ a ∈ pointer, a ∉ freed) :
    Kept pointer users after freed := by
  induction calls generalizing users freed with
  | nil =>
      cases ran
      exact Kept.refl distinct registered
  | cons call rest ih =>
      obtain ⟨⟨middle, first⟩, ran_first, ran⟩ := Option.bind_eq_some_iff.mp ran
      obtain ⟨⟨final, second⟩, ran_second, ran⟩ := Option.bind_eq_some_iff.mp ran
      cases ran
      have kept := kept_run distinct registered ran_first fun a pointed gone =>
        spared a pointed (List.mem_append_left _ gone)
      exact kept.trans (ih kept.distinct kept.stays ran_second fun a pointed gone =>
        spared a pointed (List.mem_append_right _ gone))

end Calls

section Loop

variable {message : Message} {respond : Nat → List UserCall} {initial : Users} {loop : Broadcast}

/-- What holds at every turn: the loop goes on with users that were there from the start, and each
of the others has received the message or has been removed. -/
structure Underway (message : Message) (initial : Users) (loop : Broadcast) : Prop where
  distinct : (loop.users.map ContentUser.node).Nodup
  registered : ∀ a ∈ loop.user, a ∈ loop.users.map ContentUser.node
  ahead : (usersFrom loop.user loop.users).Sublist initial
  once : (loop.received.map Prod.fst).Nodup
  received : ∀ given ∈ loop.received, given.2 = message ∧
    given.1 ∉ (usersFrom loop.user loop.users).map ContentUser.node
  served : ∀ user ∈ initial, user.callback ≠ 0 → user ∈ usersFrom loop.user loop.users ∨
    user.node ∈ loop.freed ∨ user.node ∈ loop.received.map Prod.fst

theorem usersFrom_pointerTo {users : Users} : usersFrom (pointerTo users) users = users := by
  cases users with
  | nil => rfl
  | cons user behind =>
      rw [pointerTo, List.head?_cons, Option.map_some, usersFrom,
        List.dropWhile_cons_of_neg (by simp)]

theorem pointerTo_mem {users : Users} : ∀ a ∈ pointerTo users, a ∈ users.map ContentUser.node := by
  intro a pointed
  obtain ⟨user, first, rfl⟩ := Option.map_eq_some_iff.mp pointed
  exact List.mem_map_of_mem (List.mem_of_head? first)

theorem underway_start (distinct : (initial.map ContentUser.node).Nodup) :
    Underway message initial (.start initial) where
  distinct := distinct
  registered := pointerTo_mem
  ahead := by
    rw [Broadcast.start, usersFrom_pointerTo]
  once := List.nodup_nil
  received := by simp [Broadcast.start]
  served user member _ := by
    left
    rw [Broadcast.start, usersFrom_pointerTo]
    exact member

/-- The turn at a user with a callback, as long as the next node is spared. -/
theorem Underway.call {user : ContentUser} {behind after : Users} {freed : List Nat}
    (underway : Underway message initial loop)
    (here : usersFrom loop.user loop.users = user :: behind) {calls : List UserCall}
    (ran : runCalls calls loop.users = some (after, freed))
    (spared : ∀ next ∈ pointerTo behind, next ∉ freed) :
    Underway message initial ⟨pointerTo behind, after, loop.received ++ [(user.node, message)],
      loop.freed ++ freed⟩ := by
  obtain ⟨a, pointed⟩ : ∃ a, loop.user = some a := by
    cases pointed : loop.user with
    | none => simp [pointed, usersFrom] at here
    | some a => exact ⟨a, rfl⟩
  rw [pointed] at here
  have same := usersFrom_next underway.distinct here
  have suffix := usersFrom_suffix (some a) loop.users
  rw [here] at suffix
  have registered : ∀ next ∈ pointerTo behind, next ∈ loop.users.map ContentUser.node := by
    intro next pointed
    exact (suffix.map _).subset (List.mem_cons_of_mem _ (pointerTo_mem next pointed))
  have kept := kept_runCalls underway.distinct registered ran spared
  have ahead := underway.ahead
  have received := underway.received
  have served := underway.served
  rw [pointed, here] at ahead received served
  have sublist := kept.sublist
  have left := kept.left
  rw [same] at sublist left
  have once : user.node ∉ behind.map ContentUser.node := by
    have distinct := underway.distinct.sublist (suffix.sublist.map _)
    rw [List.map_cons, List.nodup_cons] at distinct
    exact distinct.1
  constructor
  · exact kept.distinct
  · exact kept.stays
  · exact sublist.trans ((List.sublist_cons_self user behind).trans ahead)
  · rw [List.map_append, List.nodup_append]
    refine ⟨underway.once, List.nodup_singleton _, ?_⟩
    rintro b earlier c last rfl
    obtain ⟨given, member, rfl⟩ := List.mem_map.mp earlier
    apply (received given member).2
    simp [List.mem_singleton.mp last]
  · intro given member
    rcases List.mem_append.mp member with member | member
    · refine ⟨(received given member).1, fun later => (received given member).2 ?_⟩
      exact List.mem_cons_of_mem _ ((sublist.map _).subset later)
    · rw [List.mem_singleton.mp member]
      exact ⟨rfl, fun later => once ((sublist.map _).subset later)⟩
  · intro other member called
    simp only [List.map_append, List.mem_append]
    rcases served other member called with member | gone | given
    · rcases List.mem_cons.mp member with rfl | member
      · simp
      · rcases left other member with member | gone
        · exact .inl member
        · exact .inr (.inl (.inr gone))
    · exact .inr (.inl (.inl gone))
    · exact .inr (.inr (.inl given))

/-- The turn at a user without a callback. -/
theorem Underway.skip {user : ContentUser} {behind : Users}
    (underway : Underway message initial loop)
    (here : usersFrom loop.user loop.users = user :: behind) (silent : user.callback = 0) :
    Underway message initial { loop with user := pointerTo behind } := by
  obtain ⟨a, pointed⟩ : ∃ a, loop.user = some a := by
    cases pointed : loop.user with
    | none => simp [pointed, usersFrom] at here
    | some a => exact ⟨a, rfl⟩
  rw [pointed] at here
  have same := usersFrom_next underway.distinct here
  have suffix := usersFrom_suffix (some a) loop.users
  rw [here] at suffix
  have ahead := underway.ahead
  have received := underway.received
  have served := underway.served
  rw [pointed, here] at ahead received served
  constructor
  · exact underway.distinct
  · intro next pointed
    exact (suffix.map _).subset (List.mem_cons_of_mem _ (pointerTo_mem next pointed))
  · rw [same]
    exact (List.sublist_cons_self user behind).trans ahead
  · exact underway.once
  · intro given member
    rw [same]
    exact ⟨(received given member).1, fun later =>
      (received given member).2 (List.mem_cons_of_mem _ later)⟩
  · intro other member called
    rw [same]
    rcases served other member called with member | gone | given
    · rcases List.mem_cons.mp member with rfl | member
      · exact absurd silent called
      · exact .inl member
    · exact .inr (.inl gone)
    · exact .inr (.inr given)

/-- A turn at a user ahead leads to a loop that has less ahead. -/
theorem Underway.turn (underway : Underway message initial loop) (spares : SparesNext respond loop)
    {next : Broadcast} (turn : broadcastTurn message respond loop = .inl next) :
    Underway message initial next ∧
      (usersFrom next.user next.users).length < (usersFrom loop.user loop.users).length := by
  rw [broadcastTurn] at turn
  cases pointed : loop.user with
  | none => simp [pointed] at turn
  | some a =>
      rw [pointed] at turn
      dsimp only at turn
      cases here : usersFrom (some a) loop.users with
      | nil => simp [here] at turn
      | cons user behind =>
          rw [here] at turn
          dsimp only at turn
          have here' : usersFrom loop.user loop.users = user :: behind := by rw [pointed, here]
          have same := usersFrom_next underway.distinct here
          split at turn
          · rename_i called
            obtain ⟨⟨after, freed⟩, ran, spared⟩ := spares user behind here' called
            rw [ran] at turn
            obtain rfl := Sum.inl.inj turn
            have node := node_of_usersFrom here
            rw [← node]
            have later := underway.call here' ran spared
            refine ⟨later, ?_⟩
            have kept := kept_runCalls underway.distinct (fun next pointed =>
              ((usersFrom_suffix (some a) loop.users).map _).subset
                (here ▸ List.mem_cons_of_mem _ (pointerTo_mem next pointed))) ran spared
            have shorter := kept.sublist.length_le
            rw [same] at shorter
            rw [List.length_cons]
            exact Nat.lt_succ_of_le shorter
          · rename_i silent
            obtain rfl := Sum.inl.inj turn
            refine ⟨underway.skip here' (not_not.mp silent), ?_⟩
            rw [same, List.length_cons]
            exact Nat.lt_succ_self _

/-- The loop only ends when no user is ahead. -/
theorem Underway.ends (underway : Underway message initial loop) (spares : SparesNext respond loop)
    {ending : Ending} (turn : broadcastTurn message respond loop = .inr ending) :
    ending = .finished loop ∧ loop.user = none := by
  rw [broadcastTurn] at turn
  cases pointed : loop.user with
  | none =>
      rw [pointed] at turn
      exact ⟨(Sum.inr.inj turn).symm, rfl⟩
  | some a =>
      rw [pointed] at turn
      dsimp only at turn
      cases here : usersFrom (some a) loop.users with
      | nil => exact absurd (underway.registered a pointed) (usersFrom_eq_nil here)
      | cons user behind =>
          rw [here] at turn
          dsimp only at turn
          split at turn
          · rename_i called
            obtain ⟨⟨after, freed⟩, ran, -⟩ := spares user behind (by rw [pointed, here]) called
            rw [ran] at turn
            cases turn
          · cases turn

/-- A user that has received the message has received it once. -/
theorem Underway.filter_received (underway : Underway message initial loop) {a : Nat}
    (given : a ∈ loop.received.map Prod.fst) :
    loop.received.filter (fun received => received.1 = a) = [(a, message)] := by
  obtain ⟨received, member, rfl⟩ := List.mem_map.mp given
  have same : received = (received.1, message) := by
    rw [← (underway.received received member).1]
  obtain ⟨earlier, later, split⟩ := List.append_of_mem member
  have once := underway.once
  rw [split, List.map_append, List.map_cons, List.nodup_middle, List.nodup_cons, List.mem_append,
    not_or] at once
  have others : ∀ list : List (Nat × Message), received.1 ∉ list.map Prod.fst →
      list.filter (fun other => other.1 = received.1) = [] := by
    intro list absent
    rw [List.filter_eq_nil_iff]
    intro other inside
    simp only [decide_eq_true_eq]
    intro equal
    exact absent (equal ▸ List.mem_map_of_mem inside)
  rw [split, List.filter_append, others earlier once.1.1, List.filter_cons_of_pos (by simp),
    others later once.1.2, List.nil_append, ← same]

theorem delivers_of_spared (distinct : (initial.map ContentUser.node).Nodup)
    (spared : Spared message respond initial) :
    Delivers (fun turns => broadcastLoop turns message respond initial) message initial := by
  have total : ∃ ending, Loop.run (broadcastTurn message respond) (initial.length + 1)
      (.start initial) = some ending ∧ ∃ loop, ending = .finished loop ∧ loop.user = none ∧
        Underway message initial loop := by
    have keeps : ∀ loop next : Broadcast, (Underway message initial loop ∧
        Loop.Reached (broadcastTurn message respond) (.start initial) loop) →
        broadcastTurn message respond loop = .inl next → (Underway message initial next ∧
          Loop.Reached (broadcastTurn message respond) (.start initial) next) ∧
          (usersFrom next.user next.users).length < (usersFrom loop.user loop.users).length := by
      intro loop next good turn
      obtain ⟨underway, less⟩ := good.1.turn (spared loop good.2) turn
      exact ⟨⟨underway, good.2.next turn⟩, less⟩
    apply Loop.run_total _ keeps
    · intro loop ending good turn
      obtain ⟨finished, last⟩ := good.1.ends (spared loop good.2) turn
      exact ⟨loop, finished, last, good.1⟩
    · exact ⟨underway_start distinct, .start⟩
    · rw [Broadcast.start, usersFrom_pointerTo]
      exact Nat.lt_succ_self _
  obtain ⟨_, run, loop, rfl, last, underway⟩ := total
  refine ⟨loop, fun turns enough => Loop.run_of_le run enough, ?_⟩
  intro user member called stayed
  have served := underway.served user member called
  rw [last] at served
  simp only [usersFrom, List.not_mem_nil, stayed, false_or] at served
  exact underway.filter_received served

/-- A node that is freed is not allocated, unless its address is reused. -/
theorem freed_of_runCalls {calls : List UserCall} {users after : Users} {freed : List Nat} {a : Nat}
    (fresh : ∀ callback pw, .add (some a) callback pw ∉ calls)
    (distinct : (users.map ContentUser.node).Nodup)
    (ran : runCalls calls users = some (after, freed))
    (gone : a ∈ freed ∨ a ∉ users.map ContentUser.node) : a ∉ after.map ContentUser.node := by
  induction calls generalizing users freed with
  | nil =>
      cases ran
      exact gone.resolve_left (List.not_mem_nil)
  | cons call rest ih =>
      obtain ⟨⟨middle, first⟩, ran_first, ran⟩ := Option.bind_eq_some_iff.mp ran
      obtain ⟨⟨final, second⟩, ran_second, ran⟩ := Option.bind_eq_some_iff.mp ran
      cases ran
      have kept : Kept none users middle first := kept_run distinct (by simp) ran_first (by simp)
      have later : ∀ callback pw, .add (some a) callback pw ∉ rest := fun callback pw member =>
        fresh callback pw (List.mem_cons_of_mem _ member)
      apply ih later kept.distinct ran_second
      by_cases freed_later : a ∈ second
      · exact .inl freed_later
      · right
        cases call with
        | add node callback pw =>
            cases ran_first
            have absent := gone.resolve_left (by simpa using freed_later)
            cases node with
            | none => exact absent
            | some new =>
                rw [contentAddUser]
                split
                · exact absent
                · rw [List.map_cons, List.mem_cons, not_or]
                  refine ⟨?_, absent⟩
                  rintro rfl
                  exact fresh callback pw List.mem_cons_self
        | remove callback pw =>
            obtain ⟨⟨left, node⟩, removed, result⟩ := Option.map_eq_some_iff.mp ran_first
            rw [Prod.mk.injEq] at result
            obtain ⟨rfl, rfl⟩ := result
            obtain ⟨front, user, behind, rfl, rfl, rfl⟩ := contentRemoveUser_spec removed
            rw [List.map_append, List.map_cons, List.nodup_middle, List.nodup_cons] at distinct
            rw [List.map_append]
            rcases gone with gone | absent
            · have here : a = user.node := by
                simpa [freed_later] using gone
              exact here ▸ distinct.1
            · intro member
              apply absent
              rw [List.map_append, List.map_cons]
              simp only [List.mem_append, List.mem_cons] at member ⊢
              tauto

/-- Where the loop finishes, its next turn has spared the next node. -/
theorem Underway.spares (underway : Underway message initial loop) (fresh : Fresh respond initial)
    {turns : Nat} {final : Broadcast}
    (finished : Loop.run (broadcastTurn message respond) turns loop = some (.finished final)) :
    SparesNext respond loop := by
  intro user behind here called
  obtain ⟨a, pointed⟩ : ∃ a, loop.user = some a := by
    cases pointed : loop.user with
    | none => simp [pointed, usersFrom] at here
    | some a => exact ⟨a, rfl⟩
  rw [pointed] at here
  obtain ⟨turns, rfl⟩ : ∃ later, turns = later + 1 := by
    cases turns with
    | zero => cases finished
    | succ later => exact ⟨later, rfl⟩
  cases ran : runCalls (respond loop.received.length) loop.users with
  | none =>
      have failed : broadcastTurn message respond loop = .inr .failedAssertion := by
        simp [broadcastTurn, pointed, here, called, ran]
      rw [Loop.run_of_result failed] at finished
      cases finished
  | some after =>
      refine ⟨after, rfl, fun next next_pointed gone => ?_⟩
      have turned : broadcastTurn message respond loop = .inl ⟨pointerTo behind, after.1,
          loop.received ++ [(a, message)], loop.freed ++ after.2⟩ := by
        simp [broadcastTurn, pointed, here, called, ran]
      rw [Loop.run_of_next turned] at finished
      have ahead : next ∈ initial.map ContentUser.node := by
        have sublist := underway.ahead
        rw [pointed, here] at sublist
        exact (sublist.map _).subset (List.mem_cons_of_mem _ (pointerTo_mem next next_pointed))
      have absent : next ∉ after.1.map ContentUser.node :=
        freed_of_runCalls (fun callback pw member => fresh _ next callback pw member ahead)
          underway.distinct ran (.inl gone)
      generalize at_next : (⟨pointerTo behind, after.1, loop.received ++ [(a, message)],
        loop.freed ++ after.2⟩ : Broadcast) = later at finished
      have wild : broadcastTurn message respond later = .inr (.readFreed later) := by
        subst at_next
        rw [broadcastTurn, next_pointed]
        dsimp only
        rw [usersFrom_of_not_mem absent]
      cases turns with
      | zero => cases finished
      | succ turns =>
          rw [Loop.run_of_result wild] at finished
          cases finished

theorem spared_of_delivers (distinct : (initial.map ContentUser.node).Nodup)
    (fresh : Fresh respond initial)
    (delivers : Delivers (fun turns => broadcastLoop turns message respond initial) message
      initial) : Spared message respond initial := by
  obtain ⟨final, finished, -⟩ := delivers
  have run := finished _ (Nat.lt_succ_self _)
  have both : ∀ loop, Loop.Reached (broadcastTurn message respond) (.start initial) loop →
      Underway message initial loop ∧ SparesNext respond loop := by
    intro loop reached
    have underway : Underway message initial loop := by
      induction reached with
      | start => exact underway_start distinct
      | next before turn ih =>
          obtain ⟨later, rest⟩ := Loop.run_of_reached before run
          exact (ih.turn (ih.spares fresh rest) turn).1
    obtain ⟨later, rest⟩ := Loop.run_of_reached reached run
    exact ⟨underway, underway.spares fresh rest⟩
  exact fun loop reached => (both loop reached).2

end Loop

/-- A broadcast reaches all users that stay if every call only removes users that are registered,
and not the one behind its own user. Otherwise it does not, unless an address is reused. -/
theorem broadcasts_deliver (respond : Nat → List UserCall) (users : Users) (msg : ContentMsg)
    (data : MsgData) (errorcode errormsg : Nat) (distinct : (users.map ContentUser.node).Nodup) :
    ((Spared ⟨msg, data⟩ respond users →
      Delivers (fun turns => contentBroadcast turns msg data respond users) ⟨msg, data⟩ users) ∧
    (Spared ⟨.error, .errordata errorcode errormsg⟩ respond users →
      Delivers (fun turns => contentBroadcastError turns errorcode errormsg respond users)
        ⟨.error, .errordata errorcode errormsg⟩ users)) ∧
    (Fresh respond users →
      (Delivers (fun turns => contentBroadcast turns msg data respond users) ⟨msg, data⟩ users ↔
        Spared ⟨msg, data⟩ respond users) ∧
      (Delivers (fun turns => contentBroadcastError turns errorcode errormsg respond users)
        ⟨.error, .errordata errorcode errormsg⟩ users ↔
        Spared ⟨.error, .errordata errorcode errormsg⟩ respond users)) :=
  ⟨⟨delivers_of_spared distinct, delivers_of_spared distinct⟩, fun fresh =>
    ⟨⟨spared_of_delivers distinct fresh, delivers_of_spared distinct⟩,
      spared_of_delivers distinct fresh, delivers_of_spared distinct⟩⟩

/-- Users that are added meanwhile disturb nobody. -/
theorem broadcasts_deliver_additions :
    Delivers (fun turns => contentBroadcast turns .ready (.given 0)
      (fun i => [.add (some (10 + i)) 5 i]) [⟨1, 5, 0⟩, ⟨2, 5, 1⟩]) ⟨.ready, .given 0⟩
      [⟨1, 5, 0⟩, ⟨2, 5, 1⟩] := by
  have deliver := broadcasts_deliver (fun i => [.add (some (10 + i)) 5 i]) [⟨1, 5, 0⟩, ⟨2, 5, 1⟩]
    .ready (.given 0) 0 0 (by decide)
  apply deliver.1.1
  intro loop _ user behind _ _
  exact ⟨_, rfl, fun next _ => List.not_mem_nil⟩

/-- A user whose callback removes the user behind it makes the loop read a node that is freed. -/
theorem broadcast_reads_freed :
    ¬ Delivers (fun turns => contentBroadcast turns .ready (.given 0) (fun _ => [.remove 5 1])
      [⟨1, 5, 0⟩, ⟨2, 5, 1⟩]) ⟨.ready, .given 0⟩ [⟨1, 5, 0⟩, ⟨2, 5, 1⟩] := by
  rintro ⟨loop, finished, -⟩
  have run := finished 3 (by decide)
  have wild : contentBroadcast 3 .ready (.given 0) (fun _ => [.remove 5 1])
      [⟨1, 5, 0⟩, ⟨2, 5, 1⟩] =
      some (.readFreed ⟨some 2, [⟨1, 5, 0⟩], [(1, ⟨.ready, .given 0⟩)], [2]⟩) := rfl
  cases wild.symm.trans run

end Neosurf.ContentUsers
