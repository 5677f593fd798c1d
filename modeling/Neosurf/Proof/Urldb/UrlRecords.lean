import Neosurf.Construction.Urldb.UrlFile
import Neosurf.Proof.Urldb.Notes
import Neosurf.Proof.Urldb.Stowed

namespace Neosurf.Urldb

open SiblingTree

variable {scheme : LwcString} {port : Nat}

/-- A node has this key. -/
def PathData.isKey (key : LwcString × Nat × Bytes) (d : PathData) : Bool := d.key == key

theorem isAt_eq_isKey (scheme : LwcString) (port : Nat) (segment : Bytes) :
    PathData.isAt scheme port segment = PathData.isKey (scheme, port, segment) := by
  funext d
  rw [Bool.eq_iff_iff, isAt_iff, PathData.isKey, beq_iff_eq, PathData.key]
  simp only [Prod.mk.injEq, eq_comm]
  tauto

theorem isKey_agree (k k' : LwcString × Nat × Bytes) (d e : PathData) (first : d.isKey k = true)
    (second : e.isKey k = true) : d.isKey k' = e.isKey k' := by
  rw [PathData.isKey, beq_iff_eq] at first second
  rw [PathData.isKey, PathData.isKey, first, second]

theorem isKey_of_key {change : PathData → PathData} (kept : ∀ d, (change d).key = d.key)
    (key : LwcString × Nat × Bytes) (d : PathData) : (change d).isKey key = d.isKey key := by
  rw [PathData.isKey, PathData.isKey, kept]

theorem keys_of_forall₂ {keys : List (LwcString × Nat × Bytes)} {walked : List PathData}
    (along : List.Forall₂ (fun key d => PathData.isKey key d = true) keys walked) :
    keys = walked.map PathData.key := by
  induction along with
  | nil => rfl
  | cons passed rest ih => rw [List.map_cons, ← ih, beq_iff_eq.mp passed]

/-- What is seen of the node at the end of these keys, and of a missing node. -/
def Paths.view {β : Type} (view : PathData → β) (missing : β)
    (keys : List (LwcString × Nat × Bytes)) (t : Paths) : β :=
  t.seenAt PathData.isKey view missing keys

namespace Paths

variable {β : Type} {view : PathData → β} {missing : β} {change : PathData → PathData}

/-- A path is added by the keys of its nodes. -/
theorem addPath_eq (path : List Bytes) (t : Paths) : addPath scheme port change path t =
    t.extend PathData.isKey (fun key => ensure key.1 key.2.1 key.2.2) change
      (path.map fun segment => (scheme, port, segment)) := by
  rw [← extend_map, addPath]
  congr
  funext segment
  exact isAt_eq_isKey scheme port segment

theorem extend_isAt_eq (path : List Bytes) (t : Paths) :
    t.extend (PathData.isAt scheme port) (fun _ t => t) change path =
      t.extend PathData.isKey (fun _ t => t) change
        (path.map fun segment => (scheme, port, segment)) := by
  rw [← extend_map]
  congr
  funext segment
  exact isAt_eq_isKey scheme port segment

theorem walk_isAt_eq (path : List Bytes) (t : Paths) : t.walk (PathData.isAt scheme port) path =
    t.walk PathData.isKey (path.map fun segment => (scheme, port, segment)) := by
  rw [← walk_map]
  congr
  funext segment
  exact isAt_eq_isKey scheme port segment

theorem first_ensure_fresh {k k' : LwcString × Nat × Bytes} {t children : Paths} {d : PathData}
    (absent : t.first (PathData.isKey k') = none)
    (found : (ensure k.1 k.2.1 k.2.2 t).first (PathData.isKey k') = some (d, children)) :
    (∃ scheme port segment, d = { scheme, port, segment }) ∧ children = .nil := by
  rw [ensure] at found
  split at found
  · rw [absent] at found
    cases found
  · cases passed : PathData.isKey k' { scheme := k.1, port := k.2.1, segment := k.2.2 } with
    | true =>
        rw [first_addNode_self passed absent] at found
        cases found
        exact ⟨⟨_, _, _, rfl⟩, rfl⟩
    | false =>
        rw [first_addNode passed, absent] at found
        cases found

theorem first_ensure_kept {k k' : LwcString × Nat × Bytes} {t : Paths} {p : PathData × Paths}
    (found : t.first (PathData.isKey k') = some p) :
    (ensure k.1 k.2.1 k.2.2 t).first (PathData.isKey k') = some p := by
  obtain ⟨scheme', port', segment'⟩ := k'
  rw [← isAt_eq_isKey] at found ⊢
  exact first_ensure_of_first found

/-- A new path shows nothing, when new nodes look like missing ones. -/
theorem view_addPath_id (fresh : ∀ scheme port segment, view { scheme, port, segment } = missing)
    (path : List Bytes) (others : List (LwcString × Nat × Bytes)) (t : Paths) :
    (addPath scheme port id path t).view view missing others = t.view view missing others := by
  rw [addPath_eq]
  apply seenAt_ensured (fun d => ∃ scheme port segment, d = ({ scheme, port, segment } : PathData))
    isKey_agree (fun _ _ _ _ => first_ensure_kept) (fun _ _ _ _ _ => first_ensure_fresh)
  rintro d ⟨scheme, port, segment, rfl⟩
  exact fresh scheme port segment

/-- A change of the node at the end of a path is seen there only. -/
theorem view_changed (seen : β → β) (kept : ∀ d, (change d).key = d.key)
    (viewed : ∀ d, view (change d) = seen (view d)) {path : List Bytes} {t : Paths}
    {above : List PathData} {d : PathData}
    (present : t.walk (PathData.isAt scheme port) path = some (above ++ [d]))
    (others : List (LwcString × Nat × Bytes)) :
    Paths.view view missing others
        (t.extend (PathData.isAt scheme port) (fun _ t => t) change path) =
      if others = path.map (fun segment => (scheme, port, segment)) then
        seen (t.view view missing others)
      else t.view view missing others := by
  rw [walk_isAt_eq] at present
  rw [extend_isAt_eq]
  by_cases same : others = path.map fun segment => (scheme, port, segment)
  · rw [if_pos same, same, Paths.view, Paths.view, seenAt_of_walk present, ← viewed]
    exact seenAt_changed_self isKey_agree (isKey_of_key kept) present
  · rw [if_neg same]
    apply seenAt_changed_other isKey_agree (isKey_of_key kept)
    intro walked found along
    exact same ((keys_of_forall₂ (forall₂_walk found)).trans (keys_of_forall₂ along).symm)

/-- A path that is added is seen at its end only, when new nodes look like missing ones. -/
theorem view_addPath (fresh : ∀ scheme port segment, view { scheme, port, segment } = missing)
    (seen : β → β) (kept : ∀ d, (change d).key = d.key)
    (viewed : ∀ d, view (change d) = seen (view d)) (segment : Bytes) (rest : List Bytes)
    (others : List (LwcString × Nat × Bytes)) (t : Paths) :
    (addPath scheme port change (segment :: rest) t).view view missing others =
      if others = (segment :: rest).map (fun segment => (scheme, port, segment)) then
        seen (t.view view missing others)
      else t.view view missing others := by
  obtain ⟨nodes, d, present, _⟩ := @walk_addPath_self scheme port id t segment rest fun _ _ => rfl
  have first : addPath scheme port change (segment :: rest) t =
      (addPath scheme port id (segment :: rest) t).extend (PathData.isAt scheme port)
        (fun _ t => t) change (segment :: rest) :=
    extend_eq_changed _ t
  rw [first, view_changed seen kept viewed present, view_addPath_id fresh]

end Paths

/-- The URL and the data of the node at a place, where a missing node has no URL and no data. -/
def Database.seen (db : Database) (place : NodePlace) : Option Nsurl × UrlData :=
  Paths.view (fun d => (d.url, d.urld)) (none, {}) place.keys
    (db.hosts.view HostData.paths .nil place.parts)

variable {env : Environment} {db : Database}

theorem seen_addHost (host : Bytes) (place : NodePlace) :
    (addHost env db host).seen place = db.seen place := by
  unfold addHost
  dsimp only
  split
  · rfl
  · have same : ((db.hosts.add (hostParts env host)).view HostData.paths .nil place.parts) =
        db.hosts.view HostData.paths .nil place.parts := Hosts.view_add (fun _ => rfl) _ _ _
    rw [Database.seen, Database.seen, ← same]
    rfl

theorem seen_loadHsts (host : Bytes) (hsts : HstsData) (place : NodePlace) :
    (loadHsts env db host hsts).seen place = db.seen place := by
  have same : (loadHsts env db host hsts).hosts.view HostData.paths .nil place.parts =
      db.hosts.view HostData.paths .nil place.parts := by
    apply Hosts.view_modifyAt_kept
    · intro h
      rfl
    · intro h
      rfl
  rw [Database.seen, Database.seen, same]

/-- This is the place of a path below a host. -/
def NodePlace.isAt (parts : List Bytes) (scheme : LwcString) (port : Nat) (path : Bytes)
    (place : NodePlace) : Prop :=
  place.parts.map folded = parts.map folded ∧
    place.keys = (segments path).map fun segment => (scheme, port, segment)

instance (parts : List Bytes) (scheme : LwcString) (port : Nat) (path : Bytes) (place : NodePlace) :
    Decidable (place.isAt parts scheme port path) :=
  inferInstanceAs (Decidable (_ ∧ _))

/-- What a path that is added and changed below a host shows. -/
theorem seen_updateUrlData {parts : List Bytes} {path : Bytes} {url : Nsurl}
    {change : UrlData → UrlData} {above : List HostData} {h : HostData}
    (present : db.hosts.walk parts = some (above ++ [h])) (place : NodePlace) :
    (updateUrlData parts scheme port path change
      (addPath parts scheme port path (setUrl url) db)).seen place =
        if place.isAt parts scheme port path then
          (some ((db.seen place).1.getD (Nsurl.defragment url)), change (db.seen place).2)
        else db.seen place := by
  obtain ⟨segment, rest, way⟩ := segments_eq path
  have added : (addPath parts scheme port path (setUrl url) db).hosts.view HostData.paths .nil
      place.parts = if place.parts.map folded = parts.map folded then
        Paths.addPath scheme port (setUrl url) (segments path)
          (db.hosts.view HostData.paths .nil place.parts)
      else db.hosts.view HostData.paths .nil place.parts := by
    apply Hosts.view_modifyAt (Paths.addPath scheme port (setUrl url) (segments path)) _ _ present
    · intro h
      rfl
    · intro h
      rfl
  have updated : (updateUrlData parts scheme port path change
      (addPath parts scheme port path (setUrl url) db)).hosts.view HostData.paths .nil place.parts =
        if place.parts.map folded = parts.map folded then
          SiblingTree.extend (PathData.isAt scheme port) (fun _ t => t)
            (fun d => { d with urld := change d.urld }) (segments path)
            ((addPath parts scheme port path (setUrl url) db).hosts.view HostData.paths .nil
              place.parts)
        else (addPath parts scheme port path (setUrl url) db).hosts.view HostData.paths .nil
          place.parts := by
    apply Hosts.view_modifyAt (SiblingTree.extend (PathData.isAt scheme port) (fun _ t => t)
      (fun d => { d with urld := change d.urld }) (segments path)) _ _ (walk_addPath_self present)
    · intro h
      rfl
    · intro h
      rfl
  rw [Database.seen, updated, added]
  simp only [NodePlace.isAt]
  by_cases host : place.parts.map folded = parts.map folded
  · simp only [host, if_true, true_and]
    generalize tree : db.hosts.view HostData.paths .nil place.parts = t
    obtain ⟨nodes, d, walked, _⟩ := @Paths.walk_addPath_self scheme port (setUrl url) t segment rest
      (isAt_setUrl url scheme port)
    have inner : Paths.view (fun d => (d.url, d.urld)) (none, {}) place.keys
        (Paths.addPath scheme port (setUrl url) (segment :: rest) t) =
          if place.keys = (segment :: rest).map (fun segment => (scheme, port, segment)) then
            (some ((db.seen place).1.getD (Nsurl.defragment url)), (db.seen place).2)
          else db.seen place := by
      rw [Database.seen, tree]
      apply Paths.view_addPath (fun _ _ _ => rfl)
        (fun seen => (some (seen.1.getD (Nsurl.defragment url)), seen.2)) (key_setUrl url)
      intro d
      unfold setUrl
      cases known : d.url <;> simp [known]
    rw [way]
    apply (Paths.view_changed (fun seen => (seen.1, change seen.2)) _ _ walked place.keys).trans
    · rw [inner]
      split <;> rfl
    · intro d
      rfl
    · intro d
      rfl
  · simp only [host, if_false, false_and]
    rfl

end Neosurf.Urldb
