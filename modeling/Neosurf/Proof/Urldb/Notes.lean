import Neosurf.Proof.Urldb.AddUrl
import Neosurf.Proof.Urldb.DeleteCookie
import Neosurf.Proof.Urldb.Stowed
import Neosurf.ToMathlib.SiblingTree.Extend

namespace Neosurf.Urldb

open SiblingTree

variable {env : Environment} {db after : Database}
  {H : List Bytes → HostData → Prop} {D : List Bytes → PathData → Prop}

/-- A property of the notes about hosts and about their nodes. It does not depend on cookies or
on the URLs of nodes, and it holds where nothing was noted. -/
structure NoteProperty (H : List Bytes → HostData → Prop) (D : List Bytes → PathData → Prop) :
    Prop where
  freshHost : ∀ parts part, H parts { part }
  freshNode : ∀ parts scheme port segment, D parts { scheme, port, segment }
  host : ∀ parts (h : HostData) cookies paths, H parts h → H parts { h with cookies, paths }
  node : ∀ parts (d : PathData) url cookies, D parts d → D parts { d with url, cookies }

/-- The notes about all hosts and nodes have a property, which may name the host. -/
def NotesAt (H : List Bytes → HostData → Prop) (D : List Bytes → PathData → Prop)
    (db : Database) : Prop :=
  db.hosts.AllAt (fun h => folded h.part) (fun parts h => H parts h ∧ h.paths.All (D parts)) []

/-- A change of a node leaves the notes about it alone. -/
def KeepsNotes (change : PathData → PathData) : Prop :=
  ∀ d, ∃ url cookies, change d = { d with url, cookies }

theorem keepsNotes_setUrl (url : Nsurl) : KeepsNotes (setUrl url) := by
  intro d
  unfold setUrl
  split
  · exact ⟨some (Nsurl.defragment url), d.cookies, rfl⟩
  · exact ⟨d.url, d.cookies, rfl⟩

theorem notesAt_modifyAt {change : HostData → HostData} {parts : List Bytes}
    (kept : ∀ h, (change h).part = h.part)
    (changed : ∀ h : HostData, H (parts.map folded) h ∧ h.paths.All (D (parts.map folded)) →
      H (parts.map folded) (change h) ∧ (change h).paths.All (D (parts.map folded)))
    (notes : NotesAt H D db) :
    NotesAt H D { db with hosts := db.hosts.modifyAt change parts } := by
  apply allAt_extend parts part_of_isNamed _ _ _ notes
  · intro h
    exact congrArg folded (kept h)
  · intro above part t _ known
    exact known
  · exact changed

theorem notesAt_addHost (property : NoteProperty H D) (host : Bytes) (notes : NotesAt H D db) :
    NotesAt H D (addHost env db host) := by
  unfold addHost
  dsimp only
  split
  · exact notes
  · apply allAt_extend (hostParts env host) part_of_isNamed _ _ _ notes
    · intro h
      rfl
    · intro above part t _ known
      rw [Hosts.ensure]
      split
      · exact known
      · exact ⟨⟨property.freshHost _ part, trivial⟩, trivial, known⟩
    · intro h known
      exact known

theorem notesAt_addPath (property : NoteProperty H D) {change : PathData → PathData}
    (keeps : KeepsNotes change) (parts : List Bytes) (scheme : LwcString) (port : Nat)
    (path : Bytes) (notes : NotesAt H D db) :
    NotesAt H D (addPath parts scheme port path change db) := by
  apply notesAt_modifyAt _ _ notes
  · intro h
    rfl
  · intro h known
    refine ⟨property.host _ h h.cookies _ known.1, Paths.all_addPath ?_ ?_ _ known.2⟩
    · intro d noted
      obtain ⟨url, cookies, same⟩ := keeps d
      rw [same]
      exact property.node _ d url cookies noted
    · intro segment
      exact property.freshNode _ scheme port segment

theorem notesAt_addUrl (property : NoteProperty H D) (url : Nsurl) (notes : NotesAt H D db) :
    NotesAt H D (addUrl env db url).1 := by
  unfold addUrl
  dsimp only
  split
  · exact notesAt_addPath property (keepsNotes_setUrl url) _ _ _ _
      (notesAt_addHost property _ notes)
  · exact notes

theorem notesAt_insertCookie (property : NoteProperty H D) (c : Cookie) (scheme : LwcString)
    (url : Nsurl) (notes : NotesAt H D db) : NotesAt H D (insertCookie env db c scheme url) := by
  have added (host : Bytes) : NotesAt H D (findOrAddHost env db host).1 := by
    unfold findOrAddHost
    split
    · exact notes
    · exact notesAt_addHost property host notes
  unfold insertCookie
  split
  · apply notesAt_modifyAt _ _ (added _)
    · intro h
      rfl
    · intro h known
      exact ⟨property.host _ h _ h.paths known.1, known.2⟩
  · apply notesAt_addPath property _ _ _ _ _ (added _)
    intro d
    obtain ⟨page, cookies, same⟩ := keepsNotes_setUrl url d
    refine ⟨page, insertInto env.now c d.cookies, ?_⟩
    dsimp only
    rw [same]

theorem notesAt_deleteCookie (property : NoteProperty H D) (domain path name : Bytes)
    (notes : NotesAt H D db) : NotesAt H D (deleteCookie db domain path name) := by
  have deleted (parts : List Bytes) (h : HostData) (known : H parts h ∧ h.paths.All (D parts)) :
      H parts (h.deleteCookie domain path name) ∧
        (h.deleteCookie domain path name).paths.All (D parts) := by
    rw [HostData.deleteCookie]
    split
    · exact ⟨property.host parts h _ h.paths known.1, known.2⟩
    · refine ⟨property.host parts h h.cookies _ known.1, ?_⟩
      cases done : h.paths.deleteCookie domain path name with
      | none => exact known.2
      | some after =>
          apply Paths.all_deleteCookie _ known.2 done
          intro d cookies noted _
          exact property.node parts d d.url cookies noted
  have everywhere (parts : List Bytes) (t : Hosts)
      (known : t.AllAt (fun h => folded h.part)
        (fun parts h => H parts h ∧ h.paths.All (D parts)) parts) :
      (t.deleteCookie domain path name).AllAt (fun h => folded h.part)
        (fun parts h => H parts h ∧ h.paths.All (D parts)) parts := by
    induction t generalizing parts with
    | nil => exact trivial
    | cons h children next children_ih next_ih =>
        rw [Hosts.deleteCookie, AllAt, Hosts.part_deleteCookie]
        exact ⟨deleted _ h known.1, children_ih _ known.2.1, next_ih _ known.2.2⟩
  exact everywhere [] db.hosts notes

theorem notesAt_loadUrl (property : NoteProperty H D) {junk : Nsurl.Buff}
    {host scheme ports rest : Bytes} (notes : NotesAt H D db) :
    NotesAt H D (loadUrl env db junk host scheme ports rest) := by
  unfold loadUrl
  split
  · exact notes
  · dsimp only
    split
    · exact notesAt_addPath property (keepsNotes_setUrl _) _ _ _ _ notes
    · exact notes

/-- An operation that is not about notes keeps a property of them. -/
theorem notesAt_step (property : NoteProperty H D) {op : Operation} (silent : ¬ op.IsNote)
    (notes : NotesAt H D db) (done : step env db op = some after) : NotesAt H D after := by
  cases op with
  | addUrl url =>
      cases done
      exact notesAt_addUrl property url notes
  | getCookie url includeHttpOnly =>
      cases done
      exact notesAt_addUrl property url notes
  | setCookie header url referer =>
      rw [step] at done
      cases answer : setCookie env db header url referer with
      | done db answered =>
          simp only [answer] at done
          cases done
          refine setCookie_rule ?_ notes answer
          intro c scheme db _ known
          exact notesAt_insertCookie property c scheme _ known
      | diverges => simp [answer] at done
  | deleteCookie domain path name =>
      cases done
      exact notesAt_deleteCookie property domain path name notes
  | loadFilter =>
      cases done
      exact notes
  | loadHost host =>
      cases done
      exact notesAt_addHost property host notes
  | loadUrl junk host scheme ports rest =>
      cases done
      exact notesAt_loadUrl property (notesAt_addHost property host notes)
  | loadCookie c scheme page =>
      cases done
      exact notesAt_insertCookie property c scheme page notes
  | destroy =>
      cases done
      exact trivial
  | setAuthDetails | getAuthDetails | setCertPermissions | setHstsPolicy | getHstsEnabled
  | changeUrl | loadHsts | loadUrlData => exact absurd (by exact trivial) silent

/-- The folded parts of the hosts that were found. -/
def Found.parts (found : Found) : List Bytes := (found.hosts.map HostData.part).map folded

/-- What is noted about a URL changes the notes about its host and about a node with its scheme
and port. -/
theorem notesAt_annotate {url : Nsurl} {changeHost : HostData → HostData}
    {changeNode : PathData → PathData} (property : NoteProperty H D)
    (part : ∀ h, (changeHost h).part = h.part) (paths : ∀ h, (changeHost h).paths = h.paths)
    (host : ∀ found, findUrl env db url = some found → ∀ h, H found.parts h →
      H found.parts (changeHost h))
    (node : ∀ found, findUrl env db url = some found → ∀ d, d.scheme = found.node.scheme →
      d.port = found.node.port → D found.parts d → D found.parts (changeNode d))
    (notes : NotesAt H D db) : NotesAt H D (annotate env db url changeHost changeNode) := by
  unfold annotate
  split
  · rename_i found scheme path done scheme_eq _
    obtain ⟨own_scheme, own_port⟩ := findUrl_upward done scheme_eq found.node List.mem_cons_self
    apply notesAt_modifyAt _ _ notes
    · intro h
      exact part _
    · intro h known
      refine ⟨host found done _ (property.host _ h h.cookies _ known.1), ?_⟩
      rw [HostData.annotate, paths]
      apply all_extend _ (fun _ _ known => known) _ known.2
      intro segment d passed noted
      obtain ⟨_, scheme_same, port_same⟩ := matches_iff.mp passed
      apply node found done d _ _ noted
      · rw [scheme_same, own_scheme]
      · rw [port_same, own_port]
  · exact notes

end Neosurf.Urldb

namespace Neosurf.Urldb

open SiblingTree

variable {env : Environment} {db after : Database}

/-- What is noted about a host itself. -/
structure HostNotes where
  permitInvalidCerts : Bool := false
  hsts : HstsData := {}
  deriving DecidableEq, Repr

def HostData.notes (h : HostData) : HostNotes := ⟨h.permitInvalidCerts, h.hsts⟩

/-- What is seen of the host at the end of these parts, and of a missing host. -/
def Hosts.view {β : Type} (view : HostData → β) (missing : β) (parts : List Bytes) (t : Hosts) : β :=
  t.seenAt HostData.isNamed view missing parts

/-- The notes about the host at the end of these parts. Nothing is noted about a missing host. -/
def Hosts.notes (parts : List Bytes) (t : Hosts) : HostNotes :=
  (((t.walk parts).bind List.getLast?).map HostData.notes).getD {}

namespace Hosts

section View

variable {β : Type} {view : HostData → β} {missing : β}

theorem isNamed_of_part {change : HostData → HostData} (kept : ∀ h, (change h).part = h.part)
    (part : Bytes) (h : HostData) : (change h).isNamed part = h.isNamed part := by
  rw [HostData.isNamed, HostData.isNamed, kept]

theorem view_of_walk {parts : List Bytes} {t : Hosts} {above : List HostData} {h : HostData}
    (found : t.walk parts = some (above ++ [h])) : t.view view missing parts = view h :=
  seenAt_of_walk found

theorem view_congr {parts parts' : List Bytes} (same : parts.map folded = parts'.map folded)
    (t : Hosts) : t.view view missing parts = t.view view missing parts' := by
  apply seenAt_congr
  exact (List.forall₂_image_iff.mpr same).imp fun _ _ => isNamed_congr

theorem first_ensure_fresh {part other : Bytes} {t children : Hosts} {h : HostData}
    (absent : t.first (HostData.isNamed other) = none)
    (found : (ensure part t).first (HostData.isNamed other) = some (h, children)) :
    (∃ part, h = { part }) ∧ children = .nil := by
  rw [ensure] at found
  split at found
  · rw [absent] at found
    cases found
  · rw [first] at found
    split at found
    · cases found
      exact ⟨⟨part, rfl⟩, rfl⟩
    · rw [absent] at found
      cases found

/-- A host that was just added looks like a missing one. -/
theorem view_add (fresh : ∀ part, view { part } = missing) (parts others : List Bytes) (t : Hosts) :
    (add parts t).view view missing others = t.view view missing others := by
  apply seenAt_ensured (fun h => ∃ part, h = ({ part } : HostData)) isNamed_agree
    (fun _ _ _ _ => first_ensure_of_first) (fun _ _ _ _ _ => first_ensure_fresh)
  rintro h ⟨part, rfl⟩
  exact fresh part

theorem view_modifyAt_other {change : HostData → HostData} (kept : ∀ h, (change h).part = h.part)
    {parts others : List Bytes} (apart : others.map folded ≠ parts.map folded) (t : Hosts) :
    (modifyAt change parts t).view view missing others = t.view view missing others := by
  apply seenAt_changed_other isNamed_agree (isNamed_of_part kept)
  intro walked found along
  exact apart ((folded_walk found).symm.trans (folded_of_forall₂ along))

/-- A change of one host is seen there only. -/
theorem view_modifyAt {change : HostData → HostData} (seen : β → β)
    (kept : ∀ h, (change h).part = h.part) (viewed : ∀ h, view (change h) = seen (view h))
    {parts : List Bytes} {t : Hosts} {above : List HostData} {h : HostData}
    (present : t.walk parts = some (above ++ [h])) (others : List Bytes) :
    (modifyAt change parts t).view view missing others =
      if others.map folded = parts.map folded then seen (t.view view missing others)
      else t.view view missing others := by
  by_cases same : others.map folded = parts.map folded
  · rw [if_pos same, view_congr same, view_congr same, view_of_walk present, ← viewed]
    exact seenAt_changed_self isNamed_agree (isNamed_of_part kept) present
  · rw [if_neg same, view_modifyAt_other kept same]

/-- A change that is not seen may be anywhere. -/
theorem view_modifyAt_kept {change : HostData → HostData}
    (kept : ∀ h, (change h).part = h.part) (viewed : ∀ h, view (change h) = view h)
    (parts others : List Bytes) (t : Hosts) :
    (modifyAt change parts t).view view missing others = t.view view missing others :=
  seenAt_changed_kept isNamed_agree (isNamed_of_part kept) viewed parts others t

end View

theorem notes_of_walk {parts : List Bytes} {t : Hosts} {above : List HostData} {h : HostData}
    (found : t.walk parts = some (above ++ [h])) : t.notes parts = h.notes :=
  view_of_walk found

theorem notes_congr {parts parts' : List Bytes} (same : parts.map folded = parts'.map folded)
    (t : Hosts) : t.notes parts = t.notes parts' :=
  view_congr same t

/-- Nothing is noted about a host that was just added. -/
theorem notes_add (parts others : List Bytes) (t : Hosts) :
    (add parts t).notes others = t.notes others :=
  view_add (fun _ => rfl) parts others t

/-- A change of one host is noted there only. -/
theorem notes_modifyAt {change : HostData → HostData} (note : HostNotes → HostNotes)
    (kept : ∀ h, (change h).part = h.part) (noted : ∀ h, (change h).notes = note h.notes)
    {parts : List Bytes} {t : Hosts} {above : List HostData} {h : HostData}
    (present : t.walk parts = some (above ++ [h])) (others : List Bytes) :
    (modifyAt change parts t).notes others =
      if others.map folded = parts.map folded then note (t.notes others) else t.notes others :=
  view_modifyAt note kept noted present others

/-- A change that notes nothing may be anywhere. -/
theorem notes_modifyAt_kept {change : HostData → HostData}
    (kept : ∀ h, (change h).part = h.part) (noted : ∀ h, (change h).notes = h.notes)
    (parts others : List Bytes) (t : Hosts) :
    (modifyAt change parts t).notes others = t.notes others :=
  view_modifyAt_kept kept noted parts others t

end Hosts

/-- Nothing else was noted about hosts. -/
def HostsKept (db after : Database) : Prop :=
  ∀ parts, after.hosts.notes parts = db.hosts.notes parts

theorem HostsKept.trans {last : Database} (first : HostsKept db after)
    (second : HostsKept after last) : HostsKept db last :=
  fun parts => (second parts).trans (first parts)

theorem hostsKept_addHost (db : Database) (host : Bytes) : HostsKept db (addHost env db host) := by
  intro parts
  unfold addHost
  dsimp only
  split
  · rfl
  · exact Hosts.notes_add _ parts db.hosts

theorem hostsKept_addPath (db : Database) (parts : List Bytes) (scheme : LwcString) (port : Nat)
    (path : Bytes) (change : PathData → PathData) :
    HostsKept db (addPath parts scheme port path change db) := by
  intro others
  apply Hosts.notes_modifyAt_kept
  · intro h
    rfl
  · intro h
    rfl

theorem hostsKept_addUrl (url : Nsurl) : HostsKept db (addUrl env db url).1 := by
  unfold addUrl
  dsimp only
  split
  · apply HostsKept.trans (hostsKept_addHost (bloomInsert db url.hash) _)
    apply hostsKept_addPath
  · exact fun parts => rfl

theorem hostsKept_findOrAddHost (host : Bytes) :
    HostsKept db (findOrAddHost env db host).1 := by
  unfold findOrAddHost
  split
  · exact fun parts => rfl
  · exact hostsKept_addHost db host

theorem hostsKept_insertCookie (c : Cookie) (scheme : LwcString) (url : Nsurl) :
    HostsKept db (insertCookie env db c scheme url) := by
  unfold insertCookie
  split
  · apply HostsKept.trans (hostsKept_findOrAddHost (c.domain.drop 1))
    intro others
    apply Hosts.notes_modifyAt_kept
    · intro h
      rfl
    · intro h
      rfl
  · exact (hostsKept_findOrAddHost c.domain).trans (hostsKept_addPath _ _ _ _ _ _)

theorem hostsKept_setCookie {header : Bytes} {url : Nsurl} {referer : Option Nsurl} {answer : Bool}
    (done : setCookie env db header url referer = .done after answer) : HostsKept db after := by
  refine setCookie_rule ?_ (fun parts => rfl) done
  intro c scheme middle _ kept
  exact kept.trans (hostsKept_insertCookie c scheme _)

theorem hostsKept_deleteCookie (domain path name : Bytes) :
    HostsKept db (deleteCookie db domain path name) := by
  intro parts
  have noted (h : HostData) : (h.deleteCookie domain path name).notes = h.notes := by
    unfold HostData.deleteCookie
    split <;> rfl
  have named (part : Bytes) (h : HostData) :
      (h.deleteCookie domain path name).isNamed part = h.isNamed part := by
    rw [HostData.isNamed, HostData.isNamed, Hosts.part_deleteCookie]
  have walked := walk_mapTree named parts db.hosts
  change Hosts.notes parts (db.hosts.deleteCookie domain path name) = _
  rw [Hosts.notes, Hosts.deleteCookie_eq_map, Hosts.walk, walked, Hosts.notes, Hosts.walk]
  cases SiblingTree.walk HostData.isNamed parts db.hosts with
  | none => rfl
  | some hosts =>
      rw [Option.map_some, Option.bind_some, Option.bind_some, List.getLast?_map, Option.map_map]
      have same : HostData.notes ∘ HostData.deleteCookie domain path name = HostData.notes :=
        funext noted
      rw [same]

theorem hostsKept_loadUrl (junk : Nsurl.Buff) (host scheme ports rest : Bytes) :
    HostsKept db (loadUrl env db junk host scheme ports rest) := by
  unfold loadUrl
  split
  · exact fun parts => rfl
  · dsimp only
    split
    · exact hostsKept_addPath (bloomInsert db _) _ _ _ _ _
    · exact fun parts => rfl

end Neosurf.Urldb
