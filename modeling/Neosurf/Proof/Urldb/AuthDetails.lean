import Neosurf.Proof.Urldb.ReturnCookie
import Neosurf.Proof.Urldb.Notes

namespace Neosurf.Urldb

open SiblingTree

variable {env : Environment} {db after : Database} {url page : Nsurl} {found : Found}
  {ops : List (Int × Operation)}

/-- Two URLs have one scheme, one port and one host, whatever the case of its letters. -/
def SameOrigin (a b : Nsurl) : Prop :=
  a.components.scheme = b.components.scheme ∧ portInt a = portInt b ∧
    ∃ host host', hostStr a = some host ∧ hostStr b = some host' ∧ folded host = folded host'

theorem intercalate_lookedParts (env : Environment) (host : Bytes) :
    [chr '.'].intercalate (lookedParts env host).reverse = host := by
  rw [lookedParts]
  split
  · rw [List.reverse_singleton, List.intercalate_singleton]
  · rw [List.reverse_reverse, List.intercalate_splitOn]

theorem folded_intercalate (parts : List Bytes) :
    folded ([chr '.'].intercalate parts) = [chr '.'].intercalate (parts.map folded) := by
  induction parts with
  | nil => rfl
  | cons part rest ih =>
      cases rest with
      | nil => rw [List.map_singleton, List.intercalate_singleton, List.intercalate_singleton]
      | cons next rest =>
          have dot : [chr '.'].map toLower = [chr '.'] := by decide
          rw [List.map_cons, List.map_cons, List.intercalate_cons_cons, List.intercalate_cons_cons,
            ← List.map_cons, ← ih, folded, List.map_append, List.map_append, dot]
          rfl

/-- A host is known by its parts, up to case. -/
theorem folded_of_lookedParts {host host' : Bytes}
    (same : (lookedParts env host).map folded = (lookedParts env host').map folded) :
    folded host = folded host' := by
  rw [← intercalate_lookedParts env host, ← intercalate_lookedParts env host', folded_intercalate,
    folded_intercalate, List.map_reverse, List.map_reverse, same]

/-- The parts of the hosts that are found are those of the host of the URL. -/
theorem findUrl_parts {host : Bytes} (indexed : Indexed db) (done : findUrl env db url = some found)
    (host_eq : hostStr url = some host) : found.parts = (lookedParts env host).map folded := by
  obtain ⟨_, _, host', chain, _, _, _, host_eq', searched, walked, _, _⟩ := findUrl_eq_some.mp done
  rw [host_eq, Option.some.injEq] at host_eq'
  subst host_eq'
  rw [Found.parts, Hosts.folded_walk walked, (searchFind_spec indexed searched).2]

/-- The details of a protection space were stored for a URL on this host that has its scheme and
its port. -/
def DetailsStored (env : Environment) (ops : List (Int × Operation)) (parts : List Bytes)
    (space : ProtSpace) : Prop :=
  ∃ now page host, (now, .setAuthDetails page space.realm space.auth) ∈ ops ∧
    page.components.scheme = some space.scheme ∧ portInt page = space.port ∧
    hostStr page = some host ∧ (lookedParts env host).map folded = parts

def HostData.DetailsStored (env : Environment) (ops : List (Int × Operation)) (parts : List Bytes)
    (h : HostData) : Prop :=
  ∀ space ∈ h.protSpaces, Urldb.DetailsStored env ops parts space

/-- The protection space of a node has its scheme and its port. -/
def PathData.SpaceFits (_ : List Bytes) (d : PathData) : Prop :=
  ∀ key, d.protSpace = some key → key.scheme = d.scheme ∧ key.port = d.port

theorem noteProperty_details :
    NoteProperty (HostData.DetailsStored env ops) PathData.SpaceFits where
  freshHost _ _ _ impossible := by cases impossible
  freshNode _ _ _ _ _ impossible := by cases impossible
  host _ _ _ _ known := known
  node _ _ _ _ known := known

/-- All details in the database were stored for URLs of their origin. -/
def AllDetailsStored (env : Environment) (ops : List (Int × Operation)) (db : Database) : Prop :=
  NotesAt (HostData.DetailsStored env ops) PathData.SpaceFits db

/-- All hosts that an operation adds fit, and details are only stored for ports that are not
cut. -/
def AuthFitting (env : Environment) (db : Database) (op : Operation) : Prop :=
  Fitting env db op ∧
    ∀ url realm auth, op = .setAuthDetails url realm auth → portInt url < 2 ^ 16

theorem mem_setAuth {key : ProtSpaceKey} {auth : Bytes} {h : HostData} {space : ProtSpace}
    (inside : space ∈ (h.setAuth key auth).protSpaces) :
    space ∈ h.protSpaces ∨ space = { key with auth } := by
  unfold HostData.setAuth at inside
  dsimp only at inside
  split at inside
  · rcases List.mem_changeFirst inside with old | ⟨before, _, here, rfl⟩
    · exact Or.inl old
    · rw [beq_iff_eq] at here
      rw [here]
      exact Or.inr rfl
  · rcases List.mem_cons.mp inside with new | old
    · exact Or.inr new
    · exact Or.inl old

theorem allDetailsStored_setAuthDetails {realm auth : Bytes} {now : Int}
    (stored : (now, .setAuthDetails url realm auth) ∈ ops) (small : portInt url < 2 ^ 16)
    (sound : Sound env (addUrl env db url).1) (all : AllDetailsStored env ops db) :
    AllDetailsStored env ops (setAuthDetails env db url realm auth) := by
  have added : AllDetailsStored env ops (addUrl env db url).1 :=
    notesAt_addUrl noteProperty_details url all
  unfold setAuthDetails
  dsimp only
  cases done : findUrl env (addUrl env db url).1 url with
  | none => exact added
  | some found =>
      apply notesAt_annotate noteProperty_details _ _ _ _ added
      · intro h
        rfl
      · intro h
        rfl
      · intro found' done' h known space inside
        rw [done, Option.some.injEq] at done'
        subst done'
        rcases mem_setAuth inside with old | rfl
        · exact known space old
        · obtain ⟨_, scheme, host, _, _, scheme_eq, _, host_eq, _⟩ := findUrl_eq_some.mp done
          obtain ⟨own_scheme, own_port⟩ := findUrl_upward done scheme_eq found.node List.mem_cons_self
          rw [narrow_eq_self_iff.mpr small] at own_port
          exact ⟨now, url, host, stored, scheme_eq.trans (congrArg some own_scheme.symm),
            own_port.symm, host_eq,
            (findUrl_parts sound.toIndexed done host_eq).symm⟩
      · intro found' done' d scheme_same port_same _ key same
        rw [done, Option.some.injEq] at done'
        subst done'
        cases same
        exact ⟨scheme_same.symm, port_same.symm⟩

theorem allDetailsStored_getAuthDetails {realm : Option Bytes} (all : AllDetailsStored env ops db) :
    AllDetailsStored env ops (getAuthDetails env db url realm).1 := by
  have added : AllDetailsStored env ops (addUrl env db url).1 :=
    notesAt_addUrl noteProperty_details url all
  unfold getAuthDetails
  dsimp only
  cases done : findUrl env (addUrl env db url).1 url with
  | none => exact added
  | some found =>
      dsimp only
      split
      · exact added
      · exact added
      · split
        · exact added
        · apply notesAt_annotate noteProperty_details _ _ _ _ added
          · intro h
            rfl
          · intro h
            rfl
          · exact fun _ _ _ known => known
          · intro found' done' d scheme_same port_same _ key same
            rw [done, Option.some.injEq] at done'
            subst done'
            cases same
            exact ⟨scheme_same.symm, port_same.symm⟩

/-- The notes that are not about authentication leave the details alone. -/
theorem allDetailsStored_annotate {changeHost : HostData → HostData}
    {changeNode : PathData → PathData} (part : ∀ h, (changeHost h).part = h.part)
    (paths : ∀ h, (changeHost h).paths = h.paths)
    (spaces : ∀ h, (changeHost h).protSpaces = h.protSpaces) (node : NodeAnnotation changeNode)
    (space : ∀ d, (changeNode d).protSpace = d.protSpace) (all : AllDetailsStored env ops db) :
    AllDetailsStored env ops (annotate env db url changeHost changeNode) := by
  apply notesAt_annotate noteProperty_details part paths _ _ all
  · intro _ _ h known
    rw [HostData.DetailsStored, spaces]
    exact known
  · intro _ _ d _ _ known key same
    rw [space] at same
    rw [node.scheme, node.port]
    exact known key same

theorem allDetailsStored_step {op : Operation} {now : Int} (fits : AuthFitting env db op)
    (sound : Sound env db) (all : AllDetailsStored env ops db)
    (done : step env db op = some after) : AllDetailsStored env ((now, op) :: ops) after := by
  have known : AllDetailsStored env ((now, op) :: ops) db := by
    apply allAt_mono _ all
    intro parts h stored
    refine ⟨fun space inside => ?_, stored.2⟩
    obtain ⟨now, page, host, old, rest⟩ := stored.1 space inside
    exact ⟨now, page, host, List.mem_cons_of_mem _ old, rest⟩
  have added (url : Nsurl) : AllDetailsStored env ((now, op) :: ops) (addUrl env db url).1 :=
    notesAt_addUrl noteProperty_details url known
  cases op with
  | setAuthDetails url realm auth =>
      cases done
      have ready : Sound env (addUrl env db url).1 :=
        sound_addUrl (fun host host_eq => fits.1 host ⟨url, rfl, host_eq⟩) sound
      exact allDetailsStored_setAuthDetails List.mem_cons_self (fits.2 url realm auth rfl) ready known
  | getAuthDetails url realm =>
      cases done
      exact allDetailsStored_getAuthDetails known
  | setCertPermissions url permit =>
      cases done
      exact allDetailsStored_annotate (fun _ => rfl) (fun _ => rfl) (fun _ => rfl) nodeAnnotation_id
        (fun _ => rfl) (added url)
  | setHstsPolicy url header =>
      cases done
      unfold setHstsPolicy
      split
      · dsimp only
        split
        · exact added url
        · split
          · exact added url
          · split
            · exact added url
            · exact allDetailsStored_annotate (fun _ => rfl) (fun _ => rfl) (fun _ => rfl)
                nodeAnnotation_id (fun _ => rfl) (added url)
      · exact known
  | getHstsEnabled url =>
      cases done
      unfold getHstsEnabled
      split
      · dsimp only
        split <;> exact added url
      · exact known
  | changeUrl url change =>
      cases done
      apply allDetailsStored_annotate (fun _ => rfl) (fun _ => rfl) (fun _ => rfl)
        (nodeAnnotation_changed _ _) _ known
      intro d
      cases change <;> rfl
  | loadHsts host hsts =>
      cases done
      exact notesAt_modifyAt (fun _ => rfl) (fun _ noted => noted) known
  | loadUrlData host scheme port path urld =>
      cases done
      unfold loadUrlData
      apply notesAt_modifyAt _ _ known
      · intro h
        rfl
      · intro h noted
        refine ⟨noted.1, ?_⟩
        apply all_extend _ _ _ noted.2
        · exact fun _ _ _ fits => fits
        · exact fun _ _ fits => fits
  | addUrl | getCookie | setCookie | deleteCookie | loadFilter | loadHost | loadUrl | loadCookie
  | destroy => exact notesAt_step noteProperty_details (by exact not_false) known done

/-- A later time does not change whom details were stored for. -/
theorem allDetailsStored_at (now : Int) :
    AllDetailsStored (env.at now) ops db ↔ AllDetailsStored env ops db :=
  Iff.rfl

/-- In every run that adds fitting hosts, and stores details for ports that are not cut, all
details were stored for URLs of their origin. -/
theorem allDetailsStored_run (run : Run env AuthFitting db ops) :
    Sound env db ∧ AllDetailsStored env ops db := by
  induction run with
  | empty => exact ⟨sound_empty, trivial⟩
  | @step db after ops now op before allowed done ih =>
      have sound := sound_step allowed.1 ((sound_at now).mpr ih.1) done
      have stored : AllDetailsStored (env.at now) ((now, op) :: ops) after :=
        allDetailsStored_step allowed ((sound_at now).mpr ih.1)
          ((allDetailsStored_at now).mpr ih.2) done
      exact ⟨(sound_at now).mp sound, (allDetailsStored_at now).mp stored⟩

/-- What `urldb_get_auth_details` answers with are the details of the space of a node above, or of
the space with this realm. -/
theorem getAuthDetails_cases {realm : Option Bytes} {auth : Bytes}
    (done : (getAuthDetails env db url realm).2 = some auth) :
    ∃ found leaf key, findUrl env (addUrl env db url).1 url = some found ∧
      found.hosts.getLast? = some leaf ∧ leaf.authOf key = some auth ∧
      ((∃ d ∈ found.upward, d.protSpace = some key) ∨
        realm = some key.realm ∧ key = found.node.spaceKey key.realm) := by
  unfold getAuthDetails at done
  dsimp only at done
  cases here : findUrl env (addUrl env db url).1 url with
  | none =>
      rw [here] at done
      cases done
  | some found =>
      rw [here] at done
      dsimp only at done
      cases above : found.upward.findSome? PathData.protSpace with
      | some key =>
          rw [above] at done
          obtain ⟨leaf, last, auth_eq⟩ := Option.bind_eq_some_iff.mp done
          obtain ⟨d, inside, space⟩ := List.exists_of_findSome?_eq_some above
          exact ⟨found, leaf, key, rfl, last, auth_eq, Or.inl ⟨d, inside, space⟩⟩
      | none =>
          rw [above] at done
          cases realm with
          | none => cases done
          | some realm =>
              dsimp only at done
              split at done
              · cases done
              · rename_i answer answer_eq
                cases done
                obtain ⟨leaf, last, auth_eq⟩ := Option.bind_eq_some_iff.mp answer_eq
                exact ⟨found, leaf, _, rfl, last, auth_eq, Or.inr ⟨rfl, rfl⟩⟩

/-- The nodes of a lookup below a host are nodes of its tree. -/
theorem findPath_upward {P : PathData → Prop} {hosts : List HostData} {leaf : HostData}
    {scheme : LwcString} {port : Nat} {path : Bytes} (all : leaf.paths.All P)
    (last : hosts.getLast? = some leaf) (below : findPath hosts scheme port path = some found) :
    ∀ d ∈ found.upward, P d := by
  obtain ⟨_, _, leaf', last', matched⟩ := findPath_eq_some.mp below
  rw [last, Option.some.injEq] at last'
  subst last'
  obtain ⟨own, levels⟩ := matchPath_all ⟨all, fun p absent => by cases absent⟩
    (fun l absent => by cases absent) all matched
  intro d inside
  rcases List.mem_cons.mp inside with rfl | above
  · exact own
  · obtain ⟨level, shown, parent⟩ := List.mem_filterMap.mp above
    exact (levels level shown).2 d parent

/-- In every run that adds fitting hosts, and stores details for ports that are not cut, the
details for a URL whose port is not cut were stored for a URL of the same origin. They were stored
for the same realm unless they stand at a node above. -/
theorem getAuthDetails_origin {realm : Option Bytes} {auth : Bytes}
    (run : Run env AuthFitting db ops) (now : Int) (fits : ∀ host, hostStr url = some host →
      Fits env host) (small : portInt url < 2 ^ 16)
    (done : (getAuthDetails (env.at now) db url realm).2 = some auth) :
    ∃ found time page stored, findUrl (env.at now) (addUrl (env.at now) db url).1 url = some found ∧
      (time, .setAuthDetails page stored auth) ∈ ops ∧ SameOrigin page url ∧
      (found.upward.findSome? PathData.protSpace = none → realm = some stored) := by
  obtain ⟨sound, all⟩ := allDetailsStored_run run
  have ready : Sound (env.at now) (addUrl (env.at now) db url).1 :=
    sound_addUrl fits ((sound_at now).mpr sound)
  have added : AllDetailsStored (env.at now) ops (addUrl (env.at now) db url).1 :=
    notesAt_addUrl noteProperty_details url ((allDetailsStored_at now).mpr all)
  obtain ⟨found, leaf, key, here, last, auth_eq, place⟩ := getAuthDetails_cases done
  obtain ⟨_, scheme, host, chain, path, scheme_eq, _, host_eq, searched, walked, _, below⟩ :=
    findUrl_eq_some.mp here
  obtain ⟨parents, hosts_eq⟩ := List.getLast?_eq_some_iff.mp last
  rw [hosts_eq] at walked
  obtain ⟨spaces, nodes⟩ := allAt_walk_concat part_of_isNamed added walked
  rw [List.nil_append, (searchFind_spec ready.toIndexed searched).2] at spaces
  obtain ⟨space, space_eq, rfl⟩ := Option.map_eq_some_iff.mp auth_eq
  have key_eq := List.find?_some space_eq
  rw [beq_iff_eq] at key_eq
  obtain ⟨time, page, own, stored, own_scheme, own_port, own_host, parts⟩ :=
    spaces space (List.mem_of_find?_eq_some space_eq)
  have along := findUrl_upward here scheme_eq
  rw [narrow_eq_self_iff.mpr small] at along
  have origin : key.scheme = scheme ∧ key.port = portInt url := by
    rcases place with ⟨d, inside, belongs⟩ | ⟨_, same⟩
    · obtain ⟨scheme_same, port_same⟩ := findPath_upward nodes last below d inside key belongs
      rw [scheme_same, port_same]
      exact along d inside
    · rw [same]
      exact along found.node List.mem_cons_self
  refine ⟨found, time, page, space.realm, here, stored, ?_, ?_⟩
  · refine ⟨?_, ?_, own, host, own_host, host_eq, folded_of_lookedParts parts⟩
    · rw [own_scheme, scheme_eq, key_eq, origin.1]
    · rw [own_port, key_eq, origin.2]
  · intro nothing
    rcases place with ⟨d, inside, belongs⟩ | ⟨same, _⟩
    · rw [List.findSome?_eq_none_iff.mp nothing d inside] at belongs
      cases belongs
    · rw [same, key_eq]

/-- Details that were stored for `http://h/x` are found again. -/
theorem getAuthDetails_origin_stored : ∃ url db ops,
    Nsurl.nsurlCreate (fun _ => 0) (str "http://h/x") = .ok url ∧
      Run plainEnvironment AuthFitting db ops ∧
      (getAuthDetails (plainEnvironment.at 0) db url none).2 = some (str "u:p") ∧
      ∃ found time page stored, findUrl (plainEnvironment.at 0)
          (addUrl (plainEnvironment.at 0) db url).1 url = some found ∧
        (time, .setAuthDetails page stored (str "u:p")) ∈ ops ∧ SameOrigin page url ∧
        (found.upward.findSome? PathData.protSpace = none → none = some stored) := by
  have computed : ∃ url, Nsurl.nsurlCreate (fun _ => 0) (str "http://h/x") = .ok url ∧
      hostStr url = some (str "h") ∧ portInt url < 2 ^ 16 ∧
      (getAuthDetails (plainEnvironment.at 0)
        (setAuthDetails (plainEnvironment.at 0) {} url (str "r") (str "u:p")) url none).2 =
          some (str "u:p") :=
    ⟨_, rfl, rfl, by decide, by decide⟩
  obtain ⟨url, created, host_eq, small, answer⟩ := computed
  have fits : ∀ host, hostStr url = some host → Fits plainEnvironment host := by
    intro host same
    rw [host_eq, Option.some.injEq] at same
    rw [← same]
    exact fits_plainEnvironment (by decide)
  have allowed : AuthFitting (plainEnvironment.at 0) {}
      (.setAuthDetails url (str "r") (str "u:p")) := by
    constructor
    · rintro host ⟨page, same, host_eq⟩
      cases same
      exact fits host host_eq
    · intro page realm auth same
      cases same
      exact small
  have run : Run plainEnvironment AuthFitting
      (setAuthDetails (plainEnvironment.at 0) {} url (str "r") (str "u:p"))
      [(0, .setAuthDetails url (str "r") (str "u:p"))] :=
    .step 0 _ .empty allowed rfl
  exact ⟨url, _, _, created, run, answer, getAuthDetails_origin run 0 fits small answer⟩

/-- The details of `http://h:81/` are answered for `http://h:65617/`. -/
theorem getAuthDetails_cut : ∃ page url db,
    Nsurl.nsurlCreate (fun _ => 0) (str "http://h:81/") = .ok page ∧
      Nsurl.nsurlCreate (fun _ => 0) (str "http://h:65617/") = .ok url ∧
      Run plainEnvironment (fun _ _ _ => True) db
        [(0, .setAuthDetails page (str "r") (str "u:p"))] ∧
      (getAuthDetails (plainEnvironment.at 0) db url none).2 = some (str "u:p") ∧
      ¬ SameOrigin page url := by
  have computed : ∃ page url, Nsurl.nsurlCreate (fun _ => 0) (str "http://h:81/") = .ok page ∧
      Nsurl.nsurlCreate (fun _ => 0) (str "http://h:65617/") = .ok url ∧
      portInt page ≠ portInt url ∧ (getAuthDetails (plainEnvironment.at 0)
        (setAuthDetails (plainEnvironment.at 0) {} page (str "r") (str "u:p")) url none).2 =
          some (str "u:p") :=
    ⟨_, _, rfl, rfl, by decide, by decide⟩
  obtain ⟨page, url, created, other, different, answer⟩ := computed
  exact ⟨page, url, _, created, other, .step 0 _ .empty trivial rfl, answer,
    fun same => different same.2.1⟩

end Neosurf.Urldb
