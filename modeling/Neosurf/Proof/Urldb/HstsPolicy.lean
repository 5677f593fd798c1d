import Neosurf.Proof.Urldb.Notes

namespace Neosurf.Urldb

open SiblingTree

variable {env : Environment} {db after : Database} {url : Nsurl}

/-- A URL can be found again after it was added: it is not about mail, its port is in range and
its path starts with a slash. -/
structure Locatable (url : Nsurl) : Prop where
  scheme : ∃ scheme, url.components.scheme = some scheme ∧ scheme ≠ str "mailto"
  port : portInt url < 2 ^ 16
  path : ∃ path, pathQuery url = some path ∧ byteAt path 0 = chr '/'

/-- The host of a URL as parts without case, from the root. -/
def urlParts (env : Environment) (url : Nsurl) : Option (List Bytes) :=
  (hostStr url).map fun host => (lookedParts env host).map folded

/-- What a policy does with the one before, at a time. -/
abbrev PolicyUpdate := Int → Http.StrictTransportSecurity → HstsData → HstsData

/-- A header is accepted unless it cannot be parsed or the host is tainted. -/
def HostNotes.accept (update : PolicyUpdate) (now : Int) (header : Bytes) (notes : HostNotes) :
    HostNotes :=
  if notes.permitInvalidCerts then notes
  else
    match Http.parseStrictTransportSecurity header with
    | none => notes
    | some sts => { notes with hsts := update now sts notes.hsts }

/-- What an operation means for the notes about the host with these parts. -/
def Operation.note (update : PolicyUpdate) (env : Environment) (parts : List Bytes)
    (notes : HostNotes) : Operation → HostNotes
  | .setHstsPolicy url header =>
      if hasHstsHost env url = true ∧ urlParts env url = some parts then
        notes.accept update env.now header
      else notes
  | .setCertPermissions url permit =>
      if urlParts env url = some parts then { notes with permitInvalidCerts := permit } else notes
  | .loadHsts host hsts =>
      if parts = (hostParts env host).map folded then { notes with hsts } else notes
  | .destroy => {}
  | _ => notes

/-- The notes that a run leaves about a host. -/
def notesOf (update : PolicyUpdate) (env : Environment) (parts : List Bytes) :
    List (Int × Operation) → HostNotes
  | [] => {}
  | (now, op) :: before => op.note update (env.at now) parts (notesOf update env parts before)

/-- Transport security is enabled for a host with these parts by its own policy, or by the
policy of a host above it that includes subdomains. -/
def Secured (now : Int) (policy : List Bytes → HstsData) (parts : List Bytes) : Prop :=
  now < (policy parts).expires ∨ ∃ above, above ≠ [] ∧ above <+: parts ∧ above ≠ parts ∧
    now < (policy above).expires ∧ (policy above).includeSubDomains = true

/-- Hosts fit, policies and permissions are set for URLs that can be found again, and a policy
is loaded for a host that was loaded. -/
def Policing (env : Environment) (db : Database) (op : Operation) : Prop :=
  Fitting env db op ∧
    match op with
    | .setHstsPolicy url _ => hasHstsHost env url = true → Locatable url
    | .setCertPermissions url _ => (hostStr url).isSome = true → Locatable url
    | .loadHsts host _ => (db.hosts.walk (hostParts env host)).isSome = true
    | _ => True

/-- A URL that was added is found below its host. -/
theorem findUrl_addUrl_host {host : Bytes} (sound : Sound env db) (locatable : Locatable url)
    (host_eq : hostStr url = some host) (findable : Findable env host) :
    ∃ found above h, findUrl env (addUrl env db url).1 url = some found ∧
      found.hosts = above ++ [h] := by
  obtain ⟨scheme, scheme_eq, web⟩ := locatable.scheme
  obtain ⟨path, path_eq, slash⟩ := locatable.path
  obtain ⟨above, h, _, _, _, _, _, _, found⟩ :=
    findUrl_addUrl_shape sound scheme_eq host_eq path_eq web locatable.port slash findable
  exact ⟨_, above, _, found, rfl⟩

/-- The hosts that are found are those of the URL, and can be walked to by their own names. -/
theorem findUrl_hosts {found : Found} {host : Bytes} (indexed : Indexed db)
    (done : findUrl env db url = some found) (host_eq : hostStr url = some host) :
    (found.hosts.map HostData.part).map folded = (lookedParts env host).map folded ∧
      db.hosts.walk (found.hosts.map HostData.part) = some found.hosts := by
  obtain ⟨_, _, host', chain, _, _, _, host_eq', searched, walked, _, _⟩ := findUrl_eq_some.mp done
  rw [host_eq, Option.some.injEq] at host_eq'
  subst host_eq'
  have own := Hosts.folded_walk walked
  rw [Hosts.walk_congr own, walked]
  exact ⟨own.trans (searchFind_spec indexed searched).2, rfl⟩

/-- A change at the host of a URL that is found is noted there only. -/
theorem notes_annotate {changeHost : HostData → HostData} {changeNode : PathData → PathData}
    (note : HostNotes → HostNotes) {found : Found} {host : Bytes} (indexed : Indexed db)
    (kept : ∀ h, (changeHost h).part = h.part)
    (noted : ∀ h, (changeHost h).notes = note h.notes)
    (done : findUrl env db url = some found) (host_eq : hostStr url = some host)
    (parts : List Bytes) :
    (annotate env db url changeHost changeNode).hosts.notes parts =
      if urlParts env url = some (parts.map folded) then note (db.hosts.notes parts)
      else db.hosts.notes parts := by
  obtain ⟨own, walked⟩ := findUrl_hosts indexed done host_eq
  obtain ⟨_, scheme, _, _, path, scheme_eq, _, _, _, _, path_eq, below⟩ := findUrl_eq_some.mp done
  obtain ⟨_, _, leaf, last, _⟩ := findPath_eq_some.mp below
  obtain ⟨above, same⟩ := List.getLast?_eq_some_iff.mp last
  unfold annotate
  simp only [done, scheme_eq, path_eq]
  rw [same] at walked own ⊢
  have kept' (h : HostData) :
      (h.annotate scheme (narrow (portInt url)) path changeHost changeNode).part = h.part :=
    kept _
  have noted' (h : HostData) :
      (h.annotate scheme (narrow (portInt url)) path changeHost changeNode).notes = note h.notes :=
    noted _
  rw [Hosts.notes_modifyAt note kept' noted' walked parts, own, urlParts, host_eq, Option.map_some]
  simp only [Option.some.injEq, eq_comm]

theorem hostsKept_annotate {changeHost : HostData → HostData} {changeNode : PathData → PathData}
    (url : Nsurl) (kept : ∀ h, (changeHost h).part = h.part)
    (noted : ∀ h, (changeHost h).notes = h.notes) :
    HostsKept db (annotate env db url changeHost changeNode) := by
  intro parts
  unfold annotate
  split
  · apply Hosts.notes_modifyAt_kept
    · intro h
      exact kept _
    · intro h
      exact noted _
  · rfl

theorem hostsKept_setAuthDetails (url : Nsurl) (realm auth : Bytes) :
    HostsKept db (setAuthDetails env db url realm auth) := by
  apply HostsKept.trans (hostsKept_addUrl url)
  unfold setAuthDetails
  dsimp only
  split
  · exact fun parts => rfl
  · apply hostsKept_annotate
    · intro h
      rfl
    · intro h
      rfl

theorem hostsKept_getAuthDetails (url : Nsurl) (realm : Option Bytes) :
    HostsKept db (getAuthDetails env db url realm).1 := by
  apply HostsKept.trans (hostsKept_addUrl url)
  unfold getAuthDetails
  dsimp only
  split
  · exact fun parts => rfl
  · split
    · exact fun parts => rfl
    · exact fun parts => rfl
    · split
      · exact fun parts => rfl
      · apply hostsKept_annotate
        · intro h
          rfl
        · intro h
          rfl

theorem hostStr_of_hasHstsHost (named : hasHstsHost env url = true) :
    ∃ host, hostStr url = some host := by
  rw [hasHstsHost] at named
  split at named
  · cases named
  · rename_i host host_eq
    exact ⟨cstr host, by rw [hostStr, host_eq]⟩

/-- A call of `urldb_set_cert_permissions` is noted about the host of its URL. -/
theorem notes_setCertPermissions {permit : Bool} (sound : Sound env db)
    (fits : ∀ host, hostStr url = some host → Fits env host)
    (locatable : (hostStr url).isSome = true → Locatable url) (parts : List Bytes) :
    (setCertPermissions env db url permit).hosts.notes parts =
      Operation.note HstsData.accept env (parts.map folded) (db.hosts.notes parts)
        (.setCertPermissions url permit) := by
  have before : db.hosts.notes parts = (addUrl env db url).1.hosts.notes parts :=
    (hostsKept_addUrl url parts).symm
  have sound' : Sound env (addUrl env db url).1 := sound_addUrl fits sound
  rw [Operation.note, before]
  cases host_eq : hostStr url with
  | none =>
      have missing : findUrl env (addUrl env db url).1 url = none := by
        unfold findUrl
        simp [host_eq]
      have unknown : urlParts env url = none := by rw [urlParts, host_eq, Option.map_none]
      rw [if_neg (by simp [unknown])]
      unfold setCertPermissions annotate
      simp only [missing]
  | some host =>
      obtain ⟨found, _, _, done, _⟩ := findUrl_addUrl_host sound (locatable (by rw [host_eq]; rfl))
        host_eq (fits host host_eq).1
      apply notes_annotate (fun notes => { notes with permitInvalidCerts := permit })
        sound'.toIndexed _ _ done host_eq
      · intro h
        rfl
      · intro h
        rfl

/-- A call of `urldb_set_hsts_policy` is noted about the host of its URL. -/
theorem notes_setHstsPolicy {header : Bytes} (sound : Sound env db)
    (fits : ∀ host, hostStr url = some host → Fits env host)
    (locatable : hasHstsHost env url = true → Locatable url) (parts : List Bytes) :
    (setHstsPolicy env db url header).1.hosts.notes parts =
      Operation.note HstsData.accept env (parts.map folded) (db.hosts.notes parts)
        (.setHstsPolicy url header) := by
  rw [Operation.note]
  unfold setHstsPolicy
  by_cases named : hasHstsHost env url = true
  · obtain ⟨host, host_eq⟩ := hostStr_of_hasHstsHost named
    obtain ⟨found, above, h, done, last⟩ := findUrl_addUrl_host sound (locatable named) host_eq
      (fits host host_eq).1
    have sound' : Sound env (addUrl env db url).1 := sound_addUrl fits sound
    obtain ⟨own, walked⟩ := findUrl_hosts sound'.toIndexed done host_eq
    have before : db.hosts.notes parts = (addUrl env db url).1.hosts.notes parts :=
      (hostsKept_addUrl url parts).symm
    have here : urlParts env url = some (parts.map folded) →
        (addUrl env db url).1.hosts.notes parts = h.notes := by
      intro same
      rw [urlParts, host_eq, Option.map_some, Option.some.injEq, ← own] at same
      rw [last] at same walked
      rw [Hosts.notes_congr same.symm]
      exact Hosts.notes_of_walk walked
    rw [if_pos named]
    dsimp only
    rw [done, Option.bind_some, last, List.getLast?_concat]
    simp only [named, true_and, before]
    have unchanged (rejected : h.notes.accept HstsData.accept env.now header = h.notes) :
        (addUrl env db url).1.hosts.notes parts =
          if urlParts env url = some (parts.map folded) then
            ((addUrl env db url).1.hosts.notes parts).accept HstsData.accept env.now header
          else (addUrl env db url).1.hosts.notes parts := by
      split
      · rename_i same
        rw [here same, rejected]
      · rfl
    by_cases tainted : h.permitInvalidCerts = true
    · rw [if_pos tainted]
      exact unchanged (by rw [HostNotes.accept, HostData.notes, if_pos tainted])
    · rw [if_neg tainted]
      cases parsed : Http.parseStrictTransportSecurity header with
      | none => exact unchanged (by rw [HostNotes.accept, HostData.notes, if_neg tainted, parsed])
      | some sts =>
          have noted : (annotate env (addUrl env db url).1 url
              (fun h => { h with hsts := h.hsts.accept env.now sts }) id).hosts.notes parts =
                if urlParts env url = some (parts.map folded) then
                  { (addUrl env db url).1.hosts.notes parts with
                    hsts := ((addUrl env db url).1.hosts.notes parts).hsts.accept env.now sts }
                else (addUrl env db url).1.hosts.notes parts := by
            apply notes_annotate (fun notes => { notes with hsts := notes.hsts.accept env.now sts })
              sound'.toIndexed _ _ done host_eq
            · intro h
              rfl
            · intro h
              rfl
          dsimp only
          rw [noted]
          split
          · rename_i same
            rw [here same, HostNotes.accept, HostData.notes, if_neg tainted, parsed]
          · rfl
  · rw [if_neg named, if_neg (fun both => named both.1)]

/-- Every operation is noted about the hosts that it is about. -/
theorem notes_step {op : Operation} (policing : Policing env db op) (sound : Sound env db)
    (done : step env db op = some after) (parts : List Bytes) :
    after.hosts.notes parts =
      op.note HstsData.accept env (parts.map folded) (db.hosts.notes parts) := by
  obtain ⟨fitting, allowed⟩ := policing
  cases op with
  | addUrl url =>
      cases done
      exact hostsKept_addUrl url parts
  | getCookie url includeHttpOnly =>
      cases done
      exact hostsKept_addUrl url parts
  | setCookie header url referer =>
      rw [step] at done
      cases answer : setCookie env db header url referer with
      | done db answered =>
          simp only [answer] at done
          cases done
          exact hostsKept_setCookie answer parts
      | diverges => simp [answer] at done
  | deleteCookie domain path name =>
      cases done
      exact hostsKept_deleteCookie domain path name parts
  | loadFilter =>
      cases done
      rfl
  | loadHost host =>
      cases done
      exact hostsKept_addHost db host parts
  | loadUrl junk host scheme ports rest =>
      cases done
      exact (hostsKept_addHost db host).trans (hostsKept_loadUrl junk host scheme ports rest) parts
  | loadCookie c scheme page =>
      cases done
      exact hostsKept_insertCookie c scheme page parts
  | destroy =>
      cases done
      rw [Operation.note, Hosts.notes]
      cases parts <;> rfl
  | setAuthDetails url realm auth =>
      cases done
      exact hostsKept_setAuthDetails url realm auth parts
  | getAuthDetails url realm =>
      cases done
      exact hostsKept_getAuthDetails url realm parts
  | setCertPermissions url permit =>
      cases done
      exact notes_setCertPermissions sound (fun host added => fitting host ⟨url, rfl, added⟩)
        allowed parts
  | setHstsPolicy url header =>
      cases done
      exact notes_setHstsPolicy sound (fun host added => fitting host ⟨url, rfl, added⟩)
        allowed parts
  | getHstsEnabled url =>
      cases done
      unfold getHstsEnabled
      split
      · dsimp only
        split <;> exact hostsKept_addUrl url parts
      · rfl
  | changeUrl url change =>
      cases done
      apply hostsKept_annotate
      · intro h
        rfl
      · intro h
        rfl
  | loadHsts host hsts =>
      cases done
      obtain ⟨walked, present⟩ := Option.isSome_iff_exists.mp allowed
      obtain ⟨above, h, rfl⟩ : ∃ above h, walked = above ++ [h] := by
        have length := congrArg List.length (Hosts.folded_walk present)
        have filled : walked ≠ [] := by
          rintro rfl
          rw [List.length_map, List.length_map, List.length_map] at length
          exact hostParts_ne_nil host (List.length_eq_zero_iff.mp length.symm)
        exact ⟨_, _, (List.dropLast_append_getLast filled).symm⟩
      apply Hosts.notes_modifyAt (fun notes => { notes with hsts }) _ _ present
      · intro h
        rfl
      · intro h
        rfl
  | loadUrlData host scheme port path urld =>
      cases done
      apply Hosts.notes_modifyAt_kept
      · intro h
        rfl
      · intro h
        rfl

/-- After a run, the notes about a host are those that the run leaves. -/
theorem notes_run {ops : List (Int × Operation)} (run : Run env Policing db ops) :
    Sound env db ∧ ∀ parts,
      db.hosts.notes parts = notesOf HstsData.accept env (parts.map folded) ops := by
  induction run with
  | empty =>
      refine ⟨sound_empty, fun parts => ?_⟩
      cases parts <;> rfl
  | step now op before policing done ih =>
      have sound := (sound_at now).mpr ih.1
      refine ⟨(sound_at now).mp (sound_step policing.1 sound done), fun parts => ?_⟩
      rw [notes_step policing sound done parts, ih.2, notesOf]

/-- The hosts at the start of a walk can be walked to. -/
theorem Hosts.walk_start {hosts more : List HostData} {t : Hosts}
    (found : t.walk ((hosts ++ more).map HostData.part) = some (hosts ++ more)) :
    t.walk (hosts.map HostData.part) = some hosts := by
  rw [List.map_append] at found
  obtain ⟨above, below, first, same⟩ := walk_append found
  have length := (forall₂_walk first).length_eq
  rw [List.length_map] at length
  have equal : hosts = above := (List.append_inj same length).1
  subst equal
  exact first

/-- The policies of the hosts on the way to a host decide about it. -/
theorem secured_iff {now : Int} {policy : List Bytes → HstsData} {t : Hosts}
    {above : List HostData} {h : HostData}
    (known : ∀ parts, (t.notes parts).hsts = policy (parts.map folded))
    (walked : t.walk ((above ++ [h]).map HostData.part) = some (above ++ [h])) :
    Secured now policy (((above ++ [h]).map HostData.part).map folded) ↔
      now < h.hsts.expires ∨
        ∃ p ∈ above, now < p.hsts.expires ∧ p.hsts.includeSubDomains = true := by
  have at_end {before after : List HostData} {p : HostData}
      (same : above ++ [h] = before ++ p :: after) :
      policy (((before ++ [p]).map HostData.part).map folded) = p.hsts := by
    rw [same, List.append_cons] at walked
    rw [← known, Hosts.notes_of_walk (Hosts.walk_start walked)]
    rfl
  have own : policy (((above ++ [h]).map HostData.part).map folded) = h.hsts := at_end rfl
  unfold Secured
  rw [own]
  apply or_congr Iff.rfl
  constructor
  · rintro ⟨parts, filled, ⟨more, start⟩, other, later, subdomains⟩
    rw [List.map_map, List.append_eq_map_iff] at start
    obtain ⟨hosts, rest, whole, rfl, rfl⟩ := start
    have more_filled : rest ≠ [] := by
      rintro rfl
      rw [whole, List.append_nil, List.map_map] at other
      exact other rfl
    rw [List.map_eq_nil_iff.ne] at filled
    have last : hosts.dropLast ++ [hosts.getLast filled] = hosts :=
      List.dropLast_append_getLast filled
    rw [← last, List.append_assoc, List.singleton_append] at whole
    have policy_eq := at_end whole
    rw [last, List.map_map] at policy_eq
    rw [policy_eq] at later subdomains
    refine ⟨hosts.getLast filled, ?_, later, subdomains⟩
    have inside : above = hosts.dropLast ++ hosts.getLast filled :: rest.dropLast := by
      have short := congrArg List.dropLast whole
      rwa [List.dropLast_concat, List.dropLast_append_of_ne_nil (List.cons_ne_nil _ _),
        List.dropLast_cons_of_ne_nil more_filled] at short
    rw [inside]
    simp
  · rintro ⟨p, inside, later, subdomains⟩
    obtain ⟨before, after, rfl⟩ := List.append_of_mem inside
    have same : (before ++ p :: after) ++ [h] = before ++ p :: (after ++ [h]) := by simp
    rw [← at_end same] at later subdomains
    refine ⟨_, ?_, ?_, ?_, later, subdomains⟩
    · simp
    · apply List.IsPrefix.map
      apply List.IsPrefix.map
      exact ⟨after ++ [h], by simp⟩
    · intro equal
      have length := congrArg List.length equal
      simp only [List.length_map, List.length_append, List.length_cons, List.length_nil] at length
      omega

/-- After a run, transport security is enabled for a URL exactly when the policies say so that
the run leaves. -/
theorem getHstsEnabled_iff {ops : List (Int × Operation)} {host : Bytes} (t : Int)
    (run : Run env Policing db ops) (named : hasHstsHost env url = true)
    (host_eq : hostStr url = some host) (fits : Fits env host) (locatable : Locatable url) :
    (getHstsEnabled (env.at t) db url).2 = true ↔
      Secured t (fun parts => (notesOf HstsData.accept env parts ops).hsts)
        ((lookedParts env host).map folded) := by
  obtain ⟨sound, known⟩ := notes_run run
  have sound_now : Sound (env.at t) db := (sound_at t).mpr sound
  obtain ⟨found, above, h, done, hosts_eq⟩ :=
    findUrl_addUrl_host sound_now locatable host_eq fits.1
  have fitting : ∀ other, hostStr url = some other → Fits (env.at t) other := by
    intro other same
    rw [host_eq, Option.some.injEq] at same
    rw [← same]
    exact fits
  have indexed := (sound_addUrl fitting sound_now).toIndexed
  obtain ⟨own, walked⟩ := findUrl_hosts indexed done host_eq
  rw [hosts_eq] at own walked
  have looked : lookedParts (env.at t) host = lookedParts env host := rfl
  rw [← looked, ← own, secured_iff _ walked]
  · have named' : hasHstsHost (env.at t) url = true := named
    rw [getHstsEnabled, if_pos named']
    dsimp only
    rw [done, Option.map_some, hosts_eq, List.reverse_concat]
    simp only [Bool.or_eq_true, List.any_eq_true, List.mem_reverse, Bool.and_eq_true,
      decide_eq_true_eq]
    rfl
  · intro parts
    rw [hostsKept_addUrl, known]

/-- The last header alone decides about a policy. -/
def HstsData.latest (now : Int) (sts : Http.StrictTransportSecurity) (_ : HstsData) : HstsData :=
  if sts.maxAge = 0 then {}
  else { expires := now + sts.maxAge.toNat, includeSubDomains := sts.includeSubDomains }

/-- The calls of `urldb_set_hsts_policy` for one URL, the latest first. -/
def policyRun (env : Environment) (url : Nsurl) : List (Int × Bytes) → Database
  | [] => {}
  | (now, header) :: before => (setHstsPolicy (env.at now) (policyRun env url before) url header).1

def policyOps (url : Nsurl) (headers : List (Int × Bytes)) : List (Int × Operation) :=
  headers.map fun header => (header.1, .setHstsPolicy url header.2)

theorem run_policyRun (fits : ∀ host, hostStr url = some host → Fits env host)
    (locatable : Locatable url) (headers : List (Int × Bytes)) :
    Run env Policing (policyRun env url headers) (policyOps url headers) := by
  induction headers with
  | nil => exact .empty
  | cons header before ih =>
      refine .step header.1 _ ih ⟨?_, fun _ => locatable⟩ rfl
      rintro host ⟨other, same, host_eq⟩
      cases same
      exact fits host host_eq

/-- The URL `http://h/x` has a policy for 100 seconds. -/
theorem getHstsEnabled_iff_set : ∃ url host,
    Nsurl.nsurlCreate (fun _ => 0) (str "http://h/x") = .ok url ∧ hostStr url = some host ∧
      ((getHstsEnabled (plainEnvironment.at 50)
          (policyRun plainEnvironment url [(0, str "max-age=100")]) url).2 = true ↔
        Secured 50 (fun parts => (notesOf HstsData.accept plainEnvironment parts
          (policyOps url [(0, str "max-age=100")])).hsts)
          ((lookedParts plainEnvironment host).map folded)) := by
  have computed : ∃ url, Nsurl.nsurlCreate (fun _ => 0) (str "http://h/x") = .ok url ∧
      hostStr url = some (str "h") ∧ url.components.scheme = some (str "http") ∧
      portInt url < 2 ^ 16 ∧ pathQuery url = some (str "/x") ∧
      hasHstsHost plainEnvironment url = true :=
    ⟨_, rfl, rfl, rfl, by decide, rfl, by decide⟩
  obtain ⟨url, created, host_eq, scheme_eq, port, path_eq, named⟩ := computed
  have locatable : Locatable url := ⟨⟨_, scheme_eq, by decide⟩, port, _, path_eq, by decide⟩
  have fits (host : Bytes) (same : hostStr url = some host) : Fits plainEnvironment host := by
    rw [host_eq, Option.some.injEq] at same
    exact same ▸ fits_plainEnvironment (by decide)
  exact ⟨url, str "h", created, host_eq, getHstsEnabled_iff 50
    (run_policyRun fits locatable _) named host_eq (fits _ host_eq) locatable⟩

/-- A header with a shorter age does not shorten the policy of `http://h/x`. -/
theorem getHstsEnabled_keeps : ∃ url host db ops,
    Nsurl.nsurlCreate (fun _ => 0) (str "http://h/x") = .ok url ∧
      ops = policyOps url [(0, str "max-age=10"), (0, str "max-age=100")] ∧
      Run plainEnvironment Policing db ops ∧ hasHstsHost plainEnvironment url = true ∧
      hostStr url = some host ∧
      ¬ ((getHstsEnabled (plainEnvironment.at 50) db url).2 = true ↔
        Secured 50 (fun parts => (notesOf HstsData.latest plainEnvironment parts ops).hsts)
          ((lookedParts plainEnvironment host).map folded)) := by
  have computed : ∃ url, Nsurl.nsurlCreate (fun _ => 0) (str "http://h/x") = .ok url ∧
      hostStr url = some (str "h") ∧ url.components.scheme = some (str "http") ∧
      portInt url < 2 ^ 16 ∧ pathQuery url = some (str "/x") ∧
      hasHstsHost plainEnvironment url = true ∧
      (getHstsEnabled (plainEnvironment.at 50) (policyRun plainEnvironment url
        [(0, str "max-age=10"), (0, str "max-age=100")]) url).2 = true ∧
      (notesOf HstsData.latest plainEnvironment [str "h"] (policyOps url
        [(0, str "max-age=10"), (0, str "max-age=100")])).hsts = { expires := 10 } :=
    ⟨_, rfl, rfl, rfl, by decide, rfl, by decide, by decide, by decide⟩
  obtain ⟨url, created, host_eq, scheme_eq, port, path_eq, named, enabled, shortened⟩ := computed
  have locatable : Locatable url := ⟨⟨_, scheme_eq, by decide⟩, port, _, path_eq, by decide⟩
  have fits (host : Bytes) (same : hostStr url = some host) : Fits plainEnvironment host := by
    rw [host_eq, Option.some.injEq] at same
    exact same ▸ fits_plainEnvironment (by decide)
  refine ⟨url, str "h", _, _, created, rfl, run_policyRun fits locatable _, named, host_eq, ?_⟩
  intro claimed
  have looked : (lookedParts plainEnvironment (str "h")).map folded = [str "h"] := by decide
  rw [looked] at claimed
  rcases claimed.mp enabled with later | ⟨above, filled, start, other, _⟩
  · dsimp only at later
    rw [shortened] at later
    exact absurd later (by decide)
  · rcases List.prefix_cons_iff.mp start with rfl | ⟨rest, rfl, none_left⟩
    · exact filled rfl
    · rw [List.prefix_nil.mp none_left] at other
      exact other rfl

end Neosurf.Urldb
