import Neosurf.Proof.Urldb.HstsPolicy
import Neosurf.Proof.Urldb.Listed

namespace Neosurf.Urldb

open SiblingTree

variable {env : Environment} {db after : Database}

/-- Hosts fit, and a policy is loaded for a host that was added. -/
def Filing (env : Environment) (db : Database) (op : Operation) : Prop :=
  Fitting env db op ∧ ∀ host hsts, op = .loadHsts host hsts →
    Chained db ((hostParts env host).map folded)

/-- The policy of the host at the end of these parts. -/
def Hosts.policy (parts : List Bytes) (t : Hosts) : HstsData := t.view HostData.hsts {} parts

theorem Hosts.policy_eq (parts : List Bytes) (t : Hosts) : t.policy parts = (t.notes parts).hsts := by
  rw [policy, Hosts.view, seenAt, notes, Hosts.walk]
  cases (SiblingTree.walk HostData.isNamed parts t).bind List.getLast? <;> rfl

/-- Every host with a policy is in a search tree. -/
def PoliciesChained (db : Database) : Prop :=
  ∀ parts, db.hosts.policy parts ≠ {} → Chained db (parts.map folded)

/-- No host leaves the search trees. -/
def ChainsKept (db after : Database) : Prop := ∀ parts, Chained db parts → Chained after parts

theorem chainsKept_refl (db : Database) : ChainsKept db db := fun _ chained => chained

theorem chainsKept_addHost (host : Bytes) : ChainsKept db (addHost env db host) :=
  fun _ => chained_addHost

theorem chainsKept_addUrl (url : Nsurl) : ChainsKept db (addUrl env db url).1 := by
  unfold addUrl
  dsimp only
  split
  · exact fun parts chained => chained_addHost chained
  · exact fun parts chained => chained

theorem chainsKept_insertCookie (c : Cookie) (scheme : LwcString) (url : Nsurl) :
    ChainsKept db (insertCookie env db c scheme url) := by
  have found (host : Bytes) : ChainsKept db (findOrAddHost env db host).1 := by
    unfold findOrAddHost
    split
    · exact chainsKept_refl db
    · exact chainsKept_addHost host
  unfold insertCookie
  split
  · exact found (c.domain.drop 1)
  · exact found c.domain

theorem chainsKept_loadUrl (junk : Nsurl.Buff) (host scheme ports rest : Bytes) :
    ChainsKept db (loadUrl env db junk host scheme ports rest) := by
  unfold loadUrl
  split
  · exact chainsKept_refl db
  · dsimp only
    split <;> exact fun parts chained => chained

theorem chainsKept_annotated (noted : Annotated db after) : ChainsKept db after := by
  obtain ⟨change, parts, annotation, rfl⟩ := noted
  exact fun parts chained => chained

/-- Policies stay chained where nothing new is noted about hosts. -/
theorem policiesChained_kept (hosts : HostsKept db after) (chains : ChainsKept db after)
    (chained : PoliciesChained db) : PoliciesChained after := by
  intro parts policy
  rw [Hosts.policy_eq, hosts parts, ← Hosts.policy_eq] at policy
  exact chains _ (chained parts policy)

/-- A change at a chained host keeps policies chained. -/
theorem policiesChained_modifyAt {change : HostData → HostData} {parts : List Bytes}
    (kept : ∀ h, (change h).part = h.part) (here : Chained db (parts.map folded))
    (chained : PoliciesChained db) :
    PoliciesChained { db with hosts := db.hosts.modifyAt change parts } := by
  intro others policy
  by_cases same : others.map folded = parts.map folded
  · rw [same]
    exact here
  · apply chained others
    rw [Hosts.policy, ← Hosts.view_modifyAt_other kept same]
    exact policy

theorem policiesChained_annotate {url : Nsurl} {changeHost : HostData → HostData}
    {changeNode : PathData → PathData} (kept : ∀ h, (changeHost h).part = h.part)
    (chained : PoliciesChained db) :
    PoliciesChained (annotate env db url changeHost changeNode) := by
  unfold annotate
  split
  · rename_i found scheme path done _ _
    obtain ⟨_, _, _, chain, _, _, _, _, searched, walked, _⟩ := findUrl_eq_some.mp done
    apply policiesChained_modifyAt _ _ chained
    · intro h
      exact kept _
    · rw [Hosts.folded_walk walked]
      exact ⟨_, chain, (AATree.find_eq_some searched).1, rfl⟩
  · exact chained

theorem policiesChained_addUrl (url : Nsurl) (chained : PoliciesChained db) :
    PoliciesChained (addUrl env db url).1 :=
  policiesChained_kept (hostsKept_addUrl url) (chainsKept_addUrl url) chained

/-- A step that only adds fitting hosts keeps policies chained. -/
theorem policiesChained_step {op : Operation} (filing : Filing env db op)
    (chained : PoliciesChained db) (done : step env db op = some after) : PoliciesChained after := by
  cases op with
  | addUrl url =>
      cases done
      exact policiesChained_addUrl url chained
  | getCookie url includeHttpOnly =>
      cases done
      exact policiesChained_addUrl url chained
  | setCookie header url referer =>
      rw [step] at done
      cases answer : setCookie env db header url referer with
      | done db answered =>
          simp only [answer] at done
          cases done
          refine setCookie_rule ?_ chained answer
          intro c scheme db stored known
          exact policiesChained_kept (hostsKept_insertCookie c scheme _)
            (chainsKept_insertCookie c scheme _) known
      | diverges => simp [answer] at done
  | deleteCookie domain path name =>
      cases done
      exact policiesChained_kept (hostsKept_deleteCookie domain path name)
        (fun _ here => here) chained
  | loadFilter =>
      cases done
      exact chained
  | loadHost host =>
      cases done
      exact policiesChained_kept (hostsKept_addHost db host) (chainsKept_addHost host) chained
  | loadUrl junk host scheme ports rest =>
      cases done
      apply policiesChained_kept (hostsKept_loadUrl junk host scheme ports rest)
        (chainsKept_loadUrl junk host scheme ports rest)
      exact policiesChained_kept (hostsKept_addHost db host) (chainsKept_addHost host) chained
  | loadCookie c scheme page =>
      cases done
      exact policiesChained_kept (hostsKept_insertCookie c scheme page)
        (chainsKept_insertCookie c scheme page) chained
  | destroy =>
      cases done
      intro parts policy
      cases parts <;> exact absurd rfl policy
  | setAuthDetails url realm auth =>
      cases done
      apply policiesChained_kept (hostsKept_setAuthDetails url realm auth) _ chained
      intro parts here
      exact chainsKept_annotated (annotated_setAuthDetails url realm auth) parts
        (chainsKept_addUrl url parts here)
  | getAuthDetails url realm =>
      cases done
      apply policiesChained_kept (hostsKept_getAuthDetails url realm) _ chained
      intro parts here
      exact chainsKept_annotated (annotated_getAuthDetails url realm) parts
        (chainsKept_addUrl url parts here)
  | setCertPermissions url permit =>
      cases done
      apply policiesChained_annotate _ (policiesChained_addUrl url chained)
      intro h
      rfl
  | setHstsPolicy url header =>
      cases done
      unfold setHstsPolicy
      have added : PoliciesChained (addUrl env db url).1 := policiesChained_addUrl url chained
      split
      · dsimp only
        split
        · exact added
        · split
          · exact added
          · split
            · exact added
            · apply policiesChained_annotate _ added
              intro h
              rfl
      · exact chained
  | getHstsEnabled url =>
      cases done
      unfold getHstsEnabled
      split
      · dsimp only
        split <;> exact policiesChained_addUrl url chained
      · exact chained
  | changeUrl url change =>
      cases done
      apply policiesChained_annotate _ chained
      intro h
      rfl
  | loadHsts host hsts =>
      cases done
      apply policiesChained_modifyAt _ (filing.2 host hsts rfl) chained
      intro h
      rfl
  | loadUrlData host scheme port path urld =>
      cases done
      have chains : ChainsKept db (loadUrlData env db host scheme port path urld) :=
        fun _ here => here
      apply policiesChained_kept _ chains chained
      intro parts
      apply Hosts.notes_modifyAt_kept
      · intro h
        rfl
      · intro h
        rfl

/-- Every run that only adds fitting hosts keeps policies chained. -/
theorem policiesChained_run (reached : Reachable env Filing db) : PoliciesChained db := by
  induction reached with
  | empty =>
      intro parts policy
      cases parts <;> exact absurd rfl policy
  | step now op before filing done ih => exact policiesChained_step filing ih done

theorem reachable_fitting (reached : Reachable env Filing db) : Reachable env Fitting db := by
  induction reached with
  | empty => exact .empty
  | step now op before filing done ih => exact .step now op ih filing.1 done

end Neosurf.Urldb
