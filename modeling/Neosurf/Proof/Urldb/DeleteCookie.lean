import Neosurf.Proof.Urldb.StoredCookies

namespace Neosurf.Urldb

open SiblingTree

variable {env : Environment} {db : Database} {domain path name : Bytes}

/-- A node without its cookies of this domain, path and name. -/
def PathData.without (domain path name : Bytes) (d : PathData) : PathData :=
  { d with cookies := d.cookies.filter fun c => !c.isAt domain path name }

def HostData.without (domain path name : Bytes) (h : HostData) : HostData :=
  { h with
    cookies := h.cookies.filter fun c => !c.isAt domain path name
    paths := h.paths.map (PathData.without domain path name) }

/-- The database without all cookies of this domain, path and name. -/
def Database.without (domain path name : Bytes) (db : Database) : Database :=
  { db with hosts := db.hosts.map (HostData.without domain path name) }

/-- All cookies of this domain, path and name are gone, and nothing else has changed. -/
structure CookieDeleted (domain path name : Bytes) (db after : Database) : Prop where
  gone : ∀ c ∈ after.cookies, c.isAt domain path name = false
  others : after.without domain path name = db.without domain path name

theorem removeFrom_eq_some {cookies rest : List Cookie}
    (removed : removeFrom domain path name cookies = some rest) :
    ∃ before c after, cookies = before ++ c :: after ∧ rest = before ++ after ∧
      c.isAt domain path name = true := by
  induction cookies generalizing rest with
  | nil => cases removed
  | cons d cookies ih =>
      rw [removeFrom] at removed
      split at removed
      · rename_i here
        cases removed
        exact ⟨[], d, cookies, rfl, rfl, by simp [Cookie.isAt, here]⟩
      · obtain ⟨rest, later, rfl⟩ := Option.map_eq_some_iff.mp removed
        obtain ⟨before, c, after, rfl, rfl, here⟩ := ih later
        exact ⟨d :: before, c, after, rfl, rfl, here⟩

theorem removeFrom_eq_none {cookies : List Cookie}
    (absent : removeFrom domain path name cookies = none) :
    ∀ c ∈ cookies, c.isAt domain path name = false := by
  induction cookies with
  | nil => simp
  | cons d cookies ih =>
      rw [removeFrom] at absent
      split at absent
      · cases absent
      · rename_i elsewhere
        intro c inside
        rcases List.mem_cons.mp inside with rfl | inside
        · simpa [Cookie.isAt, and_assoc] using elsewhere
        · exact ih (Option.map_eq_none_iff.mp absent) c inside

/-- One cookie is removed from a list, and no other cookie. -/
theorem removeFrom_spec {cookies rest : List Cookie}
    (removed : removeFrom domain path name cookies = some rest) :
    cookies.countP (Cookie.isAt domain path name) =
        rest.countP (Cookie.isAt domain path name) + 1 ∧
      (rest.filter fun c => !c.isAt domain path name) =
        cookies.filter fun c => !c.isAt domain path name := by
  obtain ⟨before, c, after, rfl, rfl, here⟩ := removeFrom_eq_some removed
  constructor
  · rw [List.countP_append, List.countP_append, List.countP_cons_of_pos here, Nat.add_assoc]
  · rw [List.filter_append, List.filter_append, List.filter_cons_of_neg (by simp [here])]

theorem countP_flatMap_cookies (t : Paths) (children next : Paths) (d : PathData)
    (shape : t = .cons d children next) (test : Cookie → Bool) :
    (t.nodes.flatMap PathData.cookies).countP test = d.cookies.countP test +
      ((children.nodes.flatMap PathData.cookies).countP test +
        (next.nodes.flatMap PathData.cookies).countP test) := by
  rw [shape, nodes, List.flatMap_cons, List.flatMap_append, List.countP_append, List.countP_append]

/-- One cookie is removed from a path tree, and no other cookie. -/
theorem Paths.deleteCookie_spec {t after : Paths}
    (done : t.deleteCookie domain path name = some after) :
    (t.nodes.flatMap PathData.cookies).countP (Cookie.isAt domain path name) =
        (after.nodes.flatMap PathData.cookies).countP (Cookie.isAt domain path name) + 1 ∧
      after.map (PathData.without domain path name) = t.map (PathData.without domain path name) := by
  induction t generalizing after with
  | nil => cases done
  | cons d children next children_ih next_ih =>
      rw [deleteCookie] at done
      simp only [countP_flatMap_cookies _ children next d rfl]
      split at done
      · rename_i cookies removed
        cases done
        obtain ⟨count, others⟩ := removeFrom_spec removed
        rw [countP_flatMap_cookies _ children next _ rfl, count, map, map, PathData.without,
          PathData.without, others]
        refine ⟨?_, rfl⟩
        dsimp only
        omega
      · split at done
        · rename_i inside
          cases done
          obtain ⟨count, others⟩ := children_ih inside
          rw [countP_flatMap_cookies _ _ next d rfl, count, map, map, others]
          exact ⟨by omega, rfl⟩
        · obtain ⟨rest, found, rfl⟩ := Option.map_eq_some_iff.mp done
          obtain ⟨count, others⟩ := next_ih found
          rw [countP_flatMap_cookies _ children _ d rfl, count, map, map, others]
          exact ⟨by omega, rfl⟩

theorem Paths.deleteCookie_eq_none {t : Paths} (absent : t.deleteCookie domain path name = none) :
    ∀ c ∈ t.nodes.flatMap PathData.cookies, c.isAt domain path name = false := by
  induction t with
  | nil => simp [nodes]
  | cons d children next children_ih next_ih =>
      rw [deleteCookie] at absent
      split at absent
      · cases absent
      · rename_i own
        split at absent
        · cases absent
        · rename_i below
          intro c inside
          rw [nodes, List.flatMap_cons, List.flatMap_append, List.mem_append, List.mem_append]
            at inside
          rcases inside with here | here | here
          · exact removeFrom_eq_none own c here
          · exact children_ih below c here
          · exact next_ih (Option.map_eq_none_iff.mp absent) c here

/-- A host loses at most one cookie, and no other cookie. -/
theorem HostData.deleteCookie_spec (domain path name : Bytes) (h : HostData) :
    (h.deleteCookie domain path name).allCookies.countP (Cookie.isAt domain path name) =
        h.allCookies.countP (Cookie.isAt domain path name) - 1 ∧
      (h.deleteCookie domain path name).without domain path name = h.without domain path name := by
  unfold HostData.deleteCookie
  cases own : removeFrom domain path name h.cookies with
  | some cookies =>
      obtain ⟨count, others⟩ := removeFrom_spec own
      dsimp only
      rw [allCookies, allCookies, List.countP_append, List.countP_append, count, without, without,
        others]
      refine ⟨?_, rfl⟩
      dsimp only
      omega
  | none =>
      have zero : h.cookies.countP (Cookie.isAt domain path name) = 0 := by
        rw [List.countP_eq_zero]
        intro c inside
        rw [removeFrom_eq_none own c inside]
        exact Bool.false_ne_true
      dsimp only
      rw [allCookies, allCookies, List.countP_append, List.countP_append, zero, without, without]
      cases below : h.paths.deleteCookie domain path name with
      | some after =>
          obtain ⟨count, others⟩ := Paths.deleteCookie_spec below
          rw [Option.getD_some, count, others]
          refine ⟨?_, rfl⟩
          dsimp only
          omega
      | none =>
          have none_below : (h.paths.nodes.flatMap PathData.cookies).countP
              (Cookie.isAt domain path name) = 0 := by
            rw [List.countP_eq_zero]
            intro c inside
            rw [Paths.deleteCookie_eq_none below c inside]
            exact Bool.false_ne_true
          rw [Option.getD_none, none_below]
          exact ⟨rfl, rfl⟩

theorem Hosts.deleteCookie_eq_map (domain path name : Bytes) (t : Hosts) :
    t.deleteCookie domain path name = t.map (HostData.deleteCookie domain path name) := by
  induction t with
  | nil => rfl
  | cons h children next children_ih next_ih =>
      rw [deleteCookie, map, children_ih, next_ih]

/-- A cookie is deleted from the whole database exactly when no host has it twice. -/
theorem deleteCookie_iff (db : Database) (domain path name : Bytes) :
    CookieDeleted domain path name db (deleteCookie db domain path name) ↔
      ∀ h ∈ db.hosts.nodes, h.allCookies.countP (Cookie.isAt domain path name) ≤ 1 := by
  have others : (deleteCookie db domain path name).without domain path name =
      db.without domain path name := by
    rw [Database.without, Database.without, Urldb.deleteCookie, Hosts.deleteCookie_eq_map,
      map_map_congr fun h => (HostData.deleteCookie_spec domain path name h).2]
  have left (h : HostData) :
      (∀ c ∈ (h.deleteCookie domain path name).allCookies, c.isAt domain path name = false) ↔
        h.allCookies.countP (Cookie.isAt domain path name) ≤ 1 := by
    have count := (HostData.deleteCookie_spec domain path name h).1
    rw [← Nat.sub_eq_zero_iff_le, ← count, List.countP_eq_zero]
    simp only [Bool.not_eq_true]
  have gone : (∀ c ∈ (deleteCookie db domain path name).cookies, c.isAt domain path name = false) ↔
      ∀ h ∈ db.hosts.nodes, h.allCookies.countP (Cookie.isAt domain path name) ≤ 1 := by
    rw [Database.cookies, Urldb.deleteCookie, Hosts.deleteCookie_eq_map, nodes_map]
    simp only [List.mem_flatMap, List.mem_map, ← left]
    constructor
    · intro all h inside c stored
      exact all c ⟨_, ⟨h, inside, rfl⟩, stored⟩
    · rintro all c ⟨_, ⟨h, inside, rfl⟩, stored⟩
      exact all h inside c stored
  exact ⟨fun deleted => gone.mp deleted.gone, fun once => ⟨gone.mpr once, others⟩⟩

/-- The same cookie of `http://h/x` and of `https://h/x` is only deleted once. -/
theorem deleteCookie_leaves : ∃ page secure db,
    Nsurl.nsurlCreate (fun _ => 0) (str "http://h/x") = .ok page ∧
      Nsurl.nsurlCreate (fun _ => 0) (str "https://h/x") = .ok secure ∧
      Reachable plainEnvironment (fun _ _ _ => True) db ∧
      ¬ CookieDeleted (str "h") (str "/") (str "a") db
        (deleteCookie db (str "h") (str "/") (str "a")) := by
  have computed : ∃ page secure, Nsurl.nsurlCreate (fun _ => 0) (str "http://h/x") = .ok page ∧
      Nsurl.nsurlCreate (fun _ => 0) (str "https://h/x") = .ok secure ∧
      (setCookie plainEnvironment {} (str "a=b") page none).check (fun db =>
        (setCookie plainEnvironment db (str "a=b") secure none).check fun db =>
          (deleteCookie db (str "h") (str "/") (str "a")).cookies.any
            (Cookie.isAt (str "h") (str "/") (str "a"))) = true :=
    ⟨_, _, rfl, rfl, by decide⟩
  obtain ⟨page, secure, created, other, checked⟩ := computed
  obtain ⟨first, done, checked⟩ := SetResult.check_eq_true checked
  obtain ⟨db, again, checked⟩ := SetResult.check_eq_true checked
  obtain ⟨c, left, here⟩ := List.any_eq_true.mp checked
  have step_eq : step (plainEnvironment.at 100) first (.setCookie (str "a=b") secure none) =
      some db := by
    have same : plainEnvironment.at 100 = plainEnvironment := rfl
    rw [step, same, again]
  refine ⟨page, secure, db, created, other,
    .step 100 _ (reachable_setCookie done) trivial step_eq, fun deleted => ?_⟩
  rw [deleted.gone c left] at here
  cases here

end Neosurf.Urldb
