import Neosurf.Construction.Llcache.Redirect

namespace Neosurf.Llcache

/-- This answer to a redirect leads to a retrieval. -/
def Followed (httpCode : Int) (post : Option PostData) : Prop :=
  httpCode = 301 ∨ httpCode = 302 ∨ httpCode = 303 ∨ (httpCode = 307 ∧ post = none)

/-- The response code of the fetch that runs for an object. -/
def httpCodeOf (object : LlcacheObject) : Int := (object.fetch.fetch.map Fetch.httpCode).getD 0

/-- No target may have one of these schemes. -/
def LocalScheme (url : Nsurl) : Prop :=
  url.components.scheme = some (str "file") ∨ url.components.scheme = some (str "about") ∨
    url.components.scheme = some (str "resource")

/-- Nothing is retrieved and the users stay on the object. -/
def StaysOnObject (result : Redirected) : Prop :=
  result.retrievals = [] ∧ result.replacement = none

theorem schemeIsequal_iff {url : Nsurl} {name : LwcString} :
    (schemeIsequal url name).2 = true ↔ url.components.scheme = some name := by
  unfold schemeIsequal
  split
  · rename_i scheme stored
    rw [stored]
    simp [lwcStringIsequal]
  · rename_i absent
    rw [absent]
    simp

theorem schemeIsequal_error (url : Nsurl) (name : LwcString) :
    (schemeIsequal url name).1 = lwcErrorOk := by
  unfold schemeIsequal
  split <;> rfl

/-- Only about and resource are unrestricted. -/
theorem isRestricted_iff {url : Nsurl} :
    isRestricted url = true ↔ url.components.scheme ≠ some (str "resource") ∧
      url.components.scheme ≠ some (str "about") := by
  rw [Ne, Ne, ← schemeIsequal_iff, ← schemeIsequal_iff]
  simp [isRestricted, schemeIsequal_error]

/-- The forbidden schemes are the local ones. -/
theorem isForbidden_iff {url : Nsurl} : isForbidden url = true ↔ LocalScheme url := by
  rw [LocalScheme, ← schemeIsequal_iff, ← schemeIsequal_iff, ← schemeIsequal_iff]
  simp [isForbidden, schemeIsequal_error, or_assoc]

/-- An event fails exactly when the callback of a user does. -/
theorem sendEventToUsers_error_iff (callback : Nat → LlcacheEvent → Nserror × Bool)
    (event : LlcacheEvent) (users : List ObjectUser) :
    (sendEventToUsers callback event users).1 ≠ .ok ↔
      ∃ user ∈ users, (callback user.handle event).1 ≠ .ok := by
  induction users with
  | nil => simp [sendEventToUsers]
  | cons user rest ih =>
      rw [sendEventToUsers]
      dsimp only
      split
      · rename_i refused
        simp [refused]
      · rename_i accepted
        rw [not_not] at accepted
        simp only [List.mem_cons, exists_eq_or_imp, accepted, ne_eq, not_true_eq_false, false_or]
        exact ih

theorem redirectPost_eq_none_iff {httpCode : Int} {post : Option PostData} :
    redirectPost httpCode post = none ↔ ¬ Followed httpCode post := by
  unfold redirectPost Followed
  split
  · rename_i dropped
    simp only [reduceCtorEq, false_iff, not_not]
    tauto
  · rename_i other
    split
    · rename_i stops
      simp only [true_iff]
      tauto
    · rename_i follows
      simp only [reduceCtorEq, false_iff, not_not]
      tauto

/-- The retrieval of the target is always recorded. -/
theorem retrieveTarget_not_stays (around : Surroundings) (redirected : Redirected)
    (hstsUrl : Nsurl) (hstsInUse : Bool) (post : Option PostData) :
    ¬ StaysOnObject (retrieveTarget around redirected hstsUrl hstsInUse post) := by
  unfold retrieveTarget StaysOnObject
  dsimp only
  split <;> simp

/-- A redirect of content that is not about or resource keeps the users where they are
exactly when the content itself has the file scheme, too many redirects were followed, a
user refuses the redirect, no fetcher takes the target or the response code is not
followed. The scheme of the target makes no difference, not even a local one. -/
theorem llcacheFetchRedirect_stays_iff {around : Surroundings} {object : LlcacheObject}
    {target : Bytes} {url : Nsurl} {result : Redirected}
    (notResource : object.url.components.scheme ≠ some (str "resource"))
    (notAbout : object.url.components.scheme ≠ some (str "about"))
    (joined : Nsurl.nsurlJoin around.junk object.url target = .ok url)
    (done : llcacheFetchRedirect around object target = some result) :
    StaysOnObject result ↔
      object.url.components.scheme = some (str "file") ∨
      REDIRECT_LIMIT < object.fetch.redirectCount ∨
      (∃ user ∈ object.users, (around.callback user.handle
        (.redirect object.url (hstsTransformUrl around url).1)).1 ≠ .ok) ∨
      fetchCanFetch around (hstsTransformUrl around url).1 = false ∨
      ¬ Followed (httpCodeOf object) object.fetch.post := by
  have restricted := isRestricted_iff.mpr ⟨notResource, notAbout⟩
  have forbidden : isForbidden object.url = true ↔
      object.url.components.scheme = some (str "file") := by
    rw [isForbidden_iff, LocalScheme]
    tauto
  rw [← sendEventToUsers_error_iff, ← redirectPost_eq_none_iff]
  unfold llcacheFetchRedirect at done
  dsimp only [completeObject] at done
  rw [joined] at done
  dsimp only at done
  split at done
  · rename_i tooMany
    cases done
    exact iff_of_true ⟨rfl, rfl⟩ (Or.inr (Or.inl tooMany))
  · rename_i few
    split at done
    · rename_i refused
      cases done
      exact iff_of_true ⟨rfl, rfl⟩ (Or.inr (Or.inr (Or.inl refused)))
    · rename_i accepted
      split at done
      · rename_i guarded
        cases done
        exact iff_of_true ⟨rfl, rfl⟩ (Or.inl (forbidden.mp guarded.2))
      · rename_i unguarded
        split at done
        · rename_i unfetchable
          cases done
          exact iff_of_true ⟨rfl, rfl⟩ (Or.inr (Or.inr (Or.inr (Or.inl unfetchable))))
        · rename_i fetchable
          split at done
          · rename_i stops
            cases done
            exact iff_of_true ⟨rfl, rfl⟩ (Or.inr (Or.inr (Or.inr (Or.inr stops))))
          · rename_i post follows
            cases done
            refine iff_of_false (retrieveTarget_not_stays _ _ _ _ _) ?_
            rintro (file | tooMany | refused | unfetchable | stops)
            · exact unguarded ⟨restricted, forbidden.mpr file⟩
            · exact few tooMany
            · exact accepted refused
            · exact fetchable unfetchable
            · change redirectPost (httpCodeOf object) object.fetch.post = _ at follows
              rw [stops] at follows
              cases follows

/-- A fetcher takes every file URL, every user agrees, and nothing uses HSTS. -/
def fileSurroundings : Surroundings where
  junk := fun _ => 0
  callback := fun _ _ => (.ok, false)
  hstsEnabled := fun _ => false
  fetchers := [{ scheme := str "file", acceptable := fun _ => true }]
  retrieve := fun _ => .ok 1

/-- The components of `http://a/`. -/
def pageComponents : NsurlComponents :=
  { scheme := some (str "http"), host := some (str "a"), path := some (str "/"), schemeType := .http }

/-- The page `http://a/`, whose fetch answers with this code. -/
def pageObject (httpCode : Int) : LlcacheObject :=
  { url := Nsurl.derive pageComponents (str "http://a/") 9
    users := [{ handle := 7 }]
    fetch := { fetch := some { httpCode } } }

/-- A redirect with code 302 takes the users of `http://a/` to a local file. -/
theorem redirect_reaches_file : ∃ target result,
    Nsurl.nsurlCreate (fun _ => 0) (str "http://a/") = .ok (pageObject 302).url ∧
      Nsurl.nsurlJoin (fun _ => 0) (pageObject 302).url (str "file:///etc/passwd") = .ok target ∧
      (hstsTransformUrl fileSurroundings target).1 = target ∧ LocalScheme target ∧
      llcacheFetchRedirect fileSurroundings (pageObject 302) (str "file:///etc/passwd") =
        some result ∧
      result.retrievals.map Retrieval.url = [target] ∧
      result.replacement = some (1, [{ handle := 7 }]) ∧ ¬ StaysOnObject result := by
  refine ⟨_, _, rfl, rfl, rfl, Or.inl rfl, rfl, rfl, rfl, ?_⟩
  rintro ⟨started, -⟩
  cases started

/-- A redirect with code 300 leaves the users of `http://a/` where they are. -/
theorem redirect_not_followed : ∃ result,
    llcacheFetchRedirect fileSurroundings (pageObject 300) (str "file:///etc/passwd") =
      some result ∧ StaysOnObject result := by
  refine ⟨_, rfl, (@llcacheFetchRedirect_stays_iff fileSurroundings (pageObject 300)
    (str "file:///etc/passwd") _ _ (by decide) (by decide) rfl rfl).mpr ?_⟩
  exact Or.inr (Or.inr (Or.inr (Or.inr (by unfold Followed; decide))))

end Neosurf.Llcache
