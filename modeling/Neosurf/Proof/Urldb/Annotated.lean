import Neosurf.Construction.Urldb.Operations

namespace Neosurf.Urldb

variable {env : Environment} {db after : Database}

/-- A change of a node leaves its place, its URL and its cookies alone. -/
structure NodeAnnotation (change : PathData → PathData) : Prop where
  scheme : ∀ d, (change d).scheme = d.scheme
  port : ∀ d, (change d).port = d.port
  segment : ∀ d, (change d).segment = d.segment
  url : ∀ d, (change d).url = d.url
  cookies : ∀ d, (change d).cookies = d.cookies

/-- A change of a host only changes what is noted about it and about one of its nodes. -/
structure HostAnnotation (change : HostData → HostData) : Prop where
  part : ∀ h, (change h).part = h.part
  cookies : ∀ h, (change h).cookies = h.cookies
  paths : ∃ (test : Bytes → PathData → Bool) (changeNode : PathData → PathData) (keys : List Bytes),
    NodeAnnotation changeNode ∧
      ∀ h, (change h).paths = h.paths.extend test (fun _ t => t) changeNode keys

/-- At most the notes about one host have changed. -/
def Annotated (db after : Database) : Prop :=
  ∃ change parts, HostAnnotation change ∧
    after = { db with hosts := db.hosts.modifyAt change parts }

theorem nodeAnnotation_id : NodeAnnotation id where
  scheme _ := rfl
  port _ := rfl
  segment _ := rfl
  url _ := rfl
  cookies _ := rfl

theorem nodeAnnotation_setSpace (key : ProtSpaceKey) : NodeAnnotation (PathData.setSpace key) where
  scheme _ := rfl
  port _ := rfl
  segment _ := rfl
  url _ := rfl
  cookies _ := rfl

theorem nodeAnnotation_changed (now : Int) (change : UrlChange) :
    NodeAnnotation (PathData.changed now change) := by
  constructor <;> intro d <;> cases change <;> rfl

/-- A change of what stands beside the paths of a host. -/
theorem hostAnnotation_of_paths {change : HostData → HostData}
    (part : ∀ h, (change h).part = h.part) (cookies : ∀ h, (change h).cookies = h.cookies)
    (paths : ∀ h, (change h).paths = h.paths) : HostAnnotation change where
  part := part
  cookies := cookies
  paths := ⟨fun _ _ => false, id, [], nodeAnnotation_id, paths⟩

theorem hostAnnotation_annotate {changeHost : HostData → HostData}
    {changeNode : PathData → PathData} (scheme : LwcString) (port : Nat) (path : Bytes)
    (part : ∀ h, (changeHost h).part = h.part) (cookies : ∀ h, (changeHost h).cookies = h.cookies)
    (paths : ∀ h, (changeHost h).paths = h.paths) (node : NodeAnnotation changeNode) :
    HostAnnotation (HostData.annotate scheme port path changeHost changeNode) where
  part _ := part _
  cookies _ := cookies _
  paths := ⟨_, changeNode, _, node, fun _ => paths _⟩

theorem annotated_refl (db : Database) : Annotated db db :=
  ⟨id, [], hostAnnotation_of_paths (fun _ => rfl) (fun _ => rfl) fun _ => rfl, rfl⟩

theorem annotated_annotate {changeHost : HostData → HostData} {changeNode : PathData → PathData}
    (url : Nsurl) (part : ∀ h, (changeHost h).part = h.part)
    (cookies : ∀ h, (changeHost h).cookies = h.cookies)
    (paths : ∀ h, (changeHost h).paths = h.paths) (node : NodeAnnotation changeNode) :
    Annotated db (annotate env db url changeHost changeNode) := by
  unfold annotate
  split
  · exact ⟨_, _, hostAnnotation_annotate _ _ _ part cookies paths node, rfl⟩
  · exact annotated_refl db

theorem annotated_setAuthDetails (url : Nsurl) (realm auth : Bytes) :
    Annotated (addUrl env db url).1 (setAuthDetails env db url realm auth) := by
  unfold setAuthDetails
  dsimp only
  split
  · exact annotated_refl _
  · apply annotated_annotate
    · intro h
      rfl
    · intro h
      rfl
    · intro h
      rfl
    · exact nodeAnnotation_setSpace _

theorem annotated_getAuthDetails (url : Nsurl) (realm : Option Bytes) :
    Annotated (addUrl env db url).1 (getAuthDetails env db url realm).1 := by
  unfold getAuthDetails
  dsimp only
  split
  · exact annotated_refl _
  · split
    · exact annotated_refl _
    · exact annotated_refl _
    · split
      · exact annotated_refl _
      · apply annotated_annotate
        · intro h
          rfl
        · intro h
          rfl
        · intro h
          rfl
        · exact nodeAnnotation_setSpace _

theorem annotated_setCertPermissions (url : Nsurl) (permit : Bool) :
    Annotated (addUrl env db url).1 (setCertPermissions env db url permit) := by
  apply annotated_annotate
  · intro h
    rfl
  · intro h
    rfl
  · intro h
    rfl
  · exact nodeAnnotation_id

theorem annotated_setHstsPolicy (url : Nsurl) (header : Bytes) :
    Annotated db (setHstsPolicy env db url header).1 ∨
      Annotated (addUrl env db url).1 (setHstsPolicy env db url header).1 := by
  unfold setHstsPolicy
  split
  · right
    dsimp only
    split
    · exact annotated_refl _
    · split
      · exact annotated_refl _
      · split
        · exact annotated_refl _
        · apply annotated_annotate
          · intro h
            rfl
          · intro h
            rfl
          · intro h
            rfl
          · exact nodeAnnotation_id
  · exact Or.inl (annotated_refl db)

theorem annotated_getHstsEnabled (url : Nsurl) :
    Annotated db (getHstsEnabled env db url).1 ∨
      Annotated (addUrl env db url).1 (getHstsEnabled env db url).1 := by
  unfold getHstsEnabled
  split
  · right
    dsimp only
    split <;> exact annotated_refl _
  · exact Or.inl (annotated_refl db)

theorem annotated_changeUrl (url : Nsurl) (change : UrlChange) :
    Annotated db (changeUrl env db url change) := by
  apply annotated_annotate
  · intro h
    rfl
  · intro h
    rfl
  · intro h
    rfl
  · exact nodeAnnotation_changed _ _

theorem annotated_loadHsts (host : Bytes) (hsts : HstsData) :
    Annotated db (loadHsts env db host hsts) := by
  refine ⟨fun h => { h with hsts }, hostParts env host, ?_, rfl⟩
  exact hostAnnotation_of_paths (fun _ => rfl) (fun _ => rfl) fun _ => rfl

theorem annotated_loadUrlData (host : Bytes) (scheme : LwcString) (port : Nat) (path : Bytes)
    (urld : UrlData) : Annotated db (loadUrlData env db host scheme port path urld) := by
  have node : NodeAnnotation fun d => { d with urld } := by constructor <;> intro d <;> rfl
  unfold loadUrlData
  refine ⟨_, hostParts env host, ?_, rfl⟩
  exact ⟨fun _ => rfl, fun _ => rfl, _, _, _, node, fun _ => rfl⟩

/-- An operation is about notes. -/
def Operation.IsNote : Operation → Prop
  | .setAuthDetails _ _ _ => True
  | .getAuthDetails _ _ => True
  | .setCertPermissions _ _ => True
  | .setHstsPolicy _ _ => True
  | .getHstsEnabled _ => True
  | .changeUrl _ _ => True
  | .loadHsts _ _ => True
  | .loadUrlData _ _ _ _ _ => True
  | _ => False

/-- The URL that a note is about is added first. -/
def Operation.noteUrl : Operation → Option Nsurl
  | .setAuthDetails url _ _ => some url
  | .getAuthDetails url _ => some url
  | .setCertPermissions url _ => some url
  | .setHstsPolicy url _ => some url
  | .getHstsEnabled url => some url
  | _ => none

/-- An operation about notes adds at most its URL, and changes notes after that. -/
theorem annotated_step {op : Operation} (note : op.IsNote) (done : step env db op = some after) :
    Annotated db after ∨
      ∃ url, op.noteUrl = some url ∧ Annotated (addUrl env db url).1 after := by
  cases op with
  | setAuthDetails url realm auth =>
      cases done
      exact Or.inr ⟨url, rfl, annotated_setAuthDetails url realm auth⟩
  | getAuthDetails url realm =>
      cases done
      exact Or.inr ⟨url, rfl, annotated_getAuthDetails url realm⟩
  | setCertPermissions url permit =>
      cases done
      exact Or.inr ⟨url, rfl, annotated_setCertPermissions url permit⟩
  | setHstsPolicy url header =>
      cases done
      exact (annotated_setHstsPolicy url header).imp_right fun noted => ⟨url, rfl, noted⟩
  | getHstsEnabled url =>
      cases done
      exact (annotated_getHstsEnabled url).imp_right fun noted => ⟨url, rfl, noted⟩
  | changeUrl url change =>
      cases done
      exact Or.inl (annotated_changeUrl url change)
  | loadHsts host hsts =>
      cases done
      exact Or.inl (annotated_loadHsts host hsts)
  | loadUrlData host scheme port path urld =>
      cases done
      exact Or.inl (annotated_loadUrlData host scheme port path urld)
  | addUrl => exact note.elim
  | getCookie => exact note.elim
  | setCookie => exact note.elim
  | deleteCookie => exact note.elim
  | loadFilter => exact note.elim
  | loadHost => exact note.elim
  | loadUrl => exact note.elim
  | loadCookie => exact note.elim
  | destroy => exact note.elim

end Neosurf.Urldb
