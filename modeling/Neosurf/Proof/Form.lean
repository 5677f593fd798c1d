/-
This file proves which elements of a form get entries in its data. The submit button that is taken
when none is given is the first one, unless that is an input without a name.
-/

import Neosurf.Construction.Form

namespace Neosurf.Forms

/-- A value of a successful control. -/
inductive FormValue
  | text (name : Bytes) (value rawfile : Option Bytes)
  | coordinate (name ksfx : Bytes) (value : Int)

/-- An enabled submit button is a submit input or a button of another type than `reset` or
`button`. -/
def isSubmit (e : FormElement) : Bool :=
  !e.disabled && match e.kind with
  | .input type _ _ _ _ => caselessEqual type (str "submit")
  | .button type _ => !caselessEqual type (str "reset") && !caselessEqual type (str "button")
  | _ => false

def isButton (e : FormElement) : Bool :=
  match e.kind with
  | .button _ _ => true
  | _ => false

/-- These are the values of a control with this name, which may be the submit button. Only an image
that was clicked has coordinates. -/
def controlValues (submits : Bool) (name : Bytes) : ElementKind → Except Nserror (List FormValue)
  | .textarea value => .ok [.text name value none]
  | .select options =>
      .ok ((options.filter OptionElement.selected).map fun option => .text name option.value none)
  | .input type value checked coords rawfile =>
      if caselessEqual type (str "submit") then
        .ok (if submits then [.text name value none] else [])
      else if caselessEqual type (str "image") then
        if submits then
          match coords with
          | some (x, y) => .ok [.coordinate name (str ".x") x, .coordinate name (str ".y") y]
          | none => .error .dom
        else .ok []
      else if caselessEqual type (str "radio") || caselessEqual type (str "checkbox") then
        .ok (if checked then [.text name (some (value.getD (str "on"))) none] else [])
      else if caselessEqual type (str "file") then
        .ok [.text name value (some (rawfile.getD []))]
      else if caselessEqual type (str "reset") || caselessEqual type (str "button") then .ok []
      else .ok [.text name value none]
  | .button type value =>
      if caselessEqual type (str "reset") || caselessEqual type (str "button") then .ok []
      else .ok (if submits then [.text name value none] else [])
  | .unhandled _ => .error .dom

/-- These are the values that an element has in the form's data, given the submit button. -/
def successful (chosen : Option Nat) (e : FormElement) : Except Nserror (List FormValue) :=
  match e.kind with
  | .unhandled _ => .error .dom
  | kind =>
      if e.disabled then .ok []
      else
        match e.name with
        | none => .ok []
        | some name => controlValues (chosen = some e.node) name kind

section Entries

variable (encode : Bytes → Option Bytes)

/-- The entry for a value. -/
def entry : FormValue → Except Nserror FetchMultipartData
  | .text name value rawfile => fetchDataListAdd encode name value rawfile
  | .coordinate name ksfx value =>
      match encode name with
      | none => .error .nomem
      | some name => .ok (fetchDataListAddSname name ksfx value)

def elementEntries (chosen : Option Nat) (e : FormElement) :
    Except Nserror (List FetchMultipartData) := do
  let values ← successful chosen e
  values.mapM (entry encode)

/-- The entries of all elements in their order. -/
def entries (chosen : Option Nat) : List FormElement → Except Nserror (List FetchMultipartData)
  | [] => .ok []
  | e :: rest => do
      let data ← elementEntries encode chosen e
      let later ← entries chosen rest
      .ok (data ++ later)

end Entries

/-- The submit button is the control that is given, or the first enabled submit button. -/
def submitButtonOf (control : Option Nat) (elements : List FormElement) : Option Nat :=
  control.or ((elements.find? isSubmit).map FormElement.node)

/-- The first enabled submit button counts when it is a button element or has a name. -/
def claims (e : FormElement) : Bool := isSubmit e && (isButton e || e.name.isSome)

section Elements

variable {encode : Bytes → Option Bytes} {e : FormElement} {chosen : Option Nat}

theorem ok_bind {α β : Type} (a : α) (f : α → Except Nserror β) : (Except.ok a >>= f) = f a := rfl

theorem ok_of_bind {α β : Type} {first : Except Nserror α} {f : α → Except Nserror β} {b : β}
    (done : first >>= f = .ok b) : ∃ a, first = .ok a ∧ f a = .ok b := by
  cases first with
  | error error => cases done
  | ok a => exact ⟨a, rfl, done⟩

theorem mapM_entry_singleton (v : FormValue) :
    [v].mapM (entry encode) = (entry encode v).map fun data => [data] := by
  rw [List.mapM_cons]
  cases entry encode v <;> rfl

theorem selectOptions_eq (name : Bytes) (options : List OptionElement) :
    selectOptions encode name options =
      ((options.filter OptionElement.selected).map fun option =>
        FormValue.text name option.value none).mapM (entry encode) := by
  induction options with
  | nil => rfl
  | cons option rest ih =>
      rw [selectOptions, formDomToDataSelectOption, ih]
      cases selected : option.selected with
      | false =>
          rw [List.filter_cons_of_neg (by simp [selected])]
          simp only [Bool.not_false, if_true, ok_bind, List.nil_append]
          cases List.mapM (entry encode) _ <;> rfl
      | true =>
          rw [List.filter_cons_of_pos selected, List.map_cons, List.mapM_cons, entry]
          simp only [Bool.not_true, Bool.false_eq_true, if_false]
          cases fetchDataListAdd encode name option.value none <;> rfl

/-- The submit button after an element is the one before, or the element itself. -/
def after (submitButton : Option Nat) (e : FormElement) : Option Nat :=
  submitButton.or (if claims e then some e.node else none)

/-- A submit button becomes the one of the form unless there is another one. -/
theorem submits_eq {submitButton : Option Nat} {node : Nat} :
    (submitButton = none ∨ submitButton = some node) ↔ submitButton.or (some node) = some node := by
  cases submitButton <;> simp

theorem textarea_eq (submitButton : Option Nat) {value : Option Bytes}
    (kind : e.kind = .textarea value) :
    (formDomToDataTextarea encode e value).map (fun data => (submitButton, data)) =
      (elementEntries encode (after submitButton e) e).map fun data =>
        (after submitButton e, data) := by
  have same : after submitButton e = submitButton := by
    simp [after, claims, isSubmit, kind]
  rw [same, elementEntries, successful, kind, formDomToDataTextarea]
  dsimp only
  cases e.disabled with
  | true => rfl
  | false =>
      cases e.name with
      | none => rfl
      | some name =>
          simp only [Bool.false_eq_true, if_false, controlValues, ok_bind, mapM_entry_singleton,
            entry]

theorem select_eq (submitButton : Option Nat) {options : List OptionElement}
    (kind : e.kind = .select options) :
    (formDomToDataSelect encode e options).map (fun data => (submitButton, data)) =
      (elementEntries encode (after submitButton e) e).map fun data =>
        (after submitButton e, data) := by
  have same : after submitButton e = submitButton := by
    simp [after, claims, isSubmit, kind]
  rw [same, elementEntries, successful, kind, formDomToDataSelect]
  dsimp only
  cases e.disabled with
  | true => rfl
  | false =>
      cases e.name with
      | none => rfl
      | some name =>
          simp only [Bool.false_eq_true, if_false, controlValues, ok_bind, selectOptions_eq]

/-- The entry of a submit button. -/
theorem submit_eq (submitButton : Option Nat) (node : Nat) (name : Bytes) (value : Option Bytes) :
    formDomToDataInputSubmit encode submitButton node name value =
      (((if submitButton.or (some node) = some node then [FormValue.text name value none]
        else []).mapM (entry encode)).map fun data => (submitButton.or (some node), data)) := by
  rw [formDomToDataInputSubmit]
  by_cases chosen : submitButton = none ∨ submitButton = some node
  · rw [if_pos chosen, submits_eq.mp chosen, if_pos rfl, mapM_entry_singleton, entry]
    cases fetchDataListAdd encode name value none <;> rfl
  · rw [if_neg chosen, if_neg fun same => chosen (submits_eq.mpr same)]
    cases submitButton with
    | none => exact absurd (.inl rfl) chosen
    | some b => rfl

theorem image_eq (submitButton : Option Nat) (node : Nat) (name : Bytes)
    (coords : Option (Int × Int)) :
    formDomToDataInputImage encode submitButton node name coords =
      (if submitButton = some node then
        match coords with
        | some (x, y) => .ok [.coordinate name (str ".x") x, .coordinate name (str ".y") y]
        | none => .error .dom
      else .ok []) >>= fun values : List FormValue => values.mapM (entry encode) := by
  unfold formDomToDataInputImage
  by_cases clicked : submitButton = some node
  · rw [if_neg (not_not.mpr clicked), if_pos clicked]
    cases coords with
    | none => rfl
    | some place =>
        simp only [ok_bind, List.mapM_cons, entry]
        cases encode name <;> rfl
  · rw [if_pos clicked, if_neg clicked]
    rfl

theorem input_eq (submitButton : Option Nat) {type : Bytes} {value rawfile : Option Bytes}
    {checked : Bool} {coords : Option (Int × Int)}
    (kind : e.kind = .input type value checked coords rawfile) :
    formDomToDataInput encode submitButton e type value checked coords rawfile =
      (elementEntries encode (after submitButton e) e).map fun data =>
        (after submitButton e, data) := by
  have claimed : claims e =
      (!e.disabled && caselessEqual type (str "submit") && e.name.isSome) := by
    simp [claims, isSubmit, isButton, kind]
  rw [after, claimed, elementEntries, successful, kind, formDomToDataInput]
  dsimp only
  cases e.disabled with
  | true =>
      simp only [if_true, Bool.not_true, Bool.false_and, Bool.false_eq_true, if_false,
        Option.or_none, ok_bind]
      rfl
  | false =>
      cases e.name with
      | none =>
          simp only [Option.isSome_none, Bool.and_false, Bool.false_eq_true, if_false,
            Option.or_none, ok_bind]
          rfl
      | some name =>
          simp only [Bool.not_false, Bool.true_and, Option.isSome_some, Bool.and_true,
            Bool.false_eq_true, if_false, controlValues, decide_eq_true_eq]
          by_cases submit : caselessEqual type (str "submit") = true
          · simp only [submit, if_true, submit_eq, ok_bind]
          simp only [submit, Bool.false_eq_true, if_false, Option.or_none, image_eq]
          by_cases image : caselessEqual type (str "image") = true
          · simp only [image, if_true]
          simp only [image, Bool.false_eq_true, if_false]
          by_cases check : (caselessEqual type (str "radio") ||
              caselessEqual type (str "checkbox")) = true
          · simp only [check, if_true, formDomToDataInputCheckbox, ok_bind]
            cases checked with
            | false => rfl
            | true => simp only [Bool.not_true, Bool.false_eq_true, if_false, if_true,
                mapM_entry_singleton, entry]
          simp only [check, Bool.false_eq_true, if_false]
          by_cases file : caselessEqual type (str "file") = true
          · simp only [file, if_true, formDomToDataInputFile, ok_bind, mapM_entry_singleton, entry]
          simp only [file, Bool.false_eq_true, if_false]
          by_cases skipped : (caselessEqual type (str "reset") ||
              caselessEqual type (str "button")) = true
          · simp only [skipped, if_true]
            rfl
          · simp only [skipped, Bool.false_eq_true, if_false, formDomToDataInputText, ok_bind,
              mapM_entry_singleton, entry]

theorem button_eq (submitButton : Option Nat) {type : Bytes} {value : Option Bytes}
    (kind : e.kind = .button type value) :
    formDomToDataButton encode submitButton e type value =
      (elementEntries encode (after submitButton e) e).map fun data =>
        (after submitButton e, data) := by
  have claimed : claims e = (!e.disabled &&
      (!caselessEqual type (str "reset") && !caselessEqual type (str "button"))) := by
    simp [claims, isSubmit, isButton, kind]
  rw [after, claimed, elementEntries, successful, kind, formDomToDataButton]
  dsimp only
  cases e.disabled with
  | true =>
      simp only [if_true, Bool.not_true, Bool.false_and, Bool.false_eq_true, if_false,
        Option.or_none, ok_bind]
      rfl
  | false =>
      simp only [Bool.not_false, Bool.true_and, Bool.false_eq_true, if_false, controlValues]
      cases caselessEqual type (str "reset") with
      | true => cases e.name <;> simp [ok_bind] <;> rfl
      | false =>
          cases caselessEqual type (str "button") with
          | true => cases e.name <;> simp [ok_bind] <;> rfl
          | false =>
              have next : submitButton.or (some e.node) = some (submitButton.getD e.node) := by
                cases submitButton <;> rfl
              simp only [Bool.or_self, Bool.not_false, Bool.and_self, Bool.false_eq_true, if_false,
                if_true, next, Option.some.injEq, decide_eq_true_eq]
              by_cases same : submitButton.getD e.node = e.node
              · simp only [same, ne_eq, not_true_eq_false, if_false, if_true]
                cases e.name with
                | none => rfl
                | some name =>
                    simp only [ok_bind, mapM_entry_singleton, entry]
                    cases fetchDataListAdd encode name value none <;> rfl
              · simp only [same, ne_eq, not_false_eq_true, if_true, if_false]
                cases e.name <;> rfl

theorem elementToData_eq (submitButton : Option Nat) :
    elementToData encode submitButton e =
      (elementEntries encode (after submitButton e) e).map fun data =>
        (after submitButton e, data) := by
  rw [elementToData]
  cases kind : e.kind with
  | textarea value => exact textarea_eq submitButton kind
  | select options => exact select_eq submitButton kind
  | input type value checked coords rawfile => exact input_eq submitButton kind
  | button type value => exact button_eq submitButton kind
  | unhandled nodename =>
      rw [elementEntries, successful, kind]
      rfl

/-- The submit button only matters to itself. -/
theorem elementEntries_other (other : chosen ≠ some e.node) :
    elementEntries encode chosen e = elementEntries encode none e := by
  rw [elementEntries, elementEntries, successful, successful]
  simp [other]

/-- A submit button without a name has no entry. -/
theorem elementEntries_nameless (nameless : e.name = none) :
    elementEntries encode chosen e = elementEntries encode none e := by
  rw [elementEntries, elementEntries, successful, successful, nameless]

/-- A named submit button has an entry when it is chosen. -/
theorem elementEntries_submit (submits : isSubmit e = true) {name : Bytes}
    (named : e.name = some name) :
    elementEntries encode none e = .ok [] ∧
      ∀ data, elementEntries encode (some e.node) e = .ok data → data.length = 1 := by
  have enabled : e.disabled = false := by
    simp only [isSubmit, Bool.and_eq_true, Bool.not_eq_true'] at submits
    exact submits.1
  have single : ∀ value data, [FormValue.text name value none].mapM (entry encode) = .ok data →
      data.length = 1 := by
    intro value data made
    rw [mapM_entry_singleton] at made
    cases first : entry encode (.text name value none) with
    | error error =>
        rw [first] at made
        cases made
    | ok first_entry =>
        rw [first] at made
        cases made
        rfl
  rw [elementEntries, elementEntries, successful, successful]
  cases kind : e.kind with
  | textarea value => simp [isSubmit, kind] at submits
  | select options => simp [isSubmit, kind] at submits
  | unhandled nodename => simp [isSubmit, kind] at submits
  | input type value checked coords rawfile =>
      have submit : caselessEqual type (str "submit") = true := by
        simpa [isSubmit, kind, enabled] using submits
      simp only [enabled, named, Bool.false_eq_true, if_false, controlValues, submit, if_true,
        decide_true, reduceCtorEq, decide_false, ok_bind]
      exact ⟨rfl, single value⟩
  | button type value =>
      have submit : caselessEqual type (str "reset") = false ∧
          caselessEqual type (str "button") = false := by
        simpa [isSubmit, kind, enabled] using submits
      simp only [enabled, named, Bool.false_eq_true, if_false, controlValues, submit.1, submit.2,
        Bool.or_self, if_true, decide_true, reduceCtorEq, decide_false, ok_bind]
      exact ⟨rfl, single value⟩

end Elements

section Forms

variable {encode : Bytes → Option Bytes} {elements : List FormElement} {e : FormElement}

theorem elementsToData_some (b : Nat) :
    elementsToData encode (some b) elements = entries encode (some b) elements := by
  induction elements with
  | nil => rfl
  | cons e rest ih =>
      have stays : after (some b) e = some b := rfl
      rw [elementsToData, elementToData_eq, stays, entries, ← ih]
      cases elementEntries encode (some b) e <;> rfl

/-- When no control is given, the first element that claims to be the submit button gets it. -/
theorem elementsToData_none (distinct : (elements.map FormElement.node).Nodup) :
    elementsToData encode none elements =
      entries encode ((elements.find? claims).map FormElement.node) elements := by
  induction elements with
  | nil => rfl
  | cons e rest ih =>
      rw [List.map_cons, List.nodup_cons] at distinct
      rw [elementsToData, elementToData_eq, after, Option.none_or, entries]
      cases claimed : claims e with
      | true =>
          rw [List.find?_cons_of_pos claimed, if_pos rfl, Option.map_some]
          cases elementEntries encode (some e.node) e with
          | error error => rfl
          | ok data =>
              change (do
                let later ← elementsToData encode (some e.node) rest
                Except.ok (data ++ later)) = _
              rw [elementsToData_some]
              rfl
      | false =>
          rw [List.find?_cons_of_neg (by simp [claimed]), if_neg Bool.false_ne_true]
          have other : (rest.find? claims).map FormElement.node ≠ some e.node := by
            intro same
            obtain ⟨later, found, node⟩ := Option.map_eq_some_iff.mp same
            exact distinct.1 (node ▸ List.mem_map_of_mem (List.mem_of_find?_eq_some found))
          rw [elementEntries_other other, ← ih distinct.2]
          cases elementEntries encode none e <;> rfl

/-- The choice of a node that no element has is no choice. -/
theorem entries_absent {b : Nat} (absent : b ∉ elements.map FormElement.node) :
    entries encode (some b) elements = entries encode none elements := by
  induction elements with
  | nil => rfl
  | cons e rest ih =>
      rw [List.map_cons, List.mem_cons, not_or] at absent
      rw [entries, entries, ih absent.2,
        elementEntries_other fun chosen => absent.1 (Option.some_inj.mp chosen)]

/-- The choice of an element without a name is no choice. -/
theorem entries_nameless (distinct : (elements.map FormElement.node).Nodup) (member : e ∈ elements)
    (nameless : e.name = none) :
    entries encode (some e.node) elements = entries encode none elements := by
  have same : ∀ list : List FormElement, list ⊆ elements →
      entries encode (some e.node) list = entries encode none list := by
    intro list inside
    induction list with
    | nil => rfl
    | cons other rest ih =>
        rw [entries, entries, ih fun f later => inside (List.mem_cons_of_mem _ later)]
        by_cases node : e.node = other.node
        · have here : e = other := List.inj_on_of_nodup_map distinct member
            (inside List.mem_cons_self) node
          rw [elementEntries_nameless (here ▸ nameless)]
        · rw [elementEntries_other fun chosen => node (Option.some_inj.mp chosen)]
  exact same elements fun _ inside => inside

/-- The choice of a named submit button adds an entry. -/
theorem length_entries (distinct : (elements.map FormElement.node).Nodup) (member : e ∈ elements)
    (submits : isSubmit e = true) {name : Bytes} (named : e.name = some name)
    {data more : List FetchMultipartData} (without : entries encode none elements = .ok data)
    (chosen : entries encode (some e.node) elements = .ok more) :
    more.length = data.length + 1 := by
  induction elements generalizing data more with
  | nil => cases member
  | cons other rest ih =>
      rw [List.map_cons, List.nodup_cons] at distinct
      rw [entries] at without chosen
      obtain ⟨first, here, without⟩ := ok_of_bind without
      obtain ⟨later, there, without⟩ := ok_of_bind without
      obtain ⟨first', here', chosen⟩ := ok_of_bind chosen
      obtain ⟨later', there', chosen⟩ := ok_of_bind chosen
      cases without
      cases chosen
      rw [List.length_append, List.length_append]
      rcases List.mem_cons.mp member with rfl | member
      · obtain ⟨empty, single⟩ := @elementEntries_submit encode e submits _ named
        rw [empty] at here
        cases here
        rw [entries_absent distinct.1, there] at there'
        cases there'
        have := single _ here'
        simp [this]
        omega
      · have node : e.node ≠ other.node := by
          intro same
          exact distinct.1 (same ▸ List.mem_map_of_mem member)
        rw [elementEntries_other fun chosen => node (Option.some_inj.mp chosen), here] at here'
        cases here'
        have := ih distinct.2 member there there'
        omega

/-- The code's choice of a submit button: inputs without a name are passed over. -/
theorem elementsToData_eq (distinct : (elements.map FormElement.node).Nodup) (control : Option Nat) :
    elementsToData encode control elements =
      entries encode (control.or ((elements.find? claims).map FormElement.node)) elements := by
  cases control with
  | none => exact elementsToData_none distinct
  | some b => exact elementsToData_some b

/-- The element that claims to be the submit button is the first submit button, or that one has no
name. -/
theorem find_claims {c : FormElement} (first : elements.find? isSubmit = some c) :
    elements.find? claims = some c ∨ c.name = none := by
  obtain ⟨submits, front, behind, rfl, others⟩ := List.find?_eq_some_iff_append.mp first
  by_cases named : c.name = none
  · exact .inr named
  · have claimed : claims c = true := by
      simp [claims, submits, Option.isSome_iff_ne_none, named]
    refine .inl (List.find?_eq_some_iff_append.mpr ⟨claimed, front, behind, rfl, ?_⟩)
    intro other member
    have no_submit := others other member
    simp only [Bool.not_eq_true'] at no_submit ⊢
    simp [claims, no_submit]

/-- The first enabled submit button is not passed over for another one with a name. -/
def Undisputed (control : Option Nat) (elements : List FormElement) : Prop :=
  control.isSome ∨ ∀ e, elements.find? claims = some e →
    elements.find? isSubmit = some e ∨ e.name = none

theorem entries_eq_of_undisputed (distinct : (elements.map FormElement.node).Nodup)
    {control : Option Nat} (undisputed : Undisputed control elements) :
    entries encode (control.or ((elements.find? claims).map FormElement.node)) elements =
      entries encode (submitButtonOf control elements) elements := by
  have no_entry : ∀ {test : FormElement → Bool}, (∀ e, elements.find? test = some e →
      e.name = none) → entries encode ((elements.find? test).map FormElement.node) elements =
        entries encode none elements := by
    intro test nameless
    cases found : elements.find? test with
    | none => rfl
    | some e =>
        exact entries_nameless distinct (List.mem_of_find?_eq_some found) (nameless e found)
  cases control with
  | some b => rfl
  | none =>
      have undisputed := undisputed.resolve_left (by simp)
      simp only [submitButtonOf, Option.none_or]
      by_cases same : elements.find? claims = elements.find? isSubmit
      · rw [same]
      · have nameless : ∀ e, elements.find? claims = some e → e.name = none := fun e found =>
          (undisputed e found).resolve_left fun first => same (found.trans first.symm)
        have nameless' : ∀ e, elements.find? isSubmit = some e → e.name = none := fun e found =>
          (find_claims found).resolve_left fun first => same (first.trans found.symm)
        rw [no_entry nameless, no_entry nameless']

theorem undisputed_of_entries_eq (distinct : (elements.map FormElement.node).Nodup)
    {control : Option Nat} {data : List FetchMultipartData}
    (expected : entries encode (submitButtonOf control elements) elements = .ok data)
    (same : entries encode (control.or ((elements.find? claims).map FormElement.node)) elements =
      .ok data) : Undisputed control elements := by
  cases control with
  | some b => exact .inl rfl
  | none =>
      right
      intro e found
      by_contra disputed
      rw [not_or] at disputed
      obtain ⟨name, named⟩ := Option.ne_none_iff_exists'.mp disputed.2
      have submits : isSubmit e = true := by
        have claimed := List.find?_some found
        simp only [claims, Bool.and_eq_true] at claimed
        exact claimed.1
      rw [found, Option.none_or, Option.map_some] at same
      have none_else : entries encode none elements = .ok data := by
        rw [← expected, submitButtonOf, Option.none_or]
        cases first : elements.find? isSubmit with
        | none => rfl
        | some c =>
            have nameless := (find_claims first).resolve_left fun claimed => disputed.1 (by
              rw [first, ← claimed, found])
            exact (entries_nameless distinct (List.mem_of_find?_eq_some first) nameless).symm
      have longer := length_entries distinct (List.mem_of_find?_eq_some found) submits named
        none_else same
      omega

end Forms

/-- The data of a form are the values of its successful controls in order, with those of the control
that submits it or of the first enabled submit button. This holds exactly when no other button with
a name comes up because that one is an input without a name. -/
theorem formDomToData_spec (utf8ToEnc : Bytes → Bytes → Nat → Except Nserror Bytes) (form : Form)
    (elements : List FormElement) (control : Option Nat)
    (distinct : (elements.map FormElement.node).Nodup) :
    let encode := formEncodeItem utf8ToEnc (formAcceptableCharset form) form.documentCharset
    let expected := entries encode (submitButtonOf control elements) elements
    (Undisputed control elements →
      formDomToData utf8ToEnc form elements control = expected) ∧
      ∀ data, expected = .ok data →
        (formDomToData utf8ToEnc form elements control = .ok data ↔
          Undisputed control elements) := by
  dsimp only
  rw [formDomToData, elementsToData_eq distinct]
  refine ⟨entries_eq_of_undisputed distinct, fun data expected => ⟨?_, ?_⟩⟩
  · exact undisputed_of_entries_eq distinct expected
  · intro undisputed
    rw [entries_eq_of_undisputed distinct undisputed, expected]

/-- This form has a text, a submit input and a button. -/
def twoSubmits (name : Option Bytes) : List FormElement :=
  [⟨1, false, some (str "q"), .input (str "text") (some (str "x")) false none none⟩,
    ⟨2, false, name, .input (str "submit") (some (str "Go")) false none none⟩,
    ⟨3, false, some (str "alt"), .button (str "submit") (some (str "Other"))⟩]

/-- The first one of the buttons is sent, as it has a name. -/
theorem formDomToData_first :
    formDomToData (fun item _ _ => .ok item) ⟨none, none⟩ (twoSubmits (some (str "go"))) none =
      .ok [⟨str "q", str "x", false, none⟩, ⟨str "go", str "Go", false, none⟩] := by
  have spec := formDomToData_spec (fun item _ _ => .ok item) ⟨none, none⟩
    (twoSubmits (some (str "go"))) none (by decide)
  have same : (twoSubmits (some (str "go"))).find? claims =
      (twoSubmits (some (str "go"))).find? isSubmit := by decide
  rw [spec.1 (.inr fun e found => .inl (same ▸ found))]
  rfl

/-- The second one is sent when the first one has no name. -/
theorem formDomToData_second :
    formDomToData (fun item _ _ => .ok item) ⟨none, none⟩ (twoSubmits none) none ≠
      entries (formEncodeItem (fun item _ _ => .ok item) (formAcceptableCharset ⟨none, none⟩) none)
        (submitButtonOf none (twoSubmits none)) (twoSubmits none) := by
  intro same
  have sent : formDomToData (fun item _ _ => .ok item) ⟨none, none⟩ (twoSubmits none) none =
      .ok [⟨str "q", str "x", false, none⟩, ⟨str "alt", str "Other", false, none⟩] := rfl
  have expected : entries (formEncodeItem (fun item _ _ => .ok item)
      (formAcceptableCharset ⟨none, none⟩) none) (submitButtonOf none (twoSubmits none))
      (twoSubmits none) = .ok [⟨str "q", str "x", false, none⟩] := rfl
  rw [sent, expected] at same
  cases same

end Neosurf.Forms
