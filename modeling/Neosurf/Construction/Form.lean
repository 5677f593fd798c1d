/-
This file models how `html/form.c` makes the multipart data of a form out of its elements. The
conversion of a text to a character set is a parameter, and the properties of an element are read
from a record.
-/

import Neosurf.Construction.Bytes

namespace Neosurf.Forms

/-- This is `struct fetch_multipart_data` without its link. -/
structure FetchMultipartData where
  name : Bytes
  value : Bytes
  file : Bool
  rawfile : Option Bytes
  deriving DecidableEq, Repr

/-- These are the properties of an option of a select element. -/
structure OptionElement where
  selected : Bool
  value : Option Bytes
  deriving DecidableEq, Repr

/-- These are the properties of a form element that depend on its node name. -/
inductive ElementKind
  | textarea (value : Option Bytes)
  | select (options : List OptionElement)
  | input (type : Bytes) (value : Option Bytes) (checked : Bool) (coords : Option (Int × Int))
      (rawfile : Option Bytes)
  | button (type : Bytes) (value : Option Bytes)
  | unhandled (nodename : Bytes)
  deriving DecidableEq, Repr

/-- This is an element of a form: its DOM node and its properties. -/
structure FormElement where
  node : Nat
  disabled : Bool
  name : Option Bytes
  kind : ElementKind
  deriving DecidableEq, Repr

/-- These are the fields of `struct form` that choose the character set. -/
structure Form where
  acceptCharsets : Option Bytes
  documentCharset : Option Bytes

/-- This is `form_acceptable_charset` when there is memory. -/
def formAcceptableCharset (form : Form) : Bytes :=
  match form.acceptCharsets with
  | none => form.documentCharset.getD (str "ISO-8859-1")
  | some charsets =>
      if (charsets.map toUpper).tails.any (startsWith (str "UTF-8")) then str "UTF-8"
      else charsets.takeWhile fun c => !isSpace c && c ≠ chr ','

/-- This is a name in a buffer of 256 bytes. -/
def csetOf (text : Bytes) : Bytes := text.take 255

/-- These are the conversions that `form_encode_item` tries, each with the length that it passes. -/
def encodings (item charset : Bytes) (fallback : Option Bytes) : List (Bytes × Nat) :=
  [(csetOf (charset ++ str "//TRANSLIT"), 0), (csetOf charset, item.length)] ++
    (match fallback with
    | none => []
    | some fallback => [(csetOf (fallback ++ str "//TRANSLIT"), 0), (csetOf fallback, 0)]) ++
    [(str "ISO-8859-1//TRANSLIT", 0), (str "ISO-8859-1", 0)]

/-- The next conversion is only tried when the encoding is bad. -/
def firstEncoding (utf8ToEnc : Bytes → Bytes → Nat → Except Nserror Bytes) (item : Bytes) :
    List (Bytes × Nat) → Option Bytes
  | [] => none
  | (cset, len) :: rest =>
      match utf8ToEnc item cset len with
      | .ok converted => some converted
      | .error .badEncoding => firstEncoding utf8ToEnc item rest
      | .error _ => none

/-- This is `form_encode_item`. -/
def formEncodeItem (utf8ToEnc : Bytes → Bytes → Nat → Except Nserror Bytes) (charset : Bytes)
    (fallback : Option Bytes) (item : Bytes) : Option Bytes :=
  firstEncoding utf8ToEnc item (encodings item charset fallback)

section Elements

variable (encode : Bytes → Option Bytes)

/-- This is `fetch_data_list_add`. -/
def fetchDataListAdd (name : Bytes) (value rawfile : Option Bytes) :
    Except Nserror FetchMultipartData :=
  match encode name with
  | none => .error .nomem
  | some name =>
      match value with
      | none => .ok ⟨name, [], rawfile.isSome, rawfile⟩
      | some value =>
          match encode value with
          | none => .error .nomem
          | some value => .ok ⟨name, value, rawfile.isSome, rawfile⟩

/-- This is `fetch_data_list_add_sname`. -/
def fetchDataListAddSname (name ksfx : Bytes) (value : Int) : FetchMultipartData :=
  ⟨name ++ ksfx, printInt value, false, none⟩

/-- This is `form_dom_to_data_textarea`. -/
def formDomToDataTextarea (e : FormElement) (value : Option Bytes) :
    Except Nserror (List FetchMultipartData) :=
  if e.disabled then .ok []
  else
    match e.name with
    | none => .ok []
    | some name => (fetchDataListAdd encode name value none).map fun data => [data]

/-- This is `form_dom_to_data_select_option`. -/
def formDomToDataSelectOption (name : Bytes) (option : OptionElement) :
    Except Nserror (List FetchMultipartData) :=
  if !option.selected then .ok []
  else (fetchDataListAdd encode name option.value none).map fun data => [data]

/-- This is the loop of `form_dom_to_data_select`. -/
def selectOptions (name : Bytes) : List OptionElement → Except Nserror (List FetchMultipartData)
  | [] => .ok []
  | option :: rest => do
      let data ← formDomToDataSelectOption encode name option
      let later ← selectOptions name rest
      .ok (data ++ later)

/-- This is `form_dom_to_data_select`. -/
def formDomToDataSelect (e : FormElement) (options : List OptionElement) :
    Except Nserror (List FetchMultipartData) :=
  if e.disabled then .ok []
  else
    match e.name with
    | none => .ok []
    | some name => selectOptions encode name options

/-- This is `form_dom_to_data_input_submit`, with the submit button afterwards. -/
def formDomToDataInputSubmit (submitButton : Option Nat) (node : Nat) (name : Bytes)
    (value : Option Bytes) : Except Nserror (Option Nat × List FetchMultipartData) :=
  if submitButton = none ∨ submitButton = some node then
    (fetchDataListAdd encode name value none).map fun data => (some node, [data])
  else .ok (submitButton, [])

/-- This is `form_dom_to_data_input_image`. -/
def formDomToDataInputImage (submitButton : Option Nat) (node : Nat) (name : Bytes)
    (coords : Option (Int × Int)) : Except Nserror (List FetchMultipartData) :=
  if submitButton ≠ some node then .ok []
  else
    match coords with
    | none => .error .dom
    | some (x, y) =>
        match encode name with
        | none => .error .nomem
        | some basename =>
            .ok [fetchDataListAddSname basename (str ".x") x,
              fetchDataListAddSname basename (str ".y") y]

/-- This is `form_dom_to_data_input_checkbox`. -/
def formDomToDataInputCheckbox (name : Bytes) (value : Option Bytes) (checked : Bool) :
    Except Nserror (List FetchMultipartData) :=
  if !checked then .ok []
  else
    (fetchDataListAdd encode name (some (value.getD (str "on"))) none).map fun data => [data]

/-- This is `form_dom_to_data_input_file`. -/
def formDomToDataInputFile (name : Bytes) (value rawfile : Option Bytes) :
    Except Nserror (List FetchMultipartData) :=
  (fetchDataListAdd encode name value (some (rawfile.getD []))).map fun data => [data]

/-- This is `form_dom_to_data_input_text`. -/
def formDomToDataInputText (name : Bytes) (value : Option Bytes) :
    Except Nserror (List FetchMultipartData) :=
  (fetchDataListAdd encode name value none).map fun data => [data]

/-- This is `form_dom_to_data_input`. -/
def formDomToDataInput (submitButton : Option Nat) (e : FormElement) (type : Bytes)
    (value : Option Bytes) (checked : Bool) (coords : Option (Int × Int)) (rawfile : Option Bytes) :
    Except Nserror (Option Nat × List FetchMultipartData) :=
  let unclaimed := Except.map fun data : List FetchMultipartData => (submitButton, data)
  if e.disabled then .ok (submitButton, [])
  else
    match e.name with
    | none => .ok (submitButton, [])
    | some name =>
        if caselessEqual type (str "submit") then
          formDomToDataInputSubmit encode submitButton e.node name value
        else if caselessEqual type (str "image") then
          unclaimed (formDomToDataInputImage encode submitButton e.node name coords)
        else if caselessEqual type (str "radio") || caselessEqual type (str "checkbox") then
          unclaimed (formDomToDataInputCheckbox encode name value checked)
        else if caselessEqual type (str "file") then
          unclaimed (formDomToDataInputFile encode name value rawfile)
        else if caselessEqual type (str "reset") || caselessEqual type (str "button") then
          .ok (submitButton, [])
        else unclaimed (formDomToDataInputText encode name value)

/-- This is `form_dom_to_data_button`. -/
def formDomToDataButton (submitButton : Option Nat) (e : FormElement) (type : Bytes)
    (value : Option Bytes) : Except Nserror (Option Nat × List FetchMultipartData) :=
  if e.disabled then .ok (submitButton, [])
  else if caselessEqual type (str "reset") then .ok (submitButton, [])
  else if caselessEqual type (str "button") then .ok (submitButton, [])
  else
    let submitButton := submitButton.getD e.node
    if submitButton ≠ e.node then .ok (some submitButton, [])
    else
      match e.name with
      | none => .ok (some submitButton, [])
      | some name =>
          (fetchDataListAdd encode name value none).map fun data => (some submitButton, [data])

/-- This is what the loop of `form_dom_to_data` does with an element. -/
def elementToData (submitButton : Option Nat) (e : FormElement) :
    Except Nserror (Option Nat × List FetchMultipartData) :=
  match e.kind with
  | .textarea value => (formDomToDataTextarea encode e value).map fun data => (submitButton, data)
  | .select options => (formDomToDataSelect encode e options).map fun data => (submitButton, data)
  | .input type value checked coords rawfile =>
      formDomToDataInput encode submitButton e type value checked coords rawfile
  | .button type value => formDomToDataButton encode submitButton e type value
  | .unhandled _ => .error .dom

/-- This is the loop of `form_dom_to_data`. -/
def elementsToData (submitButton : Option Nat) :
    List FormElement → Except Nserror (List FetchMultipartData)
  | [] => .ok []
  | e :: rest => do
      let (submitButton, data) ← elementToData encode submitButton e
      let later ← elementsToData submitButton rest
      .ok (data ++ later)

end Elements

/-- This is `form_dom_to_data`. The control is given by its node. -/
def formDomToData (utf8ToEnc : Bytes → Bytes → Nat → Except Nserror Bytes) (form : Form)
    (elements : List FormElement) (submitControl : Option Nat) :
    Except Nserror (List FetchMultipartData) :=
  elementsToData (formEncodeItem utf8ToEnc (formAcceptableCharset form) form.documentCharset)
    submitControl elements

end Neosurf.Forms
