/-
This file models how the style sheets of `content/handlers/css/css.c` import each other.
-/

import Mathlib.Data.Finset.Defs
import Mathlib.Logic.Function.Basic
import Neosurf.Construction.Content

namespace Neosurf.CssImports

open Contents

/-- These are the style sheets that import each other. The parser finds the imports of a sheet in
this order, and the data of a sheet arrives or fails. -/
structure Web where
  sheets : Finset Nat
  url : Nat → Nat
  imports : Nat → List Nat
  arrives : Nat → Bool
  closed : ∀ i ∈ sheets, ∀ j ∈ imports i, j ∈ sheets

/-- This is `struct nscss_import`. Its handle has no content until the retrieval has found one. -/
inductive NscssImport
  | null
  | retrieving (sheet : Nat)
  | associated (sheet : Nat)
  deriving DecidableEq

/-- This is `nscss_import_ctx`. -/
structure NscssImportCtx where
  css : Nat
  index : Nat
  deriving DecidableEq

/-- This is `nscss_content` with its `struct content_css_data`. The next import to register is none
until the data has ended. The registered imports are those that the CSS library was given. -/
structure NscssContent where
  status : ContentStatus
  users : List NscssImportCtx
  imports : List NscssImport
  nextToRegister : Option Nat
  registered : List Nat
  ended : Bool

/-- A message of a broadcast that is under way. -/
structure ImportEvent where
  ctx : NscssImportCtx
  msg : ContentMsg

/-- These are the contents of all sheets, the messages under way in the order in which they come,
and the sheets that called their done function, the latest first. -/
structure Sheets where
  contents : Nat → NscssContent
  events : List ImportEvent
  completed : List Nat

namespace Sheets

variable (s : Sheets)

def modify (i : Nat) (change : NscssContent → NscssContent) : Sheets :=
  { s with contents := Function.update s.contents i (change (s.contents i)) }

/-- The registration does not stop at this import. A handle without a content has no status. -/
def registrable : NscssImport → Bool
  | .null => true
  | .retrieving _ => false
  | .associated j => (s.contents j).status = .done

/-- A content tells its users. -/
def broadcast (i : Nat) (msg : ContentMsg) : Sheets :=
  { s with events := ((s.contents i).users.map fun ctx => ⟨ctx, msg⟩) ++ s.events }

/-- This is `nscss_content_done`, where no user cares that the content is ready. -/
def contentDone (i : Nat) : Sheets :=
  let s := (s.modify i fun c => { c with status := .done }).broadcast i .done
  { s with completed := i :: s.completed }

/-- This is `nscss_register_imports`, with its assertions. -/
def registerImports (i : Nat) : Option Sheets :=
  let c := s.contents i
  match c.nextToRegister with
  | none => none
  | some next =>
      if next < c.imports.length then
        let count := ((c.imports.drop next).takeWhile s.registrable).length
        let s := s.modify i fun c =>
          { c with
            nextToRegister := some (next + count)
            registered := c.registered ++ List.range' next count }
        some (if next + count = c.imports.length then s.contentDone i else s)
      else none

/-- This is `nscss_import_complete`. -/
def importComplete (ctx : NscssImportCtx) : Option Sheets :=
  if (s.contents ctx.css).nextToRegister = some ctx.index then s.registerImports ctx.css
  else some s

def setImport (ctx : NscssImportCtx) (handle : NscssImport) : Sheets :=
  s.modify ctx.css fun c => { c with imports := c.imports.set ctx.index handle }

/-- The handle of an import is released. -/
def handleRelease (ctx : NscssImportCtx) : NscssImport → Sheets
  | .associated j => s.modify j fun c => { c with users := c.users.erase ctx }
  | _ => s

/-- This is `nscss_import`, which asserts that the import still has its handle. -/
def nscssImport (ctx : NscssImportCtx) (msg : ContentMsg) : Option Sheets :=
  match (s.contents ctx.css).imports[ctx.index]? with
  | none => none
  | some .null => none
  | some handle =>
      match msg with
      | .done => s.importComplete ctx
      | .error => ((s.handleRelease ctx handle).setImport ctx .null).importComplete ctx
      | _ => some s

/-- This is `nscss_handle_import` for the next import that the parser finds. -/
def handleImport (web : Web) (i : Nat) : Option Sheets :=
  match (web.imports i)[(s.contents i).imports.length]? with
  | none => none
  | some j =>
      let handle := if web.url j = web.url i then .null else .retrieving j
      some (s.modify i fun c => { c with imports := c.imports ++ [handle] })

/-- This is `nscss_convert_css_data`, with its assertion. -/
def convertCssData (i : Nat) : Option Sheets :=
  if (s.contents i).imports = [] then some (s.contentDone i)
  else if (s.contents i).nextToRegister = none then
    (s.modify i fun c => { c with nextToRegister := some 0 }).registerImports i
  else none

/-- The handle of an import becomes a user of the content that its retrieval has found, and is told
of its status. -/
def associate (ctx : NscssImportCtx) (j : Nat) : Sheets :=
  let s := (s.modify j fun c => { c with users := ctx :: c.users }).setImport ctx (.associated j)
  if (s.contents j).status = .done then { s with events := ⟨ctx, .done⟩ :: s.events } else s

/-- The data of a sheet ends. Where it has failed, the users of the content are told. -/
def dataEnd (web : Web) (i : Nat) : Option Sheets :=
  let s := s.modify i fun c => { c with ended := true }
  if web.arrives i then s.convertCssData i
  else some ((s.modify i fun c => { c with status := .error }).broadcast i .error)

/-- The next message comes to its import. -/
def deliver : Option Sheets :=
  match s.events with
  | [] => some s
  | e :: rest => { s with events := rest }.nscssImport e.ctx e.msg

def init : Sheets :=
  { contents := fun _ => ⟨.loading, [], [], none, [], false⟩
    events := []
    completed := [] }

end Sheets

/-- These are the steps of a run. Nothing else happens while messages are under way. -/
inductive SheetStep
  | handleImport (sheet : Nat)
  | associate (ctx : NscssImportCtx) (sheet : Nat)
  | failImport (ctx : NscssImportCtx) (sheet : Nat)
  | dataEnd (sheet : Nat)
  | deliver

namespace Sheets

def step (web : Web) (s : Sheets) : SheetStep → Option Sheets
  | .handleImport i => s.handleImport web i
  | .associate ctx j => some (s.associate ctx j)
  | .failImport ctx _ => s.nscssImport ctx .error
  | .dataEnd i => s.dataEnd web i
  | .deliver => s.deliver

/-- The parser requests all imports of a sheet before its data ends, no retrieval finds a content
that has failed, and only the retrieval of a sheet that fails tells an import so. -/
def Permitted (web : Web) (s : Sheets) : SheetStep → Prop
  | .handleImport i => s.events = [] ∧ i ∈ web.sheets ∧ (s.contents i).ended = false ∧
      (s.contents i).imports.length < (web.imports i).length
  | .associate ctx j => s.events = [] ∧
      (s.contents ctx.css).imports[ctx.index]? = some (.retrieving j) ∧
        (s.contents j).status ≠ .error
  | .failImport ctx j => s.events = [] ∧
      (s.contents ctx.css).imports[ctx.index]? = some (.retrieving j) ∧ web.arrives j = false
  | .dataEnd i => s.events = [] ∧ i ∈ web.sheets ∧ (s.contents i).ended = false ∧
      (web.arrives i = true → (s.contents i).imports.length = (web.imports i).length)
  | .deliver => s.events ≠ []

/-- These are the states of all runs. -/
inductive Reached (web : Web) : Sheets → Prop
  | init : Reached web init
  | step {s s' : Sheets} {x : SheetStep} (before : Reached web s) (permits : Permitted web s x)
      (stepped : s.step web x = some s') : Reached web s'

/-- The data of all sheets has arrived or failed, and so have the retrievals of their imports. -/
def Settled (web : Web) (s : Sheets) : Prop :=
  s.events = [] ∧ ∀ i ∈ web.sheets, (s.contents i).ended = true ∧
    ∀ j, .retrieving j ∉ (s.contents i).imports

end Sheets

end Neosurf.CssImports
