import DocstringEditor.Analysis.Registry
import DocstringEditor.Cleaning
import DocstringEditor.Docstring.Edit

namespace DocstringEditor

open Analysis (Analyzer QueryScope Registry)

def protocolVersion : String := "1.0.0"

def defaultBackend : String := "structural"

structure Query where
  source : Text
  position : ProtocolPosition
  backend : Option String := none
  scope : QueryScope := .context

structure CleanRequest where
  query : Query
  skip : List String := []

structure DocstringRequest where
  query : Query
  docstring : Text
  onNewLine : Bool := false

structure ResolveAnswer where
  backend : String
  entity : Option Entity

structure CleanAnswer where
  backend : String
  kind : EntityKind
  name : Option String
  code : Text

structure DocstringAnswer where
  backend : String
  name : String
  edit : DocstringEdit
  patched : Text

inductive RequestError
  | analysis (e : Analysis.Error)
  | cleaning (e : CleaningError)
  | edit (e : EditError)
  | noEntity (scope : QueryScope) (p : ProtocolPosition)
  deriving DecidableEq, Repr

namespace RequestError

def wanted : QueryScope → String
  | .context => "entity"
  | scope => scope.name

def message : RequestError → String
  | analysis e => e.message
  | cleaning e => e.message
  | edit e => e.message
  | noEntity scope p => s!"no enclosing {wanted scope} at line {p.line}, character {p.character}"

def isInternal : RequestError → Bool
  | analysis e => e.isInternal
  | _ => false

end RequestError

variable (parse : Analysis.Parse)

namespace Query

/-- The position, then the backend, then the source has to be valid. -/
def open? (source : Text) (position : ProtocolPosition) (backend : String) :
    Except Analysis.Error (Analyzer × DocumentPosition) := do
  let cursor ← position.toDocument.mapError .invalidCursor
  return (← Registry.builtin.create parse backend source, cursor)

def run (q : Query) : Except Analysis.Error (String × Option Entity) := do
  let (analyzer, cursor) ← open? parse q.source q.position (q.backend.getD defaultBackend)
  return (analyzer.backend.name, ← analyzer.find q.scope cursor)

def require (q : Query) : Except RequestError (String × Entity) := do
  let (backend, found) ← (q.run parse).mapError .analysis
  match found with
  | some e => return (backend, e)
  | none => .error (.noEntity q.scope q.position)

def resolve (q : Query) : Except RequestError ResolveAnswer := do
  let (backend, entity) ← (q.run parse).mapError .analysis
  return { backend, entity }

end Query

def resolveEntity (source : Text) (position : ProtocolPosition) (backend : String) :
    Except Analysis.Error Entity := do
  let (analyzer, cursor) ← Query.open? parse source position backend
  analyzer.context cursor

def CleanRequest.run (r : CleanRequest) : Except RequestError CleanAnswer := do
  let (backend, e) ← r.query.require parse
  return { backend, kind := e.kind, name := e.name?, code := ← (e.clean r.skip).mapError .cleaning }

def DocstringRequest.run (r : DocstringRequest) : Except (Halt RequestError) DocstringAnswer := do
  let (backend, e) ← (r.query.require parse).mapError .error
  let edit ← (Docstring.plan e r.docstring r.onNewLine r.query.source).mapError (.map .edit)
  let patched ← (edit.apply r.query.source).mapError (.map .edit)
  return { backend, name := e.name?.getD "", edit, patched }

end DocstringEditor
