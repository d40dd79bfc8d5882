import DocstringEditor.Json.Reader
import DocstringEditor.Request
import DocstringEditor.Wire.Entity

namespace DocstringEditor

namespace Json.Decoder

def queryScope (isNothing : Json → Bool) : Decoder Analysis.QueryScope :=
  named Analysis.QueryScope.ofName? isNothing

def isEmptyValue : Json → Bool
  | .null | .object [] => true
  | _ => false

def query : Decoder Query := fun v => do
  let fields ← objectFields v
  let source ← field? "source" text fields
  let position ← field? "position" protocolPosition fields
  let backend ← field? "backend" (option string) fields
  let scope ← field? "scope" (queryScope isEmptyValue) fields
  return {
    source := ← required source
    position := ← required position
    backend := flatten backend
    scope := scope.getD .context }

def cleanRequest : Decoder CleanRequest := fun v => do
  let skip ← field? "skip" (list string) (← objectFields v)
  return { query := ← query v, skip := skip.getD [] }

def docstringRequest : Decoder DocstringRequest := fun v => do
  let fields ← objectFields v
  let docstring ← field? "docstring" text fields
  let onNewLine ← field? "on_new_line" bool fields
  return {
    query := ← query v
    docstring := ← required docstring
    onNewLine := onNewLine.getD false }

end Json.Decoder

namespace Query

def fields (q : Query) : List (String × Json) :=
  [("source", .string q.source), ("position", q.position.toJson)] ++
    (q.backend.map fun b => ("backend", Json.ofString b)).toList ++
    [("scope", .ofString q.scope.name)]

def toJson (q : Query) : Json := .object q.fields

end Query

def CleanRequest.toJson (r : CleanRequest) : Json :=
  .object (r.query.fields ++ [("skip", .array (r.skip.map .ofString))])

def DocstringRequest.toJson (r : DocstringRequest) : Json :=
  .object (r.query.fields ++
    [("docstring", .string r.docstring), ("on_new_line", .bool r.onNewLine)])

def answerFields (backend : String) : List (String × Json) :=
  [("version", .ofString protocolVersion), ("backend", .ofString backend)]

def ResolveAnswer.toJson (a : ResolveAnswer) : Json :=
  .object (answerFields a.backend ++ [("entity", .ofOption Entity.toJson a.entity)])

def CleanAnswer.toJson (a : CleanAnswer) : Json :=
  .object (answerFields a.backend ++ [("kind", .ofString a.kind.name)] ++
    (a.name.map fun n => ("name", Json.ofString n)).toList ++ [("code", .string a.code)])

def DocstringAnswer.toJson (a : DocstringAnswer) : Json :=
  .object (answerFields a.backend ++
    [("name", .ofString a.name), ("edit", a.edit.toJson), ("patched", .string a.patched)])

def backendsJson : Json :=
  .object [("default", .ofString defaultBackend),
    ("backends", .array (Analysis.Registry.builtin.names.map .ofString))]

end DocstringEditor
