import DocstringEditor.Entity
import DocstringEditor.Docstring.Edit
import DocstringEditor.Json.Decoder

namespace DocstringEditor

def Position.toJson {c : Convention} (p : Position c) : Json :=
  .object [("line", .natural p.line.toNat), ("character", .natural p.character.toNat)]

def Range.toJson {c : Convention} (r : Range c) : Json :=
  .object [("start", r.start.toJson), ("end", r.stop.toJson)]

namespace Entity

def namedFields (e : NamedEntity) : List (String × Json) :=
  [("name", .ofString e.name), ("code", .string e.code), ("code_range", e.range.toJson),
   ("signature_end", e.signatureEnd.toJson),
   ("docstring_range", .ofOption Range.toJson e.docstring),
   ("indent_level", .natural e.indentLevel.toNat)]

def fields : Entity → List (String × Json)
  | module e => [("code", .string e.code), ("docstring_range", .ofOption Range.toJson e.docstring)]
  | classDef e | functionDef e => namedFields e

def toJson (e : Entity) : Json := .object (("kind", .ofString e.kind.name) :: e.fields)

end Entity

def DocstringEdit.toJson (e : DocstringEdit) : Json :=
  .object [("removal", .ofOption Range.toJson e.removal), ("insert_at", e.insertAt.toJson),
    ("text", .string e.text)]

namespace Json.Decoder

def entityKind (isNothing : Json → Bool) : Decoder EntityKind :=
  named EntityKind.ofName? isNothing

def flatten {α : Type} (o : Option (Option α)) : Option α := o.getD none

def moduleEntity : Decoder ModuleEntity
  | .object fields => do
    let code ← field? "code" text fields
    let docstring ← field? "docstring_range" (option documentRange) fields
    return ⟨← required code, flatten docstring⟩
  | .array [code, docstring] => do return ⟨← text code, ← option documentRange docstring⟩
  | _ => .error .mismatch

def namedEntity : Decoder NamedEntity
  | .object fields => do
    let code ← field? "code" text fields
    let range ← field? "code_range" documentRange fields
    let docstring ← field? "docstring_range" (option documentRange) fields
    let indentLevel ← field? "indent_level" word fields
    let name ← field? "name" string fields
    let signatureEnd ← field? "signature_end" documentPosition fields
    return {
      name := ← required name
      code := ← required code
      range := ← required range
      signatureEnd := ← required signatureEnd
      docstring := flatten docstring
      indentLevel := ← required indentLevel
      source := [] }
  | .array [name, code, range, signatureEnd, docstring, indentLevel] => do
    return {
      name := ← string name
      code := ← text code
      range := ← documentRange range
      signatureEnd := ← documentPosition signatureEnd
      docstring := ← option documentRange docstring
      indentLevel := ← word indentLevel
      source := [] }
  | _ => .error .mismatch

def entity : Decoder Entity := fun v => do
  let (kind, rest) ← match v with
    | .object fields =>
      let kind ← field? "kind" pure fields
      pure (← required kind, Json.object (fields.filter (·.1 ≠ "kind")))
    | .array (kind :: items) => pure (kind, Json.array items)
    | _ => .error .mismatch
  match ← entityKind (fun _ => false) kind with
  | .module => Entity.module <$> moduleEntity rest
  | .classDef => Entity.classDef <$> namedEntity rest
  | .functionDef => Entity.functionDef <$> namedEntity rest

def edit : Decoder DocstringEdit
  | .object fields => do
    let insertAt ← field? "insert_at" protocolPosition fields
    let removal ← field? "removal" (option protocolRange) fields
    let text ← field? "text" text fields
    return ⟨flatten removal, ← required insertAt, ← required text⟩
  | .array [removal, insertAt, t] => do
    return ⟨← option protocolRange removal, ← protocolPosition insertAt, ← text t⟩
  | _ => .error .mismatch

end Json.Decoder

end DocstringEditor
