import DocstringEditor.Position
import DocstringEditor.Text.Lines

namespace DocstringEditor

def indentWidth : Nat := 4

inductive EntityKind
  | module
  | classDef
  | functionDef
  deriving DecidableEq, Repr

namespace EntityKind

def all : List EntityKind := [module, classDef, functionDef]

def name : EntityKind → String
  | module => "module"
  | classDef => "class"
  | functionDef => "function"

def ofName? (s : String) : Option EntityKind := all.find? (·.name = s)

end EntityKind

structure ModuleEntity where
  code : Text
  docstring : Option DocumentRange
  deriving DecidableEq, Repr

structure NamedEntity where
  name : String
  /-- The text of the definition, with its first line padded to the column where it stands. -/
  code : Text
  range : DocumentRange
  /-- The place just past the header's colon, or the end of its line if a comment follows. -/
  signatureEnd : DocumentPosition
  docstring : Option DocumentRange
  indentLevel : UInt32
  source : Text
  deriving DecidableEq, Repr

/-- Indentation levels of a line: a level for each four blank characters at its start. -/
def indentLevelOf (line : Text) : UInt32 :=
  let blanks := line.takeWhile fun c => Text.isBlank c && c ≠ '\n' && c ≠ '\r'
  UInt32.ofNat (blanks.length / indentWidth)

namespace NamedEntity

def ofCode (name : String) (code : Text) (range : DocumentRange) (signatureEnd : DocumentPosition)
    (docstring : Option DocumentRange) (source : Text) : NamedEntity :=
  { name, code, range, signatureEnd, docstring, source
    indentLevel := indentLevelOf ((Text.splitLines code).headD []) }

def relative (e : NamedEntity) (p : DocumentPosition) : LocalPosition :=
  p.relativeTo e.range.start.line

end NamedEntity

inductive Entity
  | module (e : ModuleEntity)
  | classDef (e : NamedEntity)
  | functionDef (e : NamedEntity)
  deriving DecidableEq, Repr

namespace Entity

def kind : Entity → EntityKind
  | module _ => .module
  | classDef _ => .classDef
  | functionDef _ => .functionDef

def named? : Entity → Option NamedEntity
  | module _ => none
  | classDef e | functionDef e => some e

def name? (e : Entity) : Option String := e.named?.map (·.name)

def code : Entity → Text
  | module e => e.code
  | classDef e | functionDef e => e.code

def codeLines (e : Entity) : List Text := Text.splitLines e.code

def docstring : Entity → Option DocumentRange
  | module e => e.docstring
  | classDef e | functionDef e => e.docstring

def relative (e : Entity) (p : DocumentPosition) : LocalPosition :=
  match e with
  | module _ => p.relativeTo 1
  | classDef e | functionDef e => e.relative p

end Entity

end DocstringEditor
