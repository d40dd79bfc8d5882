import DocstringEditor.Analysis.Source

namespace DocstringEditor.Syntax.Node

open DocstringEditor (EntityKind)

def definitionKind? (n : Node) : Option EntityKind :=
  match n.kind with
  | .module => some .module
  | .classDefinition => some .classDef
  | .functionDefinition => some .functionDef
  | _ => none

def isDefinition (n : Node) : Bool := n.kind = .classDefinition || n.kind = .functionDefinition

def isSubstantial (n : Node) : Bool := !n.isComment && n.hasWidth

mutual
/-- The end of the last token that is not a comment. -/
def logicalEnd : Node → Location
  | mk _ _ _ stop cs => (lastEnd? cs).getD stop

def lastEnd? : Forest → Option Location
  | [] => none
  | n :: ns => (lastEnd? ns).or (if n.isSubstantial then some (logicalEnd n) else none)
end

def firstStatement? (n : Node) : Option Node := do
  let container ← if n.kind = .module then some n else n.child? .body
  container.namedChildren.find? (!·.isComment)

mutual
def unparenthesized : Node → Node
  | mk k r s e cs =>
    if k = .parenthesized then (soleInner? cs).getD (mk k r s e cs) else mk k r s e cs

def soleInner? : Forest → Option Node
  | [] => none
  | n :: ns =>
    if n.isNamed then if ns.any isNamed then none else some (unparenthesized n)
    else soleInner? ns
end

end DocstringEditor.Syntax.Node

namespace DocstringEditor.Analysis

open Syntax (Node Location)

/-- Whether a cursor is inside what spans from `start` to `stop`. On the first line it has to be
past the start; on the last one any column will do. -/
def cursorWithin (start stop cursor : DocumentPosition) : Bool :=
  if cursor.line < start.line || stop.line < cursor.line then false
  else cursor.line ≠ start.line || start.character < cursor.character

namespace Source

/-- Whether a literal is text: no letter of its prefix is `b`, `f` or `t`. -/
def isTextLiteral (s : Source) (n : Node) : Bool :=
  ((s.nodeText n).takeWhile Char.isAlpha).all (·.toLower ∉ ['b', 'f', 't'])

def isDocstring (s : Source) (n : Node) : Bool :=
  match n.kind with
  | .string => s.isTextLiteral n
  | .concatenatedString =>
    (n.namedChildren.filter (!·.isComment)).all fun part =>
      part.kind = .string && s.isTextLiteral part
  | _ => false

def docstringRange? (s : Source) (n : Node) : Option DocumentRange := do
  let statement ← n.firstStatement?
  if statement.kind ≠ .expressionStatement then none
  let literal ← match statement.namedChildren with
    | [only] => some only.unparenthesized
    | _ => none
  if s.isDocstring literal then some (.ofLocations literal.start literal.stop) else none

def nameOf (s : Source) (kind : EntityKind) (n : Node) : Except Error String :=
  match n.child? .name with
  | some name => .ok (String.ofList (s.nodeText name))
  | none => .error (.internal (.noName kind))

def rangeOf (n : Node) : DocumentRange := .ofLocations n.start n.logicalEnd

def moduleEntity (s : Source) (docstring : Option DocumentRange) : Entity :=
  .module ⟨s.text, docstring⟩

end Source

def namedEntity (kind : EntityKind) (e : NamedEntity) : Entity :=
  match kind with
  | .classDef => .classDef e
  | _ => .functionDef e

end DocstringEditor.Analysis
