import DocstringEditor.Analysis.Definition
import DocstringEditor.Header

namespace DocstringEditor.Analysis.Structural

open Syntax (Node Forest)

def enters (cursor : DocumentPosition) (n : Node) : Bool :=
  match n.definitionKind? with
  | some .module => true
  | some _ =>
    cursorWithin (Position.ofLocation n.start) (Position.ofLocation n.logicalEnd) cursor
  | none => cursorWithin (Position.ofLocation n.start) (Position.ofLocation n.stop) cursor

mutual
/-- The module and the definitions that a walk to the cursor comes by, in the order it does. -/
def visited (cursor : DocumentPosition) : Node → List Node
  | .mk k r s e cs =>
    if enters cursor (.mk k r s e cs) then
      (if (Node.mk k r s e cs).definitionKind?.isSome then [.mk k r s e cs] else []) ++
        visitedAll cursor cs
    else []

def visitedAll (cursor : DocumentPosition) : Forest → List Node
  | [] => []
  | n :: ns => (if n.isNamed then visited cursor n else []) ++ visitedAll cursor ns
end

def findLast? (cursor : DocumentPosition) (root : Node) (kind : EntityKind) : Option Node :=
  (visited cursor root).reverse.find? (·.definitionKind? = some kind)

def innermost? (cursor : DocumentPosition) (root : Node) : Option Node :=
  (visited cursor root).getLast?

def padding (t : Text) : Text := t.map fun c => if c = '\t' ∨ c = '\x0c' then c else ' '

/-- The text of a range, with the first line padded to its start column if asked. -/
def segment (s : Source) (range : DocumentRange) (padded : Bool) : Except Error Text :=
  let first := s.line range.start.row
  let cut : Option Text := do
    let pad ← if padded then (Text.takeBytes first range.start.column).map padding else some []
    if range.start.row = range.stop.row then
      return pad ++ (← Text.sliceBytes first range.start.column range.stop.column)
    else
      let rest ← Text.dropBytes first range.start.column
      let between := (List.range' (range.start.row + 1) (range.stop.row - range.start.row - 1)).map
        s.line
      let last ← Text.takeBytes (s.line range.stop.row) range.stop.column
      return pad ++ rest ++ between.flatten ++ last
  match cut with
  | some t => .ok t
  | none => .error (.internal (.segmentOutOfBounds range))

def headerLines (code : Text) (start body : DocumentPosition) : List Text :=
  let rows := body.row - start.row
  let lines := (Text.splitLines code).take (rows + 1)
  match lines.getLast? with
  | none => []
  | some last =>
    let text := Text.stripLineEnding last
    lines.dropLast ++ [(Text.takeBytes text body.column).getD text]

/-- The end of the header whose lines are given: its last top-level colon, or the end of that line
if a comment follows the colon. -/
def headerEnd? (header : List Text) (start : DocumentPosition) : Option DocumentPosition := do
  let colon ← (Header.topLevelColons header.flatten).getLast?
  let line := Text.stripLineEnding (header.getD colon.line [])
  let rest := (Text.dropBytes line colon.stop).getD []
  let stop := if (Text.trimStart rest).head? = some '#' then Text.byteSize line else colon.stop
  let row := start.line + UInt32.ofNat colon.line
  return ⟨if row = 0 then 1 else row, UInt32.ofNat stop⟩

def signatureEnd (kind : EntityKind) (n : Node) (range : DocumentRange) (code : Text) :
    Except Error DocumentPosition :=
  match n.firstStatement? with
  | none => .error (.internal (.noBody kind range.start))
  | some body =>
    let header := headerLines code range.start (Position.ofLocation body.start)
    match headerEnd? header range.start with
    | none => .error (.internal (.noColon kind range.start))
    | some stop => .ok stop

def entityOf (s : Source) (n : Node) : Except Error Entity := do
  match n.definitionKind? with
  | none | some .module => return s.moduleEntity (s.docstringRange? n)
  | some kind =>
    let range := Source.rangeOf n
    let code ← segment s range true
    let stop ← signatureEnd kind n range code
    let name ← s.nameOf kind n
    return namedEntity kind (.ofCode name code range stop (s.docstringRange? n) s.text)

end DocstringEditor.Analysis.Structural
