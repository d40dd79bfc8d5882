import DocstringEditor.Analysis.Definition

namespace DocstringEditor.Analysis.Symbols

open Syntax (Node Forest)

structure Scope where
  kind : EntityKind
  name : String
  parent : Option Nat
  children : List Nat
  range : DocumentRange
  signatureEnd : Option DocumentPosition
  docstring : Option DocumentRange
  deriving DecidableEq, Repr

abbrev ScopeTable := Array Scope

mutual
def commentCovers (byte : Nat) : Node → Bool
  | .mk k _ s e cs => (k = .comment && s.byte ≤ byte && byte < e.byte) || anyCommentCovers byte cs

def anyCommentCovers (byte : Nat) : Forest → Bool
  | [] => false
  | n :: ns => commentCovers byte n || anyCommentCovers byte ns
end

/-- The place after the colon that closes a header, or the end of its line if a comment follows. -/
def signatureEnd (s : Source) (kind : EntityKind) (n : Node) : Except Error DocumentPosition :=
  match (n.children.filter (·.kind = .mark ":")).getLast? with
  | none => .error (.internal (.noHeaderColon kind (Position.ofLocation n.start)))
  | some colon =>
    let stop := Position.ofLocation colon.stop
    let after := (Text.dropBytes s.text colon.stop.byte).getD []
    let blanks := after.takeWhile fun c => c = ' ' || c = '\t' || c = '\x0c'
    let commented := match after.drop blanks.length with
      | [] => false
      | c :: _ =>
        c ≠ '\n' && c ≠ '\r' && commentCovers (colon.stop.byte + Text.byteSize blanks) s.root
    .ok <| if commented then
      { stop with character := UInt32.ofNat (Text.byteSize (s.lineText stop.row)) }
    else stop

def push (s : Source) (parent : Nat) (table : ScopeTable) (kind : EntityKind) (n : Node) :
    Except Error ScopeTable := do
  let scope : Scope := {
    kind
    name := ← s.nameOf kind n
    parent := some parent
    children := []
    range := Source.rangeOf n
    signatureEnd := some (← signatureEnd s kind n)
    docstring := s.docstringRange? n }
  let index := table.size
  return (table.push scope).modify parent fun p => { p with children := p.children ++ [index] }

mutual
def collect (s : Source) (parent : Nat) (table : ScopeTable) :
    Node → Except Error ScopeTable
  | .mk k r b e cs =>
    match (Node.mk k r b e cs).definitionKind? with
    | none | some .module => collectAll s parent table cs
    | some kind => do
      collectAll s table.size (← push s parent table kind (.mk k r b e cs)) cs

def collectAll (s : Source) (parent : Nat) (table : ScopeTable) :
    Forest → Except Error ScopeTable
  | [] => .ok table
  | n :: ns => do collectAll s parent (← collect s parent table n) ns
end

def build (s : Source) : Except Error ScopeTable :=
  let root : Scope := {
    kind := .module
    name := ""
    parent := none
    children := []
    range := .ofLocations s.root.start s.root.stop
    signatureEnd := none
    docstring := s.docstringRange? s.root }
  collectAll s 0 #[root] s.root.children

def scopeAt (table : ScopeTable) (index : Nat) : Except Error Scope :=
  match table[index]? with
  | some scope => .ok scope
  | none => .error (.internal (.noScope index))

def containing? (table : ScopeTable) (cursor : DocumentPosition) :
    List Nat → Except Error (Option Nat)
  | [] => .ok none
  | child :: rest => do
    let scope ← scopeAt table child
    if cursorWithin scope.range.start scope.range.stop cursor then return some child
    else containing? table cursor rest

def descend (table : ScopeTable) (cursor : DocumentPosition) : Nat → Nat → Except Error Nat
  | 0, current => .ok current
  | steps + 1, current => do
    match ← containing? table cursor (← scopeAt table current).children with
    | some child => descend table cursor steps child
    | none => return current

/-- The innermost scope that contains the cursor. Children come after their parents, so no way down
is longer than the table. -/
def innermost (table : ScopeTable) (cursor : DocumentPosition) : Except Error Nat :=
  descend table cursor table.size 0

def ascend (table : ScopeTable) (kind : EntityKind) : Nat → Option Nat → Except Error (Option Nat)
  | 0, _ | _, none => .ok none
  | steps + 1, some current => do
    let scope ← scopeAt table current
    if scope.kind = kind then return some current else ascend table kind steps scope.parent

def enclosing (table : ScopeTable) (cursor : DocumentPosition) (kind : EntityKind) :
    Except Error (Option Nat) := do
  ascend table kind table.size (some (← innermost table cursor))

def linesText (s : Source) (range : DocumentRange) : Except Error Text :=
  let before := (List.range' range.start.row (range.stop.row - range.start.row)).map s.line
  match Text.takeBytes (s.lineText range.stop.row) range.stop.column with
  | some last => .ok (before.flatten ++ last)
  | none => .error (.internal (.columnPastEnd range.stop))

def entityOf (s : Source) (table : ScopeTable) (index : Nat) : Except Error Entity := do
  let scope ← scopeAt table index
  if scope.kind = .module then return s.moduleEntity scope.docstring
  match scope.signatureEnd with
  | none => .error (.internal (.noSignature scope.kind scope.name))
  | some stop =>
    let code ← linesText s scope.range
    return namedEntity scope.kind
      (.ofCode scope.name code scope.range stop scope.docstring s.text)

end DocstringEditor.Analysis.Symbols
