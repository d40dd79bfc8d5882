import DocstringEditor.Analysis.Error
import DocstringEditor.Syntax.Module

namespace DocstringEditor

namespace Position

open Syntax (Location)

def ofLocation (l : Location) : DocumentPosition :=
  ⟨UInt32.ofNat l.row + 1, UInt32.ofNat l.column⟩

end Position

namespace Range

/-- An end before the start counts as the start. -/
def ofLocations (start stop : Syntax.Location) : DocumentRange :=
  let start := Position.ofLocation start
  let stop := Position.ofLocation stop
  ⟨start, if stop < start then start else stop⟩

end Range

namespace Analysis

open Syntax (Node Forest Location Kind Role)

structure Source where
  text : Text
  lines : List Text
  root : Node

namespace Source

def ofTree (text : Text) (root : Node) : Source := ⟨text, Text.splitLines text, root⟩

def line (s : Source) (row : Nat) : Text := s.lines.getD row []

def lineText (s : Source) (row : Nat) : Text := Text.stripLineEnding (s.line row)

def nodeText (s : Source) (n : Node) : Text :=
  (Text.sliceBytes s.text n.start.byte n.stop.byte).getD []

def startsLine (s : Source) (l : Location) : Bool :=
  Text.isBlankLine ((Text.takeBytes (s.lineText l.row) l.column).getD [])

/-- The first statement that starts its line at another column than the first one that does;
`expected` is the column of the latter where it is known. -/
def misindented? (s : Source) (expected : Option Nat) : Forest → Option Node
  | [] => none
  | n :: ns =>
    if n.isComment || !s.startsLine n.start then s.misindented? expected ns
    else match expected with
      | none => s.misindented? (some n.start.column) ns
      | some column =>
        if n.start.column = column then s.misindented? expected ns else some n

end Source

end Analysis

namespace Syntax.Node

mutual
def named : Node → List Node
  | mk k r s e cs => mk k r s e cs :: namedAll cs

def namedAll : Forest → List Node
  | [] => []
  | n :: ns => (if n.isNamed then named n else []) ++ namedAll ns
end

end Syntax.Node

namespace Analysis

open Syntax (Node Location)

/-- The fault of one node. Statements of a module start at column 0, those of a block where its
first one does. -/
def Source.fault? (s : Source) (n : Node) : Option (Location × Fault) :=
  match n.kind with
  | .printStatement =>
    if n.children.any (·.kind = .chevron) then none else some (n.start, .printStatement)
  | .execStatement => some (n.start, .execStatement)
  | .module => (s.misindented? (some 0) n.namedChildren).map fun m => (m.start, .indentation)
  | .block => (s.misindented? none n.namedChildren).map fun m => (m.start, .indentation)
  | _ => none

namespace Source

def earlier (a b : Location × Fault) : Location × Fault :=
  if b.1.row < a.1.row ∨ (b.1.row = a.1.row ∧ b.1.column < a.1.column) then b else a

def firstFault? (s : Source) : Option (Location × Fault) :=
  match s.root.named.filterMap s.fault? with
  | [] => none
  | f :: fs => some (fs.foldl earlier f)

end Source

inductive ParseFailure
  | noGrammar (reason : String)
  | noTree
  deriving DecidableEq, Repr

/-- What the parser of a grammar does. A text that the grammar does not accept has a tree with errors
in it. -/
abbrev Parse := Text → Except ParseFailure Node

/-- The grammar of `Node.ofText?`, which does not say where it gives up. -/
def python : Parse := fun text =>
  .ok ((Node.ofText? text).getD (.leaf .error .origin .origin))

def Flaw.ofNode (n : Node) : Flaw :=
  match n.kind with
  | .missing token => .missing token
  | _ => .invalid

def Source.parse (parse : Parse) (text : Text) : Except Error Source :=
  match parse text with
  | .error (.noGrammar reason) => .error (.noGrammar reason)
  | .error .noTree => .error (.internal .noTree)
  | .ok root =>
    match root.firstError? with
    | some n => .error (.rejected (Position.ofLocation n.start) (.ofNode n))
    | none =>
      let s := ofTree text root
      match s.firstFault? with
      | some (l, fault) => .error (.rejected (Position.ofLocation l) (.fault fault))
      | none => .ok s

end Analysis

end DocstringEditor
