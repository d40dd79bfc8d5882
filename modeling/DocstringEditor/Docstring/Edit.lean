import DocstringEditor.Docstring.Literal
import DocstringEditor.Text.LineEnding

namespace DocstringEditor

structure DocstringEdit where
  removal : Option ProtocolRange
  insertAt : ProtocolPosition
  text : Text
  deriving DecidableEq, Repr

inductive EditError
  | notNamed (kind : EntityKind)
  | outOfBounds (p : ProtocolPosition)
  | overlap (p : ProtocolPosition)
  | inlineBody (name : String)
  deriving DecidableEq, Repr

def EditError.message : EditError → String
  | notNamed kind => s!"docstrings can only be written for classes and functions, not a {kind.name}"
  | outOfBounds p => s!"position {p.text} is outside the document"
  | overlap p => s!"insertion point {p.text} falls inside the removed range"
  | inlineBody name =>
    "`" ++ name ++ "` has its body on the header line; move the body to its own line first"

inductive Halt (ε : Type)
  | error (e : ε)
  | panic
  deriving DecidableEq, Repr

def Halt.map {ε δ : Type} (f : ε → δ) : Halt ε → Halt δ
  | error e => .error (f e)
  | panic => .panic

namespace Docstring

def hasInlineBody (e : NamedEntity) : Bool :=
  let row := (e.relative e.signatureEnd).line.toNat
  match (Text.splitLines e.code)[row]? with
  | none => false
  | some line =>
    match Text.dropBytes (Text.stripLineEnding line) e.signatureEnd.column with
    | none => false
    | some rest =>
      match Text.trimStart rest with
      | [] => false
      | c :: _ => c ≠ '#'

def lineStart (line : UInt32) : ProtocolPosition := ⟨line, 0⟩

/-- The edit that makes generated text the docstring of an entity. It replaces whole lines, or goes
on the line below the header. -/
def plan (e : Entity) (generated : Text) (onNewLine : Bool) (document : Text) :
    Except (Halt EditError) DocstringEdit :=
  match e.named? with
  | none => .error (.error (.notNamed e.kind))
  | some e =>
    if hasInlineBody e then .error (.error (.inlineBody e.name))
    else if e.indentLevel.toNat + 1 = UInt32.size then .error .panic
    else
      let body := ofGenerated generated
      let text := LineEnding.adapt document (literal body (e.indentLevel + 1) onNewLine)
      match e.docstring with
      | some range =>
        let start := lineStart range.toProtocol.start.line
        .ok ⟨some ⟨start, lineStart (range.toProtocol.stop.line + 1)⟩, start, text⟩
      | none => .ok ⟨none, lineStart (e.signatureEnd.toProtocol.line + 1), text⟩

/-- The byte offset of a row and column in lines. Column 0 of every row past the last line is the
end. -/
def offsetIn : List Text → Nat → Nat → Option Nat
  | [], _, column => if column = 0 then some 0 else none
  | line :: _, 0, column => (Text.takeBytes line column).map fun _ => column
  | line :: lines, row + 1, column => (offsetIn lines row column).map (Text.byteSize line + ·)

def byteOffset (source : Text) (p : ProtocolPosition) : Except EditError Nat :=
  match offsetIn (Text.splitLines source) p.line.toNat p.column with
  | some n => .ok n
  | none => .error (.outOfBounds p)

def insertAtByte (t : Text) (offset : Nat) (new : Text) : Text :=
  match Text.splitAtByte t offset with
  | some (before, rest) => before ++ new ++ rest
  | none => t

def removeBytes (t : Text) (start stop : Nat) : Text :=
  (Text.takeBytes t start).getD [] ++ (Text.dropBytes t stop).getD []

end Docstring

namespace DocstringEdit

open Docstring

def apply (e : DocstringEdit) (source : Text) : Except (Halt EditError) Text := do
  let offset (p : ProtocolPosition) := (byteOffset source p).mapError Halt.error
  let place ← offset e.insertAt
  match e.removal with
  | none => return insertAtByte source place e.text
  | some removal =>
    let start ← offset removal.start
    let stop ← offset removal.stop
    if start < place ∧ place < stop then .error (.error (.overlap e.insertAt))
    else if stop < start then .error .panic
    else
      let offset := if stop ≤ place then place - (stop - start) else place
      return insertAtByte (removeBytes source start stop) offset e.text

end DocstringEdit

end DocstringEditor
