import DocstringEditor.Entity

namespace DocstringEditor

inductive CleaningMethod
  | docstring
  | comments
  | blankLines
  | indentation
  deriving DecidableEq, Repr

namespace CleaningMethod

def all : List CleaningMethod := [docstring, comments, blankLines, indentation]

def name : CleaningMethod → String
  | docstring => "docstring"
  | comments => "comments"
  | blankLines => "blank_lines"
  | indentation => "indentation"

def ofName? (s : String) : Option CleaningMethod := all.find? (·.name = s)

end CleaningMethod

inductive CleaningError
  | unknownMethods (names : List String)
  deriving DecidableEq, Repr

def CleaningError.message : CleaningError → String
  | unknownMethods names => "unsupported cleaning methods: " ++ ", ".intercalate names

namespace Cleaning

def insertName (name : String) : List String → List String
  | [] => [name]
  | n :: ns =>
    if name < n then name :: n :: ns else if name = n then n :: ns else n :: insertName name ns

def sortNames (names : List String) : List String := names.foldr insertName []

def isComment (line : Text) : Bool := (Text.trimStart line).head? = some '#'

def dropIndentation : Nat → Text → Text
  | 0, line => line
  | _, [] => []
  | n + 1, c :: line =>
    if Text.isBlank c ∧ c ≠ '\n' ∧ c ≠ '\r' then dropIndentation n line else c :: line

end Cleaning

namespace Entity

open Cleaning

def supportedMethods (e : Entity) : List CleaningMethod :=
  CleaningMethod.all.filter fun m => m ≠ .indentation || e.named?.isSome

def inDocstring (e : Entity) (row : Nat) : Bool :=
  match e.docstring with
  | none => false
  | some range =>
    (e.relative range.start).line.toNat ≤ row && row ≤ (e.relative range.stop).line.toNat

def drops (e : Entity) (row : Nat) (line : Text) : CleaningMethod → Bool
  | .docstring => e.inDocstring row
  | .comments => isComment line
  | .blankLines => Text.isBlankLine line
  | .indentation => false

def indentation (e : Entity) : Nat :=
  match e.named? with
  | some e => e.indentLevel.toNat * indentWidth
  | none => 0

/-- Applies methods to the code. A final terminator that the code does not have goes, too. -/
def cleanWith (e : Entity) (methods : List CleaningMethod) : Text :=
  let kept := e.codeLines.zipIdx.filter fun (line, row) => !methods.any (e.drops row line)
  let width := if .indentation ∈ methods then e.indentation else 0
  let cleaned := kept.flatMap fun (line, _) => dropIndentation width line
  if e.code.getLast? = some '\n' then cleaned else Text.stripLineEnding cleaned

def clean (e : Entity) (skip : List String) : Except CleaningError Text :=
  let skipped (name : String) : Bool := e.supportedMethods.any (·.name = name)
  match skip.filter (!skipped ·) with
  | [] => .ok (e.cleanWith (e.supportedMethods.filter (·.name ∉ skip)))
  | unknown => .error (.unknownMethods (sortNames unknown))

end Entity

end DocstringEditor
