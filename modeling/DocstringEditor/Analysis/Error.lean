import DocstringEditor.Entity
import DocstringEditor.Syntax.Tree

namespace DocstringEditor.Analysis

inductive Fault
  | printStatement
  | execStatement
  | indentation
  deriving DecidableEq, Repr

def Fault.message : Fault → String
  | printStatement => "Python 2 print statement"
  | execStatement => "Python 2 exec statement"
  | indentation => "indentation does not match the enclosing block"

inductive Flaw
  | missing (token : String)
  | invalid
  | fault (f : Fault)
  deriving DecidableEq, Repr

def Flaw.message : Flaw → String
  | missing token => "missing `" ++ token ++ "`"
  | invalid => "invalid syntax"
  | fault f => f.message

def definitionLabel : EntityKind → String
  | .module => "module"
  | .classDef => "class_definition"
  | .functionDef => "function_definition"

inductive Defect
  | noTree
  | noBody (kind : EntityKind) (start : DocumentPosition)
  | noColon (kind : EntityKind) (start : DocumentPosition)
  | noHeaderColon (kind : EntityKind) (start : DocumentPosition)
  | noName (kind : EntityKind)
  | noModule
  | noScope (index : Nat)
  | noSignature (kind : EntityKind) (name : String)
  | segmentOutOfBounds (range : DocumentRange)
  | columnPastEnd (stop : DocumentPosition)
  deriving DecidableEq, Repr

def Defect.message : Defect → String
  | noTree => "tree-sitter did not produce a tree"
  | noBody kind start => s!"{definitionLabel kind} at {start.text} has no body"
  | noColon kind start =>
    s!"colon not found in header of {definitionLabel kind} at {start.text}"
  | noHeaderColon kind start => s!"{definitionLabel kind} at {start.text} has no header colon"
  | noName kind => s!"{definitionLabel kind} has no name"
  | noModule => "module node was not visited"
  | noScope index => s!"scope {index} does not exist"
  | noSignature kind name => kind.name ++ " `" ++ name ++ "` has no signature"
  | segmentOutOfBounds range => s!"segment {range.text} is out of bounds"
  | columnPastEnd stop => s!"column {stop.character} is past the end of line {stop.line}"

inductive Error
  | unsupportedBackend (name : String)
  | rejected (position : DocumentPosition) (flaw : Flaw)
  | internal (defect : Defect)
  | noGrammar (reason : String)
  | invalidCursor (e : PositionError)
  deriving DecidableEq, Repr

namespace Error

def message : Error → String
  | unsupportedBackend name => "\"" ++ name ++ "\" analyzer is not supported"
  | rejected p flaw => s!"syntax error at line {p.line}, column {p.character}: {flaw.message}"
  | internal defect => s!"internal analyzer error: {defect.message}"
  | noGrammar reason => "failed to load the Python grammar: " ++ reason
  | invalidCursor e => s!"invalid cursor: {e.message}"

def isInternal : Error → Bool
  | internal _ | noGrammar _ => true
  | _ => false

end Error

end DocstringEditor.Analysis
