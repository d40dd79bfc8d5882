import DocstringEditor.Iterate
import DocstringEditor.Syntax.Lexer

namespace DocstringEditor.Syntax

abbrev Parser := StateT Scan Option

/-- What may come right after an expression, and whether `if … else` may be part of it. -/
structure Follow where
  newline : Bool := false
  closer : Bool := false
  conditional : Bool := true

namespace Follow

def inside : Follow := {}

def line : Follow := { newline := true }

def bracketed : Follow := { closer := true }

def after (f : Follow) : Expected := { newline := f.newline, closer := f.closer }

def orString (f : Follow) : Expected := { f.after with string := true }

end Follow

namespace Parser

def peek (e : Expected) : Parser Lexeme := fun s => some (s.lex e, s)

def takeAs (l : Lexeme) (k : Kind) : Parser Forest := fun _ => some (l.leaf k, l.next)

def take (l : Lexeme) : Parser Forest :=
  takeAs l <| match l.token with
    | .name text | .mark text => .mark text
    | _ => .phrase

def takeLayout (l : Lexeme) : Parser Forest := fun _ => some (l.extras, l.next)

def mark (e : Expected) (text : String) : Parser Forest := do
  let l ← peek e
  if l.token = .mark text then take l else failure

def keyword (e : Expected) (text : String) : Parser Forest := do
  let l ← peek e
  if l.token = .name text then take l else failure

/-- Takes any name. A reserved word is a name where it means nothing else. -/
def name (l : Lexeme) : Parser Forest :=
  match l.token with
  | .name _ => takeAs l .identifier
  | _ => failure

def loop {σ α : Type} (x : σ) (step : σ → Parser (σ ⊕ α)) : Parser α := fun s =>
  iterate step (s.rest.length + 1) x s

end Parser

/-- The phrases that contain each other. The first token of each has been seen. -/
inductive Phrase
  | expression (first : Lexeme) (f : Follow)
  | operand (first : Lexeme) (f : Follow)
  | field
  | union (first : Lexeme) (f : Follow)
  | casePattern (first : Lexeme) (f : Follow)
  | statement (first : Lexeme) (nested : Bool)

abbrev Grammar := Phrase → Parser Forest

namespace Lexeme

def isMark (l : Lexeme) (text : String) : Bool := l.token = .mark text

def isName (l : Lexeme) (text : String) : Bool := l.token = .name text

def startsExpression (l : Lexeme) : Bool :=
  match l.token with
  | .name _ | .number | .string _ => true
  | .mark text => text ∈ ["(", "[", "\x7b", "...", "-", "+", "~", "*"]
  | _ => false

end Lexeme

namespace Node

mutual
def isTarget : Node → Bool
  | mk .identifier _ _ _ _ | mk .attribute _ _ _ _ | mk .subscript _ _ _ _ => true
  | mk .starred _ _ _ cs | mk .tuple _ _ _ cs | mk .list _ _ _ cs
  | mk .parenthesized _ _ _ cs => areTargets cs
  | _ => false

def areTargets : Forest → Bool
  | [] => true
  | n :: ns => (!n.isNamed || n.isExtra || n.isTarget) && areTargets ns
end

end Node

end DocstringEditor.Syntax
