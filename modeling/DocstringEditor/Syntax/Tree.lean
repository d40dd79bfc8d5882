import DocstringEditor.Text.Basic

namespace DocstringEditor.Syntax

structure Location where
  byte : Nat
  row : Nat
  column : Nat
  deriving DecidableEq, Repr

namespace Location

def origin : Location := ⟨0, 0, 0⟩

def advance (l : Location) (c : Char) : Location :=
  if c = '\n' then ⟨l.byte + 1, l.row + 1, 0⟩
  else ⟨l.byte + c.utf8Size, l.row, l.column + c.utf8Size⟩

end Location

inductive Kind
  | module
  | block
  | classDefinition
  | functionDefinition
  | expressionStatement
  | printStatement
  | chevron
  | execStatement
  | parenthesized
  | string
  | stringStart
  | stringContent
  | stringEnd
  | interpolation
  | formatSpecifier
  | concatenatedString
  | identifier
  | attribute
  | subscript
  | starred
  | tuple
  | list
  | comment
  | lineContinuation
  | phrase
  | mark (text : String)
  | error
  | missing (name : String)
  /-- Any other node that has an error where none of its children has one. -/
  | flawed
  deriving DecidableEq, Repr

namespace Kind

def isNamed : Kind → Bool
  | mark _ => false
  | _ => true

def isExtra : Kind → Bool
  | comment | lineContinuation => true
  | _ => false

def isFlaw : Kind → Bool
  | error | missing _ | flawed => true
  | _ => false

end Kind

inductive Role
  | name
  | body
  deriving DecidableEq, Repr

inductive Node
  | mk (kind : Kind) (role : Option Role) (start stop : Location) (children : List Node)
  deriving Repr

abbrev Forest := List Node

namespace Node

def kind : Node → Kind
  | mk k _ _ _ _ => k

def role : Node → Option Role
  | mk _ r _ _ _ => r

def start : Node → Location
  | mk _ _ s _ _ => s

def stop : Node → Location
  | mk _ _ _ e _ => e

def children : Node → Forest
  | mk _ _ _ _ cs => cs

def leaf (k : Kind) (start stop : Location) : Node := mk k none start stop []

def withRole (r : Role) : Node → Node
  | mk k _ s e cs => mk k (some r) s e cs

def isNamed (n : Node) : Bool := n.kind.isNamed

def isComment (n : Node) : Bool := n.kind = .comment

def isExtra (n : Node) : Bool := n.kind.isExtra

def namedChildren (n : Node) : Forest := n.children.filter isNamed

def hasWidth (n : Node) : Bool := n.start.byte < n.stop.byte

def child? (n : Node) (r : Role) : Option Node := n.children.find? (·.role = some r)

mutual
def preorder : Node → List Node
  | mk k r s e cs => mk k r s e cs :: preorderAll cs

def preorderAll : Forest → List Node
  | [] => []
  | n :: ns => preorder n ++ preorderAll ns
end

mutual
def hasError : Node → Bool
  | mk k _ _ _ cs => k.isFlaw || anyHasError cs

def anyHasError : Forest → Bool
  | [] => false
  | n :: ns => hasError n || anyHasError ns
end

mutual
/-- The first error or missing token of a tree. A node that is marked for an error which none of its
children has is blamed itself. -/
def firstError? : Node → Option Node
  | mk k r s e cs =>
    let n := mk k r s e cs
    match k with
    | .error | .missing _ => some n
    | _ => if n.hasError then some ((firstErrorIn? cs).getD n) else none

def firstErrorIn? : Forest → Option Node
  | [] => none
  | n :: ns => (firstError? n).or (firstErrorIn? ns)
end

end Node

namespace Forest

/-- Gathers a phrase into one node. Extras before its first token stay outside. -/
def wrap (k : Kind) (parts : Forest) : Forest :=
  match parts.span (·.isExtra) with
  | (before, []) => before
  | (before, first :: rest) =>
    before ++ [.mk k none first.start ((first :: rest).getLast (by simp)).stop (first :: rest)]

def withRole (r : Role) (parts : Forest) : Forest :=
  parts.map fun n => if n.isExtra then n else n.withRole r

def solid (parts : Forest) : Forest := parts.filter (!·.isExtra)

end Forest

end DocstringEditor.Syntax
