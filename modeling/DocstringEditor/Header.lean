import DocstringEditor.Text.Basic

namespace DocstringEditor.Header

structure Colon where
  line : Nat
  stop : Nat
  deriving DecidableEq, Repr

def isWordChar (c : Char) : Bool := c.isAlphanum || c = '_' || 0x80 ≤ c.toNat

def isStringPrefix (word : Text) : Bool :=
  word.map Char.toLower ∈
    [['r'], ['u'], ['b'], ['f'], ['t'], ['b', 'r'], ['r', 'b'], ['f', 'r'], ['r', 'f'], ['t', 'r'],
     ['r', 't']]

/-- The length of a literal behind its opening quotes, the closing ones included. Without triple
quotes it ends before an unescaped line end at the latest. -/
def closingLength (quote : Char) (triple : Bool) : Text → Nat
  | [] => 0
  | '\\' :: [] => 1
  | '\\' :: _ :: t => 2 + closingLength quote triple t
  | c :: t =>
    if c = quote then
      if triple then if [quote, quote].isPrefixOf t then 3 else 1 + closingLength quote triple t
      else 1
    else if c = '\n' ∧ !triple then 0
    else 1 + closingLength quote triple t

def stringLength : Text → Nat
  | [] => 0
  | q :: t =>
    if [q, q].isPrefixOf t then 3 + closingLength q true (t.drop 2)
    else 1 + closingLength q false t

def isQuote (c : Char) : Bool := c = '"' || c = '\''

def stepLength : Text → Nat
  | [] => 0
  | c :: t =>
    if c = '#' then 1 + (t.takeWhile (· ≠ '\n')).length
    else if isQuote c then stringLength (c :: t)
    else if isWordChar c then
      let word := c :: t.takeWhile isWordChar
      let rest := t.dropWhile isWordChar
      if rest.head?.any isQuote && isStringPrefix word then word.length + stringLength rest
      else word.length
    else 1

/-- Reads a text from a place in it. `skip` counts characters that have been dealt with. -/
def colonsFrom (skip depth line column : Nat) : Text → List Colon
  | [] => []
  | c :: t =>
    let (line', column') := if c = '\n' then (line + 1, 0) else (line, column + c.utf8Size)
    match skip with
    | n + 1 => colonsFrom n depth line' column' t
    | 0 =>
      if c ∈ ['(', '[', '{'] then colonsFrom 0 (depth + 1) line' column' t
      else if c ∈ [')', ']', '}'] then colonsFrom 0 (depth - 1) line' column' t
      else if c = ':' then
        if t.head? = some '=' then colonsFrom 1 depth line' column' t
        else if depth = 0 then ⟨line', column'⟩ :: colonsFrom 0 depth line' column' t
        else colonsFrom 0 depth line' column' t
      else colonsFrom (stepLength (c :: t) - 1) depth line' column' t

def topLevelColons (t : Text) : List Colon := colonsFrom 0 0 0 0 t

example : topLevelColons "def f(a: dict = g('k:')):".toList = [⟨0, 25⟩] := by decide

end DocstringEditor.Header
