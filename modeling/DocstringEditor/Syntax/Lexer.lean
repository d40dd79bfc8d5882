import DocstringEditor.Syntax.Layout
import DocstringEditor.Text.Identifier

namespace DocstringEditor.Syntax

/-- White space between tokens: ASCII white space, the byte order mark, and the zero-width space
and word joiner. -/
def isSpace (c : Char) : Bool :=
  c = ' ' || ('\t' ≤ c && c ≤ '\r') || c = '\uFEFF' || c = '\u200B' || c = '\u2060'

namespace Number

def dropDigits (afterDigit : Bool) : Text → Text
  | [] => []
  | c :: t =>
    if c.isDigit then dropDigits true t
    else if c = '_' ∧ afterDigit then dropDigits false t
    else c :: t

def dropRadix (isDigit : Char → Bool) : Text → Text
  | [] => []
  | [c] => if isDigit c then [] else [c]
  | c :: d :: t =>
    if isDigit c then dropRadix isDigit (d :: t)
    else if c = '_' ∧ isDigit d then dropRadix isDigit (d :: t)
    else c :: d :: t

def dropOne (cs : List Char) : Text → Text
  | [] => []
  | c :: t => if c ∈ cs then t else c :: t

def dropExponent? : Text → Option Text
  | c :: t =>
    let digits := dropOne ['+', '-'] t
    if c = 'e' ∨ c = 'E' then
      if digits.head?.any Char.isDigit then some (dropDigits false digits) else none
    else none
  | [] => none

def dropPrefixed? (t : Text) : Option Text :=
  let digits (isDigit : Char → Bool) (rest : Text) : Option Text :=
    let left := dropRadix isDigit rest
    if left.length < rest.length then some (dropOne ['l', 'L'] left) else none
  match t with
  | '0' :: 'x' :: rest | '0' :: 'X' :: rest =>
    digits (fun c => c.isDigit || 'a' ≤ c.toLower && c.toLower ≤ 'f') rest
  | '0' :: 'o' :: rest | '0' :: 'O' :: rest => digits (fun c => '0' ≤ c && c ≤ '7') rest
  | '0' :: 'b' :: rest | '0' :: 'B' :: rest => digits (fun c => c = '0' || c = '1') rest
  | _ => none

def drop? (t : Text) : Option Text :=
  (dropPrefixed? t).or <|
    let whole := dropDigits false t
    let imaginary := dropOne ['j', 'J']
    if t.head?.any Char.isDigit then
      match whole with
      | '.' :: rest =>
        let rest := dropDigits false rest
        some (imaginary ((dropExponent? rest).getD rest))
      | _ =>
        match dropExponent? whole with
        | some rest => some (imaginary rest)
        | none => some (dropOne ['l', 'L', 'j', 'J'] whole)
    else
      match t with
      | '.' :: c :: rest =>
        if c.isDigit then
          let rest := dropDigits false (c :: rest)
          some (imaginary ((dropExponent? rest).getD rest))
        else none
      | _ => none

end Number

def marks : List String :=
  ["**=", "//=", ">>=", "<<=", "...", "**", "//", ">>", "<<", "<=", ">=", "==", "!=", "<>", "->",
   ":=", "+=", "-=", "*=", "/=", "%=", "@=", "&=", "|=", "^=", "+", "-", "*", "/", "%", "@", "&",
   "|", "^", "~", "<", ">", "=", "(", ")", "[", "]", "\x7b", "\x7d", ",", ":", ";", "."]

def plainToken : Text → Token × Nat
  | [] => (.finish, 0)
  | c :: t =>
    if Text.isNameStart c then
      let word := c :: t.takeWhile Text.isNameRest
      (.name (String.ofList word), word.length)
    else match Number.drop? (c :: t) with
      | some rest => (.number, t.length + 1 - rest.length)
      | none =>
        match marks.find? fun m => m.toList.isPrefixOf (c :: t) with
        | some m => (.mark m, m.length)
        | none => (.unknown, 1)

structure Lexeme where
  extras : Forest
  token : Token
  start : Location
  next : Scan

namespace Lexeme

def leaf (l : Lexeme) (k : Kind) : Forest := l.extras ++ [.leaf k l.start l.next.here]

end Lexeme

namespace Scan

def extra? (s : Scan) : Option (Node × Scan) :=
  let node (k : Kind) (length : Nat) : Option (Node × Scan) :=
    let next := s.skip length
    some (.leaf k s.here next.here, next)
  match s.rest with
  | '#' :: t => node .comment (1 + (t.takeWhile fun c => c ≠ '\n' && c ≠ '\x00').length)
  | '\\' :: '\n' :: _ | '\\' :: '\x00' :: _ => node .lineContinuation 2
  | '\\' :: '\r' :: '\n' :: _ => node .lineContinuation 3
  | ['\\'] => node .lineContinuation 1
  | _ => none

/-- Reads the next token. The first argument bounds the number of extras before it. -/
def lexWithin (e : Expected) : Nat → Forest → Scan → Lexeme
  | 0, extras, s => ⟨extras, .unknown, s.here, s⟩
  | n + 1, extras, s =>
    match layoutToken e s with
    | some (token, start, next) => ⟨extras, token, start, next⟩
    | none =>
      let s := s.skip (s.rest.takeWhile isSpace).length
      match s.extra? with
      | some (node, next) => lexWithin e n (extras ++ [node]) next
      | none =>
        let (token, length) := plainToken s.rest
        ⟨extras, token, s.here, s.skip length⟩

def lex (e : Expected) (s : Scan) : Lexeme := lexWithin e (s.rest.length + 1) [] s

end Scan

end DocstringEditor.Syntax
