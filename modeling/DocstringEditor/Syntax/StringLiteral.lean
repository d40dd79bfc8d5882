import DocstringEditor.Syntax.Parser

namespace DocstringEditor.Syntax

/-- The next piece of a literal, with its length. A line end may stand in a literal with single
quotes only where a piece starts. -/
inductive Piece
  | close (length : Nat)
  | text (length : Nat)
  | field
  | invalid

namespace Piece

def hexadecimal (c : Char) : Bool := c.isDigit || ('a' ≤ c.toLower && c.toLower ≤ 'f')

def escapeLength (t : Text) : Nat :=
  let digits (count : Nat) : Nat :=
    let code := (t.drop 1).take count
    if code.length = count ∧ code.all hexadecimal then count + 1 else 0
  match t with
  | '\n' :: _ => 1
  | '\r' :: '\n' :: _ => 2
  | 'x' :: _ => digits 2
  | 'u' :: _ => digits 4
  | 'U' :: _ => digits 8
  | 'N' :: '{' :: rest =>
    let name := rest.takeWhile (· ≠ '}')
    if name.isEmpty || name.length = rest.length then 0 else name.length + 3
  | c :: _ =>
    if c.isDigit then ((t.take 3).takeWhile Char.isDigit).length
    else if c ∈ ['\'', '"', '\\', 'a', 'b', 'f', 'n', 'r', 't', 'v'] then 1
    else 0
  | [] => 0

def rawLength (quote : Char) (t : Text) : Nat :=
  let quoted := if t.head?.any fun c => c = quote || c = '\\' then 1 else 0
  match t.drop quoted with
  | '\r' :: '\n' :: _ => quoted + 2
  | '\r' :: _ | '\n' :: _ => quoted + 1
  | _ => quoted

/-- Reads plain text up to a quote, brace, backslash or line end that ends it. A NUL is part of no
literal. `skip` counts characters that are part of it whatever else they are. -/
def readText (style : StringStyle) (skip length : Nat) (started : Bool) : Text → Piece
  | [] | '\x00' :: _ => invalid
  | c :: t =>
    match skip with
    | n + 1 => readText style n (length + 1) started t
    | 0 =>
      if style.formatted ∧ (c = '{' ∨ c = '}') then text length
      else if c = '\\' then
        if style.raw then readText style (rawLength style.quote t) (length + 1) started t
        else if style.bytes ∧ t.head?.any (· ∈ ['N', 'u', 'U']) then
          readText style 2 (length + 1) true t
        else if started then text length
        else text (1 + escapeLength t)
      else if c = style.quote then
        if style.triple then
          if [c, c].isPrefixOf t then if started then text length else close length
          else if [c].isPrefixOf t then text (length + 2)
          else text (length + 1)
        else if started then text length else close length
      else if c = '\n' ∧ started ∧ !style.triple then invalid
      else readText style 0 (length + 1) true t

def read (style : StringStyle) (t : Text) : Piece :=
  match style.formatted, t with
  | true, '{' :: '{' :: _ | true, '}' :: '}' :: _ => text 2
  | true, '{' :: _ => field
  | true, '}' :: _ => invalid
  | _, t => readText style 0 0 false t

end Piece

namespace Parser

open Forest (wrap)

def skip (n : Nat) : Parser Unit := fun s => some ((), s.skip n)

def content (start stop : Location) : Forest :=
  if start.byte < stop.byte then [.leaf .stringContent start stop] else []

def interpolation (g : Grammar) : Parser Forest := do
  let start := (← get).here
  skip 1
  let brace : Node := .leaf (.mark "\x7b") start (← get).here
  return wrap .interpolation (brace :: (← g .field))

def literalRest (g : Grammar) (style : StringStyle) (opening : Forest) : Parser Forest := do
  loop (opening, (← get).here) fun (parts, start) => do
    match Piece.read style (← get).rest with
    | .close n =>
      skip n
      let parts := parts ++ content start (← get).here
      let start := (← get).here
      skip style.quotes
      modify ({ · with inFormat := false })
      return .inr (parts ++ [.leaf .stringEnd start (← get).here])
    | .text n =>
      skip n
      return .inl (parts, start)
    | .field =>
      let parts := parts ++ content start (← get).here
      let parts := parts ++ (← interpolation g)
      return .inl (parts, (← get).here)
    | .invalid => failure

def literal (g : Grammar) (l : Lexeme) : Parser Forest := do
  match l.token with
  | .string style =>
    set l.next
    return wrap .string (← literalRest g style (l.leaf .stringStart))
  | _ => failure

def literals (g : Grammar) (first : Lexeme) (f : Follow) : Parser Forest := do
  let start ← literal g first
  loop (start, false) fun (parts, several) => do
    let l ← peek f.orString
    match l.token with
    | .string _ => return .inl (parts ++ (← literal g l), true)
    | _ => return .inr (if several then Forest.wrap .concatenatedString parts else parts)

def formatSpecification (g : Grammar) : Parser Forest := do
  let start := (← get).here
  skip 1
  let colon : Node := .leaf (.mark ":") start (← get).here
  let parts ← loop ([colon], (← get).here) fun (parts, start) => do
    match (← get).rest with
    | '}' :: _ => return .inr (parts ++ content start (← get).here)
    | '{' :: _ =>
      let parts := parts ++ content start (← get).here
      let parts := parts ++ (← interpolation g)
      return .inl (parts, (← get).here)
    | [] | '\x00' :: _ => failure
    | _ :: _ =>
      skip 1
      return .inl (parts, start)
  return wrap .formatSpecifier parts

def skipSpace : Parser Unit := fun s => some ((), s.skip (s.rest.takeWhile isSpace).length)

def conversion : Parser Forest := do
  skipSpace
  let start := (← get).here
  match (← get).rest with
  | '!' :: c :: _ =>
    if c.isLower then
      skip 2
      return [.leaf .phrase start (← get).here]
    else failure
  | _ => return []

def fieldRest (g : Grammar) : Parser Forest := do
  let l ← peek Follow.bracketed.after
  let equals ← if l.isMark "=" then take l else pure []
  let parts := equals ++ (← conversion)
  skipSpace
  let format ← match (← get).rest with
    | ':' :: _ => formatSpecification g
    | _ => pure []
  return parts ++ format ++ (← mark Follow.bracketed.after "\x7d")

end Parser

end DocstringEditor.Syntax
