import DocstringEditor.Syntax.Tree

namespace DocstringEditor.Syntax

structure Expected where
  newline : Bool := false
  indent : Bool := false
  dedent : Bool := false
  string : Bool := false
  closer : Bool := false
  handler : Bool := false

structure Scan where
  rest : Text
  here : Location
  blocks : List Nat
  inFormat : Bool

namespace Scan

def ofText : Text → Scan
  | '\uFEFF' :: t => ⟨t, Location.origin.advance '\uFEFF', [0], false⟩
  | t => ⟨t, .origin, [0], false⟩

def skip : Nat → Scan → Scan
  | 0, s => s
  | n + 1, s =>
    match s.rest with
    | [] => s
    | c :: t => skip n { s with rest := t, here := s.here.advance c }

end Scan

inductive BlankMode
  | space
  | comment
  /-- Behind a backslash, and behind a backslash and a carriage return. -/
  | backslash
  | backslashReturn
  deriving DecidableEq, Repr

structure Blanks where
  length : Nat := 0
  lineEnd : Bool := false
  /-- Indentation after the last line end: a space counts 1, a tab 8, and a form feed or carriage
  return starts over. -/
  width : Nat := 0
  commentWidth : Option Nat := none
  mode : BlankMode := .space

namespace Blanks

/-- Reads blank space and, where `comments` says so, lines that hold only a comment. There is no
result at a comment behind code, and at a backslash that does not end its line. -/
def read (comments : Bool) (b : Blanks) : Text → Option Blanks
  | [] => some { b with lineEnd := true, width := 0 }
  | c :: t =>
    let next := { b with length := b.length + 1 }
    match b.mode with
    | .comment =>
      if c = '\n' then read comments { next with mode := .space, width := 0 } t
      else read comments next t
    | .backslash =>
      if c = '\n' then read comments { next with mode := .space } t
      else if c = '\r' then read comments { next with mode := .backslashReturn } t
      else none
    | .backslashReturn => if c = '\n' then read comments { next with mode := .space } t else none
    | .space =>
      if c = '\n' then read comments { next with lineEnd := true, width := 0 } t
      else if c = ' ' then read comments { next with width := b.width + 1 } t
      else if c = '\t' then read comments { next with width := b.width + 8 } t
      else if c = '\r' ∨ c = '\x0c' then read comments { next with width := 0 } t
      else if c = '\\' then read comments { next with mode := .backslash } t
      else if c = '#' ∧ comments then
        if b.lineEnd then
          read comments
            { next with commentWidth := b.commentWidth.or (some b.width), mode := .comment } t
        else none
      else some b

end Blanks

structure StringStyle where
  quote : Char := '"'
  triple : Bool := false
  formatted : Bool := false
  raw : Bool := false
  bytes : Bool := false
  deriving DecidableEq, Repr

namespace StringStyle

def quotes (style : StringStyle) : Nat := if style.triple then 3 else 1

def ofOpening (style : StringStyle) (length : Nat) : Text → Option (StringStyle × Nat)
  | [] => none
  | c :: t =>
    if c = 'f' ∨ c = 'F' then ofOpening { style with formatted := true } (length + 1) t
    else if c = 'r' ∨ c = 'R' then ofOpening { style with raw := true } (length + 1) t
    else if c = 'b' ∨ c = 'B' then ofOpening { style with bytes := true } (length + 1) t
    else if c = 'u' ∨ c = 'U' then ofOpening style (length + 1) t
    else if c = '`' then some ({ style with quote := c }, length + 1)
    else if c = '"' ∨ c = '\'' then
      if [c, c].isPrefixOf t then some ({ style with quote := c, triple := true }, length + 3)
      else some ({ style with quote := c }, length + 1)
    else none

end StringStyle

inductive Token
  | newline
  | indent
  | dedent
  | finish
  | string (style : StringStyle)
  | name (text : String)
  | number
  | mark (text : String)
  | unknown
  deriving DecidableEq, Repr

/-- The layout token or string opening at a place, with the state after it. Layout tokens are empty
and stand before the blank space that gives rise to them. -/
def layoutToken (e : Expected) (s : Scan) : Option (Token × Location × Scan) := do
  let comments := e.indent || e.dedent || e.newline || e.handler
  let blanks ← Blanks.read comments {} s.rest
  let next := s.skip blanks.length
  let atQuote := match next.rest with
    | c :: _ => c = '"' || c = '\'' || c = '`'
    | [] => false
  let block := s.blocks.headD 0
  if blanks.lineEnd && e.indent && block < blanks.width then
    return (.indent, s.here, { s with blocks := blanks.width :: s.blocks })
  else if blanks.lineEnd && (e.dedent || !(e.newline || (e.string && atQuote) || e.closer)) &&
      blanks.width < block && !s.inFormat && blanks.commentWidth.all (· < block) then
    return (.dedent, s.here, { s with blocks := s.blocks.tail })
  else if blanks.lineEnd && e.newline then
    return (.newline, s.here, s)
  else if e.string && blanks.commentWidth.isNone then
    let (style, length) ← StringStyle.ofOpening {} 0 next.rest
    return (.string style, next.here, { next.skip length with inFormat := style.formatted })
  else none

end DocstringEditor.Syntax
