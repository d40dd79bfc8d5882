import DocstringEditor.Text.Lines

namespace DocstringEditor.Docstring

def quotes : Text := ['"', '"', '"']

def upToQuotes? : Text → Option Text
  | [] => none
  | c :: t => if quotes.isPrefixOf (c :: t) then some [] else (upToQuotes? t).map (c :: ·)

def quoted? : Text → Option Text
  | [] => none
  | c :: t =>
    if quotes.isPrefixOf (c :: t) then
      match t.drop 2 with
      | [] => none
      | d :: rest => (upToQuotes? rest).map (d :: ·)
    else quoted? t

def isNoise (c : Char) : Bool := Text.isBlank c || c ∈ ['`', '\'', '"']

def isLineBreak (c : Char) : Bool := c = '\n' || c = '\r'

/-- Drops leading noise up to the last line break in it. -/
def dropLeadingNoise (t : Text) : Text :=
  let noise := t.takeWhile isNoise
  t.drop (noise.length - (noise.reverse.takeWhile (!isLineBreak ·)).length)

def dropTrailingNoise (t : Text) : Text := (t.reverse.dropWhile isNoise).reverse

def dropPrefix (width : Text) (line : Text) : Text :=
  if width.isPrefixOf line then line.drop width.length else line

def dedent (t : Text) : Text :=
  let lines := Text.splitLines t
  let width := (lines.headD []).takeWhile (· = ' ')
  (lines.map (dropPrefix width)).flatten

def ofGenerated (t : Text) : Text :=
  dedent (dropTrailingNoise (dropLeadingNoise ((quoted? t).getD t)))

end DocstringEditor.Docstring
