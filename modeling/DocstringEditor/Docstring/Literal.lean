import DocstringEditor.Docstring.Body
import DocstringEditor.Entity

namespace DocstringEditor.Docstring

def joinLines (lines : List Text) : Text := ['\n'].intercalate lines

/-- What stands between the quotes. A body of several lines ends with a line feed, and starts with
one if it is to start on a new line. -/
def content (body : Text) (onNewLine : Bool) : Text :=
  let lines := Text.bareLines body
  if lines.length > 1 then
    (if onNewLine then ['\n'] else []) ++ joinLines lines ++ ['\n']
  else body

def indent (width : Nat) (t : Text) : Text :=
  (Text.splitLines t).flatMap (List.replicate width ' ' ++ ·)

def literal (body : Text) (indentLevel : UInt32) (onNewLine : Bool) : Text :=
  indent (indentLevel.toNat * indentWidth) (quotes ++ content body onNewLine ++ quotes) ++ ['\n']

end DocstringEditor.Docstring
