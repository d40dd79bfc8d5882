import DocstringEditor.Text.Basic

namespace DocstringEditor

inductive LineEnding
  | lf
  | crlf
  deriving DecidableEq, Repr

namespace LineEnding

def text : LineEnding → Text
  | lf => ['\n']
  | crlf => ['\r', '\n']

def ofDocument : Text → LineEnding
  | '\r' :: '\n' :: _ => crlf
  | '\n' :: _ => lf
  | _ :: t => ofDocument t
  | [] => lf

def unify : Text → Text
  | '\r' :: '\n' :: t => '\n' :: unify t
  | c :: t => c :: unify t
  | [] => []

def expand (e : LineEnding) (t : Text) : Text :=
  t.flatMap fun c => if c = '\n' then e.text else [c]

def adapt (document t : Text) : Text := (ofDocument document).expand (unify t)

end LineEnding

end DocstringEditor
