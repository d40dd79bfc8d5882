import DocstringEditor.Text.Digits
import DocstringEditor.Text.Reader

namespace DocstringEditor.Toml

open Text (Reader)
open Text.Reader

def isSpace (c : Char) : Bool := c = ' ' || c = '\t'

def skipSpace : Reader Unit := do let _ ← takeWhile isSpace

def newline? : Reader Bool := attemptAny ["\n", "\r\n"]

def isPlain (c : Char) : Bool :=
  c = '\t' || (0x20 ≤ c.toNat && c.toNat ≤ 0x7E) || 0x80 ≤ c.toNat

def skipComment : Reader Unit := do
  if (← peek?) = some '#' then
    let _ ← takeWhile isPlain

def skipLines : Reader Unit :=
  loop () fun _ => do
    skipSpace
    skipComment
    if ← newline? then return .inl () else return .inr ()

def lineEnd : Reader Unit := do
  skipSpace
  skipComment
  if !(← newline?) && !(← get).isEmpty then failure

def codePoint (count : Nat) : Reader Char := do
  let t ← get
  let ds := t.take count
  if ds.length < count then failure
  let n ← ds.foldlM (fun n c => (Text.hexValue? c).elim failure fun d => return 16 * n + d) 0
  set (t.drop count)
  if n < 0xD800 ∨ (0xE000 ≤ n ∧ n < 0x110000) then return Char.ofNat n else failure

def escape : Reader Char := do
  match ← next with
  | 'b' => return '\x08'
  | 'f' => return '\x0c'
  | 'n' => return '\n'
  | 'r' => return '\r'
  | 't' => return '\t'
  | '"' => return '"'
  | '\\' => return '\\'
  | 'u' => codePoint 4
  | 'U' => codePoint 8
  | _ => failure

def basicString : Reader Text :=
  loop [] fun s => do
    match ← next with
    | '"' => return .inr s.reverse
    | '\\' => return .inl ((← escape) :: s)
    | c => if isPlain c then return .inl (c :: s) else failure

def literalString : Reader Text := do
  let s ← takeWhile fun c => c ≠ '\'' && isPlain c
  expect "'"
  return s

def lineJoint? : Reader Bool := do
  let t ← get
  skipSpace
  if ← newline? then
    let _ ← loop () fun _ => do
      skipSpace
      if ← newline? then return .inl () else return .inr ()
    return true
  else
    set t
    return false

/-- Takes a string of several lines from behind its quotes. Up to two quotes may stand anywhere in
it, also right before those that close it. -/
def multilineString (quote : Char) (escapes : Bool) : Reader Text := do
  let _ ← newline?
  loop [] fun s => do
    let quotes ← takeWhile (· = quote)
    if 5 < quotes.length then failure
    else if 3 ≤ quotes.length then
      return .inr (s.reverse ++ quotes.drop 3)
    let s := quotes ++ s
    if ← newline? then return .inl ('\n' :: s)
    let c ← next
    if c = '\\' ∧ escapes then
      if ← lineJoint? then return .inl s else return .inl ((← escape) :: s)
    else if isPlain c then return .inl (c :: s)
    else failure

def quotedString : Reader Text := do
  if ← attempt "\"\"\"" then multilineString '"' true
  else if ← attempt "'''" then multilineString '\'' false
  else if ← attempt "\"" then basicString
  else
    expect "'"
    literalString

def isBareKeyChar (c : Char) : Bool := c.isAlphanum || c = '_' || c = '-'

def simpleKey : Reader String := do
  if ← attempt "\"" then return String.ofList (← basicString)
  else if ← attempt "'" then return String.ofList (← literalString)
  else
    match ← takeWhile isBareKeyChar with
    | [] => failure
    | s => return String.ofList s

def maxDepth : Nat := 79

def dottedKey : Reader (List String × String) := do
  let part : Reader String := do
    skipSpace
    let key ← simpleKey
    skipSpace
    return key
  let (path, key) ← loop ([], ← part) fun (path, key) => do
    if ← attempt "." then return .inl (key :: path, ← part) else return .inr (path, key)
  if maxDepth ≤ path.length then failure else return (path.reverse, key)

end DocstringEditor.Toml
