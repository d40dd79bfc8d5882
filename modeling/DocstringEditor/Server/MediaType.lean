import DocstringEditor.Text.Basic

namespace DocstringEditor

structure MediaType where
  type : Text
  subtype : Text
  deriving DecidableEq, Repr

namespace MediaType

def isTokenChar (c : Char) : Bool :=
  c.isAlphanum || c ∈ "!#$%&'*+-.^_`|~".toList

def isQuotedChar (c : Char) : Bool := 0x20 ≤ c.toNat && c.toNat ≤ 0x7E

def afterQuoted? (t : Text) : Option Text :=
  match t.dropWhile (· = ' ') with
  | [] => some []
  | ';' :: rest => some rest
  | _ => none

def dropValue? : Text → Option Text
  | '"' :: c :: t =>
    match t.dropWhile (· ≠ '"') with
    | '"' :: rest =>
      if isQuotedChar c && (t.takeWhile (· ≠ '"')).all isQuotedChar then afterQuoted? rest else none
    | _ => none
  | ['"'] => none
  | t =>
    match t.dropWhile isTokenChar with
    | [] => some []
    | ';' :: rest => if t.head? = some ';' then none else some rest
    | _ => none

def dropParameter? (t : Text) : Option Text :=
  let t := t.dropWhile (· = ' ')
  match t.takeWhile isTokenChar, t.dropWhile isTokenChar with
  | _ :: _, '=' :: rest => dropValue? rest
  | _, _ => none

def areParameters : Nat → Text → Bool
  | _, [] => true
  | 0, _ => false
  | n + 1, t => (dropParameter? t).any (areParameters n)

def lower (t : Text) : Text := t.map Char.toLower

def ofText? (t : Text) : Option MediaType :=
  match t.takeWhile isTokenChar, t.dropWhile isTokenChar with
  | type@(_ :: _), '/' :: rest =>
    let found : MediaType := ⟨lower type, lower (rest.takeWhile isTokenChar)⟩
    match rest.dropWhile isTokenChar with
    | [] => some found
    | ';' :: parameters =>
      if found.subtype.isEmpty || !areParameters parameters.length parameters then none
      else some found
    | _ => none
  | _, _ => none

/-- The parts of a subtype before and behind its last plus sign, which does not come first. -/
def splitSuffix (subtype : Text) : Text × Option Text :=
  let suffix := (subtype.reverse.takeWhile (· ≠ '+')).reverse
  match subtype.take (subtype.length - suffix.length - 1) with
  | [] => (subtype, none)
  | main => (main, some suffix)

def isJson (m : MediaType) : Bool :=
  let (main, suffix) := splitSuffix m.subtype
  m.type = "application".toList && (main = "json".toList || suffix = some "json".toList)

end MediaType

end DocstringEditor
