import DocstringEditor.Json.Basic
import DocstringEditor.Text.Digits

namespace DocstringEditor.Json

inductive ReadError
  | malformed
  | mismatch
  deriving DecidableEq, Repr

abbrev Reader (α : Type) := Text → Except ReadError (α × Text)

def isSpace (c : Char) : Bool := c = ' ' || c = '\n' || c = '\t' || c = '\r'

def skipSpace (t : Text) : Text := t.dropWhile isSpace

def unit? (a b c d : Char) : Option Nat := do
  let high := 16 * (← Text.hexValue? a) + (← Text.hexValue? b)
  let low := 16 * (← Text.hexValue? c) + (← Text.hexValue? d)
  return 256 * high + low

def unescape? : Char → Option Char
  | '"' => some '"'
  | '\\' => some '\\'
  | '/' => some '/'
  | 'b' => some '\x08'
  | 'f' => some '\x0c'
  | 'n' => some '\n'
  | 'r' => some '\r'
  | 't' => some '\t'
  | _ => none

def surrogate? (high low : Nat) : Option Char :=
  if 0xDC00 ≤ low ∧ low < 0xE000 then
    some (Char.ofNat (0x10000 + (high - 0xD800) * 0x400 + (low - 0xDC00)))
  else none

/-- Reads a string from behind its opening quote. Control characters have to be escaped, and
surrogates come in pairs. -/
def chars : Reader Text
  | [] => .error .malformed
  | '"' :: t => .ok ([], t)
  | '\\' :: 'u' :: a :: b :: c :: d :: t =>
    match unit? a b c d with
    | none => .error .malformed
    | some high =>
      if high < 0xD800 ∨ 0xE000 ≤ high then
        (chars t).map fun (s, t) => (Char.ofNat high :: s, t)
      else if 0xDC00 ≤ high then .error .malformed
      else match t with
        | '\\' :: 'u' :: a :: b :: c :: d :: t =>
          match (unit? a b c d).bind (surrogate? high) with
          | none => .error .malformed
          | some x => (chars t).map fun (s, t) => (x :: s, t)
        | _ => .error .malformed
  | '\\' :: c :: t =>
    match unescape? c with
    | none => .error .malformed
    | some x => (chars t).map fun (s, t) => (x :: s, t)
  | c :: t =>
    if c.toNat < 0x20 ∨ c = '\\' then .error .malformed
    else (chars t).map fun (s, t) => (c :: s, t)

def digits : Reader Text := fun t =>
  match t.takeWhile Char.isDigit with
  | [] => .error .malformed
  | ds => .ok (ds, t.dropWhile Char.isDigit)

def fraction : Reader (Option Text)
  | '.' :: t => (digits t).map fun (ds, t) => (some ds, t)
  | t => .ok (none, t)

def exponent : Reader (Option Int)
  | c :: t =>
    if c = 'e' ∨ c = 'E' then
      match t with
      | '-' :: t => (digits t).map fun (ds, t) => (some (-(Text.digitsValue ds : Int)), t)
      | '+' :: t => (digits t).map fun (ds, t) => (some (Text.digitsValue ds : Int), t)
      | t => (digits t).map fun (ds, t) => (some (Text.digitsValue ds : Int), t)
    else .ok (none, c :: t)
  | [] => .ok (none, [])

def whole : Reader Text := fun t => do
  let (ds, t) ← digits t
  if ds.head? = some '0' ∧ ds ≠ ['0'] then .error .malformed else return (ds, t)

def number : Reader Json := fun t => do
  let negative := t.head? = some '-'
  let (ds, t₁) ← whole (if negative then t.tail else t)
  let (frac, t₂) ← fraction t₁
  let (exp, t₃) ← exponent t₂
  let places := (frac.getD []).length
  if !Text.isFinite (ds ++ frac.getD []) (exp.getD 0 - places) then .error .malformed
  else if negative || frac.isSome || exp.isSome then
    return (otherNumber (t.take (t.length - t₃.length)), t₃)
  else return (natural (Text.digitsValue ds), t₃)

def word (w : Text) (v : Json) : Reader Json := fun t =>
  if w.isPrefixOf t then .ok (v, t.drop w.length) else .error .malformed

def items (item : Reader Json) : Nat → Bool → Reader (List Json)
  | 0, _, _ => .error .malformed
  | n + 1, isFirst, t =>
    match skipSpace t with
    | ']' :: t => .ok ([], t)
    | c :: t => do
      if !isFirst && c ≠ ',' then throw .malformed
      let (v, t) ← item (if isFirst then c :: t else t)
      let (vs, t) ← items item n false t
      return (v :: vs, t)
    | [] => .error .malformed

def fieldName : Reader String := fun t =>
  match skipSpace t with
  | '"' :: t => (chars t).map fun (name, t) => (String.ofList name, t)
  | _ => .error .malformed

def colon : Reader Unit := fun t =>
  match skipSpace t with
  | ':' :: t => .ok ((), t)
  | _ => .error .malformed

/-- Reads the fields of an object up to its brace, so many at most. How the value of a field is
read depends on the names before it and on its own. -/
def fields (value : List String → String → Except ReadError (Reader Json)) :
    Nat → Bool → List String → Reader (List (String × Json))
  | 0, _, _, _ => .error .malformed
  | n + 1, isFirst, seen, t =>
    match skipSpace t with
    | '}' :: t => .ok ([], t)
    | c :: t => do
      if !isFirst && c ≠ ',' then throw .malformed
      let (name, t) ← fieldName (if isFirst then c :: t else t)
      let read ← value seen name
      let ((), t) ← colon t
      let (v, t) ← read t
      let (vs, t) ← fields value n false (name :: seen) t
      return ((name, v) :: vs, t)
    | [] => .error .malformed

def value : Nat → Reader Json
  | depth, t =>
    match skipSpace t with
    | 'n' :: t => word "ull".toList null t
    | 't' :: t => word "rue".toList (bool true) t
    | 'f' :: t => word "alse".toList (bool false) t
    | '"' :: t => (chars t).map fun (s, t) => (string s, t)
    | '[' :: t =>
      match depth with
      | 0 => .error .malformed
      | d + 1 => (items (value d) (t.length + 1) true t).map fun (vs, t) => (array vs, t)
    | '{' :: t =>
      match depth with
      | 0 => .error .malformed
      | d + 1 =>
        (fields (fun _ _ => .ok (value d)) (t.length + 1) true [] t).map fun (fs, t) =>
          (object fs, t)
    | t => number t

def maxDepth : Nat := 127

def ofText? (t : Text) : Option Json :=
  match value maxDepth t with
  | .ok (v, rest) => if skipSpace rest = [] then some v else none
  | .error _ => none

end DocstringEditor.Json
