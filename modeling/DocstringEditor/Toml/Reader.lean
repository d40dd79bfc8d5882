import DocstringEditor.Toml.Key
import DocstringEditor.Toml.Number

namespace DocstringEditor.Toml

open Text (Reader)
open Text.Reader

def items (item : Reader Toml) : Reader (List Toml) :=
  loop [] fun vs => do
    skipLines
    if ← attempt "]" then return .inr vs.reverse
    let v ← item
    skipLines
    if ← attempt "," then return .inl (v :: vs)
    expect "]"
    return .inr (v :: vs).reverse

def assignment (item : Reader Toml) : Reader (List String × String × Toml) := do
  let (path, key) ← dottedKey
  expect "="
  skipSpace
  return (path, key, ← item)

def entries (item : Reader Toml) : Reader Entries := do
  skipSpace
  if ← attempt "\x7d" then return []
  loop [] fun es => do
    let (path, key, v) ← assignment item
    match assign path key v .inline es with
    | none => failure
    | some (_, es) =>
      skipSpace
      if ← attempt "," then return .inl es
      expect "\x7d"
      return .inr es

def valueWith (item : Option (Reader Toml)) : Reader Toml := do
  match ← peek? with
  | some '"' | some '\'' => string <$> quotedString
  | some '[' =>
    let some item := item | failure
    expect "["
    array <$> items item
  | some '{' =>
    let some item := item | failure
    expect "\x7b"
    table .inline <$> entries item
  | some 't' =>
    expect "true"
    return bool true
  | some 'f' =>
    expect "false"
    return bool false
  | _ => numberOrDate

def value : Nat → Reader Toml
  | 0 => valueWith none
  | depth + 1 => valueWith (some (value depth))

structure Document where
  header : List String
  entries : Entries

def header (d : Document) : Reader Document := do
  let repeated ← attempt "[["
  if !repeated then expect "["
  let (path, key) ← dottedKey
  expect (if repeated then "]]" else "]")
  let change := if repeated then append path key else define path key
  match change .header d.entries with
  | some (_, es) => return ⟨path ++ [key], es⟩
  | none => failure

def setting (d : Document) : Reader Document := do
  let (path, key, v) ← assignment (value maxDepth)
  match assignIn d.header path key v .header d.entries with
  | some (_, es) => return { d with entries := es }
  | none => failure

def document : Reader Entries := do
  let _ ← attempt "\uFEFF"
  loop ⟨[], []⟩ fun d => do
    skipLines
    match ← peek? with
    | none => return .inr d.entries
    | some '[' =>
      let d ← header d
      lineEnd
      return .inl d
    | some _ =>
      let d ← setting d
      lineEnd
      return .inl d

def ofText? (t : Text) : Option Entries := (document t).map (·.1)

end DocstringEditor.Toml
