import DocstringEditor.Text.Basic

namespace DocstringEditor

inductive TableOrigin
  | inline
  | header
  | implied
  | dotted
  deriving DecidableEq, Repr

inductive Toml
  | string (t : Text)
  | bool (b : Bool)
  | number
  | date
  | array (items : List Toml)
  | table (origin : TableOrigin) (entries : List (String × Toml))
  | tables (items : List Toml)

namespace Toml

abbrev Entries := List (String × Toml)

/-- What to make of a table: its origin and entries afterwards, or nothing if it must not change. -/
abbrev Change := TableOrigin → Entries → Option (TableOrigin × Entries)

def alter (key : String) (change : Option Toml → Option Toml) : Entries → Option Entries
  | [] => (change none).map fun v => [(key, v)]
  | (k, v) :: es =>
    if k = key then (change (some v)).map fun v => (k, v) :: es
    else (alter key change es).map ((k, v) :: ·)

/-- Changes the table at the end of a path. Tables on it that are missing are made, and those of
other origins than `passes` allows are no part of a path. -/
def within (made : TableOrigin) (passes : TableOrigin → Bool) (change : Change) :
    List String → Change
  | [], origin, es => change origin es
  | key :: path, origin, es =>
    let inside (o : TableOrigin) (es : Entries) : Option Toml := do
      let (o, es) ← within made passes change path o es
      return table o es
    let entry : Option Toml → Option Toml
      | none => inside made []
      | some (table o es) => if passes o then inside o es else none
      | some (tables (table o es :: rest)) => do return tables ((← inside o es) :: rest)
      | some _ => none
    (alter key entry es).map fun es => (origin, es)

def insertNew (key : String) (v : Toml) : Change := fun origin es =>
  (alter key (fun old => if old.isSome then none else some v) es).map fun es => (origin, es)

def assign (path : List String) (key : String) (v : Toml) : Change :=
  let passes (o : TableOrigin) : Bool := o = .dotted || o = .implied
  if path.isEmpty then insertNew key v
  else
    within .dotted passes
      (fun origin es => if origin = .dotted then insertNew key v origin es else none) path

def along (path : List String) (change : Change) : Change :=
  within .implied (· ≠ .inline) change path

def define (path : List String) (key : String) : Change :=
  along path fun origin es =>
    let opened : Option Toml → Option Toml
      | none => some (table .header [])
      | some (table .implied es) => some (table .header es)
      | some _ => none
    (alter key opened es).map fun es => (origin, es)

def append (path : List String) (key : String) : Change :=
  along path fun origin es =>
    let opened : Option Toml → Option Toml
      | none => some (tables [table .header []])
      | some (tables items) => some (tables (table .header [] :: items))
      | some _ => none
    (alter key opened es).map fun es => (origin, es)

def assignIn (header path : List String) (key : String) (v : Toml) : Change :=
  along header (assign path key v)

end Toml

end DocstringEditor
