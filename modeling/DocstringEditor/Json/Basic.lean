import DocstringEditor.Text.Basic

namespace DocstringEditor

inductive Json
  | null
  | bool (b : Bool)
  | natural (n : Nat)
  | otherNumber (literal : Text)
  | string (t : Text)
  | array (items : List Json)
  /-- Fields in the order they are written, with repetitions. -/
  | object (fields : List (String × Json))

namespace Json

instance : Inhabited Json := ⟨null⟩

def ofString (s : String) : Json := string s.toList

def ofOption {α : Type} (encode : α → Json) : Option α → Json
  | none => null
  | some a => encode a

def escape (c : Char) : Text :=
  match c with
  | '"' => ['\\', '"']
  | '\\' => ['\\', '\\']
  | '\x08' => ['\\', 'b']
  | '\x0c' => ['\\', 'f']
  | '\n' => ['\\', 'n']
  | '\r' => ['\\', 'r']
  | '\t' => ['\\', 't']
  | c =>
    if c.toNat < 0x20 then
      ['\\', 'u', '0', '0', (c.toNat / 16).digitChar, (c.toNat % 16).digitChar]
    else [c]

def quoted (t : Text) : Text := '"' :: (t.flatMap escape ++ ['"'])

mutual
def text : Json → Text
  | null => "null".toList
  | bool true => "true".toList
  | bool false => "false".toList
  | natural n => Nat.toDigits 10 n
  | otherNumber literal => literal
  | string t => quoted t
  | array items => '[' :: (itemsText items ++ [']'])
  | object fields => '{' :: (fieldsText fields ++ ['}'])

def itemsText : List Json → Text
  | [] => []
  | [v] => text v
  | v :: w :: vs => text v ++ ',' :: itemsText (w :: vs)

def fieldsText : List (String × Json) → Text
  | [] => []
  | [(name, v)] => quoted name.toList ++ ':' :: text v
  | (name, v) :: f :: fs => quoted name.toList ++ ':' :: (text v ++ ',' :: fieldsText (f :: fs))
end

/-- Puts a field in its place among fields in the order of names, unless one of its name is there
already. -/
def insertField (name : String) (v : Json) : List (String × Json) → List (String × Json)
  | [] => [(name, v)]
  | (n, w) :: rest =>
    if name < n then (name, v) :: (n, w) :: rest
    else if name = n then (n, w) :: rest
    else (n, w) :: insertField name v rest

mutual
def sorted : Json → Json
  | array items => array (sortedItems items)
  | object fields => object (sortedFields fields)
  | v => v

def sortedItems : List Json → List Json
  | [] => []
  | v :: vs => sorted v :: sortedItems vs

def sortedFields : List (String × Json) → List (String × Json)
  | [] => []
  | (name, v) :: fs => insertField name (sorted v) (sortedFields fs)
end

def field? (name : String) : Json → Option Json
  | object fields => fields.lookup name
  | _ => none

end Json

end DocstringEditor
