import DocstringEditor.Json.Basic
import DocstringEditor.Position

namespace DocstringEditor.Json

inductive ShapeError
  | mismatch
  | position (e : PositionError)
  deriving DecidableEq, Repr

abbrev Decoder (α : Type) := Json → Except ShapeError α

namespace Decoder

variable {α : Type}

def bool : Decoder Bool
  | .bool b => .ok b
  | _ => .error .mismatch

def text : Decoder Text
  | .string t => .ok t
  | _ => .error .mismatch

def string : Decoder String := fun v => String.ofList <$> text v

def word : Decoder UInt32
  | .natural n => if n < UInt32.size then .ok (UInt32.ofNat n) else .error .mismatch
  | _ => .error .mismatch

def list (item : Decoder α) : Decoder (List α)
  | .array items => items.mapM item
  | _ => .error .mismatch

def option (decode : Decoder α) : Decoder (Option α)
  | .null => .ok none
  | v => some <$> decode v

def named (ofName? : String → Option α) (isNothing : Json → Bool) : Decoder α := fun v => do
  let name ← match v with
    | .string name => pure (String.ofList name)
    | .object [(name, w)] => if isNothing w then pure name else .error .mismatch
    | _ => .error .mismatch
  match ofName? name with
  | some a => return a
  | none => .error .mismatch

def isNull : Json → Bool
  | .null => true
  | _ => false

def field? (name : String) (decode : Decoder α) (fields : List (String × Json)) :
    Except ShapeError (Option α) :=
  match fields.filter (·.1 = name) with
  | [] => .ok none
  | [(_, v)] => some <$> decode v
  | _ => .error .mismatch

def required : Option α → Except ShapeError α
  | some a => .ok a
  | none => .error .mismatch

def objectFields : Decoder (List (String × Json))
  | .object fields => .ok fields
  | _ => .error .mismatch

def position {c : Convention} : Decoder (Position c)
  | .object fields => do
    let character ← field? "character" word fields
    let line ← field? "line" word fields
    return ⟨← required line, ← required character⟩
  | .array [line, character] => do return ⟨← word line, ← word character⟩
  | _ => .error .mismatch

def protocolPosition : Decoder ProtocolPosition := position

def documentPosition : Decoder DocumentPosition := fun v => do
  (← position v).checkLine.mapError .position

def range {c : Convention} (place : Decoder (Position c)) : Decoder (Range c)
  | .object fields => do
    let stop ← field? "end" place fields
    let start ← field? "start" place fields
    return ⟨← required start, ← required stop⟩
  | .array [start, stop] => do return ⟨← place start, ← place stop⟩
  | _ => .error .mismatch

def protocolRange : Decoder ProtocolRange := range protocolPosition

def documentRange : Decoder DocumentRange := range documentPosition

end Decoder

end DocstringEditor.Json
