import DocstringEditor.Text.Digits
import DocstringEditor.Text.Reader
import DocstringEditor.Toml.Basic

namespace DocstringEditor.Toml

open Text (Reader)
open Text.Reader

def digits (isDigit : Char → Bool) : Reader Text := do
  let first ← next
  if !isDigit first then failure
  loop [first] fun ds => do
    if ← attempt "_" then
      let d ← next
      if isDigit d then return .inl (d :: ds) else failure
    else
      match ← peek? with
      | some d =>
        if isDigit d then
          let _ ← next
          return .inl (d :: ds)
        else return .inr ds.reverse
      | none => return .inr ds.reverse

def sign : Reader Bool := do
  if ← attempt "-" then return true
  else
    let _ ← attempt "+"
    return false

def decimal : Reader Text := do
  if ← attempt "0" then return ['0'] else digits Char.isDigit

def integerLimit : Nat := 0x8000000000000000

def radixInteger (radix : Nat) : Reader Toml := do
  let isDigit (c : Char) : Bool := (Text.hexValue? c).any (· < radix)
  let ds ← digits isDigit
  let n := ds.foldl (fun n c => radix * n + (Text.hexValue? c).getD 0) 0
  if n < integerLimit then return number else failure

def exponent? : Reader (Option Int) := do
  let c ← peek?
  if c = some 'e' ∨ c = some 'E' then
    let _ ← next
    let negative ← sign
    let n := Text.digitsValue (← digits Char.isDigit)
    return some (if negative then -n else n)
  else return none

def decimalNumber : Reader Toml := do
  let negative ← sign
  if ← attemptAny ["inf", "nan"] then return number
  let whole ← decimal
  let fraction ← if ← attempt "." then some <$> digits Char.isDigit else pure none
  let exponent ← exponent?
  if fraction.isNone && exponent.isNone then
    let n := Text.digitsValue whole
    if n < integerLimit ∨ (negative ∧ n = integerLimit) then return number else failure
  else
    let places := (fraction.getD []).length
    if negative || Text.isFinite (whole ++ fraction.getD []) (exponent.getD 0 - places) then
      return number
    else failure

def field (count low high : Nat) : Reader Nat := do
  let t ← get
  let ds := t.take count
  if ds.length < count ∨ !ds.all Char.isDigit then failure
  set (t.drop count)
  let n := Text.digitsValue ds
  if low ≤ n ∧ n ≤ high then return n else failure

def timeRest : Reader Unit := do
  expect ":"
  let _ ← field 2 0 59
  expect ":"
  let _ ← field 2 0 60
  if ← attempt "." then
    if (← takeWhile Char.isDigit).isEmpty then failure

def offset : Reader Unit := do
  if ← attemptAny ["Z", "z"] then return ()
  else if ← attemptAny ["+", "-"] then
    let _ ← field 2 0 23
    expect ":"
    let _ ← field 2 0 59

def comes (count : Nat) (mark : Char) : Reader Bool := do
  let t ← get
  return (t.take count).length = count && (t.take count).all Char.isDigit &&
    (t.drop count).head? = some mark

def daysIn (year month : Nat) : Nat :=
  if month = 2 then if year % 4 = 0 ∧ (year % 100 ≠ 0 ∨ year % 400 = 0) then 29 else 28
  else if month ∈ [4, 6, 9, 11] then 30
  else 31

def dateAndTime : Reader Toml := do
  let year ← field 4 0 9999
  expect "-"
  let month ← field 2 1 12
  expect "-"
  let _ ← field 2 1 (daysIn year month)
  match ← get with
  | c :: t =>
    if c ∈ ['T', 't', ' '] then
      set t
      if ← comes 2 ':' then
        let _ ← field 2 0 23
        timeRest
        offset
      else set (c :: t)
    return date
  | [] => return date

def numberOrDate : Reader Toml := do
  if ← comes 4 '-' then dateAndTime
  else if ← comes 2 ':' then
    let _ ← field 2 0 23
    timeRest
    return date
  else if ← attempt "0x" then radixInteger 16
  else if ← attempt "0o" then radixInteger 8
  else if ← attempt "0b" then radixInteger 2
  else decimalNumber

end DocstringEditor.Toml
