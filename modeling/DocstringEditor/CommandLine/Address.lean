import DocstringEditor.Text.Digits
import DocstringEditor.Text.Reader

namespace DocstringEditor.CommandLine.Address

open Text (Reader)
open Text.Reader

def number (radix : Nat) (maxDigits : Option Nat) (limit : Nat) (zeroFirst : Bool) :
    Reader Unit := do
  let ds ← takeWhile fun c => (Text.hexValue? c).any (· < radix)
  let n := ds.foldl (fun n c => radix * n + (Text.hexValue? c).getD 0) 0
  if ds.isEmpty || maxDigits.any (· < ds.length) || limit ≤ n ||
      (!zeroFirst && ds.head? = some '0' && 1 < ds.length) then
    failure

def decimalByte : Reader Unit := number 10 (some 3) 256 false

def ipv4 : Reader Unit := do
  decimalByte
  expect "."
  decimalByte
  expect "."
  decimalByte
  expect "."
  decimalByte

/-- Takes groups of hexadecimal digits with colons between them, so many at most, and says how many
there are. An IPv4 address may stand for the last two. -/
def groups (isFirst : Bool) : Nat → Reader (Nat × Bool)
  | 0 => return (0, false)
  | n + 1 => do
    let separator : Reader Unit := if isFirst then pure () else expect ":"
    let embedded : Reader (Nat × Bool) := do
      if n = 0 then failure
      separator
      ipv4
      return (2, true)
    let group : Reader (Nat × Bool) := do
      separator
      number 16 (some 4) 0x10000 true
      let (count, mixed) ← groups false n
      return (count + 1, mixed)
    embedded <|> group <|> return (0, false)

def ipv6 : Reader Unit := do
  let (count, mixed) ← groups true 8
  if count = 8 then return ()
  if mixed then failure
  expect "::"
  let _ ← groups true (7 - count)

def numberSuffix : Reader Unit := do
  expect ":"
  number 10 none 0x10000 true

def listenAddress : Reader Unit := do
  if ← attempt "[" then
    ipv6
    if ← attempt "%" then number 10 none 0x100000000 true
    expect "]"
  else ipv4
  numberSuffix

def isValid (s : String) : Bool := (listenAddress s.toList).any (·.2.isEmpty)

end DocstringEditor.CommandLine.Address
