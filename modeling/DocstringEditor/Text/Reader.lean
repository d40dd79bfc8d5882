import DocstringEditor.Iterate
import DocstringEditor.Text.Basic

namespace DocstringEditor.Text

abbrev Reader (α : Type) := StateT Text Option α

namespace Reader

def peek? : Reader (Option Char) := do return (← get).head?

def next : Reader Char := do
  match ← get with
  | [] => failure
  | c :: t =>
    set t
    return c

def attempt (s : String) : Reader Bool := do
  let t ← get
  if s.toList.isPrefixOf t then
    set (t.drop s.length)
    return true
  else return false

def attemptAny : List String → Reader Bool
  | [] => return false
  | s :: ss => do if ← attempt s then return true else attemptAny ss

def expect (s : String) : Reader Unit := do
  if !(← attempt s) then failure

def takeWhile (p : Char → Bool) : Reader Text := do
  let t ← get
  set (t.dropWhile p)
  return t.takeWhile p

def loop {σ α : Type} (x : σ) (step : σ → Reader (σ ⊕ α)) : Reader α := fun t =>
  iterate step (t.length + 1) x t

end Reader

end DocstringEditor.Text
