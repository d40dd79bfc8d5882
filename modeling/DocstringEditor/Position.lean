namespace DocstringEditor

inductive Convention
  /-- From 0, as editors and requests do. -/
  | protocol
  /-- From 1, as the analyzers and entities do. -/
  | document
  /-- From 0 at the first line of one entity. -/
  | entity

structure Position (c : Convention) where
  line : UInt32
  character : UInt32
  deriving DecidableEq, Repr

abbrev ProtocolPosition := Position .protocol
abbrev DocumentPosition := Position .document
abbrev LocalPosition := Position .entity

namespace Position

variable {c : Convention}

instance : LE (Position c) where
  le a b := a.line < b.line ∨ (a.line = b.line ∧ a.character ≤ b.character)

instance : LT (Position c) where
  lt a b := a.line < b.line ∨ (a.line = b.line ∧ a.character < b.character)

instance : DecidableLE (Position c) := fun a b =>
  inferInstanceAs (Decidable (a.line < b.line ∨ (a.line = b.line ∧ a.character ≤ b.character)))

instance : DecidableLT (Position c) := fun a b =>
  inferInstanceAs (Decidable (a.line < b.line ∨ (a.line = b.line ∧ a.character < b.character)))

def compare (a b : Position c) : Ordering := if a < b then .lt else if a = b then .eq else .gt

def text (p : Position c) : String := s!"{p.line}:{p.character}"

end Position

inductive PositionError
  | lineOutOfRange (line : UInt32)
  | zeroLine
  deriving DecidableEq, Repr

namespace PositionError

def message : PositionError → String
  | lineOutOfRange line => s!"line {line} is out of range"
  | zeroLine => "document lines start at 1"

end PositionError

namespace Position

def toDocument (p : ProtocolPosition) : Except PositionError DocumentPosition :=
  if p.line.toNat + 1 < UInt32.size then .ok ⟨p.line + 1, p.character⟩
  else .error (.lineOutOfRange p.line)

/-- Line 0, which no document position read from outside has, stays 0. -/
def toProtocol (p : DocumentPosition) : ProtocolPosition :=
  ⟨UInt32.ofNat (p.line.toNat - 1), p.character⟩

def checkLine (p : DocumentPosition) : Except PositionError DocumentPosition :=
  if p.line = 0 then .error .zeroLine else .ok p

def row (p : DocumentPosition) : Nat := p.line.toNat - 1

def column {c : Convention} (p : Position c) : Nat := p.character.toNat

def relativeTo (first : UInt32) (p : DocumentPosition) : LocalPosition :=
  ⟨UInt32.ofNat (p.line.toNat - first.toNat), p.character⟩

end Position

structure Range (c : Convention) where
  start : Position c
  stop : Position c
  deriving DecidableEq, Repr

abbrev ProtocolRange := Range .protocol
abbrev DocumentRange := Range .document

structure ReversedRange (c : Convention) where
  start : Position c
  stop : Position c
  deriving DecidableEq, Repr

def ReversedRange.message {c : Convention} (e : ReversedRange c) : String :=
  s!"range end {e.stop.text} precedes start {e.start.text}"

namespace Range

variable {c : Convention}

def ofEnds (start stop : Position c) : Except (ReversedRange c) (Range c) :=
  if stop < start then .error ⟨start, stop⟩ else .ok ⟨start, stop⟩

def empty (p : Position c) : Range c := ⟨p, p⟩

def contains (r : Range c) (p : Position c) : Bool := r.start ≤ p && p ≤ r.stop

def toDocument (r : ProtocolRange) : Except PositionError DocumentRange := do
  return ⟨← r.start.toDocument, ← r.stop.toDocument⟩

def toProtocol (r : DocumentRange) : ProtocolRange := ⟨r.start.toProtocol, r.stop.toProtocol⟩

def text (r : Range c) : String := s!"{r.start.text}-{r.stop.text}"

end Range

end DocstringEditor
