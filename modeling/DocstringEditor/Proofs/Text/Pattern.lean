import DocstringEditor.Text.Basic

namespace DocstringEditor

/-- How far a match has come in a text. -/
structure Progress where
  read : Text
  rest : Text
  group : Option Text

inductive Pattern
  | one (kind : Char → Bool)
  | start
  | stop
  | seq (p q : Pattern)
  | or (p q : Pattern)
  | many (greedy : Bool) (p : Pattern)
  | group (p : Pattern)

namespace Pattern

def rounds (greedy : Bool) (step : Progress → List Progress) : Nat → Progress → List Progress
  | 0, s => [s]
  | n + 1, s =>
    let more := ((step s).filter (·.rest.length < s.rest.length)).flatMap (rounds greedy step n)
    if greedy then more ++ [s] else s :: more

def keep (since : Text) (s : Progress) : Progress :=
  { s with group := some (s.read.take (s.read.length - since.length)).reverse }

/-- The ways to match from a place on, those that are preferred first. -/
def ends : Pattern → Progress → List Progress
  | one kind, s =>
    match s.rest with
    | [] => []
    | c :: rest => if kind c then [⟨c :: s.read, rest, s.group⟩] else []
  | start, s => if s.read = [] then [s] else []
  | stop, s => if s.rest = [] then [s] else []
  | seq p q, s => (p.ends s).flatMap q.ends
  | or p q, s => p.ends s ++ q.ends s
  | many greedy p, s => rounds greedy p.ends s.rest.length s
  | group p, s => (p.ends s).map (keep s.read)

def first? (p : Pattern) (s : Progress) : Option Progress := (p.ends s).head?

def plus (greedy : Bool) (p : Pattern) : Pattern := seq p (many greedy p)

def find? (p : Pattern) : Text → Text → Option Progress
  | read, [] => p.first? ⟨read, [], none⟩
  | read, c :: rest => (p.first? ⟨read, c :: rest, none⟩).or (p.find? (c :: read) rest)

def capture? (p : Pattern) (t : Text) : Option Text := (p.find? [] t).bind (·.group)

def eraseFrom (p : Pattern) (read rest : Text) : Text :=
  match p.first? ⟨read, rest, none⟩ with
  | some s =>
    if s.rest.length < rest.length then p.eraseFrom s.read s.rest
    else
      match rest with
      | [] => []
      | c :: rest => c :: p.eraseFrom (c :: read) rest
  | none =>
    match rest with
    | [] => []
    | c :: rest => c :: p.eraseFrom (c :: read) rest
termination_by rest.length

def erase (p : Pattern) (t : Text) : Text := p.eraseFrom [] t

variable {p q : Pattern} {s : Progress} {kind : Char → Bool} {c : Char} {read t : Text}
  {g : Option Text}

theorem first?_eq_none : p.first? s = none ↔ p.ends s = [] := List.head?_eq_none_iff

theorem first?_seq : (seq p q).first? s = (p.ends s).findSome? q.first? :=
  List.head?_flatMap

theorem first?_or : (or p q).first? s = (p.first? s).or (q.first? s) :=
  List.head?_append

theorem first?_seq_of_isSome (h : ∀ s, (q.first? s).isSome) :
    (seq p q).first? s = (p.first? s).bind q.first? := by
  rw [first?_seq, first?]
  cases p.ends s with
  | nil => rfl
  | cons s' l =>
      obtain ⟨s'', hs''⟩ := Option.isSome_iff_exists.1 (h s')
      rw [List.findSome?_cons, hs'', List.head?_cons, Option.bind_some, hs'']

theorem first?_many_isSome (greedy : Bool) (p : Pattern) (s : Progress) :
    ((many greedy p).first? s).isSome := by
  rw [first?, ends]
  cases s.rest.length <;> cases greedy <;> simp [rounds]

theorem first?_plus (greedy : Bool) :
    (plus greedy p).first? s = (p.first? s).bind (many greedy p).first? :=
  first?_seq_of_isSome (first?_many_isSome greedy p)

theorem ends_one_cons (h : kind c) : (one kind).ends ⟨read, c :: t, g⟩ = [⟨c :: read, t, g⟩] :=
  if_pos h

theorem ends_one_cons_of_not (h : ¬kind c) : (one kind).ends ⟨read, c :: t, g⟩ = [] := if_neg h

theorem ends_many (greedy : Bool) (p : Pattern) (s : Progress) :
    (many greedy p).ends s = rounds greedy p.ends s.rest.length s := rfl

theorem ends_many_of_nil {greedy : Bool} (h : p.ends s = []) : (many greedy p).ends s = [s] := by
  rw [ends_many]
  cases s.rest.length <;> cases greedy <;> simp [rounds, h]

theorem first?_many_of_none {greedy : Bool} (h : p.first? s = none) :
    (many greedy p).first? s = some s := by
  rw [first?, ends_many_of_nil (first?_eq_none.1 h), List.head?_cons]

theorem ends_many_of_singleton {greedy : Bool} {s' : Progress} (h : p.ends s = [s'])
    (hlength : s.rest.length = s'.rest.length + 1) : (many greedy p).ends s =
      if greedy then (many greedy p).ends s' ++ [s] else s :: (many greedy p).ends s' := by
  have hkept : (p.ends s).filter (·.rest.length < s.rest.length) = [s'] := by
    rw [h, List.filter_cons_of_pos (by simp [hlength]), List.filter_nil]
  rw [ends_many, hlength, rounds, hkept, List.flatMap_singleton, ends_many]

theorem ends_greedy_cons (h : kind c) : (many true (one kind)).ends ⟨read, c :: t, g⟩ =
    (many true (one kind)).ends ⟨c :: read, t, g⟩ ++ [⟨read, c :: t, g⟩] :=
  ends_many_of_singleton (ends_one_cons h) rfl

theorem ends_lazy_cons (h : kind c) : (many false (one kind)).ends ⟨read, c :: t, g⟩ =
    ⟨read, c :: t, g⟩ :: (many false (one kind)).ends ⟨c :: read, t, g⟩ :=
  ends_many_of_singleton (ends_one_cons h) rfl

theorem ends_one_of_forall (h : ∀ c, t.head? = some c → ¬kind c) :
    (one kind).ends ⟨read, t, g⟩ = [] := by
  cases t with
  | nil => rfl
  | cons c t => exact ends_one_cons_of_not (h c rfl)

/-- A greedy run asks what comes behind it of its last place first. -/
theorem first?_greedy_cons (h : kind c) :
    (seq (many true (one kind)) q).first? ⟨read, c :: t, g⟩ =
      ((seq (many true (one kind)) q).first? ⟨c :: read, t, g⟩).or
        (q.first? ⟨read, c :: t, g⟩) := by
  rw [first?_seq, first?_seq, ends_greedy_cons h, List.findSome?_append, List.findSome?_singleton]

theorem first?_greedy_of_forall (h : ∀ c, t.head? = some c → ¬kind c) :
    (seq (many true (one kind)) q).first? ⟨read, t, g⟩ = q.first? ⟨read, t, g⟩ := by
  rw [first?_seq, ends_many_of_nil (ends_one_of_forall h), List.findSome?_singleton]

end Pattern
end DocstringEditor
