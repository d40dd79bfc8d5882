namespace DocstringEditor

abbrev Text := List Char

namespace Text

def byteSize : Text → Nat
  | [] => 0
  | c :: t => c.utf8Size + byteSize t

@[simp] theorem byteSize_nil : byteSize [] = 0 := rfl

@[simp] theorem byteSize_cons (c : Char) (t : Text) :
    byteSize (c :: t) = c.utf8Size + byteSize t := rfl

@[simp] theorem byteSize_append (s t : Text) : byteSize (s ++ t) = byteSize s + byteSize t := by
  induction s with
  | nil => simp
  | cons c s ih => simp [ih, Nat.add_assoc]

def splitAtByte : Text → Nat → Option (Text × Text)
  | t, 0 => some ([], t)
  | [], _ + 1 => none
  | c :: t, n + 1 =>
    if c.utf8Size ≤ n + 1 then
      (splitAtByte t (n + 1 - c.utf8Size)).map fun (before, rest) => (c :: before, rest)
    else none

def takeBytes (t : Text) (n : Nat) : Option Text := (splitAtByte t n).map (·.1)

def dropBytes (t : Text) (n : Nat) : Option Text := (splitAtByte t n).map (·.2)

def sliceBytes (t : Text) (start stop : Nat) : Option Text :=
  if start ≤ stop then (dropBytes t start).bind (takeBytes · (stop - start)) else none

theorem splitAtByte_byteSize (s t : Text) : splitAtByte (s ++ t) (byteSize s) = some (s, t) := by
  induction s with
  | nil => cases t <;> rfl
  | cons c s ih =>
    obtain ⟨n, hn⟩ := Nat.exists_eq_succ_of_ne_zero (Nat.ne_of_gt c.utf8Size_pos)
    simp only [byteSize_cons, List.cons_append]
    rw [show c.utf8Size + byteSize s = n + byteSize s + 1 by omega]
    simp only [splitAtByte]
    rw [if_pos (by omega), show n + byteSize s + 1 - c.utf8Size = byteSize s by omega, ih]
    rfl

theorem eq_append_of_splitAtByte {t before rest : Text} {n : Nat}
    (h : splitAtByte t n = some (before, rest)) : t = before ++ rest ∧ byteSize before = n := by
  fun_induction splitAtByte t n generalizing before rest with
  | case1 t => simp_all
  | case2 => simp at h
  | case3 c t n hc ih =>
    obtain ⟨⟨b, r⟩, hb, he⟩ := Option.map_eq_some_iff.1 h
    obtain ⟨rfl, rfl⟩ := Prod.mk.inj he
    have hi := ih hb
    exact ⟨by simp [hi.1], by rw [byteSize_cons, hi.2]; omega⟩
  | case4 => simp at h

def isBlank (c : Char) : Bool :=
  (0x09 ≤ c.toNat && c.toNat ≤ 0x0D) || c.toNat == 0x20 || c.toNat == 0x85 || c.toNat == 0xA0 ||
  c.toNat == 0x1680 || (0x2000 ≤ c.toNat && c.toNat ≤ 0x200A) || c.toNat == 0x2028 ||
  c.toNat == 0x2029 || c.toNat == 0x202F || c.toNat == 0x205F || c.toNat == 0x3000

def isBlankLine (t : Text) : Bool := t.all isBlank

def trimStart (t : Text) : Text := t.dropWhile isBlank

def trimEnd (t : Text) : Text := (t.reverse.dropWhile isBlank).reverse

def trim (t : Text) : Text := trimEnd (trimStart t)

def splitOn (separator : Char) : Text → List Text
  | [] => [[]]
  | c :: t =>
    if c = separator then [] :: splitOn separator t
    else match splitOn separator t with
      | [] => [[c]]
      | part :: parts => (c :: part) :: parts

/-- Replaces the occurrences of `old`, found from left to right without overlap. An empty `old`
occurs before every character and at the end. -/
def replaceAll (old new t : Text) : Text :=
  if old.isEmpty then new ++ t.flatMap (· :: new) else go 0 t
where
  /-- The first argument counts the characters that still belong to the last match. -/
  go : Nat → Text → Text
    | _, [] => []
    | n + 1, _ :: t => go n t
    | 0, c :: t => if old.isPrefixOf (c :: t) then new ++ go (old.length - 1) t else c :: go 0 t

end Text

end DocstringEditor
