import Mathlib.Data.Bool.AllAny
import DocstringEditor.Proofs.Syntax.Place
import DocstringEditor.Syntax.Lexer

namespace DocstringEditor.Syntax

open Text (byteSize)

variable {T t u : Text} {a b : Location} {s s' : Scan} {n : Node} {ps qs : Forest} {x y z : Nat}

def gapChars : List Char :=
  [' ', '\t', '\n', '\x0b', '\x0c', '\r', '\uFEFF', '\u200B', '\u2060', '\\']

/-- The characters that are in no token, the text of string literals apart. -/
def separators : List Char :=
  gapChars ++ ['#', '\x00', '\u0085', '\u00A0', '\u1680', '\u2000', '\u2001', '\u2002', '\u2003',
    '\u2004', '\u2005', '\u2006', '\u2007', '\u2008', '\u2009', '\u200A', '\u2028', '\u2029',
    '\u202F', '\u205F', '\u3000']

theorem mem_of_toNat_mem {c : Char} {cs : List Char} (h : c.toNat ∈ cs.map Char.toNat) :
    c ∈ cs := by
  obtain ⟨d, hd, hcd⟩ := List.mem_map.1 h
  rwa [← Char.toNat_inj.1 hcd]

theorem mem_gapChars_of_isSpace {c : Char} (h : isSpace c) : c ∈ gapChars := by
  simp only [isSpace, Bool.or_eq_true, Bool.and_eq_true, decide_eq_true_eq] at h
  rcases h with (((rfl | ⟨htab, hreturn⟩) | rfl) | rfl) | rfl
  · decide
  · rw [Char.le_def, UInt32.le_iff_toNat_le] at htab hreturn
    have hlow : 9 ≤ c.toNat := htab
    have hhigh : c.toNat ≤ 13 := hreturn
    apply mem_of_toNat_mem
    simp [gapChars]
    omega
  · decide
  · decide
  · decide

theorem mem_separators_of_isBlank {c : Char} (h : Text.isBlank c) : c ∈ separators := by
  apply mem_of_toNat_mem
  simp only [Text.isBlank, Bool.or_eq_true, Bool.and_eq_true, decide_eq_true_eq, beq_iff_eq] at h
  simp [separators, gapChars]
  omega

namespace Scan

def From (T : Text) (a : Location) (t : Text) (s : Scan) : Prop :=
  ∃ before, T = before ++ t ++ s.rest ∧ a = Location.origin.after before ∧
    s.here = Location.origin.after (before ++ t)

namespace From

theorem refl (h : s.In T) : s.From T s.here [] := by
  obtain ⟨before, rfl, hhere⟩ := h
  exact ⟨before, by simp, hhere, by simpa using hhere⟩

theorem skip (h : s.From T a t) (n : Nat) : (s.skip n).From T a (t ++ s.rest.take n) := by
  obtain ⟨before, rfl, ha, hhere⟩ := h
  refine ⟨before, by simp, ha, ?_⟩
  rw [skip_here, hhere, ← Location.after_append, List.append_assoc]

theorem isIn (h : s.From T a t) : s.In T := by
  obtain ⟨before, rfl, -, hhere⟩ := h
  exact ⟨before ++ t, rfl, hhere⟩

theorem place (h : s.From T a t) : Place T a := by
  obtain ⟨before, rfl, ha, -⟩ := h
  exact ⟨before, by simp, ha⟩

theorem byte_eq (h : s.From T a t) : s.here.byte = a.byte + byteSize t := by
  obtain ⟨before, -, rfl, hhere⟩ := h
  rw [hhere, Location.after_append, Location.after_byte]

/-- A scan whose position and remaining text are the same has come the same way. -/
theorem congr (h : s.From T a t) (hrest : s'.rest = s.rest) (hhere : s'.here = s.here) :
    s'.From T a t := by
  obtain ⟨before, hT, ha, h⟩ := h
  exact ⟨before, by rw [hrest, hT], ha, by rw [hhere, h]⟩

end From

end Scan

def Gap (T : Text) (x y : Nat) : Prop :=
  ∃ before gap after, T = before ++ gap ++ after ∧ byteSize before = x ∧
    byteSize (before ++ gap) = y ∧ ∀ c ∈ gap, c ∈ gapChars

namespace Gap

theorem refl (h : Place T a) : Gap T a.byte a.byte := by
  obtain ⟨before, ⟨rest, rfl⟩, rfl⟩ := h
  refine ⟨before, [], rest, by simp, ?_, ?_, by simp⟩
  · simp [Location.after_byte, Location.origin]
  · simp [Location.after_byte, Location.origin]

theorem left (h : Gap T x y) : Gap T x x := by
  obtain ⟨before, gap, after, rfl, rfl, -, -⟩ := h
  exact ⟨before, [], gap ++ after, by simp, rfl, by simp, by simp⟩

theorem right (h : Gap T x y) : Gap T y y := by
  obtain ⟨before, gap, after, rfl, -, rfl, -⟩ := h
  exact ⟨before ++ gap, [], after, by simp, rfl, by simp, by simp⟩

theorem le (h : Gap T x y) : x ≤ y := by
  obtain ⟨before, gap, after, -, rfl, rfl, -⟩ := h
  simp

theorem trans (h : Gap T x y) (h' : Gap T y z) : Gap T x z := by
  obtain ⟨before, gap, after, rfl, rfl, rfl, hgap⟩ := h
  obtain ⟨before', gap', after', hT, hsize, rfl, hgap'⟩ := h'
  rw [List.append_assoc before'] at hT
  obtain ⟨rfl, rfl⟩ := Text.append_inj_of_byteSize hT hsize.symm
  refine ⟨before, gap ++ gap', after', by simp, rfl, by simp, fun c hc => ?_⟩
  exact (List.mem_append.1 hc).elim (hgap c) (hgap' c)

theorem mem {before after : Text} {c : Char} (h : Gap T x y) (hT : T = before ++ c :: after)
    (hx : x ≤ byteSize before) (hy : byteSize before < y) : c ∈ gapChars := by
  obtain ⟨before', gap, after', hT', rfl, rfl, hgap⟩ := h
  obtain ⟨gap₁, gap₂, rfl, -, -⟩ := Text.exists_cut (hT'.symm.trans hT) hx hy
  exact hgap c (by simp)

end Gap

theorem Scan.From.gap (h : s.From T a t) (ht : ∀ c ∈ t, c ∈ gapChars) :
    Gap T a.byte s.here.byte := by
  obtain ⟨before, rfl, rfl, hhere⟩ := h
  refine ⟨before, t, s.rest, rfl, ?_, ?_, ht⟩
  · simp [Location.after_byte, Location.origin]
  · simp [hhere, Location.after_byte, Location.origin]

namespace Forest

/-- Whether only gap characters stand before, between and behind nodes that stand in order between
two byte offsets. -/
def Filled (T : Text) : Nat → Forest → Nat → Prop
  | x, [], y => Gap T x y
  | x, n :: ns, y => Gap T x n.start.byte ∧ Filled T n.stop.byte ns y

namespace Filled

theorem gap_append (h : Filled T y ps z) (hgap : Gap T x y) : Filled T x ps z := by
  cases ps with
  | nil => exact hgap.trans h
  | cons p ps => exact ⟨hgap.trans h.1, h.2⟩

theorem append (h : Filled T x ps y) (h' : Filled T y qs z) : Filled T x (ps ++ qs) z := by
  induction ps generalizing x with
  | nil => exact h'.gap_append h
  | cons p ps ih => exact ⟨h.1, ih h.2⟩

theorem right (h : Filled T x ps y) : Gap T y y := by
  induction ps generalizing x with
  | nil => exact Gap.right h
  | cons p ps ih => exact ih h.2

theorem of_append (h : Filled T x (ps ++ n :: qs) z) :
    Filled T x ps n.start.byte ∧ Filled T n.stop.byte qs z := by
  induction ps generalizing x with
  | nil => exact h
  | cons p ps ih =>
      obtain ⟨hps, hqs⟩ := ih h.2
      exact ⟨⟨h.1, hps⟩, hqs⟩

/-- Nodes also fill the text up to where the last of them stops. -/
theorem last (h : Filled T x (n :: ps) y) :
    Filled T n.start.byte (n :: ps) ((n :: ps).getLast (by simp)).stop.byte ∧
      Gap T ((n :: ps).getLast (by simp)).stop.byte y := by
  induction ps generalizing n x with
  | nil => exact ⟨⟨h.1.right, h.2.left⟩, h.2⟩
  | cons p ps ih =>
      obtain ⟨hfilled, hgap⟩ := ih h.2
      exact ⟨⟨h.1.right, h.2.1, hfilled.2⟩, hgap⟩

theorem withRole (h : Filled T x ps y) (r : Role) : Filled T x (withRole r ps) y := by
  induction ps generalizing x with
  | nil => exact h
  | cons p ps ih =>
      obtain ⟨k, role, s, e, cs⟩ := p
      show Filled T x ((if _ then _ else _) :: _) y
      split
      · exact ⟨h.1, ih h.2⟩
      · exact ⟨h.1, ih h.2⟩

theorem exists_mem {before after : Text} {c : Char} (h : Filled T x ps y)
    (hT : T = before ++ c :: after) (hx : x ≤ byteSize before) (hy : byteSize before < y)
    (hc : c ∉ gapChars) :
    ∃ n ∈ ps, n.start.byte ≤ byteSize before ∧ byteSize before < n.stop.byte := by
  induction ps generalizing x with
  | nil => exact absurd (Gap.mem h hT hx hy) hc
  | cons p ps ih =>
      have hstart : p.start.byte ≤ byteSize before := by
        by_contra hlt
        exact hc (h.1.mem hT hx (by omega))
      by_cases hstop : byteSize before < p.stop.byte
      · exact ⟨p, by simp, hstart, hstop⟩
      · obtain ⟨n, hn, hbounds⟩ := ih h.2 (by omega)
        exact ⟨n, List.mem_cons_of_mem p hn, hbounds⟩

end Filled
end Forest

/-- What the text of a leaf looks like, and which character may come behind it. -/
def Kind.Spells (k : Kind) (t after : Text) : Prop :=
  match k with
  | .comment => t.head? = some '#' ∧ '\n' ∉ t ∧ ∀ c ∈ after.head?, c = '\n' ∨ c = '\x00'
  | .lineContinuation => t.head? = some '\\' ∧ '#' ∉ t
  | .stringContent => t.head? ≠ some '\x00'
  | _ => ∀ c ∈ t, c ∉ separators

def Node.Written (T : Text) (n : Node) : Prop :=
  ∃ before t after, T = before ++ t ++ after ∧ n.start = Location.origin.after before ∧
    n.stop = Location.origin.after (before ++ t) ∧ n.kind.Spells t after

theorem Scan.From.written {k : Kind} (h : s.From T a t) (ht : k.Spells t s.rest) :
    (Node.leaf k a s.here).Written T := by
  obtain ⟨before, hT, ha, hhere⟩ := h
  exact ⟨before, t, s.rest, hT, ha, hhere, ht⟩

theorem Kind.spells_of_solid {k : Kind} (hk : ¬k.isExtra) (ht : ∀ c ∈ t, c ∉ separators)
    (after : Text) : k.Spells t after := by
  unfold Kind.Spells
  split
  · simp [Kind.isExtra] at hk
  · simp [Kind.isExtra] at hk
  · exact fun hnul => ht '\x00' (List.mem_of_mem_head? hnul) (by decide)
  · exact ht

end DocstringEditor.Syntax
