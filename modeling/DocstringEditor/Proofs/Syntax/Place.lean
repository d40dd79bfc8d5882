import DocstringEditor.Proofs.Syntax.Span
import DocstringEditor.Proofs.Text.Lines
import DocstringEditor.Syntax.Layout

namespace DocstringEditor.Syntax

open Text (byteSize)

variable {T t u : Text} {a b l : Location} {s : Scan} {n m : Nat}

namespace Location

def after (l : Location) (t : Text) : Location := t.foldl advance l

@[simp] theorem after_nil (l : Location) : l.after [] = l := rfl

@[simp] theorem after_cons (l : Location) (c : Char) (t : Text) :
    l.after (c :: t) = (l.advance c).after t := rfl

theorem after_append (l : Location) (t u : Text) : l.after (t ++ u) = (l.after t).after u :=
  List.foldl_append

theorem advance_byte (l : Location) (c : Char) : (l.advance c).byte = l.byte + c.utf8Size := by
  unfold advance
  split
  · subst_vars
    rfl
  · rfl

theorem after_byte (l : Location) (t : Text) : (l.after t).byte = l.byte + byteSize t := by
  induction t generalizing l with
  | nil => rfl
  | cons c t ih =>
      rw [after_cons, ih, advance_byte, Text.byteSize_cons]
      omega

theorem le_trans (hab : a ≤ b) (hbl : b ≤ l) : a ≤ l := by
  simp only [le_def] at *
  omega

theorem le_advance (l : Location) (c : Char) : l ≤ l.advance c ∧ ¬l.advance c ≤ l := by
  have := c.utf8Size_pos
  unfold advance
  constructor <;> split <;> rw [le_def] <;> dsimp only <;> omega

theorem le_after (l : Location) (t : Text) : l ≤ l.after t := by
  induction t generalizing l with
  | nil => exact .inr ⟨rfl, Nat.le_refl _⟩
  | cons c t ih => exact le_trans (le_advance l c).1 (ih _)

theorem not_after_le (l : Location) (ht : t ≠ []) : ¬l.after t ≤ l := by
  cases t with
  | nil => exact absurd rfl ht
  | cons c t => exact fun h => (le_advance l c).2 (le_trans (le_after _ t) h)

theorem row_lt_after (l : Location) (ht : '\n' ∈ t) : l.row < (l.after t).row := by
  obtain ⟨t, u, rfl⟩ := List.append_of_mem ht
  rw [after_append, after_cons]
  have h₁ := le_after l t
  have h₂ := le_after ((l.after t).advance '\n') u
  have hrow : ((l.after t).advance '\n').row = (l.after t).row + 1 := rfl
  rw [le_def] at h₁ h₂
  omega

theorem after_row (l : Location) (t : Text) : (l.after t).row = l.row + t.count '\n' := by
  induction t generalizing l with
  | nil => rfl
  | cons c t ih =>
      rw [after_cons, ih, List.count_cons, advance]
      split
      · simp only [beq_iff_eq, *, ↓reduceIte]
        omega
      · simp [*]

theorem after_column (l : Location) (t : Text) :
    (l.after t).column =
      if '\n' ∈ t then byteSize (Text.lastLine t) else l.column + byteSize t := by
  induction t generalizing l with
  | nil => rfl
  | cons c t ih =>
      rw [after_cons, ih, advance]
      by_cases ht : '\n' ∈ t
      · rw [if_pos ht, if_pos (List.mem_cons_of_mem c ht), Text.lastLine_cons_of_mem ht]
      · by_cases hc : c = '\n'
        · subst hc
          simp [ht, Text.lastLine_of_not_mem ht]
        · simp [ht, hc, Ne.symm hc, Nat.add_assoc]

theorem origin_after_byte (t : Text) : (origin.after t).byte = byteSize t := by
  simp [after_byte, origin]

theorem origin_after_row (t : Text) : (origin.after t).row = t.count '\n' := by
  simp [after_row, origin]

/-- The column of a place is the size of the text before it on its line. -/
theorem origin_after_column (t : Text) :
    (origin.after t).column = byteSize (Text.lastLine t) := by
  rw [after_column]
  split
  · rfl
  · rename_i h
    simp [Text.lastLine_of_not_mem h, origin]

theorem after_bounds (t : Text) :
    (origin.after t).row ≤ byteSize t ∧ (origin.after t).column ≤ byteSize t := by
  suffices h : ∀ l : Location, l.row ≤ l.byte → l.column ≤ l.byte →
      (l.after t).row ≤ (l.after t).byte ∧ (l.after t).column ≤ (l.after t).byte by
    simpa [after_byte, origin] using h origin (Nat.le_refl _) (Nat.le_refl _)
  induction t with
  | nil => exact fun l hrow hcolumn => ⟨hrow, hcolumn⟩
  | cons c t ih =>
      intro l hrow hcolumn
      refine ih _ ?_ ?_ <;> unfold advance <;> split <;> simp <;> omega

end Location

def Place (T : Text) (l : Location) : Prop :=
  ∃ before, before <+: T ∧ l = Location.origin.after before

namespace Place

theorem le_iff (ha : Place T a) (hb : Place T b) : a.byte ≤ b.byte ↔ a ≤ b := by
  obtain ⟨before, hbefore, rfl⟩ := ha
  obtain ⟨before', hbefore', rfl⟩ := hb
  rcases List.prefix_or_prefix_of_prefix hbefore hbefore' with ⟨t, rfl⟩ | ⟨t, rfl⟩
  · rw [Location.after_append]
    refine iff_of_true ?_ (Location.le_after _ t)
    rw [Location.after_byte _ t]
    omega
  · rw [Location.after_append]
    cases t with
    | nil => exact iff_of_true (Nat.le_refl _) (Location.le_after _ [])
    | cons c t =>
        have := c.utf8Size_pos
        refine iff_of_false ?_ (Location.not_after_le _ (List.cons_ne_nil c t))
        rw [Location.after_byte _ (c :: t), Text.byteSize_cons]
        omega

theorem row_le (ha : Place T a) (hb : Place T b) (h : a.byte ≤ b.byte) : a.row ≤ b.row := by
  have := (ha.le_iff hb).1 h
  rw [Location.le_def] at this
  omega

theorem row_lt (hl : Place T l) (hu : u <+: T) (hline : Text.lastLine u = [])
    (hlt : l.byte < byteSize u) : l.row < u.count '\n' := by
  obtain ⟨before, hbefore, rfl⟩ := hl
  rw [Location.origin_after_byte] at hlt
  rw [Location.origin_after_row]
  obtain ⟨t, rfl⟩ := Text.prefix_of_byteSize_le hbefore hu (Nat.le_of_lt hlt)
  have hne : t ≠ [] := by
    rintro rfl
    simp at hlt
  have hlast := (Text.lastLine_eq_nil_iff.1 hline).resolve_left (by simp [hne])
  have hmem : '\n' ∈ t := by
    rw [List.getLast?_append_of_ne_nil before hne] at hlast
    exact List.mem_of_getLast? hlast
  rw [List.count_append]
  have := List.count_pos_iff.2 hmem
  omega

theorem byte_le (h : Place T l) : l.byte ≤ byteSize T := by
  obtain ⟨before, ⟨rest, rfl⟩, rfl⟩ := h
  simp [Location.after_byte, Location.origin]

theorem bounds (h : Place T l) : l.row ≤ l.byte ∧ l.column ≤ l.byte := by
  obtain ⟨before, -, rfl⟩ := h
  simpa [Location.after_byte, Location.origin] using Location.after_bounds before

end Place

namespace Scan

def In (T : Text) (s : Scan) : Prop :=
  ∃ before, T = before ++ s.rest ∧ s.here = Location.origin.after before

theorem skip_eq (n : Nat) (s : Scan) :
    s.skip n = { s with rest := s.rest.drop n, here := s.here.after (s.rest.take n) } := by
  induction n generalizing s with
  | zero => rfl
  | succ n ih =>
      rw [skip]
      split
      case h_1 h =>
        obtain ⟨rest, here, blocks, inFormat⟩ := s
        obtain rfl : rest = [] := h
        rfl
      case h_2 c t h => simp [h, ih]

@[simp] theorem skip_rest (n : Nat) (s : Scan) : (s.skip n).rest = s.rest.drop n := by
  rw [skip_eq]

@[simp] theorem skip_here (n : Nat) (s : Scan) :
    (s.skip n).here = s.here.after (s.rest.take n) := by
  rw [skip_eq]

theorem skip_add (n m : Nat) (s : Scan) : s.skip (n + m) = (s.skip n).skip m := by
  simp [skip_eq, List.take_add, Location.after_append]

theorem row_le_skip (s : Scan) (n : Nat) : s.here.row ≤ (s.skip n).here.row := by
  have hle := Location.le_after s.here (s.rest.take n)
  rw [Location.le_def, ← skip_here] at hle
  omega

theorem byte_le_skip (s : Scan) (n : Nat) : s.here.byte ≤ (s.skip n).here.byte := by
  rw [skip_here, Location.after_byte]
  omega

namespace In

theorem place (h : s.In T) : Place T s.here := by
  obtain ⟨before, rfl, hhere⟩ := h
  exact ⟨before, ⟨s.rest, rfl⟩, hhere⟩

theorem skip (h : s.In T) (n : Nat) : (s.skip n).In T := by
  obtain ⟨before, rfl, hhere⟩ := h
  refine ⟨before ++ s.rest.take n, ?_, ?_⟩
  · simp
  · rw [skip_here, hhere, Location.after_append]

theorem ofText (T : Text) : (Scan.ofText T).In T := by
  unfold Scan.ofText
  split
  · exact ⟨['\uFEFF'], rfl, rfl⟩
  · exact ⟨[], rfl, rfl⟩

end In
end Scan
end DocstringEditor.Syntax
