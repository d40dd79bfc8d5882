import DocstringEditor.Docstring.Edit
import DocstringEditor.Proofs.Text.Lines

namespace DocstringEditor

open Text (byteSize splitLines takeBytes dropBytes)

variable {t u : Text} {n : Nat}

namespace Text

theorem takeBytes_eq_some : takeBytes t n = some u ↔ u <+: t ∧ byteSize u = n := by
  constructor
  · intro h
    obtain ⟨⟨before, rest⟩, hsplit, rfl⟩ := Option.map_eq_some_iff.1 h
    obtain ⟨rfl, hsize⟩ := eq_append_of_splitAtByte hsplit
    exact ⟨List.prefix_append before rest, hsize⟩
  · rintro ⟨⟨rest, rfl⟩, rfl⟩
    exact takeBytes_append u rest

theorem takeBytes_eq_none : takeBytes t n = none ↔ dropBytes t n = none := by
  rw [takeBytes, dropBytes, Option.map_eq_none_iff, Option.map_eq_none_iff]

theorem flatten_take_succ (lines : List Text) (row : Nat) :
    (lines.take (row + 1)).flatten = (lines.take row).flatten ++ lines.getD row [] := by
  rw [List.take_add_one, List.flatten_append, List.getD_eq_getElem?_getD]
  cases lines[row]? <;> simp

end Text

namespace Docstring

variable {source before : Text} {p q : ProtocolPosition} {lines : List Text}
  {row column m : Nat}

theorem offsetIn_eq (lines : List Text) (row column : Nat) : offsetIn lines row column =
    (takeBytes (lines.getD row []) column).map fun before =>
      byteSize ((lines.take row).flatten ++ before) := by
  induction lines generalizing row with
  | nil => cases column <;> simp [offsetIn, takeBytes, Text.splitAtByte]
  | cons line lines ih =>
      cases row with
      | zero =>
          apply Option.map_congr
          intro before hbefore
          exact (Text.takeBytes_eq_some.1 hbefore).2.symm
      | succ row =>
          rw [offsetIn, ih, Option.map_map]
          simp [Function.comp_def]

theorem byteOffset_eq_ok : byteOffset source p = .ok n ↔
    ∃ before, takeBytes ((splitLines source).getD p.line.toNat []) p.column = some before ∧
      byteSize (((splitLines source).take p.line.toNat).flatten ++ before) = n := by
  rw [byteOffset, offsetIn_eq]
  cases takeBytes ((splitLines source).getD p.line.toNat []) p.column <;> simp

theorem flatten_take_append_prefix (source : Text) (row : Nat)
    (h : u <+: (splitLines source).getD row []) :
    ((splitLines source).take row).flatten ++ u <+: source := by
  have hrow := Text.take_splitLines_prefix source (row + 1)
  rw [Text.flatten_take_succ] at hrow
  exact ((List.prefix_append_right_inj _).2 h).trans hrow

theorem exists_of_byteOffset (h : byteOffset source p = .ok n) :
    ∃ before, before <+: source ∧ byteSize before = n := by
  obtain ⟨before, hbefore, rfl⟩ := byteOffset_eq_ok.1 h
  exact ⟨_, flatten_take_append_prefix source _ (Text.takeBytes_eq_some.1 hbefore).1, rfl⟩

theorem byteOffset_lineStart (hcolumn : p.column = 0) :
    byteOffset source p = .ok (byteSize ((splitLines source).take p.line.toNat).flatten) := by
  refine byteOffset_eq_ok.2 ⟨[], ?_, by rw [List.append_nil]⟩
  exact Text.takeBytes_eq_some.2 ⟨List.nil_prefix, hcolumn.symm⟩

/-- A first part of a document ends on the row of its last line, as far as that line goes. -/
theorem byteOffset_of_prefix (h : before <+: source) (hline : p.line.toNat = before.count '\n')
    (hcolumn : p.column = byteSize (Text.lastLine before)) :
    byteOffset source p = .ok (byteSize before) := by
  obtain ⟨rest, rfl⟩ := h
  refine byteOffset_eq_ok.2 ⟨Text.lastLine before, ?_, ?_⟩
  · rw [hline, hcolumn, Text.getD_splitLines, Text.takeBytes_append]
  · rw [hline, Text.flatten_take_splitLines]

theorem byteOffset_bounds (h : byteOffset source p = .ok n) :
    n = byteSize ((splitLines source).take p.line.toNat).flatten + p.column ∧
      n ≤ byteSize ((splitLines source).take (p.line.toNat + 1)).flatten := by
  obtain ⟨before, hbefore, rfl⟩ := byteOffset_eq_ok.1 h
  obtain ⟨hstarts, hsize⟩ := Text.takeBytes_eq_some.1 hbefore
  have hle := Text.byteSize_le_of_infix hstarts.isInfix
  rw [Text.flatten_take_succ, Text.byteSize_append, Text.byteSize_append, hsize]
  exact ⟨rfl, by omega⟩

theorem byteOffset_le (hpq : p ≤ q) (hp : byteOffset source p = .ok m)
    (hq : byteOffset source q = .ok n) : m ≤ n := by
  obtain ⟨hm, hmle⟩ := byteOffset_bounds hp
  obtain ⟨hn, -⟩ := byteOffset_bounds hq
  rcases hpq with hline | ⟨hline, hcolumn⟩
  · have hlt : p.line.toNat + 1 ≤ q.line.toNat := UInt32.lt_iff_toNat_lt.1 hline
    have habove := Text.byteSize_flatten_take_le (splitLines source) hlt
    omega
  · have hcolumn : p.column ≤ q.column := UInt32.le_iff_toNat_le.1 hcolumn
    rw [hm, hn, hline]
    exact Nat.add_le_add_left hcolumn _

theorem toProtocol_line (p : DocumentPosition) : p.toProtocol.line.toNat = p.row := by
  have := p.line.toNat_lt
  rw [Position.toProtocol, UInt32.toNat_ofNat']
  exact Nat.mod_eq_of_lt (by omega)

theorem toProtocol_line_succ (p : DocumentPosition) :
    (p.toProtocol.line + 1).toNat = p.row + 1 := by
  have hlt := p.line.toNat_lt
  have hrow : p.row = p.line.toNat - 1 := rfl
  rw [UInt32.toNat_add, toProtocol_line]
  exact Nat.mod_eq_of_lt (by simp; omega)

/-- Every place between two characters of a document has the offset of its row and column. All
offsets are such places, and they come in the order of the positions that they are of. -/
theorem byteOffset_inverse (source : Text) :
    (∀ before, before <+: source → ∀ p : ProtocolPosition,
      p.line.toNat = before.count '\n' → p.column = byteSize (Text.lastLine before) →
      byteOffset source p = .ok (byteSize before)) ∧
    (∀ (p : ProtocolPosition) (n : Nat), byteOffset source p = .ok n →
      n ≤ byteSize source ∧ ∃ before, before <+: source ∧ byteSize before = n) ∧
    ∀ (p q : ProtocolPosition) (m n : Nat), p ≤ q → byteOffset source p = .ok m →
      byteOffset source q = .ok n → m ≤ n := by
  refine ⟨fun before h p hline hcolumn => byteOffset_of_prefix h hline hcolumn,
    fun p n h => ?_, fun p q m n => byteOffset_le⟩
  obtain ⟨before, hbefore, rfl⟩ := exists_of_byteOffset h
  exact ⟨Text.byteSize_le_of_infix hbefore.isInfix, before, hbefore, rfl⟩

/-- Behind a character of two bytes, between a carriage return and its line feed, and on a row far
below the last line. -/
theorem byteOffset_inverse_crlf : ∃ source, source = "é\r\nb".toList ∧
    ("é\r".toList <+: source ∧ byteOffset source ⟨0, 3⟩ = .ok 3) ∧
    ((⟨0, 3⟩ : ProtocolPosition) ≤ ⟨7, 0⟩ ∧ byteOffset source ⟨7, 0⟩ = .ok 5 ∧
      5 ≤ byteSize source ∧ (∃ before, before <+: source ∧ byteSize before = 5) ∧ 3 ≤ 5) := by
  obtain ⟨hplace, hoffset, hordered⟩ := byteOffset_inverse "é\r\nb".toList
  have hstarts : "é\r".toList <+: "é\r\nb".toList := by decide
  have hfirst := hplace _ hstarts ⟨0, 3⟩ (by decide) (by decide)
  have hlast : byteOffset "é\r\nb".toList ⟨7, 0⟩ = .ok 5 := by decide
  have hle : (⟨0, 3⟩ : ProtocolPosition) ≤ ⟨7, 0⟩ := by decide
  obtain ⟨hsize, hcut⟩ := hoffset _ _ hlast
  exact ⟨_, rfl, ⟨hstarts, hfirst⟩, hle, hlast, hsize, hcut, hordered _ _ _ _ hle hfirst hlast⟩

end Docstring

end DocstringEditor
