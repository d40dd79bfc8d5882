import DocstringEditor.Analysis.Structural
import DocstringEditor.Analysis.Symbols
import DocstringEditor.Proofs.Docstring.Offset
import DocstringEditor.Proofs.Outcome

namespace DocstringEditor

open Docstring (byteOffset byteOffset_eq_ok flatten_take_append_prefix toProtocol_line)
open Text (byteSize splitLines takeBytes dropBytes sliceBytes)

theorem Position.row_lt_or_of_le {p q : DocumentPosition} (h : p ≤ q) (hline : p.line ≠ 0) :
    p.row < q.row ∨ p.row = q.row ∧ p.column ≤ q.column := by
  have hpos : 0 < p.line.toNat := Nat.pos_of_ne_zero fun hzero => hline (UInt32.toNat_inj.1 hzero)
  rcases h with hlt | ⟨heq, hle⟩
  · have hlt : p.line.toNat < q.line.toNat := hlt
    exact .inl (by simp only [Position.row]; omega)
  · exact .inr ⟨by rw [Position.row, Position.row, heq], hle⟩

theorem Text.exists_of_sliceBytes {t u : Text} {i j : Nat} (h : sliceBytes t i j = some u) :
    ∃ before, before ++ u <+: t ∧ byteSize before = i ∧ byteSize (before ++ u) = j := by
  rw [sliceBytes] at h
  split at h
  · rename_i hle
    obtain ⟨rest, hrest, hu⟩ := Option.bind_eq_some_iff.1 h
    obtain ⟨⟨before, rest⟩, hsplit, rfl⟩ := Option.map_eq_some_iff.1 hrest
    obtain ⟨rfl, hsize⟩ := eq_append_of_splitAtByte hsplit
    obtain ⟨hstarts, hinner⟩ := takeBytes_eq_some.1 hu
    refine ⟨before, (List.prefix_append_right_inj before).2 hstarts, hsize, ?_⟩
    rw [byteSize_append]
    omega
  · cases h

namespace Analysis

open Structural (padding)
open Symbols (linesText)

variable {s : Source} {range : DocumentRange} {padded : Bool} {lead last t : Text}

theorem padding_eq_self : padding t = t ↔ ∀ c ∈ t, c = ' ' ∨ c = '\t' ∨ c = '\x0c' := by
  induction t with
  | nil => simp [padding]
  | cons c t ih =>
      have hcons : padding (c :: t) =
          (if c = '\t' ∨ c = '\x0c' then c else ' ') :: padding t := rfl
      rw [hcons, List.cons.injEq, ih, List.forall_mem_cons]
      refine and_congr ?_ Iff.rfl
      split
      · simp_all
      · simp_all [eq_comm]

theorem eq_of_mem_padding {c : Char} {t : Text} (h : c ∈ padding t) :
    c = ' ' ∨ c = '\t' ∨ c = '\x0c' := by
  obtain ⟨d, -, hd⟩ := List.mem_map.1 h
  split at hd
  · rename_i htab
    exact .inr (hd ▸ htab)
  · exact .inl hd.symm

theorem newline_not_mem_padding (t : Text) : '\n' ∉ padding t := by
  intro h
  simpa using eq_of_mem_padding h

theorem byteSize_padding (t : Text) : byteSize (padding t) = t.length := by
  induction t with
  | nil => rfl
  | cons c t ih =>
      have hcons : padding (c :: t) =
          (if c = '\t' ∨ c = '\x0c' then c else ' ') :: padding t := rfl
      rw [hcons, Text.byteSize_cons, ih, List.length_cons]
      split
      · rename_i htab
        rcases htab with rfl | rfl
        · exact Nat.add_comm _ _
        · exact Nat.add_comm _ _
      · exact Nat.add_comm _ _

structure Cuts (s : Source) (range : DocumentRange) (lead last : Text) : Prop where
  start : takeBytes (s.line range.start.row) range.start.column = some lead
  stop : takeBytes (s.line range.stop.row) range.stop.column = some last

/-- What a segment has behind its padding goes on from what stands before the range, up to the end
of the range. -/
theorem Cuts.exists_segment (h : Cuts s range lead last)
    (hordered : range.start.row < range.stop.row ∨
      range.start.row = range.stop.row ∧ range.start.column ≤ range.stop.column) : ∃ inner,
      (∀ padded, Structural.segment s range padded =
        .ok ((if padded then padding lead else []) ++ inner)) ∧
      ((List.range' range.start.row (range.stop.row - range.start.row)).map s.line).flatten ++
        last = lead ++ inner := by
  obtain ⟨⟨rest, hrest⟩, hlead⟩ := Text.takeBytes_eq_some.1 h.start
  obtain ⟨hstarts, hlast⟩ := Text.takeBytes_eq_some.1 h.stop
  rcases hordered with hlt | ⟨hrow, hcolumn⟩
  · have hdrop : dropBytes (s.line range.start.row) range.start.column = some rest := by
      rw [← hrest, ← hlead, Text.dropBytes_append]
    have hrows : range.stop.row - range.start.row =
        range.stop.row - range.start.row - 1 + 1 := by omega
    refine ⟨rest ++ (((List.range' (range.start.row + 1)
      (range.stop.row - range.start.row - 1)).map s.line).flatten ++ last), fun padded => ?_, ?_⟩
    · cases padded <;> simp [Structural.segment, Nat.ne_of_lt hlt, h.start, h.stop, hdrop]
    · rw [hrows, List.range'_succ, List.map_cons, List.flatten_cons, ← hrest]
      simp
  · rw [← hrow] at hstarts
    obtain ⟨inner, rfl⟩ : lead <+: last :=
      Text.prefix_of_byteSize_le ⟨rest, hrest⟩ hstarts (by omega)
    obtain ⟨behind, hbehind⟩ := hstarts
    have hslice : sliceBytes (s.line range.start.row) range.start.column range.stop.column =
        some inner := by
      rw [← hbehind, ← hlead, ← hlast, Text.sliceBytes_append]
    refine ⟨inner, fun padded => ?_, ?_⟩
    · simp only [Structural.segment, if_pos hrow, h.start, hslice]
      cases padded <;> rfl
    · rw [hrow, Nat.sub_self]
      rfl

theorem exists_cuts (h : Structural.segment s range false = .ok t) :
    ∃ lead last, Cuts s range lead last := by
  by_cases hrow : range.start.row = range.stop.row
  · have hslice : sliceBytes (s.line range.stop.row) range.start.column range.stop.column =
        some t := by
      cases hcut : sliceBytes (s.line range.stop.row) range.start.column range.stop.column with
      | none => simp [Structural.segment, hrow, hcut] at h
      | some u => simpa [Structural.segment, hrow, hcut] using h
    obtain ⟨before, hbefore, hstart, hstop⟩ := Text.exists_of_sliceBytes hslice
    refine ⟨before, before ++ t, ⟨?_, Text.takeBytes_eq_some.2 ⟨hbefore, hstop⟩⟩⟩
    rw [hrow]
    exact Text.takeBytes_eq_some.2 ⟨(List.prefix_append before t).trans hbefore, hstart⟩
  · cases hstart : takeBytes (s.line range.start.row) range.start.column with
    | none => simp [Structural.segment, hrow, Text.takeBytes_eq_none.1 hstart] at h
    | some lead =>
        cases hstop : takeBytes (s.line range.stop.row) range.stop.column with
        | none => simp [Structural.segment, hrow, hstop] at h
        | some last => exact ⟨lead, last, hstart, hstop⟩

theorem segment_error {e : Error} (h : Structural.segment s range padded = .error e) :
    e = .internal (.segmentOutOfBounds range) := by
  rw [Structural.segment] at h
  split at h
  · cases h
  · exact (Except.error.inj h).symm

variable {text : Text} {root : Syntax.Node}

theorem Cuts.sliceBytes_eq {inner : Text} (h : Cuts (.ofTree text root) range lead last)
    (hrow : range.start.row ≤ range.stop.row)
    (hinner : ((List.range' range.start.row (range.stop.row - range.start.row)).map
      (Source.ofTree text root).line).flatten ++ last = lead ++ inner) :
    sliceBytes text (byteSize (((splitLines text).take range.start.row).flatten ++ lead))
      (byteSize (((splitLines text).take range.stop.row).flatten ++ last)) = some inner := by
  have hbetween : ((List.range' range.start.row (range.stop.row - range.start.row)).map
      (Source.ofTree text root).line).flatten = _ :=
    Text.flatten_map_getD (splitLines text) range.start.row (range.stop.row - range.start.row)
  have hstop : ((splitLines text).take range.stop.row).flatten ++ last =
      ((splitLines text).take range.start.row).flatten ++ lead ++ inner := by
    rw [List.append_assoc, ← hinner, hbetween, ← List.append_assoc, ← List.flatten_append,
      ← List.take_add, Nat.add_sub_cancel' hrow]
  obtain ⟨behind, hbehind⟩ := flatten_take_append_prefix text range.stop.row
    (Text.takeBytes_eq_some.1 h.stop).1
  rw [hstop] at hbehind ⊢
  have hslice := Text.sliceBytes_append
    (((splitLines text).take range.start.row).flatten ++ lead) inner behind
  rwa [hbehind] at hslice

theorem byteOffset_toProtocol (root : Syntax.Node) {p : DocumentPosition} {n : Nat} :
    byteOffset text p.toProtocol = .ok n ↔ ∃ before,
      takeBytes ((Source.ofTree text root).line p.row) p.column = some before ∧
      byteSize (((splitLines text).take p.row).flatten ++ before) = n := by
  rw [byteOffset_eq_ok, toProtocol_line]
  rfl

theorem Cuts.segment_eq_ok (h : Cuts (.ofTree text root) range lead last)
    (hline : range.start.line ≠ 0) (hle : range.start ≤ range.stop) : ∃ i j inner,
      byteOffset text range.start.toProtocol = .ok i ∧
      byteOffset text range.stop.toProtocol = .ok j ∧ sliceBytes text i j = some inner ∧
      Structural.segment (.ofTree text root) range false = .ok inner := by
  have hordered := Position.row_lt_or_of_le hle hline
  have hrow : range.start.row ≤ range.stop.row := by omega
  obtain ⟨inner, hsegment, hinner⟩ := h.exists_segment hordered
  exact ⟨_, _, inner, (byteOffset_toProtocol root).2 ⟨lead, h.start, rfl⟩,
    (byteOffset_toProtocol root).2 ⟨last, h.stop, rfl⟩, h.sliceBytes_eq hrow hinner, hsegment false⟩

theorem exists_offsets (hline : range.start.line ≠ 0) (hle : range.start ≤ range.stop)
    (h : Structural.segment (.ofTree text root) range false = .ok t) : ∃ i j,
      byteOffset text range.start.toProtocol = .ok i ∧
      byteOffset text range.stop.toProtocol = .ok j ∧ sliceBytes text i j = some t := by
  obtain ⟨lead, last, hcuts⟩ := exists_cuts h
  obtain ⟨i, j, inner, hstart, hstop, hslice, hsegment⟩ := hcuts.segment_eq_ok hline hle
  obtain rfl := Except.ok.inj (h.symm.trans hsegment)
  exact ⟨i, j, hstart, hstop, hslice⟩

theorem exists_segment_of_offsets (root : Syntax.Node) {i j : Nat} (hline : range.start.line ≠ 0)
    (hle : range.start ≤ range.stop) (hstart : byteOffset text range.start.toProtocol = .ok i)
    (hstop : byteOffset text range.stop.toProtocol = .ok j) : ∃ inner,
      sliceBytes text i j = some inner ∧
        Structural.segment (.ofTree text root) range false = .ok inner := by
  obtain ⟨lead, hlead, -⟩ := (byteOffset_toProtocol root).1 hstart
  obtain ⟨last, hlast, -⟩ := (byteOffset_toProtocol root).1 hstop
  obtain ⟨i', j', inner, hstart', hstop', hslice, hsegment⟩ :=
    Cuts.segment_eq_ok ⟨hlead, hlast⟩ hline hle
  obtain rfl := Except.ok.inj (hstart.symm.trans hstart')
  obtain rfl := Except.ok.inj (hstop.symm.trans hstop')
  exact ⟨inner, hslice, hsegment⟩

/-- A range of lines can be cut out just if both of its ends are positions of the text, and is then
what the text has between their byte offsets. -/
theorem segment_eq_ok_iff (hline : range.start.line ≠ 0) (hle : range.start ≤ range.stop) :
    (∀ t, Structural.segment (.ofTree text root) range false = .ok t ↔
      ∃ i j, byteOffset text range.start.toProtocol = .ok i ∧
        byteOffset text range.stop.toProtocol = .ok j ∧ sliceBytes text i j = some t) ∧
    ((Structural.segment (.ofTree text root) range false).isOk ↔
      (byteOffset text range.start.toProtocol).isOk ∧
        (byteOffset text range.stop.toProtocol).isOk) ∧
    ∀ e, Structural.segment (.ofTree text root) range false = .error e →
      e = .internal (.segmentOutOfBounds range) := by
  refine ⟨fun t => ⟨exists_offsets hline hle, ?_⟩, ⟨fun h => ?_, ?_⟩, fun e => segment_error⟩
  · rintro ⟨i, j, hstart, hstop, hslice⟩
    obtain ⟨inner, hinner, h⟩ := exists_segment_of_offsets root hline hle hstart hstop
    rw [h, Option.some.inj (hslice.symm.trans hinner)]
  · obtain ⟨t, ht⟩ := exists_eq_ok h
    obtain ⟨i, j, hstart, hstop, -⟩ := exists_offsets hline hle ht
    rw [hstart, hstop]
    exact ⟨rfl, rfl⟩
  · rintro ⟨hstart, hstop⟩
    obtain ⟨i, hi⟩ := exists_eq_ok hstart
    obtain ⟨j, hj⟩ := exists_eq_ok hstop
    obtain ⟨inner, -, h⟩ := exists_segment_of_offsets root hline hle hi hj
    rw [h]
    rfl

/-- The start may be inside a terminator and the end past the last line, but neither of them inside
a character. -/
theorem segment_eq_ok_iff_terminator : ∃ root, Syntax.Node.ofText? "é\r\nb".toList = some root ∧
    (1 : UInt32) ≠ 0 ∧ (⟨1, 3⟩ : DocumentPosition) ≤ ⟨7, 0⟩ ∧
    (⟨1, 1⟩ : DocumentPosition) ≤ ⟨7, 0⟩ ∧
    Structural.segment (.ofTree "é\r\nb".toList root) ⟨⟨1, 3⟩, ⟨7, 0⟩⟩ false = .ok "\nb".toList ∧
    ¬(Structural.segment (.ofTree "é\r\nb".toList root) ⟨⟨1, 1⟩, ⟨7, 0⟩⟩ false).isOk := by
  obtain ⟨root, hroot⟩ := Option.isSome_iff_exists.1
    (show (Syntax.Node.ofText? "é\r\nb".toList).isSome by decide +kernel)
  have hline : (1 : UInt32) ≠ 0 := by decide
  have hle : (⟨1, 3⟩ : DocumentPosition) ≤ ⟨7, 0⟩ := by decide
  have hle' : (⟨1, 1⟩ : DocumentPosition) ≤ ⟨7, 0⟩ := by decide
  refine ⟨root, hroot, hline, hle, hle', ?_, fun h => ?_⟩
  · exact ((segment_eq_ok_iff hline hle).1 _).2 ⟨3, 5, by decide, by decide, by decide⟩
  · have hstart := ((segment_eq_ok_iff hline hle').2.1.1 h).1
    revert hstart
    decide

/-- Both texts of a range that starts in a line and ends in front of a terminator are there. They
are the same just if padding keeps what stands before the range. -/
theorem segment_eq_linesText_iff (hline : range.start.line ≠ 0) (hle : range.start ≤ range.stop)
    (hlead : lead <+: s.line range.start.row) (hstart : byteSize lead = range.start.column)
    (hlast : last <+: s.lineText range.stop.row) (hstop : byteSize last = range.stop.column) :
    ∃ padded whole, Structural.segment s range true = .ok padded ∧ linesText s range = .ok whole ∧
      (padded = whole ↔ ∀ c ∈ lead, c = ' ' ∨ c = '\t' ∨ c = '\x0c') := by
  have hline_last : last <+: s.line range.stop.row := hlast.trans (Text.stripLineEnding_prefix _)
  have hcuts : Cuts s range lead last :=
    ⟨Text.takeBytes_eq_some.2 ⟨hlead, hstart⟩, Text.takeBytes_eq_some.2 ⟨hline_last, hstop⟩⟩
  obtain ⟨inner, hsegment, hinner⟩ := hcuts.exists_segment (Position.row_lt_or_of_le hle hline)
  refine ⟨padding lead ++ inner, lead ++ inner, hsegment true, ?_, ?_⟩
  · rw [linesText, Text.takeBytes_eq_some.2 ⟨hlast, hstop⟩, ← hinner]
  · rw [List.append_left_inj, padding_eq_self]

theorem segment_eq_linesText_iff_method : ∃ root s,
    Syntax.Node.ofText? "class A:\n\tdef f(self):\r\n\t\tpass\r\n".toList = some root ∧
    s = Source.ofTree "class A:\n\tdef f(self):\r\n\t\tpass\r\n".toList root ∧
    (2 : UInt32) ≠ 0 ∧ (⟨2, 1⟩ : DocumentPosition) ≤ ⟨3, 6⟩ ∧
    "\t".toList <+: s.line 1 ∧ byteSize "\t".toList = 1 ∧
    "\t\tpass".toList <+: s.lineText 2 ∧ byteSize "\t\tpass".toList = 6 ∧
    ∃ padded whole, Structural.segment s ⟨⟨2, 1⟩, ⟨3, 6⟩⟩ true = .ok padded ∧
      linesText s ⟨⟨2, 1⟩, ⟨3, 6⟩⟩ = .ok whole ∧
      (padded = whole ↔ ∀ c ∈ "\t".toList, c = ' ' ∨ c = '\t' ∨ c = '\x0c') := by
  obtain ⟨root, hroot⟩ := Option.isSome_iff_exists.1 (show (Syntax.Node.ofText?
    "class A:\n\tdef f(self):\r\n\t\tpass\r\n".toList).isSome by decide +kernel)
  have hline : (2 : UInt32) ≠ 0 := by decide
  have hle : (⟨2, 1⟩ : DocumentPosition) ≤ ⟨3, 6⟩ := by decide
  have hlead : "\t".toList <+: (Source.ofTree
    "class A:\n\tdef f(self):\r\n\t\tpass\r\n".toList root).line 1 :=
    ⟨"def f(self):\r\n".toList, rfl⟩
  have hlast : "\t\tpass".toList <+: (Source.ofTree
    "class A:\n\tdef f(self):\r\n\t\tpass\r\n".toList root).lineText 2 := ⟨[], rfl⟩
  exact ⟨root, _, hroot, rfl, hline, hle, hlead, rfl, hlast, rfl,
    segment_eq_linesText_iff hline hle hlead rfl hlast rfl⟩

end Analysis

end DocstringEditor
