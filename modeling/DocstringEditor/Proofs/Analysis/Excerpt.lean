import DocstringEditor.Proofs.Analysis.Innermost
import DocstringEditor.Proofs.Analysis.Segment
import DocstringEditor.Proofs.Syntax.Leaf

namespace DocstringEditor.Analysis

open Syntax Syntax.Node
open Text (byteSize lastLine firstLine)

variable {s : Source} {d : Node}

namespace Source

def margin (s : Source) (n : Node) : Text :=
  (Text.takeBytes (s.line n.start.row) n.start.column).getD []

def definitionText (s : Source) (n : Node) : Text :=
  (Text.sliceBytes s.text n.start.byte n.logicalEnd.byte).getD []

/-- Whether a source is made of the lines and of a tree of its text. -/
structure Accepted (s : Source) : Prop where
  lines : s.lines = Text.splitLines s.text
  tree : Tree s.text s.root

theorem parse_eq_ok {parse : Parse} {text : Text} (h : Source.parse parse text = .ok s) :
    ∃ root, parse text = .ok root ∧ root.firstError? = none ∧ s = ofTree text root := by
  unfold Source.parse at h
  split at h
  · cases h
  · cases h
  · rename_i root hroot
    split at h
    · cases h
    · rename_i herror
      dsimp only at h
      split at h
      · cases h
      · exact ⟨root, hroot, herror, (Except.ok.inj h).symm⟩

theorem text_of_parse {parse : Parse} {text : Text} (h : Source.parse parse text = .ok s) :
    s.text = text := by
  obtain ⟨root, -, -, rfl⟩ := parse_eq_ok h
  rfl

end Source

/-- Whether each tree of a parser that has no error in it is one of the text. -/
def Parse.Faithful (parse : Parse) : Prop :=
  ∀ text root, parse text = .ok root → root.firstError? = none → Tree text root

theorem python_faithful : Parse.Faithful python := by
  intro text root h herror
  obtain rfl := Except.ok.inj h
  cases hroot : ofText? text with
  | none =>
      rw [hroot] at herror
      cases herror
  | some root => exact ofText?_tree hroot

theorem Parse.Faithful.accepted {parse : Parse} {text : Text} (hparse : parse.Faithful)
    (h : Source.parse parse text = .ok s) : s.Accepted := by
  obtain ⟨root, hroot, herror, rfl⟩ := Source.parse_eq_ok h
  exact ⟨rfl, hparse text root hroot herror⟩

/-- The logical end of a definition is no place inside a line terminator. -/
theorem cut_logicalEnd {T : Text} {root : Node} (h : Tree T root) (hd : d ∈ root.inner)
    (hdef : d.isDefinition) : Cut T d.logicalEnd := by
  obtain ⟨m, hm, hend, hlast, hsub⟩ := logicalEnd_mem.1 d
  rw [hend]
  have hmroot : m ∈ root.inner := by
    rcases mem_preorder.1 hm with rfl | hm
    · exact hd
    · exact inner_trans hd hm
  refine (h.sound m hmroot).cut ?_ ?_ ?_
  · by_contra hne
    obtain ⟨c, hc, hcsub⟩ := (h.sound m hmroot).substantial hne
    simpa [hlast] using lastEnd?_isSome hc hcsub
  · rcases hsub with rfl | hsub
    · exact h.regular.isSubstantial hd hdef
    · exact hsub
  · intro htext
    rcases mem_preorder.1 hm with rfl | hm
    · simp [isDefinition, htext] at hdef
    · have hwidth : m.hasWidth := by
        rcases hsub with rfl | hsub
        · simp [isDefinition, htext] at hdef
        · exact (Bool.and_eq_true_iff.1 hsub).2
      exact h.logicalEnd_ne_of_text hd hdef hm hwidth htext hend

structure Stands (s : Source) (d : Node) (before rest : Text) : Prop where
  lines : s.lines = Text.splitLines (before ++ s.definitionText d ++ rest)
  margin : s.margin d = lastLine before
  start : d.start = Location.origin.after before
  stop : d.logicalEnd = Location.origin.after (before ++ s.definitionText d)
  cut : (before ++ s.definitionText d).getLast? ≠ some '\r'

theorem line_eq {before rest : Text} (h : s.lines = Text.splitLines (before ++ rest)) :
    s.line (Location.origin.after before).row = lastLine before ++ firstLine rest := by
  rw [Source.line, h, Location.after_row, Location.origin, Nat.zero_add, Text.getD_splitLines]

theorem Source.Accepted.stands (h : s.Accepted) (hd : d ∈ s.root.inner) (hdef : d.isDefinition) :
    ∃ before rest, Stands s d before rest := by
  obtain ⟨whole, ⟨rest, htext⟩, hstop, hcut⟩ := cut_logicalEnd h.tree hd hdef
  obtain ⟨before, hbefore, hstart⟩ := (h.tree.sound d hd).start
  have hle : d.start.byte ≤ d.logicalEnd.byte :=
    (logicalEnd_bounds.1 d (h.tree.nested_of_mem hd) (h.tree.sound d hd).within.le).1
  have hbyte (t : Text) : (Location.origin.after t).byte = byteSize t := by
    simp [Location.after_byte, Location.origin]
  obtain ⟨code, rfl⟩ : before <+: whole :=
    Text.prefix_of_byteSize_le hbefore ⟨rest, htext⟩ (by rwa [hstart, hstop, hbyte, hbyte] at hle)
  have hcode : s.definitionText d = code := by
    rw [Source.definitionText, hstart, hstop, hbyte, hbyte, ← htext, Text.sliceBytes_append]
    rfl
  have hlines : s.lines = Text.splitLines (before ++ (code ++ rest)) := by
    rw [h.lines, ← htext, List.append_assoc]
  refine ⟨before, rest, ?_, ?_, hstart, ?_, ?_⟩
  · rw [hcode, hlines, List.append_assoc]
  · rw [Source.margin, hstart, line_eq hlines, Location.origin_after_column, Text.takeBytes_append]
    rfl
  · rw [hcode, hstop]
  · rwa [hcode]

theorem Source.Accepted.text_eq {before rest : Text} (h : s.Accepted)
    (hs : Stands s d before rest) : s.text = before ++ s.definitionText d ++ rest := by
  rw [← Text.flatten_splitLines s.text, ← h.lines, hs.lines, Text.flatten_splitLines]

theorem Source.Accepted.definitionText_ne_nil {before rest : Text} (h : s.Accepted)
    (hs : Stands s d before rest) (hd : d ∈ s.root.inner) (hdef : d.isDefinition) :
    s.definitionText d ≠ [] := by
  intro hnil
  have hlt := start_lt_logicalEnd (h.tree.nested_of_mem hd) (h.tree.regular.wide d hd hdef)
  rw [hs.start, hs.stop, hnil, List.append_nil] at hlt
  exact Nat.lt_irrefl _ hlt

theorem ofLocation_row {l : Location} (h : l.Fits) : (Position.ofLocation l).row = l.row := by
  rw [Position.row, h.line, Nat.add_sub_cancel]

theorem ofLocation_column {l : Location} (h : l.Fits) :
    (Position.ofLocation l).column = l.column := h.character

namespace Stands

variable {before rest : Text}

theorem startLine (h : Stands s d before rest) :
    s.line d.start.row = s.margin d ++ firstLine (s.definitionText d ++ rest) := by
  have hlines := h.lines
  rw [List.append_assoc] at hlines
  rw [h.start, h.margin, line_eq hlines]

theorem startColumn (h : Stands s d before rest) : d.start.column = byteSize (s.margin d) := by
  rw [h.start, h.margin, Location.origin_after_column]

theorem stopLine (h : Stands s d before rest) : s.line d.logicalEnd.row =
    lastLine (before ++ s.definitionText d) ++ firstLine rest := by
  rw [h.stop, line_eq h.lines]

theorem stopColumn (h : Stands s d before rest) :
    d.logicalEnd.column = byteSize (lastLine (before ++ s.definitionText d)) := by
  rw [h.stop, Location.origin_after_column]

theorem stopRow (h : Stands s d before rest) :
    d.logicalEnd.row = d.start.row + (s.definitionText d).count '\n' := by
  rw [h.stop, h.start, Location.after_append, Location.after_row _ (s.definitionText d)]

theorem lines_between (h : Stands s d before rest) :
    ((List.range' d.start.row (d.logicalEnd.row - d.start.row)).map s.line).flatten ++
      lastLine (before ++ s.definitionText d) = s.margin d ++ s.definitionText d := by
  have hlines := Text.flatten_lines before (s.definitionText d) rest
  have hrow : d.start.row = before.count '\n' := by
    rw [h.start, Location.after_row, Location.origin, Nat.zero_add]
  rw [h.stopRow, Nat.add_sub_cancel_left, hrow, h.margin, ← hlines, ← h.lines]
  rfl

end Stands

theorem linesText_eq (h : s.Accepted) (hd : d ∈ s.root.inner) (hdef : d.isDefinition) :
    Symbols.linesText s (Source.rangeOf d) = .ok (s.margin d ++ s.definitionText d) := by
  obtain ⟨before, rest, hs⟩ := h.stands hd hdef
  have hregular := h.tree.regular
  have hroot : d ∈ s.root.preorder := mem_preorder.2 (.inr hd)
  have hcut : (lastLine (before ++ s.definitionText d)).getLast? ≠ some '\r' := by
    intro hlast
    obtain ⟨t, ht⟩ := Text.lastLine_suffix (before ++ s.definitionText d)
    apply hs.cut
    rw [← ht, List.getLast?_append, hlast]
    rfl
  obtain ⟨t, ht⟩ := Text.prefix_stripLineEnding (Text.newline_not_mem_lastLine _) hcut
    (firstLine rest)
  have hlast : Text.takeBytes (s.lineText d.logicalEnd.row) d.logicalEnd.column =
      some (lastLine (before ++ s.definitionText d)) := by
    rw [Source.lineText, hs.stopLine, hs.stopColumn, ← ht, Text.takeBytes_append]
  rw [rangeOf_eq hregular hd, Symbols.linesText]
  simp only [ofLocation_row (hregular.fits_start hroot),
    ofLocation_row (hregular.fits_logicalEnd hroot),
    ofLocation_column (hregular.fits_logicalEnd hroot), hlast, hs.lines_between]

/-- What is cut out of the lines for a definition is the definition, behind blank space as wide as
the margin. -/
theorem segment_eq (h : s.Accepted) (hd : d ∈ s.root.inner) (hdef : d.isDefinition) :
    Structural.segment s (Source.rangeOf d) true =
      .ok (Structural.padding (s.margin d) ++ s.definitionText d) := by
  obtain ⟨before, rest, hs⟩ := h.stands hd hdef
  have hregular := h.tree.regular
  have hroot : d ∈ s.root.preorder := mem_preorder.2 (.inr hd)
  have hbetween := hs.lines_between
  have hordered : d.start.row < d.logicalEnd.row ∨
      d.start.row = d.logicalEnd.row ∧ d.start.column ≤ d.logicalEnd.column := by
    rcases Nat.lt_or_eq_of_le (Nat.le_of_add_right_le (Nat.le_of_eq hs.stopRow.symm)) with
      hlt | hrow
    · exact .inl hlt
    · have hone : lastLine (before ++ s.definitionText d) = s.margin d ++ s.definitionText d := by
        simpa [hrow] using hbetween
      rw [hs.startColumn, hs.stopColumn, hone, Text.byteSize_append]
      exact .inr ⟨hrow, Nat.le_add_right _ _⟩
  rw [rangeOf_eq hregular hd]
  have hstart := hregular.fits_start hroot
  have hstop := hregular.fits_logicalEnd hroot
  rw [← ofLocation_row hstart, ← ofLocation_row hstop, ← ofLocation_column hstart,
    ← ofLocation_column hstop] at hordered
  rw [← ofLocation_row hstart, ← ofLocation_row hstop] at hbetween
  have hcuts : Cuts s ⟨.ofLocation d.start, .ofLocation d.logicalEnd⟩ (s.margin d)
      (lastLine (before ++ s.definitionText d)) := by
    constructor
    · rw [ofLocation_row hstart, ofLocation_column hstart, hs.startLine, hs.startColumn,
        Text.takeBytes_append]
    · rw [ofLocation_row hstop, ofLocation_column hstop, hs.stopLine, hs.stopColumn,
        Text.takeBytes_append]
  obtain ⟨inner, hsegment, hinner⟩ := hcuts.exists_segment hordered
  obtain rfl : s.definitionText d = inner := List.append_cancel_left (hbetween.symm.trans hinner)
  exact hsegment true

end DocstringEditor.Analysis
