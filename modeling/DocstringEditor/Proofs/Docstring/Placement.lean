import DocstringEditor.Proofs.Analysis.Answer
import DocstringEditor.Proofs.Docstring.Edit

namespace DocstringEditor

open Analysis Syntax
open Text (lastLine)

variable {s : Source} {b : Backend} {d : Node} {n : NamedEntity} {range : DocumentRange}

theorem Analysis.Describes.docstring_row (h : s.Accepted) (hd : Describes s b d n)
    (hrange : n.docstring = some range) : range.start.row ≤ s.text.count '\n' := by
  rw [hd.docstring] at hrange
  obtain ⟨literal, hliteral, -, rfl⟩ := Source.docstringRange?_eq_some hrange
  have hin := Node.inner_trans hd.mem hliteral
  obtain ⟨t, ⟨u, htext⟩, hstart⟩ := (h.tree.sound literal hin).start
  have hfits := h.tree.regular.fits_start (Node.mem_preorder.2 (.inr hin))
  show (Position.ofLocation literal.start).row ≤ _
  rw [ofLocation_row hfits, hstart, Location.after_row, Location.origin, Nat.zero_add, ← htext,
    List.count_append]
  exact Nat.le_add_right _ _

/-- A docstring that is written for a class or function has the start of the document or a line end
before it just if it takes the place of another docstring, the line where the signature ends has a
terminator or the document ends with one. -/
theorem startsLine_iff {parse : Parse} (hparse : parse.Faithful) {r : DocstringRequest}
    {answer : DocstringAnswer} (h : r.run parse = .ok answer) : ∃ e n before removed rest,
      r.query.require parse = .ok (answer.backend, e) ∧ e.named? = some n ∧
      r.query.source = before ++ removed ++ rest ∧
      answer.patched = before ++ answer.edit.text ++ rest ∧
      Docstring.byteOffset r.query.source answer.edit.insertAt = .ok (Text.byteSize before) ∧
      ((before = [] ∨ before.getLast? = some '\n') ↔
        n.docstring.isSome ∨ n.signatureEnd.row < r.query.source.count '\n' ∨
          r.query.source.getLast? = some '\n') := by
  obtain ⟨e, n, before, removed, rest, hrequire, hn, hplanned, hedited⟩ := r.run_eq_ok h
  obtain ⟨s, b, cursor, d, hs, -, -, -, hd⟩ := Query.require_named hparse hrequire hn
  have haccepted := hparse.accepted hs
  have htext : s.text = r.query.source := Source.text_of_parse hs
  have hne : r.query.source ≠ [] := by
    obtain ⟨before', rest', hstands⟩ := haccepted.stands hd.mem hd.isDefinition
    rw [← htext, haccepted.text_eq hstands]
    simp [haccepted.definitionText_ne_nil hstands hd.mem hd.isDefinition]
  refine ⟨e, n, before, removed, rest, hrequire, hn, hedited.parts, hedited.patched, ?_, ?_⟩
  · rw [Docstring.byteOffset_lineStart hplanned.column, hplanned.row, hedited.above]
  · -- The lines above a row end a line just if the document has the row or ends a line itself.
    rw [← Text.lastLine_eq_nil_iff, hedited.above, Text.lastLine_take_splitLines,
      Text.lastLine_eq_nil_iff]
    unfold Docstring.insertionRow
    cases hdocstring : n.docstring with
    | none =>
        simp only [Nat.succ_le_iff, hne, false_or, Option.isSome_none, Bool.false_eq_true]
    | some range =>
        have hrow := hd.docstring_row haccepted hdocstring
        rw [htext] at hrow
        simp [hrow]

theorem startsLine_iff_method : ∃ (r : DocstringRequest) (answer : DocstringAnswer),
    r.query.source = "class A:\r\n\tdef f(self):  # todo\r\n\t\treturn 0".toList ∧
    r.run python = .ok answer ∧ ∃ e n before removed rest,
      r.query.require python = .ok (answer.backend, e) ∧ e.named? = some n ∧
      r.query.source = before ++ removed ++ rest ∧
      answer.patched = before ++ answer.edit.text ++ rest ∧
      Docstring.byteOffset r.query.source answer.edit.insertAt = .ok (Text.byteSize before) ∧
      ((before = [] ∨ before.getLast? = some '\n') ↔
        n.docstring.isSome ∨ n.signatureEnd.row < r.query.source.count '\n' ∨
          r.query.source.getLast? = some '\n') := by
  obtain ⟨answer, h⟩ := exists_eq_ok (x := DocstringRequest.run python
    { query := {
        source := "class A:\r\n\tdef f(self):  # todo\r\n\t\treturn 0".toList, position := ⟨1, 6⟩ }
      docstring := "Doc.".toList }) (by decide +kernel)
  exact ⟨_, answer, rfl, h, startsLine_iff python_faithful h⟩

/-- A docstring may go into the comment that a document without a final line end closes with. -/
theorem glued_reachable :
    (DocstringRequest.run python {
      query := {
        source := "def f():  # todo".toList, position := ⟨0, 1⟩, backend := some "symbols" }
      docstring := "Doc.".toList }).map (fun answer => (answer.edit.text, answer.patched)) =
      .ok ("    \"\"\"Doc.\"\"\"\n".toList,
        "def f():  # todo".toList ++ "    \"\"\"Doc.\"\"\"\n".toList) := by
  decide +kernel

end DocstringEditor
