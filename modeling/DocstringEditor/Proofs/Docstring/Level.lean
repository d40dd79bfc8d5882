import DocstringEditor.Proofs.Docstring.Apply
import DocstringEditor.Proofs.Wire.Entity

namespace DocstringEditor

variable {document generated : Text} {e : Entity} {n : NamedEntity} {onNewLine : Bool}

namespace Docstring

def textAt (document generated : Text) (level : Nat) (onNewLine : Bool) : Text :=
  LineEnding.adapt document
    (indent (level * indentWidth) (quotes ++ content (ofGenerated generated) onNewLine ++ quotes) ++
      ['\n'])

/-- Whether an edit goes to the rows that a docstring of an entity belongs on: the one below the
header, or those of the old docstring. Rows are counted from 0, the lines of an entity from 1. -/
def OnOwnRows (n : NamedEntity) (edit : DocstringEdit) : Prop :=
  match n.docstring with
  | none => edit.removal = none ∧ edit.insertAt = lineStart n.signatureEnd.line
  | some range => edit.removal = some ⟨edit.insertAt, lineStart range.stop.line⟩ ∧
      edit.insertAt.line.toNat + 1 = range.start.line.toNat ∧ edit.insertAt.column = 0

/-- The line after a document line exists among the protocol lines. It has the same number. -/
theorem toProtocol_line_add_one {p : DocumentPosition} (h : p.line ≠ 0) :
    p.toProtocol.line.toNat + 1 = p.line.toNat := by
  have hpos : p.line.toNat ≠ 0 := fun hzero => h (UInt32.toNat_inj.1 hzero)
  rw [toProtocol_line, Position.row]
  omega

theorem lines_of_named (hn : e.named? = some n) (hlines : ∀ p ∈ e.positions, p.line ≠ 0) :
    n.signatureEnd.line ≠ 0 ∧
      ∀ range, n.docstring = some range → range.start.line ≠ 0 ∧ range.stop.line ≠ 0 := by
  cases e with
  | module m => cases hn
  | classDef n' | functionDef n' =>
      obtain rfl := Option.some.inj hn
      refine ⟨hlines _ (by simp [Entity.positions]), fun range hrange => ⟨?_, ?_⟩⟩
      · exact hlines _ (by simp [Entity.positions, hrange])
      · exact hlines _ (by simp [Entity.positions, hrange])

namespace Planned

variable {edit : DocstringEdit}

theorem onOwnRows (h : Planned document generated onNewLine n edit)
    (hheader : n.signatureEnd.line ≠ 0)
    (hdocstring : ∀ range, n.docstring = some range → range.start.line ≠ 0 ∧ range.stop.line ≠ 0) :
    OnOwnRows n edit := by
  have hline {p : ProtocolPosition} {q : DocumentPosition} (hq : q.line ≠ 0)
      (hrow : p.line.toNat = q.row + 1) (hcolumn : p.column = 0) : p = lineStart q.line := by
    obtain ⟨line, character⟩ := p
    rw [← toProtocol_line, toProtocol_line_add_one hq] at hrow
    obtain rfl : line = q.line := UInt32.toNat_inj.1 hrow
    obtain rfl : character = 0 := UInt32.toNat_inj.1 hcolumn
    rfl
  unfold OnOwnRows
  cases hrange : n.docstring with
  | none =>
      have hrow : edit.insertAt.line.toNat = n.signatureEnd.row + 1 := by
        rw [h.row, insertionRow, hrange]
      exact ⟨h.added hrange, hline hheader hrow h.column⟩
  | some range =>
      obtain ⟨hstart, hstop⟩ := hdocstring range hrange
      obtain ⟨gone, hgone, hplace, hend, hcolumn⟩ := h.replaced range hrange
      have hrow : edit.insertAt.line.toNat = range.start.row := by
        rw [h.row, insertionRow, hrange]
      refine ⟨?_, by rw [hrow, ← toProtocol_line, toProtocol_line_add_one hstart], h.column⟩
      rw [hgone, ← hplace, ← hline hstop hend hcolumn]

theorem text_eq_textAt (h : Planned document generated onNewLine n edit) :
    edit.text = textAt document generated (n.indentLevel.toNat + 1) onNewLine := by
  have hlevel : (n.indentLevel + 1).toNat = n.indentLevel.toNat + 1 := by
    rw [UInt32.toNat_add, UInt32.toNat_one]
    exact Nat.mod_eq_of_lt h.level
  rw [h.text, ← adapt_literal, literal, textAt, hlevel]

end Planned

theorem plan_eq_panic_iff : plan e generated onNewLine document = .error .panic ↔
    ∃ n, e.named? = some n ∧ hasInlineBody n = false ∧ n.indentLevel.toNat + 1 = UInt32.size := by
  unfold plan
  split
  · simp [*]
  · next n hn =>
      simp only [hn, Option.some.injEq, exists_eq_left']
      cases hasInlineBody n <;> cases n.docstring <;> simp

/-- No row of an edit for an entity that has been received is out of range. There is an edit just if
there is a level below the entity's, and then it goes to the rows that it is meant for, with the
text of that level; an entity at the last level ends the program. -/
theorem plan_level_iff {v : Json} (h : Json.Decoder.entity v = .ok e) (hn : e.named? = some n)
    (generated : Text) (onNewLine : Bool) (document : Text) :
    (n.signatureEnd.toProtocol.line.toNat + 1 < UInt32.size ∧
      ∀ range, n.docstring = some range → range.stop.toProtocol.line.toNat + 1 < UInt32.size) ∧
    (hasInlineBody n = true →
      plan e generated onNewLine document = .error (.error (.inlineBody n.name))) ∧
    (hasInlineBody n = false →
      (n.indentLevel.toNat + 1 < UInt32.size ↔
        ∃ edit, plan e generated onNewLine document = .ok edit ∧ OnOwnRows n edit ∧
          edit.text = textAt document generated (n.indentLevel.toNat + 1) onNewLine) ∧
      (n.indentLevel.toNat + 1 = UInt32.size ↔
        plan e generated onNewLine document = .error .panic)) := by
  have hlines := (Json.Decoder.lines_of_entity h).1
  obtain ⟨hheader, hdocstring⟩ := lines_of_named hn hlines
  refine ⟨⟨?_, fun range hrange => ?_⟩, fun hinline => ?_, fun hopen => ?_⟩
  · rw [toProtocol_line_add_one hheader]
    exact n.signatureEnd.line.toNat_lt
  · rw [toProtocol_line_add_one (hdocstring range hrange).2]
    exact range.stop.line.toNat_lt
  · simp only [plan, hn, hinline, if_true]
  have hlevel : n.indentLevel.toNat + 1 ≤ UInt32.size := n.indentLevel.toNat_lt
  rcases Nat.lt_or_eq_of_le hlevel with hlt | hlast
  · obtain ⟨edit, hplan⟩ := exists_plan hn hopen hlt generated onNewLine document
    obtain ⟨n', hn', hplanned⟩ := plan_eq_ok hplan
    obtain rfl : n = n' := Option.some.inj (hn.symm.trans hn')
    refine ⟨iff_of_true hlt ⟨edit, hplan, hplanned.onOwnRows hheader hdocstring,
      hplanned.text_eq_textAt⟩, iff_of_false (Nat.ne_of_lt hlt) ?_⟩
    simp [hplan]
  · have hpanic : plan e generated onNewLine document = .error .panic :=
      plan_eq_panic_iff.2 ⟨n, hn, hopen, hlast⟩
    refine ⟨iff_of_false (by omega) ?_, iff_of_true hlast hpanic⟩
    rintro ⟨edit, hplan, -⟩
    rw [hpanic] at hplan
    cases hplan

theorem plan_level_iff_function : ∃ e n,
    Json.Decoder.entity (.array [.ofString "function", .ofString "f",
      .ofString "def f():\n    'Old.'", .array [.array [.natural 3, .natural 0],
        .array [.natural 4, .natural 10]], .array [.natural 3, .natural 8],
      .array [.array [.natural 4, .natural 4], .array [.natural 4, .natural 10]],
      .natural 0]) = .ok e ∧
    e.named? = some n ∧
    (n.signatureEnd.toProtocol.line.toNat + 1 < UInt32.size ∧
      ∀ range, n.docstring = some range → range.stop.toProtocol.line.toNat + 1 < UInt32.size) ∧
    hasInlineBody n = false ∧ n.indentLevel.toNat + 1 < UInt32.size ∧
    ∃ edit, plan e "New.".toList true "\n\ndef f():\n    'Old.'\n".toList = .ok edit ∧
      OnOwnRows n edit ∧
      edit.text = textAt "\n\ndef f():\n    'Old.'\n".toList "New.".toList
        (n.indentLevel.toNat + 1) true := by
  have hentity : Json.Decoder.entity (.array [.ofString "function", .ofString "f",
      .ofString "def f():\n    'Old.'", .array [.array [.natural 3, .natural 0],
        .array [.natural 4, .natural 10]], .array [.natural 3, .natural 8],
      .array [.array [.natural 4, .natural 4], .array [.natural 4, .natural 10]], .natural 0]) =
      .ok (.functionDef ⟨"f", "def f():\n    'Old.'".toList, ⟨⟨3, 0⟩, ⟨4, 10⟩⟩, ⟨3, 8⟩,
        some ⟨⟨4, 4⟩, ⟨4, 10⟩⟩, 0, []⟩) := by decide +kernel
  obtain ⟨hrows, -, hplan⟩ := plan_level_iff hentity rfl "New.".toList true
    "\n\ndef f():\n    'Old.'\n".toList
  exact ⟨_, _, hentity, rfl, hrows, by decide +kernel, by decide,
    (hplan (by decide +kernel)).1.1 (by decide)⟩

/-- An entity at the last level has no level below it. -/
theorem plan_level_reachable : ∃ n,
    Json.Decoder.entity (.array [.ofString "function", .ofString "f",
      .ofString "def f():\n    pass", .array [.array [.natural 1, .natural 0],
        .array [.natural 2, .natural 8]], .array [.natural 1, .natural 8], .null,
      .natural 4294967295]) = .ok (.functionDef n) ∧
    n.indentLevel.toNat = 4294967295 ∧
    plan (.functionDef n) "Doc.".toList false "def f():\n    pass\n".toList = .error .panic :=
  ⟨⟨"f", "def f():\n    pass".toList, ⟨⟨1, 0⟩, ⟨2, 8⟩⟩, ⟨1, 8⟩, none, 4294967295, []⟩,
    by decide +kernel, rfl, by decide +kernel⟩

end Docstring

theorem Position.le_of_not_lt {c : Convention} {p q : Position c} (h : ¬q < p) : p ≤ q := by
  change ¬(q.line < p.line ∨ q.line = p.line ∧ q.character < p.character) at h
  change p.line < q.line ∨ p.line = q.line ∧ p.character ≤ q.character
  simp only [UInt32.lt_iff_toNat_lt, UInt32.le_iff_toNat_le, ← UInt32.toNat_inj] at h ⊢
  omega

theorem Range.start_le_ofLocations (start stop : Syntax.Location) :
    (Range.ofLocations start stop).start ≤ (Range.ofLocations start stop).stop := by
  dsimp only [Range.ofLocations]
  split
  · exact .inr ⟨rfl, UInt32.le_refl _⟩
  · exact Position.le_of_not_lt ‹_›

namespace Analysis

variable {s : Source} {b : Backend} {d : Syntax.Node}

theorem Source.length_lead (b : Backend) (d : Syntax.Node) :
    (s.lead b d).length = (s.margin d).length := by
  cases b with
  | structural => exact List.length_map _
  | symbols => rfl

/-- No line of a source is long enough for the last level. -/
theorem Describes.level_lt (h : s.Accepted) (hd : Describes s b d n) :
    n.indentLevel.toNat + 1 < UInt32.size := by
  obtain ⟨before, rest, hs⟩ := h.stands hd.mem hd.isDefinition
  have hfits := (h.tree.regular.fits_logicalEnd (Syntax.Node.mem_preorder.2 (.inr hd.mem))).1
  have hcode : n.code.length ≤ d.logicalEnd.byte := by
    have hmargin := (Text.lastLine_suffix before).length_le
    have hbytes := Text.length_le_byteSize (before ++ s.definitionText d)
    rw [hs.stop, Syntax.Location.origin_after_byte, hd.code, List.length_append,
      Source.length_lead, hs.margin]
    rw [List.length_append] at hbytes
    omega
  have hline := (Text.firstLine_prefix n.code).length_le
  have hblanks := (List.takeWhile_prefix (l := Text.firstLine n.code)
    fun c => Text.isBlank c && c ≠ '\n' && c ≠ '\r').length_le
  rw [hd.level, indentLevelOf, UInt32.toNat_ofNat', ← Text.firstLine, indentWidth]
  simp only [UInt32.size] at hfits ⊢
  omega

theorem Describes.docstring_ordered (hd : Describes s b d n) {range : DocumentRange}
    (hrange : n.docstring = some range) : range.start ≤ range.stop := by
  rw [hd.docstring] at hrange
  obtain ⟨literal, -, -, rfl⟩ := Source.docstringRange?_eq_some hrange
  exact Range.start_le_ofLocations literal.start literal.stop

end Analysis

/-- Writing a docstring in an accepted source may fail, but does not end the program. -/
theorem DocstringRequest.run_ne_panic {parse : Analysis.Parse} (hparse : parse.Faithful)
    (r : DocstringRequest) : r.run parse ≠ .error .panic := by
  intro h
  rcases bind_eq_error.1 h with hrequire | ⟨⟨backend, e⟩, hrequire, hrest⟩
  · obtain ⟨error, -, herror⟩ := mapError_eq_error.1 hrequire
    cases herror
  have hnamed {n : NamedEntity} (hn : e.named? = some n) : n.indentLevel.toNat + 1 < UInt32.size ∧
      ∀ range, n.docstring = some range → range.start ≤ range.stop := by
    obtain ⟨s, b, cursor, d, hs, -, -, -, hd⟩ :=
      Query.require_named hparse (mapError_eq_ok.1 hrequire) hn
    exact ⟨hd.level_lt (hparse.accepted hs), fun range hrange => hd.docstring_ordered hrange⟩
  rcases bind_eq_error.1 hrest with hplan | ⟨edit, hplan, hrest⟩
  · obtain ⟨_ | _, hplan, hpanic⟩ := mapError_eq_error.1 hplan
    · cases hpanic
    · obtain ⟨n, hn, -, hlast⟩ := Docstring.plan_eq_panic_iff.1 hplan
      exact Nat.ne_of_lt (hnamed hn).1 hlast
  obtain ⟨n, hn, hplanned⟩ := Docstring.plan_eq_ok (mapError_eq_ok.1 hplan)
  have happly := hplanned.apply_lines (hnamed hn).2
  rw [happly] at hrest
  cases hrest

end DocstringEditor
