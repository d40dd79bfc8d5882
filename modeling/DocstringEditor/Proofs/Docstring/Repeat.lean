import DocstringEditor.Proofs.Docstring.Edit

namespace DocstringEditor

namespace Text

variable {t above rows : Text} {first last : Nat}

structure Rows (t : Text) (first last : Nat) (above rows below : Text) : Prop where
  parts : t = above ++ rows ++ below
  take_first : ((splitLines t).take first).flatten = above
  take_last : ((splitLines t).take (last + 1)).flatten = above ++ rows

theorem exists_rows (t : Text) (h : first ≤ last) :
    ∃ above rows below, Rows t first last above rows below := by
  have hrows := flatten_parts (splitLines t) (Nat.le_succ_of_le h)
  have hparts := flatten_take_drop (splitLines t) (last + 1)
  rw [← hrows, flatten_splitLines] at hparts
  exact ⟨_, _, _, hparts.symm, rfl, hrows.symm⟩

theorem rows_append (habove : lastLine above = []) (hrows : lastLine rows = [])
    (hnewline : '\n' ∈ rows) (below : Text) :
    Rows (above ++ rows ++ below) (above.count '\n')
      (above.count '\n' + rows.count '\n' - 1) above rows below where
  parts := rfl
  take_first := by
    rw [List.append_assoc]
    exact take_splitLines_append habove _
  take_last := by
    have hpos : 0 < rows.count '\n' := List.count_pos_iff.2 hnewline
    have hwhole := take_splitLines_append (lastLine_append_eq_nil habove hrows) below
    rwa [List.count_append, show above.count '\n' + rows.count '\n' =
      above.count '\n' + rows.count '\n' - 1 + 1 by omega] at hwhole

theorem Rows.count_above {below : Text} (h : Rows t first last above rows below)
    (hfirst : first < (splitLines t).length) : above.count '\n' = first ∧ lastLine above = [] := by
  have hcount : first ≤ t.count '\n' := by
    have := length_splitLines_le t
    omega
  rw [← h.take_first]
  exact ⟨count_take_splitLines hcount, (lastLine_take_splitLines t first).2 (.inl hcount)⟩

end Text

open Text (byteSize splitLines Rows)

def NamedEntity.HasDocstringOn (n : NamedEntity) (first last : Nat) : Prop :=
  ∃ range, n.docstring = some range ∧ range.start.row = first ∧ range.stop.row = last

/-- Whether two entities have in common what an edit of their docstring needs to know, besides where
the docstring is. -/
structure NamedEntity.SameHeader (n n' : NamedEntity) : Prop where
  code : n'.code = n.code
  line : n'.range.start.line = n.range.start.line
  signatureEnd : n'.signatureEnd = n.signatureEnd
  indentLevel : n'.indentLevel = n.indentLevel

namespace Docstring

variable {e : Entity} {n n' : NamedEntity} {document patched generated : Text} {onNewLine : Bool}
  {edit edit' : DocstringEdit} {first last : Nat}

theorem hasInlineBody_eq (h : n.SameHeader n') : hasInlineBody n' = hasInlineBody n := by
  simp only [hasInlineBody, NamedEntity.relative, h.code, h.line, h.signatureEnd]

namespace Planned

/-- An edit that replaces a docstring puts its text in the place of the rows that it is on. -/
theorem apply_replaced {above removed below : Text}
    (h : Planned document generated onNewLine n edit) (hdocstring : n.HasDocstringOn first last)
    (hrows : Rows document first last above removed below) :
    edit.apply document = .ok (above ++ edit.text ++ below) := by
  obtain ⟨range, hrange, rfl, rfl⟩ := hdocstring
  obtain ⟨gone, hgone, hstart, hline, hcolumn⟩ := h.replaced range hrange
  have hplace : byteOffset document edit.insertAt = .ok (byteSize above) := by
    rw [byteOffset_lineStart h.column, h.row, insertionRow, hrange, hrows.take_first]
  have hstop : byteOffset document gone.stop = .ok (byteSize (above ++ removed)) := by
    rw [byteOffset_lineStart hcolumn, hline, hrows.take_last]
  obtain rfl := hrows.parts
  exact DocstringEdit.apply_of_start_eq hgone hstart hplace hstop

theorem getLast?_text (h : Planned document generated onNewLine n edit) :
    edit.text.getLast? = some '\n' := by
  rw [h.text, List.getLast?_append, LineEnding.getLast?_text]
  rfl

theorem text_eq (h : Planned document generated onNewLine n edit)
    (h' : Planned patched generated onNewLine n' edit')
    (hend : LineEnding.ofDocument patched = LineEnding.ofDocument document)
    (hlevel : n'.indentLevel = n.indentLevel) : edit'.text = edit.text := by
  rw [h'.text, h.text, hlevel, hend, written, written, LineEnding.adapt, LineEnding.adapt, hend]

end Planned

/-- Once a docstring has replaced another one, writing it again changes nothing. -/
theorem plan_repeat (hn : e.named? = some n) (hdocstring : n.HasDocstringOn first last)
    (hfirst : 1 ≤ first) (hordered : first ≤ last) (hlast : last < (splitLines document).length)
    (h : plan e generated onNewLine document = .ok edit) :
    ∃ patched, edit.apply document = .ok patched ∧ ∀ e' n', e'.named? = some n' →
      n.SameHeader n' → n'.HasDocstringOn first (first + edit.text.count '\n' - 1) →
      ∃ edit', plan e' generated onNewLine patched = .ok edit' ∧
        edit'.apply patched = .ok patched := by
  obtain ⟨n₀, hn₀, hplanned⟩ := plan_eq_ok h
  obtain rfl : n = n₀ := Option.some.inj (hn.symm.trans hn₀)
  obtain ⟨above, removed, below, hrows⟩ := Text.exists_rows document hordered
  obtain ⟨hcount, habove⟩ := hrows.count_above (by omega)
  refine ⟨above ++ edit.text ++ below, hplanned.apply_replaced hdocstring hrows, ?_⟩
  intro e' n' hn' hsame hdocstring'
  obtain ⟨edit', hedit'⟩ := exists_plan hn' ((hasInlineBody_eq hsame).trans hplanned.open?)
    (hsame.indentLevel ▸ hplanned.level) generated onNewLine (above ++ edit.text ++ below)
  obtain ⟨n₁, hn₁, hplanned'⟩ := plan_eq_ok hedit'
  obtain rfl : n' = n₁ := Option.some.inj (hn'.symm.trans hn₁)
  -- There is a whole line above the docstring, which both documents start with.
  have hend : LineEnding.ofDocument (above ++ edit.text ++ below) =
      LineEnding.ofDocument document := by
    have hnewline : '\n' ∈ above := List.count_pos_iff.1 (by omega)
    rw [hrows.parts, List.append_assoc, List.append_assoc, LineEnding.ofDocument_append hnewline,
      LineEnding.ofDocument_append hnewline]
  have htext : edit'.text = edit.text := hplanned.text_eq hplanned' hend hsame.indentLevel
  have hrows' := Text.rows_append habove (Text.lastLine_eq_nil_iff.2 (.inr hplanned.getLast?_text))
    (List.mem_of_getLast? hplanned.getLast?_text) below
  rw [hcount] at hrows'
  refine ⟨edit', hedit', ?_⟩
  rw [hplanned'.apply_replaced hdocstring' hrows', htext]

/-- A docstring of one line becomes one of four lines, which are then replaced by themselves. -/
theorem plan_repeat_method : ∃ (e e' : Entity) (n n' : NamedEntity) (edit : DocstringEdit)
    (patched : Text), e.named? = some n ∧ n.HasDocstringOn 2 2 ∧ 1 ≤ 2 ∧ 2 ≤ 2 ∧
    2 < (splitLines "class A:\r\n  def f(self):\r\n    'old'; return 1".toList).length ∧
    plan e "```\n  Doc.\n\n    More.\n```".toList false
      "class A:\r\n  def f(self):\r\n    'old'; return 1".toList = .ok edit ∧
    edit.apply "class A:\r\n  def f(self):\r\n    'old'; return 1".toList = .ok patched ∧
    e'.named? = some n' ∧ n.SameHeader n' ∧
    n'.HasDocstringOn 2 (2 + edit.text.count '\n' - 1) ∧
    ∃ edit', plan e' "```\n  Doc.\n\n    More.\n```".toList false patched = .ok edit' ∧
      edit'.apply patched = .ok patched := by
  obtain ⟨n, hn⟩ : ∃ n : NamedEntity, n = ⟨"f", "  def f(self):\r\n    'old'; return 1".toList,
    ⟨⟨2, 2⟩, ⟨3, 19⟩⟩, ⟨2, 14⟩, some ⟨⟨3, 4⟩, ⟨3, 9⟩⟩, 0, []⟩ := ⟨_, rfl⟩
  obtain ⟨n', hn'⟩ : ∃ n' : NamedEntity, n' = { n with
    docstring := some ⟨⟨3, 4⟩, ⟨6, 7⟩⟩, range := ⟨n.range.start, ⟨6, 7⟩⟩ } := ⟨_, rfl⟩
  have hrows : n.HasDocstringOn 2 2 := by
    rw [hn]
    exact ⟨_, rfl, rfl, rfl⟩
  have hplan : plan (.functionDef n) "```\n  Doc.\n\n    More.\n```".toList false
      "class A:\r\n  def f(self):\r\n    'old'; return 1".toList = .ok ⟨some ⟨⟨2, 0⟩, ⟨3, 0⟩⟩,
        ⟨2, 0⟩, "    \"\"\"Doc.\r\n    \r\n      More.\r\n    \"\"\"\r\n".toList⟩ := by
    rw [hn]
    decide +kernel
  have hsame : n.SameHeader n' := by
    rw [hn']
    exact ⟨rfl, rfl, rfl, rfl⟩
  have hrows' : n'.HasDocstringOn 2 5 := by
    rw [hn']
    exact ⟨_, rfl, rfl, rfl⟩
  obtain ⟨patched, hpatched, hagain⟩ :=
    plan_repeat (e := .functionDef n) rfl hrows (by decide) (by decide) (by decide) hplan
  exact ⟨_, .functionDef n', n, n', _, patched, rfl, hrows, by decide, by decide, by decide, hplan,
    hpatched, rfl, hsame, hrows', hagain _ _ rfl hsame hrows'⟩

end Docstring

end DocstringEditor
