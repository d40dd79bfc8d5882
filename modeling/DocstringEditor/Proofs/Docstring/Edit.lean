import DocstringEditor.Proofs.Docstring.Offset
import DocstringEditor.Proofs.Outcome
import DocstringEditor.Proofs.Text.LineEnding
import DocstringEditor.Request

namespace DocstringEditor

open Text (byteSize)

namespace Docstring

variable {source patched document body t u : Text} {p : ProtocolPosition}

def hang (w : Nat) (t : Text) : Text :=
  t.flatMap fun c => if c = '\n' then c :: List.replicate w ' ' else [c]

theorem hang_cons (w : Nat) (c : Char) (t : Text) :
    hang w (c :: t) = (if c = '\n' then c :: List.replicate w ' ' else [c]) ++ hang w t := rfl

theorem indent_eq (w : Nat) (ht : t ≠ []) : indent w t = List.replicate w ' ' ++
    (Text.firstLine t ++ (Text.splitLines t).tail.flatMap (List.replicate w ' ' ++ ·)) := by
  rw [indent, Text.firstLine]
  cases h : Text.splitLines t with
  | nil =>
      have hflatten := Text.flatten_splitLines t
      rw [h] at hflatten
      exact absurd hflatten.symm ht
  | cons line lines => simp

theorem indent_append (w : Nat) (t : Text) (hu : u ≠ []) (hnewline : '\n' ∉ u) :
    indent w (t ++ u) = List.replicate w ' ' ++ (hang w t ++ u) := by
  induction t with
  | nil =>
      rw [List.nil_append, indent, Text.splitLines_of_not_mem hu hnewline]
      simp [hang]
  | cons c t ih =>
      rw [List.cons_append, hang_cons]
      by_cases hc : c = '\n'
      · subst hc
        have hline : indent w ('\n' :: (t ++ u)) =
            List.replicate w ' ' ++ ['\n'] ++ indent w (t ++ u) := rfl
        rw [hline, ih, if_pos rfl]
        simp
      · have hne : t ++ u ≠ [] := by simp [hu]
        rw [indent_eq w hne] at ih
        rw [if_neg hc, indent_eq w (List.cons_ne_nil c _), Text.firstLine, Text.splitLines_cons hc,
          List.append_assoc, ← List.append_cancel_left ih]
        rfl

def written (document generated : Text) (level : UInt32) (onNewLine : Bool) : Text :=
  LineEnding.adapt document
    (hang (level.toNat * indentWidth) (content (ofGenerated generated) onNewLine))

theorem literal_eq (body : Text) (level : UInt32) (onNewLine : Bool) :
    literal body level onNewLine = List.replicate (level.toNat * indentWidth) ' ' ++
      (quotes ++ (hang (level.toNat * indentWidth) (content body onNewLine) ++
        (quotes ++ ['\n']))) := by
  rw [literal, indent_append _ _ (by decide) (by decide)]
  simp [hang, quotes]

theorem adapt_literal (document generated : Text) (level : UInt32) (onNewLine : Bool) :
    LineEnding.adapt document (literal (ofGenerated generated) level onNewLine) =
      List.replicate (level.toNat * indentWidth) ' ' ++
        (quotes ++ written document generated level onNewLine ++ quotes) ++
        (LineEnding.ofDocument document).text := by
  have hspaces : ∀ c ∈ List.replicate (level.toNat * indentWidth) ' ', c = ' ' :=
    fun c hc => (List.mem_replicate.1 hc).2
  have hclosing : LineEnding.unify (quotes ++ ['\n']) = quotes ++ ['\n'] := rfl
  have hquotes (e : LineEnding) : e.expand quotes = quotes :=
    LineEnding.expand_of_not_mem (by decide)
  have hend (e : LineEnding) : e.expand ['\n'] = e.text := by simp [LineEnding.expand]
  rw [written, LineEnding.adapt, LineEnding.adapt, literal_eq,
    LineEnding.unify_prefix fun h => absurd (hspaces _ h) (by decide),
    LineEnding.unify_prefix (t := quotes) (by decide),
    LineEnding.unify_append _ (by simp [quotes]), hclosing]
  simp only [LineEnding.expand_append, hend, hquotes, List.append_assoc]
  rw [LineEnding.expand_of_not_mem fun h => absurd (hspaces _ h) (by decide)]

def insertionRow (n : NamedEntity) : Nat :=
  match n.docstring with
  | some range => range.start.row
  | none => n.signatureEnd.row + 1

/-- What an edit is that writes a docstring of an entity: it puts an indented literal with a line
end behind it to the start of a line, and takes out the lines that the old docstring is on. -/
structure Planned (document generated : Text) (onNewLine : Bool) (n : NamedEntity)
    (edit : DocstringEdit) : Prop where
  open? : hasInlineBody n = false
  level : n.indentLevel.toNat + 1 < UInt32.size
  text : edit.text = List.replicate ((n.indentLevel + 1).toNat * indentWidth) ' ' ++
    (quotes ++ written document generated (n.indentLevel + 1) onNewLine ++ quotes) ++
    (LineEnding.ofDocument document).text
  row : edit.insertAt.line.toNat = insertionRow n
  column : edit.insertAt.column = 0
  added : n.docstring = none → edit.removal = none
  replaced : ∀ range, n.docstring = some range → ∃ gone, edit.removal = some gone ∧
    gone.start = edit.insertAt ∧ gone.stop.line.toNat = range.stop.row + 1 ∧ gone.stop.column = 0

theorem plan_eq_ok {e : Entity} {generated : Text} {onNewLine : Bool} {edit : DocstringEdit}
    (h : plan e generated onNewLine document = .ok edit) :
    ∃ n, e.named? = some n ∧ Planned document generated onNewLine n edit := by
  unfold plan at h
  split at h
  · simp at h
  · rename_i n hn
    by_cases hinline : hasInlineBody n
    · simp [hinline] at h
    by_cases hlast : n.indentLevel.toNat + 1 = UInt32.size
    · simp [hinline, hlast] at h
    · rw [if_neg hinline, if_neg hlast] at h
      have hlevel : n.indentLevel.toNat + 1 < UInt32.size :=
        Nat.lt_of_le_of_ne n.indentLevel.toNat_lt hlast
      have htext := adapt_literal document generated (n.indentLevel + 1) onNewLine
      have hopen : hasInlineBody n = false := by simpa using hinline
      refine ⟨n, hn, ?_⟩
      simp only at h
      generalize LineEnding.adapt document
        (literal (ofGenerated generated) (n.indentLevel + 1) onNewLine) = text at h htext
      cases hdocstring : n.docstring with
      | none =>
          simp only [hdocstring, Except.ok.injEq] at h
          subst h
          refine ⟨hopen, hlevel, htext, ?_, rfl, fun _ => rfl, by simp [hdocstring]⟩
          rw [insertionRow, hdocstring]
          exact toProtocol_line_succ n.signatureEnd
      | some range =>
          simp only [hdocstring, Except.ok.injEq] at h
          subst h
          refine ⟨hopen, hlevel, htext, ?_, rfl, by simp [hdocstring], ?_⟩
          · rw [insertionRow, hdocstring]
            exact toProtocol_line range.start
          · intro range' hrange'
            obtain rfl : range = range' := by simpa [hdocstring] using hrange'
            exact ⟨_, rfl, rfl, toProtocol_line_succ range.stop, rfl⟩

theorem exists_plan {e : Entity} {n : NamedEntity} (hn : e.named? = some n)
    (hopen : hasInlineBody n = false) (hlevel : n.indentLevel.toNat + 1 < UInt32.size)
    (generated : Text) (onNewLine : Bool) (document : Text) :
    ∃ edit, plan e generated onNewLine document = .ok edit := by
  cases hdocstring : n.docstring <;> simp [plan, hn, hopen, Nat.ne_of_lt hlevel, hdocstring]

/-- The parts of a document that an edit keeps and takes out, and the document after it. -/
structure Edited (source : Text) (n : NamedEntity) (text patched before removed rest : Text) :
    Prop where
  parts : source = before ++ removed ++ rest
  patched : patched = before ++ text ++ rest
  above : before = ((Text.splitLines source).take (insertionRow n)).flatten
  added : n.docstring = none → removed = []
  replaced : ∀ range, n.docstring = some range →
    before ++ removed = ((Text.splitLines source).take (range.stop.row + 1)).flatten

theorem insertAtByte_append (before new rest : Text) :
    insertAtByte (before ++ rest) (byteSize before) new = before ++ new ++ rest := by
  rw [insertAtByte, Text.splitAtByte_byteSize]

theorem removeBytes_append (before removed rest : Text) :
    removeBytes (before ++ removed ++ rest) (byteSize before) (byteSize (before ++ removed)) =
      before ++ rest := by
  rw [removeBytes, Text.dropBytes_append, List.append_assoc, Text.takeBytes_append]
  rfl

end Docstring

namespace DocstringEdit

open Docstring

variable {source : Text} {e : DocstringEdit} {gone : ProtocolRange} {place start stop : Nat}

theorem apply_of_none {above below : Text} (hremoval : e.removal = none)
    (hplace : byteOffset (above ++ below) e.insertAt = .ok (byteSize above)) :
    e.apply (above ++ below) = .ok (above ++ e.text ++ below) := by
  rw [apply, hremoval, ← insertAtByte_append]
  simp only [hplace, mapError_ok, ok_bind]
  rfl

structure Offsets (e : DocstringEdit) (source : Text) (place start stop : Nat) : Prop where
  insertion : byteOffset source e.insertAt = .ok place
  removal : ∃ gone, e.removal = some gone ∧ byteOffset source gone.start = .ok start ∧
    byteOffset source gone.stop = .ok stop

namespace Offsets

theorem apply_eq (h : e.Offsets source place start stop) : e.apply source =
    if start < place ∧ place < stop then .error (.error (.overlap e.insertAt))
    else if stop < start then .error .panic
    else .ok (insertAtByte (removeBytes source start stop)
      (if stop ≤ place then place - (stop - start) else place) e.text) := by
  obtain ⟨gone, hgone, hstart, hstop⟩ := h.removal
  rw [apply, hgone]
  simp only [h.insertion, hstart, hstop, mapError_ok, ok_bind]
  rfl

theorem apply_before {above between removed below : Text}
    (h : e.Offsets (above ++ between ++ removed ++ below) (byteSize above)
      (byteSize (above ++ between)) (byteSize (above ++ between ++ removed))) :
    e.apply (above ++ between ++ removed ++ below) =
      .ok (above ++ e.text ++ between ++ below) := by
  -- Only an empty removal, and one right behind the insertion, could move the insertion.
  have hoffset : (if byteSize (above ++ between ++ removed) ≤ byteSize above then
      byteSize above - (byteSize (above ++ between ++ removed) - byteSize (above ++ between))
      else byteSize above) = byteSize above := by
    simp only [Text.byteSize_append]
    split <;> omega
  have hinsert := insertAtByte_append above e.text (between ++ below)
  rw [h.apply_eq, if_neg (by simp only [Text.byteSize_append]; omega),
    if_neg (by simp only [Text.byteSize_append]; omega), hoffset, removeBytes_append,
    List.append_assoc above, hinsert]
  simp only [List.append_assoc]

end Offsets

/-- An insertion where the removal starts takes the place of what is removed. -/
theorem apply_of_start_eq {above removed below : Text} (hgone : e.removal = some gone)
    (hstart : gone.start = e.insertAt)
    (hplace : byteOffset (above ++ removed ++ below) e.insertAt = .ok (byteSize above))
    (hstop : byteOffset (above ++ removed ++ below) gone.stop = .ok (byteSize (above ++ removed))) :
    e.apply (above ++ removed ++ below) = .ok (above ++ e.text ++ below) := by
  have happly := @Offsets.apply_before e above [] removed below
  simp only [List.append_nil] at happly
  exact happly ⟨hplace, gone, hgone, hstart ▸ hplace, hstop⟩

end DocstringEdit

namespace Docstring

/-- An edit puts its text in the place of whole lines of the document, or between two lines. -/
theorem apply_edited {generated : Text} {onNewLine : Bool} {n : NamedEntity} {edit : DocstringEdit}
    (hedit : Planned source generated onNewLine n edit) (h : edit.apply source = .ok patched) :
    ∃ before removed rest, Edited source n edit.text patched before removed rest := by
  obtain ⟨before, hbefore⟩ :
      ∃ before, before = ((Text.splitLines source).take (insertionRow n)).flatten := ⟨_, rfl⟩
  have hplace : byteOffset source edit.insertAt = .ok (byteSize before) := by
    rw [byteOffset_lineStart hedit.column, hedit.row, hbefore]
  obtain ⟨rest, hrest⟩ : before <+: source := hbefore ▸ Text.take_splitLines_prefix source _
  cases hdocstring : n.docstring with
  | none =>
      subst hrest
      rw [DocstringEdit.apply_of_none (hedit.added hdocstring) hplace] at h
      obtain rfl := Except.ok.inj h
      exact ⟨before, [], rest, by simp, rfl, hbefore, fun _ => rfl, by simp [hdocstring]⟩
  | some range =>
      obtain ⟨gone, hgone, hstart, hline, hcolumn⟩ := hedit.replaced range hdocstring
      obtain ⟨whole, hwhole⟩ :
          ∃ whole, whole = ((Text.splitLines source).take (range.stop.row + 1)).flatten := ⟨_, rfl⟩
      obtain ⟨tail, htail⟩ : whole <+: source := hwhole ▸ Text.take_splitLines_prefix source _
      have hstop : byteOffset source gone.stop = .ok (byteSize whole) := by
        rw [byteOffset_lineStart hcolumn, hline, hwhole]
      have hoffsets : edit.Offsets source (byteSize before) (byteSize before) (byteSize whole) :=
        ⟨hplace, gone, hgone, hstart ▸ hplace, hstop⟩
      have hordered : byteSize before ≤ byteSize whole := by
        by_contra hreversed
        rw [hoffsets.apply_eq, if_neg (by omega), if_pos (by omega)] at h
        cases h
      obtain ⟨removed, rfl⟩ : before <+: whole :=
        Text.prefix_of_byteSize_le ⟨rest, hrest⟩ ⟨tail, htail⟩ hordered
      subst htail
      rw [DocstringEdit.apply_of_start_eq hgone hstart hplace hstop] at h
      obtain rfl := Except.ok.inj h
      refine ⟨before, removed, tail, rfl, rfl, hbefore, by simp [hdocstring], ?_⟩
      intro range' hrange'
      obtain rfl : range = range' := by simpa [hdocstring] using hrange'
      exact hwhole

end Docstring

theorem DocstringRequest.run_eq_ok {parse : Analysis.Parse} {r : DocstringRequest}
    {answer : DocstringAnswer} (h : r.run parse = .ok answer) : ∃ e n before removed rest,
      r.query.require parse = .ok (answer.backend, e) ∧ e.named? = some n ∧
      Docstring.Planned r.query.source r.docstring r.onNewLine n answer.edit ∧
      Docstring.Edited r.query.source n answer.edit.text answer.patched before removed rest := by
  obtain ⟨⟨backend, e⟩, hrequire, h⟩ := bind_eq_ok.1 h
  obtain ⟨edit, hplan, h⟩ := bind_eq_ok.1 h
  obtain ⟨patched, hpatched, h⟩ := bind_eq_ok.1 h
  obtain rfl := Except.ok.inj h
  obtain ⟨n, hn, hplanned⟩ := Docstring.plan_eq_ok (mapError_eq_ok.1 hplan)
  obtain ⟨before, removed, rest, hedited⟩ :=
    Docstring.apply_edited hplanned (mapError_eq_ok.1 hpatched)
  exact ⟨e, n, before, removed, rest, mapError_eq_ok.1 hrequire, hn, hplanned, hedited⟩

end DocstringEditor
