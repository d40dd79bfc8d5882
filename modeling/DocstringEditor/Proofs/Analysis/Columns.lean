import DocstringEditor.Proofs.Analysis.Answer

namespace DocstringEditor

namespace Text

variable {t u : Text} {i column : Nat}

def utf8 (t : Text) : List UInt8 := t.flatMap String.utf8EncodeChar

theorem utf8_append (t u : Text) : utf8 (t ++ u) = utf8 t ++ utf8 u := List.flatMap_append

theorem length_utf8 (t : Text) : (utf8 t).length = byteSize t := by
  induction t with
  | nil => rfl
  | cons c t ih =>
      have hcons : utf8 (c :: t) = String.utf8EncodeChar c ++ utf8 t := rfl
      rw [hcons, List.length_append, String.length_utf8EncodeChar, ih, byteSize_cons]

def byteAt? (t : Text) (row column : Nat) : Option UInt8 :=
  (utf8 ((splitLines t).getD row []))[column]?

theorem byteAt?_append (t u : Text) (i column : Nat) :
    byteAt? (t ++ u) (t.count '\n' + i) ((if i = 0 then byteSize (lastLine t) else 0) + column) =
      byteAt? u i column := by
  rw [byteAt?, getD_splitLines_add, utf8_append]
  by_cases hi : i = 0
  · rw [if_pos hi, if_pos hi, List.getElem?_append_right (by rw [length_utf8]; omega), length_utf8,
      Nat.add_sub_cancel_left]
    rfl
  · rw [if_neg hi, if_neg hi, Nat.zero_add]
    rfl

theorem byteAt?_append_left
    (hi : i < t.count '\n' ∨ i = t.count '\n' ∧ column < byteSize (lastLine t)) :
    byteAt? (t ++ u) i column = byteAt? t i column := by
  rcases hi with hi | ⟨rfl, hcolumn⟩
  · rw [byteAt?, getD_splitLines_of_lt hi]
    rfl
  · have hlast : (splitLines t).getD (t.count '\n') [] = lastLine t := by
      simpa [firstLine] using getD_splitLines t []
    rw [byteAt?, byteAt?, getD_splitLines, hlast, utf8_append,
      List.getElem?_append_left (by rwa [length_utf8])]

end Text

namespace NamedEntity

/-- Whether a position is just past the last byte of an entity's code. -/
def EndsAt (n : NamedEntity) (p : DocumentPosition) : Prop :=
  (n.relative p).line.toNat = n.code.count '\n' ∧
    (n.relative p).column = Text.byteSize (Text.lastLine n.code)

/-- Whether every byte of the source in an entity's range is a byte of its code at the same column,
the one where the range stops apart. -/
def LinesUp (n : NamedEntity) : Prop :=
  ∀ p, n.range.contains p → ∀ byte, Text.byteAt? n.source p.row p.column = some byte →
    Text.byteAt? n.code (n.relative p).line.toNat (n.relative p).column = some byte ∨
      p = n.range.stop ∧ n.EndsAt p

end NamedEntity

namespace Analysis

open Syntax Syntax.Node
open Text (byteSize lastLine firstLine byteAt?)

variable {parse : Parse} {text : Text} {s : Source} {d : Node} {b : Backend} {n : NamedEntity}
  {before rest : Text}
  {p : DocumentPosition}

theorem Source.Accepted.contains_iff (h : s.Accepted) (hn : Describes s b d n) :
    n.range.contains p ↔
      (d.start.row + 1 < p.line.toNat ∨
        d.start.row + 1 = p.line.toNat ∧ d.start.column ≤ p.column) ∧
      (p.line.toNat < d.logicalEnd.row + 1 ∨
        p.line.toNat = d.logicalEnd.row + 1 ∧ p.column ≤ d.logicalEnd.column) := by
  have hregular := h.tree.regular
  have hroot : d ∈ s.root.preorder := mem_preorder.2 (.inr hn.mem)
  have hstart := hregular.fits_start hroot
  have hstop := hregular.fits_logicalEnd hroot
  rw [hn.range, rangeOf_eq hregular hn.mem, Range.contains, Bool.and_eq_true, decide_eq_true_eq,
    decide_eq_true_eq]
  show (_ < _ ∨ _ = _ ∧ _ ≤ _) ∧ (_ < _ ∨ _ = _ ∧ _ ≤ _) ↔ _
  simp only [UInt32.lt_iff_toNat_lt, UInt32.le_iff_toNat_le, ← UInt32.toNat_inj, hstart.line,
    hstart.character, hstop.line, hstop.character, Position.column]

/-- A position in the range of a definition, counted from the start of the definition: it is before
the end of its text or where the range stops. -/
theorem Source.Accepted.counted (h : s.Accepted) (hs : Stands s d before rest)
    (hn : Describes s b d n) (hp : n.range.contains p) : ∃ i column,
      p.row = before.count '\n' + i ∧ (n.relative p).line.toNat = i ∧
      p.column = (if i = 0 then byteSize (s.margin d) else 0) + column ∧
      ((i < (s.definitionText d).count '\n' ∨ i = (s.definitionText d).count '\n' ∧
          column < byteSize (lastLine (s.definitionText d))) ∨
        p = n.range.stop ∧ i = (s.definitionText d).count '\n' ∧
          column = byteSize (lastLine (s.definitionText d))) := by
  have hregular := h.tree.regular
  have hroot : d ∈ s.root.preorder := mem_preorder.2 (.inr hn.mem)
  have hstop := hregular.fits_logicalEnd hroot
  obtain ⟨hfrom, hto⟩ := (h.contains_iff hn).1 hp
  have hrow : d.start.row = before.count '\n' := by
    rw [hs.start, Location.after_row, Location.origin, Nat.zero_add]
  have hcolumn : (if p.line.toNat - (d.start.row + 1) = 0 then byteSize (s.margin d) else 0) ≤
      p.column := by
    split
    · rw [← hs.startColumn]
      omega
    · omega
  refine ⟨p.line.toNat - (d.start.row + 1), p.column - _, ?_, h.relative_line hn p,
    (Nat.add_sub_cancel' hcolumn).symm, ?_⟩
  · rw [Position.row]
    omega
  · rw [hs.stopRow] at hto
    rcases hto with hlt | ⟨hlast, hle⟩
    · exact .inl (.inl (by omega))
    · have hend : d.logicalEnd.column =
          (if p.line.toNat - (d.start.row + 1) = 0 then byteSize (s.margin d) else 0) +
            byteSize (lastLine (s.definitionText d)) := by
        rw [hs.stopColumn, Text.byteSize_lastLine_append, ← hs.margin, hlast, hrow,
          Nat.add_right_comm, Nat.add_sub_cancel_left]
      rcases Nat.lt_or_eq_of_le hle with hlt | heq
      · exact .inl (.inr ⟨by omega, by omega⟩)
      · refine .inr ⟨?_, by omega, by omega⟩
        have hline : p.line = n.range.stop.line := by
          rw [hn.range, rangeOf_eq hregular hn.mem, ← UInt32.toNat_inj, hstop.line, hs.stopRow]
          exact hlast
        have hcharacter : p.character = n.range.stop.character := by
          rw [hn.range, rangeOf_eq hregular hn.mem, ← UInt32.toNat_inj, hstop.character]
          exact heq
        cases p
        cases hstop' : n.range.stop
        simp_all

theorem Source.Accepted.linesUp (h : s.Accepted) (hn : Describes s b d n)
    (hsize : byteSize (s.lead b d) = byteSize (s.margin d)) : n.LinesUp := by
  obtain ⟨before, rest, hs⟩ := h.stands hn.mem hn.isDefinition
  have hlead := newline_not_mem_lead hs b
  have hcount : (s.lead b d).count '\n' = 0 := List.count_eq_zero_of_not_mem hlead
  intro p hp byte hbyte
  obtain ⟨i, column, hrow, hline, hcolumn, hinside⟩ := h.counted hs hn hp
  have hsource : byteAt? n.source p.row p.column =
      byteAt? (s.definitionText d ++ rest) i column := by
    rw [hn.source, h.text_eq hs, List.append_assoc, hrow, hcolumn, hs.margin]
    exact Text.byteAt?_append before _ i column
  have hcode : byteAt? n.code (n.relative p).line.toNat (n.relative p).column =
      byteAt? (s.definitionText d) i column := by
    have happend := Text.byteAt?_append (s.lead b d) (s.definitionText d) i column
    rw [hcount, Nat.zero_add, Text.lastLine_of_not_mem hlead, hsize, ← hcolumn] at happend
    rw [hn.code, hline]
    exact happend
  rcases hinside with hinside | ⟨hstop, hi, hlast⟩
  · left
    rw [hcode, ← Text.byteAt?_append_left hinside, ← hsource]
    exact hbyte
  · right
    refine ⟨hstop, ?_, ?_⟩
    · rw [hline, hn.code, List.count_append, hcount, Nat.zero_add]
      exact hi
    · show p.column = _
      rw [hcolumn, hn.code, Text.byteSize_lastLine_append, Text.lastLine_of_not_mem hlead, hsize,
        ← hi, hlast]

/-- The position of the last byte of the first line of a definition. -/
def Source.firstEdge (s : Source) (d : Node) : DocumentPosition :=
  ⟨(Position.ofLocation d.start).line,
    .ofNat (byteSize (s.margin d) + (byteSize (firstLine (s.definitionText d)) - 1))⟩

namespace Source.Accepted

theorem firstLine_pos (h : s.Accepted) (hs : Stands s d before rest) (hd : d ∈ s.root.inner)
    (hdef : d.isDefinition) : 0 < byteSize (firstLine (s.definitionText d)) := by
  apply Text.byteSize_pos
  apply Text.firstLine_ne_nil
  exact h.definitionText_ne_nil hs hd hdef

theorem firstEdge_line (h : s.Accepted) (hd : d ∈ s.root.inner) :
    (s.firstEdge d).line.toNat = d.start.row + 1 :=
  (h.tree.regular.fits_start (mem_preorder.2 (.inr hd))).line

theorem firstEdge_row (h : s.Accepted) (hs : Stands s d before rest) (hd : d ∈ s.root.inner) :
    (s.firstEdge d).row = before.count '\n' := by
  rw [Position.row, h.firstEdge_line hd, hs.start, Location.after_row, Location.origin,
    Nat.zero_add, Nat.add_sub_cancel]

theorem firstEdge_column (h : s.Accepted) (hs : Stands s d before rest) (hd : d ∈ s.root.inner)
    (hdef : d.isDefinition) : (s.firstEdge d).column =
      byteSize (s.margin d) + (byteSize (firstLine (s.definitionText d)) - 1) := by
  have hpos := h.firstLine_pos hs hd hdef
  have hmargin := Text.byteSize_le_of_infix (Text.lastLine_suffix before).isInfix
  have hline := Text.byteSize_le_of_infix (Text.firstLine_prefix (s.definitionText d)).isInfix
  have htext := h.tree.size
  rw [h.text_eq hs, Text.byteSize_append, Text.byteSize_append] at htext
  rw [← hs.margin] at hmargin
  rw [Position.column, firstEdge, UInt32.toNat_ofNat']
  apply Nat.mod_eq_of_lt
  exact Nat.lt_of_le_of_lt (by omega) htext

theorem firstEdge_before (h : s.Accepted) (hs : Stands s d before rest) (hd : d ∈ s.root.inner)
    (hdef : d.isDefinition) :
    (s.firstEdge d).line.toNat < d.logicalEnd.row + 1 ∨
      (s.firstEdge d).line.toNat = d.logicalEnd.row + 1 ∧
        (s.firstEdge d).column < d.logicalEnd.column := by
  have hpos := h.firstLine_pos hs hd hdef
  have hstart : d.start.row = before.count '\n' := by
    rw [hs.start, Location.after_row, Location.origin, Nat.zero_add]
  rw [h.firstEdge_line hd, h.firstEdge_column hs hd hdef, hs.stopRow, hs.stopColumn,
    Text.byteSize_lastLine_append, ← hs.margin, hstart]
  by_cases hmem : '\n' ∈ s.definitionText d
  · have := List.count_pos_iff.2 hmem
    left
    omega
  · have hcount := List.count_eq_zero_of_not_mem hmem
    rw [Text.firstLine_of_not_mem hmem] at hpos ⊢
    rw [hcount, if_pos rfl, Text.lastLine_of_not_mem hmem]
    right
    omega

theorem contains_firstEdge (h : s.Accepted) (hs : Stands s d before rest) (hn : Describes s b d n) :
    n.range.contains (s.firstEdge d) := by
  have hline := h.firstEdge_line hn.mem
  have hcolumn := h.firstEdge_column hs hn.mem hn.isDefinition
  have hbefore := h.firstEdge_before hs hn.mem hn.isDefinition
  rw [h.contains_iff hn, hs.startColumn]
  exact ⟨.inr ⟨hline.symm, by omega⟩, hbefore.imp_right fun hlast => ⟨hlast.1, by omega⟩⟩

theorem firstEdge_ne_stop (h : s.Accepted) (hs : Stands s d before rest) (hn : Describes s b d n) :
    s.firstEdge d ≠ n.range.stop := by
  have hfits := h.tree.regular.fits_logicalEnd (mem_preorder.2 (.inr hn.mem))
  have hline := hfits.line
  have hcolumn : (Position.ofLocation d.logicalEnd : DocumentPosition).column = _ :=
    hfits.character
  rw [hn.range, rangeOf_eq h.tree.regular hn.mem]
  intro (hstop : s.firstEdge d = Position.ofLocation d.logicalEnd)
  rw [← hstop] at hline hcolumn
  have hbefore := h.firstEdge_before hs hn.mem hn.isDefinition
  omega

theorem exists_firstEdge (h : s.Accepted) (hs : Stands s d before rest) (hd : d ∈ s.root.inner)
    (hdef : d.isDefinition) :
    ∃ byte, byteAt? s.text (s.firstEdge d).row (s.firstEdge d).column = some byte := by
  have hpos := h.firstLine_pos hs hd hdef
  have happend := Text.byteAt?_append before (s.definitionText d ++ rest) 0
    (byteSize (firstLine (s.definitionText d)) - 1)
  rw [Nat.add_zero, if_pos rfl, ← hs.margin, ← h.firstEdge_column hs hd hdef,
    ← List.append_assoc] at happend
  rw [h.text_eq hs, h.firstEdge_row hs hd, happend, Text.byteAt?, Text.getD_zero_splitLines]
  have hlonger := Text.firstLine_prefix_append (s.definitionText d) rest
  have hsize := Text.byteSize_le_of_infix hlonger.isInfix
  rw [← Text.length_utf8 (firstLine (s.definitionText d ++ rest))] at hsize
  exact ⟨_, List.getElem?_eq_getElem (by omega)⟩

/-- Where the code has less before the definition than the source, the last byte of the definition's
first line is not at its column. -/
theorem not_linesUp (h : s.Accepted) (hn : Describes s b d n)
    (hsize : byteSize (s.lead b d) < byteSize (s.margin d)) : ¬n.LinesUp := by
  obtain ⟨before, rest, hs⟩ := h.stands hn.mem hn.isDefinition
  have hcolumn := h.firstEdge_column hs hn.mem hn.isDefinition
  obtain ⟨byte, hbyte⟩ := h.exists_firstEdge hs hn.mem hn.isDefinition
  rw [← hn.source] at hbyte
  intro hup
  rcases hup _ (h.contains_firstEdge hs hn) byte hbyte with hcode | ⟨hstop, -⟩
  · have hzero : (n.relative (s.firstEdge d)).line.toNat = 0 := by
      rw [h.relative_line hn, h.firstEdge_line hn.mem, Nat.sub_self]
    have hpast : byteSize (s.lead b d ++ firstLine (s.definitionText d)) ≤
        (n.relative (s.firstEdge d)).column := by
      rw [Text.byteSize_append]
      show _ ≤ (s.firstEdge d).column
      omega
    rw [hzero, hn.code, Text.byteAt?, Text.getD_zero_splitLines,
      Text.firstLine_append_of_not_mem (newline_not_mem_lead hs b),
      List.getElem?_eq_none (by rw [Text.length_utf8]; exact hpast)] at hcode
    simp at hcode
  · exact h.firstEdge_ne_stop hs hn hstop

end Source.Accepted

theorem byteSize_eq_length_iff {t : Text} :
    byteSize t = t.length ↔ ∀ c ∈ t, c.utf8Size = 1 := by
  induction t with
  | nil => simp
  | cons c t ih =>
      have := c.utf8Size_pos
      have := Text.length_le_byteSize t
      rw [Text.byteSize_cons, List.length_cons, List.forall_mem_cons, ← ih]
      omega

/-- The columns of the code of a class or function are those of the source just if the code is not
padded or padding does not narrow what stands before the definition. -/
theorem linesUp_iff {a : Analyzer} {scope : QueryScope} {cursor : DocumentPosition}
    {e : Entity} (hparse : parse.Faithful) (h : Source.parse parse text = .ok s)
    (ha : Analyzer.create parse b text = .ok a)
    (he : a.find scope cursor = .ok (some e)) (hn : e.named? = some n) :
    ∃ d, Deepest cursor s.root scope.Admits d ∧ n.range = Source.rangeOf d ∧
      (n.LinesUp ↔ b = .symbols ∨ ∀ c ∈ s.margin d, c.utf8Size = 1) := by
  have hs := hparse.accepted h
  obtain ⟨d, hdeep, hd⟩ := find_named hparse h ha he hn
  refine ⟨d, hdeep, hd.range, ?_⟩
  cases b with
  | symbols => exact iff_of_true (hs.linesUp hd rfl) (.inl rfl)
  | structural =>
      rw [← byteSize_eq_length_iff, ← byteSize_padding]
      constructor
      · intro hup
        right
        by_contra hne
        have hle := Text.length_le_byteSize (s.margin d)
        rw [← byteSize_padding] at hle
        exact hs.not_linesUp hd (Nat.lt_of_le_of_ne hle (Ne.symm hne)) hup
      · rintro (habsurd | hsize)
        · cases habsurd
        · exact hs.linesUp hd hsize.symm

theorem linesUp_iff_method : ∃ s a e n,
    Source.parse python "class A:\n\tdef f(self): 0".toList = .ok s ∧
    Analyzer.create python .structural "class A:\n\tdef f(self): 0".toList = .ok a ∧
    a.find .context ⟨2, 6⟩ = .ok (some e) ∧ e.named? = some n ∧
    ∃ d, Deepest ⟨2, 6⟩ s.root QueryScope.context.Admits d ∧ n.range = Source.rangeOf d ∧
      (n.LinesUp ↔ Backend.structural = .symbols ∨ ∀ c ∈ s.margin d, c.utf8Size = 1) := by
  obtain ⟨s, hs⟩ := exists_eq_ok (x := Source.parse python "class A:\n\tdef f(self): 0".toList)
    (by rfl)
  have hmethod : (Analyzer.create python .structural "class A:\n\tdef f(self): 0".toList >>=
      (·.find .context ⟨2, 6⟩)).toOption.any (·.any (·.named?.isSome)) := rfl
  obtain ⟨found, hfound, hsome⟩ := (Option.any_eq_true _ _).1 hmethod
  obtain ⟨e, rfl, hnamed⟩ := (Option.any_eq_true _ _).1 hsome
  obtain ⟨n, hn⟩ := Option.isSome_iff_exists.1 hnamed
  obtain ⟨a, ha, he⟩ := bind_eq_ok.1 (toOption_eq_some.1 hfound)
  exact ⟨s, a, e, n, hs, ha, he, hn, linesUp_iff python_faithful hs ha he hn⟩

/-- Behind a mark at the start of the source the padded code is two columns short. -/
theorem not_linesUp_reachable : ∃ n,
    (Analyzer.create python .structural "\uFEFFdef f(): 0".toList >>= (·.find .context ⟨1, 4⟩)) =
      .ok (some (.functionDef n)) ∧ ¬n.LinesUp := by
  refine ⟨⟨"f", " def f(): 0".toList, ⟨⟨1, 3⟩, ⟨1, 13⟩⟩, ⟨1, 9⟩, none, 0,
    "\uFEFFdef f(): 0".toList⟩, by decide +kernel, fun h => ?_⟩
  rcases h ⟨1, 12⟩ (by decide) 48 (by decide) with hbyte | ⟨hstop, -⟩
  · exact absurd hbyte (by decide)
  · exact absurd hstop (by decide)

end Analysis

end DocstringEditor
