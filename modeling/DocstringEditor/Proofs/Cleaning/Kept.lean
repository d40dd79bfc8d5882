import DocstringEditor.Proofs.Analysis.Answer
import DocstringEditor.Proofs.Cleaning.Present
import DocstringEditor.Proofs.Syntax.Leaf

namespace DocstringEditor

open Analysis Syntax Syntax.Node
open Cleaning hiding isComment
open Text (byteSize lastLine firstLine splitLines)

def Entity.firstRow : Entity → Nat
  | module _ => 0
  | classDef e | functionDef e => e.range.start.row

variable {parse : Parse} {text : Text} {s : Source} {b : Backend} {d m : Node} {e : Entity}
  {n : NamedEntity}
  {lead before code rest x y line : Text} {row : Nat} {c : Char}

theorem Entity.parts_of_named (h : e.named? = some n) : e.code = n.code ∧
    e.firstRow = n.range.start.row ∧ e.relative = n.relative ∧ e.docstring = n.docstring := by
  cases e with
  | module m => cases h
  | classDef n' | functionDef n' =>
      obtain rfl := Option.some.inj h
      exact ⟨rfl, rfl, rfl, rfl⟩

/-- How the code of an entity stands in its source. What comes before it on its first line is as in
the source, or blank where no string literal reaches into the code. -/
structure Shows (s : Source) (d : Node) (e : Entity) (lead before code rest : Text) : Prop where
  code_eq : e.code = lead ++ code
  text_eq : s.text = before ++ code ++ rest
  firstRow_eq : e.firstRow = before.count '\n'
  newline_not_mem : '\n' ∉ lead
  lead_eq_or : lead = lastLine before ∨ (∀ c ∈ lead, Text.isBlank c) ∧ ∀ n ∈ s.root.inner,
    n.kind = .string → byteSize before < n.stop.byte → byteSize before ≤ n.start.byte
  tokens : ∀ m ∈ d.tokens, m ∈ s.root.tokens ∧ byteSize before ≤ m.start.byte ∧
    m.stop.byte ≤ byteSize (before ++ code)
  relative_line : ∀ p, (e.relative p).line.toNat = p.row - e.firstRow
  docstring : ∀ range, e.docstring = some range → e.firstRow ≤ range.stop.row

namespace Shows

variable (h : Shows s d e lead before code rest)
include h

theorem getElem?_codeLines (hcode : code = x ++ c :: y) :
    e.codeLines[x.count '\n']? = some (lastLine (lead ++ x) ++ firstLine (c :: y)) := by
  have hline := Text.getElem?_splitLines (lead ++ x) y c
  rwa [List.count_append, List.count_eq_zero_of_not_mem h.newline_not_mem, Nat.zero_add,
    List.append_assoc, ← hcode, ← h.code_eq] at hline

/-- What a line of the code has of the source, from where no literal comes from the same row. -/
theorem exists_shown (hs : s.Accepted) (hcode : code = x ++ c :: y) : ∃ u blanks shown,
    before ++ x = u ++ shown ∧ lastLine (lead ++ x) = blanks ++ shown ∧
    (∀ c ∈ blanks, Text.isBlank c) ∧ '\n' ∉ shown ∧ ∀ n ∈ s.root.inner, n.kind = .string →
      n.start.byte < byteSize u → byteSize u < n.stop.byte → n.start.row < u.count '\n' := by
  -- Only the first line of padded code is not a line of the source.
  by_cases hlead : '\n' ∈ x ∨ lead = lastLine before
  · have hlast : lastLine (lead ++ x) = lastLine (before ++ x) := by
      rw [Text.lastLine_append, Text.lastLine_append]
      split
      · rfl
      · rw [Text.lastLine_of_not_mem h.newline_not_mem, ← hlead.resolve_left ‹_›]
    obtain ⟨u, hu, hline⟩ := Text.exists_lastLine (before ++ x)
    refine ⟨u, [], lastLine (before ++ x), hu, hlast, by simp, Text.newline_not_mem_lastLine _,
      fun n hn _ hlt _ => (hs.tree.sound n hn).start.row_lt ?_ hline hlt⟩
    refine ⟨lastLine (before ++ x) ++ c :: y ++ rest, ?_⟩
    have htext := congrArg (· ++ (c :: y ++ rest)) hu
    rw [h.text_eq, hcode]
    simpa using htext.symm
  · obtain ⟨hx, hne⟩ := not_or.1 hlead
    obtain ⟨hblank, hcut⟩ := h.lead_eq_or.resolve_left hne
    refine ⟨before, lead, x, rfl, ?_, hblank, hx, fun n hn hstring hstart hstop => ?_⟩
    · rw [Text.lastLine_append, if_neg hx, Text.lastLine_of_not_mem h.newline_not_mem]
    · have := hcut n hn hstring hstop
      omega

theorem exists_hashLine (hs : s.Accepted) (hcode : code = x ++ c :: y)
    (hcomment : Cleaning.isComment (lastLine (lead ++ x) ++ firstLine (c :: y))) :
    ∃ u w v, HashLine s.text s.root u w v ∧ u.count '\n' = e.firstRow + x.count '\n' ∧
      u <+: before ++ x := by
  obtain ⟨u, blanks, shown, hu, hlast, hblank, hnewline, hcut⟩ := h.exists_shown hs hcode
  have hfirst := Text.firstLine_append_of_not_mem hnewline (c :: y)
  obtain ⟨tail, htail⟩ := Text.firstLine_prefix (shown ++ c :: y)
  rw [hlast, List.append_assoc, ← hfirst, isComment_append hblank] at hcomment
  obtain ⟨w, v, hline, hw⟩ := exists_of_isComment hcomment
  refine ⟨u, w, v ++ tail ++ rest, ⟨?_, hw, fun hmem => ?_, hcut⟩, ?_, ⟨shown, hu.symm⟩⟩
  · rw [hline] at htail
    calc s.text = before ++ x ++ c :: y ++ rest := by simp [h.text_eq, hcode]
      _ = u ++ (shown ++ c :: y) ++ rest := by rw [hu, List.append_assoc u]
      _ = u ++ w ++ '#' :: (v ++ tail ++ rest) := by simp [← htail]
  · obtain ⟨w₁, w₂, rfl⟩ := List.append_of_mem hmem
    rw [List.append_assoc, List.cons_append] at hline
    have hnil := Text.eq_nil_of_line_eq (Text.firstLine_mem (by simp)) hline
    simp at hnil
  · have hcount := congrArg (List.count '\n') hu
    rw [List.count_append, List.count_append, List.count_eq_zero_of_not_mem hnewline] at hcount
    rw [h.firstRow_eq]
    omega

theorem exists_line (hcode : code = x ++ c :: y) (hc : c ∉ separators) :
    ∃ line, e.codeLines[x.count '\n']? = some line ∧ ¬Text.isBlankLine line := by
  refine ⟨_, h.getElem?_codeLines hcode, fun hblank => ?_⟩
  have hmem : c ∈ lastLine (lead ++ x) ++ firstLine (c :: y) := by
    by_cases hnewline : c = '\n'
    · exact absurd (by rw [hnewline]; decide) hc
    · rw [firstLine, Text.splitLines_cons hnewline]
      simp
  exact hc (mem_separators_of_isBlank (List.all_eq_true.1 hblank c hmem))

theorem exists_cut (hs : s.Accepted) (hm : m ∈ d.tokens)
    (hrow : m.start.row = e.firstRow + row) : ∃ x c y,
    code = x ++ c :: y ∧ c ∉ separators ∧ row = x.count '\n' ∧
      byteSize (before ++ x) = m.start.byte := by
  obtain ⟨hroot, hstart, hstop⟩ := h.tokens m hm
  have hwidth := (mem_tokens.1 hroot).2.2.2.2
  simp only [hasWidth, decide_eq_true_eq] at hwidth
  have htext := h.text_eq
  obtain ⟨t, c, u, after, hT, hplace, -, hc⟩ := hs.tree.exists_token hroot
  rw [List.append_assoc, List.cons_append] at hT
  rw [hplace, Location.origin_after_byte] at hstart hwidth
  obtain ⟨x, y, rfl, rfl, -⟩ := Text.exists_cut (htext.symm.trans hT) hstart (by omega)
  refine ⟨x, c, y, rfl, hc, ?_, by rw [hplace, Location.origin_after_byte]⟩
  rw [hplace, Location.origin_after_row, List.count_append, h.firstRow_eq] at hrow
  omega

theorem token_line (hs : s.Accepted) (hm : m ∈ d.tokens)
    (hrow : m.start.row = e.firstRow + row) :
    ∃ line, e.codeLines[row]? = some line ∧ ¬Text.isBlankLine line ∧
      (Cleaning.isComment line → ∃ t ∈ s.root.inner, t.kind = .string ∧
        t.start.row < e.firstRow + row ∧ e.firstRow + row ≤ t.stop.row) := by
  obtain ⟨x, c, y, hcode, hc, rfl, hbyte⟩ := h.exists_cut hs hm hrow
  obtain ⟨line, hline, hblank⟩ := h.exists_line hcode hc
  obtain rfl := Option.some.inj (hline.symm.trans (h.getElem?_codeLines hcode))
  refine ⟨_, hline, hblank, fun hcomment => ?_⟩
  obtain ⟨u, w, v, hhash, hcount, hprefix⟩ := h.exists_hashLine hs hcode hcomment
  have hle := Text.byteSize_le_of_infix hprefix.isInfix
  rw [← hcount] at hrow ⊢
  exact hhash.exists_string hs.tree (h.tokens m hm).1 (by omega) hrow

theorem firstRow_le_row (hs : s.Accepted) (hm : m ∈ d.tokens) : e.firstRow ≤ m.start.row := by
  obtain ⟨hroot, hstart, -⟩ := h.tokens m hm
  have hbefore : Place s.text (Location.origin.after before) :=
    ⟨before, ⟨code ++ rest, by rw [h.text_eq, List.append_assoc]⟩, rfl⟩
  have hrow := hbefore.row_le (hs.tree.sound m (mem_tokens.1 hroot).1).start
    (by rwa [Location.origin_after_byte])
  rwa [Location.origin_after_row, ← h.firstRow_eq] at hrow

/-- The rows that belong to the docstring are those that it is on in the source. -/
theorem docstring_rows (hrow : e.inDocstring row) : ∃ range, e.docstring = some range ∧
    range.start.row ≤ e.firstRow + row ∧ e.firstRow + row ≤ range.stop.row := by
  unfold Entity.inDocstring at hrow
  cases hdocstring : e.docstring with
  | none => simp [hdocstring] at hrow
  | some range =>
      have hle := h.docstring range hdocstring
      simp only [hdocstring, h.relative_line, Bool.and_eq_true, decide_eq_true_eq] at hrow
      exact ⟨range, rfl, by omega, by omega⟩

omit h in
theorem module (hs : s.Accepted) (docstring : Option DocumentRange) :
    Shows s s.root (s.moduleEntity docstring) [] [] s.text [] := by
  refine ⟨rfl, (List.append_nil _).symm, rfl, by simp, .inl rfl, fun m hm => ?_, fun p => ?_,
    fun _ _ => Nat.zero_le _⟩
  · exact ⟨hm, Nat.zero_le _, (hs.tree.sound m (mem_tokens.1 hm).1).stop.byte_le⟩
  · have := p.line.toNat_lt
    rw [show Entity.relative (s.moduleEntity docstring) p = p.relativeTo 1 from rfl,
      Position.relativeTo, UInt32.toNat_ofNat']
    exact Nat.mod_eq_of_lt (by omega)

end Shows

theorem Analysis.Source.Accepted.token_bounds (hs : s.Accepted) (hstands : Stands s d before rest)
    (hd : d ∈ s.root.inner) (hm : m ∈ d.tokens) : m ∈ s.root.tokens ∧
      byteSize before ≤ m.start.byte ∧ m.stop.byte ≤ byteSize (before ++ s.definitionText d) := by
  obtain ⟨hin, hleaf, hextra, htext, hwidth⟩ := mem_tokens.1 hm
  have hnested := hs.tree.nested_of_mem hd
  have hsub : m.isSubstantial := by
    have hcomment : ¬m.isComment := by
      intro hcomment
      exact hextra (by rw [isExtra, of_decide_eq_true hcomment]; rfl)
    simp [isSubstantial, hcomment, hwidth]
  have hend : m.logicalEnd = m.stop := by
    obtain ⟨k, r, a, b, cs⟩ := m
    obtain rfl : cs = [] := hleaf
    rfl
  have hcomments : ∀ c ∈ d.inner, c.isComment → m ∉ c.inner := by
    intro c hc hcomment
    simp [inner_of_leaf (hs.tree.children_of_comment (inner_trans hd hc) hcomment)]
  have hstop := logicalEnd_mono hnested hin hsub hcomments
  have hstart := (within_bounds.1 d hnested m hin).1
  rw [hend, hstands.stop, Location.origin_after_byte] at hstop
  rw [hstands.start, Location.origin_after_byte] at hstart
  exact ⟨mem_tokens.2 ⟨inner_trans hd hin, hleaf, hextra, htext, hwidth⟩, hstart, hstop⟩

namespace Shows

theorem firstRow_le (hs : s.Accepted) (hd : Describes s b d n) {range : DocumentRange}
    (hrange : n.docstring = some range) : d.start.row ≤ range.stop.row := by
  rw [hd.docstring] at hrange
  obtain ⟨literal, hliteral, -, rfl⟩ := Source.docstringRange?_eq_some hrange
  have hin := inner_trans hd.mem hliteral
  have hroot : literal ∈ s.root.preorder := mem_preorder.2 (.inr hin)
  have hbounds := within_bounds.1 d (hs.tree.nested_of_mem hd.mem) literal hliteral
  have hsound := hs.tree.sound literal hin
  have hstart := (hs.tree.sound d hd.mem).start.row_le hsound.start hbounds.1
  have hstop := hsound.start.row_le hsound.stop hbounds.2.1
  have hregular := hs.tree.regular
  unfold Range.ofLocations
  simp only
  split
  · rwa [ofLocation_row (hregular.fits_start hroot)]
  · rw [ofLocation_row (hregular.fits_stop hroot)]
    omega

theorem named (hs : s.Accepted) (hstands : Stands s d before rest) (hd : Describes s b d n)
    (hn : e.named? = some n) : Shows s d e (s.lead b d) before (s.definitionText d) rest := by
  have hregular := hs.tree.regular
  have hfits := hregular.fits_start (mem_preorder.2 (.inr hd.mem))
  obtain ⟨hcode, hfirst, hrelative, hdocstring⟩ := Entity.parts_of_named hn
  have hrow : e.firstRow = d.start.row := by
    rw [hfirst, hd.range, rangeOf_eq hregular hd.mem, ofLocation_row hfits]
  refine ⟨?_, hs.text_eq hstands, ?_, newline_not_mem_lead hstands b, ?_,
    fun m hm => hs.token_bounds hstands hd.mem hm, fun p => ?_, fun range hrange => ?_⟩
  · rw [hcode, hd.code]
  · rw [hrow, hstands.start, Location.origin_after_row]
  · cases b with
    | symbols => exact .inl hstands.margin
    | structural =>
        refine .inr ⟨fun c hc => ?_, fun l hl hstring hstop => ?_⟩
        · obtain ⟨c', -, rfl⟩ := List.mem_map.1 hc
          split
          · rename_i htab
            rcases htab with rfl | rfl <;> decide
          · decide
        · have hbyte : d.start.byte = byteSize before := by
            rw [hstands.start, Location.origin_after_byte]
          have hwidth := (hs.tree.sound d hd.mem).within.le
          rcases hs.tree.mem_or_apart_of_string hl hstring hd.mem hd.isDefinition with
            hin | hapart | hapart
          · have := within_bounds.1 d (hs.tree.nested_of_mem hd.mem) l hin
            omega
          · omega
          · omega
  · rw [hrelative, hs.relative_line hd, hrow, Position.row]
    omega
  · rw [hrow]
    exact firstRow_le hs hd (hdocstring.symm.trans hrange)

end Shows

/-- What a query finds shows a definition that it admits, or the module. -/
theorem exists_shows {a : Analyzer} {scope : QueryScope} {cursor : DocumentPosition}
    (hparse : parse.Faithful) (h : Source.parse parse text = .ok s)
    (ha : Analyzer.create parse b text = .ok a)
    (he : a.find scope cursor = .ok (some e)) : ∃ d lead before code rest,
      Shows s d e lead before code rest ∧
      (e.named?.isSome ∧ Deepest cursor s.root scope.Admits d ∨ e.kind = .module ∧ d = s.root) := by
  have hs := hparse.accepted h
  rcases find_eq_some hparse h ha he with ⟨d, n, hdeep, hn, hd⟩ | ⟨-, rfl⟩
  · obtain ⟨before, rest, hstands⟩ := hs.stands hd.mem hd.isDefinition
    exact ⟨d, _, before, _, rest, .named hs hstands hd hn, .inl ⟨by simp [hn], hdeep⟩⟩
  · exact ⟨s.root, [], [], s.text, [], .module hs _, .inr ⟨rfl, rfl⟩⟩

/-- A line with code on it goes with the docstring that is on it too, or as a comment if its `#` is in
a string literal from an earlier row. Any other line on which a token starts or ends is still
there. -/
theorem clean_present {a : Analyzer} {scope : QueryScope} {cursor : DocumentPosition}
    {skip : List String} (hparse : parse.Faithful) (h : Source.parse parse text = .ok s)
    (ha : Analyzer.create parse b text = .ok a)
    (he : a.find scope cursor = .ok (some e))
    (hskip : ∀ name ∈ skip, ∃ m ∈ e.supportedMethods, m.name = name) : ∃ d cleaned,
      (e.named?.isSome ∧ Deepest cursor s.root scope.Admits d ∨ e.kind = .module ∧ d = s.root) ∧
      e.clean skip = .ok cleaned ∧ ∀ m ∈ d.tokens, ∀ l, l = m.start ∨ l = m.stop →
        ∃ row line, l.row = e.firstRow + row ∧ e.codeLines[row]? = some line ∧
          (Present line cleaned ∨
            "docstring" ∉ skip ∧ (∃ range, e.docstring = some range ∧
              range.start.row ≤ l.row ∧ l.row ≤ range.stop.row) ∨
            "comments" ∉ skip ∧ Cleaning.isComment line ∧
              ∃ t ∈ s.root.inner,
                t.kind = .string ∧ t.start.row < l.row ∧ l.row ≤ t.stop.row) := by
  have hs := hparse.accepted h
  obtain ⟨d, lead, before, code, rest, hshows, hd⟩ := exists_shows hparse h ha he
  refine ⟨d, _, hd, Entity.clean_of_supported hskip, fun m hm l hl => ?_⟩
  obtain ⟨row, hrow⟩ := Nat.exists_eq_add_of_le (hshows.firstRow_le_row hs hm)
  obtain ⟨line, hline, hblank, hcomment⟩ := hshows.token_line hs hm hrow
  have hl : l.row = e.firstRow + row := by
    obtain ⟨-, -, -, -, -, -, hsame, -⟩ := hs.tree.exists_token (hshows.tokens m hm).1
    rcases hl with rfl | rfl
    · exact hrow
    · exact hsame.trans hrow
  refine ⟨row, line, hl, hline, ?_⟩
  -- Of the methods only these two drop a line that is not blank.
  by_cases hdropped : ∃ method ∈ e.supportedMethods.filter (·.name ∉ skip), e.drops row line method
  · obtain ⟨method, hmethod, hdrops⟩ := hdropped
    have hname : method.name ∉ skip := by simpa using (List.mem_filter.1 hmethod).2
    rw [hl]
    cases method with
    | docstring => exact .inr (.inl ⟨hname, hshows.docstring_rows hdrops⟩)
    | comments => exact .inr (.inr ⟨hname, hdrops, hcomment hdrops⟩)
    | blankLines => exact absurd hdrops hblank
    | indentation => cases hdrops
  · refine .inl (Entity.cleanWith_present hline (fun method hmethod => ?_) hblank)
    exact Bool.eq_false_iff.2 fun hdrops => hdropped ⟨method, hmethod, hdrops⟩

theorem clean_present_method : ∃ s a e,
    Source.parse python "class A:\n\tdef f(self):\n\t\t'doc'\n\t\treturn 0\n".toList = .ok s ∧
    Analyzer.create python .symbols "class A:\n\tdef f(self):\n\t\t'doc'\n\t\treturn 0\n".toList =
      .ok a ∧
    a.find .function ⟨3, 4⟩ = .ok (some e) ∧
    (∀ name ∈ ["blank_lines"], ∃ m ∈ e.supportedMethods, m.name = name) ∧ ∃ d cleaned,
      (e.named?.isSome ∧ Deepest ⟨3, 4⟩ s.root QueryScope.function.Admits d ∨
        e.kind = .module ∧ d = s.root) ∧
      e.clean ["blank_lines"] = .ok cleaned ∧ ∀ m ∈ d.tokens, ∀ l, l = m.start ∨ l = m.stop →
        ∃ row line, l.row = e.firstRow + row ∧ e.codeLines[row]? = some line ∧
          (Present line cleaned ∨
            "docstring" ∉ ["blank_lines"] ∧ (∃ range, e.docstring = some range ∧
              range.start.row ≤ l.row ∧ l.row ≤ range.stop.row) ∨
            "comments" ∉ ["blank_lines"] ∧ Cleaning.isComment line ∧
              ∃ t ∈ s.root.inner,
                t.kind = .string ∧ t.start.row < l.row ∧ l.row ≤ t.stop.row) := by
  obtain ⟨s, hs⟩ := exists_eq_ok (x := Source.parse python
    "class A:\n\tdef f(self):\n\t\t'doc'\n\t\treturn 0\n".toList) (by decide +kernel)
  have hmethod : (Analyzer.create python .symbols
      "class A:\n\tdef f(self):\n\t\t'doc'\n\t\treturn 0\n".toList >>=
      (·.find .function ⟨3, 4⟩)).toOption.any Option.isSome := by decide +kernel
  obtain ⟨found, hfound, hsome⟩ := (Option.any_eq_true _ _).1 hmethod
  obtain ⟨e, rfl⟩ := Option.isSome_iff_exists.1 hsome
  obtain ⟨a, ha, he⟩ := bind_eq_ok.1 (toOption_eq_some.1 hfound)
  have hskip : ∀ name ∈ ["blank_lines"], ∃ m ∈ e.supportedMethods, m.name = name := by
    intro name hname
    obtain rfl := List.mem_singleton.1 hname
    exact ⟨.blankLines, by simp [Entity.supportedMethods, CleaningMethod.all], rfl⟩
  exact ⟨s, a, e, hs, ha, he, hskip, clean_present python_faithful hs ha he hskip⟩

/-- A header goes with a docstring on its line, and the end of a string literal as a comment. -/
theorem lost_reachable :
    (∃ s e, Source.parse python "def f(): \"Doc.\"\n".toList = .ok s ∧
      (Analyzer.create python .structural "def f(): \"Doc.\"\n".toList >>= (·.find .context ⟨1, 1⟩)) =
        .ok (some (.functionDef e)) ∧
      (∃ m ∈ s.root.tokens, m.kind = .mark "def" ∧ m.start.row = 0) ∧
      (Entity.functionDef e).codeLines[0]? = some "def f(): \"Doc.\"".toList ∧
      ∃ cleaned, (Entity.functionDef e).clean [] = .ok cleaned ∧
        ¬Present "def f(): \"Doc.\"".toList cleaned) ∧
    ∃ s e, Source.parse python "def f():\n    x = '''\n#'''\n    return x\n".toList = .ok s ∧
      (Analyzer.create python .structural "def f():\n    x = '''\n#'''\n    return x\n".toList >>=
        (·.find .context ⟨1, 1⟩)) = .ok (some (.functionDef e)) ∧ e.docstring = none ∧
      (∃ m ∈ s.root.tokens, m.kind = .stringEnd ∧ m.stop.row = 2) ∧
      (Entity.functionDef e).codeLines[2]? = some "#'''\n".toList ∧
      ∃ cleaned, (Entity.functionDef e).clean [] = .ok cleaned ∧
        ¬Present "#'''\n".toList cleaned := by
  have hheader : (Source.parse python "def f(): \"Doc.\"\n".toList).toOption.any fun s =>
      s.root.tokens.any fun m => m.kind = .mark "def" ∧ m.start.row = 0 := by decide +kernel
  have hliteral : (Source.parse python "def f():\n    x = '''\n#'''\n    return x\n".toList).toOption.any
      fun s => s.root.tokens.any fun m => m.kind = .stringEnd ∧ m.stop.row = 2 := by decide +kernel
  obtain ⟨s, hs, hheader⟩ := (Option.any_eq_true _ _).1 hheader
  obtain ⟨s', hs', hliteral⟩ := (Option.any_eq_true _ _).1 hliteral
  constructor
  · refine ⟨s, ⟨"f", "def f(): \"Doc.\"".toList, ⟨⟨1, 0⟩, ⟨1, 15⟩⟩, ⟨1, 8⟩,
      some ⟨⟨1, 9⟩, ⟨1, 15⟩⟩, 0, "def f(): \"Doc.\"\n".toList⟩, toOption_eq_some.1 hs,
      by decide +kernel, by simpa using hheader, by decide, [], by decide, fun h => ?_⟩
    exact absurd (h.mem (c := 'd') (by decide) (by decide)) (by decide)
  · refine ⟨s', ⟨"f", "def f():\n    x = '''\n#'''\n    return x".toList, ⟨⟨1, 0⟩, ⟨4, 12⟩⟩,
      ⟨1, 8⟩, none, 0, "def f():\n    x = '''\n#'''\n    return x\n".toList⟩,
      toOption_eq_some.1 hs', by decide +kernel, rfl, by simpa using hliteral, by decide,
      "def f():\n    x = '''\n    return x".toList, by decide, fun h => ?_⟩
    exact absurd (h.mem (c := '#') (by decide) (by decide)) (by decide)

end DocstringEditor
