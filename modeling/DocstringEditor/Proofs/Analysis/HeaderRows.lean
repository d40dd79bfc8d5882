import DocstringEditor.Proofs.Analysis.Signature

namespace DocstringEditor.Text

/-- A text that ends a line is in front of one with as many lines. -/
theorem prefix_of_count_le {t v w : Text} (ht : t <+: w) (hv : v <+: w) (hline : lastLine t = [])
    (hle : t.count '\n' ≤ v.count '\n') : t <+: v := by
  rcases List.prefix_or_prefix_of_prefix ht hv with hin | ⟨x, rfl⟩
  · exact hin
  · rw [List.count_append] at hle
    have hnewline : '\n' ∉ x := List.count_eq_zero.1 (by omega)
    rw [lastLine_append, if_neg hnewline, List.append_eq_nil_iff] at hline
    simp [hline.2]

end DocstringEditor.Text

namespace DocstringEditor.Header

open Analysis.Structural (headerLines)
open Text (splitLines lastLine)

variable {t u v x : Text}

/-- A colon above a row is found whatever stands from that row on. -/
theorem Parts.replace (h : Parts 0 (t ++ x) u v) (hcount : u.count '\n' < t.count '\n') (y : Text) :
    ∃ v', Parts 0 (t ++ y) u v' := by
  have hcolon : (u ++ [':']).count '\n' = u.count '\n' := by
    rw [List.count_append]
    rfl
  have hwhole : u ++ [':'] <+: t ++ x := ⟨v, by rw [h.text, List.append_assoc]; rfl⟩
  obtain ⟨w, rfl⟩ : u ++ [':'] <+: t := by
    rcases List.prefix_or_prefix_of_prefix hwhole (List.prefix_append t x) with hin | ⟨w, hw⟩
    · exact hin
    · rw [← hw, List.count_append] at hcolon
      omega
  cases w with
  | nil =>
      rw [List.append_nil, hcolon] at hcount
      exact absurd hcount (Nat.lt_irrefl _)
  | cons c w =>
      have htext := h.text
      simp only [List.append_assoc, List.cons_append,
        List.append_cancel_left_eq, List.cons.injEq, true_and] at htext
      have hsingle := h.single
      rw [← htext] at hsingle
      exact ⟨c :: w ++ y, by simp, hsingle, h.reads.congr rfl⟩

/-- The lines of a header are whole above the row that a body starts on. -/
theorem prefix_flatten_headerLines {start body : DocumentPosition} (hline : lastLine t = [])
    (hle : t.count '\n' ≤ body.row - start.row)
    (hlt : body.row - start.row < (splitLines (t ++ x)).length) :
    t <+: (headerLines (t ++ x) start body).flatten := by
  have hlines : (splitLines (t ++ x)).take (body.row - start.row + 1) =
      (splitLines (t ++ x)).take (body.row - start.row) ++
        [(splitLines (t ++ x))[body.row - start.row]] := by
    rw [List.take_add_one, List.getElem?_eq_getElem hlt]
    rfl
  obtain ⟨k, hk⟩ := Nat.exists_eq_add_of_le hle
  have htake : t <+: ((splitLines (t ++ x)).take (body.row - start.row)).flatten := by
    rw [hk, List.take_add, List.flatten_append, Text.take_splitLines_append hline]
    exact List.prefix_append _ _
  unfold headerLines
  simp only [hlines, List.getLast?_concat, List.dropLast_concat, List.flatten_append]
  exact htake.trans (List.prefix_append _ _)

end DocstringEditor.Header

namespace DocstringEditor.Analysis.Source

open Header (Parts)
open Syntax Syntax.Node
open Text (byteSize lastLine splitLines)

variable {s : Source} {d body : Node} {above below : Text} {stop : DocumentPosition}

/-- A body starts inside of the text of its definition. -/
theorem Accepted.exists_bodyText (h : s.Accepted) (hd : d ∈ s.root.inner) (hbody : body ∈ d.inner)
    (hsub : body.isSubstantial) {before rest : Text} (hs : Stands s d before rest) :
    ∃ v c code, s.definitionText d = v ++ c :: code ∧
      body.start = Location.origin.after (before ++ v) := by
  have hlt := h.start_lt_logicalEnd hd hbody hsub
  have hge := (within_bounds.1 d (h.tree.nested_of_mem hd) body hbody).1
  rw [hs.start, Location.origin_after_byte] at hge
  rw [hs.stop, Location.origin_after_byte] at hlt
  have htext := h.text_eq hs
  obtain ⟨v, behind, hbehind, hstart⟩ := (h.tree.sound body (inner_trans hd hbody)).start.exists_after
    (htext.trans (List.append_assoc ..)) hge
  rw [hstart, Location.origin_after_byte, Text.byteSize_append, Text.byteSize_append,
    Nat.add_lt_add_iff_left] at hlt
  obtain ⟨code, hcode⟩ : v <+: s.definitionText d :=
    Text.prefix_of_byteSize_le ⟨behind, hbehind.symm⟩ (List.prefix_append _ rest) (Nat.le_of_lt hlt)
  cases code with
  | nil =>
      rw [← hcode, List.append_nil] at hlt
      exact absurd hlt (Nat.lt_irrefl _)
  | cons c code => exact ⟨v, c, code, hcode.symm, hstart⟩

/-- What is above a row and behind the start of a definition is in its header as it is, if the body
does not start above that row. -/
theorem Accepted.header_above (h : s.Accepted) (hd : d ∈ s.root.inner) (hdef : d.isDefinition)
    (hbody : body ∈ d.inner) (hsub : body.isSubstantial) (htext : s.text = above ++ below)
    (hline : lastLine above = []) (hrow : d.start.row < above.count '\n')
    (hle : above.count '\n' ≤ body.start.row) : ∃ before front extra,
      above = before ++ front ∧ d.start = Location.origin.after before ∧
      s.margin d = lastLine before ∧
      (s.header d body).flatten = Structural.padding (s.margin d) ++ front ++ extra := by
  obtain ⟨before, rest, hs⟩ := h.stands hd hdef
  obtain ⟨v, c, code, hcode, hbodyStart⟩ := h.exists_bodyText hd hbody hsub hs
  have hstart := hs.start
  have hwhole : before ++ (v ++ c :: code ++ rest) = above ++ below := by
    rw [← hcode, ← List.append_assoc, ← h.text_eq hs, htext]
  rw [hstart, Location.origin_after_row] at hrow
  rw [hbodyStart, Location.origin_after_row] at hle
  obtain ⟨front, rfl⟩ : before <+: above := by
    rcases List.prefix_or_prefix_of_prefix ⟨_, hwhole⟩ (List.prefix_append above below) with
      hin | ⟨t, ht⟩
    · exact hin
    · rw [← ht, List.count_append] at hrow
      omega
  obtain ⟨v', hv⟩ : before ++ front <+: before ++ v :=
    Text.prefix_of_count_le ⟨below, rfl⟩ ⟨c :: code ++ rest, by simpa using hwhole⟩ hline hle
  obtain ⟨tail, rfl⟩ : front <+: v :=
    ⟨v', by rwa [List.append_assoc, List.append_cancel_left_eq] at hv⟩
  rw [List.count_append] at hrow
  have hmem : '\n' ∈ front := List.count_pos_iff.1 (by omega)
  rw [Text.lastLine_append, if_pos hmem] at hline
  obtain ⟨lead, hlead⟩ : ∃ lead, lead = Structural.padding (s.margin d) := ⟨_, rfl⟩
  have hnewline : lead.count '\n' = 0 :=
    List.count_eq_zero_of_not_mem (hlead ▸ newline_not_mem_padding _)
  have hrows := h.row_sub_row hd (inner_trans hd hbody) hstart hbodyStart
  have hfront : lastLine (lead ++ front) = [] := by
    rw [Text.lastLine_append, if_pos hmem, hline]
  have hcode' : lead ++ s.definitionText d = lead ++ front ++ (tail ++ c :: code) := by
    rw [hcode]
    simp only [List.append_assoc]
  have hlength := (List.getElem?_eq_some_iff.1
    (Text.getElem?_splitLines (lead ++ (front ++ tail)) code c)).1
  rw [List.append_assoc lead, ← hcode, List.count_append, hnewline, Nat.zero_add, ← hrows,
    hcode'] at hlength
  obtain ⟨extra, hextra⟩ := Header.prefix_flatten_headerLines hfront (by
    rw [hrows, List.count_append, List.count_append, hnewline]
    omega) hlength
  refine ⟨before, front, extra, rfl, hstart, hs.margin, ?_⟩
  rw [header, ← hlead, hcode', hextra]

/-- The end of a signature is on the row of a colon that is found in the header. -/
theorem Accepted.headerEnd_row (h : s.Accepted) (hd : d ∈ s.root.inner) (hdef : d.isDefinition)
    (hstop : Structural.headerEnd? (s.header d body) (.ofLocation d.start) = some stop) :
    ∃ u v, Parts 0 (s.header d body).flatten u v ∧ stop.row = d.start.row + u.count '\n' := by
  obtain ⟨u, v, hparts, rfl⟩ := h.headerEnd_eq hd hdef hstop
  have hrows := h.rows_header_lt hd hdef body
  rw [hparts.1.text, List.count_append] at hrows
  refine ⟨u, v, hparts.1, ?_⟩
  rw [Position.row, UInt32.toNat_ofNat_of_lt' (by omega), Nat.add_sub_cancel]

end DocstringEditor.Analysis.Source
