import DocstringEditor.Analysis.Structural
import DocstringEditor.Proofs.Header.Scan
import DocstringEditor.Proofs.Text.Terminated

namespace DocstringEditor.Header

open Analysis.Structural (headerLines)
open Syntax (Location)
open Text (IsTerminated byteSize firstLine lastLine splitLines stripLineEnding)

variable {a : Colon} {l : Location} {c : Char} {skip depth : Nat} {line t u v : Text}

namespace Colon

def Before (a b : Colon) : Prop := a.line < b.line ∨ a.line = b.line ∧ a.stop < b.stop

def ofPlace (l : Location) : Colon := ⟨l.row, l.column + 1⟩

/-- Whether a line has a colon right before the column, with no `=` behind it. -/
def StandsIn (a : Colon) (line : Text) : Prop :=
  ∃ u v, line = u ++ ':' :: v ∧ a.stop = byteSize u + 1 ∧ v.head? ≠ some '='

/-- What stands behind the colon can be cut off a line without its terminator. -/
theorem StandsIn.dropBytes (h : a.StandsIn line) :
    ∃ rest, Text.dropBytes (stripLineEnding line) a.stop = some rest := by
  obtain ⟨u, v, rfl, hstop, -⟩ := h
  have hsize : byteSize (u ++ [':']) = a.stop := by
    rw [hstop, Text.byteSize_append]
    rfl
  have hlast : (u ++ [':']).getLast? = some ':' := List.getLast?_concat
  rw [List.append_cons, ← hsize]
  by_cases hv : v = []
  · rw [hv, List.append_nil, Text.stripLineEnding_of_getLast?_ne (by simp [hlast])]
    exact ⟨[], by simpa using Text.dropBytes_append (u ++ [':']) []⟩
  · rw [Text.stripLineEnding_append (by simp [hlast]) hv]
    exact ⟨_, Text.dropBytes_append _ _⟩

end Colon

theorem colonsFrom_cons (skip depth : Nat) (l : Location) (c : Char) (t : Text) :
    ∃ skip' depth',
      colonsFrom skip depth l.row l.column (c :: t) =
        colonsFrom skip' depth' (l.advance c).row (l.advance c).column t ∨
      (c = ':' ∧ t.head? ≠ some '=' ∧ colonsFrom skip depth l.row l.column (c :: t) =
        .ofPlace l :: colonsFrom skip' depth' (l.advance c).row (l.advance c).column t) := by
  cases skip with
  | succ n => exact ⟨n, depth, .inl (colonsFrom_succ n depth l c t)⟩
  | zero =>
      by_cases hc : c ∈ punctuation
      · have hkind : c ∈ ['(', '[', '{'] ∨ c ∈ [')', ']', '}'] ∨ c = ':' := by
          simpa [punctuation, or_assoc] using hc
        rcases hkind with hopening | hclosing | rfl
        · exact ⟨0, depth + 1, .inl (colonsAt_opening hopening)⟩
        · exact ⟨0, depth - 1, .inl (colonsAt_closing hclosing)⟩
        · have hcolon := @colonsAt_colon l t depth
          split at hcolon
          · rename_i hfound
            exact ⟨0, depth, .inr ⟨rfl, hfound.2, hcolon⟩⟩
          · exact ⟨0, depth, .inl hcolon⟩
      · obtain ⟨n, hn⟩ := Nat.exists_eq_add_of_lt (stepLength_pos c t)
        have hstep := @colonsAt_step l c t depth hc
        refine ⟨n, depth, .inl (hstep.trans ?_)⟩
        rw [hn, colonsFrom_eq, Nat.zero_add]
        rfl

theorem exists_of_mem_colonsFrom (h : a ∈ colonsFrom skip depth l.row l.column t) :
    ∃ u v, t = u ++ ':' :: v ∧ v.head? ≠ some '=' ∧ a = .ofPlace (l.after u) := by
  induction t generalizing skip depth l with
  | nil => simp [colonsFrom] at h
  | cons c t ih =>
      have behind {skip' depth' : Nat}
          (h : a ∈ colonsFrom skip' depth' (l.advance c).row (l.advance c).column t) :
          ∃ u v, c :: t = u ++ ':' :: v ∧ v.head? ≠ some '=' ∧ a = .ofPlace (l.after u) := by
        obtain ⟨u, v, rfl, hv, ha⟩ := ih h
        exact ⟨c :: u, v, rfl, hv, ha⟩
      obtain ⟨skip', depth', hnone | ⟨rfl, ht, hfound⟩⟩ := colonsFrom_cons skip depth l c t
      · exact behind (hnone ▸ h)
      · rcases List.mem_cons.1 (hfound ▸ h) with rfl | h
        · exact ⟨[], t, rfl, ht, rfl⟩
        · exact behind h

theorem colonsFrom_pairwise (skip depth : Nat) (l : Location) (t : Text) :
    (colonsFrom skip depth l.row l.column t).Pairwise Colon.Before := by
  induction t generalizing skip depth l with
  | nil => exact List.Pairwise.nil
  | cons c t ih =>
      obtain ⟨skip', depth', hnone | ⟨rfl, -, hfound⟩⟩ := colonsFrom_cons skip depth l c t
      · rw [hnone]
        exact ih skip' depth' _
      · rw [hfound]
        refine List.pairwise_cons.2 ⟨fun a ha => ?_, ih skip' depth' _⟩
        obtain ⟨u, v, -, -, rfl⟩ := exists_of_mem_colonsFrom ha
        have hle := Location.le_after (l.advance ':') u
        have hcolumn : (l.advance ':').column = l.column + 1 := rfl
        rw [Syntax.Location.le_def, hcolumn] at hle
        exact hle.imp_right fun hrow => ⟨hrow.1, Nat.lt_succ_of_le hrow.2⟩

theorem exists_line_of_mem (h : a ∈ topLevelColons t) :
    ∃ line, (splitLines t)[a.line]? = some line ∧ a.StandsIn line := by
  obtain ⟨u, v, rfl, hv, rfl⟩ := exists_of_mem_colonsFrom (l := .origin) h
  have hline : firstLine (':' :: v) = ':' :: firstLine v := by
    rw [firstLine, Text.splitLines_cons (by decide)]
    rfl
  refine ⟨lastLine u ++ firstLine (':' :: v), ?_, lastLine u, firstLine v, by rw [hline], ?_, ?_⟩
  · rw [Colon.ofPlace, Location.origin_after_row]
    exact Text.getElem?_splitLines u v ':'
  · rw [Colon.ofPlace, Location.origin_after_column]
  · intro hhead
    obtain ⟨w, hw⟩ := Text.firstLine_prefix v
    obtain ⟨rest, hrest⟩ := List.head?_eq_some_iff.1 hhead
    exact hv (by rw [← hw, hrest]; rfl)

theorem takeBytes_prefix_self (t : Text) (n : Nat) : (Text.takeBytes t n).getD t <+: t := by
  rw [Text.takeBytes]
  cases hsplit : Text.splitAtByte t n with
  | none => exact List.prefix_refl t
  | some parts => exact ⟨parts.2, (Text.eq_append_of_splitAtByte hsplit).1.symm⟩

/-- All lines of a header but the last one have a line feed, and the last one has none. -/
theorem headerLines_eq (code : Text) (start body : DocumentPosition) :
    headerLines code start body = [] ∨ ∃ (ls : List Text) (v : Text),
      (∀ line ∈ ls, IsTerminated line) ∧ '\n' ∉ v ∧ headerLines code start body = ls ++ [v] := by
  unfold headerLines
  dsimp only
  obtain ⟨rest, hcode⟩ : ∃ rest, splitLines code =
      (splitLines code).take (body.row - start.row + 1) ++ rest :=
    ⟨_, (List.take_append_drop _ _).symm⟩
  generalize (splitLines code).take (body.row - start.row + 1) = lines at hcode ⊢
  rcases List.eq_nil_or_concat lines with rfl | ⟨ls, last, rfl⟩
  · exact .inl rfl
  · rw [List.concat_eq_append] at hcode ⊢
    simp only [List.getLast?_concat, List.dropLast_concat]
    have hlast : '\n' ∉ stripLineEnding last :=
      Text.newline_not_mem_stripLineEnding (t := code) (by simp [hcode])
    refine .inr ⟨ls, _, fun line hline => ?_,
      fun hmem => hlast ((takeBytes_prefix_self _ _).subset hmem), rfl⟩
    obtain ⟨above, below, rfl⟩ := List.append_of_mem hline
    have hlines : splitLines code = above ++ line :: (below ++ last :: rest) := by
      simpa using hcode
    exact Text.isTerminated_of_splitLines hlines (by simp)

theorem getElem?_headerLines {code : Text} {start body : DocumentPosition} {i : Nat}
    (h : (splitLines (headerLines code start body).flatten)[i]? = some line) :
    (headerLines code start body)[i]? = some line := by
  rcases headerLines_eq code start body with hnil | ⟨ls, v, hls, hv, heq⟩
  · simp [hnil] at h
  · rw [heq, List.flatten_append, Text.splitLines_flatten hls, List.flatten_singleton] at h
    obtain ⟨rest, hrest⟩ := Text.splitLines_prefix_of_not_mem hv
    rw [heq, ← hrest, ← List.append_assoc,
      List.getElem?_append_left (List.getElem?_eq_some_iff.1 h).1, h]

/-- The colons that are found come in increasing order, and each is on a line of the text. The lines
of a header can be cut behind each of its colons. -/
theorem topLevelColons_stand :
    (∀ t, (topLevelColons t).Pairwise Colon.Before ∧ ∀ a ∈ topLevelColons t,
      ∃ line, (splitLines t)[a.line]? = some line ∧ a.StandsIn line) ∧
    ∀ code start body, ∀ a ∈ topLevelColons (headerLines code start body).flatten,
      ∃ line rest, (headerLines code start body)[a.line]? = some line ∧
        Text.dropBytes (stripLineEnding line) a.stop = some rest := by
  refine ⟨fun t => ⟨colonsFrom_pairwise 0 0 .origin t, fun a ha => exists_line_of_mem ha⟩, ?_⟩
  intro code start body a ha
  obtain ⟨line, hline, hstands⟩ := exists_line_of_mem ha
  obtain ⟨rest, hrest⟩ := hstands.dropBytes
  exact ⟨line, rest, getElem?_headerLines hline, hrest⟩

end DocstringEditor.Header
