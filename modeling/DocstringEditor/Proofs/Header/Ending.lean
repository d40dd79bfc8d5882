import Mathlib.Data.List.TakeWhile
import DocstringEditor.Analysis.Structural
import DocstringEditor.Proofs.Header.Reading

namespace DocstringEditor.Header

open Analysis.Structural (headerEnd? headerLines)
open Syntax (Location)
open Text (byteSize firstLine lastLine splitLines stripLineEnding)

variable {p : Char → Bool} {t u v u' v' w rest : Text}

/-- Whether a `#` comes behind characters of a kind on the line. -/
def HashBehind (p : Char → Bool) (v : Text) : Prop :=
  (v.dropWhile fun c => p c && c ≠ '\n').head? = some '#'

instance (p : Char → Bool) : DecidablePred (HashBehind p) :=
  fun _ => inferInstanceAs (Decidable (_ = _))

def lineAround (u v : Text) : Text := lastLine u ++ ':' :: stripLineEnding (firstLine v)

def AtLineEnd (p : Char → Bool) (v : Text) : Prop :=
  HashBehind p v ∨ stripLineEnding (firstLine v) = []

def endColumn (p : Char → Bool) (u v : Text) : Nat :=
  if HashBehind p v then byteSize (lineAround u v) else byteSize (lastLine u) + 1

theorem hashBehind_iff (hp : ¬p '#') : HashBehind p v ↔
    ∃ w rest, v = w ++ '#' :: rest ∧ ∀ c ∈ w, p c ∧ c ≠ '\n' := by
  constructor
  · intro h
    obtain ⟨rest, hrest⟩ := List.head?_eq_some_iff.1 h
    refine ⟨_, rest, (hrest ▸ List.takeWhile_append_dropWhile.symm), fun c hc => ?_⟩
    simpa using List.mem_takeWhile_imp hc
  · rintro ⟨w, rest, rfl, hw⟩
    have hall : ∀ c ∈ w, (p c && c ≠ '\n') = true := by simpa using hw
    rw [HashBehind, List.dropWhile_append_of_pos hall, List.dropWhile_cons_of_neg (by simp [hp])]
    rfl

theorem stripLineEnding_line (u v : Text) :
    stripLineEnding (lastLine u ++ firstLine (':' :: v)) = lineAround u v := by
  have hcolon (t : Text) : stripLineEnding (':' :: t) = ':' :: stripLineEnding t := by
    by_cases ht : t = []
    · rw [ht]
      rfl
    · exact Text.stripLineEnding_append (t := [':']) (by decide) ht
  have hfirst : firstLine (':' :: v) = ':' :: firstLine v := by
    rw [firstLine, Text.splitLines_cons (by decide)]
    rfl
  rw [hfirst, Text.stripLineEnding_append_cons (by decide) (by decide), hcolon, lineAround]

theorem endColumn_of_atLineEnd (h : AtLineEnd p v) (u : Text) :
    endColumn p u v = byteSize (lineAround u v) := by
  unfold endColumn
  split
  · rfl
  · rename_i hhash
    rw [lineAround, h.resolve_left hhash, Text.byteSize_append]
    rfl

theorem endColumn_of_not_atLineEnd (h : ¬AtLineEnd p v) (u : Text) :
    endColumn p u v = byteSize (lastLine u) + 1 ∧ endColumn p u v < byteSize (lineAround u v) := by
  obtain ⟨hhash, hne⟩ := not_or.1 h
  have hpos := Text.byteSize_pos hne
  have hwidth : ':'.utf8Size = 1 := rfl
  rw [endColumn, if_neg hhash, lineAround, Text.byteSize_append, Text.byteSize_cons, hwidth]
  exact ⟨rfl, by omega⟩

theorem endColumn_congr (h : lastLine u = lastLine u') : endColumn p u v = endColumn p u' v := by
  rw [endColumn, endColumn, lineAround, lineAround, h]

theorem endColumn_le (p : Char → Bool) (u v : Text) :
    endColumn p u v ≤ byteSize (u ++ ':' :: v) := by
  have hlast := Text.byteSize_le_of_infix (Text.lastLine_suffix u).isInfix
  have hfirst := Text.byteSize_le_of_infix
    ((Text.stripLineEnding_prefix _).trans (Text.firstLine_prefix v)).isInfix
  have hwidth : ':'.utf8Size = 1 := rfl
  unfold endColumn
  split
  · rw [lineAround, Text.byteSize_append, Text.byteSize_append, Text.byteSize_cons,
      Text.byteSize_cons]
    omega
  · rw [Text.byteSize_append, Text.byteSize_cons]
    omega

/-- Two headers that end with colons of one line end in one column if both end with the line, or if
neither does and the colons are the same. -/
theorem endColumn_eq_iff {p' : Char → Bool} (htext : u ++ ':' :: v = u' ++ ':' :: v')
    (hrow : u.count '\n' = u'.count '\n') : endColumn p u v = endColumn p' u' v' ↔
      AtLineEnd p v ∧ AtLineEnd p' v' ∨ ¬AtLineEnd p v ∧ ¬AtLineEnd p' v' ∧ u = u' := by
  have hline : lineAround u v = lineAround u' v' := by
    have hcut := Text.getD_splitLines u (':' :: v)
    rw [hrow, htext, Text.getD_splitLines] at hcut
    rw [← stripLineEnding_line, ← stripLineEnding_line, hcut]
  by_cases h : AtLineEnd p v
  · by_cases h' : AtLineEnd p' v'
    · rw [endColumn_of_atLineEnd h, endColumn_of_atLineEnd h', hline]
      simp [h, h']
    · have := (endColumn_of_not_atLineEnd h' u').2
      rw [endColumn_of_atLineEnd h, hline]
      exact iff_of_false (by omega) (by simp [h, h'])
  · obtain ⟨hcolumn, hlt⟩ := endColumn_of_not_atLineEnd h u
    by_cases h' : AtLineEnd p' v'
    · rw [endColumn_of_atLineEnd h', ← hline]
      exact iff_of_false (by omega) (by simp [h, h'])
    · obtain ⟨hcolumn', -⟩ := endColumn_of_not_atLineEnd h' u'
      simp only [h, h', false_and, not_false_eq_true, true_and, false_or]
      refine ⟨fun heq => ?_, fun heq => ?_⟩
      · rw [hcolumn, hcolumn', Nat.add_right_cancel_iff] at heq
        have hplace : (Location.origin.after u).row = (Location.origin.after u').row ∧
            (Location.origin.after u).column = (Location.origin.after u').column := by
          simp only [Location.origin_after_row, Location.origin_after_column]
          exact ⟨hrow, heq⟩
        have hu : u <+: u ++ ':' :: v := List.prefix_append _ _
        have hu' : u' <+: u ++ ':' :: v := ⟨_, htext.symm⟩
        have hle := prefix_of_after_le hu hu' (by rw [Location.le_def]; omega)
        have hle' := prefix_of_after_le hu' hu (by rw [Location.le_def]; omega)
        exact hle.eq_of_length_le hle'.length_le
      · rw [hcolumn, hcolumn', heq]

theorem head?_trimStart_iff :
    (Text.trimStart (stripLineEnding (firstLine v))).head? = some '#' ↔ HashBehind Text.isBlank v := by
  have hprefix : stripLineEnding (firstLine v) <+: v :=
    (Text.stripLineEnding_prefix _).trans (Text.firstLine_prefix v)
  rw [hashBehind_iff (by decide)]
  constructor
  · intro h
    obtain ⟨rest, hrest⟩ := List.head?_eq_some_iff.1 h
    have hline : stripLineEnding (firstLine v) =
        (stripLineEnding (firstLine v)).takeWhile Text.isBlank ++ '#' :: rest :=
      hrest ▸ List.takeWhile_append_dropWhile.symm
    obtain ⟨w, hw⟩ := hprefix
    have hnewline : '\n' ∉ stripLineEnding (firstLine v) := by
      have hne : v ≠ [] := by
        rintro rfl
        exact absurd h (by decide)
      exact Text.newline_not_mem_stripLineEnding (Text.firstLine_mem hne)
    refine ⟨(stripLineEnding (firstLine v)).takeWhile Text.isBlank, rest ++ w, ?_, fun c hc => ?_⟩
    · rw [hline, List.append_assoc] at hw
      exact hw.symm
    · refine ⟨List.mem_takeWhile_imp hc, ?_⟩
      rintro rfl
      exact hnewline ((List.takeWhile_prefix _).subset hc)
  · rintro ⟨w, rest, rfl, hw⟩
    have hline : '\n' ∉ w ++ ['#'] := by
      intro hmem
      rcases List.mem_append.1 hmem with hmem | hmem
      · exact (hw _ hmem).2 rfl
      · simp at hmem
    rw [List.append_cons, Text.firstLine_append_of_not_mem hline]
    obtain ⟨behind, hbehind⟩ := Text.prefix_stripLineEnding hline (by simp) (firstLine rest)
    rw [← hbehind, Text.trimStart, List.append_assoc,
      List.dropWhile_append_of_pos fun c hc => (hw c hc).1]
    rfl

theorem HashBehind.mono {r : Char → Bool} (h : HashBehind p v) (hp : ∀ c, p c → r c)
    (hhash : ¬r '#') : HashBehind r v := by
  obtain ⟨w, rest, rfl, hw⟩ := (hashBehind_iff fun hhash' => hhash (hp _ hhash')).1 h
  exact (hashBehind_iff hhash).2 ⟨w, rest, rfl, fun c hc => ⟨hp c (hw c hc).1, (hw c hc).2⟩⟩

/-- A comment is looked for behind a last colon in two ways that agree where each of the blank
characters in between is one for both. -/
theorem atLineEnd_iff {p' : Char → Bool} (hp : ∀ c, p' c → Text.isBlank c) :
    (AtLineEnd Text.isBlank v ∧ AtLineEnd p' v ∨ ¬AtLineEnd Text.isBlank v ∧ ¬AtLineEnd p' v) ↔
      (HashBehind Text.isBlank v → HashBehind p' v) := by
  have hmono (h : HashBehind p' v) : HashBehind Text.isBlank v := h.mono hp (by decide)
  have hline (h : HashBehind Text.isBlank v) : stripLineEnding (firstLine v) ≠ [] := by
    rw [← head?_trimStart_iff] at h
    intro hnil
    rw [hnil] at h
    exact absurd h (by decide)
  unfold AtLineEnd
  tauto

/-- Behind the last colon of a header a comment is looked for on its line. -/
theorem headerEnd?_eq {code : Text} {start body : DocumentPosition}
    (h : LastParts (headerLines code start body).flatten u v) :
    headerEnd? (headerLines code start body) start =
      some ⟨if start.line + UInt32.ofNat (u.count '\n') = 0 then 1
        else start.line + UInt32.ofNat (u.count '\n'),
        UInt32.ofNat (endColumn Text.isBlank u v)⟩ := by
  have htext := h.1.text
  have hline : (headerLines code start body)[u.count '\n']? =
      some (lastLine u ++ firstLine (':' :: v)) := by
    apply getElem?_headerLines
    rw [htext, Text.getElem?_splitLines]
  have hrest : Text.dropBytes (lineAround u v) (byteSize (lastLine u) + 1) =
      some (stripLineEnding (firstLine v)) := by
    have hsize : byteSize (lastLine u) + 1 = byteSize (lastLine u ++ [':']) := by
      rw [Text.byteSize_append]
      rfl
    rw [lineAround, List.append_cons, hsize, Text.dropBytes_append]
  unfold headerEnd?
  simp only [h.getLast?, Option.bind_eq_bind, Option.bind_some, Colon.ofPlace,
    Location.origin_after_row, Location.origin_after_column, List.getD_eq_getElem?_getD, hline,
    Option.getD_some, stripLineEnding_line, hrest, head?_trimStart_iff, endColumn]
  rfl

end DocstringEditor.Header
