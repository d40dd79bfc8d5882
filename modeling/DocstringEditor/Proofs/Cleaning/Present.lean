import Mathlib.Data.List.TakeWhile
import DocstringEditor.Cleaning
import DocstringEditor.Proofs.Text.Lines

namespace DocstringEditor

open Text (lastLine splitLines stripLineEnding)

namespace Cleaning

/-- Whether a line is still in a cleaned text, from the start of a line to the end of one. Blank
characters before it and its terminator may be gone. -/
def Present (line cleaned : Text) : Prop :=
  ∃ before blanks kept ending after, cleaned = before ++ kept ++ after ∧
    line = blanks ++ kept ++ ending ∧ (∀ c ∈ blanks, Text.isBlank c) ∧
    ending ∈ [[], ['\n'], ['\r', '\n']] ∧ lastLine before = [] ∧
    (after = [] ∨ kept.getLast? = some '\n')

variable {line cleaned : Text} {n : Nat}

theorem Present.mem {c : Char} (h : Present line cleaned) (hc : c ∈ line)
    (hblank : ¬Text.isBlank c) : c ∈ cleaned := by
  obtain ⟨before, blanks, kept, ending, after, rfl, rfl, hblanks, hending, -, -⟩ := h
  rcases List.mem_append.1 hc with hc | hc
  · rcases List.mem_append.1 hc with hc | hc
    · exact absurd (hblanks c hc) hblank
    · simp [hc]
  · have hends : ∀ ending ∈ [[], ['\n'], ['\r', '\n']], ending.all Text.isBlank := by decide
    exact absurd (List.all_eq_true.1 (hends ending hending) c hc) hblank

theorem isComment_append {blanks : Text} (h : ∀ c ∈ blanks, Text.isBlank c) :
    isComment (blanks ++ line) = isComment line := by
  rw [isComment, isComment, Text.trimStart, Text.trimStart, List.dropWhile_append_of_pos h]

theorem exists_of_isComment (h : isComment line) :
    ∃ w v, line = w ++ '#' :: v ∧ ∀ c ∈ w, Text.isBlank c := by
  rw [isComment, Text.trimStart, decide_eq_true_eq] at h
  obtain ⟨v, hv⟩ := List.head?_eq_some_iff.1 h
  refine ⟨line.takeWhile Text.isBlank, v, ?_, fun c hc => List.mem_takeWhile_imp hc⟩
  rw [← hv, List.takeWhile_append_dropWhile]

/-- Only blank characters of the line go with the indentation. -/
theorem exists_dropIndentation (n : Nat) (line : Text) :
    ∃ blanks, line = blanks ++ dropIndentation n line ∧
      ∀ c ∈ blanks, Text.isBlank c ∧ c ≠ '\n' := by
  fun_induction dropIndentation n line with
  | case1 line => exact ⟨[], rfl, by simp⟩
  | case2 => exact ⟨[], rfl, by simp⟩
  | case3 n c line hc ih =>
      obtain ⟨blanks, hline, hblanks⟩ := ih
      refine ⟨c :: blanks, by rw [List.cons_append, ← hline], ?_⟩
      exact List.forall_mem_cons.2 ⟨⟨hc.1, hc.2.1⟩, hblanks⟩
  | case4 n c line hc => exact ⟨[], rfl, by simp⟩

theorem getLast?_dropIndentation (n : Nat) (h : line.getLast? = some '\n') :
    (dropIndentation n line).getLast? = some '\n' := by
  obtain ⟨blanks, hline, hblanks⟩ := exists_dropIndentation n line
  rw [hline, List.getLast?_append] at h
  cases hlast : (dropIndentation n line).getLast? with
  | some c => simpa [hlast] using h
  | none =>
      rw [hlast, Option.none_or] at h
      exact absurd rfl (hblanks '\n' (List.mem_of_getLast? h)).2

theorem dropIndentation_ne_nil (n : Nat) (h : ¬Text.isBlankLine line) :
    dropIndentation n line ≠ [] := by
  intro hnil
  obtain ⟨blanks, hline, hblanks⟩ := exists_dropIndentation n line
  rw [hnil, List.append_nil] at hline
  rw [hline] at h
  exact h (List.all_eq_true.2 fun c hc => (hblanks c hc).1)

theorem lastLine_flatMap (n : Nat) {rows : List (Text × Nat)}
    (h : ∀ row ∈ rows, row.1.getLast? = some '\n') :
    lastLine (rows.flatMap fun (line, _) => dropIndentation n line) = [] := by
  induction rows with
  | nil => rfl
  | cons row rows ih =>
      rw [List.flatMap_cons]
      apply Text.lastLine_append_eq_nil
      · exact Text.lastLine_eq_nil_iff.2 (.inr (getLast?_dropIndentation n (h row (by simp))))
      · exact ih fun r hr => h r (List.mem_cons_of_mem row hr)

theorem present_of_append {before after : Text} (hbefore : lastLine before = [])
    (hafter : after = [] ∨ line.getLast? = some '\n') (n : Nat) :
    Present line (before ++ dropIndentation n line ++ after) := by
  obtain ⟨blanks, hblanks, hblank⟩ := exists_dropIndentation n line
  refine ⟨before, blanks, dropIndentation n line, [], after, rfl, by simpa using hblanks,
    fun c hc => (hblank c hc).1, by simp, hbefore, ?_⟩
  exact hafter.imp_right (getLast?_dropIndentation n)

theorem present_of_stripLineEnding {before after : Text} (hbefore : lastLine before = [])
    (hafter : after = [] ∨ line.getLast? = some '\n') (hline : ¬Text.isBlankLine line) (n : Nat) :
    Present line (stripLineEnding (before ++ dropIndentation n line ++ after)) := by
  obtain ⟨blanks, hblanks, hblank⟩ := exists_dropIndentation n line
  by_cases hnil : after = []
  · have hlast : before.getLast? ≠ some '\r' := by
      rcases Text.lastLine_eq_nil_iff.1 hbefore with rfl | h
      · simp
      · simp [h]
    obtain ⟨ending, hending, hstrip⟩ := Text.exists_terminator (dropIndentation n line)
    refine ⟨before, blanks, stripLineEnding (dropIndentation n line), ending, [], ?_, ?_,
      fun c hc => (hblank c hc).1, hending, hbefore, .inl rfl⟩
    · rw [hnil, List.append_nil, List.append_nil,
        Text.stripLineEnding_append hlast (dropIndentation_ne_nil n hline)]
    · rw [List.append_assoc, ← hstrip, ← hblanks]
  · have hlast := getLast?_dropIndentation n (hafter.resolve_left hnil)
    rw [Text.stripLineEnding_append (by simp [List.getLast?_append, hlast]) hnil]
    exact present_of_append hbefore (.inr (hafter.resolve_left hnil)) n

end Cleaning

namespace Entity

open Cleaning

variable {e : Entity} {line : Text} {row : Nat} {methods : List CleaningMethod}

theorem exists_split (hrow : e.codeLines[row]? = some line) : ∃ above below,
    e.codeLines = above ++ line :: below ∧
      e.codeLines.zipIdx = above.zipIdx ++ (line, row) :: below.zipIdx (row + 1) := by
  obtain ⟨hlt, rfl⟩ := List.getElem?_eq_some_iff.1 hrow
  have hsplit : e.codeLines = e.codeLines.take row ++ e.codeLines[row] ::
      e.codeLines.drop (row + 1) := by
    rw [← List.drop_eq_getElem_cons hlt, List.take_append_drop]
  refine ⟨e.codeLines.take row, e.codeLines.drop (row + 1), hsplit, ?_⟩
  conv_lhs => rw [hsplit]
  rw [List.zipIdx_append, List.zipIdx_cons, List.length_take_of_le (Nat.le_of_lt hlt),
    Nat.zero_add]

theorem exists_kept (hrow : e.codeLines[row]? = some line) (keep : Text × Nat → Bool)
    (hkeep : keep (line, row)) (n : Nat) :
    ∃ before after, ((e.codeLines.zipIdx.filter keep).flatMap fun (line, _) =>
      dropIndentation n line) = before ++ dropIndentation n line ++ after ∧
      lastLine before = [] ∧ (after = [] ∨ line.getLast? = some '\n') := by
  obtain ⟨above, below, hlines, hzip⟩ := exists_split hrow
  rw [hzip, List.filter_append, List.filter_cons_of_pos hkeep, List.flatMap_append,
    List.flatMap_cons, ← List.append_assoc]
  refine ⟨_, _, rfl, lastLine_flatMap n fun r hr => ?_, ?_⟩
  · obtain ⟨ls, ls', habove⟩ :=
      List.append_of_mem (List.fst_mem_of_mem_zipIdx (List.mem_of_mem_filter hr))
    rw [habove, List.append_assoc, List.cons_append] at hlines
    exact Text.getLast?_of_splitLines hlines (by simp)
  · by_cases hbelow : below = []
    · left
      simp [hbelow]
    · exact .inr (Text.getLast?_of_splitLines hlines hbelow)

/-- A line that is not blank and that no method drops is still in the cleaned code. -/
theorem cleanWith_present (hrow : e.codeLines[row]? = some line)
    (hkeep : ∀ m ∈ methods, e.drops row line m = false) (hline : ¬Text.isBlankLine line) :
    Present line (e.cleanWith methods) := by
  obtain ⟨before, after, heq, hbefore, hafter⟩ := exists_kept hrow
    (fun (line, row) => !methods.any (e.drops row line)) (by simpa using hkeep)
    (if .indentation ∈ methods then e.indentation else 0)
  unfold cleanWith
  simp only [heq]
  split
  · exact present_of_append hbefore hafter _
  · exact present_of_stripLineEnding hbefore hafter hline _

theorem clean_of_supported {skip : List String}
    (h : ∀ name ∈ skip, ∃ m ∈ e.supportedMethods, m.name = name) :
    e.clean skip = .ok (e.cleanWith (e.supportedMethods.filter (·.name ∉ skip))) := by
  have hnone : (skip.filter fun name => !e.supportedMethods.any (·.name = name)) = [] := by
    refine List.filter_eq_nil_iff.2 fun name hname => ?_
    obtain ⟨m, hm, hmname⟩ := h name hname
    simpa using ⟨m, hm, hmname⟩
  unfold clean
  simp only [hnone]

end Entity
end DocstringEditor
