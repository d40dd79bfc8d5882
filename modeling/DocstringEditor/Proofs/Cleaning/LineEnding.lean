import DocstringEditor.Proofs.Cleaning.Passes
import DocstringEditor.Proofs.Text.LineEnding

namespace DocstringEditor

open LineEnding (expand expand_append expand_cons expand_crlf_newline)

variable {t : Text}

namespace Text

theorem isBlankLine_expand_crlf (t : Text) : isBlankLine (expand .crlf t) = isBlankLine t := by
  induction t with
  | nil => rfl
  | cons c t ih =>
      by_cases hc : c = '\n'
      · subst hc
        exact ih
      · rw [expand_cons hc, isBlankLine, List.all_cons]
        exact congrArg (isBlank c && ·) ih

theorem trimStart_expand_crlf (t : Text) :
    trimStart (expand .crlf t) = expand .crlf (trimStart t) := by
  induction t with
  | nil => rfl
  | cons c t ih =>
      by_cases hc : c = '\n'
      · subst hc
        exact ih
      · rw [expand_cons hc, trimStart, trimStart]
        cases hblank : isBlank c with
        | true =>
            rw [List.dropWhile_cons_of_pos hblank, List.dropWhile_cons_of_pos hblank]
            exact ih
        | false =>
            rw [List.dropWhile_cons_of_neg (by simp [hblank]),
              List.dropWhile_cons_of_neg (by simp [hblank]), expand_cons hc]

theorem stripLineEnding_expand_crlf (h : '\r' ∉ t) :
    stripLineEnding (expand .crlf t) = expand .crlf (stripLineEnding t) := by
  by_cases hlast : t.getLast? = some '\n'
  · obtain ⟨u, rfl⟩ := List.getLast?_eq_some_iff.1 hlast
    have hreturn : u.getLast? ≠ some '\r' := fun hr =>
      h (List.mem_append_left _ (List.mem_of_getLast? hr))
    rw [stripLineEnding_newline hreturn, expand_append]
    exact stripLineEnding_return (expand .crlf u)
  · rw [stripLineEnding_of_getLast?_ne hlast, stripLineEnding_of_getLast?_ne]
    rwa [LineEnding.getLast?_expand]

end Text

namespace Cleaning

theorem isComment_expand_crlf (line : Text) : isComment (expand .crlf line) = isComment line := by
  rw [isComment, Text.trimStart_expand_crlf, isComment]
  cases Text.trimStart line with
  | nil => rfl
  | cons c rest =>
      by_cases hc : c = '\n'
      · subst hc
        rfl
      · rw [expand_cons hc]
        rfl

/-- Indentation ends where the terminator starts, which may be with the carriage return. -/
theorem dropIndentation_expand_crlf (n : Nat) (line : Text) :
    dropIndentation n (expand .crlf line) = expand .crlf (dropIndentation n line) := by
  fun_induction dropIndentation n line with
  | case1 line => rw [dropIndentation]
  | case2 n => cases n <;> rfl
  | case3 n c line hc ih =>
      rw [expand_cons hc.2.1, dropIndentation, if_pos hc, ih]
  | case4 n c line hc =>
      by_cases hnewline : c = '\n'
      · subst hnewline
        rw [expand_crlf_newline, dropIndentation, if_neg (by simp)]
      · rw [expand_cons hnewline, dropIndentation, if_neg hc]

end Cleaning

namespace Entity

open Cleaning

def mapCode (f : Text → Text) : Entity → Entity
  | module e => module { e with code := f e.code }
  | classDef e => classDef { e with code := f e.code }
  | functionDef e => functionDef { e with code := f e.code }

variable {e : Entity} {methods : List CleaningMethod}

@[simp] theorem code_mapCode (f : Text → Text) (e : Entity) : (e.mapCode f).code = f e.code := by
  cases e <;> rfl

@[simp] theorem supportedMethods_mapCode (f : Text → Text) (e : Entity) :
    (e.mapCode f).supportedMethods = e.supportedMethods := by
  cases e <;> rfl

@[simp] theorem indentation_mapCode (f : Text → Text) (e : Entity) :
    (e.mapCode f).indentation = e.indentation := by
  cases e <;> rfl

@[simp] theorem inDocstring_mapCode (f : Text → Text) (e : Entity) (row : Nat) :
    (e.mapCode f).inDocstring row = e.inDocstring row := by
  cases e <;> rfl

theorem drops_expand_crlf (e : Entity) (row : Nat) (line : Text) :
    (e.mapCode (expand .crlf)).drops row (expand .crlf line) = e.drops row line := by
  funext m
  cases m with
  | docstring => exact inDocstring_mapCode _ e row
  | comments => exact isComment_expand_crlf line
  | blankLines => exact Text.isBlankLine_expand_crlf line
  | indentation => rfl

theorem kept_expand_crlf (e : Entity) (methods : List CleaningMethod) :
    (e.mapCode (expand .crlf)).kept methods =
      (e.kept methods).map fun (line, row) => (expand .crlf line, row) := by
  have hrows : (e.mapCode (expand .crlf)).codeLines.zipIdx =
      e.codeLines.zipIdx.map fun (line, row) => (expand .crlf line, row) := by
    rw [codeLines, code_mapCode, LineEnding.splitLines_expand_crlf, List.zipIdx_map]
    rfl
  rw [kept, kept, hrows, List.filter_map, List.map_map, List.map_map, indentation_mapCode]
  simp only [Function.comp_def, drops_expand_crlf, dropIndentation_expand_crlf]

theorem mem_code_of_kept {line : Text} {row : Nat} {c : Char}
    (h : (line, row) ∈ e.kept methods) (hc : c ∈ line) : c ∈ e.code := by
  obtain ⟨⟨whole, row'⟩, hmem, heq⟩ := List.mem_map.1 h
  obtain ⟨rfl, rfl⟩ := Prod.mk.inj heq
  obtain ⟨blanks, hblanks, -⟩ := exists_dropIndentation
    (if .indentation ∈ methods then e.indentation else 0) whole
  have hwhole : c ∈ whole := hblanks ▸ List.mem_append_right blanks hc
  rw [← Text.flatten_splitLines e.code]
  exact List.mem_flatten.2
    ⟨whole, List.fst_mem_of_mem_zipIdx (List.mem_of_mem_filter hmem), hwhole⟩

theorem joined_expand_crlf {rows : List (Text × Nat)} (h : '\r' ∉ rows.flatMap (·.1)) :
    (e.mapCode (expand .crlf)).joined (rows.map fun (line, row) => (expand .crlf line, row)) =
      expand .crlf (e.joined rows) := by
  have hrows : (rows.map fun (line, row) => (expand .crlf line, row)).flatMap (·.1) =
      expand .crlf (rows.flatMap (·.1)) := by
    rw [List.flatMap_def, List.flatMap_def, LineEnding.expand_flatten, List.map_map, List.map_map]
    rfl
  rw [joined, joined, hrows, code_mapCode, LineEnding.getLast?_expand]
  split
  · rfl
  · exact Text.stripLineEnding_expand_crlf h

/-- Cleaning code whose lines end in a carriage return and a line feed gives what cleaning the code
with line feeds alone does, with those line ends. -/
theorem clean_expand_crlf (h : '\r' ∉ e.code) (skip : List String) :
    (e.mapCode (expand .crlf)).clean skip = (e.clean skip).map (expand .crlf) := by
  -- Only where a final terminator goes would a carriage return of the code's own be in the way.
  have hwith (methods : List CleaningMethod) :
      (e.mapCode (expand .crlf)).cleanWith methods = expand .crlf (e.cleanWith methods) := by
    rw [cleanWith_eq, cleanWith_eq, kept_expand_crlf, joined_expand_crlf]
    intro hmem
    obtain ⟨⟨line, row⟩, hkept, hline⟩ := List.mem_flatMap.1 hmem
    exact h (mem_code_of_kept hkept hline)
  simp only [clean, supportedMethods_mapCode, hwith]
  split <;> rfl

theorem clean_expand_crlf_method : ∃ e : Entity,
    e.code = "    def f(self):\n        '''Doc.'''\n \n        return 0\n    # end".toList ∧
    '\r' ∉ e.code ∧
    (e.mapCode (expand .crlf)).clean ["blank_lines"] =
      (e.clean ["blank_lines"]).map (expand .crlf) ∧
    e.clean ["blank_lines"] = .ok "def f(self):\n\n    return 0".toList := by
  obtain ⟨e, he⟩ : ∃ e, e = Entity.functionDef ⟨"f",
    "    def f(self):\n        '''Doc.'''\n \n        return 0\n    # end".toList,
    ⟨⟨3, 4⟩, ⟨7, 9⟩⟩, ⟨3, 16⟩, some ⟨⟨4, 8⟩, ⟨4, 18⟩⟩, 1, []⟩ := ⟨_, rfl⟩
  have hcode : '\r' ∉ e.code := by
    rw [he]
    decide
  refine ⟨e, by rw [he]; rfl, hcode, clean_expand_crlf hcode ["blank_lines"], ?_⟩
  rw [he]
  decide +kernel

end Entity

end DocstringEditor
