import Mathlib.Data.List.Nodup
import DocstringEditor.Analysis.Registry
import DocstringEditor.Proofs.Cleaning.Present
import DocstringEditor.Proofs.Outcome

namespace DocstringEditor

open Text (stripLineEnding)

namespace Cleaning

def isIndent (c : Char) : Bool := Text.isBlank c && c ≠ '\n' && c ≠ '\r'

def dropLeading (kind : Char → Bool) (n : Nat) (line : Text) : Text :=
  line.drop (min n (line.takeWhile kind).length)

theorem dropIndentation_eq (n : Nat) (line : Text) :
    dropIndentation n line = dropLeading isIndent n line := by
  induction line generalizing n with
  | nil => cases n <;> rfl
  | cons c line ih =>
      cases n with
      | zero => simp [dropIndentation, dropLeading]
      | succ n =>
          rw [dropIndentation, dropLeading]
          by_cases hc : isIndent c
          · rw [if_pos (by simpa [isIndent, and_assoc] using hc), List.takeWhile_cons_of_pos hc, ih,
              dropLeading, List.length_cons, Nat.succ_min_succ, List.drop_succ_cons]
          · rw [if_neg (by simpa [isIndent, and_assoc] using hc), List.takeWhile_cons_of_neg hc]
            simp

theorem isBlankLine_dropIndentation (n : Nat) (line : Text) :
    Text.isBlankLine (dropIndentation n line) = Text.isBlankLine line := by
  obtain ⟨blanks, hline, hblanks⟩ := exists_dropIndentation n line
  have hall : blanks.all Text.isBlank = true :=
    List.all_eq_true.2 fun c hc => (hblanks c hc).1
  conv_rhs => rw [hline]
  rw [Text.isBlankLine, Text.isBlankLine, List.all_append, hall, Bool.true_and]

theorem isComment_dropIndentation (n : Nat) (line : Text) :
    isComment (dropIndentation n line) = isComment line := by
  obtain ⟨blanks, hline, hblanks⟩ := exists_dropIndentation n line
  conv_rhs => rw [hline]
  rw [isComment_append fun c hc => (hblanks c hc).1]

end Cleaning

namespace Entity

open Cleaning

variable {e : Entity} {m : CleaningMethod} {methods done order : List CleaningMethod}

/-- What one method leaves of numbered lines, where characters of a kind count as indentation. -/
def pass (e : Entity) (kind : Char → Bool) (rows : List (Text × Nat)) :
    CleaningMethod → List (Text × Nat)
  | .docstring => rows.filter fun (_, row) => !e.inDocstring row
  | .comments => rows.filter fun (line, _) => !isComment line
  | .blankLines => rows.filter fun (line, _) => !Text.isBlankLine line
  | .indentation => rows.map fun (line, row) => (dropLeading kind e.indentation line, row)

def joined (e : Entity) (rows : List (Text × Nat)) : Text :=
  if e.code.getLast? = some '\n' then rows.flatMap (·.1) else stripLineEnding (rows.flatMap (·.1))

/-- Applies methods one after another. Every line keeps the number that it has in the code. -/
def passes (e : Entity) (kind : Char → Bool) (order : List CleaningMethod) : Text :=
  e.joined (order.foldl (e.pass kind) e.codeLines.zipIdx)

/-- The numbered lines that are left when methods judge the untouched code. -/
def kept (e : Entity) (methods : List CleaningMethod) : List (Text × Nat) :=
  (e.codeLines.zipIdx.filter fun (line, row) => !methods.any (e.drops row line)).map
    fun (line, row) =>
      (dropIndentation (if .indentation ∈ methods then e.indentation else 0) line, row)

theorem drops_dropIndentation (n row : Nat) (line : Text) (m : CleaningMethod) :
    e.drops row (dropIndentation n line) m = e.drops row line m := by
  cases m with
  | docstring | indentation => rfl
  | comments => exact isComment_dropIndentation n line
  | blankLines => exact isBlankLine_dropIndentation n line

theorem pass_eq_filter (hm : m ≠ .indentation) (kind : Char → Bool) (rows : List (Text × Nat)) :
    e.pass kind rows m = rows.filter fun (line, row) => !e.drops row line m := by
  cases m with
  | docstring | comments | blankLines => rfl
  | indentation => exact absurd rfl hm

theorem filter_dropIndentation (e : Entity) (m : CleaningMethod) (n : Nat)
    (rows : List (Text × Nat)) :
    (rows.map fun (line, row) => (dropIndentation n line, row)).filter
        (fun (line, row) => !e.drops row line m) =
      (rows.filter fun (line, row) => !e.drops row line m).map
        fun (line, row) => (dropIndentation n line, row) := by
  rw [List.filter_map]
  refine congrArg (fun keep => (rows.filter keep).map _) (funext fun row => ?_)
  exact congrArg (!·) (drops_dropIndentation n row.2 row.1 m)

@[simp] theorem kept_nil : e.kept [] = e.codeLines.zipIdx := by
  simp [kept, dropIndentation]

/-- A method that has not been applied yet does to the lines that are left what it does to those of
the untouched code. -/
theorem pass_kept (hm : m ∉ done) : e.pass isIndent (e.kept done) m = e.kept (done ++ [m]) := by
  by_cases hindentation : m = .indentation
  · subst hindentation
    simp [pass, kept, hm, ← dropIndentation_eq, drops, dropIndentation]
  · rw [pass_eq_filter hindentation, kept, filter_dropIndentation, List.filter_filter]
    simp [kept, Ne.symm hindentation, Bool.and_comm]

/-- Methods applied one after another leave the lines that they leave at once. -/
theorem foldl_pass_kept (h : (done ++ order).Nodup) :
    order.foldl (e.pass isIndent) (e.kept done) = e.kept (done ++ order) := by
  induction order generalizing done with
  | nil => simp
  | cons m order ih =>
      have hm : m ∉ done := fun hmem =>
        (List.nodup_append.1 h).2.2 m hmem m List.mem_cons_self rfl
      rw [List.append_cons] at h ⊢
      rw [List.foldl_cons, pass_kept hm, ih h]

theorem kept_congr (h : ∀ m, m ∈ methods ↔ m ∈ order) : e.kept methods = e.kept order := by
  have hany (line : Text) (row : Nat) :
      methods.any (e.drops row line) = order.any (e.drops row line) := by
    rw [Bool.eq_iff_iff, List.any_eq_true, List.any_eq_true]
    simp only [h]
  simp only [kept, hany, h]

theorem cleanWith_eq (e : Entity) (methods : List CleaningMethod) :
    e.cleanWith methods = e.joined (e.kept methods) := by
  simp only [cleanWith, joined, kept, List.flatMap_map]

theorem supportedMethods_nodup (e : Entity) : e.supportedMethods.Nodup :=
  List.Nodup.filter _ (by decide)

/-- Cleaning gives what its methods give one after another in any order. -/
theorem clean_eq_passes {skip : List String}
    (hskip : ∀ name ∈ skip, ∃ m ∈ e.supportedMethods, m.name = name)
    (horder : order.Perm (e.supportedMethods.filter (·.name ∉ skip))) :
    e.clean skip = .ok (e.passes isIndent order) := by
  have hnodup : order.Nodup := horder.nodup_iff.2 (e.supportedMethods_nodup.filter _)
  have hrun : order.foldl (e.pass isIndent) e.codeLines.zipIdx = e.kept order := by
    rw [← kept_nil, foldl_pass_kept (by simpa using hnodup), List.nil_append]
  rw [clean_of_supported hskip, cleanWith_eq, passes, hrun, kept_congr fun m => horder.mem_iff]

theorem clean_eq_passes_method : ∃ (e : Entity) (order : List CleaningMethod),
    e.code = "  def f(self):\r\n    '''Doc.'''\r\n \r\n\t# comment\r\n    return 0".toList ∧
    (∀ name ∈ ["docstring", "docstring"], ∃ m ∈ e.supportedMethods, m.name = name) ∧
    order.Perm (e.supportedMethods.filter (·.name ∉ ["docstring", "docstring"])) ∧
    order = [.indentation, .comments, .blankLines] ∧
    e.clean ["docstring", "docstring"] = .ok (e.passes isIndent order) := by
  obtain ⟨e, he⟩ : ∃ e, e = Entity.functionDef ⟨"f",
    "  def f(self):\r\n    '''Doc.'''\r\n \r\n\t# comment\r\n    return 0".toList,
    ⟨⟨3, 2⟩, ⟨7, 12⟩⟩, ⟨3, 14⟩, some ⟨⟨4, 4⟩, ⟨4, 14⟩⟩, 1, []⟩ := ⟨_, rfl⟩
  have hskip : ∀ name ∈ ["docstring", "docstring"], ∃ m ∈ e.supportedMethods, m.name = name := by
    rw [he]
    decide
  have horder : List.Perm [.indentation, .comments, .blankLines]
      (e.supportedMethods.filter (·.name ∉ ["docstring", "docstring"])) := by
    rw [he]
    decide
  exact ⟨e, _, by rw [he]; rfl, hskip, horder, rfl, clean_eq_passes hskip horder⟩

/-- A carriage return is blank, but no indentation is taken from there on. -/
theorem clean_ne_passes_reachable : ∃ e,
    (Analysis.Analyzer.create Analysis.python .structural
      "class A:\n    def f(self):\n        x = '''\n\r    y'''\n".toList >>=
      (·.find .context ⟨2, 8⟩)) = .ok (some e) ∧
    CleaningMethod.all.Perm (e.supportedMethods.filter (·.name ∉ [])) ∧
    e.clean [] = .ok "def f(self):\n    x = '''\n\r    y'''".toList ∧
    e.passes Text.isBlank CleaningMethod.all = "def f(self):\n    x = '''\n y'''".toList := by
  refine ⟨.functionDef ⟨"f", "    def f(self):\n        x = '''\n\r    y'''".toList,
    ⟨⟨2, 4⟩, ⟨4, 9⟩⟩, ⟨2, 16⟩, none, 1,
    "class A:\n    def f(self):\n        x = '''\n\r    y'''\n".toList⟩, ?_, ?_, ?_, ?_⟩
  · decide +kernel
  · decide
  · decide +kernel
  · decide +kernel

end Entity

end DocstringEditor
