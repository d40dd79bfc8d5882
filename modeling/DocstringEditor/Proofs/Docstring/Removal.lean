import DocstringEditor.Proofs.Analysis.Answer
import DocstringEditor.Proofs.Analysis.Lexing
import DocstringEditor.Proofs.Docstring.Edit

namespace DocstringEditor

open Analysis Docstring Syntax Syntax.Node
open Header (IsInside)
open Text (splitLines)

variable {parse : Parse} {s : Source} {b : Backend} {d : Node} {n : NamedEntity}

/-- The first row below what writing a docstring takes out. -/
def Docstring.resumedRow (n : NamedEntity) : Nat :=
  match n.docstring with
  | some range => range.stop.row + 1
  | none => insertionRow n

theorem Docstring.Edited.resumed {source text patched before removed rest : Text}
    (h : Edited source n text patched before removed rest) :
    before ++ removed = ((splitLines source).take (resumedRow n)).flatten := by
  unfold resumedRow
  cases hdocstring : n.docstring with
  | none =>
      rw [h.added hdocstring, List.append_nil]
      exact h.above
  | some range => exact h.replaced range hdocstring

/-- What is kept below starts at a row, unless it is nothing. -/
theorem Docstring.Edited.resumes {source text patched before removed rest : Text}
    (h : Edited source n text patched before removed rest) :
    (before ++ removed).count '\n' = resumedRow n ∧ Text.lastLine (before ++ removed) = [] ∨
      rest = [] ∧ source.count '\n' < resumedRow n := by
  have hresumed := h.resumed
  by_cases hrow : resumedRow n ≤ source.count '\n'
  · have hline := (Text.lastLine_take_splitLines source (resumedRow n)).2 (.inl hrow)
    have hcount := Text.count_take_splitLines hrow
    rw [← hresumed] at hline hcount
    exact .inl ⟨hcount, hline⟩
  · have hlength := Text.length_splitLines_le source
    rw [List.take_of_length_le (by omega), Text.flatten_splitLines] at hresumed
    have hparts := h.parts
    rw [hresumed] at hparts
    exact .inr ⟨List.self_eq_append_right.1 hparts, Nat.not_le.1 hrow⟩

theorem Docstring.Edited.dropped {source text patched before removed rest : Text}
    (h : Edited source n text patched before removed rest) :
    (splitLines source).drop (resumedRow n) = splitLines rest := by
  rcases h.resumes with ⟨hcount, hline⟩ | ⟨hrest, hrow⟩
  · rw [h.parts, ← hcount, Text.drop_splitLines hline]
  · have hlength := Text.length_splitLines_le source
    rw [List.drop_eq_nil_of_le (by omega), hrest]
    rfl

/-- Where the docstring that is replaced is in the rows that are taken out. -/
theorem Analysis.Describes.docstring_rows (hs : s.Accepted) (hd : Describes s b d n)
    {range : DocumentRange} (hrange : n.docstring = some range) :
    ∃ a b : Location, a.Fits ∧ b.Fits ∧ a ≤ b ∧ range = .ofLocations a b ∧
      a.row = insertionRow n ∧ b.row < resumedRow n := by
  have hdocstring := hd.docstring ▸ hrange
  obtain ⟨literal, hliteral, -, rfl⟩ := Source.docstringRange?_eq_some hdocstring
  have hin := inner_trans hd.mem hliteral
  have hroot := mem_preorder.2 (.inr hin)
  have hregular := hs.tree.regular
  have hsound := hs.tree.sound literal hin
  have hle := (hsound.start.le_iff hsound.stop).1 (within_bounds.1 s.root hs.tree.nested literal hin).2.1
  refine ⟨literal.start, literal.stop, hregular.fits_start hroot, hregular.fits_stop hroot, hle,
    rfl, ?_, ?_⟩
  · rw [insertionRow, hrange]
    exact (ofLocation_row (hregular.fits_start hroot)).symm
  · rw [resumedRow, hrange]
    show _ < (Range.ofLocations _ _).stop.row + 1
    rw [stop_ofLocations (hregular.fits_start hroot) (hregular.fits_stop hroot) hle,
      ofLocation_row (hregular.fits_stop hroot)]
    omega

theorem Analysis.Describes.insertionRow_le (hs : s.Accepted) (hd : Describes s b d n) :
    insertionRow n ≤ resumedRow n := by
  cases hdocstring : n.docstring with
  | none => simp [resumedRow, hdocstring]
  | some range =>
      obtain ⟨a, b, -, -, hle, -, ha, hb⟩ := hd.docstring_rows hs hdocstring
      rw [Location.le_def] at hle
      omega

def Docstring.indentation (n : NamedEntity) : Text :=
  List.replicate ((n.indentLevel + 1).toNat * indentWidth) ' '

/-- An edit puts a line with a docstring into a source, where there is a row for it. -/
theorem Docstring.Edited.inserts {s' : Source} {w : Insertion}
    (h : Edited s.text n w.added s'.text w.above w.removed w.below) (hs : s.Accepted)
    (hd : Describes s b d n) (hrow : insertionRow n ≤ s.text.count '\n')
    (hblanks : w.blanks = indentation n) (hlines : s'.lines = splitLines s'.text) :
    Inserts s s' (insertionRow n) (resumedRow n) w := by
  have hline := (Text.lastLine_take_splitLines s.text (insertionRow n)).2 (.inl hrow)
  have hcount := Text.count_take_splitLines hrow
  rw [← h.above] at hline hcount
  exact {
    le := hd.insertionRow_le hs
    taken := by
      rw [hs.lines, h.parts, List.append_assoc, ← hcount, Text.take_splitLines hline]
    dropped := by rw [hs.lines, h.dropped]
    count := hcount
    resumed := h.resumes.imp (·.1) (·.1)
    line := hline
    blank := fun c hc => (List.mem_replicate.1 (hblanks ▸ hc)).2
    text := h.patched
    lines := hlines }

/-- Whether a docstring can be written between two lines without cutting a literal. -/
structure Docstring.Clear (s : Source) (n : NamedEntity) : Prop where
  row : insertionRow n ≤ s.text.count '\n'
  divides : s.root.DividesAt (insertionRow n)
  divides' : s.root.DividesAt (resumedRow n)

/-- A parser that knows some texts only. -/
def Analysis.Parse.only (parse : Parse) (texts : List Text) : Parse :=
  fun text => if texts.contains text then parse text else .error .noTree

def oldText : Text := "def f():\n    'Old.'\n    0\n".toList

def newText : Text := "def f():\n    \"\"\"New.\"\"\"\n    0\n".toList

/-- What two sources of three lines have in common of which the second ones differ. -/
structure Alike (s s' : Source) : Prop where
  above : ∀ row < 2, s'.root.DividesAt row ∧ s'.wordsAbove row = s.wordsAbove row
  below : s'.wordsBelow 2 = s.wordsBelow 2
  lexemes : ∀ t ∈ s.root.lexemes, t.start.row < 3

instance (s s' : Source) : Decidable (Alike s s') :=
  decidable_of_iff ((∀ row < 2, s'.root.DividesAt row ∧ s'.wordsAbove row = s.wordsAbove row) ∧
    s'.wordsBelow 2 = s.wordsBelow 2 ∧ ∀ t ∈ s.root.lexemes, t.start.row < 3)
    ⟨fun ⟨h₁, h₂, h₃⟩ => ⟨h₁, h₂, h₃⟩, fun h => ⟨h.above, h.below, h.lexemes⟩⟩

theorem exists_sources : ∃ s s', python.Reads s ∧ python.Reads s' ∧ s.text = oldText ∧
    s'.text = newText ∧ Alike s s' ∧ Alike s' s ∧ ∃ l ∈ s'.root.inner, l.kind = .string ∧
      l.start = ⟨13, 1, 4⟩ ∧ l.stop = ⟨23, 1, 14⟩ := by
  have h : (ofText? oldText).any fun root => (ofText? newText).any fun root' =>
      root.firstError?.isNone && root'.firstError?.isNone &&
        decide (Alike (.ofTree oldText root) (.ofTree newText root') ∧
          Alike (.ofTree newText root') (.ofTree oldText root) ∧
          ∃ l ∈ root'.inner, l.kind = .string ∧ l.start = ⟨13, 1, 4⟩ ∧ l.stop = ⟨23, 1, 14⟩) := by
    decide +kernel
  obtain ⟨root, hroot, h⟩ := (Option.any_eq_true _ _).1 h
  obtain ⟨root', hroot', h⟩ := (Option.any_eq_true _ _).1 h
  simp only [Bool.and_eq_true, Option.isNone_iff_eq_none, decide_eq_true_eq] at h
  obtain ⟨⟨herror, herror'⟩, hold, hnew, hliteral⟩ := h
  refine ⟨.ofTree oldText root, .ofTree newText root', ⟨?_, herror, rfl⟩, ⟨?_, herror', rfl⟩, rfl,
    rfl, hold, hnew, hliteral⟩
  · show python oldText = .ok root
    rw [python, hroot, Option.getD_some]
  · show python newText = .ok root'
    rw [python, hroot', Option.getD_some]

theorem Analysis.Parse.reads_only {texts : List Text} :
    (parse.only texts).Reads s ↔ s.text ∈ texts ∧ parse.Reads s := by
  simp only [Parse.Reads, Parse.only, List.contains_iff_mem]
  split <;> simp [*]

theorem Analysis.Parse.Faithful.only (h : parse.Faithful) (texts : List Text) :
    (parse.only texts).Faithful := by
  intro text root hroot herror
  rw [Parse.only] at hroot
  split at hroot
  · exact h text root hroot herror
  · cases hroot

theorem Alike.wordsBelow_eq_nil {s s' : Source} (h : Alike s s') {row : Nat} (hrow : 3 ≤ row) :
    s.wordsBelow row = [] := by
  rw [Source.wordsBelow, List.map_eq_nil_iff, List.filter_eq_nil_iff]
  intro t ht
  have := h.lexemes t ht
  simp
  omega

/-- Below a row there is the same in two sources of three lines just if it is the same row or there
is nothing. -/
theorem row_eq_of_drop {s s' : Source} {row row' : Nat} (hlines : s.lines.length = 3)
    (hlines' : s'.lines.length = 3) (hdrop : s'.lines.drop row' = s.lines.drop row) :
    row' = row ∨ 3 ≤ row' ∧ 3 ≤ row := by
  have hlength := congrArg List.length hdrop
  rw [List.length_drop, List.length_drop, hlines, hlines'] at hlength
  omega

theorem Alike.wordsBelow_eq {s s' : Source} {row row' : Nat} (h : Alike s s') (h' : Alike s' s)
    (hlines : s.lines.length = 3) (hlines' : s'.lines.length = 3)
    (hne : s'.lines.drop 1 ≠ s.lines.drop 1) (hdrop : s'.lines.drop row' = s.lines.drop row) :
    s'.wordsBelow row' = s.wordsBelow row := by
  rcases row_eq_of_drop hlines hlines' hdrop with rfl | ⟨hrow', hrow⟩
  · rcases Nat.lt_trichotomy row' 2 with hrow | rfl | hrow
    · refine absurd ?_ hne
      have hdrop := congrArg (List.drop (1 - row')) hdrop
      rwa [List.drop_drop, List.drop_drop, Nat.add_sub_cancel' (by omega)] at hdrop
    · exact h.below
    · rw [h'.wordsBelow_eq_nil hrow, h.wordsBelow_eq_nil hrow]
  · rw [h'.wordsBelow_eq_nil hrow', h.wordsBelow_eq_nil hrow]

theorem Alike.wordsAbove_eq {s s' : Source} {row : Nat} (h : Alike s s')
    (hne : s'.lines.take 2 ≠ s.lines.take 2) (htake : s'.lines.take row = s.lines.take row) :
    s'.root.DividesAt row ∧ s'.wordsAbove row = s.wordsAbove row := by
  by_cases hrow : row < 2
  · exact h.above row hrow
  · refine absurd ?_ hne
    have htake := congrArg (List.take 2) htake
    rwa [List.take_take, List.take_take, Nat.min_eq_left (by omega)] at htake

theorem isInside_new : IsInside '"' true "New.".toList := by
  iterate 4 refine (Header.isInside_cons (by decide)).2 ⟨by decide, by decide, ?_⟩
  exact Header.isInside_nil

/-- There is one place in the new text where quotes are at the front of a line. -/
theorem eq_of_newText {above blanks inside below : Text}
    (h : newText = above ++ (blanks ++ quoted inside) ++ below) (hline : Text.lastLine above = [])
    (hblanks : ∀ c ∈ blanks, c = ' ') (hinside : IsInside '"' true inside) :
    above = "def f():\n".toList ∧ blanks = "    ".toList ∧ inside = "New.".toList := by
  obtain ⟨behind, hbehind⟩ : ∃ t, t = quoted inside ++ below := ⟨_, rfl⟩
  rw [List.append_assoc, List.append_assoc, ← hbehind] at h
  have hspace : ∀ c ∈ blanks, decide (c = ' ') = true := by simpa using hblanks
  have hhead : behind.head? = some '"' := by rw [hbehind]; rfl
  have hdrop : (blanks ++ behind).dropWhile (· = ' ') = behind := by
    obtain ⟨t, rfl⟩ := List.head?_eq_some_iff.1 hhead
    rw [List.dropWhile_append_of_pos hspace, List.dropWhile_cons_of_neg (by decide)]
  have hlines : splitLines newText = splitLines above ++ splitLines (blanks ++ behind) := by
    rw [h, Text.splitLines_append hline]
  have htake : above = ((splitLines newText).take (splitLines above).length).flatten := by
    rw [hlines, List.take_left, Text.flatten_splitLines]
  have hlength : (splitLines above).length ≤ 3 := by
    have := congrArg List.length hlines
    rw [List.length_append] at this
    have hthree : (splitLines newText).length = 3 := by decide
    omega
  have hrest : blanks ++ behind = ((splitLines newText).drop (splitLines above).length).flatten := by
    rw [hlines, List.drop_left, Text.flatten_splitLines]
  generalize (splitLines above).length = k at htake hrest hlength
  have hone : ∀ k < 4, (((splitLines newText).drop k).flatten.dropWhile (· = ' ')).head? = some '"' →
      k = 1 := by decide
  obtain rfl := hone k (by omega) (by rw [← hrest, hdrop, hhead])
  have hparts : ((splitLines newText).drop 1).flatten =
      "    ".toList ++ (quoted "New.".toList ++ "\n    0\n".toList) := by decide
  rw [hparts] at hrest
  have hsame : behind = quoted "New.".toList ++ "\n    0\n".toList := by
    rw [← hdrop, hrest]
    rfl
  refine ⟨htake.trans (by decide), ?_, quoted_inj hinside isInside_new (hbehind.symm.trans hsame)⟩
  rw [hsame] at hrest
  exact List.append_cancel_right hrest

theorem Alike.wordsBelow_self {s s' : Source} {row row' : Nat} (h : Alike s s')
    (hlines : s.lines.length = 3) (hdrop : s.lines.drop row' = s.lines.drop row) :
    s.wordsBelow row' = s.wordsBelow row := by
  rcases row_eq_of_drop hlines hlines hdrop with rfl | ⟨hrow', hrow⟩
  · rfl
  · rw [h.wordsBelow_eq_nil hrow', h.wordsBelow_eq_nil hrow]

theorem readsTokens_only : (python.only [oldText, newText]).ReadsTokens := by
  obtain ⟨o, w, ho, hw, hotext, hwtext, hold, hnew, l, hl, hkind, hstart, hstop⟩ := exists_sources
  have hcases {s : Source} (h : (python.only [oldText, newText]).Reads s) : s = o ∨ s = w := by
    obtain ⟨hmem, hs⟩ := Parse.reads_only.1 h
    simp only [List.mem_cons, List.not_mem_nil, or_false] at hmem
    exact hmem.imp (fun h => hs.ext ho (h.trans hotext.symm)) fun h => hs.ext hw (h.trans hwtext.symm)
  have hlines : o.lines = ["def f():\n".toList, "    'Old.'\n".toList, "    0\n".toList] := by
    rw [ho.2.2, hotext]
    decide
  have hlines' : w.lines =
      ["def f():\n".toList, "    \"\"\"New.\"\"\"\n".toList, "    0\n".toList] := by
    rw [hw.2.2, hwtext]
    decide
  have htake : w.lines.take 2 ≠ o.lines.take 2 := by
    rw [hlines, hlines']
    decide
  have hdrop : w.lines.drop 1 ≠ o.lines.drop 1 := by
    rw [hlines, hlines']
    decide
  refine ⟨fun s s' row hs hs' htaken hdivides => ?_, fun s s' row row' hs hs' hdropped _ _ => ?_,
    fun s above blanks inside below hs htext hline _ hblanks hinside => ?_⟩
  · rcases hcases hs with rfl | rfl <;> rcases hcases hs' with rfl | rfl
    · exact ⟨hdivides, rfl⟩
    · exact hold.wordsAbove_eq htake htaken
    · exact hnew.wordsAbove_eq htake.symm htaken
    · exact ⟨hdivides, rfl⟩
  · have hlength : s.lines.length = 3 ∧ s'.lines.length = 3 := by
      rcases hcases hs with rfl | rfl <;> rcases hcases hs' with rfl | rfl <;>
        simp [hlines, hlines']
    rcases hcases hs with rfl | rfl <;> rcases hcases hs' with rfl | rfl
    · exact hold.wordsBelow_self hlength.1 hdropped
    · exact hold.wordsBelow_eq hnew hlength.1 hlength.2 hdrop hdropped
    · exact hnew.wordsBelow_eq hold hlength.1 hlength.2 hdrop.symm hdropped
    · exact hnew.wordsBelow_self hlength.1 hdropped
  · rcases hcases hs with rfl | rfl
    · have hquote : '"' ∈ s.text := by
        rw [htext]
        simp [quoted, Header.delimiter]
      rw [hotext] at hquote
      exact absurd hquote (by decide)
    · rw [hwtext] at htext
      obtain ⟨rfl, rfl, rfl⟩ := eq_of_newText htext hline hblanks hinside
      exact ⟨l, hl, hkind, hstart, hstop⟩

instance (s : Source) (n : NamedEntity) : Decidable (Clear s n) :=
  decidable_of_iff (insertionRow n ≤ s.text.count '\n' ∧ s.root.DividesAt (insertionRow n) ∧
    s.root.DividesAt (resumedRow n))
    ⟨fun ⟨h₁, h₂, h₃⟩ => ⟨h₁, h₂, h₃⟩, fun h => ⟨h.row, h.divides, h.divides'⟩⟩

end DocstringEditor
