import DocstringEditor.Proofs.Docstring.RoundTrip
import DocstringEditor.Proofs.Header.Escape

namespace DocstringEditor.Docstring

open Header (EscapesNext IsInside closingLength delimiter stringLength)

variable {t u v : Text} {c : Char} {onNewLine : Bool}

/-- Whether a text has three quotes in a row that nothing before them escapes. -/
def HasBareQuotes (t : Text) : Prop :=
  ∃ before after, t = before ++ quotes ++ after ∧ ¬EscapesNext before

theorem not_hasBareQuotes_nil : ¬HasBareQuotes [] := by
  rintro ⟨before, after, heq, -⟩
  simp [quotes] at heq

/-- No bare quotes go over another character. -/
theorem hasBareQuotes_append_cons (hquote : c ≠ '"') (hc : c ≠ '\\') :
    HasBareQuotes (u ++ c :: v) ↔ HasBareQuotes u ∨ HasBareQuotes v := by
  have hmem : c ∉ quotes := by simpa [quotes] using hquote
  constructor
  · rintro ⟨before, after, heq, hbefore⟩
    rcases List.append_eq_append_iff.1 heq with ⟨a, ha, hrest⟩ | ⟨a, ha, -⟩
    · cases a with
      | nil => exact .inl ⟨before, [], by simpa using ha.symm, hbefore⟩
      | cons d a =>
          obtain ⟨rfl, rfl⟩ := List.cons.inj hrest
          rcases List.append_eq_append_iff.1 ha with ⟨b, -, hquotes⟩ | ⟨b, hb, hquotes⟩
          · exact absurd (hquotes ▸ by simp) hmem
          · cases b with
            | nil =>
                rw [List.nil_append] at hquotes
                exact absurd (hquotes ▸ List.mem_cons_self) hmem
            | cons e b =>
                obtain ⟨rfl, rfl⟩ := List.cons.inj hquotes
                rw [hb, Header.escapesNext_append_cons hc] at hbefore
                exact .inr ⟨b, after, rfl, hbefore⟩
    · exact .inl ⟨before, a, ha, hbefore⟩
  · rintro (⟨before, after, rfl, hbefore⟩ | ⟨before, after, rfl, hbefore⟩)
    · exact ⟨before, after ++ c :: v, by simp, hbefore⟩
    · exact ⟨u ++ c :: before, after, by simp, by rwa [Header.escapesNext_append_cons hc]⟩

theorem hasBareQuotes_cons (hquote : c ≠ '"') (hc : c ≠ '\\') :
    HasBareQuotes (c :: t) ↔ HasBareQuotes t :=
  (hasBareQuotes_append_cons (u := []) hquote hc).trans (or_iff_right not_hasBareQuotes_nil)

theorem hasBareQuotes_replicate (n : Nat) (t : Text) :
    HasBareQuotes (List.replicate n ' ' ++ t) ↔ HasBareQuotes t := by
  induction n with
  | zero => rfl
  | succ n ih =>
      rw [List.replicate_succ, List.cons_append, hasBareQuotes_cons (by decide) (by decide), ih]

theorem hasBareQuotes_line :
    HasBareQuotes (u ++ '\n' :: v) ↔ HasBareQuotes u ∨ HasBareQuotes v :=
  hasBareQuotes_append_cons (by decide) (by decide)

theorem hasBareQuotes_hang (n : Nat) (t : Text) : HasBareQuotes (hang n t) ↔ HasBareQuotes t := by
  induction t using Text.line_induction with
  | last t ht => rw [hang_of_not_mem ht]
  | line v t hv ih =>
      rw [hang_append, hang_of_not_mem hv, hang_newline, hasBareQuotes_line,
        hasBareQuotes_replicate, ih, hasBareQuotes_line]

theorem hasBareQuotes_stripLineEnding (hv : '\n' ∉ v) :
    HasBareQuotes (Text.stripLineEnding (v ++ ['\n'])) ↔ HasBareQuotes v := by
  by_cases hreturn : v.getLast? = some '\r'
  · obtain ⟨w, rfl⟩ := List.getLast?_eq_some_iff.1 hreturn
    rw [List.append_assoc, List.singleton_append, Text.stripLineEnding_return,
      hasBareQuotes_append_cons (by decide) (by decide)]
    exact (or_iff_left not_hasBareQuotes_nil).symm
  · rw [Text.stripLineEnding_newline hreturn]

theorem hasBareQuotes_joinLines (t : Text) :
    HasBareQuotes (joinLines (Text.bareLines t)) ↔ HasBareQuotes t := by
  induction t using Text.line_induction with
  | last t ht =>
      by_cases hnil : t = []
      · subst hnil
        rfl
      · have hlast : t.getLast? ≠ some '\n' := fun h => ht (List.mem_of_getLast? h)
        rw [Text.bareLines, Text.splitLines_of_not_mem hnil ht, List.map_singleton,
          Text.stripLineEnding_of_getLast?_ne hlast, joinLines, List.intercalate_singleton]
  | line v t hv ih =>
      rw [joinLines, Text.bareLines] at ih ⊢
      rw [Text.splitLines_line hv, List.map_cons, hasBareQuotes_line]
      cases hlines : (Text.splitLines t).map Text.stripLineEnding with
      | nil =>
          rw [hlines] at ih
          rw [List.intercalate_singleton, hasBareQuotes_stripLineEnding hv, ← ih]
          exact (or_iff_left not_hasBareQuotes_nil).symm
      | cons line lines =>
          rw [hlines] at ih
          rw [List.intercalate_cons_cons, List.append_assoc, List.singleton_append,
            hasBareQuotes_line, hasBareQuotes_stripLineEnding hv, ih]

/-- A body that does not end in a quote is closed by the quotes behind it just if it has none of its
own and does not escape them. -/
theorem isInside_iff (hlast : u.getLast? ≠ some '"') :
    IsInside '"' true u ↔ ¬HasBareQuotes u ∧ ¬EscapesNext u := by
  constructor
  · refine fun h => ⟨?_, h.unescaped⟩
    rintro ⟨before, after, rfl, hbefore⟩
    have hnil := h.first before (after ++ quotes) (by simp [delimiter, quotes]) hbefore
    simp [quotes] at hnil
  · rintro ⟨hbare, hescapes⟩
    refine ⟨hescapes, fun before after heq hbefore => ?_, by simp⟩
    have heq : u ++ quotes = before ++ quotes ++ after := heq
    rcases List.append_eq_append_iff.1 heq with ⟨a, ha, hquotes⟩ | ⟨a, ha, -⟩
    · -- Quotes that reach over the end of the body would start with one of its own.
      rcases a with _ | ⟨x, _ | ⟨y, _ | ⟨z, a⟩⟩⟩
      · exact absurd ⟨before, [], by simpa using ha.symm, hbefore⟩ hbare
      · have hu : u = before ++ ['"', '"'] := by
          obtain rfl : '"' = x := (List.cons.inj hquotes).1
          exact (List.append_left_inj ['"']).1 (by rw [← ha, List.append_assoc]; rfl)
        exact absurd (by simp [hu]) hlast
      · have hu : u = before ++ ['"'] := by
          obtain ⟨rfl, htail⟩ := List.cons.inj hquotes
          obtain rfl : '"' = y := (List.cons.inj htail).1
          exact (List.append_left_inj ['"', '"']).1 (by rw [← ha, List.append_assoc]; rfl)
        exact absurd (by simp [hu]) hlast
      · have hlength := congrArg List.length hquotes
        simp only [quotes, List.cons_append, List.length_cons, List.length_append,
          List.length_nil] at hlength
        exact List.length_eq_zero_iff.1 (by omega)
    · exact absurd ⟨before, a, ha, hbefore⟩ hbare

theorem closingLength_eq_iff : closingLength '"' true (u ++ quotes ++ ['\n']) = u.length + 3 ↔
    IsInside '"' true u := by
  refine ⟨fun h => ?_, fun h => Header.closingLength_eq (by decide) h ['\n']⟩
  induction u using Header.escape_induction with
  | nil => exact Header.isInside_nil
  | backslash => exact absurd h (by decide)
  | escape c u ih =>
      rw [Header.isInside_escape (by decide)]
      simp only [List.cons_append] at h ih
      rw [Header.closingLength_escape, List.length_cons, List.length_cons] at h
      exact ih (by omega)
  | plain c u hc ih =>
      rw [Header.isInside_cons hc]
      simp only [List.cons_append] at h
      by_cases hstarts : delimiter '"' true <+: c :: (u ++ quotes ++ ['\n'])
      · rw [Header.closingLength_delimiter (by decide) hstarts] at h
        simp [delimiter] at h
      · rw [Header.closingLength_cons hc hstarts (by simp), List.length_cons] at h
        rw [← Header.delimiter_prefix_iff c u ['\n']]
        exact ⟨hstarts, by simp, ih (by omega)⟩

/-- The line feeds and spaces that are put into a body have no part in what closes it. -/
theorem hasBareQuotes_written (n : Nat) (t : Text) :
    HasBareQuotes (hang n (content t onNewLine)) ↔ HasBareQuotes t := by
  rw [hasBareQuotes_hang, content]
  split
  · have hend : HasBareQuotes (joinLines (Text.bareLines t) ++ ['\n']) ↔ HasBareQuotes t := by
      rw [hasBareQuotes_line, hasBareQuotes_joinLines]
      exact or_iff_left not_hasBareQuotes_nil
    cases onNewLine with
    | false => exact hend
    | true => exact (hasBareQuotes_cons (by decide) (by decide)).trans hend
  · rfl

theorem exists_written_of_lt (onNewLine : Bool) (h : 1 < (Text.bareLines t).length) (n : Nat) :
    ∃ v, hang n (content t onNewLine) = v ++ '\n' :: List.replicate n ' ' := by
  rw [content, if_pos h, hang_append]
  exact ⟨_, congrArg _ (by simp [hang])⟩

theorem escapesNext_written (ht : t.getLast? ≠ some '\n') (n : Nat) :
    EscapesNext (hang n (content t onNewLine)) ↔
      (Text.bareLines t).length ≤ 1 ∧ EscapesNext t := by
  by_cases hlines : 1 < (Text.bareLines t).length
  · obtain ⟨v, hv⟩ := exists_written_of_lt onNewLine hlines n
    have hspaces : ¬EscapesNext (List.replicate n ' ') := by
      have hrun : (List.replicate n ' ').takeWhile (· = '\\') = [] := by
        rw [List.takeWhile_replicate]
        rfl
      rw [EscapesNext, List.reverse_replicate, hrun]
      decide
    rw [hv, Header.escapesNext_append_cons (by decide)]
    exact iff_of_false hspaces fun h => absurd h.1 (by omega)
  · have hnewline : '\n' ∉ t := fun h => hlines ((one_lt_length_bareLines_iff ht).2 h)
    rw [content, if_neg hlines, hang_of_not_mem hnewline]
    exact (and_iff_right (Nat.not_lt.1 hlines)).symm

theorem getLast?_written (onNewLine : Bool) (ht : IsBody t) (n : Nat) :
    (hang n (content t onNewLine)).getLast? ≠ some '"' := by
  have hlast : t.getLast? ≠ some '\n' := ht.getLast?_ne (by decide)
  by_cases hlines : 1 < (Text.bareLines t).length
  · obtain ⟨v, hv⟩ := exists_written_of_lt onNewLine hlines n
    rw [hv, List.getLast?_append_of_ne_nil v (List.cons_ne_nil _ _)]
    intro h
    have hmem := List.mem_of_getLast? h
    simp at hmem
  · have hnewline : '\n' ∉ t := fun h => hlines ((one_lt_length_bareLines_iff hlast).2 h)
    rw [content, if_neg hlines, hang_of_not_mem hnewline]
    exact ht.getLast?_ne (by decide)

/-- What is left of a text behind the literal that its first quote opens. -/
def behindLiteral (t : Text) : Text :=
  let opened := t.dropWhile (· ≠ '"')
  opened.drop (stringLength opened)

theorem behindLiteral_eq (n : Nat) (u : Text) :
    behindLiteral (List.replicate n ' ' ++ (quotes ++ u)) = u.drop (closingLength '"' true u) := by
  have hspaces : ∀ c ∈ List.replicate n ' ', (decide (c ≠ '"')) = true := by
    intro c hc
    rw [(List.mem_replicate.1 hc).2]
    decide
  have hopened : (List.replicate n ' ' ++ (quotes ++ u)).dropWhile (· ≠ '"') = quotes ++ u := by
    rw [List.dropWhile_append_of_pos hspaces]
    rfl
  have hlength : stringLength (quotes ++ u) = quotes.length + closingLength '"' true u := rfl
  simp only [behindLiteral]
  rw [hopened, hlength, List.drop_length_add_append]

theorem drop_eq_iff (n : Nat) : (u ++ quotes ++ ['\n']).drop n = ['\n'] ↔ n = u.length + 3 := by
  constructor
  · intro h
    have hlength := congrArg List.length h
    simp only [List.length_drop, List.length_append, quotes,
      List.length_cons, List.length_nil] at hlength
    omega
  · rintro rfl
    exact List.drop_left' (by simp [quotes])

/-- Behind the literal of a body only the line feed is left just if the body has no bare quotes and,
if it is one line, does not end in a backslash that escapes the quotes behind it. -/
theorem behindLiteral_literal_iff (generated : Text) (level : UInt32) (onNewLine : Bool) :
    behindLiteral (literal (ofGenerated generated) level onNewLine) = ['\n'] ↔
      ¬HasBareQuotes (ofGenerated generated) ∧
      ¬((Text.bareLines (ofGenerated generated)).length ≤ 1 ∧
        EscapesNext (ofGenerated generated)) := by
  have hbody : IsBody (ofGenerated generated) := isBody_ofGenerated generated
  have hlast := getLast?_written onNewLine hbody (level.toNat * indentWidth)
  rw [literal_eq, behindLiteral_eq, ← List.append_assoc, drop_eq_iff, closingLength_eq_iff,
    isInside_iff hlast, hasBareQuotes_written, escapesNext_written (hbody.getLast?_ne (by decide))]

/-- The literal of a body may go on behind its last quotes and end before them. -/
theorem behindLiteral_reachable :
    literal (ofGenerated "Doc\\".toList) 0 false = "\"\"\"Doc\\\"\"\"\n".toList ∧
    behindLiteral "\"\"\"Doc\\\"\"\"\n".toList = [] ∧
    literal (ofGenerated "Use \"\"\" here".toList) 0 false =
      "\"\"\"Use \"\"\" here\"\"\"\n".toList ∧
    behindLiteral "\"\"\"Use \"\"\" here\"\"\"\n".toList = " here\"\"\"\n".toList := by
  decide +kernel

end DocstringEditor.Docstring
