import Mathlib.Data.List.Basic
import DocstringEditor.Header

namespace DocstringEditor.Header

variable {q c : Char} {triple : Bool} {t u v rest : Text}

/-- Whether a text escapes what comes behind it. Every second backslash of a row escapes the one
before it. -/
def EscapesNext (t : Text) : Prop := (t.reverse.takeWhile (· = '\\')).length % 2 = 1

instance (t : Text) : Decidable (EscapesNext t) := inferInstanceAs (Decidable (_ = _))

def delimiter (q : Char) (triple : Bool) : Text := if triple then [q, q, q] else [q]

/-- Whether a text may stand between the quotes of a literal. The ones behind it are the first that
close the literal, and without triple quotes it goes over escaped line ends only. -/
structure IsInside (q : Char) (triple : Bool) (u : Text) : Prop where
  unescaped : ¬EscapesNext u
  first : ∀ before after, u ++ delimiter q triple = before ++ delimiter q triple ++ after →
    ¬EscapesNext before → after = []
  line : triple = false → ∀ before after, u = before ++ '\n' :: after → EscapesNext before

theorem takeWhile_append_cons {p : Char → Bool} (hc : ¬p c) (t u : Text) :
    (t ++ c :: u).takeWhile p = t.takeWhile p := by
  induction t with
  | nil => exact List.takeWhile_cons_of_neg hc
  | cons d t ih =>
      by_cases hd : p d
      · rw [List.cons_append, List.takeWhile_cons_of_pos hd, List.takeWhile_cons_of_pos hd, ih]
      · rw [List.cons_append, List.takeWhile_cons_of_neg hd, List.takeWhile_cons_of_neg hd]

theorem escapesNext_append_cons (hc : c ≠ '\\') (t u : Text) :
    EscapesNext (t ++ c :: u) ↔ EscapesNext u := by
  rw [EscapesNext, List.reverse_append, List.reverse_cons, List.append_assoc, List.singleton_append,
    takeWhile_append_cons (by simpa using hc), EscapesNext]

theorem escapesNext_cons (hc : c ≠ '\\') (t : Text) : EscapesNext (c :: t) ↔ EscapesNext t :=
  escapesNext_append_cons hc [] t

theorem escapesNext_escape (c : Char) (t : Text) :
    EscapesNext ('\\' :: c :: t) ↔ EscapesNext t := by
  by_cases hc : c = '\\'
  · subst hc
    have hpair : ('\\' :: '\\' :: t).reverse = t.reverse ++ ['\\', '\\'] := by simp
    rw [EscapesNext, EscapesNext, hpair, List.takeWhile_append]
    split
    · rename_i hall
      rw [hall, List.length_append]
      simp
    · rfl
  · exact escapesNext_append_cons hc ['\\'] t

/-- A text comes in escapes and single characters, but for a backslash at its end. -/
theorem escape_induction {motive : Text → Prop} (nil : motive []) (backslash : motive ['\\'])
    (escape : ∀ c t, motive t → motive ('\\' :: c :: t))
    (plain : ∀ c t, c ≠ '\\' → motive t → motive (c :: t)) : ∀ t, motive t
  | [] => nil
  | c :: t => by
    by_cases hc : c = '\\'
    · subst hc
      cases t with
      | nil => exact backslash
      | cons d t => exact escape d t (escape_induction nil backslash escape plain t)
    · exact plain c t hc (escape_induction nil backslash escape plain t)

theorem delimiter_eq_cons (q : Char) (triple : Bool) :
    ∃ quotes, delimiter q triple = q :: quotes := by
  cases triple
  · exact ⟨[], rfl⟩
  · exact ⟨[q, q], rfl⟩

theorem length_delimiter_pos (q : Char) (triple : Bool) : 0 < (delimiter q triple).length := by
  cases triple <;> simp [delimiter]

theorem eq_of_mem_delimiter (hc : c ∈ delimiter q triple) : c = q := by
  cases triple <;> simpa [delimiter] using hc

theorem not_starts_with_delimiter (hc : c ≠ q) (triple : Bool) (t : Text) :
    ¬delimiter q triple <+: c :: t := by
  obtain ⟨quotes, hquotes⟩ := delimiter_eq_cons q triple
  rw [hquotes]
  exact fun h => hc (List.cons_prefix_cons.1 h).1.symm

theorem delimiter_prefix_iff (c : Char) (u rest : Text) :
    delimiter q triple <+: c :: (u ++ delimiter q triple ++ rest) ↔
      delimiter q triple <+: c :: (u ++ delimiter q triple) := by
  have hprefix : c :: (u ++ delimiter q triple) <+: c :: (u ++ delimiter q triple ++ rest) :=
    ⟨rest, rfl⟩
  refine ⟨fun h => List.prefix_of_prefix_length_le h hprefix ?_, fun h => h.trans hprefix⟩
  simp only [List.length_cons, List.length_append]
  omega

theorem isInside_nil : IsInside q triple [] where
  unescaped := by decide
  first before after heq _ := by
    have hlength := congrArg List.length heq
    simp only [List.length_append, List.length_nil] at hlength
    exact List.length_eq_zero_iff.1 (by omega)
  line _ before after heq := by simp at heq

theorem not_isInside_backslash : ¬IsInside q triple ['\\'] := fun h => h.unescaped (by decide)

theorem IsInside.of_append {p : Text} (hp : ∀ t, EscapesNext (p ++ t) ↔ EscapesNext t)
    (h : IsInside q triple (p ++ u)) : IsInside q triple u where
  unescaped := by simpa only [hp] using h.unescaped
  first before after heq hbefore := by
    rw [← hp before] at hbefore
    exact h.first (p ++ before) after (by simp only [List.append_assoc] at heq ⊢; rw [heq]) hbefore
  line htriple before after heq := by
    rw [← hp before]
    exact h.line htriple (p ++ before) after (by rw [heq, List.append_assoc])

theorem isInside_escape (hq : q ≠ '\\') :
    IsInside q triple ('\\' :: c :: u) ↔ IsInside q triple u := by
  have hescapes := escapesNext_escape c
  constructor
  · exact fun h => h.of_append (p := ['\\', c]) hescapes
  · intro h
    obtain ⟨quotes, hquotes⟩ := delimiter_eq_cons q triple
    refine ⟨by simpa only [hescapes] using h.unescaped, fun before after heq hbefore => ?_,
      fun htriple before after heq => ?_⟩
    -- Neither the backslash nor what it escapes starts quotes that close.
    · rcases before with _ | ⟨d, _ | ⟨e, before⟩⟩
      · rw [hquotes] at heq
        exact absurd (List.cons.inj heq).1.symm hq
      · simp only [List.cons_append, List.cons.injEq] at heq
        exact absurd (heq.1 ▸ by decide) hbefore
      · simp only [List.cons_append, List.cons.injEq] at heq
        obtain ⟨rfl, rfl, htail⟩ := heq
        exact h.first before after htail (by rwa [← hescapes])
    · rcases before with _ | ⟨d, _ | ⟨e, before⟩⟩
      · exact absurd (List.cons.inj heq).1 (by decide)
      · rw [← (List.cons.inj heq).1]
        decide
      · simp only [List.cons_append, List.cons.injEq] at heq
        obtain ⟨rfl, rfl, htail⟩ := heq
        rw [hescapes]
        exact h.line htriple before after htail

theorem isInside_cons (hc : c ≠ '\\') : IsInside q triple (c :: u) ↔
    ¬delimiter q triple <+: c :: (u ++ delimiter q triple) ∧ (triple = false → c ≠ '\n') ∧
      IsInside q triple u := by
  have hescapes := escapesNext_cons hc
  constructor
  · intro h
    refine ⟨?_, ?_, h.of_append (p := [c]) hescapes⟩
    · rintro ⟨after, hafter⟩
      have hnil := h.first [] after hafter.symm (by decide)
      have hlength := congrArg List.length hafter
      rw [hnil, List.append_nil, List.length_cons, List.length_append] at hlength
      omega
    · rintro htriple rfl
      exact absurd (h.line htriple [] u rfl) (by decide)
  · rintro ⟨hstarts, hline, h⟩
    refine ⟨by simpa only [hescapes] using h.unescaped, fun before after heq hbefore => ?_,
      fun htriple before after heq => ?_⟩
    · cases before with
      | nil => exact absurd ⟨after, heq.symm⟩ hstarts
      | cons d before =>
          simp only [List.cons_append, List.cons.injEq] at heq
          obtain ⟨rfl, htail⟩ := heq
          exact h.first before after htail (by rwa [← hescapes])
    · cases before with
      | nil => exact absurd (List.cons.inj heq).1 (hline htriple)
      | cons d before =>
          simp only [List.cons_append, List.cons.injEq] at heq
          obtain ⟨rfl, htail⟩ := heq
          rw [hescapes]
          exact h.line htriple before after htail

theorem closingLength_escape (q : Char) (triple : Bool) (c : Char) (t : Text) :
    closingLength q triple ('\\' :: c :: t) = 2 + closingLength q triple t := rfl

theorem closingLength_delimiter (hq : q ≠ '\\') (h : delimiter q triple <+: t) :
    closingLength q triple t = (delimiter q triple).length := by
  obtain ⟨rest, rfl⟩ := h
  cases triple <;> simp [delimiter, closingLength, hq]

theorem closingLength_cons (hc : c ≠ '\\') (h : ¬delimiter q triple <+: c :: t)
    (hline : triple = false → c ≠ '\n') :
    closingLength q triple (c :: t) = 1 + closingLength q triple t := by
  cases triple with
  | false =>
      have hquote : c ≠ q := by
        rintro rfl
        exact h ⟨t, rfl⟩
      simp [closingLength, hc, hquote, hline]
  | true =>
      by_cases hquote : c = q
      · subst hquote
        have hpair : ¬[c, c] <+: t := fun hpair => h (List.cons_prefix_cons.2 ⟨rfl, hpair⟩)
        simp [closingLength, hc, hpair]
      · simp [closingLength, hc, hquote]

/-- A literal is read to the quotes behind what may stand in it. -/
theorem closingLength_eq (hq : q ≠ '\\') (h : IsInside q triple u) (rest : Text) :
    closingLength q triple (u ++ delimiter q triple ++ rest) =
      u.length + (delimiter q triple).length := by
  induction u using escape_induction with
  | nil => simp [closingLength_delimiter hq ⟨rest, rfl⟩]
  | backslash => exact absurd h not_isInside_backslash
  | escape c u ih =>
      have ih := ih ((isInside_escape hq).1 h)
      simp only [List.cons_append] at ih ⊢
      rw [closingLength_escape, ih, List.length_cons, List.length_cons]
      omega
  | plain c u hc ih =>
      obtain ⟨hstarts, hline, hu⟩ := (isInside_cons hc).1 h
      rw [← delimiter_prefix_iff c u rest] at hstarts
      simp only [List.cons_append]
      rw [closingLength_cons hc hstarts hline, ih hu, List.length_cons]
      omega

theorem stringLength_delimiter (h : triple = false → ¬[q, q] <+: t) :
    stringLength (delimiter q triple ++ t) =
      (delimiter q triple).length + closingLength q triple t := by
  cases triple with
  | true => simp [stringLength, delimiter]
  | false => exact if_neg (by rw [List.isPrefixOf_iff_prefix]; exact h rfl)

end DocstringEditor.Header
