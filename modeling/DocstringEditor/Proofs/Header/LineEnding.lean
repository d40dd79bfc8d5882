import DocstringEditor.Proofs.Header.Scan
import DocstringEditor.Proofs.Text.LineEnding

namespace DocstringEditor.Header

open LineEnding (expand expand_cons expand_crlf_newline)
open Syntax (Location)

variable {q c : Char} {triple : Bool} {l l' : Location} {t u rest : Text} {depth : Nat}

def literalsFrom (skip : Nat) : Text → List Text
  | [] => []
  | c :: t =>
    match skip with
    | n + 1 => literalsFrom n t
    | 0 =>
      if isQuote c then
        (c :: t).take (stringLength (c :: t)) :: literalsFrom (stringLength (c :: t) - 1) t
      else if c = '#' then literalsFrom (t.takeWhile (· ≠ '\n')).length t
      else literalsFrom 0 t

def literals (t : Text) : List Text := literalsFrom 0 t

/-- Whether a literal without triple quotes goes on behind the end of its line. -/
def IsContinued : Text → Prop
  | [] => False
  | q :: t => '\n' ∈ t ∧ ¬[q, q] <+: t

instance : DecidablePred IsContinued
  | [] => inferInstanceAs (Decidable False)
  | q :: t => inferInstanceAs (Decidable ('\n' ∈ t ∧ ¬[q, q] <+: t))

theorem literalsFrom_eq (n : Nat) (t : Text) : literalsFrom n t = literals (t.drop n) := by
  induction t generalizing n with
  | nil => cases n <;> rfl
  | cons c t ih =>
      cases n with
      | zero => rfl
      | succ n => exact ih n

theorem exists_delimiter (q : Char) (t : Text) :
    ∃ triple u, q :: t = delimiter q triple ++ u ∧ (triple = false → ¬[q, q] <+: u) := by
  by_cases h : [q, q] <+: t
  · obtain ⟨u, rfl⟩ := h
    exact ⟨true, u, rfl, by simp⟩
  · exact ⟨false, t, rfl, fun _ => h⟩

theorem literals_string (hq : isQuote q) (h : triple = false → ¬[q, q] <+: t) :
    literals (delimiter q triple ++ t) =
      (delimiter q triple ++ t.take (closingLength q triple t)) ::
        literals (t.drop (closingLength q triple t)) := by
  have hlength := stringLength_delimiter h
  obtain ⟨quotes, hquotes⟩ := delimiter_eq_cons q triple
  rw [hquotes, List.cons_append, List.length_cons] at hlength
  have hsucc : stringLength (q :: (quotes ++ t)) - 1 =
      quotes.length + closingLength q triple t := by
    omega
  rw [hquotes, List.cons_append, literals, literalsFrom, if_pos hq, hsucc, hlength, literalsFrom_eq,
    List.drop_length_add_append, Nat.add_right_comm, List.take_succ_cons,
    List.take_length_add_append, List.cons_append]

theorem literals_comment (ht : '\n' ∉ t) (hrest : rest = [] ∨ rest.head? = some '\n') :
    literals ('#' :: (t ++ rest)) = literals rest := by
  rw [literals, literalsFrom, if_neg (by decide), if_pos rfl, literalsFrom_eq,
    takeWhile_line ht hrest, List.drop_left]

theorem literals_other (hc : c ≠ '#') (hquote : ¬isQuote c) : literals (c :: t) = literals t := by
  rw [literals, literalsFrom, if_neg hquote, if_neg hc]
  rfl

theorem exists_line (t : Text) :
    ∃ line rest, t = line ++ rest ∧ '\n' ∉ line ∧ (rest = [] ∨ rest.head? = some '\n') := by
  induction t using Text.line_induction with
  | last t ht => exact ⟨t, [], t.append_nil.symm, ht, .inl rfl⟩
  | line line t hline _ => exact ⟨line, '\n' :: t, rfl, hline, .inr rfl⟩

/-- A text comes in literals, comments and single characters. -/
theorem scan_induction {motive : Text → Prop} (nil : motive [])
    (string : ∀ q triple t, isQuote q → (triple = false → ¬[q, q] <+: t) →
      motive (t.drop (closingLength q triple t)) → motive (delimiter q triple ++ t))
    (comment : ∀ t rest, '\n' ∉ t → (rest = [] ∨ rest.head? = some '\n') → motive rest →
      motive ('#' :: (t ++ rest)))
    (other : ∀ c t, c ≠ '#' → ¬isQuote c → motive t → motive (c :: t)) : ∀ t, motive t
  | [] => nil
  | c :: t => by
    by_cases hquote : isQuote c
    · obtain ⟨triple, u, hparts, hu⟩ := exists_delimiter c t
      rw [hparts]
      exact string c triple u hquote hu (scan_induction nil string comment other _)
    · by_cases hc : c = '#'
      · obtain ⟨line, rest, hparts, hline, hrest⟩ := exists_line t
        rw [hc, hparts]
        exact comment line rest hline hrest (scan_induction nil string comment other rest)
      · exact other c t hc hquote (scan_induction nil string comment other t)
termination_by t => t.length
decreasing_by
  · have := length_delimiter_pos c triple
    rw [hparts, List.length_append, List.length_drop]
    omega
  · rw [hparts, List.length_cons, List.length_append]
    omega
  · rw [List.length_cons]
    omega

/-- The colons behind a place in a literal. -/
def colonsIn (q : Char) (triple : Bool) (depth : Nat) (l : Location) (t : Text) : List Colon :=
  colonsFrom (closingLength q triple t) depth l.row l.column t

theorem colonsAt_delimiter (hq : isQuote q) (h : triple = false → ¬[q, q] <+: t) :
    colonsAt depth l (delimiter q triple ++ t) =
      colonsIn q triple depth (l.after (delimiter q triple)) t := by
  have hlength := stringLength_delimiter h
  obtain ⟨quotes, hquotes⟩ := delimiter_eq_cons q triple
  rw [colonsIn, colonsFrom_eq, ← Location.after_append, hquotes, List.cons_append,
    colonsAt_quote hq, ← List.cons_append, ← hquotes, hlength, List.take_length_add_append,
    List.drop_length_add_append]

theorem colonsIn_escape (c : Char) (t : Text) : colonsIn q triple depth l ('\\' :: c :: t) =
    colonsIn q triple depth ((l.advance '\\').advance c) t := by
  rw [colonsIn, closingLength_escape, Nat.add_comm, colonsFrom_succ, colonsFrom_succ, colonsIn]

theorem colonsIn_cons (hc : c ≠ '\\') (h : ¬delimiter q triple <+: c :: t)
    (hline : triple = false → c ≠ '\n') :
    colonsIn q triple depth l (c :: t) = colonsIn q triple depth (l.advance c) t := by
  rw [colonsIn, closingLength_cons hc h hline, Nat.add_comm, colonsFrom_succ, colonsIn]

theorem colonsIn_delimiter (hq : q ≠ '\\') (t : Text) :
    colonsIn q triple depth l (delimiter q triple ++ t) =
      colonsAt depth (l.after (delimiter q triple)) t := by
  rw [colonsIn, closingLength_delimiter hq ⟨t, rfl⟩, colonsFrom_eq, List.take_left, List.drop_left]

theorem closingLength_newline (hq : '\n' ≠ q) (t : Text) :
    closingLength q false ('\n' :: t) = 0 := by
  simp [closingLength, hq]

theorem colonsIn_newline (hq : '\n' ≠ q) (t : Text) :
    colonsIn q false depth l ('\n' :: t) = colonsAt depth l ('\n' :: t) := by
  rw [colonsIn, closingLength_newline hq, colonsAt]

def SamePlace (l l' : Location) : Prop := l.row = l'.row ∧ l.column = l'.column

theorem SamePlace.advance (h : SamePlace l l') (c : Char) :
    SamePlace (l.advance c) (l'.advance c) := by
  unfold Location.advance
  split
  · exact ⟨congrArg (· + 1) h.1, rfl⟩
  · exact ⟨h.1, congrArg (· + c.utf8Size) h.2⟩

theorem SamePlace.after (h : SamePlace l l') (t : Text) : SamePlace (l.after t) (l'.after t) := by
  induction t generalizing l l' with
  | nil => exact h
  | cons c t ih => exact ih (h.advance c)

theorem SamePlace.newline (h : SamePlace l l') :
    SamePlace ((l.advance '\r').advance '\n') (l'.advance '\n') :=
  ⟨congrArg (· + 1) h.1, rfl⟩

theorem starts_expand_quotes_iff (hq : isQuote q) (hu : ∀ c ∈ u, c = q) :
    u <+: expand .crlf t ↔ u <+: t := by
  refine LineEnding.starts_expand_iff fun c hc => ?_
  rw [hu c hc]
  rcases isQuote_iff.1 hq with rfl | rfl <;> decide

theorem expand_delimiter (hq : '\n' ≠ q) (triple : Bool) :
    expand .crlf (delimiter q triple) = delimiter q triple :=
  LineEnding.expand_of_not_mem fun hmem => hq (eq_of_mem_delimiter hmem)

def AgreesAt (depth : Nat) (t : Text) : Prop :=
  ∀ l l', SamePlace l l' → colonsAt depth l (expand .crlf t) = colonsAt depth l' t

def AgreesIn (q : Char) (triple : Bool) (depth : Nat) (t : Text) : Prop :=
  ∀ l l', SamePlace l l' →
    colonsIn q triple depth l (expand .crlf t) = colonsIn q triple depth l' t

/-- The backslash escapes the carriage return alone. What this leaves of the line end goes into the
literal only within triple quotes. -/
theorem agreesIn_escape (hq : isQuote q) (hc : c = '\n' → triple = true)
    (ht : AgreesIn q triple depth t) : AgreesIn q triple depth ('\\' :: c :: t) := by
  intro l l' h
  rw [expand_cons (by decide), colonsIn_escape]
  by_cases hnewline : c = '\n'
  · have hstarts := not_starts_with_delimiter (ne_of_isQuote hq).2.2 triple
    subst hnewline
    rw [expand_crlf_newline, colonsIn_escape,
      colonsIn_cons (by decide) (hstarts _) (by simp [hc rfl])]
    exact ht _ _ (h.advance '\\').newline
  · rw [expand_cons hnewline, colonsIn_escape]
    exact ht _ _ ((h.advance '\\').advance c)

theorem agreesIn_delimiter (hq : isQuote q) (hrest : AgreesAt depth rest) :
    AgreesIn q triple depth (delimiter q triple ++ rest) := by
  obtain ⟨hbackslash, -, hnewline⟩ := ne_of_isQuote hq
  intro l l' h
  rw [LineEnding.expand_append, expand_delimiter hnewline, colonsIn_delimiter hbackslash,
    colonsIn_delimiter hbackslash]
  exact hrest _ _ (h.after _)

theorem agreesIn_cons (hq : isQuote q) (hc : c ≠ '\\') (hnewline : c ≠ '\n')
    (hstarts : ¬delimiter q triple <+: c :: t) (ht : AgreesIn q triple depth t) :
    AgreesIn q triple depth (c :: t) := by
  have hexpand : ¬delimiter q triple <+: c :: expand .crlf t := by
    rwa [← expand_cons hnewline, starts_expand_quotes_iff hq fun _ => eq_of_mem_delimiter]
  intro l l' h
  rw [expand_cons hnewline, colonsIn_cons hc hexpand fun _ => hnewline,
    colonsIn_cons hc hstarts fun _ => hnewline]
  exact ht _ _ (h.advance c)

/-- The literal ends, with the carriage return or in front of the line feed. -/
theorem agreesIn_newline (hq : isQuote q) (ht : AgreesAt depth ('\n' :: t)) :
    AgreesIn q false depth ('\n' :: t) := by
  obtain ⟨-, hreturn, hnewline⟩ := ne_of_isQuote hq
  intro l l' h
  rw [colonsIn_newline hnewline, ← ht l l' h, expand_crlf_newline,
    colonsIn_cons (by decide) (not_starts_with_delimiter hreturn false _) (by decide),
    colonsIn_newline hnewline, colonsAt_plain (c := '\r') (by decide)]

theorem agreesIn_triple_newline (hq : isQuote q) (ht : AgreesIn q true depth t) :
    AgreesIn q true depth ('\n' :: t) := by
  obtain ⟨-, hreturn, hnewline⟩ := ne_of_isQuote hq
  intro l l' h
  rw [expand_crlf_newline,
    colonsIn_cons (by decide) (not_starts_with_delimiter hreturn true _) (by simp),
    colonsIn_cons (by decide) (not_starts_with_delimiter hnewline true _) (by simp),
    colonsIn_cons (by decide) (not_starts_with_delimiter hnewline true _) (by simp)]
  exact ht _ _ h.newline

theorem agreesIn_of_not_mem (hq : isQuote q)
    (hline : triple = false → '\n' ∉ t.take (closingLength q triple t))
    (hrest : AgreesAt depth (t.drop (closingLength q triple t))) : AgreesIn q triple depth t := by
  obtain ⟨hbackslash, -, hquote⟩ := ne_of_isQuote hq
  -- What the literal reads first is read from the front of `hline` and `hrest` too.
  induction t using escape_induction with
  | nil => exact fun _ _ _ => rfl
  | backslash => exact fun _ _ _ => rfl
  | escape c t ih =>
      rw [closingLength_escape, Nat.add_comm] at hline hrest
      simp only [List.take_succ_cons, List.drop_succ_cons, List.mem_cons, not_or] at hline hrest
      refine agreesIn_escape hq (fun hc => ?_) (ih (fun htriple => (hline htriple).2.2) hrest)
      rw [← Bool.not_eq_false]
      exact fun htriple => (hline htriple).2.1 hc.symm
  | plain c t hc ih =>
      by_cases hstarts : delimiter q triple <+: c :: t
      · rw [closingLength_delimiter hbackslash hstarts] at hrest
        obtain ⟨rest, hparts⟩ := hstarts
        rw [← hparts, List.drop_left] at hrest
        exact hparts ▸ agreesIn_delimiter hq hrest
      by_cases hnewline : c = '\n'
      · subst hnewline
        cases triple with
        | false =>
            rw [closingLength_newline hquote, List.drop_zero] at hrest
            exact agreesIn_newline hq hrest
        | true =>
            rw [closingLength_cons hc hstarts (by simp), Nat.add_comm, List.drop_succ_cons] at hrest
            exact agreesIn_triple_newline hq (ih (by simp) hrest)
      · rw [closingLength_cons hc hstarts fun _ => hnewline, Nat.add_comm] at hline hrest
        simp only [List.take_succ_cons, List.drop_succ_cons, List.mem_cons, not_or] at hline hrest
        exact agreesIn_cons hq hc hnewline hstarts (ih (fun htriple => (hline htriple).2) hrest)

theorem agreesAt_comment (ht : '\n' ∉ t) (hend : rest = [] ∨ rest.head? = some '\n')
    (hrest : AgreesAt depth rest) : AgreesAt depth ('#' :: (t ++ rest)) := by
  intro l l' h
  rw [colonsAt_comment ht hend, ← hrest _ _ (h.after ('#' :: t)), expand_cons (by decide),
    LineEnding.expand_append, LineEnding.expand_of_not_mem ht]
  cases rest with
  | nil => exact colonsAt_comment ht (.inl rfl)
  | cons c rest =>
      obtain rfl : c = '\n' := by simpa using hend
      have hline : '\n' ∉ t ++ ['\r'] := by simpa using ht
      have hparts : t ++ '\r' :: '\n' :: expand .crlf rest =
          (t ++ ['\r']) ++ '\n' :: expand .crlf rest := by simp
      rw [expand_crlf_newline, hparts, colonsAt_comment hline (.inr rfl),
        colonsAt_plain (c := '\r') (by decide), ← List.cons_append, Location.after_append,
        Location.after_cons, Location.after_nil]

theorem head?_expand_crlf_iff (t : Text) :
    (expand .crlf t).head? = some '=' ↔ t.head? = some '=' := by
  cases t with
  | nil => rfl
  | cons c t =>
      by_cases hc : c = '\n'
      · subst hc
        simp [expand_crlf_newline]
      · rw [expand_cons hc]
        rfl

theorem agreesAt_punctuation (hc : c ∈ punctuation) (ht : ∀ depth, AgreesAt depth t) :
    AgreesAt depth (c :: t) := by
  have hnewline : c ≠ '\n' := by
    rintro rfl
    exact absurd hc (by decide)
  have hkind : c ∈ ['(', '[', '{'] ∨ c ∈ [')', ']', '}'] ∨ c = ':' := by
    simpa [punctuation, or_assoc] using hc
  intro l l' h
  rw [expand_cons hnewline]
  rcases hkind with hopening | hclosing | rfl
  · rw [colonsAt_opening hopening, colonsAt_opening hopening]
    exact ht _ _ _ (h.advance c)
  · rw [colonsAt_closing hclosing, colonsAt_closing hclosing]
    exact ht _ _ _ (h.advance c)
  · rw [colonsAt_colon, colonsAt_colon, ht _ _ _ (h.advance ':'), h.1, h.2]
    simp only [ne_eq, head?_expand_crlf_iff]

theorem agreesAt_plain (hc : c ∉ special) (ht : AgreesAt depth t) : AgreesAt depth (c :: t) := by
  intro l l' h
  rw [colonsAt_plain hc]
  by_cases hnewline : c = '\n'
  · subst hnewline
    rw [expand_crlf_newline, colonsAt_plain (by decide), colonsAt_plain (by decide)]
    exact ht _ _ h.newline
  · rw [expand_cons hnewline, colonsAt_plain hc]
    exact ht _ _ (h.advance c)

theorem agreesAt_string (hq : isQuote q) (ht : triple = false → ¬[q, q] <+: t)
    (hliteral : ¬IsContinued (delimiter q triple ++ t.take (closingLength q triple t)))
    (hrest : AgreesAt depth (t.drop (closingLength q triple t))) :
    AgreesAt depth (delimiter q triple ++ t) := by
  have hline : triple = false → '\n' ∉ t.take (closingLength q triple t) := by
    rintro rfl hmem
    exact hliteral ⟨hmem, fun hpair => ht rfl (hpair.trans (List.take_prefix _ _))⟩
  have hpair : triple = false → ¬[q, q] <+: expand .crlf t := by
    rwa [starts_expand_quotes_iff hq (by simp)]
  intro l l' h
  rw [LineEnding.expand_append, expand_delimiter (ne_of_isQuote hq).2.2, colonsAt_delimiter hq ht,
    colonsAt_delimiter hq hpair]
  exact agreesIn_of_not_mem hq hline hrest _ _ (h.after _)

theorem agreesAt_of_literals (h : ∀ s ∈ literals t, ¬IsContinued s) (depth : Nat) :
    AgreesAt depth t := by
  induction t using scan_induction generalizing depth with
  | nil => exact fun _ _ _ => rfl
  | string q triple t hq ht ih =>
      obtain ⟨hliteral, hliterals⟩ := List.forall_mem_cons.1 (literals_string hq ht ▸ h)
      exact agreesAt_string hq ht hliteral (ih hliterals depth)
  | comment t rest ht hend ih =>
      rw [literals_comment ht hend] at h
      exact agreesAt_comment ht hend (ih h depth)
  | other c t hc hquote ih =>
      rw [literals_other hc hquote] at h
      by_cases hpunctuation : c ∈ punctuation
      · exact agreesAt_punctuation hpunctuation (ih h)
      · exact agreesAt_plain (not_mem_special_iff.2 ⟨hpunctuation, hc, hquote⟩) (ih h depth)

/-- The line ends of a header have no part in its colons, if none is escaped in a literal without
triple quotes. -/
theorem topLevelColons_crlf (h : ∀ s ∈ literals t, ¬IsContinued s) :
    topLevelColons (expand .crlf t) = topLevelColons t :=
  agreesAt_of_literals h 0 .origin .origin ⟨rfl, rfl⟩

theorem topLevelColons_crlf_header :
    (∀ s ∈ literals "f(a='\\':',\n  b=\"\"\"\\\n:\"\"\"):  # it's\n:".toList, ¬IsContinued s) ∧
    topLevelColons "f(a='\\':',\r\n  b=\"\"\"\\\r\n:\"\"\"):  # it's\r\n:".toList =
      [⟨2, 6⟩, ⟨3, 1⟩] :=
  have h : ∀ s ∈ literals "f(a='\\':',\n  b=\"\"\"\\\n:\"\"\"):  # it's\n:".toList,
    ¬IsContinued s := by decide
  ⟨h, (topLevelColons_crlf h).trans (by decide)⟩

/-- An escaped line end in a literal may be the end of it. -/
theorem topLevelColons_crlf_reachable :
    '\r' ∉ "def f(a='\\\n:'):".toList ∧ topLevelColons "def f(a='\\\n:'):".toList = [⟨1, 4⟩] ∧
    topLevelColons (expand .crlf "def f(a='\\\n:'):".toList) = [] := by
  decide

end DocstringEditor.Header
