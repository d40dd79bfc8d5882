import DocstringEditor.Proofs.Header.Escape
import DocstringEditor.Proofs.Syntax.Place

namespace DocstringEditor.Header

open Syntax (Location)

variable {l : Location} {c : Char} {t u rest : Text} {depth : Nat}

def colonsAt (depth : Nat) (l : Location) (t : Text) : List Colon :=
  colonsFrom 0 depth l.row l.column t

def punctuation : Text := ['(', '[', '{', ')', ']', '}', ':']

def special : Text := punctuation ++ ['#', '"', '\'']

theorem column_advance (l : Location) (c : Char) :
    (if c = '\n' then (l.row + 1, 0) else (l.row, l.column + c.utf8Size)) =
      ((l.advance c).row, (l.advance c).column) := by
  unfold Location.advance
  split <;> rfl

theorem colonsFrom_succ (n depth : Nat) (l : Location) (c : Char) (t : Text) :
    colonsFrom (n + 1) depth l.row l.column (c :: t) =
      colonsFrom n depth (l.advance c).row (l.advance c).column t := by
  rw [colonsFrom, column_advance]

theorem colonsFrom_eq (n depth : Nat) (l : Location) (t : Text) :
    colonsFrom n depth l.row l.column t = colonsAt depth (l.after (t.take n)) (t.drop n) := by
  induction t generalizing n l with
  | nil => cases n <;> rfl
  | cons c t ih =>
      cases n with
      | zero => rfl
      | succ n =>
          rw [colonsFrom_succ, ih, List.take_succ_cons, Location.after_cons, List.drop_succ_cons]

theorem colonsAt_opening (hc : c ∈ ['(', '[', '{']) :
    colonsAt depth l (c :: t) = colonsAt (depth + 1) (l.advance c) t := by
  rw [colonsAt, colonsFrom, column_advance]
  exact if_pos hc

theorem colonsAt_closing (hc : c ∈ [')', ']', '}']) :
    colonsAt depth l (c :: t) = colonsAt (depth - 1) (l.advance c) t := by
  have hopening : c ∉ ['(', '[', '{'] := by
    intro h
    simp only [List.mem_cons, List.not_mem_nil, or_false] at h hc
    rcases h with rfl | rfl | rfl <;> simp at hc
  rw [colonsAt, colonsFrom, column_advance]
  exact (if_neg hopening).trans (if_pos hc)

theorem stepLength_pos (c : Char) (t : Text) : 0 < stepLength (c :: t) := by
  rw [stepLength]
  split
  · omega
  split
  · rw [stringLength]
    split <;> omega
  split
  · dsimp only
    split <;> simp only [List.length_cons] <;> omega
  · omega

theorem colonsAt_step (hc : c ∉ punctuation) : colonsAt depth l (c :: t) =
    colonsAt depth (l.after ((c :: t).take (stepLength (c :: t))))
      ((c :: t).drop (stepLength (c :: t))) := by
  obtain ⟨n, hn⟩ := Nat.exists_eq_add_of_lt (stepLength_pos c t)
  simp only [punctuation, List.mem_cons, List.not_mem_nil, or_false, not_or] at hc
  have hopening : c ∉ ['(', '[', '{'] := by simp [hc]
  have hclosing : c ∉ [')', ']', '}'] := by simp [hc]
  rw [colonsAt, colonsFrom, column_advance]
  simp only [hopening, hclosing, hc.2.2.2.2.2.2, if_false]
  rw [hn, colonsFrom_eq, Nat.zero_add]
  rfl

theorem isQuote_iff : isQuote c ↔ c = '"' ∨ c = '\'' := by
  rw [isQuote, Bool.or_eq_true, decide_eq_true_eq, decide_eq_true_eq]

theorem ne_of_isQuote (hc : isQuote c) : c ≠ '\\' ∧ '\r' ≠ c ∧ '\n' ≠ c := by
  rcases isQuote_iff.1 hc with rfl | rfl <;> decide

theorem colonsAt_quote (hc : isQuote c) : colonsAt depth l (c :: t) =
    colonsAt depth (l.after ((c :: t).take (stringLength (c :: t))))
      ((c :: t).drop (stringLength (c :: t))) := by
  have hinert : c ∉ punctuation ∧ c ≠ '#' := by
    rcases isQuote_iff.1 hc with rfl | rfl <;> decide
  have hstep : stepLength (c :: t) = stringLength (c :: t) := by
    rw [stepLength, if_neg hinert.2, if_pos hc]
  rw [colonsAt_step hinert.1, hstep]

theorem takeWhile_line (ht : '\n' ∉ t) (hrest : rest = [] ∨ rest.head? = some '\n') :
    (t ++ rest).takeWhile (· ≠ '\n') = t := by
  have hall : ∀ c ∈ t, (decide (c ≠ '\n')) = true := by
    intro c hc
    simp only [decide_eq_true_eq]
    rintro rfl
    exact ht hc
  have hstop : rest.takeWhile (· ≠ '\n') = [] := by
    cases rest with
    | nil => rfl
    | cons c rest =>
        obtain rfl : c = '\n' := by simpa using hrest
        rfl
  rw [List.takeWhile_append_of_pos hall, hstop, List.append_nil]

theorem colonsAt_comment (ht : '\n' ∉ t) (hrest : rest = [] ∨ rest.head? = some '\n') :
    colonsAt depth l ('#' :: (t ++ rest)) = colonsAt depth (l.after ('#' :: t)) rest := by
  have hstep : stepLength ('#' :: (t ++ rest)) = ('#' :: t).length := by
    rw [stepLength, if_pos rfl, takeWhile_line ht hrest, List.length_cons, Nat.add_comm]
  rw [colonsAt_step (by decide), hstep, ← List.cons_append, List.take_left, List.drop_left]

theorem not_mem_special_iff : c ∉ special ↔ c ∉ punctuation ∧ c ≠ '#' ∧ ¬isQuote c := by
  rw [special, List.mem_append, not_or, isQuote_iff]
  simp

theorem not_mem_special_of_isWordChar (hc : isWordChar c) : c ∉ special := by
  have hall : special.all (!isWordChar ·) := by decide
  intro hmem
  have hword := List.all_eq_true.1 hall c hmem
  rw [hc] at hword
  cases hword

theorem colonsAt_word (hc : isWordChar c) : colonsAt depth l (c :: t) =
    colonsAt depth (l.after ((c :: t).takeWhile isWordChar)) ((c :: t).dropWhile isWordChar) := by
  obtain ⟨hpunctuation, hcomment, hquote⟩ :=
    not_mem_special_iff.1 (not_mem_special_of_isWordChar hc)
  have hparts : (c :: t).takeWhile isWordChar ++ (c :: t).dropWhile isWordChar = c :: t :=
    List.takeWhile_append_dropWhile
  rw [colonsAt_step hpunctuation, stepLength, if_neg hcomment, if_neg hquote,
    if_pos hc, ← List.takeWhile_cons_of_pos hc, ← List.dropWhile_cons_of_pos hc]
  generalize (c :: t).takeWhile isWordChar = word at hparts ⊢
  generalize (c :: t).dropWhile isWordChar = rest at hparts ⊢
  rw [← hparts]
  dsimp only
  split
  · -- The literal behind a prefix is what the next step would go over.
    rename_i hstring
    rw [Bool.and_eq_true, Option.any_eq_true] at hstring
    obtain ⟨q, hrest, hq⟩ := hstring.1
    obtain ⟨tail, rfl⟩ := List.head?_eq_some_iff.1 hrest
    rw [List.take_length_add_append, List.drop_length_add_append, Location.after_append,
      ← colonsAt_quote hq]
  · rw [List.take_left, List.drop_left]

theorem colonsAt_plain (hc : c ∉ special) :
    colonsAt depth l (c :: t) = colonsAt depth (l.advance c) t := by
  by_cases hword : isWordChar c
  · rw [colonsAt_word hword, List.takeWhile_cons_of_pos hword, List.dropWhile_cons_of_pos hword,
      Location.after_cons]
    cases t with
    | nil => rfl
    | cons d t =>
        by_cases hd : isWordChar d
        · rw [colonsAt_word hd]
        · rw [List.takeWhile_cons_of_neg hd, List.dropWhile_cons_of_neg hd, Location.after_nil]
  · obtain ⟨hpunctuation, hcomment, hquote⟩ := not_mem_special_iff.1 hc
    rw [colonsAt_step hpunctuation, stepLength, if_neg hcomment, if_neg hquote, if_neg hword]
    rfl

/-- A colon is one of those sought within no brackets, unless it is half of a `:=`. -/
theorem colonsAt_colon : colonsAt depth l (':' :: t) =
    (if depth = 0 ∧ t.head? ≠ some '=' then [⟨l.row, l.column + 1⟩] else []) ++
      colonsAt depth (l.advance ':') t := by
  have hbracket : ':' ∉ ['(', '[', '{'] ∧ ':' ∉ [')', ']', '}'] := by decide
  rw [colonsAt, colonsFrom, column_advance]
  simp only [hbracket.1, hbracket.2, if_true, if_false]
  by_cases ht : t.head? = some '='
  · obtain ⟨u, rfl⟩ := List.head?_eq_some_iff.1 ht
    have hskip := colonsFrom_eq 1 depth (l.advance ':') ('=' :: u)
    rw [if_pos ht, if_neg fun h => h.2 ht, List.nil_append, colonsAt_plain (by decide)]
    exact hskip
  · by_cases hdepth : depth = 0
    · rw [if_neg ht, if_pos hdepth, if_pos ⟨hdepth, ht⟩]
      rfl
    · rw [if_neg ht, if_neg hdepth, if_neg fun h => hdepth h.1]
      rfl

theorem colonsAt_append (hu : ∀ c ∈ u, c ∉ special) :
    colonsAt depth l (u ++ t) = colonsAt depth (l.after u) t := by
  induction u generalizing l with
  | nil => rfl
  | cons c u ih =>
      obtain ⟨hc, hu⟩ := List.forall_mem_cons.1 hu
      rw [List.cons_append, colonsAt_plain hc, ih hu, Location.after_cons]

end DocstringEditor.Header
