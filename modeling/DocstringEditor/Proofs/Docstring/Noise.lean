import Mathlib.Data.List.DropRight
import DocstringEditor.Docstring.Body
import DocstringEditor.Proofs.Text.Pattern

namespace DocstringEditor.Docstring

open Pattern

variable {t u read : Text} {g : Option Text} {c : Char}

theorem rdropWhile_append_dropWhile (t : Text) :
    (t.takeWhile isNoise).rdropWhile (!isLineBreak ·) ++
      ((t.takeWhile isNoise).rtakeWhile (!isLineBreak ·) ++ t.dropWhile isNoise) = t := by
  rw [← List.append_assoc, List.rdropWhile_append_rtakeWhile, List.takeWhile_append_dropWhile]

theorem dropLeadingNoise_eq (t : Text) : dropLeadingNoise t =
    (t.takeWhile isNoise).rtakeWhile (!isLineBreak ·) ++ t.dropWhile isNoise := by
  obtain ⟨lead, hlead⟩ : ∃ lead, lead = (t.takeWhile isNoise).rdropWhile (!isLineBreak ·) :=
    ⟨_, rfl⟩
  have hlength : (t.takeWhile isNoise).length -
      ((t.takeWhile isNoise).reverse.takeWhile (!isLineBreak ·)).length = lead.length := by
    have := congrArg List.length
      (@List.rdropWhile_append_rtakeWhile _ (!isLineBreak ·) (t.takeWhile isNoise))
    rw [← hlead, List.length_append, List.rtakeWhile, List.length_reverse] at this
    omega
  have hparts := rdropWhile_append_dropWhile t
  rw [← hlead] at hparts
  calc dropLeadingNoise t = t.drop lead.length := congrArg t.drop hlength
    _ = (lead ++ ((t.takeWhile isNoise).rtakeWhile (!isLineBreak ·) ++
          t.dropWhile isNoise)).drop lead.length := by rw [hparts]
    _ = _ := List.drop_left

/-- The noise that a text starts with, up to its last line break and behind it. -/
structure LeadingNoise (lead kept rest : Text) : Prop where
  noise : ∀ c ∈ lead ++ kept, isNoise c
  broken : ∀ h : lead ≠ [], isLineBreak (lead.getLast h)
  unbroken : ∀ c ∈ kept, ¬isLineBreak c
  ends : ∀ c, rest.head? = some c → ¬isNoise c

theorem exists_dropLeadingNoise (t : Text) : ∃ lead kept rest,
    t = lead ++ (kept ++ rest) ∧ dropLeadingNoise t = kept ++ rest ∧
      LeadingNoise lead kept rest := by
  refine ⟨(t.takeWhile isNoise).rdropWhile (!isLineBreak ·),
    (t.takeWhile isNoise).rtakeWhile (!isLineBreak ·), t.dropWhile isNoise,
    (rdropWhile_append_dropWhile t).symm, dropLeadingNoise_eq t, ⟨?_, ?_, ?_, ?_⟩⟩
  · rw [List.rdropWhile_append_rtakeWhile]
    exact fun c hc => List.mem_takeWhile_imp hc
  · intro hne
    simpa using List.rdropWhile_last_not _ _ hne
  · intro c hc
    simpa using List.mem_rtakeWhile_imp hc
  · intro c hc
    have := List.head?_dropWhile_not isNoise t
    simpa [hc] using this

theorem isNoise_of_isLineBreak (h : isLineBreak c) : isNoise c := by
  rw [isLineBreak, Bool.or_eq_true, decide_eq_true_eq, decide_eq_true_eq] at h
  rcases h with rfl | rfl <;> decide

namespace LeadingNoise

variable {lead kept rest : Text}

theorem of_lead (h : LeadingNoise (c :: lead) kept rest) : LeadingNoise lead kept rest where
  noise d hd := h.noise d (List.mem_cons_of_mem c hd)
  broken hne := by
    rw [← List.getLast_cons hne]
    exact h.broken (List.cons_ne_nil c lead)
  unbroken := h.unbroken
  ends := h.ends

theorem of_kept (h : LeadingNoise [] (c :: kept) rest) : LeadingNoise [] kept rest where
  noise d hd := h.noise d (List.mem_cons_of_mem c hd)
  broken := nofun
  unbroken d hd := h.unbroken d (List.mem_cons_of_mem c hd)
  ends := h.ends

theorem kept_only (h : LeadingNoise lead kept rest) : LeadingNoise [] kept rest where
  noise c hc := h.noise c (List.mem_append_right lead hc)
  broken := nofun
  unbroken := h.unbroken
  ends := h.ends

theorem head?_kept (h : LeadingNoise lead kept rest) :
    ∀ c, (kept ++ rest).head? = some c → ¬isLineBreak c := by
  intro c hc
  cases kept with
  | nil => exact fun hbreak => h.ends c hc (isNoise_of_isLineBreak hbreak)
  | cons d kept =>
      obtain rfl := Option.some.inj hc
      exact h.unbroken d List.mem_cons_self

theorem takeWhile_kept (h : LeadingNoise lead kept rest) :
    (lead ++ (kept ++ rest)).takeWhile isNoise = lead ++ kept := by
  have hnil : rest.takeWhile isNoise = [] := by
    cases rest with
    | nil => rfl
    | cons c rest => exact List.takeWhile_cons_of_neg (h.ends c rfl)
  rw [← List.append_assoc, List.takeWhile_append_of_pos h.noise, hnil, List.append_nil]

theorem dropLeadingNoise_eq (h : LeadingNoise lead kept rest) :
    dropLeadingNoise (lead ++ (kept ++ rest)) = kept ++ rest := by
  have hnoise : (lead ++ (kept ++ rest)).takeWhile isNoise = lead ++ kept := h.takeWhile_kept
  have hrest : (lead ++ (kept ++ rest)).dropWhile isNoise = rest := by
    have hparts := @List.takeWhile_append_dropWhile _ isNoise (lead ++ (kept ++ rest))
    rw [hnoise, ← List.append_assoc lead] at hparts
    rw [← List.append_assoc lead]
    exact List.append_cancel_left hparts
  have hkept : (lead ++ kept).rtakeWhile (!isLineBreak ·) = kept := by
    have hreverse : ∀ c ∈ kept.reverse, (!isLineBreak c) = true := by simpa using h.unbroken
    rw [List.rtakeWhile, List.reverse_append, List.takeWhile_append_of_pos hreverse]
    rcases List.eq_nil_or_concat lead with rfl | ⟨lead, c, rfl⟩
    · simp
    · have hbroken := h.broken (by simp)
      simp_all
  rw [Docstring.dropLeadingNoise_eq, hnoise, hkept, hrest]

end LeadingNoise

theorem dropTrailingNoise_prefix (t : Text) : dropTrailingNoise t <+: t :=
  List.rdropWhile_prefix isNoise t

theorem mem_takeWhile_append {p : Char → Bool} {c : Char} (h : c ∈ t.takeWhile p) :
    c ∈ (t ++ u).takeWhile p := by
  rw [List.takeWhile_append]
  split
  · exact List.mem_append_left _ ((List.takeWhile_prefix p).mem h)
  · exact h

theorem lead_dropLeadingNoise (t : Text) :
    ∀ c ∈ (dropLeadingNoise t).takeWhile isNoise, ¬isLineBreak c := by
  obtain ⟨lead, kept, rest, -, hdrop, h⟩ := exists_dropLeadingNoise t
  have hkept : (kept ++ rest).takeWhile isNoise = kept := h.kept_only.takeWhile_kept
  rw [hdrop, hkept]
  exact h.unbroken

theorem dropLeadingNoise_eq_self (ht : ∀ c ∈ t.takeWhile isNoise, ¬isLineBreak c) :
    dropLeadingNoise t = t := by
  obtain ⟨lead, kept, rest, hparts, hdrop, h⟩ := exists_dropLeadingNoise t
  rw [hparts, h.takeWhile_kept] at ht
  obtain rfl : lead = [] := by
    by_contra hne
    exact ht _ (List.mem_append_left kept (List.getLast_mem hne)) (h.broken hne)
  rw [hdrop, hparts, List.nil_append]

theorem last_dropTrailingNoise (t : Text) :
    ∀ c, (dropTrailingNoise t).getLast? = some c → ¬isNoise c := by
  intro c hc
  have hne : dropTrailingNoise t ≠ [] := fun hnil => by simp [hnil] at hc
  obtain rfl := Option.some.inj ((List.getLast?_eq_some_getLast hne).symm.trans hc)
  exact List.rdropWhile_last_not isNoise t hne

theorem dropTrailingNoise_eq_self (h : ∀ c, t.getLast? = some c → ¬isNoise c) :
    dropTrailingNoise t = t :=
  List.rdropWhile_eq_self_iff.2 fun hne => h _ (List.getLast?_eq_some_getLast hne)

def linePattern : Pattern := .seq (.many true (.one isNoise)) (.plus true (.one isLineBreak))

def noisePattern : Pattern :=
  .or (.seq .start (.plus true linePattern)) (.seq (.many true (.one isNoise)) .stop)

theorem first?_breaks_of_forall (h : ∀ c, t.head? = some c → ¬isLineBreak c) :
    (plus true (one isLineBreak)).first? ⟨read, t, g⟩ = none := by
  rw [first?_plus, first?, ends_one_of_forall h]
  rfl

theorem first?_breaks_cons (hc : isLineBreak c) (h : ∀ c, t.head? = some c → ¬isLineBreak c) :
    (plus true (one isLineBreak)).first? ⟨read, c :: t, g⟩ = some ⟨c :: read, t, g⟩ := by
  have hone : (one isLineBreak).first? ⟨read, c :: t, g⟩ = some ⟨c :: read, t, g⟩ := by
    rw [first?, ends_one_cons hc, List.head?_cons]
  have hnone : (one isLineBreak).first? ⟨c :: read, t, g⟩ = none :=
    first?_eq_none.2 (ends_one_of_forall h)
  rw [first?_plus, hone, Option.bind_some, first?_many_of_none hnone]

theorem first?_linePattern_of_kept {kept rest : Text} (h : LeadingNoise [] kept rest) :
    linePattern.first? ⟨read, kept ++ rest, g⟩ = none := by
  induction kept generalizing read with
  | nil =>
      rw [linePattern, List.nil_append, first?_greedy_of_forall h.ends]
      exact first?_breaks_of_forall h.head?_kept
  | cons c kept ih =>
      have hc : isNoise c := h.noise c List.mem_cons_self
      have ih : linePattern.first? ⟨c :: read, kept ++ rest, g⟩ = none := ih h.of_kept
      rw [linePattern] at ih ⊢
      rw [List.cons_append, first?_greedy_cons hc, ih, Option.none_or]
      exact first?_breaks_of_forall h.head?_kept

theorem first?_linePattern {lead kept rest : Text} (h : LeadingNoise lead kept rest)
    (hne : lead ≠ []) : linePattern.first? ⟨read, lead ++ (kept ++ rest), g⟩ =
      some ⟨lead.reverse ++ read, kept ++ rest, g⟩ := by
  induction lead generalizing read with
  | nil => exact absurd rfl hne
  | cons c lead ih =>
      have hc : isNoise c := h.noise c List.mem_cons_self
      by_cases hnil : lead = []
      · subst hnil
        have hnone : linePattern.first? ⟨c :: read, kept ++ rest, g⟩ = none :=
          first?_linePattern_of_kept h.of_lead
        rw [linePattern] at hnone ⊢
        rw [List.cons_append, List.nil_append, first?_greedy_cons hc, hnone, Option.none_or]
        exact first?_breaks_cons (h.broken hne) h.head?_kept
      · have ih : linePattern.first? ⟨c :: read, lead ++ (kept ++ rest), g⟩ =
            some ⟨lead.reverse ++ (c :: read), kept ++ rest, g⟩ := ih h.of_lead hnil
        rw [linePattern] at ih ⊢
        rw [List.cons_append, first?_greedy_cons hc, ih, Option.some_or]
        simp

theorem first?_trailing (read t : Text) (g : Option Text) :
    (seq (many true (one isNoise)) stop).first? ⟨read, t, g⟩ =
      if t.all isNoise then some ⟨t.reverse ++ read, [], g⟩ else none := by
  induction t generalizing read with
  | nil =>
      rw [first?_greedy_of_forall (by simp)]
      rfl
  | cons c t ih =>
      by_cases hc : isNoise c
      · rw [first?_greedy_cons hc, ih, List.all_cons, hc, Bool.true_and]
        by_cases hall : t.all isNoise
        · simp [hall]
        · simp [hall, first?, ends]
      · rw [first?_greedy_of_forall (by simpa using hc)]
        simp [hc, first?, ends]

theorem first?_noisePattern_of_none (h : linePattern.first? ⟨read, t, none⟩ = none ∨ read ≠ []) :
    noisePattern.first? ⟨read, t, none⟩ =
      if t.all isNoise then some ⟨t.reverse ++ read, [], none⟩ else none := by
  have hlines : (seq .start (plus true linePattern)).first? ⟨read, t, none⟩ = none := by
    rw [first?_seq, ends]
    by_cases hread : read = []
    · have hnone := h.resolve_right (absurd hread ·)
      rw [if_pos hread, List.findSome?_singleton, first?_plus, hnone, Option.bind_none]
    · rw [if_neg hread, List.findSome?_nil]
  rw [noisePattern, first?_or, hlines, Option.none_or, first?_trailing]

theorem dropTrailingNoise_of_all (h : t.all isNoise) : dropTrailingNoise t = [] :=
  List.rdropWhile_eq_nil_iff.2 (List.all_eq_true.1 h)

theorem dropTrailingNoise_cons (h : ¬(c :: t).all isNoise) :
    dropTrailingNoise (c :: t) = c :: dropTrailingNoise t := by
  obtain ⟨d, hmem, hd⟩ : ∃ d ∈ c :: t, ¬isNoise d := by
    by_contra hnone
    exact h (List.all_eq_true.2 fun d hd => by_contra fun hnoise => hnone ⟨d, hd, hnoise⟩)
  rw [dropTrailingNoise, dropTrailingNoise, List.reverse_cons, List.dropWhile_append]
  by_cases hall : t.reverse.dropWhile isNoise = []
  · have hnoise : ∀ c ∈ t, isNoise c := by simpa [List.dropWhile_eq_nil_iff] using hall
    obtain rfl : d = c := (List.mem_cons.1 hmem).resolve_right fun ht => hd (hnoise d ht)
    simp [hall, hd]
  · simp [hall]

/-- Away from the start, and where no lines of noise start a text, the noise at its end goes. -/
theorem eraseFrom_noisePattern (h : linePattern.first? ⟨read, t, none⟩ = none ∨ read ≠ []) :
    noisePattern.eraseFrom read t = dropTrailingNoise t := by
  induction t generalizing read with
  | nil =>
      rw [eraseFrom, first?_noisePattern_of_none h]
      rfl
  | cons c t ih =>
      rw [eraseFrom, first?_noisePattern_of_none h]
      by_cases hall : (c :: t).all isNoise
      -- The match reaches the end, where only an empty one is left.
      · have hread : (c :: t).reverse ++ read ≠ [] := by simp
        rw [if_pos hall, dropTrailingNoise_of_all hall]
        simp only [List.length_nil, List.length_cons, Nat.zero_lt_succ, if_true]
        rw [eraseFrom, first?_noisePattern_of_none (.inr hread)]
        rfl
      · rw [if_neg hall, dropTrailingNoise_cons hall, ih (.inr (List.cons_ne_nil c read))]

theorem erase_noisePattern (t : Text) :
    noisePattern.erase t = dropTrailingNoise (dropLeadingNoise t) := by
  obtain ⟨lead, kept, rest, hparts, hdrop, h⟩ := exists_dropLeadingNoise t
  have hnone (read : Text) : linePattern.first? ⟨read, kept ++ rest, none⟩ = none :=
    first?_linePattern_of_kept h.kept_only
  rw [erase, hdrop, hparts]
  -- Lines of noise are matched once, at the start, and behind them only the end can match.
  by_cases hne : lead = []
  · rw [hne]
    exact eraseFrom_noisePattern (.inl (hnone []))
  · have hread : lead.reverse ++ [] ≠ [] := by simpa using hne
    have hfirst : noisePattern.first? ⟨[], lead ++ (kept ++ rest), none⟩ =
        some ⟨lead.reverse ++ [], kept ++ rest, none⟩ := by
      rw [noisePattern, first?_or, first?_seq, ends, if_pos rfl, List.findSome?_singleton,
        first?_plus, first?_linePattern h hne, Option.bind_some,
        first?_many_of_none (hnone _), Option.some_or]
    have hlength : (kept ++ rest).length < (lead ++ (kept ++ rest)).length := by
      have := List.length_pos_iff.2 hne
      simp only [List.length_append]
      omega
    rw [eraseFrom.eq_def, hfirst]
    simp only [if_pos hlength]
    exact eraseFrom_noisePattern (.inr hread)

end DocstringEditor.Docstring
