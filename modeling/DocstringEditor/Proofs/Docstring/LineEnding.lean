import DocstringEditor.Proofs.Docstring.RoundTrip
import DocstringEditor.Proofs.Text.LineEnding

namespace DocstringEditor.Docstring

open LineEnding (expand expand_append expand_cons expand_crlf_newline expand_newline
  expand_of_not_mem getLast?_expand starts_expand_iff)

variable {t u : Text} {c : Char}

theorem quotes_prefix_expand_iff (t : Text) : quotes <+: expand .crlf t ↔ quotes <+: t :=
  starts_expand_iff (List.forall_iff_forall_mem.1 (by decide))

theorem upToQuotes?_expand_crlf (t : Text) :
    upToQuotes? (expand .crlf t) = (upToQuotes? t).map (expand .crlf) := by
  induction t with
  | nil => rfl
  | cons c t ih =>
      by_cases hc : c = '\n'
      · subst hc
        rw [expand_newline, upToQuotes?_append_of_not_mem (by decide),
          upToQuotes?_cons (not_quotes_prefix_cons (by decide)), ih]
        simp [Function.comp_def, expand_newline]
      · have hquotes := quotes_prefix_expand_iff (c :: t)
        rw [expand_cons hc] at hquotes ⊢
        by_cases h : quotes <+: c :: t
        · rw [upToQuotes?, upToQuotes?, if_pos (List.isPrefixOf_iff_prefix.2 h),
            if_pos (List.isPrefixOf_iff_prefix.2 (hquotes.2 h))]
          rfl
        · rw [upToQuotes?_cons h, upToQuotes?_cons (mt hquotes.1 h), ih]
          simp [Function.comp_def, expand_cons hc]

theorem quoted?_expand_crlf (t : Text) :
    quoted? (expand .crlf t) = (quoted? t).map (expand .crlf) := by
  induction t with
  | nil => rfl
  | cons c t ih =>
      by_cases hc : c = '\n'
      · subst hc
        rw [expand_newline, quoted?_append_of_not_mem (by decide),
          quoted?_cons (not_quotes_prefix_cons (by decide)), ih]
      · by_cases h : quotes <+: c :: t
        · obtain ⟨rest, hrest⟩ := h
          rw [← hrest, expand_append, expand_of_not_mem (by decide)]
          cases rest with
          | nil => rfl
          -- The character right behind the quotes is taken without a look at it. From a line end
          -- that is the carriage return alone.
          | cons d rest =>
              by_cases hd : d = '\n'
              · subst hd
                rw [expand_crlf_newline, quoted?_quotes, quoted?_quotes,
                  upToQuotes?_cons (not_quotes_prefix_cons (by decide)), upToQuotes?_expand_crlf]
                simp [Function.comp_def, expand_crlf_newline]
              · rw [expand_cons hd, quoted?_quotes, quoted?_quotes, upToQuotes?_expand_crlf]
                simp [Function.comp_def, expand_cons hd]
        · have hquotes := mt (quotes_prefix_expand_iff (c :: t)).1 h
          rw [expand_cons hc] at hquotes ⊢
          rw [quoted?_cons hquotes, quoted?_cons h, ih]

theorem isNoise_expand_crlf (h : ∀ c ∈ t, isNoise c) : ∀ c ∈ expand .crlf t, isNoise c := by
  intro c hc
  rcases LineEnding.mem_expand hc with ht | hend
  · exact h c ht
  · exact List.all_eq_true.1 (show LineEnding.crlf.text.all isNoise by decide) c hend

theorem LeadingNoise.expand_crlf {lead kept rest : Text} (h : LeadingNoise lead kept rest) :
    LeadingNoise (expand .crlf lead) kept (expand .crlf rest) where
  noise := by
    rw [List.forall_mem_append]
    have hnoise := List.forall_mem_append.1 h.noise
    exact ⟨isNoise_expand_crlf hnoise.1, hnoise.2⟩
  broken hne := by
    have hlead : lead ≠ [] := by
      rintro rfl
      exact hne rfl
    have hlast := getLast?_expand .crlf lead
    rw [List.getLast?_eq_some_getLast hne, List.getLast?_eq_some_getLast hlead] at hlast
    rw [Option.some.inj hlast]
    exact h.broken hlead
  unbroken := h.unbroken
  ends c hc := by
    cases rest with
    | nil => cases hc
    | cons d rest =>
        have hd : ¬isNoise d := h.ends d rfl
        have hnewline : d ≠ '\n' := by
          rintro rfl
          exact hd (by decide)
        rw [expand_cons hnewline] at hc
        obtain rfl := Option.some.inj hc
        exact hd

theorem dropLeadingNoise_expand_crlf (t : Text) :
    dropLeadingNoise (expand .crlf t) = expand .crlf (dropLeadingNoise t) := by
  obtain ⟨lead, kept, rest, hparts, hdrop, h⟩ := exists_dropLeadingNoise t
  have hkept : expand .crlf kept = kept :=
    expand_of_not_mem fun hmem => h.unbroken '\n' hmem (by decide)
  rw [hdrop, hparts, expand_append, expand_append, hkept, h.expand_crlf.dropLeadingNoise_eq]

theorem dropTrailingNoise_expand_crlf (t : Text) :
    dropTrailingNoise (expand .crlf t) = expand .crlf (dropTrailingNoise t) := by
  have hparts : dropTrailingNoise t ++ t.rtakeWhile isNoise = t :=
    List.rdropWhile_append_rtakeWhile
  have hnoise : ∀ c ∈ t.rtakeWhile isNoise, isNoise c := fun c hc => List.mem_rtakeWhile_imp hc
  have hlast : ∀ c, (expand .crlf (dropTrailingNoise t)).getLast? = some c → ¬isNoise c := by
    rw [getLast?_expand]
    exact last_dropTrailingNoise t
  calc dropTrailingNoise (expand .crlf t)
      = dropTrailingNoise (expand .crlf (dropTrailingNoise t) ++
          expand .crlf (t.rtakeWhile isNoise)) := by rw [← expand_append, hparts]
    _ = dropTrailingNoise (expand .crlf (dropTrailingNoise t)) :=
        dropTrailingNoise_append (isNoise_expand_crlf hnoise)
    _ = expand .crlf (dropTrailingNoise t) := dropTrailingNoise_eq_self hlast

theorem takeWhile_expand_crlf (t : Text) :
    (expand .crlf t).takeWhile (· = ' ') = t.takeWhile (· = ' ') := by
  induction t with
  | nil => rfl
  | cons c t ih =>
      by_cases hc : c = '\n'
      · subst hc
        rfl
      · rw [expand_cons hc, List.takeWhile_cons, List.takeWhile_cons, ih]

theorem dropPrefix_expand_crlf (hu : ∀ c ∈ u, c = ' ') (t : Text) :
    dropPrefix u (expand .crlf t) = expand .crlf (dropPrefix u t) := by
  have hstarts : u <+: expand .crlf t ↔ u <+: t := by
    refine starts_expand_iff fun c hc => ?_
    rw [hu c hc]
    decide
  by_cases h : u <+: t
  · obtain ⟨rest, rfl⟩ := h
    have hspaces : expand .crlf u = u :=
      expand_of_not_mem fun hmem => absurd (hu '\n' hmem) (by decide)
    rw [expand_append, hspaces, dropPrefix_append, dropPrefix_append]
  · rw [dropPrefix_of_not h, dropPrefix_of_not (mt hstarts.1 h)]

theorem dedent_expand_crlf (t : Text) : dedent (expand .crlf t) = expand .crlf (dedent t) := by
  obtain ⟨width, hwidth⟩ :
      ∃ width, width = ((Text.splitLines t).headD []).takeWhile (· = ' ') := ⟨_, rfl⟩
  have hspaces : ∀ c ∈ width, c = ' ' := by
    intro c hc
    rw [hwidth] at hc
    simpa using List.mem_takeWhile_imp hc
  have hwidth' : ((Text.splitLines (expand .crlf t)).headD []).takeWhile (· = ' ') = width := by
    rw [LineEnding.splitLines_expand_crlf, hwidth]
    cases Text.splitLines t with
    | nil => rfl
    | cons line lines => exact takeWhile_expand_crlf line
  have hlines : dropPrefix width ∘ expand .crlf = expand .crlf ∘ dropPrefix width :=
    funext (dropPrefix_expand_crlf hspaces)
  simp only [dedent, hwidth', ← hwidth]
  rw [LineEnding.splitLines_expand_crlf, List.map_map, hlines, ← List.map_map,
    LineEnding.expand_flatten]

theorem ofGenerated_expand_crlf (t : Text) :
    ofGenerated (expand .crlf t) = expand .crlf (ofGenerated t) := by
  have hquoted : (quoted? (expand .crlf t)).getD (expand .crlf t) =
      expand .crlf ((quoted? t).getD t) := by
    rw [quoted?_expand_crlf]
    cases quoted? t <;> rfl
  rw [ofGenerated, hquoted, dropLeadingNoise_expand_crlf, dropTrailingNoise_expand_crlf,
    dedent_expand_crlf, ofGenerated]

theorem content_expand_crlf {onNewLine : Bool} (hreturn : '\r' ∉ t)
    (hlast : t.getLast? ≠ some '\n') :
    content (expand .crlf t) onNewLine = content t onNewLine := by
  by_cases h : '\n' ∈ t
  · have hlength := (one_lt_length_bareLines_iff hlast).2 h
    simp only [content, LineEnding.bareLines_expand_crlf hreturn, if_pos hlength]
  · rw [expand_of_not_mem h]

/-- An edit is the same for a text with a line feed at the end of each line and for one with a
carriage return before each of these. -/
theorem plan_expand_crlf {e : Entity} {generated document : Text} {onNewLine : Bool}
    (h : '\r' ∉ generated) : plan e (expand .crlf generated) onNewLine document =
      plan e generated onNewLine document := by
  have hreturn : '\r' ∉ ofGenerated generated :=
    fun hmem => h ((ofGenerated_sublist generated).mem hmem)
  have hlast : (ofGenerated generated).getLast? ≠ some '\n' :=
    (isBody_ofGenerated generated).getLast?_ne (by decide)
  have hliteral (level : UInt32) : literal (ofGenerated (expand .crlf generated)) level onNewLine =
      literal (ofGenerated generated) level onNewLine := by
    rw [literal, ofGenerated_expand_crlf, content_expand_crlf hreturn hlast, literal]
  simp only [plan, hliteral]

theorem plan_expand_crlf_fenced : ∃ e : Entity,
    '\r' ∉ "```\n\"\"\"\n  Doc.\n\n    More.\n\"\"\"\n```\n".toList ∧
    plan e "```\r\n\"\"\"\r\n  Doc.\r\n\r\n    More.\r\n\"\"\"\r\n```\r\n".toList true
      "def f():\n    pass\n".toList =
        .ok ⟨none, ⟨1, 0⟩, "    \"\"\"\n    Doc.\n    \n      More.\n    \"\"\"\n".toList⟩ := by
  have h : '\r' ∉ "```\n\"\"\"\n  Doc.\n\n    More.\n\"\"\"\n```\n".toList := by decide
  refine ⟨.functionDef ⟨"f", "def f():\n    pass".toList, ⟨⟨1, 0⟩, ⟨2, 8⟩⟩, ⟨1, 8⟩, none, 0, []⟩,
    h, (plan_expand_crlf h).trans ?_⟩
  decide +kernel

end DocstringEditor.Docstring
