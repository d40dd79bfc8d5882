import DocstringEditor.Proofs.Docstring.Body
import DocstringEditor.Proofs.Docstring.Edit

namespace DocstringEditor.Docstring

variable {t u v w : Text} {n : Nat} {onNewLine : Bool}

theorem joinLines_bareLines (hreturn : ¬['\r', '\n'] <:+: t) (hlast : t.getLast? ≠ some '\n') :
    joinLines (Text.bareLines t) = t := by
  induction t using Text.line_induction with
  | last t ht =>
      by_cases hnil : t = []
      · subst hnil
        rfl
      · rw [Text.bareLines, Text.splitLines_of_not_mem hnil ht, List.map_singleton,
          Text.stripLineEnding_of_getLast?_ne hlast]
        simp [joinLines]
  | line v t hv ih =>
      have hv' : v.getLast? ≠ some '\r' := by
        intro hend
        obtain ⟨w, rfl⟩ := List.getLast?_eq_some_iff.1 hend
        exact hreturn ⟨w, t, by simp⟩
      have hne : t ≠ [] := by
        rintro rfl
        exact hlast (by simp)
      have ih : joinLines (Text.bareLines t) = t := by
        refine ih (fun h => hreturn (h.trans ⟨v ++ ['\n'], [], by simp⟩)) fun hend => hlast ?_
        rw [List.getLast?_append_of_ne_nil v (List.cons_ne_nil _ _),
          List.getLast?_cons_of_ne_nil hne, hend]
      rw [joinLines, Text.bareLines] at ih ⊢
      rw [Text.splitLines_line hv, List.map_cons, Text.stripLineEnding_newline hv']
      cases hlines : (Text.splitLines t).map Text.stripLineEnding with
      | nil =>
          rw [hlines] at ih
          exact absurd ih.symm hne
      | cons line lines =>
          rw [hlines] at ih
          rw [List.intercalate_cons_cons, ih]
          simp

theorem one_lt_length_bareLines_iff (hlast : t.getLast? ≠ some '\n') :
    1 < (Text.bareLines t).length ↔ '\n' ∈ t := by
  rw [Text.bareLines, List.length_map]
  cases t using Text.line_induction with
  | last t ht =>
      by_cases hnil : t = []
      · simp [hnil]
      · simp [Text.splitLines_of_not_mem hnil ht, ht]
  | line v t hv =>
      have hne : t ≠ [] := by
        rintro rfl
        exact hlast (by simp)
      have hpos := List.length_pos_of_mem (Text.firstLine_mem hne)
      rw [Text.splitLines_line hv, List.length_cons]
      simp
      omega

theorem content_of_mem (hreturn : ¬['\r', '\n'] <:+: t) (hlast : t.getLast? ≠ some '\n')
    (h : '\n' ∈ t) : content t onNewLine = (if onNewLine then ['\n'] else []) ++ t ++ ['\n'] := by
  rw [content, if_pos ((one_lt_length_bareLines_iff hlast).2 h), joinLines_bareLines hreturn hlast]

theorem content_of_not_mem (hlast : t.getLast? ≠ some '\n') (h : '\n' ∉ t) :
    content t onNewLine = t :=
  if_neg fun hlength => h ((one_lt_length_bareLines_iff hlast).1 hlength)

theorem infix_cons_iff_of_not_mem {c : Char} (hc : c ∉ w) : w <:+: c :: v ↔ w <:+: v := by
  rw [List.infix_cons_iff, or_iff_right_iff_imp]
  intro hprefix
  cases w with
  | nil => exact List.nil_infix
  | cons d w =>
      obtain ⟨rfl, -⟩ := List.cons_prefix_cons.1 hprefix
      exact absurd List.mem_cons_self hc

theorem infix_append_cons_iff {c : Char} (hc : c ∉ w) :
    w <:+: u ++ c :: v ↔ w <:+: u ∨ w <:+: v := by
  rw [List.infix_append_iff, infix_cons_iff_of_not_mem hc, ← or_assoc, or_iff_left_iff_imp]
  rintro ⟨l, r, rfl, hl, hr⟩
  cases r with
  | nil =>
      rw [List.append_nil]
      exact .inl hl.isInfix
  | cons d r =>
      obtain ⟨rfl, -⟩ := List.cons_prefix_cons.1 hr
      exact absurd (by simp) hc

theorem infix_replicate_append_iff {c : Char} (hc : c ∉ w) :
    w <:+: List.replicate n c ++ v ↔ w <:+: v := by
  induction n with
  | zero => rfl
  | succ n ih => rw [List.replicate_succ, List.cons_append, infix_cons_iff_of_not_mem hc, ih]

theorem hang_of_not_mem (h : '\n' ∉ t) : hang n t = t := by
  induction t with
  | nil => rfl
  | cons c t ih =>
      obtain ⟨hc, ht⟩ : '\n' ≠ c ∧ '\n' ∉ t := by simpa using h
      rw [hang_cons, if_neg hc.symm, ih ht, List.singleton_append]

theorem hang_append (n : Nat) (t u : Text) : hang n (t ++ u) = hang n t ++ hang n u :=
  List.flatMap_append

theorem hang_newline (n : Nat) (t : Text) :
    hang n ('\n' :: t) = '\n' :: (List.replicate n ' ' ++ hang n t) := rfl

theorem infix_of_hang (hnewline : '\n' ∉ w) (hspace : ' ' ∉ w) (h : w <:+: hang n t) :
    w <:+: t := by
  induction t using Text.line_induction with
  | last t ht => rwa [hang_of_not_mem ht] at h
  | line v t hv ih =>
      rw [hang_append, hang_of_not_mem hv, hang_newline, infix_append_cons_iff hnewline,
        infix_replicate_append_iff hspace] at h
      rw [infix_append_cons_iff hnewline]
      exact h.imp_right ih

theorem quotes_infix_of_append (hlast : u.getLast? ≠ some '"') (h : quotes <:+: u ++ ['"', '"']) :
    quotes <:+: u := by
  rcases List.infix_append_iff.1 h with hinfix | hinfix | ⟨l, r, heq, hl, hr⟩
  · exact hinfix
  · exact absurd hinfix.length_le (by simp [quotes])
  · rcases List.eq_nil_or_concat l with rfl | ⟨l, c, rfl⟩
    · rw [← List.nil_append r, ← heq] at hr
      exact absurd hr.length_le (by simp [quotes])
    · have hc : c ∈ quotes := by simp [heq]
      obtain rfl : c = '"' := by simpa [quotes] using hc
      obtain ⟨before, rfl⟩ := hl
      exact absurd (by simp) hlast

theorem IsBody.getLast?_ne {c : Char} (h : IsBody t) (hc : isNoise c) : t.getLast? ≠ some c :=
  fun hlast => h.last c hlast hc

theorem not_quotes_infix_content (ht : IsBody t) (hreturn : ¬['\r', '\n'] <:+: t)
    (hquotes : ¬quotes <:+: t) : ¬quotes <:+: content t onNewLine ++ ['"', '"'] := by
  have hlast : t.getLast? ≠ some '\n' := ht.getLast?_ne (by decide)
  by_cases h : '\n' ∈ t
  · have hnewline : '\n' ∉ quotes := by decide
    have hnil : ¬quotes <:+: [] := by simp [quotes]
    rw [content_of_mem hreturn hlast h]
    intro hinfix
    have hcontent := quotes_infix_of_append (by simp) hinfix
    rw [infix_append_cons_iff hnewline] at hcontent
    have hbody : quotes <:+: (if onNewLine then ['\n'] else []) ++ t :=
      hcontent.resolve_right hnil
    cases onNewLine with
    | false => exact hquotes hbody
    | true => exact hquotes ((infix_cons_iff_of_not_mem hnewline).1 hbody)
  · rw [content_of_not_mem hlast h]
    exact fun hinfix => hquotes (quotes_infix_of_append (ht.getLast?_ne (by decide)) hinfix)

theorem quotes_prefix_iff (c : Char) (u rest : Text) :
    quotes <+: c :: (u ++ quotes ++ rest) ↔ quotes <+: c :: (u ++ ['"', '"']) := by
  rcases u with _ | ⟨d, _ | ⟨e, u⟩⟩ <;> simp [quotes, List.cons_prefix_cons]

theorem upToQuotes?_append (h : ¬quotes <:+: u ++ ['"', '"']) (v : Text) :
    upToQuotes? (u ++ (quotes ++ v)) = some u := by
  induction u with
  | nil => rfl
  | cons c u ih =>
      rw [List.cons_append, List.infix_cons_iff, not_or] at h
      have hstarts : ¬quotes <+: c :: (u ++ (quotes ++ v)) := by
        rw [← List.append_assoc, quotes_prefix_iff]
        exact h.1
      rw [List.cons_append, upToQuotes?_cons hstarts, ih h.2, Option.map_some]

theorem quoted?_quotes (c : Char) (t : Text) :
    quoted? (quotes ++ c :: t) = (upToQuotes? t).map (c :: ·) := rfl

theorem quoted?_replicate (n : Nat) (t : Text) :
    quoted? (List.replicate n ' ' ++ t) = quoted? t :=
  quoted?_append_of_not_mem (fun h => absurd (List.eq_of_mem_replicate h) (by decide)) t

/-- All that an indented literal quotes is what stands between its quotes. -/
theorem quoted?_literal (h : ¬quotes <:+: u ++ ['"', '"']) (hne : u ≠ []) (n : Nat) (v : Text) :
    quoted? (List.replicate n ' ' ++ (quotes ++ (u ++ (quotes ++ v)))) = some u := by
  cases u with
  | nil => exact absurd rfl hne
  | cons c u =>
      have hu : ¬quotes <:+: u ++ ['"', '"'] := fun hinfix =>
        h (List.infix_cons_iff.2 (.inr hinfix))
      rw [quoted?_replicate, List.cons_append, quoted?_quotes, upToQuotes?_append hu,
        Option.map_some]

theorem isNoise_of_mem_spaces {c : Char} (hc : c ∈ List.replicate n ' ') :
    isNoise c ∧ ¬isLineBreak c := by
  rw [(List.mem_replicate.1 hc).2]
  decide

theorem dropTrailingNoise_append (h : ∀ c ∈ u, isNoise c) :
    dropTrailingNoise (t ++ u) = dropTrailingNoise t := by
  have hreverse : ∀ c ∈ u.reverse, isNoise c := by simpa using h
  rw [dropTrailingNoise, List.reverse_append, List.dropWhile_append_of_pos hreverse,
    dropTrailingNoise]

theorem dropLeadingNoise_newline (h : ∀ c ∈ t.takeWhile isNoise, ¬isLineBreak c) :
    dropLeadingNoise ('\n' :: t) = t := by
  have hparts : LeadingNoise ['\n'] (t.takeWhile isNoise) (t.dropWhile isNoise) :=
    { noise := List.forall_mem_cons.2 ⟨by decide, fun c hc => List.mem_takeWhile_imp hc⟩
      broken := fun _ => rfl
      unbroken := h
      ends := fun c hc => by simpa [hc] using List.head?_dropWhile_not isNoise t }
  have hdrop := hparts.dropLeadingNoise_eq
  rwa [List.takeWhile_append_dropWhile] at hdrop

theorem splitLines_indent (n : Nat) (t : Text) :
    Text.splitLines (indent n t) = (Text.splitLines t).map (List.replicate n ' ' ++ ·) := by
  induction t using Text.line_induction with
  | last t ht =>
      by_cases hnil : t = []
      · subst hnil
        rfl
      · have hline : '\n' ∉ List.replicate n ' ' ++ t := by simp [ht]
        rw [indent, Text.splitLines_of_not_mem hnil ht, List.flatMap_singleton,
          Text.splitLines_of_not_mem (by simp [hnil]) hline, List.map_singleton]
  | line v t hv ih =>
      have hline : '\n' ∉ List.replicate n ' ' ++ v := by simp [hv]
      have hindent : indent n (v ++ '\n' :: t) =
          (List.replicate n ' ' ++ v) ++ '\n' :: indent n t := by
        rw [indent, Text.splitLines_line hv, List.flatMap_cons, indent]
        simp
      rw [hindent, Text.splitLines_line hline, Text.splitLines_line hv, List.map_cons, ih,
        List.append_assoc]

theorem dedent_indent (h : t.head? ≠ some ' ') (n : Nat) : dedent (indent n t) = t := by
  obtain ⟨rest, hrest⟩ := Text.firstLine_prefix t
  rw [dedent, splitLines_indent]
  cases hlines : Text.splitLines t with
  | nil =>
      rw [← Text.flatten_splitLines t, hlines]
      rfl
  | cons line lines =>
      have hline : line.head? ≠ some ' ' := by
        rw [Text.firstLine, hlines, List.headD_cons] at hrest
        cases line with
        | nil => simp
        | cons c line =>
            rw [← hrest] at h
            exact h
      have hmargin : line.takeWhile (· = ' ') = [] := by
        cases line with
        | nil => rfl
        | cons c line => exact List.takeWhile_cons_of_neg (by simpa using hline)
      have hwidth : (List.replicate n ' ' ++ line).takeWhile (· = ' ') = List.replicate n ' ' := by
        rw [List.takeWhile_append_of_pos (by simp), hmargin, List.append_nil]
      have hdrop : dropPrefix (List.replicate n ' ') ∘ (List.replicate n ' ' ++ ·) = id :=
        funext (dropPrefix_append _)
      simp only [List.map_cons, List.headD_cons, hwidth]
      rw [dropPrefix_append, List.map_map, hdrop, List.map_id, ← hlines, Text.flatten_splitLines]

def indentTail (width : Nat) (t : Text) : Text :=
  Text.firstLine t ++ (Text.splitLines t).tail.flatMap (List.replicate width ' ' ++ ·)

theorem indent_eq_hang (hne : t ≠ []) (hlast : t.getLast? ≠ some '\n') (n : Nat) :
    indent n t = List.replicate n ' ' ++ hang n t := by
  obtain ⟨u, hu, -⟩ := Text.exists_lastLine t
  have hline : Text.lastLine t ≠ [] := by simp [Text.lastLine_eq_nil_iff, hne, hlast]
  have hnewline := Text.newline_not_mem_lastLine t
  generalize Text.lastLine t = line at hu hline hnewline
  rw [hu, indent_append n u hline hnewline, hang_append, hang_of_not_mem hnewline]

theorem hang_eq_indentTail (hlast : t.getLast? ≠ some '\n') (n : Nat) :
    hang n t = indentTail n t := by
  by_cases hne : t = []
  · subst hne
    rfl
  · have hindent := indent_eq_hang hne hlast n
    rw [indent_eq n hne] at hindent
    exact (List.append_cancel_left hindent).symm

theorem hang_zero (t : Text) : hang 0 t = t := by
  induction t with
  | nil => rfl
  | cons c t ih =>
      rw [hang_cons, ih]
      split <;> rfl

theorem getLast?_hang (hlast : t.getLast? ≠ some '\n') (n : Nat) :
    (hang n t).getLast? = t.getLast? := by
  rcases List.eq_nil_or_concat t with rfl | ⟨t, c, rfl⟩
  · rfl
  · have hc : '\n' ∉ [c] := by simpa [eq_comm] using hlast
    rw [List.concat_eq_append, hang_append, hang_of_not_mem hc]
    simp

theorem head?_hang (n : Nat) (t : Text) : (hang n t).head? = t.head? := by
  cases t with
  | nil => rfl
  | cons c t =>
      rw [hang_cons]
      split <;> rfl

theorem lead_hang (hlead : ∀ c ∈ t.takeWhile isNoise, ¬isLineBreak c) (hends : ∃ c ∈ t, ¬isNoise c)
    (n : Nat) (u : Text) : ∀ c ∈ (hang n t ++ u).takeWhile isNoise, ¬isLineBreak c := by
  induction t with
  | nil => simp at hends
  | cons c t ih =>
      by_cases hc : isNoise c
      · rw [List.takeWhile_cons_of_pos hc, List.forall_mem_cons] at hlead
        have hnewline : c ≠ '\n' := by
          rintro rfl
          exact hlead.1 (by decide)
        have hends : ∃ d ∈ t, ¬isNoise d := by simpa [hc] using hends
        rw [hang_cons, if_neg hnewline, List.append_assoc, List.singleton_append,
          List.takeWhile_cons_of_pos hc, List.forall_mem_cons]
        exact ⟨hlead.1, ih hlead.2 hends⟩
      · have hnewline : c ≠ '\n' := by
          rintro rfl
          exact hc (by decide)
        rw [hang_cons, if_neg hnewline, List.append_assoc, List.singleton_append,
          List.takeWhile_cons_of_neg hc]
        exact fun _ hmem => absurd hmem List.not_mem_nil

namespace IsBody

theorem exists_not_noise (h : IsBody t) (hne : t ≠ []) : ∃ c ∈ t, ¬isNoise c :=
  ⟨t.getLast hne, List.getLast_mem hne, h.last _ (List.getLast?_eq_some_getLast hne)⟩

theorem dropTrailingNoise_hang (h : IsBody t) (hne : t ≠ []) (n : Nat) (u : Text) :
    dropTrailingNoise (u ++ hang n (t ++ ['\n'])) = u ++ hang n t := by
  have hlast : t.getLast? ≠ some '\n' := h.getLast?_ne (by decide)
  have hnoise : ∀ c ∈ hang n ['\n'], isNoise c := by
    intro c hc
    obtain rfl | ⟨-, rfl⟩ : c = '\n' ∨ n ≠ 0 ∧ c = ' ' := by simpa [hang_newline, hang] using hc
    · decide
    · decide
  have hhang : hang n t ≠ [] := by
    intro hnil
    have hhead := head?_hang n t
    rw [hnil] at hhead
    exact hne (List.head?_eq_none_iff.1 hhead.symm)
  rw [hang_append, ← List.append_assoc, dropTrailingNoise_append hnoise]
  refine dropTrailingNoise_eq_self fun c hc => h.last c ?_
  rw [← getLast?_hang hlast n, ← hc, List.getLast?_append_of_ne_nil u hhang]

end IsBody

theorem quoted?_blank (n : Nat) :
    quoted? (List.replicate n ' ' ++ (quotes ++ (quotes ++ ['\n']))) = none := by
  rw [quoted?_replicate]
  rfl

theorem ofGenerated_blank (n : Nat) :
    ofGenerated (List.replicate n ' ' ++ (quotes ++ (quotes ++ ['\n']))) = [] := by
  have hquotes : ∀ c ∈ quotes ++ (quotes ++ ['\n']), isNoise c :=
    List.all_eq_true.1 (by decide)
  have hnoise : ∀ c ∈ List.replicate n ' ' ++ (quotes ++ (quotes ++ ['\n'])), isNoise c := by
    intro c hc
    exact (List.mem_append.1 hc).elim (fun hspace => (isNoise_of_mem_spaces hspace).1) (hquotes c)
  obtain ⟨lead, kept, rest, hparts, hdrop, -⟩ :=
    exists_dropLeadingNoise (List.replicate n ' ' ++ (quotes ++ (quotes ++ ['\n'])))
  have hall : (kept ++ rest).all isNoise := by
    rw [List.all_eq_true]
    exact fun c hc => hnoise c (hparts ▸ List.mem_append_right lead hc)
  rw [ofGenerated, quoted?_blank, Option.getD_none, hdrop, dropTrailingNoise_of_all hall]
  rfl

theorem ofGenerated_literal_eq {body : Text} {level : UInt32}
    (hinside : hang (level.toNat * indentWidth) (content body onNewLine) = u)
    (hquotes : ¬quotes <:+: content body onNewLine ++ ['"', '"']) (hne : u ≠ []) :
    ofGenerated (literal body level onNewLine) =
      dedent (dropTrailingNoise (dropLeadingNoise u)) := by
  have hu : ¬quotes <:+: u ++ ['"', '"'] := by
    intro hinfix
    rw [← hinside, ← hang_of_not_mem (t := ['"', '"']) (by decide), ← hang_append] at hinfix
    exact hquotes (infix_of_hang (by decide) (by decide) hinfix)
  rw [literal_eq, hinside, ofGenerated, quoted?_literal hu hne, Option.getD_some]

namespace IsBody

variable {level : UInt32}

theorem ofGenerated_line (ht : IsBody t) (hquotes : ¬quotes <:+: t) (h : '\n' ∉ t) :
    ofGenerated (literal t level onNewLine) = t := by
  have hcontent : content t onNewLine = t := content_of_not_mem (ht.getLast?_ne (by decide)) h
  by_cases hne : t = []
  · rw [literal_eq, hcontent, hang_of_not_mem h, hne]
    exact ofGenerated_blank _
  · have hinside : hang (level.toNat * indentWidth) (content t onNewLine) = t := by
      rw [hcontent, hang_of_not_mem h]
    have hend : ¬quotes <:+: content t onNewLine ++ ['"', '"'] := by
      rw [hcontent]
      exact fun hinfix => hquotes (quotes_infix_of_append (ht.getLast?_ne (by decide)) hinfix)
    rw [ofGenerated_literal_eq hinside hend hne, dropLeadingNoise_eq_self ht.lead,
      dropTrailingNoise_eq_self ht.last, dedent_eq_self ht.margin]

/-- A body that starts on a line of its own is indented as a whole. -/
theorem ofGenerated_below (ht : IsBody t) (hreturn : ¬['\r', '\n'] <:+: t)
    (hquotes : ¬quotes <:+: t) (h : '\n' ∈ t) : ofGenerated (literal t level true) = t := by
  obtain ⟨n, hn⟩ : ∃ n, n = level.toNat * indentWidth := ⟨_, rfl⟩
  have hne : t ≠ [] := List.ne_nil_of_mem h
  have hlast : t.getLast? ≠ some '\n' := ht.getLast?_ne (by decide)
  have hinside : hang (level.toNat * indentWidth) (content t true) =
      '\n' :: (List.replicate n ' ' ++ hang n (t ++ ['\n'])) := by
    rw [← hn, content_of_mem hreturn hlast h, if_pos rfl, List.append_assoc, List.singleton_append,
      hang_newline]
  have hlead : ∀ c ∈ (List.replicate n ' ' ++ hang n (t ++ ['\n'])).takeWhile isNoise,
      ¬isLineBreak c := by
    rw [List.takeWhile_append_of_pos fun _ hc => (isNoise_of_mem_spaces hc).1, hang_append]
    intro c hc
    rcases List.mem_append.1 hc with hspace | hrest
    · exact (isNoise_of_mem_spaces hspace).2
    · exact lead_hang ht.lead (ht.exists_not_noise hne) n _ c hrest
  rw [ofGenerated_literal_eq hinside (not_quotes_infix_content ht hreturn hquotes)
    (List.cons_ne_nil _ _), dropLeadingNoise_newline hlead, ht.dropTrailingNoise_hang hne,
    ← indent_eq_hang hne hlast, dedent_indent ht.margin]

/-- A body that starts behind the quotes has no margin there, so that its lines stay indented. -/
theorem ofGenerated_beside (ht : IsBody t) (hreturn : ¬['\r', '\n'] <:+: t)
    (hquotes : ¬quotes <:+: t) (h : '\n' ∈ t) :
    ofGenerated (literal t level false) = indentTail (level.toNat * indentWidth) t := by
  obtain ⟨n, hn⟩ : ∃ n, n = level.toNat * indentWidth := ⟨_, rfl⟩
  have hne : t ≠ [] := List.ne_nil_of_mem h
  have hlast : t.getLast? ≠ some '\n' := ht.getLast?_ne (by decide)
  have hinside : hang (level.toNat * indentWidth) (content t false) = hang n (t ++ ['\n']) := by
    rw [← hn, content_of_mem hreturn hlast h]
    rfl
  have hlead : ∀ c ∈ (hang n (t ++ ['\n'])).takeWhile isNoise, ¬isLineBreak c := by
    rw [hang_append]
    exact lead_hang ht.lead (ht.exists_not_noise hne) n _
  have hmargin : (hang n t).head? ≠ some ' ' := by
    rw [head?_hang]
    exact ht.margin
  have htrailing := ht.dropTrailingNoise_hang hne n []
  rw [List.nil_append, List.nil_append] at htrailing
  have hinside_ne : hang n (t ++ ['\n']) ≠ [] := by
    rw [hang_append]
    simp [hang_newline]
  rw [ofGenerated_literal_eq hinside (not_quotes_infix_content ht hreturn hquotes) hinside_ne,
    dropLeadingNoise_eq_self hlead, htrailing, dedent_eq_self hmargin, hang_eq_indentTail hlast, hn]

end IsBody

/-- A body without three quotes in a row and without `"\r\n"` is recovered from its literal. If it
starts behind the quotes, its further lines stay indented. -/
theorem ofGenerated_literal (hbody : ∃ generated, ofGenerated generated = t)
    (hquotes : ¬quotes <:+: t) (hreturn : ¬['\r', '\n'] <:+: t) (level : UInt32) :
    ofGenerated (literal t level true) = t ∧
    ofGenerated (literal t level false) =
      if (Text.bareLines t).length ≤ 1 ∨ level = 0 then t else indentTail (4 * level.toNat) t := by
  obtain ⟨generated, hgenerated⟩ := hbody
  have ht : IsBody t := hgenerated ▸ isBody_ofGenerated generated
  have hlast : t.getLast? ≠ some '\n' := ht.getLast?_ne (by decide)
  have hlines := one_lt_length_bareLines_iff hlast
  by_cases h : '\n' ∈ t
  · have hmany : ¬(Text.bareLines t).length ≤ 1 := Nat.not_le.2 (hlines.2 h)
    refine ⟨ht.ofGenerated_below hreturn hquotes h, ?_⟩
    rw [ht.ofGenerated_beside hreturn hquotes h, Nat.mul_comm, show indentWidth = 4 from rfl]
    by_cases hlevel : level = 0
    · rw [if_pos (.inr hlevel), hlevel, ← hang_eq_indentTail hlast]
      exact hang_zero t
    · rw [if_neg (by simp [hmany, hlevel])]
  · have hone : (Text.bareLines t).length ≤ 1 := Nat.not_lt.1 fun hlt => h (hlines.1 hlt)
    rw [if_pos (.inl hone)]
    exact ⟨ht.ofGenerated_line hquotes h, ht.ofGenerated_line hquotes h⟩

theorem ofGenerated_literal_indented :
    (∃ generated, ofGenerated generated = "'A' is\n\n\tnot \"\"\rB.".toList) ∧
    ¬quotes <:+: "'A' is\n\n\tnot \"\"\rB.".toList ∧
    ¬['\r', '\n'] <:+: "'A' is\n\n\tnot \"\"\rB.".toList ∧
    ofGenerated (literal "'A' is\n\n\tnot \"\"\rB.".toList 1 true) =
      "'A' is\n\n\tnot \"\"\rB.".toList ∧
    ofGenerated (literal "'A' is\n\n\tnot \"\"\rB.".toList 1 false) =
      "'A' is\n    \n    \tnot \"\"\rB.".toList := by
  have hbody : ∃ generated, ofGenerated generated = "'A' is\n\n\tnot \"\"\rB.".toList :=
    ⟨"```\n  'A' is\n\n  \tnot \"\"\rB.\n```".toList, by decide +kernel⟩
  have hquotes : ¬quotes <:+: "'A' is\n\n\tnot \"\"\rB.".toList := by decide +kernel
  have hreturn : ¬['\r', '\n'] <:+: "'A' is\n\n\tnot \"\"\rB.".toList := by decide +kernel
  obtain ⟨hbelow, hbeside⟩ := ofGenerated_literal hbody hquotes hreturn 1
  exact ⟨hbody, hquotes, hreturn, hbelow, hbeside.trans (by decide +kernel)⟩

end DocstringEditor.Docstring
