import DocstringEditor.Proofs.Text.Lines
import DocstringEditor.Text.LineEnding

namespace DocstringEditor

namespace Text

variable {c : Char} {old new t : Text}

theorem replaceAll_go (v t : Text) :
    replaceAll.go old new v.length (v ++ t) = replaceAll.go old new 0 t := by
  induction v with
  | nil => rfl
  | cons c v ih => exact ih

theorem replaceAll_append (c : Char) (old new t : Text) :
    replaceAll (c :: old) new (c :: old ++ t) = new ++ replaceAll (c :: old) new t := by
  have hold : (c :: old).isPrefixOf (c :: (old ++ t)) :=
    List.isPrefixOf_iff_prefix.2 (List.prefix_append _ t)
  change replaceAll.go (c :: old) new 0 (c :: (old ++ t)) = new ++ replaceAll.go (c :: old) new 0 t
  rw [replaceAll.go, if_pos hold]
  exact congrArg (new ++ ·) (replaceAll_go old t)

theorem replaceAll_cons (hold : old ≠ []) (h : ¬old <+: c :: t) :
    replaceAll old new (c :: t) = c :: replaceAll old new t := by
  rw [replaceAll, replaceAll, if_neg (by simpa using hold), if_neg (by simpa using hold),
    replaceAll.go, if_neg fun hprefix => h (List.isPrefixOf_iff_prefix.1 hprefix)]

end Text

namespace LineEnding

variable {t u : Text} {c : Char} {e : LineEnding}

theorem expand_append (e : LineEnding) (t u : Text) :
    e.expand (t ++ u) = e.expand t ++ e.expand u := List.flatMap_append

theorem expand_flatten (e : LineEnding) (ts : List Text) :
    e.expand ts.flatten = (ts.map e.expand).flatten := by
  induction ts with
  | nil => rfl
  | cons t ts ih => rw [List.flatten_cons, expand_append, ih, List.map_cons, List.flatten_cons]

theorem expand_newline (e : LineEnding) (t : Text) : e.expand ('\n' :: t) = e.text ++ e.expand t :=
  rfl

theorem expand_crlf_newline (t : Text) :
    expand .crlf ('\n' :: t) = '\r' :: '\n' :: expand .crlf t := rfl

theorem expand_cons (hc : c ≠ '\n') (t : Text) : e.expand (c :: t) = c :: e.expand t := by
  rw [expand, List.flatMap_cons, if_neg hc]
  rfl

theorem expand_of_not_mem (h : '\n' ∉ t) : e.expand t = t := by
  induction t with
  | nil => rfl
  | cons c t ih =>
      obtain ⟨hc, ht⟩ : '\n' ≠ c ∧ '\n' ∉ t := by simpa using h
      rw [expand_cons hc.symm, ih ht]

theorem expand_eq_replaceAll (e : LineEnding) (t : Text) :
    e.expand t = Text.replaceAll ['\n'] e.text t := by
  induction t with
  | nil => rfl
  | cons c t ih =>
      by_cases hc : c = '\n'
      · subst hc
        rw [expand_newline, ih]
        exact (Text.replaceAll_append '\n' [] e.text t).symm
      · rw [expand_cons hc, ih, Text.replaceAll_cons (by decide)]
        exact fun h => hc (List.cons_prefix_cons.1 h).1.symm

theorem mem_expand (h : c ∈ e.expand t) : c ∈ t ∨ c ∈ e.text := by
  obtain ⟨d, hd, hc⟩ := List.mem_flatMap.1 h
  split at hc
  · exact .inr hc
  · exact .inl (List.mem_singleton.1 hc ▸ hd)

theorem getLast?_expand (e : LineEnding) (t : Text) : (e.expand t).getLast? = t.getLast? := by
  rcases List.eq_nil_or_concat t with rfl | ⟨t, c, rfl⟩
  · rfl
  · rw [List.concat_eq_append, expand_append, List.getLast?_concat, List.getLast?_append]
    by_cases hc : c = '\n'
    · subst hc
      cases e <;> rfl
    · rw [expand_cons hc]
      rfl

theorem starts_expand_iff (hu : ∀ c ∈ u, c ≠ '\n' ∧ c ∉ e.text) :
    u <+: e.expand t ↔ u <+: t := by
  induction u generalizing t with
  | nil => simp
  | cons c u ih =>
      obtain ⟨hc, hu⟩ := List.forall_mem_cons.1 hu
      cases t with
      | nil => rfl
      | cons d t =>
          by_cases hd : d = '\n'
          · subst hd
            refine iff_of_false (fun h => ?_) fun h => hc.1 (List.cons_prefix_cons.1 h).1
            rw [expand_newline] at h
            cases e <;> exact hc.2 ((List.cons_prefix_cons.1 h).1 ▸ List.mem_cons_self)
          · rw [expand_cons hd, List.cons_prefix_cons, List.cons_prefix_cons, ih hu]

theorem expand_crlf_line {v : Text} (hv : '\n' ∉ v) (t : Text) :
    expand .crlf (v ++ '\n' :: t) = (v ++ ['\r']) ++ '\n' :: expand .crlf t := by
  rw [expand_append, expand_of_not_mem hv, expand_crlf_newline, List.append_assoc]
  rfl

theorem splitLines_expand_crlf (t : Text) :
    Text.splitLines (expand .crlf t) = (Text.splitLines t).map (expand .crlf) := by
  induction t using Text.line_induction with
  | last t ht =>
      by_cases hnil : t = []
      · subst hnil
        rfl
      · rw [expand_of_not_mem ht, Text.splitLines_of_not_mem hnil ht, List.map_singleton,
          expand_of_not_mem ht]
  | line v t hv ih =>
      have hline : '\n' ∉ v ++ ['\r'] := by simp [hv]
      rw [expand_crlf_line hv, Text.splitLines_line hline, Text.splitLines_line hv, List.map_cons,
        expand_crlf_line hv, ih]
      rfl

/-- Without their ends the lines stay the same, if no carriage return comes before an end. -/
theorem bareLines_expand_crlf (h : '\r' ∉ t) :
    Text.bareLines (expand .crlf t) = Text.bareLines t := by
  induction t using Text.line_induction with
  | last t ht => rw [expand_of_not_mem ht]
  | line v t hv ih =>
      have hline : '\n' ∉ v ++ ['\r'] := by simp [hv]
      have hreturn : v.getLast? ≠ some '\r' := fun hlast =>
        h (List.mem_append_left _ (List.mem_of_getLast? hlast))
      have ih : Text.bareLines (expand .crlf t) = Text.bareLines t :=
        ih fun hmem => h (List.mem_append_right v (List.mem_cons_of_mem '\n' hmem))
      rw [Text.bareLines] at ih
      rw [expand_crlf_line hv, Text.bareLines, Text.bareLines, Text.splitLines_line hline,
        Text.splitLines_line hv, List.map_cons, List.map_cons, ih,
        Text.stripLineEnding_newline hreturn, List.append_assoc, List.singleton_append,
        Text.stripLineEnding_return]
      rfl

theorem unify_eq_replaceAll (t : Text) :
    unify t = Text.replaceAll LineEnding.crlf.text ['\n'] t := by
  fun_induction unify t with
  | case1 t ih =>
      rw [ih]
      exact (Text.replaceAll_append '\r' ['\n'] ['\n'] t).symm
  | case2 c t hc ih =>
      rw [ih, Text.replaceAll_cons (by decide)]
      rintro ⟨rest, h⟩
      obtain ⟨rfl, rfl⟩ := List.cons.inj h
      exact hc rest rfl rfl
  | case3 => rfl

/-- A text is adapted by two replacements, one after the other. -/
theorem adapt_eq_replaceAll (document t : Text) :
    adapt document t = Text.replaceAll ['\n'] (ofDocument document).text
      (Text.replaceAll LineEnding.crlf.text ['\n'] t) := by
  rw [adapt, unify_eq_replaceAll, expand_eq_replaceAll]

theorem unify_append (t : Text) (hu : u.head? ≠ some '\n') :
    unify (t ++ u) = unify t ++ unify u := by
  fun_induction unify t with
  | case1 t ih => simp [unify, ih]
  | case2 c t hc ih =>
      rw [List.cons_append, unify, ih]
      · rfl
      · rintro v rfl hv
        cases t with
        | nil =>
            rw [List.nil_append] at hv
            exact hu (by rw [hv]; rfl)
        | cons d t =>
            obtain ⟨rfl, -⟩ := List.cons.inj hv
            exact hc t rfl rfl
  | case3 => rfl

theorem unify_prefix (h : '\r' ∉ t) (u : Text) : unify (t ++ u) = t ++ unify u := by
  induction t with
  | nil => rfl
  | cons c t ih =>
      obtain ⟨hc, ht⟩ : '\r' ≠ c ∧ '\r' ∉ t := by simpa using h
      rw [List.cons_append, unify, ih ht]
      · rfl
      · exact fun _ hc' => absurd hc'.symm hc

theorem getLast?_text (e : LineEnding) : e.text.getLast? = some '\n' := by
  cases e <;> rfl

theorem ofDocument_append (h : '\n' ∈ t) (u : Text) : ofDocument (t ++ u) = ofDocument t := by
  fun_induction ofDocument t with
  | case1 t => rfl
  | case2 t => rfl
  | case3 c t hreturn hnewline ih =>
      have ht : '\n' ∈ t := (List.mem_cons.1 h).resolve_left fun hc => hnewline hc.symm
      obtain ⟨d, t, rfl⟩ := List.exists_cons_of_ne_nil (List.ne_nil_of_mem ht)
      rw [List.cons_append, ofDocument, ih ht]
      · intro rest hc hd
        obtain ⟨rfl, -⟩ := List.cons.inj hd
        exact hreturn t hc rfl
      · exact hnewline
  | case4 => simp at h

/-- Whether a carriage return stands before every line feed of a text, or else before none. -/
def Throughout (e : LineEnding) (t : Text) : Prop :=
  ∀ before rest, t = before ++ '\n' :: rest → (before.getLast? = some '\r' ↔ e = .crlf)

theorem expand_lf (t : Text) : expand .lf t = t := by
  induction t with
  | nil => rfl
  | cons c t ih =>
      by_cases hc : c = '\n'
      · subst hc
        rw [expand_newline, ih]
        rfl
      · rw [expand_cons hc, ih]

theorem throughout_expand_crlf (t : Text) : Throughout .crlf (expand .crlf t) := by
  intro before rest h
  refine iff_of_true ?_ rfl
  induction t generalizing before with
  | nil => simp [expand] at h
  | cons c t ih =>
      by_cases hc : c = '\n'
      · subst hc
        rw [expand_crlf_newline] at h
        match before, h with
        | [], h => exact absurd (List.cons.inj h).1 (by decide)
        | [_], h =>
            obtain ⟨rfl, -⟩ := List.cons.inj h
            rfl
        | _ :: _ :: before, h =>
            have hlast := ih before (List.cons.inj (List.cons.inj h).2).2
            exact List.mem_getLast?_cons (List.mem_getLast?_cons hlast)
      · rw [expand_cons hc] at h
        cases before with
        | nil => exact absurd (List.cons.inj h).1 hc
        | cons d before =>
            have hlast := ih before (List.cons.inj h).2
            exact List.mem_getLast?_cons hlast

theorem throughout_lf_iff : Throughout .lf t ↔ ¬['\r', '\n'] <:+: t := by
  constructor
  · rintro h ⟨before, rest, rfl⟩
    have hbefore := (h (before ++ ['\r']) rest (by simp)).1 List.getLast?_concat
    cases hbefore
  · rintro h before rest rfl
    refine iff_of_false (fun hlast => ?_) (by decide)
    obtain ⟨before, rfl⟩ := List.getLast?_eq_some_iff.1 hlast
    exact h ⟨before, rest, by simp⟩

theorem unify_expand_crlf (t : Text) : unify (expand .crlf t) = t := by
  induction t with
  | nil => rfl
  | cons c t ih =>
      by_cases hc : c = '\n'
      · subst hc
        rw [expand_crlf_newline, unify, ih]
      · rw [expand_cons hc, unify, ih]
        intro rest _ hrest
        have hlast := (throughout_expand_crlf t [] rest hrest).2 rfl
        cases hlast

/-- A text with bare line feeds only is left alone. -/
theorem unify_eq_self_iff : unify t = t ↔ ¬['\r', '\n'] <:+: t := by
  fun_induction unify t with
  | case1 t ih => exact iff_of_false (by simp) fun h => h ⟨[], t, rfl⟩
  | case2 c t hc ih =>
      rw [List.cons.injEq, and_iff_right rfl, ih, List.infix_cons_iff, not_or]
      refine (and_iff_right ?_).symm
      rintro ⟨rest, h⟩
      obtain ⟨rfl, rfl⟩ := List.cons.inj h
      exact hc rest rfl rfl
  | case3 => simp

theorem newline_prefix_unify_iff : ['\n'] <+: unify t ↔ ['\n'] <+: t ∨ ['\r', '\n'] <+: t := by
  fun_cases unify t with
  | case1 t => simp
  | case2 c t hc =>
      rw [List.cons_prefix_cons, List.cons_prefix_cons, List.cons_prefix_cons]
      refine ⟨fun h => .inl ⟨h.1, List.nil_prefix⟩, ?_⟩
      rintro (h | ⟨rfl, rest, rfl⟩)
      · exact ⟨h.1, List.nil_prefix⟩
      · exact absurd rfl (hc rest rfl)
  | case3 => simp

/-- A carriage return before a whole terminator becomes a part of it. -/
theorem crlf_infix_unify_iff : ['\r', '\n'] <:+: unify t ↔ ['\r', '\r', '\n'] <:+: t := by
  fun_induction unify t with
  | case1 t ih => simp [List.infix_cons_iff, ih]
  | case2 c t hc ih =>
      rw [List.infix_cons_iff, List.infix_cons_iff, ih, List.cons_prefix_cons,
        List.cons_prefix_cons, newline_prefix_unify_iff]
      refine or_congr_left (and_congr_right fun hreturn => or_iff_right ?_)
      rintro ⟨rest, rfl⟩
      exact hc rest hreturn.symm rfl
  | case3 => simp

/-- An adapted text has the terminator of its document in all its lines, and is left alone from then
on, just if the document ends its lines with a carriage return and a line feed or no terminator of
the text has one more carriage return before it. -/
theorem adapt_throughout_iff (document t : Text) :
    (Throughout (ofDocument document) (adapt document t) ↔
      ofDocument document = .crlf ∨ ¬['\r', '\r', '\n'] <:+: t) ∧
    (adapt document (adapt document t) = adapt document t ↔
      ofDocument document = .crlf ∨ ¬['\r', '\r', '\n'] <:+: t) := by
  rw [adapt, adapt]
  cases ofDocument document with
  | lf =>
      have hcases : (LineEnding.lf = .crlf ∨ ¬['\r', '\r', '\n'] <:+: t) ↔
          ¬['\r', '\n'] <:+: unify t := by
        rw [or_iff_right (by decide), crlf_infix_unify_iff]
      rw [hcases, expand_lf, expand_lf]
      exact ⟨throughout_lf_iff, unify_eq_self_iff⟩
  | crlf =>
      have hthroughout := throughout_expand_crlf (unify t)
      have hagain := congrArg (expand .crlf) (unify_expand_crlf (unify t))
      exact ⟨iff_of_true hthroughout (.inl rfl), iff_of_true hagain (.inl rfl)⟩

/-- Of two carriage returns before a line feed, one is left, and is taken for a part of the
terminator from then on. -/
theorem adapt_mixed_reachable :
    ofDocument "x\n".toList = .lf ∧
    adapt "x\n".toList "a\r\r\nb".toList = "a\r\nb".toList ∧
    ¬Throughout .lf (adapt "x\n".toList "a\r\r\nb".toList) ∧
    adapt "x\n".toList (adapt "x\n".toList "a\r\r\nb".toList) = "a\nb".toList := by
  refine ⟨by decide, by decide, fun h => ?_, by decide⟩
  have hbefore := (h "a\r".toList ['b'] (by decide)).1 (by decide)
  cases hbefore

end LineEnding

end DocstringEditor
