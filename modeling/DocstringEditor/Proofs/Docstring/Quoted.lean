import DocstringEditor.Docstring.Body
import DocstringEditor.Proofs.Text.Pattern

namespace DocstringEditor.Docstring

open Pattern

variable {t u v : Text}

def HasQuoted (t : Text) : Prop :=
  ∃ before inside after, inside ≠ [] ∧ t = before ++ quotes ++ inside ++ quotes ++ after

theorem hasQuoted_iff :
    HasQuoted t ↔ ∃ before c rest, t = before ++ quotes ++ c :: rest ∧ quotes <:+: rest := by
  constructor
  · rintro ⟨before, inside, after, hinside, rfl⟩
    obtain ⟨c, inside, rfl⟩ := List.exists_cons_of_ne_nil hinside
    exact ⟨before, c, inside ++ quotes ++ after, by simp, ⟨inside, after, rfl⟩⟩
  · rintro ⟨before, c, rest, rfl, inside, after, rfl⟩
    exact ⟨before, c :: inside, after, List.cons_ne_nil c inside, by simp⟩

theorem HasQuoted.mono (h : HasQuoted u) (hu : u <:+: t) : HasQuoted t := by
  obtain ⟨before, inside, after, hinside, rfl⟩ := h
  obtain ⟨s, s', rfl⟩ := hu
  exact ⟨s ++ before, inside, after ++ s', hinside, by simp⟩

theorem hasQuoted_append_iff (c : Char) (rest : Text) :
    HasQuoted (quotes ++ c :: rest) ↔ quotes <:+: rest := by
  rw [hasQuoted_iff]
  constructor
  · rintro ⟨before, d, rest', heq, hrest'⟩
    have hsuffix : rest <:+ quotes ++ c :: rest := ⟨quotes ++ [c], by simp⟩
    have hsuffix' : rest' <:+ quotes ++ c :: rest := ⟨before ++ quotes ++ [d], by simp [heq]⟩
    have hlength := congrArg List.length heq
    simp at hlength
    exact hrest'.trans (List.suffix_of_suffix_length_le hsuffix' hsuffix (by omega)).isInfix
  · exact fun h => ⟨[], c, rest, rfl, h⟩

theorem hasQuoted_cons_iff {c : Char} (h : ¬quotes <+: c :: t) :
    HasQuoted (c :: t) ↔ HasQuoted t := by
  constructor
  · rintro ⟨before, inside, after, hinside, heq⟩
    cases before with
    | nil => exact absurd ⟨inside ++ quotes ++ after, by simp [heq]⟩ h
    | cons d before =>
        obtain ⟨rfl, rfl⟩ := List.cons.inj heq
        exact ⟨before, inside, after, hinside, rfl⟩
  · exact fun hquoted => hquoted.mono (List.suffix_cons c t).isInfix

theorem not_hasQuoted_quotes : ¬HasQuoted quotes := by
  rintro ⟨before, inside, after, -, heq⟩
  have hlength := congrArg List.length heq
  simp [quotes] at hlength
  omega

theorem upToQuotes?_cons {c : Char} (h : ¬quotes <+: c :: t) :
    upToQuotes? (c :: t) = (upToQuotes? t).map (c :: ·) := by
  rw [upToQuotes?, if_neg (by rwa [List.isPrefixOf_iff_prefix])]

theorem quoted?_cons {c : Char} (h : ¬quotes <+: c :: t) : quoted? (c :: t) = quoted? t := by
  rw [quoted?, if_neg (by rwa [List.isPrefixOf_iff_prefix])]

theorem not_quotes_prefix_cons {c : Char} (hc : c ≠ '"') : ¬quotes <+: c :: t :=
  fun h => hc (List.cons_prefix_cons.1 h).1.symm

theorem upToQuotes?_append_of_not_mem (h : '"' ∉ u) (t : Text) :
    upToQuotes? (u ++ t) = (upToQuotes? t).map (u ++ ·) := by
  induction u with
  | nil => simp
  | cons c u ih =>
      obtain ⟨hc, hu⟩ : '"' ≠ c ∧ '"' ∉ u := by simpa using h
      rw [List.cons_append, upToQuotes?_cons (not_quotes_prefix_cons hc.symm), ih hu,
        Option.map_map]
      rfl

theorem quoted?_append_of_not_mem (h : '"' ∉ u) (t : Text) : quoted? (u ++ t) = quoted? t := by
  induction u with
  | nil => rfl
  | cons c u ih =>
      obtain ⟨hc, hu⟩ : '"' ≠ c ∧ '"' ∉ u := by simpa using h
      rw [List.cons_append, quoted?_cons (not_quotes_prefix_cons hc.symm), ih hu]

theorem upToQuotes?_eq_none_iff : upToQuotes? t = none ↔ ¬quotes <:+: t := by
  induction t with
  | nil => simp [upToQuotes?, quotes]
  | cons c t ih =>
      rw [upToQuotes?, List.infix_cons_iff]
      split
      · rename_i hquotes
        simp [List.isPrefixOf_iff_prefix.1 hquotes]
      · rename_i hquotes
        rw [List.isPrefixOf_iff_prefix] at hquotes
        simp [hquotes, ih]

theorem upToQuotes?_eq_some (h : upToQuotes? t = some u) :
    (∃ after, t = u ++ quotes ++ after) ∧ ¬quotes <:+: u := by
  induction t generalizing u with
  | nil => cases h
  | cons c t ih =>
      rw [upToQuotes?] at h
      split at h
      · rename_i hquotes
        obtain rfl := Option.some.inj h
        obtain ⟨after, hafter⟩ := List.isPrefixOf_iff_prefix.1 hquotes
        exact ⟨⟨after, hafter.symm⟩, by simp [quotes]⟩
      · rename_i hquotes
        obtain ⟨u, hu, rfl⟩ := Option.map_eq_some_iff.1 h
        obtain ⟨⟨after, rfl⟩, hnot⟩ := ih hu
        refine ⟨⟨after, rfl⟩, fun hinfix => ?_⟩
        rcases List.infix_cons_iff.1 hinfix with hstarts | hinfix
        · refine hquotes (List.isPrefixOf_iff_prefix.2 (hstarts.trans ?_))
          exact ⟨quotes ++ after, by simp⟩
        · exact hnot hinfix

theorem quoted?_eq_none_iff : quoted? t = none ↔ ¬HasQuoted t := by
  induction t with
  | nil => simp [quoted?, HasQuoted, quotes]
  | cons c t ih =>
      rw [quoted?]
      split
      · rename_i hquotes
        obtain ⟨rest, hrest⟩ := List.isPrefixOf_iff_prefix.1 hquotes
        have hdrop : t.drop 2 = rest := by
          have := congrArg (List.drop 3) hrest
          simpa [quotes] using this.symm
        rw [hdrop, ← hrest]
        cases rest with
        | nil => simp [not_hasQuoted_quotes]
        | cons d rest => simp [hasQuoted_append_iff, upToQuotes?_eq_none_iff]
      · rename_i hquotes
        rw [List.isPrefixOf_iff_prefix] at hquotes
        rw [ih, hasQuoted_cons_iff hquotes]

theorem not_hasQuoted_of_quoted? (h : quoted? t = some u) : ¬HasQuoted u := by
  induction t with
  | nil => cases h
  | cons c t ih =>
      rw [quoted?] at h
      split at h
      · split at h
        · cases h
        · rename_i d rest _
          obtain ⟨u, hu, rfl⟩ := Option.map_eq_some_iff.1 h
          have hnot := (upToQuotes?_eq_some hu).2
          rw [hasQuoted_iff]
          rintro ⟨before, e, rest', heq, hrest'⟩
          refine hnot (hrest'.trans ?_)
          cases before with
          | nil => exact ⟨['"', '"', e], [], by simp [(List.cons.inj heq).2]⟩
          | cons _ before =>
              exact ⟨before ++ quotes ++ [e], [], by simp [(List.cons.inj heq).2]⟩
      · exact ih h

theorem infix_of_quoted? (h : quoted? t = some u) : u <:+: t := by
  induction t with
  | nil => cases h
  | cons c t ih =>
      rw [quoted?] at h
      split at h
      · split at h
        · cases h
        · rename_i d rest hrest
          obtain ⟨u, hu, rfl⟩ := Option.map_eq_some_iff.1 h
          obtain ⟨⟨after, hafter⟩, -⟩ := upToQuotes?_eq_some hu
          have hprefix : d :: u <+: t.drop 2 := ⟨quotes ++ after, by simp [hrest, hafter]⟩
          exact hprefix.isInfix.trans ((List.drop_suffix 2 t).trans (List.suffix_cons c t)).isInfix
      · exact (ih h).trans (List.suffix_cons c t).isInfix

theorem not_hasQuoted_getD (t : Text) : ¬HasQuoted ((quoted? t).getD t) := by
  cases h : quoted? t with
  | none => exact quoted?_eq_none_iff.1 h
  | some u => exact not_hasQuoted_of_quoted? h

def quotesPattern : Pattern :=
  .seq (.one (· = '"')) (.seq (.one (· = '"')) (.one (· = '"')))

def quotedPattern : Pattern :=
  .seq quotesPattern (.seq (.group (.plus false (.one fun _ => true))) quotesPattern)

variable {read : Text} {g : Option Text}

theorem ends_quotesPattern (read t : Text) (g : Option Text) :
    quotesPattern.ends ⟨read, t, g⟩ =
      if quotes.isPrefixOf t then [⟨quotes ++ read, t.drop 3, g⟩] else [] := by
  rcases t with _ | ⟨c, _ | ⟨d, _ | ⟨e, t⟩⟩⟩
  · rfl
  · by_cases hc : c = '"' <;> simp [quotesPattern, ends, quotes, hc]
  · by_cases hc : c = '"' <;> by_cases hd : d = '"' <;>
      simp [quotesPattern, ends, quotes, hc, hd]
  · by_cases hc : c = '"' <;> by_cases hd : d = '"' <;> by_cases he : e = '"' <;>
      simp [quotesPattern, ends, quotes, hc, hd, he, @eq_comm Char '"']

theorem first?_quotesPattern (read t : Text) (g : Option Text) :
    quotesPattern.first? ⟨read, t, g⟩ =
      if quotes.isPrefixOf t then some ⟨quotes ++ read, t.drop 3, g⟩ else none := by
  rw [first?, ends_quotesPattern]
  split <;> rfl

theorem keep_append (read v t : Text) (g : Option Text) :
    keep read ⟨v.reverse ++ read, t, g⟩ = ⟨v.reverse ++ read, t, some v⟩ := by
  have hlength : (v.reverse ++ read).length - read.length = v.reverse.length := by simp
  simp only [keep, hlength, List.take_left, List.reverse_reverse]

def closed (read t v : Text) : Progress :=
  ⟨quotes ++ (v.reverse ++ read), t, some v⟩

theorem findSome?_lazy (read v t : Text) (g : Option Text) :
    (((many false (one fun _ => true)).ends ⟨v.reverse ++ read, t, g⟩).map
        (keep read)).findSome? quotesPattern.first? =
      (upToQuotes? t).map fun u => closed read (t.drop (u.length + 3)) (v ++ u) := by
  induction t generalizing v with
  | nil =>
      rw [ends_many_of_nil (ends_one_of_forall (by simp)), List.map_singleton,
        List.findSome?_singleton, keep_append, first?_quotesPattern]
      rfl
  | cons c t ih =>
      rw [ends_lazy_cons rfl, List.map_cons, List.findSome?_cons, keep_append,
        first?_quotesPattern, upToQuotes?]
      by_cases hquotes : quotes.isPrefixOf (c :: t)
      · rw [if_pos hquotes, if_pos hquotes, Option.map_some, List.append_nil]
        rfl
      · rw [if_neg hquotes, if_neg hquotes]
        have ih := ih (v ++ [c])
        rw [List.reverse_append, List.reverse_singleton, List.singleton_append,
          List.cons_append] at ih
        simp only [ih, Option.map_map]
        congr 1
        funext u
        simp

theorem ends_group_cons (read : Text) (d : Char) (rest : Text) (g : Option Text) :
    (group (plus false (one fun _ => true))).ends ⟨read, d :: rest, g⟩ =
      ((many false (one fun _ => true)).ends ⟨[d].reverse ++ read, rest, g⟩).map (keep read) := by
  show (((one fun _ => true).ends ⟨read, d :: rest, g⟩).flatMap _).map (keep read) = _
  rw [ends_one_cons rfl, List.flatMap_singleton]
  rfl

theorem first?_quotedPattern (read t : Text) (g : Option Text) :
    quotedPattern.first? ⟨read, t, g⟩ =
      if quotes.isPrefixOf t then
        match t.drop 3 with
        | [] => none
        | d :: rest => (upToQuotes? rest).map fun u =>
            closed (quotes ++ read) (rest.drop (u.length + 3)) (d :: u)
      else none := by
  rw [quotedPattern, first?_seq, ends_quotesPattern]
  by_cases hquotes : quotes.isPrefixOf t
  · rw [if_pos hquotes, if_pos hquotes, List.findSome?_singleton, first?_seq]
    cases t.drop 3 with
    | nil => rfl
    | cons d rest =>
        rw [ends_group_cons]
        exact findSome?_lazy (quotes ++ read) [d] rest g
  · rw [if_neg hquotes, if_neg hquotes, List.findSome?_nil]

theorem quoted?_of_cons {c : Char} (h : quoted? (c :: t) = none) : quoted? t = none := by
  rw [quoted?_eq_none_iff] at h ⊢
  exact fun hquoted => h (hquoted.mono (List.suffix_cons c t).isInfix)

theorem find?_quotedPattern (read t : Text) :
    (quotedPattern.find? read t).bind (·.group) = quoted? t := by
  induction t generalizing read with
  | nil =>
      rw [find?, first?_quotedPattern]
      rfl
  | cons c t ih =>
      -- Behind quotes that are not closed the search goes on, and finds nothing either.
      have hcons := @quoted?_of_cons t c
      rw [quoted?] at hcons ⊢
      rw [find?, first?_quotedPattern, List.drop_succ_cons]
      by_cases hquotes : quotes.isPrefixOf (c :: t)
      · rw [if_pos hquotes] at hcons ⊢
        rw [if_pos hquotes]
        cases hrest : t.drop 2 with
        | nil =>
            rw [hrest] at hcons
            rw [Option.none_or, ih, hcons rfl]
        | cons d rest =>
            rw [hrest] at hcons
            cases hclosing : upToQuotes? rest with
            | none =>
                simp only [hclosing, Option.map_none, forall_const] at hcons
                simp only [hclosing, Option.map_none, Option.none_or, ih, hcons]
            | some u =>
                simp only [hclosing, Option.map_some, Option.some_or, Option.bind_some, closed]
      · rw [if_neg hquotes, if_neg hquotes, Option.none_or, ih]

theorem capture?_quotedPattern (t : Text) : quotedPattern.capture? t = quoted? t :=
  find?_quotedPattern [] t

end DocstringEditor.Docstring
