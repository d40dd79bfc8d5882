import DocstringEditor.Proofs.Docstring.Noise
import DocstringEditor.Proofs.Docstring.Quoted
import DocstringEditor.Proofs.Text.Lines

namespace DocstringEditor.Docstring

variable {t u v : Text}

/-- The second text less spaces that it has at the starts of its lines. It starts a line itself just
if the argument says so. -/
inductive Dedents : Bool → Text → Text → Prop
  | nil (start : Bool) : Dedents start [] []
  | keep {start : Bool} {u t : Text} (c : Char) (h : Dedents (c = '\n') u t) :
      Dedents start (c :: u) (c :: t)
  | drop {u t : Text} (h : Dedents true u t) : Dedents true u (' ' :: t)

namespace Dedents

variable {start : Bool}

theorem refl (t : Text) : Dedents start t t := by
  induction t generalizing start with
  | nil => exact .nil start
  | cons c t ih => exact .keep c ih

theorem eq_nil (h : Dedents start u []) : u = [] := by
  cases h
  rfl

theorem spaces (hv : ∀ c ∈ v, c = ' ') (h : Dedents true u t) : Dedents true u (v ++ t) := by
  induction v with
  | nil => exact h
  | cons c v ih =>
      obtain ⟨rfl, htail⟩ := List.forall_mem_cons.1 hv
      exact .drop (ih htail)

theorem append_line (h : '\n' ∉ v) (ht : Dedents true u t) :
    Dedents start (v ++ '\n' :: u) (v ++ '\n' :: t) := by
  induction v generalizing start with
  | nil => exact .keep '\n' ht
  | cons c v ih =>
      obtain ⟨-, hv⟩ : '\n' ≠ c ∧ '\n' ∉ v := by simpa using h
      exact .keep c (ih hv)

theorem sublist (h : Dedents start u t) : u.Sublist t := by
  induction h with
  | nil start => exact .slnil
  | keep c h ih => exact ih.cons_cons c
  | drop h ih => exact ih.cons ' '

theorem exists_of_append (h : Dedents start (v ++ u) t) : ∃ start' v' t',
    t = v' ++ t' ∧ v.length ≤ v'.length ∧ Dedents start' u t' := by
  generalize hw : v ++ u = w at h
  induction h generalizing v with
  | nil start =>
      obtain ⟨rfl, rfl⟩ := List.append_eq_nil_iff.1 hw
      exact ⟨start, [], [], rfl, Nat.le_refl _, .nil start⟩
  | @keep start w t c h ih =>
      cases v with
      | nil =>
          obtain rfl : u = c :: w := hw
          exact ⟨start, [], _, rfl, Nat.le_refl _, .keep c h⟩
      | cons d v =>
          obtain ⟨rfl, htail⟩ := List.cons.inj hw
          obtain ⟨start', v', t', rfl, hle, ht'⟩ := ih htail
          exact ⟨start', d :: v', t', rfl, Nat.succ_le_succ hle, ht'⟩
  | drop h ih =>
      obtain ⟨start', v', t', rfl, hle, ht'⟩ := ih hw
      exact ⟨start', ' ' :: v', t', rfl, Nat.le_succ_of_le hle, ht'⟩

theorem exists_of_quotes (h : Dedents start (quotes ++ u) t) : ∃ blanks t',
    t = blanks ++ quotes ++ t' ∧ Dedents false u t' := by
  generalize hw : quotes ++ u = w at h
  induction h with
  | nil start => cases hw
  | keep c h ih =>
      obtain ⟨rfl, rfl⟩ := List.cons.inj hw
      cases h with
      | keep c h =>
          cases h with
          | keep c h => exact ⟨[], _, rfl, h⟩
  | drop h ih =>
      obtain ⟨blanks, t', rfl, ht'⟩ := ih hw
      exact ⟨' ' :: blanks, t', rfl, ht'⟩

theorem hasQuoted (h : Dedents start u t) (hu : HasQuoted u) : HasQuoted t := by
  obtain ⟨before, inside, after, hinside, rfl⟩ := hu
  simp only [List.append_assoc] at h
  obtain ⟨_, before', t₁, rfl, -, h₁⟩ := h.exists_of_append
  obtain ⟨blanks, t₂, rfl, h₂⟩ := h₁.exists_of_quotes
  obtain ⟨_, inside', t₃, rfl, hle, h₃⟩ := h₂.exists_of_append
  obtain ⟨blanks', t₄, rfl, -⟩ := h₃.exists_of_quotes
  have hne : inside' ++ blanks' ≠ [] := by
    have := List.length_pos_iff.2 hinside
    intro hnil
    rw [(List.append_eq_nil_iff.1 hnil).1] at hle
    exact absurd this (by simpa using hle)
  exact ⟨before' ++ blanks, inside' ++ blanks', t₄, hne, by simp⟩

theorem getLast?_eq (h : Dedents start u t) (ht : t.getLast? ≠ some ' ') :
    u.getLast? = t.getLast? := by
  induction h with
  | nil start => rfl
  | @keep start u t c h ih =>
      by_cases hnil : t = []
      · subst hnil
        rw [h.eq_nil]
      · rw [List.getLast?_cons_of_ne_nil hnil] at ht
        rw [List.getLast?_cons, List.getLast?_cons, ih ht]
  | @drop u t h ih =>
      have hnil : t ≠ [] := by
        rintro rfl
        exact ht rfl
      rw [List.getLast?_cons_of_ne_nil hnil] at ht ⊢
      exact ih ht

/-- Without line breaks in the noise that a text starts with, there are none without its spaces. -/
theorem lead (h : Dedents start u t) (ht : ∀ c ∈ t.takeWhile isNoise, ¬isLineBreak c) :
    ∀ c ∈ u.takeWhile isNoise, ¬isLineBreak c := by
  induction h with
  | nil start => exact ht
  | keep c h ih =>
      by_cases hc : isNoise c
      · rw [List.takeWhile_cons_of_pos hc, List.forall_mem_cons] at ht ⊢
        exact ⟨ht.1, ih ht.2⟩
      · rw [List.takeWhile_cons_of_neg hc]
        exact fun _ hmem => absurd hmem List.not_mem_nil
  | drop h ih =>
      rw [List.takeWhile_cons_of_pos (by decide), List.forall_mem_cons] at ht
      exact ih ht.2

end Dedents

theorem dropPrefix_append (u t : Text) : dropPrefix u (u ++ t) = t := by
  simp [dropPrefix]

theorem dropPrefix_of_not (h : ¬u <+: t) : dropPrefix u t = t := by
  simp [dropPrefix, List.isPrefixOf_iff_prefix, h]

theorem dedents_lines (hu : ∀ c ∈ u, c = ' ') (t : Text) :
    Dedents true ((Text.splitLines t).map (dropPrefix u)).flatten t := by
  induction t using Text.line_induction with
  | last t ht =>
      by_cases hnil : t = []
      · subst hnil
        exact .nil true
      rw [Text.splitLines_of_not_mem hnil ht, List.map_cons, List.map_nil, List.flatten_singleton]
      by_cases hprefix : u <+: t
      · obtain ⟨v, rfl⟩ := hprefix
        rw [dropPrefix_append]
        exact .spaces hu (.refl v)
      · rw [dropPrefix_of_not hprefix]
        exact .refl t
  | line v t hv ih =>
      rw [Text.splitLines_line hv, List.map_cons, List.flatten_cons]
      by_cases hprefix : u <+: v
      · obtain ⟨w, rfl⟩ := hprefix
        have hw : '\n' ∉ w := fun hmem => hv (List.mem_append_right u hmem)
        rw [List.append_assoc, List.append_assoc, dropPrefix_append, List.append_assoc]
        exact .spaces hu (.append_line hw ih)
      · have hprefix' : ¬u <+: v ++ ['\n'] := by
          intro hlonger
          rcases List.prefix_concat_iff.1 hlonger with rfl | hshorter
          · exact absurd (hu '\n' (by simp)) (by decide)
          · exact hprefix hshorter
        rw [dropPrefix_of_not hprefix', List.append_assoc]
        exact .append_line hv ih

theorem dedents_dedent (t : Text) : Dedents true (dedent t) t :=
  dedents_lines (fun c hc => by simpa using List.mem_takeWhile_imp hc) t

theorem dropPrefix_takeWhile (p : Char → Bool) (line : Text) :
    dropPrefix (line.takeWhile p) line = line.dropWhile p := by
  have happend := dropPrefix_append (line.takeWhile p) (line.dropWhile p)
  rwa [List.takeWhile_append_dropWhile] at happend

theorem head?_dedent (t : Text) : (dedent t).head? ≠ some ' ' := by
  have hdropWhile (line : Text) : (line.dropWhile (· = ' ')).head? ≠ some ' ' := by
    intro h
    have := List.head?_dropWhile_not (fun c : Char => decide (c = ' ')) line
    simp [h] at this
  cases t using Text.line_induction with
  | last t ht =>
      by_cases hnil : t = []
      · subst hnil
        exact nofun
      · rw [dedent, Text.splitLines_of_not_mem hnil ht]
        simpa [dropPrefix_takeWhile] using hdropWhile t
  | line v t hv =>
      rw [dedent, Text.splitLines_line hv, List.headD_cons, List.map_cons, List.flatten_cons,
        dropPrefix_takeWhile]
      have hne : (v ++ ['\n']).dropWhile (· = ' ') ≠ [] := by
        rw [Ne, List.dropWhile_eq_nil_iff]
        exact fun hall => absurd (hall '\n' (by simp)) (by decide)
      rw [List.head?_append_of_ne_nil _ hne]
      exact hdropWhile _

theorem dedent_eq_self (h : t.head? ≠ some ' ') : dedent t = t := by
  have hwidth : ((Text.splitLines t).headD []).takeWhile (· = ' ') = [] := by
    obtain ⟨rest, hrest⟩ := Text.firstLine_prefix t
    rw [← Text.firstLine]
    cases hfirst : Text.firstLine t with
    | nil => rfl
    | cons c line =>
        rw [← hrest, hfirst] at h
        exact List.takeWhile_cons_of_neg (by simpa using h)
  have hmap : (Text.splitLines t).map (dropPrefix []) = Text.splitLines t :=
    List.map_id'' (fun line => dropPrefix_append [] line) _
  rw [dedent]
  simp only [hwidth, hmap, Text.flatten_splitLines]

/-- What cannot be recovered any further as the body in a generated text. -/
structure IsBody (t : Text) : Prop where
  unquoted : ¬HasQuoted t
  lead : ∀ c ∈ t.takeWhile isNoise, ¬isLineBreak c
  last : ∀ c, t.getLast? = some c → ¬isNoise c
  margin : t.head? ≠ some ' '

theorem isBody_ofGenerated (t : Text) : IsBody (ofGenerated t) := by
  obtain ⟨body, hbody⟩ : ∃ body, body = (quoted? t).getD t := ⟨_, rfl⟩
  obtain ⟨trimmed, htrimmed⟩ :
      ∃ trimmed, trimmed = dropTrailingNoise (dropLeadingNoise body) := ⟨_, rfl⟩
  have hgenerated : ofGenerated t = dedent trimmed := by rw [htrimmed, hbody, ofGenerated]
  obtain ⟨trailing, htrailing⟩ : trimmed <+: dropLeadingNoise body :=
    htrimmed ▸ dropTrailingNoise_prefix _
  have hlast : ∀ c, trimmed.getLast? = some c → ¬isNoise c :=
    htrimmed ▸ last_dropTrailingNoise _
  have hdedents := dedents_dedent trimmed
  rw [hgenerated]
  -- Spaces that are put back keep quotes and noise, so what dedenting leaves has no more of them.
  refine ⟨fun h => ?_, hdedents.lead fun c hc => ?_, ?_, head?_dedent trimmed⟩
  · have hinfix : trimmed <:+: body := by
      obtain ⟨lead, kept, rest, hparts, hdrop, -⟩ := exists_dropLeadingNoise body
      rw [hdrop] at htrailing
      exact ⟨lead, trailing, by rw [List.append_assoc, htrailing, hparts]⟩
    rw [hbody] at hinfix
    exact not_hasQuoted_getD t ((hdedents.hasQuoted h).mono hinfix)
  · exact lead_dropLeadingNoise body c (htrailing ▸ mem_takeWhile_append hc)
  · rw [hdedents.getLast?_eq fun h => hlast ' ' h (by decide)]
    exact hlast

theorem ofGenerated_sublist (t : Text) : (ofGenerated t).Sublist t := by
  have hbody : ((quoted? t).getD t).Sublist t := by
    cases h : quoted? t with
    | none => exact .refl t
    | some u => exact (infix_of_quoted? h).sublist
  have htrailing := dropTrailingNoise_prefix (dropLeadingNoise ((quoted? t).getD t))
  calc (ofGenerated t).Sublist (dropTrailingNoise (dropLeadingNoise ((quoted? t).getD t))) :=
        (dedents_dedent _).sublist
    _ |>.Sublist (dropLeadingNoise ((quoted? t).getD t)) := htrailing.sublist
    _ |>.Sublist ((quoted? t).getD t) := List.drop_sublist _ _
    _ |>.Sublist t := hbody

theorem ofGenerated_of_isBody (h : IsBody t) : ofGenerated t = t := by
  rw [ofGenerated, quoted?_eq_none_iff.2 h.unquoted, Option.getD_none,
    dropLeadingNoise_eq_self h.lead, dropTrailingNoise_eq_self h.last, dedent_eq_self h.margin]

/-- A body is recovered once and for all, as the patterns for quotes and noise say. The bodies are
the texts with nothing in quotes, no noise with a line break before them and none behind them, and
no space at their start. -/
theorem ofGenerated_fixed :
    (∀ t, ofGenerated t = dedent (noisePattern.erase ((quotedPattern.capture? t).getD t))) ∧
    (∀ t, ofGenerated (ofGenerated t) = ofGenerated t) ∧ ∀ t, ofGenerated t = t ↔ IsBody t := by
  refine ⟨fun t => ?_, fun t => ?_, fun t => ⟨fun h => ?_, ofGenerated_of_isBody⟩⟩
  · rw [ofGenerated, capture?_quotedPattern, erase_noisePattern]
  · exact ofGenerated_of_isBody (isBody_ofGenerated t)
  · rw [← h]
    exact isBody_ofGenerated t

end DocstringEditor.Docstring
