import DocstringEditor.Proofs.Syntax.Laid

namespace DocstringEditor.Syntax

variable {T t u v : Text} {s : Scan} {l : Lexeme} {n m : Nat}

def layoutChars : List Char := [' ', '\t', '\r', '\x0c', '\\', '\n']

theorem mem_separators_of_mem_layoutChars : ∀ c ∈ layoutChars, c ∈ separators :=
  List.all_iff_forall_prop.1 (by decide)

/-- Whether a text is left of another one behind characters that are no separators. -/
def Drops (t u : Text) : Prop := ∃ front, t = front ++ u ∧ ∀ c ∈ front, c ∉ separators

namespace Drops

theorem refl (t : Text) : Drops t t := ⟨[], rfl, by simp⟩

theorem cons {c : Char} (hc : c ∉ separators) (h : Drops t u) : Drops (c :: t) u := by
  obtain ⟨front, rfl, hfront⟩ := h
  exact ⟨c :: front, rfl, List.forall_mem_cons.2 ⟨hc, hfront⟩⟩

theorem trans (h : Drops t u) (h' : Drops u v) : Drops t v := by
  obtain ⟨front, rfl, hfront⟩ := h
  obtain ⟨front', rfl, hfront'⟩ := h'
  refine ⟨front ++ front', by simp, fun c hc => ?_⟩
  exact (List.mem_append.1 hc).elim (hfront c) (hfront' c)

theorem length_le (h : Drops t u) : u.length ≤ t.length := by
  obtain ⟨front, rfl, -⟩ := h
  simp

theorem of_takeWhile {p : Char → Bool} (hp : ∀ c ∈ separators, p c = false) (t : Text) :
    Drops t (t.dropWhile p) := by
  refine ⟨t.takeWhile p, List.takeWhile_append_dropWhile.symm, fun c hc hmem => ?_⟩
  have := List.mem_takeWhile_imp hc
  simp [hp c hmem] at this

end Drops

namespace Number

theorem isDigit_of_mem_separators : ∀ c ∈ separators, c.isDigit = false :=
  List.all_iff_forall_prop.1 (by decide)

theorem drops_dropDigits (afterDigit : Bool) (t : Text) : Drops t (dropDigits afterDigit t) := by
  fun_induction dropDigits afterDigit t with
  | case1 => exact .refl _
  | case2 afterDigit c t hc ih =>
      refine .cons (fun hmem => ?_) ih
      simp [isDigit_of_mem_separators c hmem] at hc
  | case3 afterDigit c t hc hc' ih =>
      obtain ⟨rfl, -⟩ := hc'
      exact .cons (by decide) ih
  | case4 => exact .refl _

theorem drops_dropRadix {isDigit : Char → Bool} (hd : separators.all (!isDigit ·)) (t : Text) :
    Drops t (dropRadix isDigit t) := by
  have hdigit {c : Char} (hc : isDigit c) : c ∉ separators := by
    intro hmem
    have hnot := List.all_eq_true.1 hd c hmem
    simp [hc] at hnot
  fun_induction dropRadix isDigit t with
  | case1 => exact .refl _
  | case2 c hc => exact .cons (hdigit hc) (.refl _)
  | case3 => exact .refl _
  | case4 c d t hc ih => exact .cons (hdigit hc) ih
  | case5 c d t hc hc' ih =>
      obtain ⟨rfl, -⟩ := hc'
      exact .cons (by decide) ih
  | case6 => exact .refl _

theorem drops_dropOne {cs : List Char} (hcs : cs.all (· ∉ separators)) (t : Text) :
    Drops t (dropOne cs t) := by
  cases t with
  | nil => exact .refl _
  | cons c t =>
      rw [dropOne]
      split
      · exact .cons (List.all_iff_forall_prop.1 hcs c ‹_›) (.refl t)
      · exact .refl _

theorem drops_dropExponent? (h : dropExponent? t = some u) : Drops t u := by
  cases t with
  | nil => simp [dropExponent?] at h
  | cons c t =>
      simp only [dropExponent?] at h
      split at h
      · rename_i hc
        split at h
        · obtain rfl := Option.some.inj h
          have hletter : c ∉ separators := by
            rcases hc with rfl | rfl <;> decide
          exact .cons hletter ((drops_dropOne (by decide) t).trans (drops_dropDigits false _))
        · simp at h
      · simp at h

theorem drops_getD_dropExponent? (t : Text) : Drops t ((dropExponent? t).getD t) := by
  cases h : dropExponent? t with
  | none => exact .refl t
  | some u => exact drops_dropExponent? h

theorem drops_dropPrefixed? (h : dropPrefixed? t = some u) : Drops t u ∧ u.length < t.length := by
  have hdigits {isDigit : Char → Bool} (hd : separators.all (!isDigit ·)) {rest : Text}
      (hu : (if (dropRadix isDigit rest).length < rest.length then
        some (dropOne ['l', 'L'] (dropRadix isDigit rest)) else none) = some u) : Drops rest u := by
    split at hu
    · obtain rfl := Option.some.inj hu
      exact (drops_dropRadix hd rest).trans (drops_dropOne (by decide) _)
    · simp at hu
  have hfront {c d : Char} {rest : Text} (hc : c ∉ separators) (hd : d ∉ separators)
      (hrest : Drops rest u) : Drops (c :: d :: rest) u ∧ u.length < (c :: d :: rest).length := by
    refine ⟨.cons hc (.cons hd hrest), ?_⟩
    have := hrest.length_le
    simp only [List.length_cons]
    omega
  unfold dropPrefixed? at h
  split at h
  · exact hfront (by decide) (by decide) (hdigits (by decide) h)
  · exact hfront (by decide) (by decide) (hdigits (by decide) h)
  · exact hfront (by decide) (by decide) (hdigits (by decide) h)
  · exact hfront (by decide) (by decide) (hdigits (by decide) h)
  · exact hfront (by decide) (by decide) (hdigits (by decide) h)
  · exact hfront (by decide) (by decide) (hdigits (by decide) h)
  · simp at h

theorem drops_drop? (h : drop? t = some u) : Drops t u ∧ u.length < t.length := by
  have himaginary (t : Text) : Drops t (dropOne ['j', 'J'] t) := drops_dropOne (by decide) t
  simp only [drop?, Option.or_eq_some_iff] at h
  rcases h with h | ⟨-, h⟩
  · exact drops_dropPrefixed? h
  split at h
  · rename_i hdigit
    have hwhole := drops_dropDigits false t
    have hlt : (dropDigits false t).length < t.length := by
      cases t with
      | nil => simp at hdigit
      | cons c t =>
          have hc : c.isDigit := by simpa using hdigit
          have := (drops_dropDigits true t).length_le
          simp only [dropDigits, hc, if_true, List.length_cons]
          omega
    have hrest {v : Text} (hv : Drops (dropDigits false t) v) : Drops t v ∧ v.length < t.length :=
      ⟨hwhole.trans hv, Nat.lt_of_le_of_lt hv.length_le hlt⟩
    split at h
    · rename_i rest hdot
      obtain rfl := Option.some.inj h
      refine hrest ?_
      rw [hdot]
      exact .cons (by decide) (((drops_dropDigits false rest).trans
        (drops_getD_dropExponent? _)).trans (himaginary _))
    · split at h
      · rename_i hexponent
        obtain rfl := Option.some.inj h
        exact hrest ((drops_dropExponent? hexponent).trans (himaginary _))
      · obtain rfl := Option.some.inj h
        exact hrest (drops_dropOne (by decide) _)
  · split at h
    · rename_i c rest hdigit
      split at h
      · obtain rfl := Option.some.inj h
        have hfront := ((drops_dropDigits false (c :: rest)).trans
          (drops_getD_dropExponent? _)).trans (himaginary _)
        refine ⟨.cons (by decide) hfront, ?_⟩
        have := hfront.length_le
        rw [List.length_cons]
        omega
      · simp at h
    · simp at h

end Number

def Token.isSolid : Token → Bool
  | .name _ | .number | .mark _ => true
  | _ => false

theorem Drops.of_take (h : Drops t u) : ∀ c ∈ t.take (t.length - u.length), c ∉ separators := by
  obtain ⟨front, rfl, hfront⟩ := h
  simpa using hfront

theorem isNameRest_of_isNameStart {c : Char} (h : Text.isNameStart c) : Text.isNameRest c := by
  unfold Text.isNameStart at h
  unfold Text.isNameRest
  split at h
  · rename_i hascii
    rw [if_pos hascii]
    simp only [Bool.or_eq_true, Char.isAlphanum] at h ⊢
    exact h.imp_left .inl
  · rename_i hascii
    rw [if_neg hascii]
    simp [h]

theorem isNameRest_of_mem_separators : ∀ c ∈ separators, Text.isNameRest c = false :=
  List.all_iff_forall_prop.1 (by decide +kernel)

theorem chars_of_mem_marks :
    ∀ m ∈ marks, m.toList ≠ [] ∧ m.toList.all (· ∉ separators) := by
  decide +kernel

theorem plainToken_solid (h : (plainToken t).1.isSolid) :
    0 < (plainToken t).2 ∧ (plainToken t).2 ≤ t.length ∧
      ∀ c ∈ t.take (plainToken t).2, c ∉ separators := by
  cases t with
  | nil => simp [plainToken, Token.isSolid] at h
  | cons c t =>
      rw [plainToken] at h ⊢
      split
      · rename_i hc
        have hword : Drops (c :: t) (t.dropWhile Text.isNameRest) := by
          refine .cons (fun hmem => ?_) (.of_takeWhile isNameRest_of_mem_separators t)
          have hrest := isNameRest_of_mem_separators c hmem
          simp [isNameRest_of_isNameStart hc] at hrest
        have hlength : (c :: t.takeWhile Text.isNameRest).length =
            (c :: t).length - (t.dropWhile Text.isNameRest).length := by
          have := congrArg List.length (List.takeWhile_append_dropWhile (p := Text.isNameRest)
            (l := t))
          simp only [List.length_append, List.length_cons] at *
          omega
        have hle := (List.takeWhile_prefix (l := t) Text.isNameRest).length_le
        refine ⟨by simp, by simpa using hle, ?_⟩
        dsimp only
        rw [hlength]
        exact hword.of_take
      · rename_i hc
        rw [if_neg hc] at h
        split
        · rename_i rest hnumber
          obtain ⟨hdrops, hlt⟩ := Number.drops_drop? hnumber
          have hlength : t.length + 1 - rest.length = (c :: t).length - rest.length := rfl
          simp only [List.length_cons] at hlt
          exact ⟨by simp only; omega, by simp, hlength ▸ hdrops.of_take⟩
        · rename_i hnumber
          rw [hnumber] at h
          simp only at h
          split at h
          · rename_i m hm
            obtain ⟨hne, hchars⟩ := chars_of_mem_marks m (List.mem_of_find?_eq_some hm)
            obtain ⟨rest, hrest⟩ : m.toList <+: c :: t := by simpa using List.find?_some hm
            have hpos := List.length_pos_iff.2 hne
            rw [← hrest, List.length_append, ← String.length_toList]
            exact ⟨hpos, Nat.le_add_right _ _, by simpa using hchars⟩
          · simp [Token.isSolid] at h

theorem plainToken_cases (t : Text) :
    (plainToken t).1.isSolid ∨ (plainToken t).1 = .finish ∨ (plainToken t).1 = .unknown := by
  cases t with
  | nil => exact .inr (.inl rfl)
  | cons c t =>
      rw [plainToken]
      split
      · exact .inl rfl
      split
      · exact .inl rfl
      split
      · exact .inl rfl
      · exact .inr (.inr rfl)

theorem plainToken_finish (h : (plainToken t).1 = .finish) : (plainToken t).2 = 0 := by
  cases t with
  | nil => rfl
  | cons c t =>
      rw [plainToken] at h
      split at h
      · simp at h
      split at h
      · simp at h
      split at h <;> simp at h

theorem plainToken_layout (h : (plainToken t).1 ∈ [.newline, .indent, .dedent, .finish]) :
    (plainToken t).1 = .finish := by
  simp only [List.mem_cons, List.not_mem_nil, or_false] at h
  rcases plainToken_cases t with hsolid | hfinish | hunknown
  · rcases h with h | h | h | h <;> exact absurd hsolid (by rw [h]; decide)
  · exact hfinish
  · simp [hunknown] at h

theorem plainToken_ne_string {style : StringStyle} : (plainToken t).1 ≠ .string style := by
  intro h
  rcases plainToken_cases t with hsolid | hfinish | hunknown
  · rw [h] at hsolid
    simp [Token.isSolid] at hsolid
  · simp [h] at hfinish
  · simp [h] at hunknown

def EndsLine : Text → Prop
  | [] => True
  | c :: t => c = '\n' ∨ c ∈ layoutChars ∧ EndsLine t

theorem EndsLine.drop_or (h : EndsLine t) (n : Nat) : EndsLine (t.drop n) ∨ '\n' ∈ t.take n := by
  induction n generalizing t with
  | zero => exact .inl h
  | succ n ih =>
      cases t with
      | nil => exact .inl trivial
      | cons c t =>
          rcases h with rfl | ⟨-, h⟩
          · exact .inr (by simp)
          · rcases ih h with h | h
            · exact .inl h
            · exact .inr (List.mem_cons_of_mem c h)

theorem endsLine_of_read {comments : Bool} {b b' : Blanks} (hread : b.read comments t = some b')
    (hmode : b.mode ≠ .comment) (hb : b.lineEnd = false) (hb' : b'.lineEnd = true) :
    EndsLine t := by
  induction t generalizing b with
  | nil => trivial
  | cons c t ih =>
      rw [Blanks.read] at hread
      cases hm : b.mode with
      | comment => exact absurd hm hmode
      | backslash =>
          simp only [hm] at hread
          split at hread
          · exact .inl ‹_›
          · split at hread
            · subst_vars
              exact .inr ⟨by decide, ih hread (by simp) hb⟩
            · simp at hread
      | backslashReturn =>
          simp only [hm] at hread
          split at hread
          · exact .inl ‹_›
          · simp at hread
      | space =>
          have hnext {b₁ : Blanks} (hc : c ∈ layoutChars) (hread : b₁.read comments t = some b')
              (hmode : b₁.mode ≠ .comment) (hb : b₁.lineEnd = false) : EndsLine (c :: t) :=
            .inr ⟨hc, ih hread hmode hb⟩
          simp only [hm] at hread
          split at hread
          · exact .inl ‹_›
          split at hread
          · exact hnext (by simp_all [layoutChars]) hread (by simp) hb
          split at hread
          · exact hnext (by simp_all [layoutChars]) hread (by simp) hb
          split at hread
          · rename_i hc
            exact hnext (by rcases hc with rfl | rfl <;> decide) hread (by simp) hb
          split at hread
          · exact hnext (by simp_all [layoutChars]) hread (by simp) hb
          split at hread
          · simp [hb] at hread
          · obtain rfl := Option.some.inj hread
            simp [hb] at hb'

theorem commentWidth_of_read {comments : Bool} {b b' : Blanks}
    (hread : b.read comments t = some b') (hb : b.commentWidth.isSome) :
    b'.commentWidth.isSome := by
  induction t generalizing b with
  | nil =>
      obtain rfl := Option.some.inj hread
      exact hb
  | cons c t ih =>
      rw [Blanks.read] at hread
      cases hm : b.mode with
      | comment =>
          simp only [hm] at hread
          split at hread <;> exact ih hread hb
      | backslash =>
          simp only [hm] at hread
          split at hread
          · exact ih hread hb
          · split at hread
            · exact ih hread hb
            · cases hread
      | backslashReturn =>
          simp only [hm] at hread
          split at hread
          · exact ih hread hb
          · cases hread
      | space =>
          simp only [hm] at hread
          iterate 5 (split at hread; exact ih hread hb)
          split at hread
          · split at hread
            · exact ih hread (by cases b.commentWidth <;> simp)
            · cases hread
          · obtain rfl := Option.some.inj hread
            exact hb

theorem gap_of_read {comments : Bool} {b b' : Blanks} (hread : b.read comments t = some b')
    (hmode : b.mode ≠ .comment) (hnone : b'.commentWidth = none) :
    ∃ n, b'.length = b.length + n ∧ ∀ c ∈ t.take n, c ∈ gapChars := by
  induction t generalizing b with
  | nil =>
      obtain rfl := Option.some.inj hread
      exact ⟨0, rfl, by simp⟩
  | cons c t ih =>
      have hnext {b₁ : Blanks} (hc : c ∈ gapChars) (hlength : b₁.length = b.length + 1)
          (hmode : b₁.mode ≠ .comment) (hread : b₁.read comments t = some b') :
          ∃ n, b'.length = b.length + n ∧ ∀ d ∈ (c :: t).take n, d ∈ gapChars := by
        obtain ⟨n, hn, hgap⟩ := ih hread hmode
        exact ⟨n + 1, by omega, List.forall_mem_cons.2 ⟨hc, hgap⟩⟩
      rw [Blanks.read] at hread
      cases hm : b.mode with
      | comment => exact absurd hm hmode
      | backslash =>
          simp only [hm] at hread
          split at hread
          · exact hnext (by subst_vars; decide) rfl (by simp) hread
          · split at hread
            · exact hnext (by subst_vars; decide) rfl (by simp) hread
            · cases hread
      | backslashReturn =>
          simp only [hm] at hread
          split at hread
          · exact hnext (by subst_vars; decide) rfl (by simp) hread
          · cases hread
      | space =>
          simp only [hm] at hread
          split at hread
          · exact hnext (by subst_vars; decide) rfl (by simp) hread
          split at hread
          · exact hnext (by subst_vars; decide) rfl (by simp) hread
          split at hread
          · exact hnext (by subst_vars; decide) rfl (by simp) hread
          split at hread
          · rename_i hc
            exact hnext (by rcases hc with rfl | rfl <;> decide) rfl (by simp) hread
          split at hread
          · exact hnext (by subst_vars; decide) rfl (by simp) hread
          split at hread
          · split at hread
            · have hsome := commentWidth_of_read hread
                (by cases b.commentWidth <;> simp)
              simp [hnone] at hsome
            · cases hread
          · obtain rfl := Option.some.inj hread
            exact ⟨0, rfl, by simp⟩

theorem ofOpening_quote {style style' : StringStyle} (h : style.ofOpening n t = some (style', m)) :
    n < m ∧ style'.quote ∉ separators ∧ t ≠ [] ∧ ∀ c ∈ t.take (m - n), c ∉ separators := by
  induction t generalizing style n with
  | nil => simp [StringStyle.ofOpening] at h
  | cons c t ih =>
      rw [StringStyle.ofOpening] at h
      have htake {m : Nat} (hlt : n < m) (hc : c ∉ separators)
          (ht : ∀ c ∈ t.take (m - (n + 1)), c ∉ separators) :
          ∀ d ∈ (c :: t).take (m - n), d ∉ separators := by
        obtain ⟨k, rfl⟩ := Nat.exists_eq_add_of_lt hlt
        rw [show n + k + 1 - (n + 1) = k by omega] at ht
        rw [show n + k + 1 - n = k + 1 by omega, List.take_succ_cons]
        exact List.forall_mem_cons.2 ⟨hc, ht⟩
      have hletter {style : StringStyle} (hc : c ∉ separators)
          (h : style.ofOpening (n + 1) t = some (style', m)) :
          n < m ∧ style'.quote ∉ separators ∧ c :: t ≠ [] ∧
            ∀ d ∈ (c :: t).take (m - n), d ∉ separators := by
        obtain ⟨hlt, hquote, -, ht⟩ := ih h
        exact ⟨by omega, hquote, List.cons_ne_nil c t, htake (by omega) hc ht⟩
      have hone (hc : c ∉ separators) : ∀ d ∈ (c :: t).take (n + 1 - n), d ∉ separators :=
        htake (by omega) hc (by simp)
      split at h
      · exact hletter (by rename_i hc; rcases hc with rfl | rfl <;> decide) h
      split at h
      · exact hletter (by rename_i hc; rcases hc with rfl | rfl <;> decide) h
      split at h
      · exact hletter (by rename_i hc; rcases hc with rfl | rfl <;> decide) h
      split at h
      · exact hletter (by rename_i hc; rcases hc with rfl | rfl <;> decide) h
      split at h
      · obtain ⟨rfl, rfl⟩ : _ ∧ n + 1 = m := by simpa using h
        subst_vars
        have hquote : '`' ∉ separators := by decide
        exact ⟨by omega, hquote, List.cons_ne_nil _ t, hone hquote⟩
      split at h
      · rename_i hc
        have hquote : c ∉ separators := by
          rcases hc with rfl | rfl <;> decide
        split at h
        · rename_i hprefix
          obtain ⟨rfl, rfl⟩ : _ ∧ n + 3 = m := by simpa using h
          obtain ⟨u, rfl⟩ := List.isPrefixOf_iff_prefix.1 hprefix
          refine ⟨by omega, hquote, List.cons_ne_nil c _, htake (by omega) hquote ?_⟩
          rw [show n + 3 - (n + 1) = [c, c].length by simp, List.take_left]
          simp [hquote]
        · obtain ⟨rfl, rfl⟩ : _ ∧ n + 1 = m := by simpa using h
          exact ⟨by omega, hquote, List.cons_ne_nil c t, hone hquote⟩
      · simp at h

/-- What a layout token is: none takes a character, and a string opening takes its quotes, with a
gap before it. -/
theorem layoutToken_cases {e : Expected} {token : Token} {start : Location} {next : Scan}
    (h : layoutToken e s = some (token, start, next)) :
    (token ∈ [.indent, .dedent, .newline] ∧ start = s.here ∧ next.rest = s.rest ∧
      next.here = s.here ∧ EndsLine s.rest) ∨
    ∃ style n m, token = .string style ∧ start = (s.skip n).here ∧ 0 < m ∧
      style.quote ∉ separators ∧ (∀ c ∈ s.rest.take n, c ∈ gapChars) ∧
      next.rest = (s.skip (n + m)).rest ∧ next.here = (s.skip (n + m)).here ∧
      (s.skip n).rest ≠ [] ∧ ∀ c ∈ (s.skip n).rest.take m, c ∉ separators := by
  unfold layoutToken at h
  obtain ⟨blanks, hblanks, h⟩ := Option.bind_eq_some_iff.1 h
  have hends (hlineEnd : blanks.lineEnd) : EndsLine s.rest :=
    endsLine_of_read hblanks (by simp) rfl hlineEnd
  extract_lets behind atQuote block at h
  have hlayout {token' : Token} {blocks : List Nat} (hlineEnd : blanks.lineEnd)
      (htoken : token' ∈ [Token.indent, .dedent, .newline])
      (h : some (token', s.here, { s with blocks }) = some (token, start, next)) :
      token ∈ [Token.indent, .dedent, .newline] ∧ start = s.here ∧ next.rest = s.rest ∧
        next.here = s.here ∧ EndsLine s.rest := by
    obtain ⟨rfl, rfl, rfl⟩ : token' = token ∧ s.here = start ∧ _ = next := by simpa using h
    exact ⟨htoken, rfl, rfl, rfl, hends hlineEnd⟩
  split at h
  · rename_i hc
    exact .inl (hlayout (by simp_all) (by simp) h)
  split at h
  · rename_i hc
    exact .inl (hlayout (by simp_all) (by simp) h)
  split at h
  · rename_i hc
    exact .inl (hlayout (by simp_all) (by simp) h)
  split at h
  · rename_i hstring
    obtain ⟨length₀, hlength, hgap⟩ := gap_of_read hblanks (by simp)
      (by simpa using (Bool.and_eq_true_iff.1 hstring).2)
    obtain rfl : blanks.length = length₀ := by simpa using hlength
    obtain ⟨⟨style, length⟩, hstyle, h⟩ := Option.bind_eq_some_iff.1 h
    obtain ⟨rfl, rfl, rfl⟩ : .string style = token ∧ behind.here = start ∧ _ = next := by
      simpa using h
    obtain ⟨hpos, hquote, hne, hchars⟩ := ofOpening_quote hstyle
    have hskip : behind.skip length = s.skip (blanks.length + length) := (Scan.skip_add _ _ s).symm
    refine .inr ⟨style, blanks.length, length, rfl, rfl, hpos, hquote, hgap, ?_, ?_, hne, hchars⟩
    · rw [← hskip]
      exact (Scan.skip_rest length behind).symm
    · rw [← hskip]
      exact (Scan.skip_here length behind).symm
  · simp at h

/-- What is true of a token that is read from a scan. -/
structure Ahead (T : Text) (s : Scan) (l : Lexeme) : Prop where
  here : s.In T
  extras : Forest.Plain T s.here l.extras l.start
  isExtra : ∀ n ∈ l.extras, n.isExtra
  next : l.next.In T
  le : l.start.byte ≤ l.next.here.byte
  solid : l.token.isSolid → ∃ t, l.next.From T l.start t ∧ t ≠ [] ∧ ∀ c ∈ t, c ∉ separators
  string : ∀ style, l.token = .string style → style.quote ∉ separators ∧
    ∃ t, l.next.From T l.start t ∧ t ≠ [] ∧ ∀ c ∈ t, c ∉ separators
  layout : l.token ∈ [.newline, .indent, .dedent, .finish] → l.next.here = l.start
  row_lt : EndsLine s.rest → l.token.isSolid ∨ (∃ style, l.token = .string style) →
    s.here.row < l.start.row
  ends : l.token = .newline ∨ l.token = .dedent → EndsLine l.next.rest

theorem Scan.From.cut {a : Location} (h : s.From T a t) (ht : t ≠ [])
    (hlast : t.getLast? ≠ some '\r') : Cut T s.here := by
  obtain ⟨before, hT, -, hhere⟩ := h
  refine ⟨before ++ t, ⟨s.rest, hT.symm⟩, hhere, ?_⟩
  rwa [List.getLast?_append_of_ne_nil _ ht]

theorem sound_leaf {k : Kind} {a b : Location} (ha : Place T a) (hb : Place T b)
    (hle : a.byte ≤ b.byte) (hk : k ≠ .module) (hdef : ¬k.isDefinition)
    (hcut : k ≠ .comment → k ≠ .stringContent → a.byte < b.byte → Cut T b)
    (hwritten : a.byte < b.byte → (Node.leaf k a b).Written T) : (Node.leaf k a b).Sound T := by
  refine ⟨ha, hb, hle, hk, by simp [Node.leaf, Node.children], by simp [Node.leaf, Node.children],
    fun _ hsub hcontent => ?_, fun hd => absurd hd hdef, by simp [Node.leaf, Node.children],
    by simp [Node.leaf, Node.children], by simp [Node.leaf, Node.children],
    by simp [Node.leaf, Node.children], fun _ hwidth => hwritten (of_decide_eq_true hwidth)⟩
  simp only [Node.isSubstantial, Node.isComment, Node.hasWidth, Bool.and_eq_true,
    decide_eq_true_eq, Bool.not_eq_eq_eq_not, Bool.not_true, decide_eq_false_iff_not] at hsub
  exact hcut hsub.1 hcontent hsub.2

namespace Forest

variable {a b c : Location} {ps : Forest} {k : Kind}

theorem Loose.leaf (h : s.From T a t) (ht : t ≠ []) (hk : k ≠ .module) (hdef : ¬k.isDefinition)
    (hspells : k.Spells t s.rest)
    (hlast : k ≠ .comment → k ≠ .stringContent → t.getLast? ≠ some '\r') :
    Loose T a [.leaf k a s.here] s.here := by
  have hlt : a.byte < s.here.byte := by
    rw [h.byte_eq]
    have := Text.byteSize_pos ht
    omega
  have ha := h.place
  have hb := h.isIn.place
  refine ⟨⟨ha, hb, ⟨Nat.le_refl _, Nat.le_of_lt hlt, Nat.le_refl _⟩, ⟨.refl ha, .refl hb⟩, ?_⟩, ?_,
    ?_⟩
  · intro n hn
    obtain rfl : n = .leaf k a s.here := by
      simpa [Node.preorder_eq, Node.inner, Node.leaf, Node.children] using hn
    exact sound_leaf ha hb (Nat.le_of_lt hlt) hk hdef
      (fun hc hcontent _ => h.cut ht (hlast hc hcontent)) fun _ => h.written hspells
  · intro n hn
    obtain rfl := List.mem_singleton.1 hn
    exact decide_eq_true hlt
  · rw [definitions_cons, if_neg (show ¬(Node.leaf k a s.here).isDefinition from hdef)]
    rfl

theorem Loose.extend (h : Loose T a ps b) (hc : Place T c) (hgap : Gap T b.byte c.byte) :
    Loose T a ps c := by
  have hwithin : Within a.byte (ps ++ []) c.byte := h.within.append hgap.le
  have hfilled : Filled T a.byte (ps ++ []) c.byte := h.filled.append hgap
  rw [List.append_nil] at hwithin hfilled
  exact ⟨⟨h.start, hc, hwithin, hfilled, h.sound⟩, h.wide, h.plain⟩

namespace Plain

theorem extend (h : Plain T a ps b) (hc : Place T c) (hgap : Gap T b.byte c.byte) :
    Plain T a ps c := ⟨h.toLoose.extend hc hgap, h.closed⟩

theorem leaf (h : s.From T a t) (ht : t ≠ [])
    (hk : k ≠ .module ∧ ¬k.isDefinition ∧ k ≠ .stringContent) (hspells : k.Spells t s.rest)
    (hlast : k ≠ .comment → t.getLast? ≠ some '\r') : Plain T a [.leaf k a s.here] s.here := by
  refine ⟨.leaf h ht hk.1 hk.2.1 hspells fun hc _ => hlast hc, fun n hn => ?_⟩
  obtain rfl := List.mem_singleton.1 hn
  exact ⟨hk.2.2, by simp [Node.leaf, Node.inner, Node.children]⟩

end Plain
end Forest

theorem extra?_plain {node : Node} {next : Scan} (hs : s.In T) (h : s.extra? = some (node, next)) :
    ∃ n, next = s.skip n ∧ node.isExtra ∧ Forest.Plain T s.here [node] next.here := by
  have hleaf {k : Kind} {n : Nat} (hne : s.rest.take n ≠ []) (hk : k.isExtra)
      (hspells : k.Spells (s.rest.take n) (s.rest.drop n))
      (hlast : k ≠ .comment → (s.rest.take n).getLast? ≠ some '\r')
      (h : some (Node.leaf k s.here (s.skip n).here, s.skip n) = some (node, next)) :
      ∃ n, next = s.skip n ∧ node.isExtra ∧ Forest.Plain T s.here [node] next.here := by
    obtain ⟨rfl, rfl⟩ := Prod.mk.inj (Option.some.inj h)
    refine ⟨n, rfl, hk, .leaf ((Scan.From.refl hs).skip n) hne ?_ ?_ hlast⟩
    · cases k <;> simp_all [Kind.isExtra, Kind.isDefinition]
    · rwa [Scan.skip_rest]
  unfold Scan.extra? at h
  split at h
  · rename_i t hrest
    refine hleaf (by simp [hrest, Nat.add_comm 1]) rfl ?_ (fun hc => absurd rfl hc) h
    set p : Char → Bool := fun c => c ≠ '\n' && c ≠ '\x00' with hp
    have hdrop := @List.drop_left _ (t.takeWhile p) (t.dropWhile p)
    rw [List.takeWhile_append_dropWhile] at hdrop
    rw [hrest, Nat.add_comm 1, List.take_succ_cons, List.drop_succ_cons,
      ← List.prefix_iff_eq_take.1 (List.takeWhile_prefix p), hdrop]
    refine ⟨rfl, ?_, ?_⟩
    · simp only [List.mem_cons, not_or]
      refine ⟨by decide, fun hmem => ?_⟩
      have := List.mem_takeWhile_imp hmem
      simp [hp] at this
    · intro c hc
      have := List.head?_dropWhile_not p t
      rw [Option.mem_def.1 hc] at this
      simpa [hp, Classical.or_iff_not_imp_left] using this
  · rename_i t hrest
    exact hleaf (by simp [hrest]) rfl (by simp [hrest, Kind.Spells]) (fun _ => by simp [hrest]) h
  · rename_i t hrest
    exact hleaf (by simp [hrest]) rfl (by simp [hrest, Kind.Spells]) (fun _ => by simp [hrest]) h
  · rename_i t hrest
    exact hleaf (by simp [hrest]) rfl (by simp [hrest, Kind.Spells]) (fun _ => by simp [hrest]) h
  · rename_i hrest
    exact hleaf (by simp [hrest]) rfl (by simp [hrest, Kind.Spells]) (fun _ => by simp [hrest]) h
  · simp at h

/-- A scan that some steps lead to keeps to the end of the line or is on a later row. -/
theorem EndsLine.skip (h : EndsLine s.rest) (n : Nat) :
    EndsLine (s.skip n).rest ∨ s.here.row < (s.skip n).here.row := by
  rcases h.drop_or n with h | h
  · exact .inl (by rwa [Scan.skip_rest])
  · exact .inr (by rw [Scan.skip_here]; exact Location.row_lt_after _ h)

theorem EndsLine.head_mem {c : Char} (h : EndsLine (c :: t)) : c ∈ separators := by
  rcases h with rfl | ⟨hmem, -⟩
  · decide
  · exact mem_separators_of_mem_layoutChars c hmem

/-- What has been read before a token, from the scan `s₀` on. -/
structure Skipped (T : Text) (s₀ : Scan) (parts : Forest) (s : Scan) : Prop where
  start : s₀.In T
  here : s.In T
  extras : Forest.Plain T s₀.here parts s.here
  isExtra : ∀ n ∈ parts, n.isExtra
  row_le : s₀.here.row ≤ s.here.row
  ends : EndsLine s₀.rest → EndsLine s.rest ∨ s₀.here.row < s.here.row

namespace Skipped

variable {s₀ next : Scan} {extras : Forest} {node : Node} {start : Location} {token : Token}
  {e : Expected}

theorem refl (hs : s.In T) : Skipped T s [] s :=
  ⟨hs, hs, .refl hs.place, by simp, Nat.le_refl _, .inl⟩

/-- Whatever is read next, the scan comes to no earlier row. -/
theorem skip (h : Skipped T s₀ extras s) {parts : Forest}
    (hparts : Forest.Plain T s₀.here parts (s.skip n).here) (hextra : ∀ n ∈ parts, n.isExtra) :
    Skipped T s₀ parts (s.skip n) := by
  have hrow := Scan.row_le_skip s n
  refine ⟨h.start, h.here.skip n, hparts, hextra, Nat.le_trans h.row_le hrow, fun h₀ => ?_⟩
  rcases h.ends h₀ with hends | hlt
  · exact (hends.skip n).imp_right (Nat.lt_of_le_of_lt h.row_le)
  · exact .inr (Nat.lt_of_lt_of_le hlt hrow)

theorem gap (h : Skipped T s₀ extras s) (hgap : ∀ c ∈ s.rest.take n, c ∈ gapChars) :
    Skipped T s₀ extras (s.skip n) := by
  refine h.skip (h.extras.extend (h.here.skip n).place ?_) h.isExtra
  exact ((Scan.From.refl h.here).skip n).gap (by simpa using hgap)

theorem spaces (h : Skipped T s₀ extras s) :
    Skipped T s₀ extras (s.skip (s.rest.takeWhile isSpace).length) := by
  apply h.gap
  intro c hc
  rw [← List.prefix_iff_eq_take.1 (List.takeWhile_prefix isSpace)] at hc
  exact mem_gapChars_of_isSpace (List.mem_takeWhile_imp hc)

theorem extra (h : Skipped T s₀ extras s) (hnode : s.extra? = some (node, next)) :
    Skipped T s₀ (extras ++ [node]) next := by
  obtain ⟨n, rfl, hextra, hplain⟩ := extra?_plain h.here hnode
  refine h.skip (h.extras.append hplain) fun m hm => ?_
  rcases List.mem_append.1 hm with hm | hm
  · exact h.isExtra m hm
  · rwa [List.mem_singleton.1 hm]

theorem row_lt {c : Char} (h : Skipped T s₀ extras s) (hrest : s.rest = c :: u)
    (hc : c ∉ separators) (h₀ : EndsLine s₀.rest) : s₀.here.row < s.here.row := by
  apply (h.ends h₀).resolve_left
  rw [hrest]
  exact fun hends => hc hends.head_mem

theorem unknown (h : Skipped T s₀ extras s) : Ahead T s₀ ⟨extras, .unknown, s.here, s⟩ := by
  refine ⟨h.start, h.extras, h.isExtra, h.here, Nat.le_refl _, ?_, ?_, ?_, ?_, ?_⟩ <;>
    simp [Token.isSolid]

theorem layout (h : Skipped T s₀ extras s)
    (hlayout : layoutToken e s = some (token, start, next)) :
    Ahead T s₀ ⟨extras, token, start, next⟩ := by
  rcases layoutToken_cases hlayout with ⟨htoken, rfl, hrest, hhere, hline⟩ |
    ⟨style, i, j, rfl, rfl, hpos, hquote, hgap, hrest, hhere, hne, hchars⟩
  · have hnext : next.In T := ((Scan.From.refl h.here).congr hrest hhere).isIn
    refine ⟨h.start, h.extras, h.isExtra, hnext, by rw [hhere], ?_, ?_, fun _ => hhere, ?_,
      fun _ => by rwa [hrest]⟩ <;>
      simp only [List.mem_cons, List.not_mem_nil, or_false] at htoken <;>
      rcases htoken with rfl | rfl | rfl <;> simp [Token.isSolid]
  · have h := h.gap hgap
    have hopening : next.From T (s.skip i).here ((s.skip i).rest.take j) := by
      have h := (Scan.From.refl h.here).skip j
      rw [List.nil_append, ← Scan.skip_add] at h
      exact h.congr hrest hhere
    have hle : (s.skip i).here.byte ≤ next.here.byte := by
      rw [hopening.byte_eq]
      exact Nat.le_add_right _ _
    have htake : (s.skip i).rest.take j ≠ [] := by
      simpa [Nat.ne_of_gt hpos] using hne
    obtain ⟨c, u, hcu⟩ := List.exists_cons_of_ne_nil hne
    have hc : c ∉ separators := by
      refine hchars c ?_
      obtain ⟨j, rfl⟩ := Nat.exists_eq_succ_of_ne_zero (Nat.ne_of_gt hpos)
      rw [hcu]
      exact List.mem_cons_self
    refine ⟨h.start, h.extras, h.isExtra, hopening.isIn, hle, ?_, ?_, ?_,
      fun h₀ _ => h.row_lt hcu hc h₀, ?_⟩
    · simp [Token.isSolid]
    · intro style' h
      obtain rfl : style = style' := by simpa using h
      exact ⟨hquote, _, hopening, htake, hchars⟩
    · simp
    · simp

theorem plain (h : Skipped T s₀ extras s) : Ahead T s₀
    ⟨extras, (plainToken s.rest).1, s.here, s.skip (plainToken s.rest).2⟩ := by
  refine ⟨h.start, h.extras, h.isExtra, h.here.skip _, Scan.byte_le_skip _ _, ?_, ?_, ?_, ?_, ?_⟩
  · intro hsolid
    obtain ⟨hpos, hlen, hchars⟩ := plainToken_solid hsolid
    have hfrom := (Scan.From.refl h.here).skip (plainToken s.rest).2
    rw [List.nil_append] at hfrom
    refine ⟨_, hfrom, ?_, hchars⟩
    apply List.ne_nil_of_length_pos
    rw [List.length_take]
    omega
  · intro style hstring
    exact absurd hstring plainToken_ne_string
  · intro hlayout
    rw [plainToken_finish (plainToken_layout hlayout)]
    rfl
  · intro h₀ hsolid
    have hsolid := hsolid.resolve_right fun ⟨style, h⟩ => plainToken_ne_string h
    obtain ⟨hpos, hlen, hchars⟩ := plainToken_solid hsolid
    obtain ⟨c, u, hcu⟩ := List.exists_cons_of_length_pos (Nat.lt_of_lt_of_le hpos hlen)
    obtain ⟨k, hk⟩ := Nat.exists_eq_succ_of_ne_zero (Nat.ne_of_gt hpos)
    refine h.row_lt hcu (hchars c ?_) h₀
    rw [hk, hcu]
    exact List.mem_cons_self
  · intro (htoken : (plainToken s.rest).1 = .newline ∨ (plainToken s.rest).1 = .dedent)
    have hfinish := plainToken_layout (t := s.rest) (by rcases htoken with h | h <;> simp [h])
    rcases htoken with h | h <;> simp [h] at hfinish

end Skipped

theorem lexWithin_ahead {e : Expected} {extras : Forest} {s₀ : Scan}
    (h : Skipped T s₀ extras s) : Ahead T s₀ (s.lexWithin e n extras) := by
  induction n generalizing s extras with
  | zero => exact h.unknown
  | succ n ih =>
      rw [Scan.lexWithin]
      split
      · rename_i htoken
        exact h.layout htoken
      · dsimp only
        split
        · rename_i hnode
          exact ih (h.spaces.extra hnode)
        · exact h.spaces.plain

theorem lex_ahead {e : Expected} (hs : s.In T) : Ahead T s (s.lex e) := lexWithin_ahead (.refl hs)

end DocstringEditor.Syntax
