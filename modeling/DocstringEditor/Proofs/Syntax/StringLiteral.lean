import DocstringEditor.Proofs.Syntax.Yields
import DocstringEditor.Syntax.StringLiteral

namespace DocstringEditor.Syntax

open Forest (Loose)

variable {T t : Text} {s s' : Scan} {l : Lexeme} {a : Location} {g : Grammar} {ps : Forest}
variable {style : StringStyle} {k : Kind} {n : Nat}

namespace Piece

theorem readText_close {skip length : Nat} {started : Bool}
    (h : readText style skip length started t = .close n) :
    ∃ i, n = length + i ∧ List.replicate style.quotes style.quote <+: t.drop i := by
  induction t generalizing skip length started with
  | nil => simp [readText] at h
  | cons c t ih =>
      have hnext {skip : Nat} {started : Bool}
          (h : readText style skip (length + 1) started t = .close n) :
          ∃ i, n = length + i ∧ List.replicate style.quotes style.quote <+: (c :: t).drop i := by
        obtain ⟨i, rfl, hquotes⟩ := ih h
        exact ⟨i + 1, by omega, hquotes⟩
      by_cases hnul : c = '\x00'
      · subst hnul
        simp [readText] at h
      cases skip with
      | succ skip =>
          rw [readText.eq_3 _ _ _ _ _ _ hnul] at h
          exact hnext h
      | zero =>
          rw [readText.eq_4 _ _ _ _ _ hnul] at h
          split at h
          · simp at h
          split at h
          · split at h
            · exact hnext h
            split at h
            · exact hnext h
            split at h <;> simp at h
          split at h
          · rename_i hquote
            split at h
            · rename_i htriple
              split at h
              · rename_i hclosing
                obtain ⟨u, rfl⟩ := List.isPrefixOf_iff_prefix.1 hclosing
                split at h
                · simp at h
                · obtain rfl : length = n := by simpa using h
                  exact ⟨0, rfl, u, by simp [StringStyle.quotes, htriple, hquote, List.replicate]⟩
              · split at h <;> simp at h
            · rename_i htriple
              split at h
              · simp at h
              · obtain rfl : length = n := by simpa using h
                exact ⟨0, rfl, t, by simp [StringStyle.quotes, htriple, hquote]⟩
          split at h
          · simp at h
          · exact hnext h

theorem readText_ne_field {skip length : Nat} {started : Bool} :
    readText style skip length started t ≠ .field := by
  fun_induction readText style skip length started t <;> simp_all

theorem read_close (h : read style t = .close n) :
    List.replicate style.quotes style.quote <+: t.drop n := by
  unfold read at h
  split at h
  · simp at h
  · simp at h
  · simp at h
  · simp at h
  · obtain ⟨i, rfl, hquotes⟩ := readText_close h
    rwa [Nat.zero_add]

theorem read_nul : read style ('\x00' :: t) = .invalid := by
  cases hf : style.formatted <;> simp [read, readText, hf]

theorem read_field (h : read style t = .field) : ∃ u, t = '{' :: u := by
  unfold read at h
  split at h
  · simp at h
  · simp at h
  · exact ⟨_, rfl⟩
  · simp at h
  · exact absurd h readText_ne_field

end Piece

namespace Yields

variable {α : Type} {Q : α → Scan → Prop}

theorem skip {f : Unit → Parser α} (h : Yields (f ()) (s.skip n) Q) :
    Yields (Parser.skip n >>= f) s Q :=
  bind fun _ _ ha => by
    obtain rfl : s.skip n = _ := by simpa [Parser.skip] using ha
    exact h

theorem skipSpace {f : Unit → Parser α}
    (h : Yields (f ()) (s.skip (s.rest.takeWhile isSpace).length) Q) :
    Yields (Parser.skipSpace >>= f) s Q :=
  bind fun _ _ ha => by
    obtain rfl : s.skip (s.rest.takeWhile isSpace).length = _ := by
      simpa [Parser.skipSpace] using ha
    exact h

end Yields

namespace Covers

theorem leaf (hs : s.In T) (ht : s.rest.take n = t) (hne : t ≠ [])
    (hchars : ∀ c ∈ t, c ∉ separators) (hk : k ≠ .module) (hdef : ¬k.isDefinition)
    (hextra : ¬k.isExtra) : Covers T s.here [.leaf k s.here (s.skip n).here] (s.skip n) := by
  subst ht
  have hfrom := (Scan.From.refl hs).skip n
  rw [List.nil_append] at hfrom
  refine ⟨hs.skip n, .leaf hfrom hne hk hdef (Kind.spells_of_solid hextra hchars _) ?_⟩
  exact fun _ _ hlast => hchars _ (List.mem_of_getLast? hlast) (by decide)

theorem spaces (h : Covers T a ps s) :
    Covers T a ps (s.skip (s.rest.takeWhile isSpace).length) := by
  refine ⟨h.here.skip _, h.loose.extend (h.here.skip _).place ?_⟩
  refine ((Scan.From.refl h.here).skip _).gap fun c hc => ?_
  rw [List.nil_append, ← List.prefix_iff_eq_take.1 (List.takeWhile_prefix isSpace)] at hc
  exact mem_gapChars_of_isSpace (List.mem_takeWhile_imp hc)

end Covers

namespace Parser

theorem content_loose (h : s.From T a t) (hhead : t.head? ≠ some '\x00') :
    Loose T a (content a s.here) s.here := by
  have hbyte := h.byte_eq
  rcases eq_or_ne t [] with rfl | ht
  · have hplace := h.place
    obtain ⟨before, -, rfl, hhere⟩ := h
    rw [List.append_nil] at hhere
    rw [hhere, content, if_neg (Nat.lt_irrefl _)]
    exact .refl hplace
  · have := Text.byteSize_pos ht
    rw [content, if_pos (by omega)]
    exact .leaf h ht (by decide) (by decide) hhead fun _ hcontent => absurd rfl hcontent

/-- Whether nodes stand before the text between a place and a scan, with some nodes first. -/
structure Writes (T : Text) (a : Location) (opening ps : Forest) (start : Location) (s : Scan) :
    Prop where
  loose : Loose T a ps start
  opening : opening <+: ps
  past : ∃ t, s.From T start t ∧ t.head? ≠ some '\x00'

namespace Writes

variable {opening : Forest} {start : Location}

theorem skip (h : Writes T a opening ps start s) (hhead : s.rest.head? ≠ some '\x00') (n : Nat) :
    Writes T a opening ps start (s.skip n) := by
  obtain ⟨t, hfrom, ht⟩ := h.past
  refine ⟨h.loose, h.opening, _, hfrom.skip n, ?_⟩
  cases t with
  | nil =>
      rw [List.nil_append, List.head?_take]
      split
      · exact nofun
      · exact hhead
  | cons c t => exact ht

theorem isIn (h : Writes T a opening ps start s) : s.In T := by
  obtain ⟨t, hfrom, -⟩ := h.past
  exact hfrom.isIn

theorem content (h : Writes T a opening ps start s) :
    Covers T a (ps ++ content start s.here) s := by
  obtain ⟨t, hfrom, ht⟩ := h.past
  exact ⟨hfrom.isIn, h.loose.append (content_loose hfrom ht)⟩

theorem of_covers (h : Covers T a ps s) (hopening : opening <+: ps) :
    Writes T a opening ps s.here s := ⟨h.loose, hopening, [], .refl h.here, nofun⟩

end Writes

theorem interpolation_covers (hg : g.Sound T) (hs : s.In T) (hrest : ∃ u, s.rest = '{' :: u) :
    Yields (interpolation g) s (Covers T s.here) := by
  obtain ⟨u, hrest⟩ := hrest
  have hbrace : Covers T s.here [.leaf (.mark "\x7b") s.here (s.skip 1).here] (s.skip 1) :=
    .leaf hs (t := ['{']) (by simp [hrest]) (by decide) (by simp [separators, gapChars]) (by decide)
      (by decide) (by decide)
  refine .get (.skip (.get (.bind ((hg.field hbrace.here).mono fun ps s' h => .pure ?_))))
  exact (hbrace.append h).wrap (by decide) (by decide)

theorem literalRest_covers {opening : Forest} (hg : g.Sound T) (hquote : style.quote ∉ separators)
    (h : Covers T a opening s) : Yields (literalRest g style opening) s fun ps s' =>
      Covers T a ps s' ∧ ∃ between c, ps = opening ++ (between ++ [c]) ∧ c.kind = .stringEnd ∧
        c.children = [] ∧ c.hasWidth := by
  refine .get (.loop (I := fun x s => Writes T a opening x.1 x.2 s) (.of_covers h List.prefix_rfl)
    fun (parts, start) s h => .get ?_)
  have hmore {qs : Forest} : opening <+: parts ++ qs := h.opening.trans (List.prefix_append _ _)
  have hhead : s.rest.head? = some '\x00' → Piece.read style s.rest = .invalid := by
    intro hnul
    obtain ⟨u, hu⟩ := List.head?_eq_some_iff.1 hnul
    rw [hu, Piece.read_nul]
  split
  · rename_i n hclose
    have hhead : s.rest.head? ≠ some '\x00' := fun hnul => by simp [hhead hnul] at hclose
    obtain ⟨between, hbetween⟩ := @hmore (content start (s.skip n).here)
    have hclosing : (s.skip n).rest.take style.quotes =
        List.replicate style.quotes style.quote := by
      rw [Scan.skip_rest, List.prefix_iff_eq_take.1 (Piece.read_close hclose)]
      simp
    have hpos : style.quotes ≠ 0 := by
      unfold StringStyle.quotes
      split <;> decide
    have htext := (h.skip hhead n).content
    have hend := Covers.leaf (k := .stringEnd) htext.here hclosing
      (by simpa using hpos) (by simp [hquote]) (by decide) (by decide) (by decide)
    have hall := htext.append hend
    refine .skip (.get (.get (.skip (.update (.get (.pure ⟨⟨?_, hall.loose⟩, ?_⟩))))))
    · exact ((Scan.From.refl hall.here).congr rfl rfl).isIn
    refine ⟨between, _, by rw [← hbetween, List.append_assoc], rfl, rfl, ?_⟩
    exact hend.loose.wide _ (List.mem_singleton_self _)
  · rename_i htext
    exact .skip (.pure (h.skip (fun hnul => by simp [hhead hnul] at htext) _))
  · rename_i hfield
    refine .get (.bind ((interpolation_covers hg h.isIn (Piece.read_field hfield)).mono
      fun qs s' h' => .get (.pure ?_)))
    exact .of_covers (h.content.append h') (hmore.trans (List.prefix_append _ _))
  · exact .failure

theorem literal_reads (hg : g.Sound T) (hl : Ahead T s l) :
    Yields (literal g l) s' (Reads T s.here) := by
  unfold literal
  split
  · rename_i style htoken
    obtain ⟨hquote, t, hfrom, ht, hchars⟩ := hl.string style htoken
    have hstart : Loose T l.start [.leaf .stringStart l.start l.next.here] l.next.here :=
      .leaf hfrom ht (by decide) (by decide) hchars
        fun _ _ hlast => hchars _ (List.mem_of_getLast? hlast) (by decide)
    have hopening : Covers T s.here (l.leaf .stringStart) l.next :=
      ⟨hl.next, hl.extras.toLoose.append hstart⟩
    refine .set (.bind ((literalRest_covers hg hquote hopening).mono fun ps s' h => .pure ?_))
    obtain ⟨h, between, c, rfl, hc, hleaf, hwide⟩ := h
    refine ⟨h.here, h.loose.wrap rfl (by decide)
      ⟨(absurd · (by decide)), nofun, fun _ => ⟨?_, h.loose.plain⟩,
      (absurd rfl ·)⟩,
      Forest.closed_wrap_string h.loose.toSpans⟩
    rw [Lexeme.leaf, List.append_assoc, List.dropWhile_append_of_pos hl.isExtra]
    exact ⟨_, between, c, rfl, rfl, rfl, hstart.wide _ (List.mem_singleton_self _), hc, hleaf, hwide⟩
  · exact .failure

theorem literals_reads (hg : g.Sound T) (hl : Ahead T s l) (f : Follow) :
    Yields (literals g l f) s (Reads T s.here) := by
  refine .bind ((literal_reads hg hl).mono fun start s₁ h => ?_)
  refine .loop (I := fun x => Reads T s.here x.1) h fun (parts, several) s₁ h => ?_
  refine .peek h.here fun l hl => ?_
  split
  · exact .grow h (literal_reads hg hl) fun _ _ h => .pure h
  · cases several
    · exact .pure h
    · exact .pure (h.wrap rfl)

theorem formatSpecification_covers (hg : g.Sound T) (hs : s.In T)
    (hrest : ∃ u, s.rest = ':' :: u) :
    Yields (formatSpecification g) s (Covers T s.here) := by
  obtain ⟨u, hrest⟩ := hrest
  have hcolon : Covers T s.here [.leaf (.mark ":") s.here (s.skip 1).here] (s.skip 1) :=
    .leaf hs (t := [':']) (by simp [hrest]) (by decide) (by simp [separators, gapChars]) (by decide)
      (by decide) (by decide)
  refine .get (.skip (.get (.get (.bind (.mono (R := Covers T s.here) ?_
    fun _ _ h => .pure (h.wrap (by decide) (by decide)))))))
  refine .loop (I := fun x => Writes T s.here [] x.1 x.2) (.of_covers hcolon List.nil_prefix) ?_
  rintro ⟨parts, start⟩ s h
  refine .get ?_
  split
  · exact .get (.pure h.content)
  · rename_i hrest
    refine .get (.bind ((interpolation_covers hg h.isIn ⟨_, hrest⟩).mono fun qs s' h' => ?_))
    exact .get (.pure (.of_covers (h.content.append h') List.nil_prefix))
  · exact .failure
  · exact .failure
  · rename_i hnul hrest
    refine .skip (.pure (h.skip (fun hhead => ?_) 1))
    rw [hrest, List.head?_cons, Option.some.injEq] at hhead
    exact hnul hhead

theorem conversion_covers (hs : s.In T) : Yields conversion s (Covers T s.here) := by
  have hspaces := (Covers.refl hs).spaces
  refine .skipSpace (.get (.get ?_))
  split
  · rename_i c u hrest
    refine .ite (fun hlower => ?_) fun _ => .failure
    have hc : c ∉ separators := by
      intro hmem
      have hnot : ∀ c ∈ separators, c.isLower = false := List.all_iff_forall_prop.1 (by decide)
      simp [hnot c hmem] at hlower
    refine .skip (.get (.pure ?_))
    exact hspaces.append (.leaf hspaces.here (t := ['!', c]) (by rw [hrest]; rfl) (by simp)
      (by simp [hc]; decide) (by decide) (by decide) (by decide))
  · exact .pure hspaces

theorem fieldRest_covers (hg : g.Sound T) (hs : s.In T) :
    Yields (fieldRest g) s (Covers T s.here) := by
  refine .peek hs fun l hl => ?_
  extract_lets rest
  have hrest {equals : Forest} {s' : Scan} (h : Covers T s.here equals s') :
      Yields (rest equals) s' (Covers T s.here) := by
    refine .bind ((conversion_covers h.here).mono fun qs s₁ hqs => .skipSpace (.get ?_))
    have hparts := (h.append hqs).spaces
    have hclose {format : Forest} {s₂ : Scan} (h : Covers T s.here (equals ++ qs ++ format) s₂) :
        Yields (do return equals ++ qs ++ format ++ (← mark Follow.bracketed.after "\x7d")) s₂
          (Covers T s.here) :=
      .bind ((mark_reads h.here).mono fun _ _ h' => .pure (h.append h'.covers))
    split
    · rename_i hcolon
      exact .bind ((formatSpecification_covers hg hparts.here ⟨_, hcolon⟩).mono
        fun _ _ h => hclose (hparts.append h))
    · exact .bind (.pure (hclose (by simpa using hparts)))
  refine .ite (fun hmark => ?_) fun _ => .bind (.pure (hrest (.refl hs)))
  exact .bind ((hl.takeMark hmark).mono fun _ _ h => hrest h.covers)

end Parser
end DocstringEditor.Syntax
