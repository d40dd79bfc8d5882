import DocstringEditor.Proofs.Syntax.Module

namespace DocstringEditor.Syntax

open Forest (definitions)
open Text (byteSize)

variable {T : Text} {root n m : Node} {u v w t after : Text} {k : Kind}

theorem Kind.Spells.head_ne_nul (h : k.Spells t after) : t.head? ≠ some '\x00' := by
  unfold Kind.Spells at h
  split at h
  · simp [h.1]
  · simp [h.1]
  · exact h
  · exact fun hnul => h '\x00' (List.mem_of_mem_head? hnul) (by decide)

theorem Kind.Spells.solid (h : k.Spells t after) (hk : ¬k.isExtra) (htext : k ≠ .stringContent) :
    ∀ c ∈ t, c ∉ separators := by
  unfold Kind.Spells at h
  split at h
  · simp [Kind.isExtra] at hk
  · simp [Kind.isExtra] at hk
  · exact absurd rfl htext
  · exact h

theorem Kind.Spells.stringContent_of_mem (h : k.Spells t after) (hk : k ≠ .comment)
    (ht : '#' ∈ t) : k = .stringContent := by
  unfold Kind.Spells at h
  split at h
  · exact absurd rfl hk
  · exact absurd ht h.2
  · rfl
  · exact absurd (h '#' ht) (by decide)

namespace Node

/-- Whether a node stands for one token. The text of a literal is between two tokens: its quotes or
the braces of its replacement fields. -/
def isToken (n : Node) : Bool :=
  n.children.isEmpty && !n.isExtra && n.kind ≠ .stringContent && n.hasWidth

def tokens (n : Node) : List Node := n.inner.filter isToken

@[simp] theorem mem_tokens :
    m ∈ n.tokens ↔
      m ∈ n.inner ∧ m.children = [] ∧ ¬m.isExtra ∧ m.kind ≠ .stringContent ∧ m.hasWidth := by
  simp [tokens, isToken, and_assoc]

theorem inner_of_leaf (h : n.children = []) : n.inner = [] := by
  rw [inner, h]
  rfl

theorem mem_or_apart :
    (∀ n : Node, Nested n.preorder → ∀ d ∈ n.inner, ∀ e ∈ n.inner, d ∈ e.preorder ∨
      e ∈ d.preorder ∨ d.stop.byte ≤ e.start.byte ∨ e.stop.byte ≤ d.start.byte) ∧
    ∀ ns : Forest, Nested (preorderAll ns) → ∀ a b, Forest.Within a ns b →
      ∀ d ∈ preorderAll ns, ∀ e ∈ preorderAll ns, d ∈ e.preorder ∨ e ∈ d.preorder ∨
        d.stop.byte ≤ e.start.byte ∨ e.stop.byte ≤ d.start.byte := by
  apply Node.induction
  case mk =>
    intro k r s e cs ih h d hd e' he'
    exact ih h.inner _ _ (h (mk k r s e cs) (by simp)) d hd e' he'
  case nil => simp
  case cons =>
    intro n ns ihn ihns h a b hw d hd e he
    rcases List.mem_append.1 hd with hd | hd
    · rcases List.mem_append.1 he with he | he
      · rcases mem_preorder.1 hd with rfl | hd
        · exact .inr (.inl he)
        · rcases mem_preorder.1 he with rfl | he
          · exact .inl (mem_preorder.2 (.inr hd))
          · exact ihn h.node d hd e he
      · exact .inr (.inr (.inl (stop_le_start_of_within h hw hd he)))
    · rcases List.mem_append.1 he with he | he
      · exact .inr (.inr (.inr (stop_le_start_of_within h hw he hd)))
      · exact ihns h.tail _ _ hw.2.2 d hd e he

/-- A character that is none of a gap's and in one of several trees is in a leaf of that tree. -/
theorem exists_leaf {c : Char} (hT : T = u ++ c :: v) (hc : c ∉ gapChars) :
    (∀ n : Node, (∀ m ∈ n.preorder, m.Sound T) → n.start.byte ≤ byteSize u →
      byteSize u < n.stop.byte → ∃ l ∈ n.preorder, l.children = [] ∧
        l.start.byte ≤ byteSize u ∧ byteSize u < l.stop.byte) ∧
    ∀ ns : Forest, (∀ m ∈ preorderAll ns, m.Sound T) → ∀ n ∈ ns, n.start.byte ≤ byteSize u →
      byteSize u < n.stop.byte → ∃ l ∈ preorderAll ns, l.children = [] ∧
        l.start.byte ≤ byteSize u ∧ byteSize u < l.stop.byte := by
  apply Node.induction
  case mk =>
    intro k r s e cs ih h hstart hstop
    by_cases hcs : cs = []
    · exact ⟨mk k r s e cs, by simp, hcs, hstart, hstop⟩
    · have hfilled := (h (mk k r s e cs) (by simp)).filled hcs
      obtain ⟨n, hn, hstart, hstop⟩ := hfilled.exists_mem hT hstart hstop hc
      obtain ⟨l, hl, hleaf⟩ := ih (fun m hm => h m (mem_preorder.2 (.inr hm))) n hn hstart hstop
      exact ⟨l, mem_preorder.2 (.inr hl), hleaf⟩
  case nil => simp
  case cons =>
    intro n ns ihn ihns h m hm hstart hstop
    rcases List.mem_cons.1 hm with rfl | hm
    · obtain ⟨l, hl, hleaf⟩ := ihn (fun m hm => h m (List.mem_append_left _ hm)) hstart hstop
      exact ⟨l, List.mem_append_left _ hl, hleaf⟩
    · obtain ⟨l, hl, hleaf⟩ :=
        ihns (fun m hm => h m (List.mem_append_right _ hm)) m hm hstart hstop
      exact ⟨l, List.mem_append_right _ hl, hleaf⟩

theorem eq_or_le_of_first {o : Node} {rest : Forest} (h : Nested n.preorder)
    (hchildren : n.children = o :: rest) (hleaf : o.children = []) (hm : m ∈ n.inner) :
    m = o ∨ o.start.byte ≤ m.start.byte := by
  have hwithin := h n (by simp)
  have hnested := h.inner
  rw [hchildren] at hwithin
  rw [inner, hchildren] at hnested hm
  rw [preorderAll, List.mem_append] at hm
  rcases hm with hm | hm
  · simp only [mem_preorder, inner_of_leaf hleaf, List.not_mem_nil, or_false] at hm
    exact .inl hm
  · have := within_bounds.2 rest hnested.tail _ _ hwithin.2.2 m hm
    have := hwithin.2.1
    exact .inr (by omega)

theorem eq_or_le_of_last {c : Node} {front : Forest} (h : Nested n.preorder)
    (hchildren : n.children = front ++ [c]) (hleaf : c.children = []) (hm : m ∈ n.inner) :
    m = c ∨ m.stop.byte ≤ c.start.byte := by
  have hwithin := h n (by simp)
  have hnested := h.inner
  rw [hchildren] at hwithin
  rw [inner, hchildren, preorderAll_append] at hnested hm
  obtain ⟨y, hfront, hlast⟩ := hwithin.of_append
  rcases List.mem_append.1 hm with hm | hm
  · have hbounds := within_bounds.2 front (fun l hl => hnested l (List.mem_append_left _ hl)) _ _
      hfront m hm
    have := hlast.1
    exact .inr (by omega)
  · simp only [preorderAll, mem_preorder, List.append_nil, inner_of_leaf hleaf, List.not_mem_nil,
      or_false] at hm
    exact .inl hm

namespace Tree

variable (h : Tree T root)
include h

theorem eq_or_apart (hn : n ∈ root.inner) (hm : m ∈ root.inner) (hleaf : n.children = [])
    (hleaf' : m.children = []) :
    n = m ∨ n.stop.byte ≤ m.start.byte ∨ m.stop.byte ≤ n.start.byte := by
  rcases mem_or_apart.1 root h.nested n hn m hm with hin | hin | hapart
  · simp only [mem_preorder, inner_of_leaf hleaf', List.not_mem_nil, or_false] at hin
    exact .inl hin
  · simp only [mem_preorder, inner_of_leaf hleaf, List.not_mem_nil, or_false] at hin
    exact .inl hin.symm
  · exact .inr hapart

theorem exists_literal (hn : n ∈ root.inner) (htext : n.kind = .stringContent) :
    ∃ t ∈ root.inner, t.kind = .string ∧ n ∈ t.inner ∧ Forest.Quoted t.children := by
  obtain ⟨r, hr, hn⟩ := mem_preorderAll.1 hn
  obtain ⟨hrk, hclosed⟩ := h.closed r hr
  have hnr : n ∈ r.inner := by
    rcases mem_preorder.1 hn with rfl | hn
    · exact absurd htext hrk
    · exact hn
  obtain ⟨t, ht, hstring, hnt⟩ := hclosed n hnr htext
  have ht : t ∈ root.inner := mem_preorderAll.2 ⟨r, hr, ht⟩
  have hne : t.children ≠ [] := by
    intro hnil
    simp [inner, hnil] at hnt
  exact ⟨t, ht, hstring, hnt, ((h.sound t ht).literal hstring hne).1⟩

/-- A literal is in a definition or does not overlap it. -/
theorem mem_or_apart_of_string {d : Node} (hn : n ∈ root.inner) (hstring : n.kind = .string)
    (hd : d ∈ root.inner) (hdef : d.isDefinition) :
    n ∈ d.inner ∨ n.stop.byte ≤ d.start.byte ∨ d.stop.byte ≤ n.start.byte := by
  have hne : d ≠ n := by
    rintro rfl
    simp [isDefinition, hstring] at hdef
  rcases mem_or_apart.1 root h.nested n hn d hd with hin | hin | hapart
  · exact .inl ((mem_preorder.1 hin).resolve_left hne.symm)
  · -- There is no definition in a literal.
    have hdn : d ∈ n.inner := (mem_preorder.1 hin).resolve_left hne
    have hchildren : n.children ≠ [] := by
      intro hnil
      simp [inner, hnil] at hdn
    have hmem : d ∈ definitions n.children := Forest.mem_definitions.2 ⟨hdn, hdef⟩
    simp [((h.sound n hn).literal hstring hchildren).2] at hmem
  · exact .inr hapart

/-- The logical end of a definition is no end of text in a literal, for quotes come behind that. -/
theorem logicalEnd_ne_of_text {d : Node} (hd : d ∈ root.inner) (hdef : d.isDefinition)
    (hm : m ∈ d.inner) (hsub : m.hasWidth) (htext : m.kind = .stringContent) :
    d.logicalEnd ≠ m.stop := by
  intro hend
  have hmroot := inner_trans hd hm
  obtain ⟨t, ht, hstring, hmt, o, between, c, hchildren, -, -, -, hck, hcleaf, hcwidth⟩ :=
    h.exists_literal hmroot htext
  have hmd := within_bounds.1 d (h.nested_of_mem hd) m hm
  have hmt' := within_bounds.1 t (h.nested_of_mem ht) m hmt
  simp only [hasWidth, decide_eq_true_eq] at hsub hcwidth
  have htd : t ∈ d.inner := by
    rcases h.mem_or_apart_of_string ht hstring hd hdef with hin | hapart | hapart
    · exact hin
    · omega
    · omega
  have hct : c ∈ t.inner := mem_preorderAll.2 ⟨c, by simp [hchildren], by simp⟩
  have hcd := inner_trans htd hct
  have hcsub : c.isSubstantial := by
    simp [isSubstantial, isComment, hck, hasWidth, hcwidth]
  have hmono := logicalEnd_mono (h.nested_of_mem hd) hcd hcsub fun e he hcomment => by
    simp [inner_of_leaf (h.children_of_comment (inner_trans hd he) hcomment)]
  have hcend : c.logicalEnd = c.stop := by
    obtain ⟨k, r, a, b, cs⟩ := c
    obtain rfl : cs = [] := hcleaf
    rfl
  rw [hcend, hend] at hmono
  have hend : t.children = (o :: between) ++ [c] := hchildren
  rcases eq_or_le_of_last (h.nested_of_mem ht) hend hcleaf hmt with rfl | hle
  · simp [hck] at htext
  · omega

theorem exists_leaf_at {c : Char} (hT : T = u ++ c :: v) (hc : c ∉ gapChars)
    (hlt : byteSize u < root.stop.byte) : ∃ n ∈ root.inner, n.children = [] ∧
      n.start.byte ≤ byteSize u ∧ byteSize u < n.stop.byte := by
  obtain ⟨n, hn, hstart, hstop⟩ := h.filled.exists_mem hT (Nat.zero_le _) hlt hc
  exact (exists_leaf hT hc).2 root.children h.sound n hn hstart hstop

theorem written_of_leaf (hn : n ∈ root.inner) (hleaf : n.children = []) (hwidth : n.hasWidth) :
    ∃ before t after, T = before ++ t ++ after ∧ t ≠ [] ∧ n.start = Location.origin.after before ∧
      n.stop = Location.origin.after (before ++ t) ∧ n.kind.Spells t after := by
  obtain ⟨before, t, after, hT, hstart, hstop, hspells⟩ := (h.sound n hn).leaf hleaf hwidth
  refine ⟨before, t, after, hT, ?_, hstart, hstop, hspells⟩
  rintro rfl
  simp [hasWidth, hstart, hstop] at hwidth

/-- No separator is part of a token, so it stands on one row. -/
theorem exists_token (hm : m ∈ root.tokens) : ∃ before c t after, T = before ++ c :: t ++ after ∧
    m.start = Location.origin.after before ∧ m.stop.row = m.start.row ∧ c ∉ separators := by
  obtain ⟨hin, hleaf, hextra, htext, hwidth⟩ := mem_tokens.1 hm
  obtain ⟨before, t, after, hT, hne, hstart, hstop, hspells⟩ := h.written_of_leaf hin hleaf hwidth
  have hchars := hspells.solid hextra htext
  obtain ⟨c, t, rfl⟩ := List.exists_cons_of_ne_nil hne
  refine ⟨before, c, t, after, hT, hstart, ?_, hchars c List.mem_cons_self⟩
  have hline : '\n' ∉ c :: t := fun hmem => hchars '\n' hmem (by decide)
  rw [hstart, hstop, Location.origin_after_row, Location.origin_after_row, List.count_append,
    List.count_eq_zero_of_not_mem hline, Nat.add_zero]

/-- What comes right behind a leaf is part of a gap or starts another leaf. -/
theorem ne_nul_behind_leaf {c : Char} (hn : n ∈ root.inner) (hleaf : n.children = [])
    (hwidth : n.hasWidth) (hT : T = u ++ c :: v) (hstop : n.stop.byte = byteSize u)
    (hlt : byteSize u < root.stop.byte) : c ≠ '\x00' := by
  rintro rfl
  -- Leaves do not overlap, so the one that has the character starts with it.
  obtain ⟨l, hl, hlleaf, hlstart, hlstop⟩ := h.exists_leaf_at hT (by decide) hlt
  have hlwidth : l.hasWidth := by
    simp only [hasWidth, decide_eq_true_eq]
    omega
  simp only [hasWidth, decide_eq_true_eq] at hwidth
  have hapart : n.stop.byte ≤ l.start.byte := by
    rcases h.eq_or_apart hn hl hleaf hlleaf with rfl | hapart | hapart <;> omega
  obtain ⟨before, t, after, hT', -, hstart', hstop', hspells⟩ :=
    h.written_of_leaf hl hlleaf hlwidth
  rw [hstart', Location.origin_after_byte] at hlstart hapart
  rw [hstop', Location.origin_after_byte] at hlstop
  obtain ⟨t₁, t₂, rfl, rfl, -⟩ := Text.exists_cut (hT'.symm.trans hT) hlstart hlstop
  have hnil : t₁ = [] := by
    by_contra hne
    have := Text.byteSize_pos hne
    rw [Text.byteSize_append] at *
    omega
  subst hnil
  exact hspells.head_ne_nul rfl

/-- No token follows a comment on its row. -/
theorem row_lt_of_comment (hn : n ∈ root.inner) (hleaf : n.children = []) (hwidth : n.hasWidth)
    (hcomment : n.kind = .comment) (hm : m ∈ root.tokens) (hle : n.stop.byte ≤ m.start.byte) :
    n.stop.row < m.start.row := by
  obtain ⟨before, t, after, hT, -, -, hstop, hspells⟩ := h.written_of_leaf hn hleaf hwidth
  obtain ⟨-, -, hafter⟩ : t.head? = some '#' ∧ '\n' ∉ t ∧
      ∀ c ∈ after.head?, c = '\n' ∨ c = '\x00' := by rwa [hcomment] at hspells
  obtain ⟨before', c, t', after', hT', hstart, -, hc⟩ := h.exists_token hm
  rw [List.append_assoc, List.cons_append] at hT'
  have hmin := within_bounds.1 root h.nested m (mem_tokens.1 hm).1
  have hmwidth := (mem_tokens.1 hm).2.2.2.2
  simp only [hasWidth, decide_eq_true_eq] at hmwidth
  rw [hstart, Location.origin_after_byte] at hle hmin hmwidth
  have hbyte : n.stop.byte = byteSize (before ++ t) := by
    rw [hstop, Location.origin_after_byte]
  obtain ⟨x, rfl⟩ : before ++ t <+: before' :=
    Text.prefix_of_byteSize_le ⟨after, hT.symm⟩ ⟨c :: (t' ++ after'), hT'.symm⟩ (by omega)
  obtain rfl : after = x ++ c :: (t' ++ after') := by
    rw [hT'] at hT
    simpa using hT.symm
  have hcount : (before ++ t ++ x).count '\n' = (before ++ t).count '\n' + x.count '\n' :=
    List.count_append
  rw [hstop, hstart, Location.origin_after_row, Location.origin_after_row, hcount,
    Nat.lt_add_right_iff_pos, List.count_pos_iff]
  cases x with
  | nil => rcases hafter c rfl with rfl | rfl <;> exact absurd (by decide) hc
  | cons y x =>
      rcases hafter y rfl with rfl | rfl
      · exact List.mem_cons_self
      · exact absurd rfl (h.ne_nul_behind_leaf hn hleaf hwidth hT hbyte (by omega))

end Tree

/-- A part of a text that goes on with a `#` behind blank characters of one line. No literal of the
line starts before it. -/
structure HashLine (T : Text) (root : Node) (u w v : Text) : Prop where
  text : T = u ++ w ++ '#' :: v
  blank : ∀ c ∈ w, Text.isBlank c
  line : '\n' ∉ w
  cut : ∀ n ∈ root.inner, n.kind = .string → n.start.byte < byteSize u →
    byteSize u < n.stop.byte → n.start.row < u.count '\n'

namespace HashLine

variable (hh : HashLine T root u w v)
include hh

/-- What comes no later than the `#` is a separator. -/
theorem mem_separators {before rest : Text} {c : Char} (hT : T = before ++ c :: rest)
    (hle : byteSize u ≤ byteSize before) (hle' : byteSize before ≤ byteSize (u ++ w)) :
    c ∈ separators := by
  have hhash : u ++ (w ++ ['#']) ++ v = before ++ c :: rest := by
    rw [← hT, hh.text]
    simp
  have hlt : byteSize before < byteSize (u ++ (w ++ ['#'])) := by
    have hpos : 0 < '#'.utf8Size := Char.utf8Size_pos '#'
    simp only [Text.byteSize_append, Text.byteSize_cons] at *
    omega
  obtain ⟨t₁, t₂, ht, -, -⟩ := Text.exists_cut hhash hle hlt
  have hmem : c ∈ w ++ ['#'] := by simp [ht]
  rcases List.mem_append.1 hmem with hc | hc
  · exact mem_separators_of_isBlank (hh.blank c hc)
  · obtain rfl := List.mem_singleton.1 hc
    decide

theorem count_eq : (u ++ w).count '\n' = u.count '\n' := by
  rw [List.count_append, List.count_eq_zero_of_not_mem hh.line, Nat.add_zero]

theorem starts : u <+: T := ⟨w ++ '#' :: v, by rw [hh.text, List.append_assoc]⟩

theorem row_le {l : Location} (hl : Place T l) (hle : byteSize u ≤ l.byte) :
    u.count '\n' ≤ l.row := by
  have hplace : Place T (Location.origin.after u) := ⟨u, hh.starts, rfl⟩
  rw [← Location.origin_after_row]
  apply hplace.row_le hl
  rwa [Location.origin_after_byte]

variable (h : Tree T root)
include h

theorem exists_string_of_text (hn : n ∈ root.inner) (htext : n.kind = .stringContent)
    (hstart : n.start.byte ≤ byteSize (u ++ w)) (hstop : byteSize (u ++ w) < n.stop.byte) :
    ∃ t ∈ root.inner, t.kind = .string ∧ t.start.row < u.count '\n' ∧
      byteSize u < t.stop.byte := by
  obtain ⟨t, ht, hstring, hnt, o, between, c, hchildren, hok, holeaf, howidth, -⟩ :=
    h.exists_literal hn htext
  have hot : o ∈ t.inner := mem_preorderAll.2 ⟨o, by simp [hchildren], by simp⟩
  have ho : o ∈ root.inner := inner_trans ht hot
  have hbounds := within_bounds.1 t (h.nested_of_mem ht)
  -- The quotes are no separators, so they come before the blank characters and the `#`.
  have hopen : o.start.byte < byteSize u := by
    by_contra hge
    have howned : o ∈ root.tokens := mem_tokens.2 ⟨ho, holeaf, by simp [isExtra, hok, Kind.isExtra],
      by simp [hok], howidth⟩
    obtain ⟨before, d, tail, after, hT, hplace, -, hd⟩ := h.exists_token howned
    have hbyte : o.start.byte = byteSize before := by rw [hplace, Location.origin_after_byte]
    have hle : o.start.byte ≤ n.start.byte := by
      rcases eq_or_le_of_first (h.nested_of_mem ht) hchildren holeaf hnt with rfl | hle
      · simp [hok] at htext
      · exact hle
    exact hd (hh.mem_separators (hT.trans (List.append_assoc _ _ _)) (by omega) (by omega))
  have hto := (hbounds o hot).1
  have htn := (hbounds n hnt).2.2
  rw [Text.byteSize_append] at hstop
  exact ⟨t, ht, hstring, hh.cut t ht hstring (by omega) (by omega), by omega⟩

theorem comment_or_text (hn : n ∈ root.inner) (hleaf : n.children = [])
    (hstart : n.start.byte ≤ byteSize (u ++ w)) (hstop : byteSize (u ++ w) < n.stop.byte) :
    n.kind = .comment ∧ n.stop.row = u.count '\n' ∨ n.kind = .stringContent := by
  have hwidth : n.hasWidth := by
    simp only [hasWidth, decide_eq_true_eq]
    omega
  obtain ⟨before, t, after, hT, -, hstart', hstop', hspells⟩ :=
    h.written_of_leaf hn hleaf hwidth
  rw [hstart', Location.origin_after_byte] at hstart
  rw [hstop', Location.origin_after_byte] at hstop
  obtain ⟨t₁, t₂, rfl, hu, -⟩ := Text.exists_cut (hT.symm.trans hh.text) hstart hstop
  by_cases hcomment : n.kind = .comment
  · rw [hcomment] at hspells
    have hnewline : '\n' ∉ t₁ ++ '#' :: t₂ := hspells.2.1
    have hcount := hh.count_eq
    rw [hu, List.count_append] at hcount
    refine .inl ⟨hcomment, ?_⟩
    rw [hstop', Location.origin_after_row, List.count_append,
      List.count_eq_zero_of_not_mem hnewline, ← hcount,
      List.count_eq_zero_of_not_mem fun hmem => hnewline (List.mem_append_left _ hmem)]
  · exact .inr (hspells.stringContent_of_mem hcomment (by simp))

/-- Where a token stands on a line with a `#` before it, the line is in a string literal from an
earlier row. -/
theorem exists_string (hm : m ∈ root.tokens) (hle : byteSize u ≤ m.start.byte)
    (hrow : m.start.row = u.count '\n') : ∃ t ∈ root.inner, t.kind = .string ∧
      t.start.row < u.count '\n' ∧ u.count '\n' ≤ t.stop.row := by
  obtain ⟨before, c, t, after, hT, hstart, -, hc⟩ := h.exists_token hm
  have hmin := (mem_tokens.1 hm).1
  have hbounds := within_bounds.1 root h.nested m hmin
  have hbyte : m.start.byte = byteSize before := by rw [hstart, Location.origin_after_byte]
  have hlt : byteSize (u ++ w) < byteSize before := by
    by_contra hge
    exact hc (hh.mem_separators (hT.trans (List.append_assoc _ _ _)) (by omega) (by omega))
  obtain ⟨n, hn, hleaf, hnstart, hnstop⟩ :=
    h.exists_leaf_at (c := '#') hh.text (by decide) (by omega)
  rcases hh.comment_or_text h hn hleaf hnstart hnstop with ⟨hkind, hend⟩ | htext
  · have hwidth : n.hasWidth := by
      simp only [hasWidth, decide_eq_true_eq]
      omega
    have hapart : n.stop.byte ≤ m.start.byte := by
      rcases h.eq_or_apart hn hmin hleaf (mem_tokens.1 hm).2.1 with rfl | hapart | hapart <;>
        omega
    have := h.row_lt_of_comment hn hleaf hwidth hkind hm hapart
    omega
  · obtain ⟨t, ht, hstring, hbegin, hstop⟩ :=
      hh.exists_string_of_text h hn htext hnstart hnstop
    exact ⟨t, ht, hstring, hbegin, hh.row_le (h.sound t ht).stop (Nat.le_of_lt hstop)⟩

end HashLine
end Node
end DocstringEditor.Syntax
