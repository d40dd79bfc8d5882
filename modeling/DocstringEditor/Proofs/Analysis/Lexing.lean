import DocstringEditor.Proofs.Analysis.Excerpt
import DocstringEditor.Proofs.Header.Escape
import DocstringEditor.Proofs.Text.Terminated

namespace DocstringEditor.Syntax.Node

open Header (delimiter)
open Text (byteSize)

variable {T above blanks literal ending below : Text} {root n m t l : Node} {row : Nat}

/-- Whether a node is a token or text of a literal. -/
def isLexeme (n : Node) : Bool := n.children.isEmpty && !n.isExtra && n.hasWidth

def lexemes (n : Node) : List Node := n.inner.filter isLexeme

@[simp] theorem mem_lexemes :
    m ∈ n.lexemes ↔ m ∈ n.inner ∧ m.children = [] ∧ ¬m.isExtra ∧ m.hasWidth := by
  simp [lexemes, isLexeme, and_assoc]

/-- Whether each literal is above a row as a whole or starts on it or below. -/
def DividesAt (root : Node) (row : Nat) : Prop :=
  ∀ n ∈ root.inner, n.kind = .string →
    (∀ t ∈ n.lexemes, t.start.row < row) ∨ ∀ t ∈ n.lexemes, row ≤ t.start.row

instance (root : Node) (row : Nat) : Decidable (root.DividesAt row) :=
  inferInstanceAs (Decidable (∀ n ∈ root.inner, n.kind = .string → _))

theorem DividesAt.mono (h : root.DividesAt row) (hn : n ∈ root.inner) (hstring : n.kind = .string)
    (ht : t ∈ n.lexemes) (hl : l ∈ n.lexemes) (hrow : row ≤ t.start.row) : row ≤ l.start.row := by
  rcases h n hn hstring with habove | hbelow
  · have := habove t ht
    omega
  · exact hbelow l hl

theorem starts_pairwise :
    (∀ n : Node, Nested n.preorder → n.preorder.Pairwise (·.start.byte ≤ ·.start.byte)) ∧
    ∀ ns : Forest, Nested (preorderAll ns) → ∀ a b, Forest.Within a ns b →
      (preorderAll ns).Pairwise (·.start.byte ≤ ·.start.byte) := by
  apply Node.induction
  case mk =>
    intro k r s e cs ih h
    rw [preorder_eq]
    exact List.pairwise_cons.2 ⟨fun d hd => (within_bounds.1 _ h d hd).1,
      ih h.inner _ _ (h (mk k r s e cs) (by simp))⟩
  case nil => simp
  case cons =>
    intro n ns ihn ihns h a b hw
    refine List.pairwise_append.2 ⟨ihn h.node, ihns h.tail _ _ hw.2.2, fun d hd e he => ?_⟩
    have hle := stop_le_start_of_within h hw hd he
    have hwithin := h d (List.mem_append_left _ hd)
    exact Nat.le_trans hwithin.le hle

namespace Tree

variable (h : Tree T root)
include h

theorem row_le (hm : m ∈ root.inner) (hn : n ∈ root.inner) (hle : m.start.byte ≤ n.start.byte) :
    m.start.row ≤ n.start.row :=
  (h.sound m hm).start.row_le (h.sound n hn).start hle

theorem rows_pairwise : root.lexemes.Pairwise (·.start.row ≤ ·.start.row) := by
  have hinner : root.inner.Pairwise (·.start.byte ≤ ·.start.byte) :=
    starts_pairwise.2 root.children h.nested.inner _ _ h.within
  refine (hinner.filter isLexeme).imp_of_mem fun hm hn hle => ?_
  exact h.row_le (List.mem_of_mem_filter hm) (List.mem_of_mem_filter hn) hle

/-- A lexeme is a token, or there are the quotes of its literal before it. -/
theorem exists_opening (ht : t ∈ root.lexemes) : ∃ o ∈ root.tokens, o.start.byte ≤ t.start.byte ∧
    (o = t ∨ ∃ n ∈ root.inner, n.kind = .string ∧ t ∈ n.lexemes ∧ o ∈ n.lexemes ∧
      ∃ rest, n.children = o :: rest) := by
  obtain ⟨hin, hleaf, hextra, hwidth⟩ := mem_lexemes.1 ht
  by_cases htext : t.kind = .stringContent
  · obtain ⟨n, hn, hstring, htn, o, between, c, hchildren, hok, holeaf, howidth, -⟩ :=
      h.exists_literal hin htext
    have hon : o ∈ n.inner := mem_preorderAll.2 ⟨o, by simp [hchildren], by simp⟩
    have hextra' : ¬o.isExtra := by simp [isExtra, hok, Kind.isExtra]
    refine ⟨o, mem_tokens.2 ⟨inner_trans hn hon, holeaf, hextra', by simp [hok], howidth⟩, ?_,
      .inr ⟨n, hn, hstring, mem_lexemes.2 ⟨htn, hleaf, hextra, hwidth⟩,
        mem_lexemes.2 ⟨hon, holeaf, hextra', howidth⟩, _, hchildren⟩⟩
    rcases eq_or_le_of_first (h.nested_of_mem hn) hchildren holeaf htn with rfl | hle
    · exact Nat.le_refl _
    · exact hle
  · exact ⟨t, mem_tokens.2 ⟨hin, hleaf, hextra, htext, hwidth⟩, Nat.le_refl _, .inl rfl⟩

end Tree

/-- A literal that has lines of a text for itself, but for blank space. -/
structure OwnsLines (T : Text) (root l : Node) (above blanks literal ending below : Text) : Prop where
  text : T = above ++ (blanks ++ literal ++ ending) ++ below
  mem : l ∈ root.inner
  kind : l.kind = .string
  start : l.start = Location.origin.after (above ++ blanks)
  stop : l.stop = Location.origin.after (above ++ (blanks ++ literal))
  above : Text.lastLine above = []
  blank : ∀ c ∈ blanks ++ ending, c ∈ separators
  ending : '\n' ∈ ending

namespace OwnsLines

variable (ho : OwnsLines T root l above blanks literal ending below) (h : Tree T root)
  (hdivides : root.DividesAt (above.count '\n'))
include ho h

theorem token_mem {o : Node} (ht : o ∈ root.tokens) (hlow : above.count '\n' ≤ o.start.row)
    (hhigh : o.start.row < (above ++ (blanks ++ literal ++ ending)).count '\n') :
    o ∈ l.preorder := by
  obtain ⟨hin, hleaf, -, -, hwidth⟩ := mem_tokens.1 ht
  obtain ⟨before, c, v, after, hT, hstart, -, hc⟩ := h.exists_token ht
  have hplace := (h.sound o hin).start
  have hle : byteSize above ≤ o.start.byte := by
    by_contra hlt
    have := hplace.row_lt ⟨_, by rw [ho.text, List.append_assoc]⟩ ho.above (by omega)
    omega
  have hlt : o.start.byte < byteSize (above ++ (blanks ++ literal ++ ending)) := by
    by_contra hge
    have hend : Place T (Location.origin.after (above ++ (blanks ++ literal ++ ending))) :=
      ⟨_, ⟨below, ho.text.symm⟩, rfl⟩
    have := hend.row_le hplace (by rw [Location.origin_after_byte]; omega)
    rw [Location.origin_after_row] at this
    omega
  rw [hstart, Location.origin_after_byte] at hle hlt
  rw [List.append_assoc, List.cons_append] at hT
  obtain ⟨u, w, hline, rfl, -⟩ := Text.exists_cut (ho.text.symm.trans hT) hle hlt
  -- No token starts with blank space, so this one starts in the literal.
  have hblanks : byteSize blanks ≤ byteSize u := by
    by_contra hlt
    rw [List.append_assoc, ← List.nil_append (blanks ++ _), ← List.append_assoc] at hline
    obtain ⟨_, _, hparts, -, -⟩ := Text.exists_cut hline (Nat.zero_le _) (by simpa using hlt)
    exact hc (ho.blank c (by simp [hparts]))
  have hliteral : byteSize u < byteSize (blanks ++ literal) := by
    by_contra hge
    rw [← List.append_nil (_ ++ ending)] at hline
    have hlt : byteSize u < byteSize (blanks ++ literal ++ ending) := by
      have := c.utf8Size_pos
      rw [← List.append_nil (blanks ++ literal ++ ending), hline]
      simp
      omega
    obtain ⟨_, _, hparts, -, -⟩ := Text.exists_cut hline (Nat.not_lt.1 hge) hlt
    exact hc (ho.blank c (by simp [hparts]))
  rcases mem_or_apart.1 root h.nested o hin l ho.mem with hmem | hmem | hapart | hapart
  · exact hmem
  · simp only [mem_preorder, inner_of_leaf hleaf, List.not_mem_nil, or_false] at hmem
    simp [hmem]
  all_goals
    simp only [hasWidth, decide_eq_true_eq] at hwidth
    rw [hstart, Location.origin_after_byte, Text.byteSize_append] at *
    simp only [ho.start, ho.stop, Location.origin_after_byte, Text.byteSize_append] at *
    omega

include hdivides

/-- No other literal starts in front of the literal on its lines. -/
theorem not_mem_inner (hn : n ∈ root.inner) (hstring : n.kind = .string) (ht : t ∈ n.lexemes)
    (hlow : above.count '\n' ≤ t.start.row) : l ∉ n.inner := by
  intro hl
  have hchildren : n.children ≠ [] := by
    intro hnil
    simp [inner_of_leaf hnil] at hl
  obtain ⟨⟨o, between, c, hparts, hok, holeaf, howidth, -⟩, -⟩ :=
    (h.sound n hn).literal hstring hchildren
  have hon : o ∈ n.inner := mem_preorderAll.2 ⟨o, by simp [hparts], by simp⟩
  have hoextra : ¬o.isExtra := by simp [isExtra, hok, Kind.isExtra]
  have ho' : o ∈ n.lexemes := mem_lexemes.2 ⟨hon, holeaf, hoextra, howidth⟩
  have hne : l ≠ o := by
    rintro rfl
    simp [ho.kind] at hok
  have hstop : o.stop.byte ≤ l.start.byte := by
    have hnested := (h.nested_of_mem hn).inner
    have hwithin := h.nested_of_mem hn n (by simp)
    rw [inner, hparts] at hl hnested
    rw [hparts] at hwithin
    rcases List.mem_append.1 hl with hl | hl
    · simp [inner_of_leaf holeaf, hne] at hl
    · exact stop_le_start_of_within hnested hwithin (by simp) hl
  simp only [hasWidth, decide_eq_true_eq] at howidth
  have hrow : o.start.row < (above ++ (blanks ++ literal ++ ending)).count '\n' := by
    have hle := h.row_le (inner_trans hn hon) ho.mem (by omega)
    have := List.count_pos_iff.2 ho.ending
    rw [ho.start, Location.origin_after_row] at hle
    simp only [List.count_append] at hle ⊢
    omega
  have hmem := ho.token_mem h (mem_tokens.2 ⟨inner_trans hn hon, holeaf, hoextra, by simp [hok],
    by simpa [hasWidth] using howidth⟩) (hdivides.mono hn hstring ht ho' hlow) hrow
  rcases mem_preorder.1 hmem with rfl | hmem
  · exact hne rfl
  · have := within_bounds.1 l (h.nested_of_mem ho.mem) o hmem
    omega

theorem within (ht : t ∈ root.lexemes) (hlow : above.count '\n' ≤ t.start.row)
    (hhigh : t.start.row < (above ++ (blanks ++ literal ++ ending)).count '\n') :
    l.start.byte ≤ t.start.byte ∧ t.stop.byte ≤ l.stop.byte := by
  obtain ⟨o, htoken, hle, hot⟩ := h.exists_opening ht
  have hoin := (mem_tokens.1 htoken).1
  have hrow := h.row_le hoin (mem_lexemes.1 ht).1 hle
  have hin {m : Node} (hm : m ∈ l.preorder) : l.start.byte ≤ m.start.byte ∧
      m.stop.byte ≤ l.stop.byte := by
    rcases mem_preorder.1 hm with rfl | hm
    · exact ⟨Nat.le_refl _, Nat.le_refl _⟩
    · have := within_bounds.1 l (h.nested_of_mem ho.mem) m hm
      exact ⟨this.1, this.2.2⟩
  rcases hot with rfl | ⟨n, hn, hstring, htn, hon, -⟩
  · exact hin (ho.token_mem h htoken hlow hhigh)
  · have hmem := ho.token_mem h htoken (hdivides.mono hn hstring htn hon hlow) (by omega)
    have hbounds := hin hmem
    have hnbounds := within_bounds.1 n (h.nested_of_mem hn) o (mem_lexemes.1 hon).1
    have hwidth := (mem_lexemes.1 hon).2.2.2
    simp only [hasWidth, decide_eq_true_eq] at hwidth
    rcases mem_or_apart.1 root h.nested n hn l ho.mem with hmem | hmem | hapart | hapart
    · exact hin (preorder_trans hmem (mem_preorder.2 (.inr (mem_lexemes.1 htn).1)))
    · rcases mem_preorder.1 hmem with rfl | hmem
      · exact hin (mem_preorder.2 (.inr (mem_lexemes.1 htn).1))
      · exact absurd hmem (ho.not_mem_inner h hdivides hn hstring htn hlow)
    · omega
    · omega

theorem dividesAt : root.DividesAt ((above ++ (blanks ++ literal ++ ending)).count '\n') := by
  intro n hn hstring
  have hcount : above.count '\n' ≤ (above ++ (blanks ++ literal ++ ending)).count '\n' := by
    rw [List.count_append]
    omega
  rcases hdivides n hn hstring with habove | hbelow
  · exact .inl fun t ht => Nat.lt_of_lt_of_le (habove t ht) hcount
  by_contra hboth
  simp only [not_or, not_forall, Nat.not_lt, Nat.not_le, exists_prop] at hboth
  obtain ⟨⟨b, hb, hbrow⟩, a, ha, harow⟩ := hboth
  have hain := mem_lexemes.1 ha
  have hbounds := ho.within h hdivides (mem_lexemes.2 ⟨inner_trans hn hain.1, hain.2⟩)
    (hbelow a ha) harow
  -- What is in the literal is on its rows.
  have hnot : n ∉ l.preorder := by
    intro hmem
    have hbl : b ∈ l.inner := by
      rcases mem_preorder.1 hmem with rfl | hmem
      · exact (mem_lexemes.1 hb).1
      · exact inner_trans hmem (mem_lexemes.1 hb).1
    have hstop := (within_bounds.1 l (h.nested_of_mem ho.mem) b hbl)
    have hle := (h.sound b (inner_trans ho.mem hbl)).start.row_le (h.sound l ho.mem).stop
      (by omega)
    have := List.count_pos_iff.2 ho.ending
    rw [ho.stop, Location.origin_after_row] at hle
    simp only [List.count_append] at hle hbrow
    omega
  have hnbounds := within_bounds.1 n (h.nested_of_mem hn) a hain.1
  have hwidth := hain.2.2.2
  simp only [hasWidth, decide_eq_true_eq] at hwidth
  rcases mem_or_apart.1 root h.nested n hn l ho.mem with hmem | hmem | hapart | hapart
  · exact hnot hmem
  · rcases mem_preorder.1 hmem with rfl | hmem
    · exact hnot (by simp)
    · exact ho.not_mem_inner h hdivides hn hstring ha (hbelow a ha) hmem
  · omega
  · omega

end OwnsLines

end DocstringEditor.Syntax.Node

namespace DocstringEditor.Analysis

open Header (IsInside delimiter)
open Syntax Syntax.Node

theorem ofLocation_le_iff {a b : Location} (ha : a.Fits) (hb : b.Fits) :
    Position.ofLocation a ≤ Position.ofLocation b ↔ a ≤ b := by
  have hline := ha.line
  have hline' := hb.line
  show _ < _ ∨ _ = _ ∧ _ ≤ _ ↔ _
  rw [UInt32.lt_iff_toNat_lt, ← UInt32.toNat_inj, UInt32.le_iff_toNat_le, ha.character,
    hb.character, Location.le_def]
  omega

/-- Whether a node stands in a range, if there is one. -/
def inRange (range : Option DocumentRange) (n : Node) : Bool :=
  range.any fun r => r.start ≤ .ofLocation n.start && .ofLocation n.stop ≤ r.stop

theorem stop_ofLocations {a b : Location} (ha : a.Fits) (hb : b.Fits) (hle : a ≤ b) :
    (Range.ofLocations a b).stop = .ofLocation b := by
  have hle := (ofLocation_le_iff ha hb).2 hle
  refine if_neg fun hlt => ?_
  change _ < _ ∨ _ = _ ∧ _ ≤ _ at hle
  change _ < _ ∨ _ = _ ∧ _ < _ at hlt
  simp only [UInt32.lt_iff_toNat_lt, UInt32.le_iff_toNat_le, ← UInt32.toNat_inj] at hle hlt
  omega

theorem inRange_ofLocations {a b : Location} {n : Node} (ha : a.Fits) (hb : b.Fits) (hle : a ≤ b)
    (hstart : n.start.Fits) (hstop : n.stop.Fits) :
    inRange (some (.ofLocations a b)) n ↔ a ≤ n.start ∧ n.stop ≤ b := by
  rw [inRange, Option.any_some, Bool.and_eq_true, decide_eq_true_iff, decide_eq_true_iff,
    stop_ofLocations ha hb hle, ← ofLocation_le_iff ha hstart, ← ofLocation_le_iff hstop hb]
  rfl

namespace Source

def wordsAbove (s : Source) (row : Nat) : List Text :=
  (s.root.lexemes.filter (·.start.row < row)).map s.nodeText

def wordsBelow (s : Source) (row : Nat) : List Text :=
  (s.root.lexemes.filter (row ≤ ·.start.row)).map s.nodeText

def wordsOutside (s : Source) (range : Option DocumentRange) : List Text :=
  (s.root.lexemes.filter (!inRange range ·)).map s.nodeText

end Source

def quoted (inside : Text) : Text := delimiter '"' true ++ inside ++ delimiter '"' true

/-- Whether a source is a text with what a grammar makes of it, without an error. -/
def Parse.Reads (parse : Parse) (s : Source) : Prop :=
  parse s.text = .ok s.root ∧ s.root.firstError? = none ∧ s.lines = Text.splitLines s.text

/-- What makes a grammar one that reads tokens from left to right. Lines have the same tokens
whatever comes below them and whatever has come above, where no literal goes on, and three quotes at
the front of a line are those of a literal up to the quotes that close it. -/
structure Parse.ReadsTokens (parse : Parse) : Prop where
  above : ∀ s s' row, parse.Reads s → parse.Reads s' → s'.lines.take row = s.lines.take row →
    s.root.DividesAt row → s'.root.DividesAt row ∧ s'.wordsAbove row = s.wordsAbove row
  below : ∀ s s' row row', parse.Reads s → parse.Reads s' →
    s'.lines.drop row' = s.lines.drop row → s.root.DividesAt row → s'.root.DividesAt row' →
    s'.wordsBelow row' = s.wordsBelow row
  literal : ∀ s above blanks inside below, parse.Reads s →
    s.text = above ++ (blanks ++ quoted inside) ++ below →
    Text.lastLine above = [] → s.root.DividesAt (above.count '\n') → (∀ c ∈ blanks, c = ' ') →
    IsInside '"' true inside → ∃ l ∈ s.root.inner, l.kind = .string ∧
      l.start = Location.origin.after (above ++ blanks) ∧
      l.stop = Location.origin.after (above ++ (blanks ++ quoted inside))

theorem Source.reads_of_parse {parse : Parse} {s : Source} {text : Text}
    (h : Source.parse parse text = .ok s) : parse.Reads s := by
  obtain ⟨root, hroot, herror, rfl⟩ := Source.parse_eq_ok h
  exact ⟨hroot, herror, rfl⟩

theorem Parse.Reads.eq_ofTree {parse : Parse} {s : Source} (h : parse.Reads s) :
    s = .ofTree s.text s.root := by
  obtain ⟨text, lines, root⟩ := s
  obtain rfl : lines = Text.splitLines text := h.2.2
  rfl

theorem Parse.Reads.ext {parse : Parse} {s s' : Source} (h : parse.Reads s) (h' : parse.Reads s')
    (htext : s.text = s'.text) : s = s' := by
  have hroot : s.root = s'.root := Except.ok.inj (h.1.symm.trans (htext ▸ h'.1))
  calc s = .ofTree s.text s.root := h.eq_ofTree
    _ = .ofTree s'.text s'.root := by rw [htext, hroot]
    _ = s' := h'.eq_ofTree.symm

theorem Parse.Reads.accepted {parse : Parse} {s : Source} (hparse : parse.Faithful)
    (h : parse.Reads s) : s.Accepted :=
  ⟨h.2.2, hparse _ _ h.1 h.2.1⟩

theorem cut_rows {ns : List Node} (h : ns.Pairwise (·.start.row ≤ ·.start.row)) (i : Nat) :
    ns = ns.filter (·.start.row < i) ++ ns.filter (i ≤ ·.start.row) := by
  induction ns with
  | nil => rfl
  | cons n ns ih =>
      obtain ⟨hn, hns⟩ := List.pairwise_cons.1 h
      by_cases hi : n.start.row < i
      · rw [List.filter_cons_of_pos (by simpa), List.filter_cons_of_neg (by simpa),
          List.cons_append, ← ih hns]
      · have hle := Nat.not_lt.1 hi
        rw [List.filter_eq_nil_iff.2, List.nil_append, List.filter_eq_self.2]
        · exact List.forall_mem_cons.2 ⟨by simpa, fun m hm => by simpa using hle.trans (hn m hm)⟩
        · exact List.forall_mem_cons.2 ⟨by simpa, fun m hm => by simpa using hle.trans (hn m hm)⟩

/-- Nodes in the order of their rows are those above one row, those from it on above another and
those from that on. -/
theorem filter_rows {ns : List Node} {i j : Nat} {p : Node → Bool} (hij : i ≤ j)
    (h : ns.Pairwise (·.start.row ≤ ·.start.row)) (hlow : ∀ n ∈ ns, n.start.row < i → p n)
    (hhigh : ∀ n ∈ ns, j ≤ n.start.row → p n) :
    ns.filter p = ns.filter (·.start.row < i) ++
      (ns.filter (fun n => (i ≤ n.start.row ∧ n.start.row < j) ∧ p n) ++
        ns.filter (j ≤ ·.start.row)) := by
  conv_lhs => rw [cut_rows h i, List.filter_append, cut_rows (h.filter (i ≤ ·.start.row)) j,
    List.filter_append]
  simp only [List.filter_filter]
  congr 1
  · refine List.filter_congr fun n hn => ?_
    by_cases hi : n.start.row < i <;> simp [hi, hlow n hn]
  congr 1
  · refine List.filter_congr fun n hn => ?_
    simp only [Bool.decide_and, Bool.decide_eq_true]
    rw [Bool.and_comm, Bool.and_comm (decide (n.start.row < j))]
  · refine List.filter_congr fun n hn => ?_
    by_cases hj : j ≤ n.start.row
    · simp [hj, hhigh n hn hj, hij.trans hj]
    · simp [hj]

variable {parse : Parse} {s s' : Source} {above blanks inside below : Text} {row row' : Nat}

theorem inRange_rows {T : Text} {root t : Node} {a b : Location} (h : Tree T root)
    (ht : t ∈ root.lexemes) (ha : a.Fits) (hb : b.Fits) (hle : a ≤ b)
    (hmem : inRange (some (.ofLocations a b)) t) : a.row ≤ t.start.row ∧ t.start.row ≤ b.row := by
  have hroot := (mem_lexemes.1 ht).1
  have ht := mem_preorder.2 (.inr hroot)
  obtain ⟨hstart, hstop⟩ := (inRange_ofLocations ha hb hle (h.regular.fits_start ht)
    (h.regular.fits_stop ht)).1 hmem
  have hrows := (h.sound t hroot).start.row_le (h.sound t hroot).stop
    (within_bounds.1 root h.nested t hroot).2.1
  rw [Location.le_def] at hstart hstop
  omega

/-- The tokens outside of a range are those above a row, those between it and another that are not in
the range and those from that on, where what is in the range is between the rows. -/
theorem wordsOutside_eq {range : Option DocumentRange} (h : Tree s.text s.root) (hle : row ≤ row')
    (hrows : ∀ t ∈ s.root.lexemes, inRange range t → row ≤ t.start.row ∧ t.start.row < row') :
    s.wordsOutside range = s.wordsAbove row ++ ((s.root.lexemes.filter fun t =>
      (row ≤ t.start.row ∧ t.start.row < row') ∧ !inRange range t).map s.nodeText ++
        s.wordsBelow row') := by
  have hparts := filter_rows (p := fun t => !inRange range t) hle h.rows_pairwise
    (fun t ht hlow => by
      by_contra hmem
      have := hrows t ht (by simpa using hmem)
      omega)
    (fun t ht hhigh => by
      by_contra hmem
      have := hrows t ht (by simpa using hmem)
      omega)
  rw [Source.wordsOutside, hparts, List.map_append, List.map_append]
  rfl

theorem quoted_inj {u v x y : Text} (hu : IsInside '"' true u) (hv : IsInside '"' true v)
    (h : quoted u ++ x = quoted v ++ y) : u = v := by
  simp only [quoted, List.append_assoc, List.append_cancel_left_eq] at h
  have hlength := Header.closingLength_eq (by decide) hu x
  rw [List.append_assoc, h, ← List.append_assoc, Header.closingLength_eq (by decide) hv y,
    Nat.add_right_cancel_iff] at hlength
  exact (List.append_inj h hlength.symm).1

def rangeOfText (before t : Text) : DocumentRange :=
  .ofLocations (Location.origin.after before) (Location.origin.after (before ++ t))

/-- A line with a literal that is put between two lines of a text or takes the place of some. -/
structure Insertion where
  above : Text
  removed : Text
  blanks : Text
  inside : Text
  ending : LineEnding
  below : Text
  deriving DecidableEq

namespace Insertion

variable (w : Insertion)

def added : Text := w.blanks ++ quoted w.inside ++ w.ending.text

def text : Text := w.above ++ w.added ++ w.below

theorem lastLine_added : Text.lastLine (w.above ++ w.added) = [] := by
  rw [added, ← List.append_assoc, Text.lastLine_append]
  cases w.ending <;> rfl

end Insertion

/-- Two sources that are the same above a row of the first, and from another one on but for the line
that the second one has in between. -/
structure Inserts (s s' : Source) (row row' : Nat) (w : Insertion) : Prop where
  le : row ≤ row'
  taken : s.lines.take row = Text.splitLines w.above
  dropped : s.lines.drop row' = Text.splitLines w.below
  count : w.above.count '\n' = row
  resumed : (w.above ++ w.removed).count '\n' = row' ∨ w.below = []
  line : Text.lastLine w.above = []
  blank : ∀ c ∈ w.blanks, c = ' '
  text : s'.text = w.text
  lines : s'.lines = Text.splitLines s'.text

namespace Inserts

variable {w : Insertion} (h : Inserts s s' row row' w)
include h

theorem above_eq : s'.lines.take row = s.lines.take row := by
  rw [h.lines, h.text, Insertion.text, List.append_assoc, h.taken, ← h.count,
    Text.take_splitLines h.line]

theorem below_eq : s'.lines.drop ((w.above ++ w.added).count '\n') = s.lines.drop row' := by
  rw [h.lines, h.text, h.dropped, Insertion.text, Text.drop_splitLines w.lastLine_added]

end Inserts

/-- Two such sources that a grammar takes, where no literal reaches over the rows. -/
structure Retold (parse : Parse) (s s' : Source) (row row' : Nat) (w : Insertion) : Prop
    extends Inserts s s' row row' w where
  reads : parse.Reads s
  reads' : parse.Reads s'
  inside : IsInside '"' true w.inside
  divides : s.root.DividesAt row
  divides' : s.root.DividesAt row'

namespace Retold

variable {w : Insertion} (h : Retold parse s s' row row' w) (hparse : parse.Faithful)
  (hread : parse.ReadsTokens)
include h

include hread

theorem exists_ownsLines :
    ∃ l, OwnsLines s'.text s'.root l w.above w.blanks (quoted w.inside) w.ending.text w.below := by
  have hdivides := (hread.above s s' row h.reads h.reads' h.above_eq h.divides).1
  have htext : s'.text = w.above ++ (w.blanks ++ quoted w.inside) ++ (w.ending.text ++ w.below) := by
    rw [h.text, Insertion.text, Insertion.added]
    simp only [List.append_assoc]
  obtain ⟨l, hl, hkind, hstart, hstop⟩ := hread.literal s' w.above w.blanks w.inside _ h.reads' htext
    h.line (by rwa [h.count]) h.blank h.inside
  have hending : ∀ c ∈ w.ending.text, c ∈ separators := by
    cases w.ending <;> simp [LineEnding.text, separators, gapChars]
  refine ⟨l, h.text, hl, hkind, hstart, hstop, h.line, fun c hc => ?_, ?_⟩
  · rcases List.mem_append.1 hc with hc | hc
    · rw [h.blank c hc]
      decide
    · exact hending c hc
  · cases w.ending <;> decide

include hparse

/-- All tokens between the lines are those of the literal. -/
theorem wordsOutside_literal :
    s'.wordsOutside (some (rangeOfText (w.above ++ w.blanks) (quoted w.inside))) =
      s.wordsAbove row ++ s.wordsBelow row' := by
  obtain ⟨hdivides, hwords⟩ := hread.above s s' row h.reads h.reads' h.above_eq h.divides
  obtain ⟨l, ho⟩ := h.exists_ownsLines hread
  have htree := (h.reads'.accepted hparse).tree
  rw [← h.count] at hdivides
  have hwords' := hread.below s s' row' _ h.reads h.reads' h.below_eq h.divides'
    (ho.dividesAt htree hdivides)
  have hcounts : row ≤ l.start.row ∧ l.stop.row < (w.above ++ w.added).count '\n' := by
    have : 0 < w.ending.text.count '\n' := by cases w.ending <;> decide
    rw [ho.start, ho.stop, Location.origin_after_row, Location.origin_after_row, ← h.count,
      Insertion.added]
    simp only [List.count_append]
    omega
  have hl := mem_preorder.2 (.inr ho.mem)
  have hsound := htree.sound l ho.mem
  have hle := (hsound.start.le_iff hsound.stop).1
    (within_bounds.1 s'.root htree.nested l ho.mem).2.1
  have hrow := hsound.start.row_le hsound.stop ((hsound.start.le_iff hsound.stop).2 hle)
  have hrange : rangeOfText (w.above ++ w.blanks) (quoted w.inside) = .ofLocations l.start l.stop := by
    rw [ho.start, ho.stop, rangeOfText, List.append_assoc]
  have hfits := htree.regular.fits_start hl
  have hfits' := htree.regular.fits_stop hl
  have hrows : row ≤ (w.above ++ w.added).count '\n' := by omega
  rw [hrange, wordsOutside_eq htree hrows fun t ht hmem => by
    have := inRange_rows htree ht hfits hfits' hle hmem
    omega]
  have hnone : s'.root.lexemes.filter (fun t => (row ≤ t.start.row ∧
      t.start.row < (w.above ++ w.added).count '\n') ∧
        !inRange (some (.ofLocations l.start l.stop)) t) = [] := by
    refine List.filter_eq_nil_iff.2 fun t ht hmem => ?_
    simp only [decide_eq_true_eq, Bool.not_eq_true'] at hmem
    obtain ⟨⟨hlow, hhigh⟩, hout⟩ := hmem
    have hroot := (mem_lexemes.1 ht).1
    have ht' := mem_preorder.2 (.inr hroot)
    obtain ⟨hstart, hstop⟩ := ho.within htree hdivides ht (by rwa [h.count]) hhigh
    have hmem := (inRange_ofLocations hfits hfits' hle (htree.regular.fits_start ht')
      (htree.regular.fits_stop ht')).2 ⟨(hsound.start.le_iff (htree.sound t hroot).start).1 hstart,
        ((htree.sound t hroot).stop.le_iff hsound.stop).1 hstop⟩
    simp [hmem] at hout
  rw [hnone, List.map_nil, List.nil_append]
  exact congrArg₂ _ hwords hwords'

/-- All tokens of a source are still there just if the lines between hold none but those of a range
in them. -/
theorem wordsOutside_eq_iff {range : Option DocumentRange}
    (hrange : ∀ r ∈ range, ∃ a b, a.Fits ∧ b.Fits ∧ a ≤ b ∧ r = .ofLocations a b ∧ a.row = row ∧
      b.row < row') :
    s'.wordsOutside (some (rangeOfText (w.above ++ w.blanks) (quoted w.inside))) =
        s.wordsOutside range ↔
      ∀ t ∈ s.root.lexemes, row ≤ t.start.row → t.start.row < row' → inRange range t := by
  have htree := (h.reads.accepted hparse).tree
  rw [h.wordsOutside_literal hparse hread, wordsOutside_eq htree h.le, List.append_cancel_left_eq,
    List.self_eq_append_left, List.map_eq_nil_iff, List.filter_eq_nil_iff]
  · refine forall₂_congr fun t _ => ?_
    simp only [decide_eq_true_eq, Bool.not_eq_true', not_and, Bool.not_eq_false, and_imp]
  · intro t ht hmem
    cases range with
    | none => simp [inRange] at hmem
    | some r =>
        obtain ⟨a, b, ha, hb, hle, rfl, rfl, hrow⟩ := hrange r rfl
        have := inRange_rows htree ht ha hb hle hmem
        omega

end Retold

end DocstringEditor.Analysis
