import DocstringEditor.Proofs.Analysis.Excerpt
import DocstringEditor.Proofs.Header.Reading
import DocstringEditor.Proofs.Syntax.Terminal

namespace DocstringEditor.Analysis

open Header (Idle Item IsInside Reads delimiter isQuote special)
open Syntax Syntax.Node Syntax.Forest
open Text (byteSize)

variable {s : Source} {d n body colon : Node} {u v w rest : Text} {x y depth : Nat}

namespace Source

def between (s : Source) (a b : Location) : Text :=
  (Text.sliceBytes s.text a.byte b.byte).getD []

def behind (s : Source) (l : Location) : Text := (Text.dropBytes s.text l.byte).getD []

def IsOpening (s : Source) (n : Node) : Prop := ∃ c ∈ ['(', '[', '{'], s.nodeText n = [c]

def IsClosing (s : Source) (n : Node) : Prop := ∃ c ∈ [')', ']', '}'], s.nodeText n = [c]

instance (s : Source) : DecidablePred s.IsOpening := fun _ => List.decidableBEx _ _

instance (s : Source) : DecidablePred s.IsClosing := fun _ => List.decidableBEx _ _

/-- How many brackets are open behind a terminal. -/
def depthBehind (s : Source) (depth : Nat) (n : Node) : Nat :=
  if s.IsOpening n then depth + 1 else if s.IsClosing n then depth - 1 else depth

/-- Whether a terminal is a literal, a comment, a mark of its own or text that means nothing to a
scan. -/
def IsToken (s : Source) (n : Node) : Prop :=
  n.kind = .string ∨ n.kind = .comment ∨ (∀ c ∈ s.nodeText n, c ∉ special) ∨ s.IsOpening n ∨
    s.IsClosing n ∨ s.nodeText n = [':', '='] ∨
    s.nodeText n = [':'] ∧ (s.behind n.stop).head? ≠ some '='

-- Told apart from a choice among all characters, which does not compute in reasonable time.
instance (t u : Text) : Decidable (∀ c ∈ t, c ∉ u) := List.decidableBAll _ _

instance (o : Option Char) (u : Text) : Decidable (∃ c ∈ o, c ∉ u) :=
  Option.decidableExistsMem (o := o)

instance (s : Source) : DecidablePred s.IsToken := fun _ => inferInstanceAs (Decidable (_ ∨ _))

/-- Whether only comments and blank text stand between a colon and a body. -/
def LeadsTo (s : Source) (colon : Node) (back : Forest) (body : Node) : Prop :=
  colon.stop.byte ≤ body.start.byte ∧ (∃ c ∈ (s.nodeText body).head?, c ∉ separators) ∧
    ∀ n ∈ terminalsAll back, n.start.byte < body.start.byte →
      n.stop.byte ≤ body.start.byte ∧ (n.kind = .comment ∨ ∀ c ∈ s.nodeText n, c ∉ special)

instance (s : Source) (colon body : Node) (back : Forest) : Decidable (s.LeadsTo colon back body) :=
  inferInstanceAs (Decidable (_ ∧ _))

/-- Whether the terminals before a colon are tokens with balanced brackets and it stands alone. -/
def LeadsFrom (s : Source) (front : Forest) (colon : Node) : Prop :=
  s.nodeText colon = [':'] ∧ (s.behind colon.stop).head? ≠ some '=' ∧
    (∀ n ∈ terminalsAll front, s.IsToken n) ∧ (terminalsAll front).foldl s.depthBehind 0 = 0

instance (s : Source) (front : Forest) (colon : Node) : Decidable (s.LeadsFrom front colon) :=
  inferInstanceAs (Decidable (_ ∧ _))

def Headed (s : Source) (d : Node) : Prop :=
  ∃ parts ∈ splitColon? d.children, s.LeadsFrom parts.1 parts.2.1 ∧
    ∀ body ∈ d.firstStatement?, s.LeadsTo parts.2.1 parts.2.2 body

instance (s : Source) : DecidablePred s.Headed := fun _ => inferInstanceAs (Decidable (∃ _ ∈ _, _))

/-- Whether the text of a literal is read as that literal on its own. -/
def ReadsAlone (s : Source) (n : Node) : Prop :=
  ∃ lead q triple inside,
    s.nodeText n = lead ++ (delimiter q triple ++ inside ++ delimiter q triple) ∧
    (∀ c ∈ lead, c ∉ special) ∧ isQuote q ∧ IsInside q triple inside ∧
    (triple = false → inside = [] → (s.behind n.stop).head? ≠ some q)

def LiteralsReadAlone (s : Source) (d : Node) : Prop :=
  ∀ parts ∈ splitColon? d.children, ∀ n ∈ terminalsAll parts.1, n.kind = .string → s.ReadsAlone n

theorem depthBehind_eq (hn : ∀ c ∈ ['(', '[', '{', ')', ']', '}'], s.nodeText n ≠ [c])
    (depth : Nat) : s.depthBehind depth n = depth := by
  have hopening : ¬s.IsOpening n := by
    rintro ⟨c, hc, htext⟩
    exact hn c (List.mem_append_left [')', ']', '}'] hc) htext
  have hclosing : ¬s.IsClosing n := by
    rintro ⟨c, hc, htext⟩
    exact hn c (List.mem_append_right ['(', '[', '{'] hc) htext
  rw [depthBehind, if_neg hopening, if_neg hclosing]

theorem exists_of_gap {T : Text} (h : Gap T (byteSize u) y) (htext : T = u ++ rest) : ∃ w v,
    rest = w ++ v ∧ byteSize (u ++ w) = y ∧ ∀ c ∈ w, c ∉ special := by
  obtain ⟨before, gap, after, htext', hsize, rfl, hgap⟩ := h
  rw [List.append_assoc] at htext'
  obtain ⟨rfl, rfl⟩ := Text.append_inj_of_byteSize (htext'.symm.trans htext) hsize
  have hplain : ∀ c ∈ gapChars, c ∉ special := List.all_iff_forall_prop.1 (by decide)
  exact ⟨gap, after, rfl, rfl, fun c hc => hplain c (hgap c hc)⟩

theorem idle_of_gap {t : Text} (h : Gap s.text (byteSize u) y) (htext : s.text = u ++ w ++ t)
    (hle : byteSize (u ++ w) ≤ y) : Idle w t := by
  rw [List.append_assoc] at htext
  obtain ⟨gap, v, hparts, rfl, hplain⟩ := exists_of_gap h htext
  rw [Text.byteSize_append, Text.byteSize_append, Nat.add_le_add_iff_left] at hle
  have hstart : w <+: gap := Text.prefix_of_byteSize_le ⟨t, rfl⟩ ⟨v, hparts.symm⟩ hle
  rw [← w.append_nil]
  exact .append_plain (fun c hc => hplain c (hstart.subset hc)) .done

namespace Accepted

variable (h : s.Accepted)
include h

/-- A node stands with its text where it starts. -/
theorem exists_nodeText (hn : n ∈ s.root.inner) (htext : s.text = u ++ rest)
    (hstart : n.start.byte = byteSize u) : ∃ v, rest = s.nodeText n ++ v ∧
      n.stop = Location.origin.after (u ++ s.nodeText n) ∧ s.behind n.stop = v := by
  obtain ⟨w, ⟨v, hw⟩, hstop⟩ := (h.tree.sound n hn).stop
  have hle := (h.tree.sound n hn).within.le
  have hsize : n.stop.byte = byteSize w := by rw [hstop, Location.origin_after_byte]
  obtain ⟨t, rfl⟩ : u <+: w :=
    Text.prefix_of_byteSize_le ⟨rest, htext.symm⟩ ⟨v, hw⟩ (by omega)
  have htext' : s.nodeText n = t := by
    rw [nodeText, hstart, hsize, ← hw, Text.sliceBytes_append]
    rfl
  refine ⟨v, ?_, by rw [htext', hstop], ?_⟩
  · rw [htext']
    rw [htext, List.append_assoc] at hw
    exact (List.append_cancel_left hw).symm
  · rw [behind, hsize, ← hw, Text.dropBytes_append]
    rfl

theorem nodeText_eq_nil (hn : n ∈ s.root.inner) (hwidth : ¬n.hasWidth) : s.nodeText n = [] := by
  obtain ⟨u, ⟨rest, hrest⟩, hstart⟩ := (h.tree.sound n hn).start
  have hbyte : n.start.byte = byteSize u := by rw [hstart, Location.origin_after_byte]
  obtain ⟨v, -, hstop, -⟩ := h.exists_nodeText hn hrest.symm hbyte
  have hstop := congrArg Location.byte hstop
  by_contra hne
  have := Text.byteSize_pos hne
  rw [Location.origin_after_byte, Text.byteSize_append] at hstop
  simp only [hasWidth, decide_eq_true_eq] at hwidth
  omega

theorem comment_behind (hn : n ∈ s.root.inner) (hcomment : n.kind = .comment)
    (hwidth : n.hasWidth) (hlt : n.stop.byte < s.root.stop.byte) : ∃ t, s.nodeText n = '#' :: t ∧
      '\n' ∉ t ∧ (s.behind n.stop = [] ∨ (s.behind n.stop).head? = some '\n') := by
  have hleaf := h.tree.children_of_comment hn (by simp [isComment, hcomment])
  obtain ⟨before, t, after, htext, hne, hstart, hstop, hspells⟩ :=
    h.tree.written_of_leaf hn hleaf hwidth
  obtain ⟨hhash, hline, hafter⟩ : t.head? = some '#' ∧ '\n' ∉ t ∧
      ∀ c ∈ after.head?, c = '\n' ∨ c = '\x00' := by rwa [hcomment] at hspells
  have htext' : s.text = before ++ (t ++ after) := by rw [htext, List.append_assoc]
  obtain ⟨v, hv, hsize, hbehind⟩ :=
    h.exists_nodeText hn htext' (by rw [hstart, Location.origin_after_byte])
  have hbyte : n.stop.byte = byteSize (before ++ t) := by rw [hstop, Location.origin_after_byte]
  rw [hsize, Location.origin_after_byte, Text.byteSize_append, Text.byteSize_append,
    Nat.add_left_cancel_iff] at hbyte
  obtain ⟨rfl, rfl⟩ := Text.append_inj_of_byteSize hv hbyte.symm
  obtain ⟨t, htail⟩ := List.head?_eq_some_iff.1 hhash
  refine ⟨t, htail, fun hmem => hline (htail ▸ List.mem_cons_of_mem _ hmem), ?_⟩
  rw [hbehind]
  cases after with
  | nil => exact .inl rfl
  | cons c after =>
      rcases hafter c rfl with rfl | rfl
      · exact .inr rfl
      · have hbyte : n.stop.byte = byteSize (before ++ s.nodeText n) := by
          rw [hsize, Location.origin_after_byte]
        exact absurd rfl (h.tree.ne_nul_behind_leaf hn hleaf hwidth htext hbyte (by omega))

theorem reads_token (hn : n ∈ s.root.inner) (htoken : s.IsToken n)
    (halone : n.kind = .string → s.ReadsAlone n) (hlt : n.stop.byte < s.root.stop.byte)
    (depth : Nat) :
    Reads depth (s.nodeText n) (s.depthBehind depth n) (s.behind n.stop) := by
  have hplain (hplain : ∀ c ∈ s.nodeText n, c ∉ special) :
      Reads depth (s.nodeText n) (s.depthBehind depth n) (s.behind n.stop) := by
    have hdepth : s.depthBehind depth n = depth := by
      refine depthBehind_eq (fun c hc htext => ?_) depth
      exact hplain c (by simp [htext]) (List.mem_append_left _ (List.mem_append_left [':'] hc))
    rw [hdepth]
    exact .plain hplain depth _
  rcases htoken with hstring | hcomment | htext | hopening | hclosing | htext | ⟨htext, hsingle⟩
  · obtain ⟨lead, q, triple, inside, htext, hlead, hq, hinside, hbehind⟩ := halone hstring
    have hlength : 1 < (s.nodeText n).length := by
      have := Header.length_delimiter_pos q triple
      simp only [htext, List.length_append]
      omega
    rw [depthBehind_eq (fun c _ heq => by simp [heq] at hlength), htext]
    exact (Reads.plain hlead depth _).trans (.single (i := .string [] q triple inside)
      ⟨by decide, Header.isQuote_iff.1 hq, hinside⟩ hbehind depth)
  · by_cases hwidth : n.hasWidth
    · obtain ⟨t, htext, hline, hbehind⟩ := h.comment_behind hn hcomment hwidth hlt
      rw [depthBehind_eq (by simp [htext]), htext]
      exact .single (i := .comment t) hline hbehind depth
    · exact hplain (by simp [h.nodeText_eq_nil hn hwidth])
  · exact hplain htext
  · obtain ⟨c, hc, htext⟩ := hopening
    rw [depthBehind, if_pos ⟨c, hc, htext⟩, htext]
    exact .single (i := .opening c) (by simpa [Item.IsProper] using hc) trivial depth
  · obtain ⟨c, hc, htext⟩ := hclosing
    have hopening : ¬s.IsOpening n := by
      rintro ⟨d, hd, htext'⟩
      obtain ⟨rfl, -⟩ := List.cons.inj (htext.symm.trans htext')
      simp only [List.mem_cons, List.not_mem_nil, or_false] at hc hd
      rcases hc with rfl | rfl | rfl <;> simp at hd
    rw [depthBehind, if_neg hopening, if_pos ⟨c, hc, htext⟩, htext]
    exact .single (i := .closing c) (by simpa [Item.IsProper] using hc) trivial depth
  · rw [depthBehind_eq (by simp [htext]), htext]
    exact .single (i := .walrus) trivial trivial depth
  · rw [depthBehind_eq (by simp [htext]), htext]
    exact .single (i := .colon) trivial hsingle depth

theorem mem_nodeText {c : Char} (hn : n ∈ s.root.inner) (htext : s.text = u ++ c :: rest)
    (hstart : n.start.byte ≤ byteSize u) (hstop : byteSize u < n.stop.byte) :
    c ∈ s.nodeText n := by
  obtain ⟨before, ⟨behind, hbehind⟩, hplace⟩ := (h.tree.sound n hn).start
  have hbyte : n.start.byte = byteSize before := by rw [hplace, Location.origin_after_byte]
  obtain ⟨v, rfl, hend, -⟩ := h.exists_nodeText hn hbehind.symm hbyte
  rw [hbyte] at hstart
  rw [hend, Location.origin_after_byte] at hstop
  rw [← List.append_assoc, htext] at hbehind
  obtain ⟨t₁, t₂, hparts, -, -⟩ := Text.exists_cut hbehind hstart hstop
  simp [hparts]

/-- Tokens with gaps between them read to what is behind them. -/
theorem reads_filled {ns : Forest} (hns : ∀ n ∈ ns, n ∈ s.root.inner ∧ s.IsToken n ∧
      (n.kind = .string → s.ReadsAlone n) ∧ n.stop.byte < s.root.stop.byte)
    (hfilled : Filled s.text (byteSize u) ns y) (htext : s.text = u ++ rest) : ∃ w v,
      rest = w ++ v ∧ byteSize (u ++ w) = y ∧
      ∀ depth, Reads depth w (ns.foldl s.depthBehind depth) v := by
  induction ns generalizing u rest with
  | nil =>
      obtain ⟨w, v, rfl, hy, hw⟩ := exists_of_gap hfilled htext
      exact ⟨w, v, rfl, hy, fun depth => .plain hw depth v⟩
  | cons n ns ih =>
      obtain ⟨⟨hn, htoken, halone, hlt⟩, hns⟩ := List.forall_mem_cons.1 hns
      obtain ⟨hgap, hfilled⟩ := hfilled
      obtain ⟨gap, rest, rfl, hstart, hplain⟩ := exists_of_gap hgap htext
      rw [← List.append_assoc] at htext
      obtain ⟨rest, rfl, hstop, hbehind⟩ := h.exists_nodeText hn htext hstart.symm
      rw [← List.append_assoc] at htext
      rw [hstop, Location.origin_after_byte] at hfilled
      obtain ⟨w, v, rfl, hy, hreads⟩ := ih hns hfilled htext
      refine ⟨gap ++ (s.nodeText n ++ w), v, by simp, ?_, fun depth => ?_⟩
      · rw [← hy, List.append_assoc, List.append_assoc]
      have htoken := h.reads_token hn htoken halone hlt depth
      rw [hbehind] at htoken
      rw [List.foldl_cons]
      exact (Reads.plain hplain depth _).trans (htoken.trans (hreads (s.depthBehind depth n)))

/-- Where only comments and blank text stand before a place, no terminal reaches over it. -/
theorem idle_filled {ns : Forest} {t : Text} (hns : ∀ n ∈ ns, n ∈ s.root.inner ∧
      (n.start.byte < byteSize (u ++ w) → n.stop.byte ≤ byteSize (u ++ w) ∧
        (n.kind = .comment ∨ ∀ c ∈ s.nodeText n, c ∉ special)))
    (hfilled : Filled s.text (byteSize u) ns y) (htext : s.text = u ++ w ++ t)
    (hlt : byteSize (u ++ w) < s.root.stop.byte) (hle : byteSize (u ++ w) ≤ y) : Idle w t := by
  induction ns generalizing u w with
  | nil => exact idle_of_gap hfilled htext hle
  | cons n ns ih =>
      obtain ⟨⟨hn, hbefore⟩, hns⟩ := List.forall_mem_cons.1 hns
      obtain ⟨hfront, hfilled⟩ := hfilled
      by_cases hstart : n.start.byte < byteSize (u ++ w)
      · obtain ⟨hstop, htoken⟩ := hbefore hstart
        have hwhole : s.text = u ++ (w ++ t) := by rw [htext, List.append_assoc]
        obtain ⟨gap, rest, hrest, hsize, hplain⟩ := exists_of_gap hfront hwhole
        rw [hrest, ← List.append_assoc] at hwhole
        obtain ⟨v, rfl, hplace, hbehind⟩ := h.exists_nodeText hn hwhole hsize.symm
        have hsize' : n.stop.byte = byteSize (u ++ gap ++ s.nodeText n) := by
          rw [hplace, Location.origin_after_byte]
        obtain ⟨w, rfl⟩ : gap ++ s.nodeText n <+: w := by
          refine Text.prefix_of_byteSize_le ⟨v, ?_⟩ ⟨t, rfl⟩ ?_
          · rw [hrest, List.append_assoc]
          · simp only [Text.byteSize_append] at hstop hsize' ⊢
            omega
        obtain rfl : w ++ t = v := by simpa using hrest
        have hassoc : u ++ (gap ++ s.nodeText n ++ w) = u ++ gap ++ s.nodeText n ++ w := by simp
        rw [hassoc] at hns htext hlt hle hstop
        rw [hsize'] at hfilled hstop
        have hidle := ih hns hfilled htext hlt hle
        rw [List.append_assoc]
        refine .append_plain hplain ?_
        rcases htoken with hcomment | htoken
        · by_cases hwidth : n.hasWidth
          · obtain ⟨c, hc, hline, hcbehind⟩ := h.comment_behind hn hcomment hwidth (by omega)
            rw [hbehind] at hcbehind
            rw [hc]
            exact .comment hline hcbehind hidle
          · rwa [h.nodeText_eq_nil hn hwidth]
        · exact .append_plain htoken hidle
      · exact idle_of_gap hfront htext (by omega)

end Accepted

/-- What the text of a source is around the header of a definition. -/
structure HeaderText (s : Source) (d colon body : Node) (before front back rest : Text) : Prop where
  text : s.text = before ++ front ++ ':' :: back ++ rest
  start : d.start = Location.origin.after before
  colonStart : colon.start = Location.origin.after (before ++ front)
  colonStop : colon.stop = Location.origin.after (before ++ front ++ [':'])
  bodyStart : body.start = Location.origin.after (before ++ front ++ ':' :: back)
  bodyEnd : body.start.byte < d.logicalEnd.byte
  single : (back ++ rest).head? ≠ some '='
  idle : Idle back rest
  comments : ∀ u v, back = u ++ '#' :: v → ∃ n ∈ s.root.inner, n.kind = .comment ∧
    n.start.byte ≤ byteSize (before ++ front ++ ':' :: u) ∧
    byteSize (before ++ front ++ ':' :: u) < n.stop.byte
  solid : ∃ c ∈ rest.head?, c ∉ separators
  reads : s.LiteralsReadAlone d → Reads 0 front 0 (':' :: back ++ rest)

theorem inner_of_children {ns : Forest} (hd : d ∈ s.root.inner) (hchildren : d.children = ns)
    (hn : n ∈ preorderAll ns) : n ∈ s.root.inner :=
  inner_trans hd (by rwa [Node.inner, hchildren])

namespace Accepted

variable {fronts backs : Forest} {before front back : Text} (h : s.Accepted)
include h

theorem stop_le_root (hn : n ∈ s.root.inner) : n.stop.byte ≤ s.root.stop.byte :=
  (within_bounds.1 s.root h.tree.nested n hn).2.2

theorem start_lt_logicalEnd (hd : d ∈ s.root.inner) (hin : body ∈ d.inner)
    (hsub : body.isSubstantial) : body.start.byte < d.logicalEnd.byte := by
  have hwidth : body.hasWidth := (Bool.and_eq_true_iff.1 hsub).2
  have hlt := Node.start_lt_logicalEnd (h.tree.nested_of_mem (inner_trans hd hin)) hwidth
  have hle := logicalEnd_mono (h.tree.nested_of_mem hd) hin hsub fun c hc hcomment => by
    simp [inner_of_leaf (h.tree.children_of_comment (inner_trans hd hc) hcomment)]
  omega

variable (hd : d ∈ s.root.inner) (hchildren : d.children = fronts ++ colon :: backs)
include hd hchildren

theorem filled_around : Filled s.text d.start.byte (terminalsAll fronts) colon.start.byte ∧
    Filled s.text colon.stop.byte (terminalsAll backs) d.stop.byte := by
  have hfilled := (h.tree.sound d hd).filled (by simp [hchildren])
  rw [hchildren] at hfilled
  obtain ⟨hfronts, hbacks⟩ := hfilled.of_append
  refine ⟨filled_terminals.2 fronts (fun n hn => h.tree.sound n ?_) _ _ hfronts,
    filled_terminals.2 backs (fun n hn => h.tree.sound n ?_) _ _ hbacks⟩
  · exact inner_of_children hd hchildren (by simp [hn])
  · exact inner_of_children hd hchildren (by simp [hn])

theorem exists_within :
    ∃ y, Forest.Within d.start.byte fronts y ∧ y ≤ colon.start.byte := by
  have hwithin := (h.tree.sound d hd).within
  rw [hchildren] at hwithin
  obtain ⟨y, hfronts, hle, -⟩ := hwithin.of_append
  exact ⟨y, hfronts, hle⟩

/-- A text is cut where a definition, its colon and its body start. -/
theorem exists_places (hcolon : s.nodeText colon = [':']) (hbody : body ∈ s.root.inner)
    (hle : colon.stop.byte ≤ body.start.byte) : ∃ before front back rest,
      s.text = before ++ front ++ ':' :: back ++ rest ∧ d.start = Location.origin.after before ∧
      colon.start = Location.origin.after (before ++ front) ∧
      colon.stop = Location.origin.after (before ++ front ++ [':']) ∧
      body.start = Location.origin.after (before ++ front ++ ':' :: back) ∧
      s.behind colon.stop = back ++ rest := by
  have hcolonIn : colon ∈ s.root.inner := inner_of_children hd hchildren (by simp)
  obtain ⟨y, hfront, hle'⟩ := h.exists_within hd hchildren
  have hfront := hfront.le.trans hle'
  obtain ⟨before, ⟨rest₀, hrest₀⟩, hstart⟩ := (h.tree.sound d hd).start
  rw [hstart, Location.origin_after_byte] at hfront
  obtain ⟨front, rest₁, rfl, hcolonStart⟩ :=
    (h.tree.sound colon hcolonIn).start.exists_after hrest₀.symm hfront
  rw [← List.append_assoc] at hrest₀
  obtain ⟨rest₂, rfl, hcolonStop, hbehind⟩ := h.exists_nodeText hcolonIn hrest₀.symm
    (by rw [hcolonStart, Location.origin_after_byte])
  rw [hcolon] at hcolonStop hrest₀
  rw [hcolonStop, Location.origin_after_byte] at hle
  rw [← List.append_assoc] at hrest₀
  obtain ⟨back, rest, rfl, hbodyStart⟩ :=
    (h.tree.sound body hbody).start.exists_after hrest₀.symm hle
  refine ⟨before, front, back, rest, ?_, hstart, hcolonStart, hcolonStop, ?_, hbehind⟩
  · simpa using hrest₀.symm
  · simpa using hbodyStart

/-- The character that starts a comment behind a colon is one of a comment. -/
theorem exists_comment (hbacks : ∀ n ∈ terminalsAll backs, n.start.byte < body.start.byte →
      n.stop.byte ≤ body.start.byte ∧ (n.kind = .comment ∨ ∀ c ∈ s.nodeText n, c ∉ special))
    (hbody : body.start.byte ≤ d.stop.byte)
    (htext : s.text = before ++ front ++ ':' :: (u ++ '#' :: v) ++ rest)
    (hcolonStop : colon.stop = Location.origin.after (before ++ front ++ [':']))
    (hbodyStart : body.start = Location.origin.after (before ++ front ++ ':' :: (u ++ '#' :: v))) :
    ∃ n ∈ s.root.inner, n.kind = .comment ∧
      n.start.byte ≤ byteSize (before ++ front ++ ':' :: u) ∧
      byteSize (before ++ front ++ ':' :: u) < n.stop.byte := by
  have hhash : s.text = (before ++ front ++ ':' :: u) ++ '#' :: (v ++ rest) := by
    rw [htext]
    simp
  have hbetween : colon.stop.byte ≤ byteSize (before ++ front ++ ':' :: u) ∧
      byteSize (before ++ front ++ ':' :: u) < body.start.byte := by
    have := Char.utf8Size_pos '#'
    simp only [hcolonStop, hbodyStart, Location.origin_after_byte, Text.byteSize_append,
      Text.byteSize_cons, Text.byteSize_nil]
    omega
  obtain ⟨n, hn, hstart, hstop⟩ := (h.filled_around hd hchildren).2.exists_mem hhash hbetween.1
    (by omega) (by decide)
  have hroot := inner_of_children hd hchildren (n := n) (by simp [terminals_subset.2 backs n hn])
  refine ⟨n, hroot, ?_, hstart, hstop⟩
  refine ((hbacks n hn (by omega)).2).resolve_right fun hplain => ?_
  exact hplain '#' (h.mem_nodeText hroot hhash hstart hstop) (by decide)

/-- A scan reads the text before a colon where each of its literals reads as one on its own. -/
theorem reads_front (htokens : ∀ n ∈ terminalsAll fronts, s.IsToken n)
    (halone : ∀ n ∈ terminalsAll fronts, n.kind = .string → s.ReadsAlone n)
    (hlt : colon.start.byte < s.root.stop.byte) (htext : s.text = before ++ (front ++ rest))
    (hstart : d.start = Location.origin.after before)
    (hcolonStart : colon.start = Location.origin.after (before ++ front)) :
    Reads 0 front ((terminalsAll fronts).foldl s.depthBehind 0) rest := by
  have hfilled := (h.filled_around hd hchildren).1
  obtain ⟨y, hfront, hle⟩ := h.exists_within hd hchildren
  have hnested := (h.tree.nested_of_mem hd).inner
  rw [Node.inner, hchildren, preorderAll_append] at hnested
  have hfacts : ∀ n ∈ terminalsAll fronts, n ∈ s.root.inner ∧ s.IsToken n ∧
      (n.kind = .string → s.ReadsAlone n) ∧ n.stop.byte < s.root.stop.byte := by
    intro n hn
    have hnin := terminals_subset.2 fronts n hn
    have hbounds := within_bounds.2 fronts (fun n hn => hnested n (List.mem_append_left _ hn)) _ _
      hfront n hnin
    exact ⟨inner_of_children hd hchildren (by simp [hnin]), htokens n hn, halone n hn, by omega⟩
  rw [hstart, hcolonStart, Location.origin_after_byte, Location.origin_after_byte] at hfilled
  obtain ⟨w, v, hsplit, hsize, hreads⟩ := h.reads_filled hfacts hfilled htext
  rw [Text.byteSize_append, Text.byteSize_append, Nat.add_left_cancel_iff] at hsize
  obtain ⟨rfl, rfl⟩ := Text.append_inj_of_byteSize hsplit hsize.symm
  exact hreads 0

end Accepted

theorem Accepted.exists_headerText (h : s.Accepted) (hd : d ∈ s.root.inner)
    (hheaded : s.Headed d) (hbody : d.firstStatement? = some body) :
    ∃ parts ∈ splitColon? d.children, ∃ before front back rest,
      HeaderText s d parts.2.1 body before front back rest := by
  obtain ⟨⟨fronts, colon, backs⟩, hparts, ⟨hcolon, hsingle, htokens, hdepth⟩, hbehind⟩ := hheaded
  obtain ⟨hbodyLe, ⟨c, hc, hsolid⟩, hbacks⟩ := hbehind body hbody
  dsimp only at *
  obtain ⟨hchildren, -⟩ := eq_of_splitColon? hparts
  have hbodyIn := inner_trans hd (firstStatement?_mem hbody)
  obtain ⟨before, front, back, rest, htext, hstart, hcolonStart, hcolonStop, hbodyStart, hend⟩ :=
    h.exists_places hd hchildren hcolon hbodyIn hbodyLe
  obtain ⟨v, rfl, -⟩ := h.exists_nodeText hbodyIn htext
    (by rw [hbodyStart, Location.origin_after_byte])
  have hbodyWidth : body.hasWidth := by
    by_contra hwidth
    simp [h.nodeText_eq_nil hbodyIn hwidth] at hc
  have hsub : body.isSubstantial := by
    simp [isSubstantial, firstStatement?_not_comment hbody, hbodyWidth]
  have hbodyStop :=
    (within_bounds.1 d (h.tree.nested_of_mem hd) body (firstStatement?_mem hbody)).2.2
  have hrootStop := h.stop_le_root hbodyIn
  have hlt : body.start.byte < body.stop.byte := by simpa [hasWidth] using hbodyWidth
  refine ⟨_, hparts, before, front, back, s.nodeText body ++ v, htext, hstart, hcolonStart,
    hcolonStop, hbodyStart, h.start_lt_logicalEnd hd (firstStatement?_mem hbody) hsub,
    by rwa [hend] at hsingle, ?_, ?_, ?_, ?_⟩
  · have hfilled := (h.filled_around hd hchildren).2
    have hassoc : before ++ front ++ ':' :: back = before ++ front ++ [':'] ++ back := by simp
    rw [hcolonStop, Location.origin_after_byte] at hfilled
    rw [hbodyStart, hassoc, Location.origin_after_byte] at hbacks hlt
    rw [hassoc] at htext
    refine h.idle_filled (fun n hn => ⟨?_, hbacks n hn⟩) hfilled htext (by omega) (by omega)
    exact inner_of_children hd hchildren (by simp [terminals_subset.2 backs n hn])
  · rintro u v rfl
    exact h.exists_comment hd hchildren hbacks (by omega) htext hcolonStop hbodyStart
  · obtain ⟨tail, htail⟩ := List.head?_eq_some_iff.1 hc
    exact ⟨c, by rw [htail]; rfl, hsolid⟩
  · intro halone
    have hstop : colon.start.byte ≤ colon.stop.byte :=
      (h.tree.sound colon (inner_of_children hd hchildren (by simp))).within.le
    have htext' : s.text = before ++ (front ++ (':' :: back ++ (s.nodeText body ++ v))) := by
      simpa using htext
    have hreads := h.reads_front hd hchildren htokens (halone _ hparts) (by omega) htext' hstart
      hcolonStart
    rwa [hdepth] at hreads

/-- The code of a definition goes on behind its header. -/
theorem Accepted.definitionText_eq (h : s.Accepted) {before before' front back rest rest' : Text}
    (hs : Stands s d before' rest') (ht : HeaderText s d colon body before front back rest) :
    before' = before ∧ ∃ c tail, s.definitionText d = front ++ ':' :: back ++ c :: tail ∧
      c :: tail <+: rest ∧ c ∉ separators := by
  have hbyte (t : Text) := Location.origin_after_byte t
  have htext := (h.text_eq hs).symm.trans ht.text
  simp only [List.append_assoc] at htext
  have hsize : byteSize before' = byteSize before := by
    rw [← hbyte before', ← hs.start, ht.start, hbyte]
  obtain ⟨rfl, hbehind⟩ := Text.append_inj_of_byteSize htext hsize
  have hlt := ht.bodyEnd
  rw [ht.bodyStart, hs.stop, hbyte, hbyte, List.append_assoc, Text.byteSize_append before',
    Text.byteSize_append before', Nat.add_lt_add_iff_left] at hlt
  rw [← List.append_assoc front] at hbehind
  obtain ⟨code, hcode⟩ : front ++ ':' :: back <+: s.definitionText d :=
    Text.prefix_of_byteSize_le ⟨rest, hbehind.symm⟩ ⟨rest', rfl⟩ (by omega)
  rw [← hcode, List.append_assoc] at hbehind
  obtain rfl := List.append_cancel_left hbehind
  obtain ⟨c, hc, hsolid⟩ := ht.solid
  cases code with
  | nil =>
      rw [← hcode, List.append_nil] at hlt
      omega
  | cons d code =>
      obtain rfl : d = c := by simpa using hc
      exact ⟨rfl, d, code, hcode.symm, ⟨rest', rfl⟩, hsolid⟩

end Source

end DocstringEditor.Analysis
