import DocstringEditor.Proofs.Analysis.Answer

namespace DocstringEditor.Syntax.Node.Sound

variable {T : Text} {n m : Node} {ls : List Node}

theorem bare (h : n.Sound T) (hkind : n.kind = .expressionStatement) (hm : n.namedChildren = [m])
    (hliteral : m.unparenthesized.kind = .string ∨ m.unparenthesized.kind = .concatenatedString) :
    ∃ ls, m.unparenthesized.IsLiteral ls ∧ Bare ls n.leaves := by
  have hne : n.children ≠ [] := by
    intro hnil
    simp [namedChildren, hnil] at hm
  obtain ⟨hlegible, hchildren⟩ := (h.statement hkind hne).eq_of_named hm
  obtain ⟨ls, hls, henclosed⟩ := hlegible.enclosed hliteral
  refine ⟨ls, hls, ?_⟩
  rw [leaves_of_ne (by simp [hkind]) hne]
  rcases hchildren with hchildren | ⟨c, hchildren, hc, hleaf⟩
  · rw [hchildren, Forest.leaves_cons, Forest.leaves_nil, List.append_nil]
    exact .inl henclosed
  · rw [hchildren]
    exact .inr ⟨m.leaves, c, by simp [Forest.leaves_cons, leaves_of_leaf hleaf], hc, henclosed⟩

theorem sole (h : n.Sound T) (hkind : n.kind = .expressionStatement) (hbare : Bare ls n.leaves) :
    ∃ m, n.namedChildren = [m] ∧ m.unparenthesized.IsLiteral ls := by
  have hne : n.children ≠ [] := by
    intro hnil
    rw [leaves_of_leaf hnil, ← List.nil_append [n]] at hbare
    have henclosed := hbare.enclosed_of_last (by simp [hkind])
    have := henclosed.kind_of_mem (List.mem_singleton_self n)
    simp [hkind, isExtra, Kind.isExtra] at this
  rw [leaves_of_ne (by simp [hkind]) hne] at hbare
  exact (h.statement hkind hne).isLiteral hbare

end DocstringEditor.Syntax.Node.Sound

namespace DocstringEditor.Analysis

open Syntax Syntax.Node

variable {parse : Parse} {text : Text} {s : Source} {n statement : Node} {ls : List Node}

namespace Source

/-- Whether a node is a string literal without one of the letters `b`, `f` and `t`, in either case,
before its quotes. -/
def IsText (s : Source) (l : Node) : Prop :=
  l.kind = .string ∧
    ∀ c ∈ (s.nodeText l).takeWhile Char.isAlpha, c ∉ ['b', 'B', 'f', 'F', 't', 'T']

/-- Whether a statement is literals `ls` inside of parentheses, with at most a comma behind, all of
them text or comments. -/
structure HoldsText (s : Source) (statement : Node) (ls : List Node) : Prop where
  kind : statement.kind = .expressionStatement
  bare : Bare ls statement.leaves
  text : ∀ l ∈ ls, l.isComment ∨ s.IsText l

theorem toLower_mem_iff {c : Char} :
    c.toLower ∈ ['b', 'f', 't'] ↔ c ∈ ['b', 'B', 'f', 'F', 't', 'T'] := by
  constructor
  · intro h
    unfold Char.toLower at h
    split at h
    · have hupper {d : Char} (h : c.val + ('a'.val - 'A'.val) = d.val) :
          c.val = d.val - ('a'.val - 'A'.val) := by grind
      simp only [List.mem_cons, List.not_mem_nil, or_false, Char.ext_iff] at h ⊢
      rcases h with h | h | h
      · exact .inr (.inl (hupper h))
      · exact .inr (.inr (.inr (.inl (hupper h))))
      · exact .inr (.inr (.inr (.inr (.inr (hupper h)))))
    · grind
  · have hall : ['b', 'B', 'f', 'F', 't', 'T'].all fun c => c.toLower ∈ ['b', 'f', 't'] := by decide
    exact fun h => of_decide_eq_true (List.all_eq_true.1 hall c h)

theorem isText_iff {l : Node} : s.IsText l ↔ l.kind = .string ∧ s.isTextLiteral l := by
  simp only [IsText, isTextLiteral, List.all_eq_true, decide_eq_true_eq, toLower_mem_iff]

theorem isDocstring_iff (h : n.IsLiteral ls) :
    s.isDocstring n ↔ ∀ l ∈ ls, l.isComment ∨ s.IsText l := by
  rcases h.kind with ⟨hkind, rfl⟩ | ⟨hkind, rfl⟩
  · have hcomment : ¬n.isComment := by simp [isComment, hkind]
    simp [isDocstring, hkind, isText_iff, hcomment]
  · have hnamed : n.namedChildren = n.children := by
      refine List.filter_eq_self.2 fun l hl => ?_
      rcases h.literals.leaf l hl with hstring | ⟨hextra, -⟩
      · simp [isNamed, hstring, Kind.isNamed]
      · exact isNamed_of_isExtra hextra
    simp only [isDocstring, hkind, hnamed, List.all_eq_true, List.mem_filter, isText_iff]
    grind

theorem literal_of_isDocstring (h : s.isDocstring n) :
    n.kind = .string ∨ n.kind = .concatenatedString := by
  unfold isDocstring at h
  split at h
  · exact .inl ‹_›
  · exact .inr ‹_›
  · cases h

theorem sound_firstStatement (h : s.Accepted)
    (hn : n = s.root ∨ n ∈ s.root.inner ∧ n.isDefinition)
    (hstatement : n.firstStatement? = some statement) : statement.Sound s.text := by
  refine h.tree.sound statement ?_
  rcases hn with rfl | ⟨hn, -⟩
  · exact firstStatement?_mem hstatement
  · exact inner_trans hn (firstStatement?_mem hstatement)

/-- The docstring is the first statement where that holds text alone, from the first of its
literals to the last. -/
theorem docstringRange?_iff (hparse : parse.Faithful) (h : Source.parse parse text = .ok s)
    (hn : n = s.root ∨ n ∈ s.root.inner ∧ n.isDefinition) (r : DocumentRange) :
    s.docstringRange? n = some r ↔ ∃ statement ls a b, n.firstStatement? = some statement ∧
      s.HoldsText statement ls ∧ ls.head?.map Node.start = some a ∧
      ls.getLast?.map Node.stop = some b ∧ r = .ofLocations a b := by
  have hsound {statement : Node} (hstatement : n.firstStatement? = some statement) :=
    sound_firstStatement (hparse.accepted h) hn hstatement
  constructor
  · intro hr
    obtain ⟨statement, only, hstatement, hkind, honly, hdocstring, rfl⟩ :=
      docstringRange?_eq_some_iff.1 hr
    obtain ⟨ls, hls, hbare⟩ :=
      (hsound hstatement).bare hkind honly (literal_of_isDocstring hdocstring)
    exact ⟨statement, ls, _, _, hstatement,
      ⟨hkind, hbare, (isDocstring_iff hls).1 hdocstring⟩, hls.start, hls.stop, rfl⟩
  · rintro ⟨statement, ls, a, b, hstatement, hholds, ha, hb, rfl⟩
    obtain ⟨only, honly, hls⟩ := (hsound hstatement).sole hholds.kind hholds.bare
    obtain rfl := Option.some.inj (ha.symm.trans hls.start)
    obtain rfl := Option.some.inj (hb.symm.trans hls.stop)
    exact docstringRange?_eq_some_iff.2 ⟨statement, only, hstatement, hholds.kind, honly,
      (isDocstring_iff hls).2 hholds.text, rfl⟩

/-- Two literals with a comment between them, in two pairs of parentheses. -/
theorem docstringRange?_iff_parentheses : ∃ s n,
    Source.parse python "def f():\n    ((\"a\"  # b\n    u'c'))".toList = .ok s ∧
    (n = s.root ∨ n ∈ s.root.inner ∧ n.isDefinition) ∧
    s.docstringRange? n = some ⟨⟨2, 6⟩, ⟨3, 8⟩⟩ ∧
    ∀ r, s.docstringRange? n = some r ↔ ∃ statement ls a b, n.firstStatement? = some statement ∧
      s.HoldsText statement ls ∧ ls.head?.map Node.start = some a ∧
      ls.getLast?.map Node.stop = some b ∧ r = .ofLocations a b := by
  have hparse : (Source.parse python "def f():\n    ((\"a\"  # b\n    u'c'))".toList).toOption.any
      fun s => (s.root.inner.find? isDefinition).any
        fun n => s.docstringRange? n = some ⟨⟨2, 6⟩, ⟨3, 8⟩⟩ := by
    decide +kernel
  obtain ⟨s, hs, hparse⟩ := (Option.any_eq_true _ _).1 hparse
  obtain ⟨n, hn, hrange⟩ := (Option.any_eq_true _ _).1 hparse
  have hs := toOption_eq_some.1 hs
  have hn : n = s.root ∨ n ∈ s.root.inner ∧ n.isDefinition :=
    .inr ⟨List.mem_of_find?_eq_some hn, List.find?_some hn⟩
  exact ⟨s, n, hs, hn, of_decide_eq_true hrange, docstringRange?_iff python_faithful hs hn⟩

/-- A comment between a literal and the parentheses around it. -/
theorem docstringRange?_reachable : ∃ s n statement ls,
    Source.parse python "def f():\n    (\"Doc.\"  # note\n    )\n".toList = .ok s ∧
    n ∈ s.root.inner ∧ n.isDefinition ∧ n.firstStatement? = some statement ∧
    statement.kind = .expressionStatement ∧
    Enclosed ls (statement.leaves.filter (!·.isComment)) ∧ (∀ l ∈ ls, s.IsText l) ∧
    s.docstringRange? n = none := by
  have hparse : (Source.parse python "def f():\n    (\"Doc.\"  # note\n    )\n".toList).toOption.any
      fun s => (s.root.inner.find? isDefinition).any fun n => n.firstStatement?.any
        fun statement => statement.kind = .expressionStatement && s.docstringRange? n = none &&
          (statement.leaves.filter (!·.isComment)).map Node.kind =
            [.mark "(", .string, .mark ")"] &&
          (statement.leaves.filter (!·.isComment)).all s.isTextLiteral := by
    decide +kernel
  obtain ⟨s, hs, hparse⟩ := (Option.any_eq_true _ _).1 hparse
  obtain ⟨n, hn, hparse⟩ := (Option.any_eq_true _ _).1 hparse
  obtain ⟨statement, hstatement, hparse⟩ := (Option.any_eq_true _ _).1 hparse
  simp only [Bool.and_eq_true, decide_eq_true_eq] at hparse
  obtain ⟨⟨⟨hkind, hrange⟩, hkinds⟩, hleaves⟩ := hparse
  obtain ⟨o, _, ho, hok, hkinds⟩ := List.map_eq_cons_iff.1 hkinds
  obtain ⟨l, _, rfl, hl, hkinds⟩ := List.map_eq_cons_iff.1 hkinds
  obtain ⟨c, rfl, hc⟩ := List.map_eq_singleton_iff.1 hkinds
  have htext := List.all_eq_true.1 hleaves l (by simp [ho])
  refine ⟨s, n, statement, [l], toOption_eq_some.1 hs, List.mem_of_find?_eq_some hn,
    List.find?_some hn, hstatement, hkind, ?_, ?_, hrange⟩
  · rw [ho]
    exact .parentheses hok hc (.bare (isLiteral_string hl).literals)
  · intro m hm
    obtain rfl := List.mem_singleton.1 hm
    exact isText_iff.2 ⟨hl, htext⟩

end Source

end DocstringEditor.Analysis
