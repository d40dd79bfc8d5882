import DocstringEditor.Proofs.Syntax.SimpleStatement
import DocstringEditor.Syntax.Statement

namespace DocstringEditor.Syntax

open Forest (Spans Plain Laid Begun lead? definitions)

variable {T : Text} {s s' : Scan} {l : Lexeme} {a : Location} {ps qs : Forest} {lo : Nat}
variable {k : Kind} {α : Type}

structure Starts (T : Text) (lo : Nat) (a : Location) (ps : Forest) (s : Scan) : Prop
    extends Reads T a ps s where
  lead : ∃ n, lead? ps = some n ∧ lo ≤ n.start.row

structure Suite (T : Text) (a : Location) (ps : Forest) (s : Scan) : Prop where
  here : s.In T
  laid : Laid T a.row a ps s.here
  plain : ∀ n ∈ ps, ¬n.isDefinition
  ends : EndsLine s.rest

structure Closes (T : Text) (lo : Nat) (a : Location) (ps : Forest) (s : Scan) : Prop where
  here : s.In T
  begun : Begun T lo a ps s.here
  ends : EndsLine s.rest

structure Block (T : Text) (a : Location) (ps : Forest) (s : Scan) : Prop where
  here : s.In T
  laid : Laid T a.row a ps s.here
  lead : ∀ n, lead? ps = some n → n.hasWidth
  ends : definitions ps = [] ∨ EndsLine s.rest

theorem Ahead.row_le (hl : Ahead T s l) : s.here.row ≤ l.start.row :=
  hl.here.place.row_le hl.extras.stop hl.extras.within.le

namespace Starts

theorem append (h : Starts T lo a ps s) (h' : Reads T s.here qs s') :
    Starts T lo a (ps ++ qs) s' := by
  obtain ⟨n, hn, hlo⟩ := h.lead
  exact ⟨h.toReads.append h', n, by simp [Forest.lead?_append, hn], hlo⟩

theorem close (h : Starts T lo a ps s) (h' : Suite T s.here qs s') :
    Closes T lo a (ps ++ qs) s' := by
  have hbegun : Begun T lo a ps s.here := h.plain.begun h.lead
  exact ⟨h'.here, ⟨.plain_append h.plain.toSpans h.plain.plain h.plain.closed
    (h'.laid.mono hbegun.lo_le),
    hbegun.lead_append qs⟩, h'.ends⟩

theorem append_closes {lo' : Nat} (h : Starts T lo a ps s) (hlo : s.here.row ≤ lo')
    (h' : Closes T lo' s.here qs s') : Closes T lo a (ps ++ qs) s' := by
  have hbegun : Begun T lo a ps s.here := h.plain.begun h.lead
  have hle := Nat.le_trans hbegun.lo_le hlo
  exact ⟨h'.here, ⟨.plain_append h.plain.toSpans h.plain.plain h.plain.closed
    (h'.begun.toLaid.mono hle),
    hbegun.lead_append qs⟩, h'.ends⟩

theorem wrap (h : Starts T lo a ps s) (hk : k.isFree) : Starts T lo a (Forest.wrap k ps) s := by
  obtain ⟨n, hn, -, hlo⟩ := (h.plain.begun h.lead).lead_wrap (Kind.isFree_iff.1 hk).1
  exact ⟨h.toReads.wrap hk, n, hn, hlo⟩

end Starts

theorem Yields.extend {p : Parser Forest} {f : Forest → Parser α} {Q : α → Scan → Prop}
    (h : Starts T lo a ps s) (hp : Yields p s (Reads T s.here))
    (hf : ∀ qs s', Starts T lo a (ps ++ qs) s' → Yields (f qs) s' Q) : Yields (p >>= f) s Q :=
  .bind (hp.mono fun qs s' h' => hf qs s' (h.append h'))

theorem Ahead.starts (hl : Ahead T s l) (hsolid : l.token.isSolid) :
    Yields (Parser.take l) s' (Starts T l.start.row s.here) := by
  intro ps s₁ hps
  refine ⟨hl.take hsolid ps s₁ hps, ?_⟩
  obtain ⟨rfl, rfl⟩ : l.leaf _ = ps ∧ l.next = s₁ := by
    simpa [Parser.take, Parser.takeAs] using hps
  refine ⟨_, Forest.lead?_extras_append hl.isExtra ?_, Nat.le_refl _⟩
  simp only [Node.isExtra, Node.leaf, Node.kind]
  split <;> simp [Kind.isExtra]

/-- What may stand before a token: nothing, or nodes of the phrase that it belongs to. -/
def Opens (T : Text) (lo : Nat) (a : Location) (ps : Forest) (s : Scan) (l : Lexeme) : Prop :=
  ps = [] ∧ a = s.here ∧ lo = l.start.row ∨ Starts T lo a ps s

theorem Opens.take {f : Forest → Parser α} {Q : α → Scan → Prop} (h : Opens T lo a ps s l)
    (hl : Ahead T s l) (hsolid : l.token.isSolid)
    (hf : ∀ qs s', Starts T lo a (ps ++ qs) s' → Yields (f qs) s' Q) :
    Yields (Parser.take l >>= f) s Q := by
  rcases h with ⟨rfl, rfl, rfl⟩ | h
  · exact .bind ((hl.starts hsolid).mono fun qs s' h => hf qs s' h)
  · exact .extend h (hl.take hsolid) hf

namespace Suite

theorem prepend (h : Reads T a ps s) (h' : Suite T s.here qs s') : Suite T a (ps ++ qs) s' := by
  have hrow := h.plain.start.row_le h.plain.stop h.plain.within.le
  refine ⟨h'.here, .plain_append h.plain.toSpans h.plain.plain h.plain.closed
    (h'.laid.mono hrow), ?_, h'.ends⟩
  intro n hn
  rcases List.mem_append.1 hn with hn | hn
  · exact h.plain.not_isDefinition hn
  · exact h'.plain n hn

theorem withRole (h : Suite T a ps s) (r : Role) : Suite T a (Forest.withRole r ps) s := by
  refine ⟨h.here, h.laid.withRole r h.plain, fun n hn => ?_, h.ends⟩
  obtain ⟨m, hm, hkind, -⟩ := Forest.mem_withRole hn
  have := h.plain m hm
  unfold Node.isDefinition at this ⊢
  rwa [hkind]

end Suite

namespace Closes

theorem wrap (h : Closes T lo a ps s) (hk : k.isFree) : Closes T lo a (Forest.wrap k ps) s :=
  ⟨h.here, h.begun.wrap hk, h.ends⟩

theorem append (h : Closes T lo a ps s) (hl : Ahead T s l) (hsolid : l.token.isSolid)
    (h' : Closes T l.start.row s.here qs s') : Closes T lo a (ps ++ qs) s' := by
  have hrow := hl.row_lt h.ends (.inl hsolid)
  have hle := h.begun.lo_le
  exact ⟨h'.here, h.begun.append h'.begun.toLaid (by omega) hrow, h'.ends⟩

theorem states (h : Closes T l.start.row s.here ps s') (hsolid : l.token.isSolid) :
    States T s l ps s' := ⟨h.here, h.ends, .inr ⟨hsolid, h.begun⟩⟩

end Closes

namespace Block

theorem refl (hs : s.In T) : Block T s.here [] s :=
  ⟨hs, (Plain.refl hs.place).laid, by simp [lead?], .inl rfl⟩

theorem append (h : Block T a ps s) (hl : Ahead T s l) (h' : States T s l qs s') :
    Block T a (ps ++ qs) s' := by
  have hlead {qs : Forest} (hqs : ∀ n, lead? qs = some n → n.hasWidth) (n : Node)
      (hn : lead? (ps ++ qs) = some n) : n.hasWidth := by
    rw [Forest.lead?_append, Option.or_eq_some_iff] at hn
    exact hn.elim (h.lead n) fun hn => hqs n hn.2
  rcases h'.nodes with hplain | ⟨hsolid, hbegun⟩
  · exact ⟨h'.here, h.laid.append_plain hplain,
      hlead fun n hn => hplain.wide n (Forest.mem_of_lead? hn).1, .inr h'.ends⟩
  · refine ⟨h'.here, ?_, hlead fun n hn => hbegun.hasWidth_of_lead? hn, .inr h'.ends⟩
    have hrow := h.laid.start.row_le h.laid.stop h.laid.within.le
    have hle := hl.row_le
    rcases h.ends with hnone | hends
    · exact .plain_append h.laid.toSpans hnone h.laid.closed (hbegun.toLaid.mono (by omega))
    · exact h.laid.append hbegun.toLaid (by omega) (hl.row_lt hends (.inl hsolid))

theorem suite (h : Block T a ps s) (hends : EndsLine s.rest) :
    Suite T a (Forest.wrap .block ps) s := by
  refine ⟨h.here, h.laid.wrap h.lead rfl, fun n hn => ?_, hends⟩
  rcases Forest.mem_wrap hn with hextra | hkind
  · unfold Node.isExtra at hextra
    unfold Node.isDefinition
    cases hk : n.kind <;> simp_all [Kind.isExtra]
  · simp [Node.isDefinition, hkind]

end Block

theorem Reads.block (h : Reads T a ps s) : Block T a ps s :=
  ⟨h.here, h.plain.laid, fun n hn => h.plain.wide n (Forest.mem_of_lead? hn).1, .inl h.plain.plain⟩

namespace Parser

open Forest (wrap)

variable {g : Grammar} {nested : Bool} {start : Forest}

theorem emptyBlock_suite (hl : Ahead T s l) (htoken : l.token = .newline) :
    Yields (emptyBlock l) s' (Suite T s.here) := by
  intro ps s₁ hps
  have heq : emptyBlock l s' = some (l.extras ++ [.leaf .block l.start l.start], l.next) := rfl
  obtain ⟨rfl, rfl⟩ := Prod.mk.inj (Option.some.inj (heq.symm.trans hps))
  have hplace := hl.extras.stop
  have hstop : l.next.here = l.start := hl.layout (by simp [htoken])
  have hleaf : Spans T l.start [.leaf .block l.start l.start] l.next.here := by
    refine ⟨hplace, hl.next.place, ⟨Nat.le_refl _, Nat.le_refl _, hl.le⟩,
      ⟨.refl hplace, hstop.symm ▸ .refl hplace⟩, fun n hn => ?_⟩
    obtain rfl : n = .leaf .block l.start l.start := by
      simpa [Node.preorder_eq, Node.inner, Node.leaf, Node.children] using hn
    exact sound_leaf hplace hplace (Nat.le_refl _) (by decide) (by decide)
      (fun _ _ hlt => absurd hlt (Nat.lt_irrefl _)) fun hlt => absurd hlt (Nat.lt_irrefl _)
  have hnone : definitions [.leaf .block l.start l.start] = [] := rfl
  have hclosed : (Node.leaf .block l.start l.start).Closed :=
    ⟨fun h => (by cases h), fun _ hn => absurd hn List.not_mem_nil⟩
  refine ⟨hl.next, .plain_append hl.extras.toSpans hl.extras.plain hl.extras.closed
    ⟨hleaf, by simpa, by simp [hnone], by simp [hnone]⟩, fun n hn => ?_, hl.ends (.inl htoken)⟩
  rcases List.mem_append.1 hn with hn | hn
  · exact hl.extras.not_isDefinition hn
  · obtain rfl := List.mem_singleton.1 hn
    simp [Node.isDefinition, Node.leaf, Node.kind]

section

variable (hg : g.Sound T)
include hg

theorem blockStatements_block (hs : s.In T) : Yields (blockStatements g) s
    fun ps s' => Block T s.here ps s' ∧ EndsLine s'.rest := by
  refine .loop (I := Block T s.here) (.refl hs) fun parts s₁ h => .peek h.here fun l hl => ?_
  refine .ite (fun htoken => ?_) fun _ => ?_
  · refine .bind ((hl.takeEnd (.inr htoken)).mono fun qs s₂ h' => ?_)
    obtain ⟨h', hends⟩ := h'
    exact .pure ⟨h.append hl ⟨h'.here, hends, .inl h'.plain⟩, hends⟩
  · exact .bind ((hg.statement true hl).mono fun _ _ h' => .pure (h.append hl h'))

theorem suite_suite (hs : s.In T) : Yields (suite g) s (Suite T s.here) := by
  refine .peek hs fun l hl => ?_
  split
  case h_1 htoken => exact emptyBlock_suite hl htoken
  case h_2 htoken =>
    refine .bind ((hl.takeLayout (by simp [htoken])).mono fun _ _ h => ?_)
    exact .bind ((blockStatements_block hg h.here).mono fun _ _ h' =>
      .pure ((h'.1.suite h'.2).prepend h))
  case h_3 =>
    exact .bind ((simpleStatements_reads hg hl).mono fun _ _ h => .pure (h.1.block.suite h.2))

theorem colonSuite_suite (hs : s.In T) : Yields (colonSuite g) s (Suite T s.here) := by
  refine .bind ((mark_reads hs).mono fun _ _ h => ?_)
  exact .bind ((suite_suite hg h.here).mono fun _ _ h' => .pure (h'.prepend h))

/-- A phrase that a colon and a block end. -/
theorem closeWith (h : Starts T lo a start s) (hk : k.isFree) :
    Yields (do return wrap k (start ++ (← colonSuite g))) s (Closes T lo a) :=
  .bind ((colonSuite_suite hg h.here).mono fun _ _ h' => .pure ((h.close h').wrap hk))

theorem elseClause_closes (h : Closes T lo a start s) :
    Yields (elseClause g nested) s fun qs => Closes T lo a (start ++ qs) := by
  refine .peek h.here fun l hl => .ite (fun hname => ?_) fun _ => ?_
  · have hsolid := Lexeme.isSolid_of_isName hname
    refine .bind ((hl.starts hsolid).mono fun _ _ h' => ?_)
    exact (closeWith hg h' rfl).mono fun _ _ h' => h.append hl hsolid h'
  · exact .pure (by simpa using h)

theorem ifStatement_closes (hl : Ahead T s l) (hsolid : l.token.isSolid) :
    Yields (ifStatement g l nested) s (Closes T l.start.row s.here) := by
  refine .bind ((hl.starts hsolid).mono fun _ _ h => ?_)
  refine .extend h (expression_reads hg h.here) fun _ _ h => ?_
  refine .bind ((colonSuite_suite hg h.here).mono fun _ _ h' => ?_)
  refine .bind (.mono (R := Closes T l.start.row s.here) ?_ fun _ _ h => .pure (h.wrap rfl))
  refine .loop (h.close h') fun _ _ h => .peek h.here fun l hl => ?_
  refine .ite (fun hname => ?_) fun _ => ?_
  · have hsolid := Lexeme.isSolid_of_isName hname
    refine .bind ((hl.starts hsolid).mono fun _ _ h' => ?_)
    refine .extend h' (expression_reads hg h'.here) fun _ _ h' => ?_
    exact .bind ((colonSuite_suite hg h'.here).mono fun _ _ h'' =>
      .pure (h.append hl hsolid ((h'.close h'').wrap rfl)))
  · exact .bind ((elseClause_closes hg h).mono fun _ _ h => .pure h)

theorem whileStatement_closes (hl : Ahead T s l) (hsolid : l.token.isSolid) :
    Yields (whileStatement g l nested) s (Closes T l.start.row s.here) := by
  refine .bind ((hl.starts hsolid).mono fun _ _ h => ?_)
  refine .extend h (expression_reads hg h.here) fun _ _ h => ?_
  refine .bind ((colonSuite_suite hg h.here).mono fun _ _ h' => ?_)
  exact .bind ((elseClause_closes hg (h.close h')).mono fun _ _ h => .pure (h.wrap rfl))

theorem forStatement_closes (h : Opens T lo a start s l) (hl : Ahead T s l)
    (hsolid : l.token.isSolid) : Yields (forStatement g start l nested) s (Closes T lo a) := by
  refine h.take hl hsolid fun _ _ h => ?_
  refine .extend h (targets_reads hg h.here) fun _ _ h => ?_
  refine .extend h (keyword_reads h.here) fun _ _ h => .peek h.here fun first hfirst => ?_
  refine .extend h (expressions_reads hg hfirst) fun _ _ h => ?_
  refine .bind ((colonSuite_suite hg h.here).mono fun _ _ h' => ?_)
  exact .bind ((elseClause_closes hg (h.close h')).mono fun _ _ h => .pure (h.wrap rfl))

theorem withStatement_closes (h : Opens T lo a start s l) (hl : Ahead T s l)
    (hsolid : l.token.isSolid) : Yields (withStatement g start l) s (Closes T lo a) := by
  refine h.take hl hsolid fun _ _ h => .peek h.here fun first hfirst => ?_
  refine .extend h (expressions_reads hg hfirst) fun _ _ h => ?_
  exact closeWith hg h rfl

theorem exceptClause_closes {grouped : Bool} (hl : Ahead T s l) (hsolid : l.token.isSolid) :
    Yields (exceptClause g l grouped) s (Closes T l.start.row s.here) := by
  unfold exceptClause
  extract_lets star last behindStar behindCheck
  have hlast {parts : Forest} {s₁ : Scan} (h : Starts T l.start.row s.here parts s₁) :
      Yields (last parts) s₁ (Closes T l.start.row s.here) := closeWith hg h rfl
  have hstar {start : Forest} {s₁ : Scan} (h : Starts T l.start.row s.here start s₁) :
      Yields (behindStar start) s₁ (Closes T l.start.row s.here) := by
    refine .peek h.here fun first hfirst => ?_
    refine .ite (fun _ => ?_) fun _ => .ite (fun _ => ?_) fun _ => ?_
    · exact .extend h (expressions_reads hg hfirst) fun _ _ h => .bind (.pure (hlast h))
    · exact .bind .failure
    · exact .bind (.pure (hlast h))
  refine .ite (fun _ => .bind .failure) fun _ => ?_
  refine .bind ((hl.starts hsolid).mono fun _ _ h => .ite (fun _ => ?_) fun _ => ?_)
  · exact .extend h (mark_reads h.here) fun _ _ h => .bind (.pure (hstar h))
  · exact .bind (.pure (hstar h))

theorem tryStatement_closes (hl : Ahead T s l) (hsolid : l.token.isSolid) :
    Yields (tryStatement g l nested) s (Closes T l.start.row s.here) := by
  refine .bind ((hl.starts hsolid).mono fun _ _ h => ?_)
  refine .bind ((colonSuite_suite hg h.here).mono fun _ _ h' => ?_)
  have h := h.close h'
  refine .peek h.here fun first hfirst => ?_
  extract_lets finallyClause grouped behind
  have hfinally {parts : Forest} {s₁ : Scan} {l' : Lexeme}
      (h : Closes T l.start.row s.here parts s₁) (hl' : Ahead T s₁ l')
      (hname : l'.isName "finally") :
      Yields (finallyClause l') s₁ fun ps => Closes T l.start.row s.here (parts ++ ps) := by
    have hsolid := Lexeme.isSolid_of_isName hname
    refine .bind ((hl'.starts hsolid).mono fun _ _ h' => ?_)
    exact (closeWith hg h' rfl).mono fun _ _ h' => h.append hl' hsolid h'
  refine .ite (fun hname => ?_) fun _ => .ite (fun _ => .bind .failure) fun hname => ?_
  · exact .bind ((hfinally h hfirst hname).mono fun _ _ h => .pure (h.wrap rfl))
  have hexcept : first.isName "except" := by simpa using hname
  have hsolid := Lexeme.isSolid_of_isName hexcept
  refine .bind ((exceptClause_closes hg hfirst hsolid).mono fun _ _ h' => ?_)
  refine .bind (.mono (R := Closes T l.start.row s.here) ?_ fun _ _ h => ?_)
  · refine .loop (h.append hfirst hsolid h') fun _ _ h => .peek h.here fun l hl => ?_
    refine .ite (fun hname => ?_) fun _ => .pure h
    have hsolid := Lexeme.isSolid_of_isName hname
    exact .bind ((exceptClause_closes hg hl hsolid).mono fun _ _ h' =>
      .pure (h.append hl hsolid h'))
  · refine .bind ((elseClause_closes hg h).mono fun _ _ h => .peek h.here fun l hl => ?_)
    refine .ite (fun hname => ?_) fun _ => .pure (h.wrap rfl)
    exact .bind ((hfinally h hl hname).mono fun _ _ h => .pure (h.wrap rfl))

theorem definition_closes {header : Parser Forest} (h : Starts T lo a start s)
    (hk : k.isDefinition) (hheader : ∀ {s : Scan}, s.In T → Yields header s (Reads T s.here)) :
    Yields (definition g k start header) s (Closes T lo a) := by
  refine .peek h.here fun l hl => ?_
  refine .bind ((hl.name.and (Ahead.name_solid l s)).mono fun name s₁ h' => ?_)
  obtain ⟨h', m, hm, hsolid⟩ := h'
  have hname : ∃ m ∈ Forest.withRole .name name, ¬m.isExtra ∧ m.role = some .name := by
    refine ⟨_, List.mem_map_of_mem hm, ?_⟩
    rw [if_neg hsolid]
    obtain ⟨k, role, b, e, cs⟩ := m
    exact ⟨hsolid, rfl⟩
  have h := h.append ⟨h'.here, h'.plain.withRole .name⟩
  refine .peek h.here fun next hnext => ?_
  extract_lets behind
  have hbehind {types : Forest} {s₂ : Scan}
      (h : Starts T lo a (start ++ Forest.withRole .name name ++ types) s₂) :
      Yields (behind (start ++ Forest.withRole .name name ++ types)) s₂ (Closes T lo a) := by
    refine .extend h (hheader h.here) fun header _ h => ?_
    refine .bind (((mark_reads h.here).and (mark_mem {} ":" _)).mono fun colon _ h' => ?_)
    obtain ⟨h', m, hm, hcolon⟩ := h'
    have h := h.append h'
    refine .bind ((suite_suite hg h.here).mono fun body _ h' => .pure ?_)
    have h := h.close (h'.withRole .body)
    refine ⟨h.here, h.begun.wrap_definition hk ?_ ⟨m, by simp [hm], hcolon⟩, h.ends⟩
    obtain ⟨m, hm, hmrole⟩ := hname
    exact ⟨m, by simp [hm], hmrole⟩
  refine .ite (fun hmark => ?_) fun _ => .bind (.pure ?_)
  · have hsolid := Lexeme.isSolid_of_isMark hmark
    refine .extend h (typeParameters_reads hg hnext hsolid) fun _ _ h => ?_
    exact .bind (.pure (hbehind h))
  · have h : Starts T lo a (start ++ Forest.withRole .name name ++ []) s₁ := by simpa using h
    simpa using hbehind h

theorem functionDefinition_closes (h : Opens T lo a start s l) (hl : Ahead T s l)
    (hsolid : l.token.isSolid) : Yields (functionDefinition g start l) s (Closes T lo a) := by
  refine h.take hl hsolid fun _ _ h => definition_closes hg h rfl fun hs => ?_
  refine .bind ((mark_reads hs).mono fun _ _ h => ?_)
  refine .grow h (parameters_reads hg (typeExpression_reads hg) h.here) fun _ _ h => ?_
  refine .grow h (mark_reads h.here) fun _ _ h => ?_
  have h := h.wrap (k := .phrase) rfl
  refine .peek h.here fun arrow harrow => .ite (fun hmark => ?_) fun _ => .pure h
  refine .grow h (harrow.takeMark hmark) fun _ _ h => ?_
  exact .grow h (typeExpression_reads hg h.here) fun _ _ h => .pure h

theorem classDefinition_closes (hl : Ahead T s l) (hsolid : l.token.isSolid) :
    Yields (classDefinition g l) s (Closes T l.start.row s.here) := by
  refine .bind ((hl.starts hsolid).mono fun _ _ h => definition_closes hg h rfl fun hs => ?_)
  refine .peek hs fun opening hopening => .ite (fun hmark => ?_) fun _ => .pure (.refl hs)
  exact arguments_reads hg hopening (Lexeme.isSolid_of_isMark hmark)

theorem asyncStatement_closes (hl : Ahead T s l) (hsolid : l.token.isSolid) :
    Yields (asyncStatement g l nested) s (Closes T l.start.row s.here) := by
  refine .bind ((hl.starts hsolid).mono fun _ _ h => .peek h.here fun next hnext => ?_)
  split
  case h_1 htoken =>
    exact functionDefinition_closes hg (.inr h) hnext (by simp [htoken, Token.isSolid])
  case h_2 htoken => exact forStatement_closes hg (.inr h) hnext (by simp [htoken, Token.isSolid])
  case h_3 htoken => exact withStatement_closes hg (.inr h) hnext (by simp [htoken, Token.isSolid])
  case h_4 => exact .failure

theorem decoratedDefinition_closes (hl : Ahead T s l) :
    Yields (decoratedDefinition g l) s (Closes T l.start.row s.here) := by
  refine .bind (.mono (R := Closes T l.start.row s.here) ?_ fun _ _ h => .pure (h.wrap rfl))
  let I (x : Forest × Lexeme) (s₁ : Scan) :=
    (x = ([], l) ∧ s₁ = s ∨ Starts T l.start.row s.here x.1 s₁) ∧ Ahead T s₁ x.2
  refine .loop (I := I) ⟨.inl ⟨rfl, rfl⟩, hl⟩ fun (parts, l') s₁ ⟨h, hl'⟩ => ?_
  have hlast {ps : Forest} {s' : Scan} (h' : Closes T l'.start.row s₁.here ps s') :
      Closes T l.start.row s.here (parts ++ ps) s' := by
    rcases h with ⟨heq, rfl⟩ | h
    · obtain ⟨rfl, rfl⟩ := Prod.mk.inj heq
      exact h'
    · exact h.append_closes hl'.row_le h'
  refine .ite (fun hmark => ?_) fun _ => ?_
  · refine .bind ((hl'.starts (Lexeme.isSolid_of_isMark hmark)).mono fun _ _ h' => ?_)
    refine .extend h' (expression_reads hg h'.here) fun _ _ h' => ?_
    refine .peek h'.here fun stop hstop => .ite (fun htoken => ?_) fun _ => .failure
    refine .extend h' (hstop.takeLayout (by simp [htoken])) fun _ _ h' => ?_
    refine .peek h'.here fun next hnext => .pure ?_
    refine ⟨.inr ?_, hnext⟩
    have h' := h'.wrap (k := .phrase) rfl
    rcases h with ⟨heq, rfl⟩ | h
    · obtain ⟨rfl, rfl⟩ := Prod.mk.inj heq
      exact h'
    · exact h.append h'.toReads
  split
  case h_1 htoken =>
    have hsolid : l'.token.isSolid := by simp [htoken, Token.isSolid]
    exact .bind ((functionDefinition_closes hg (.inl ⟨rfl, rfl, rfl⟩) hl' hsolid).mono
      fun _ _ h' => .pure (hlast h'))
  case h_2 htoken =>
    have hsolid : l'.token.isSolid := by simp [htoken, Token.isSolid]
    refine .bind ((hl'.starts hsolid).mono fun _ _ h' => .peek h'.here fun next hnext => ?_)
    refine .ite (fun hname => ?_) fun _ => .failure
    exact .bind ((functionDefinition_closes hg (.inr h') hnext
      (Lexeme.isSolid_of_isName hname)).mono fun _ _ h' => .pure (hlast h'))
  case h_3 htoken =>
    have hsolid : l'.token.isSolid := by simp [htoken, Token.isSolid]
    exact .bind ((classDefinition_closes hg hl' hsolid).mono fun _ _ h' => .pure (hlast h'))
  case h_4 => exact .failure

theorem caseClause_closes (hl : Ahead T s l) (hsolid : l.token.isSolid) :
    Yields (caseClause g l) s (Closes T l.start.row s.here) := by
  refine .bind ((hl.starts hsolid).mono fun _ _ h => .peek h.here fun first hfirst => ?_)
  refine .extend h (hg.casePattern _ hfirst) fun _ _ h => ?_
  refine .bind (.mono (R := Starts T l.start.row s.here) ?_ fun _ _ h => ?_)
  · refine .loop h fun _ _ h => .peek h.here fun comma hcomma => ?_
    refine .ite (fun hmark => ?_) fun _ => .pure h
    refine .extend h (hcomma.takeMark hmark) fun _ _ h => .peek h.here fun l hl => ?_
    refine .ite (fun _ => .pure h) fun _ => ?_
    exact .extend h (hg.casePattern _ hl) fun _ _ h => .pure h
  · refine .peek h.here fun guard hguard => .ite (fun hname => ?_) fun _ => ?_
    · refine .extend h (hguard.takeName hname) fun _ _ h => ?_
      refine .extend h (expression_reads hg h.here) fun _ _ h => .bind (.pure ?_)
      exact closeWith hg h rfl
    · exact .bind (.pure (closeWith hg h rfl))

theorem matchStatement_closes (hl : Ahead T s l) (hsolid : l.token.isSolid) :
    Yields (matchStatement g l) s (Closes T l.start.row s.here) := by
  refine .bind ((hl.starts hsolid).mono fun _ _ h => .peek h.here fun first hfirst => ?_)
  refine .extend h (expressions_reads hg hfirst) fun _ _ h => ?_
  refine .extend h (mark_reads h.here) fun _ _ h => .peek h.here fun l' hl' => ?_
  split
  case h_1 htoken =>
    exact .bind ((emptyBlock_suite hl' htoken).mono fun _ _ h' => .pure ((h.close h').wrap rfl))
  case h_2 htoken =>
    refine .extend h (hl'.takeLayout (by simp [htoken])) fun _ s₁ h => ?_
    refine .bind (.mono (R := fun ps s' => Block T s₁.here ps s' ∧ EndsLine s'.rest) ?_
      fun _ _ h' => .pure ((h.close (h'.1.suite h'.2)).wrap rfl))
    refine .loop (I := Block T s₁.here) (.refl h.here) fun _ _ h => .peek h.here fun l hl => ?_
    refine .ite (fun htoken => ?_) fun _ => .ite (fun hname => ?_) fun _ => .failure
    · refine .bind ((hl.takeEnd (.inr htoken)).mono fun _ _ h' => .pure ⟨h.append hl ?_, h'.2⟩)
      exact ⟨h'.1.here, h'.2, .inl h'.1.plain⟩
    · have hsolid := Lexeme.isSolid_of_isName hname
      exact .bind ((caseClause_closes hg hl hsolid).mono fun _ _ h' =>
        .pure (h.append hl (h'.states hsolid)))
  case h_3 => exact .failure

theorem statement_states (hl : Ahead T s l) :
    Yields (statement g l nested) s (States T s l) := by
  have hsimple : Yields (simpleStatements g l) s (States T s l) :=
    (simpleStatements_reads hg hl).mono fun _ _ h => ⟨h.1.here, h.2, .inl h.1.plain⟩
  have hstates {p : Parser Forest} (hsolid : l.token.isSolid)
      (hp : Yields p s (Closes T l.start.row s.here)) : Yields p s (States T s l) :=
    hp.mono fun _ _ h => h.states hsolid
  have hopens : Opens T l.start.row s.here [] s l := .inl ⟨rfl, rfl, rfl⟩
  unfold statement
  split
  case h_11 => exact hsimple
  all_goals
    have hsolid : l.token.isSolid := by simp [*, Token.isSolid]
  case h_1 => exact hstates hsolid (ifStatement_closes hg hl hsolid)
  case h_2 => exact hstates hsolid (whileStatement_closes hg hl hsolid)
  case h_3 => exact hstates hsolid (forStatement_closes hg hopens hl hsolid)
  case h_4 => exact hstates hsolid (withStatement_closes hg hopens hl hsolid)
  case h_5 => exact hstates hsolid (tryStatement_closes hg hl hsolid)
  case h_6 => exact hstates hsolid (functionDefinition_closes hg hopens hl hsolid)
  case h_7 => exact hstates hsolid (classDefinition_closes hg hl hsolid)
  case h_8 => exact hstates hsolid (decoratedDefinition_closes hg hl)
  case h_9 => exact .orElse (hstates hsolid (asyncStatement_closes hg hl hsolid)) hsimple
  case h_10 => exact .orElse (hstates hsolid (matchStatement_closes hg hl hsolid)) hsimple

end

end Parser

end DocstringEditor.Syntax
