import DocstringEditor.Proofs.Syntax.Expression
import DocstringEditor.Proofs.Syntax.LegibleExpression
import DocstringEditor.Syntax.SimpleStatement

namespace DocstringEditor.Syntax.Parser

open Forest (wrap)

variable {T : Text} {s s' : Scan} {l : Lexeme} {a : Location} {g : Grammar} {f : Follow}
variable {parts start : Forest}

section

variable (hg : g.Sound T)
include hg

theorem typeExpression_reads {constrained : Bool} (hs : s.In T) :
    Yields (typeExpression g f constrained) s (Reads T s.here) := by
  unfold typeExpression
  extract_lets one
  have hone {s : Scan} (hs : s.In T) : Yields one s (Reads T s.here) := by
    exact .peek hs fun l hl => .orElse (hg.expression f hl) (hg.union f hl)
  refine .bind ((hone hs).mono fun _ _ h => .peek h.here fun colon hcolon => ?_)
  refine .ite (fun hmark => ?_) fun _ => .pure (h.wrap rfl)
  rw [Bool.and_eq_true] at hmark
  refine .grow h (hcolon.takeMark hmark.2) fun _ _ h => ?_
  exact .grow h (hone h.here) fun _ _ h => .pure (h.wrap rfl)

theorem typeParameters_reads (hl : Ahead T s l) (hsolid : l.token.isSolid) :
    Yields (typeParameters g l) s (Reads T s.here) := by
  refine .bind ((hl.take hsolid).mono fun _ _ h => ?_)
  refine .grow h (typeExpression_reads hg h.here) fun _ _ h => ?_
  refine .bind (.mono (R := Reads T s.here) ?_ fun _ _ h => .pure (h.wrap rfl))
  exact items_reads id (fun hl => typeExpression_reads hg hl.here) h

theorem typeTerm_reads (hl : Ahead T s l) : Yields (typeTerm g f l) s (Reads T s.here) := by
  refine .ite (fun hmark => ?_) fun _ => .orElse (hg.operand f hl) ?_
  · refine .bind ((hl.takeMark hmark).mono fun _ _ h => .peek h.here fun l hl => ?_)
    exact .grow h hl.name fun _ _ h => .pure h
  · refine .bind (hl.name.mono fun _ _ h => .peek h.here fun bracket hbracket => ?_)
    refine .ite (fun hmark => ?_) fun _ => .failure
    exact .grow h (typeParameters_reads hg hbracket (Lexeme.isSolid_of_isMark hmark))
      fun _ _ h => .pure (h.wrap rfl)

theorem typeUnion_reads (hl : Ahead T s l) : Yields (typeUnion g l f) s (Reads T s.here) := by
  refine .bind ((typeTerm_reads hg hl).mono fun _ _ h => ?_)
  refine .loop (I := fun ps => Reads T s.here ps) h fun _ _ h => .peek h.here fun next hnext => ?_
  refine .ite (fun hmark => ?_) fun _ => .ite (fun hmark => ?_) fun _ => .pure h
  · refine .grow h (hnext.takeMark hmark) fun _ _ h => .peek h.here fun l hl => ?_
    exact .grow h (typeTerm_reads hg hl) fun _ _ h => .pure (h.wrap rfl)
  · refine .grow h (hnext.takeMark hmark) fun _ _ h => .peek h.here fun l hl => ?_
    exact .grow h hl.name fun _ _ h => .pure (h.wrap rfl)

theorem assignments_reads (h : Reads T a start s) :
    Yields (assignments g start) s fun x => Reads T a x.1 := by
  refine .loop (I := fun x => Reads T a x.1) h fun (parts, left, assigned) s₁ h => ?_
  dsimp -zeta only at h ⊢
  extract_lets right
  refine .peek h.here fun next hnext => ?_
  extract_lets text assigning typing
  have hright {s : Scan} (hs : s.In T) : Yields (right []) s (Reads T s.here) :=
    .peek hs fun l hl => .bind ((yieldOrExpressions_reads hg hl).mono fun _ _ h => .pure h)
  have hsolid (htext : text ≠ "") : next.token.isSolid := by
    dsimp only [text] at htext
    split at htext
    · rename_i htoken
      simp [htoken, Token.isSolid]
    · exact absurd rfl htext
  refine .ite (fun htext => ?_) fun _ => .ite (fun htext => ?_) fun _ => .pure h
  · have hne : text ≠ "" := by
      intro hempty
      simp [hempty, assignmentOperators] at htext
    refine .ite (fun _ => .bind .failure) fun _ => ?_
    refine .grow h (hnext.take (hsolid hne)) fun _ _ h => ?_
    exact .grow h (hright h.here) fun _ _ h => .pure h
  · have hne : text ≠ "" := by simp [htext]
    refine .ite (fun _ => .bind .failure) fun _ => ?_
    refine .grow h (hnext.take (hsolid hne)) fun _ _ h => ?_
    refine .grow h (typeExpression_reads hg h.here) fun _ _ h => ?_
    refine .peek h.here fun equals hequals => .ite (fun hmark => ?_) fun _ => .pure h
    refine .grow h (hequals.takeMark hmark) fun _ _ h => ?_
    exact .grow h (hright h.here) fun _ _ h => .pure h

omit hg in
theorem assignments_marked (h : Forest.Opened start) :
    Yields (assignments g start) s fun x _ =>
      if x.2 then Forest.Marked x.1 else x.1 = start := by
  refine .loop (I := fun x _ => if x.2.2 then Forest.Marked x.1 else x.1 = start) rfl
    fun (parts, left, assigned) s₁ hparts => ?_
  have hopened : Forest.Opened parts := by
    cases assigned
    · exact (show parts = start from hparts) ▸ h
    · exact Forest.Marked.opened hparts
  dsimp -zeta only at hparts ⊢
  extract_lets right
  refine .lex ?_
  extract_lets text assigning typing
  have hforeign (hne : text ≠ "") (htext : text ∉ ["(", ")", ","]) :
      (s₁.lex Follow.line.after).isForeign := by
    dsimp only [text] at hne htext
    split at hne
    · rename_i htoken
      rw [htoken] at htext
      exact Lexeme.isForeign_of_isMark (decide_eq_true htoken) htext
    · exact absurd rfl hne
  refine .ite (fun htext => ?_) fun _ => .ite (fun htext => ?_) fun _ => .pure hparts
  · have hall : ∀ text ∈ "=" :: assignmentOperators, text ≠ "" ∧ text ∉ ["(", ")", ","] := by decide
    have htext := hall text (by simpa [assigning] using htext)
    refine .ite (fun _ => .bind .failure) fun _ => ?_
    refine .bind ((take_foreign (hforeign htext.1 htext.2)).mono fun _ _ h => .step fun _ _ => ?_)
    exact .pure ((hopened.mark h).append _)
  · have hcolon : text ≠ "" ∧ text ∉ ["(", ")", ","] := by simp [htext]
    refine .ite (fun _ => .bind .failure) fun _ => ?_
    refine .bind ((take_foreign (hforeign hcolon.1 hcolon.2)).mono fun _ _ h => ?_)
    refine .step fun hint _ => ?_
    have h := (hopened.mark h).append hint
    refine .lex (.ite (fun _ => ?_) fun _ => .pure h)
    exact .step fun _ _ => .step fun _ _ => .pure ((h.append _).append _)

theorem expressionStatement_reads (hl : Ahead T s l) :
    Yields (expressionStatement g l) s (Reads T s.here) := by
  have hlisted := yieldOrExpressions_listed (s := s) (f := .line) hg.legible hl.leaves
  refine .bind (((yieldOrExpressions_reads hg hl).and hlisted).mono fun _ _ ⟨h, hopened, hps⟩ => ?_)
  refine .bind (((assignments_reads hg h).and (assignments_marked hopened)).mono
    fun ⟨parts, assigned⟩ _ ⟨h, hmarked⟩ => ?_)
  refine .ite (fun _ => .bind .failure) fun _ => .lex (.ite (fun _ => .pure ?_) fun _ => .failure)
  cases assigned
  · rw [show parts = _ from hmarked] at h ⊢
    exact h.wrap_statement hps
  · have hphrase : Forest.IsLegible (wrap .phrase parts) := Forest.Marked.wrap hmarked rfl
    exact (h.wrap (k := .phrase) rfl).wrap_statement hphrase.itemized.listed

theorem keywordStatement_reads {stops : List String} (hl : Ahead T s l)
    (hsolid : l.token.isSolid) : Yields (keywordStatement g l stops) s (Reads T s.here) := by
  refine .bind ((hl.take hsolid).mono fun _ _ h => .peek h.here fun first hfirst => ?_)
  exact .ite (fun _ => .grow h (expressions_reads hg hfirst) fun _ _ h => .pure h)
    fun _ => .pure h

theorem raiseStatement_reads (hl : Ahead T s l) (hsolid : l.token.isSolid) :
    Yields (raiseStatement g l) s (Reads T s.here) := by
  refine .bind ((keywordStatement_reads hg hl hsolid).mono fun _ _ h => ?_)
  refine .peek h.here fun next hnext => .ite (fun hname => ?_) fun _ => .pure h
  refine .grow h (hnext.takeName hname) fun _ _ h => ?_
  exact .grow h (expression_reads hg h.here) fun _ _ h => .pure h

theorem printStatement_reads (hl : Ahead T s l) (hsolid : l.token.isSolid) :
    Yields (printStatement g l) s (Reads T s.here) := by
  refine .bind ((hl.take hsolid).mono fun _ _ h => .peek h.here fun first hfirst => ?_)
  refine .ite (fun hmark => ?_) fun _ => ?_
  · refine .bind ((hfirst.takeMark hmark).mono fun _ _ h' => ?_)
    refine .grow h' (expression_reads hg h'.here) fun _ _ h' => ?_
    have h := h.append (h'.wrap (k := .chevron) rfl)
    exact .bind ((more_reads hg h).mono fun _ _ h => .pure (h.wrap rfl))
  · exact .grow h (expressions_reads hg hfirst) fun _ _ h => .pure (h.wrap rfl)

theorem execStatement_reads (hl : Ahead T s l) (hsolid : l.token.isSolid) :
    Yields (execStatement g l) s (Reads T s.here) := by
  refine .bind ((hl.take hsolid).mono fun _ s₀ h => .peek h.here fun first hfirst => ?_)
  extract_lets behind
  have hbehind {code : Forest} {s₁ : Scan} (h' : Reads T s₀.here code s₁) :
      Yields (behind code) s₁ (Reads T s.here) := by
    have h := h.append h'
    refine .peek h.here fun next hnext => .ite (fun hname => ?_) fun _ => ?_
    · refine .bind ((hnext.takeName hname).mono fun _ _ h' => .peek h'.here fun l hl => ?_)
      refine .grow h' (expressions_reads hg hl) fun _ _ h' => .bind (.pure ?_)
      exact .pure ((h.append h').wrap rfl)
    · exact .bind (.pure (.pure ((h.append (.refl h.here)).wrap rfl)))
  split
  · exact .bind ((literal_reads hg hfirst).mono fun _ _ h' => hbehind h')
  · exact .bind (hfirst.name.mono fun _ _ h' => hbehind h')

theorem typeAlias_reads (hl : Ahead T s l) (hsolid : l.token.isSolid) :
    Yields (typeAlias g l) s (Reads T s.here) := by
  refine .bind ((hl.take hsolid).mono fun _ _ h => ?_)
  refine .grow h (typeExpression_reads hg h.here) fun _ _ h => ?_
  refine .grow h (mark_reads h.here) fun _ _ h => ?_
  exact .grow h (typeExpression_reads hg h.here) fun _ _ h => .pure (h.wrap rfl)

omit hg in
theorem names_reads (hs : s.In T) : Yields names s (Reads T s.here) := by
  refine .peek hs fun l hl => .bind (hl.name.mono fun _ _ h => .loop h fun _ _ h => ?_)
  refine .peek h.here fun comma hcomma => .ite (fun hmark => ?_) fun _ => .pure h
  refine .grow h (hcomma.takeMark hmark) fun _ _ h => .peek h.here fun l hl => ?_
  exact .grow h hl.name fun _ _ h => .pure h

omit hg in
theorem importedNames_reads (hs : s.In T) : Yields (importedNames f) s (Reads T s.here) := by
  unfold importedNames
  extract_lets one
  have hone {s : Scan} {l : Lexeme} (hl : Ahead T s l) : Yields (one l) s (Reads T s.here) := by
    refine .bind ((dottedName_reads hl).mono fun _ _ h => .peek h.here fun next hnext => ?_)
    refine .ite (fun hname => ?_) fun _ => .pure h
    refine .grow h (hnext.takeName hname) fun _ _ h => .peek h.here fun l hl => ?_
    exact .grow h hl.name fun _ _ h => .pure h
  refine .peek hs fun l hl => .bind ((hone hl).mono fun _ _ h => .loop h fun _ _ h => ?_)
  refine .peek h.here fun comma hcomma => .ite (fun hmark => ?_) fun _ => .pure h
  refine .grow h (hcomma.takeMark hmark) fun _ _ h => .peek h.here fun l hl => ?_
  split
  · exact .grow h (hone hl) fun _ _ h => .pure h
  · exact .pure h

omit hg in
theorem importFromStatement_reads (hl : Ahead T s l) (hsolid : l.token.isSolid) :
    Yields (importFromStatement l) s (Reads T s.here) := by
  refine .bind ((hl.take hsolid).mono fun _ _ h => ?_)
  refine .bind (.mono (R := fun x => Reads T s.here x.1) ?_ fun x _ h => ?_)
  · refine .loop (I := fun x => Reads T s.here x.1) h fun (parts, relative) _ h => ?_
    refine .peek h.here fun dot hdot => .ite (fun hmark => ?_) fun _ => .pure h
    have hsolid : dot.token.isSolid := by
      rcases Bool.or_eq_true_iff.1 hmark with hmark | hmark
      · exact Lexeme.isSolid_of_isMark hmark
      · exact Lexeme.isSolid_of_isMark hmark
    exact .grow h (hdot.take hsolid) fun _ _ h => .pure h
  obtain ⟨start, relative⟩ := x
  refine .peek h.here fun source hsource => ?_
  extract_lets behind
  have hbehind {source : Forest} {s₁ : Scan} (h : Reads T s.here (start ++ source) s₁) :
      Yields (behind source) s₁ (Reads T s.here) := by
    refine .grow h (keyword_reads h.here) fun _ _ h => .peek h.here fun first hfirst => ?_
    refine .ite (fun hmark => ?_) fun _ => .ite (fun hmark => ?_) fun _ => ?_
    · exact .grow h (hfirst.takeMark hmark) fun _ _ h => .pure (h.wrap rfl)
    · refine .grow h (hfirst.takeMark hmark) fun _ _ h => ?_
      refine .grow h (importedNames_reads h.here) fun _ _ h => ?_
      exact .grow h (mark_reads h.here) fun _ _ h => .pure (h.wrap rfl)
    · exact .grow h (importedNames_reads h.here) fun _ _ h => .pure (h.wrap rfl)
  refine .ite (fun _ => .bind (.pure (hbehind ?_))) fun _ => ?_
  · exact h.append (.refl h.here)
  · exact .grow h (dottedName_reads hsource) fun _ _ h => hbehind h

theorem simpleStatement_reads (hl : Ahead T s l) :
    Yields (simpleStatement g l) s (Reads T s.here) := by
  have hexpressions (hsolid : l.token.isSolid) : Yields (do
      let start ← take l
      let first ← peek { string := true }
      let rest ← expressions g first .line []
      return wrap .phrase (start ++ rest)) s (Reads T s.here) := by
    refine .bind ((hl.take hsolid).mono fun _ _ h => .peek h.here fun first hfirst => ?_)
    exact .grow h (expressions_reads hg hfirst) fun _ _ h => .pure (h.wrap rfl)
  have hnames (hsolid : l.token.isSolid) : Yields (do
      let start ← take l
      let rest ← names
      return wrap .phrase (start ++ rest)) s (Reads T s.here) := by
    refine .bind ((hl.take hsolid).mono fun _ _ h => ?_)
    exact .grow h (names_reads h.here) fun _ _ h => .pure (h.wrap rfl)
  have hplain := expressionStatement_reads hg hl
  unfold simpleStatement
  split
  case h_15 => exact hplain
  all_goals
    have hsolid : l.token.isSolid := by simp [*, Token.isSolid]
  case h_4 =>
    exact .bind ((keywordStatement_reads hg hl hsolid).mono fun _ _ h => .pure (h.wrap rfl))
  case h_5 | h_6 => exact hexpressions hsolid
  case h_7 => exact .bind ((raiseStatement_reads hg hl hsolid).mono fun _ _ h => .pure (h.wrap rfl))
  case h_8 | h_9 => exact hnames hsolid
  case h_10 =>
    refine .bind ((hl.take hsolid).mono fun _ _ h => ?_)
    exact .grow h (importedNames_reads h.here) fun _ _ h => .pure (h.wrap rfl)
  case h_11 => exact importFromStatement_reads hl hsolid
  case h_12 =>
    refine .ite (fun _ => printStatement_reads hg hl hsolid) fun _ => ?_
    exact .orElse hplain (printStatement_reads hg hl hsolid)
  case h_13 => exact .orElse hplain (execStatement_reads hg hl hsolid)
  case h_14 => exact .orElse hplain (typeAlias_reads hg hl hsolid)
  all_goals exact .bind ((hl.take hsolid).mono fun _ _ h => .pure (h.wrap rfl))

theorem simpleStatements_reads (hl : Ahead T s l) : Yields (simpleStatements g l) s
    fun ps s' => Reads T s.here ps s' ∧ EndsLine s'.rest := by
  let I (x : Forest × Lexeme) (s₁ : Scan) := Reads T s.here x.1 s₁ ∧ Ahead T s₁ x.2
  refine .loop (I := I) ⟨.refl hl.here, hl⟩ fun (parts, l') s₁ ⟨h, hl'⟩ => ?_
  refine .grow h (simpleStatement_reads hg hl') fun _ _ h => .peek h.here fun next hnext => ?_
  have hstop {parts : Forest} {s₂ : Scan} {next : Lexeme} (h : Reads T s.here parts s₂)
      (hnext : Ahead T s₂ next) (htoken : next.token = .newline) :
      Yields (do return .inr (parts ++ (← takeLayout next))) s₂
        (Steps I fun ps s' => Reads T s.here ps s' ∧ EndsLine s'.rest) :=
    .bind ((hnext.takeEnd (.inl htoken)).mono fun _ _ h' => .pure ⟨h.append h'.1, h'.2⟩)
  refine .ite (fun htoken => hstop h hnext htoken) fun _ => .ite (fun hmark => ?_) fun _ => .failure
  refine .grow h (hnext.takeMark hmark) fun _ _ h => .peek h.here fun l hl => ?_
  exact .ite (fun htoken => hstop h hl htoken) fun _ => .pure ⟨h, hl⟩

end

end DocstringEditor.Syntax.Parser
