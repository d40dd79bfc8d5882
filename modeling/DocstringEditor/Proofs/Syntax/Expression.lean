import DocstringEditor.Proofs.Syntax.StringLiteral
import DocstringEditor.Syntax.CasePattern
import DocstringEditor.Syntax.Expression

namespace DocstringEditor.Syntax.Parser

open Forest (wrap)

variable {T : Text} {s s' : Scan} {l : Lexeme} {a : Location} {g : Grammar} {f : Follow}
variable {parts start : Forest}

section Displays

variable (hg : g.Sound T)
include hg

theorem expression_reads (hs : s.In T) : Yields (expression g f) s (Reads T s.here) :=
  .peek hs fun _ hl => hg.expression f hl

theorem more_reads {goesOn : Lexeme → Bool} (h : Reads T a start s) :
    Yields (loop start fun parts => do
      let comma ← peek f.after
      if comma.isMark "," then
        let parts := parts ++ (← take comma)
        let l ← peek f.orString
        if goesOn l then return .inl (parts ++ (← g (.expression l f)))
        else return .inr parts
      else return .inr parts) s (Reads T a) := by
  refine .loop h fun _ _ h => .peek h.here fun comma hcomma => ?_
  refine .ite (fun hmark => ?_) fun _ => .pure h
  refine .grow h (hcomma.takeMark hmark) fun _ _ h => .peek h.here fun l hl => ?_
  exact .ite (fun _ => .grow h (hg.expression f hl) fun _ _ h => .pure h) fun _ => .pure h

omit hg in
theorem items_reads {α : Type} {close : String} {item : Lexeme → Parser α} (nodes : α → Forest)
    (hitem : ∀ {s l}, Ahead T s l → Yields (item l) s fun x => Reads T s.here (nodes x))
    (h : Reads T a start s) :
    Yields (loop start fun parts => do
      let l ← peek Follow.bracketed.after
      if l.isMark close then return .inr (parts ++ (← take l))
      else if l.isMark "," then
        let parts := parts ++ (← take l)
        let l ← peek Follow.bracketed.orString
        if l.isMark close then return .inr (parts ++ (← take l))
        else return .inl (parts ++ nodes (← item l))
      else failure) s (Reads T a) := by
  refine .loop h fun _ _ h => .peek h.here fun l hl => ?_
  refine .ite (fun hmark => ?_) fun _ => .ite (fun hmark => ?_) fun _ => .failure
  · exact .grow h (hl.takeMark hmark) fun _ _ h => .pure h
  refine .grow h (hl.takeMark hmark) fun _ _ h => .peek h.here fun l hl => ?_
  refine .ite (fun hmark => ?_) fun _ => ?_
  · exact .grow h (hl.takeMark hmark) fun _ _ h => .pure h
  · exact .bind ((hitem hl).mono fun _ _ h' => .pure (h.append h'))

theorem expressions_reads {stops : List String} (hl : Ahead T s l) :
    Yields (expressions g l f stops) s (Reads T s.here) :=
  .bind ((hg.expression f hl).mono fun _ _ h => more_reads hg h)

theorem yieldExpression_reads (hl : Ahead T s l) (hsolid : l.token.isSolid) :
    Yields (yieldExpression g l f) s (Reads T s.here) := by
  refine .bind ((hl.take hsolid).mono fun _ _ h => .peek h.here fun first hfirst => ?_)
  refine .ite (fun hname => ?_) fun _ => .ite (fun _ => ?_) fun _ => .pure (h.wrap rfl)
  · refine .grow h (hfirst.takeName hname) fun _ _ h => ?_
    exact .grow h (expression_reads hg h.here) fun _ _ h => .pure (h.wrap rfl)
  · exact .grow h (expressions_reads hg hfirst) fun _ _ h => .pure (h.wrap rfl)

theorem yieldOrExpressions_reads (hl : Ahead T s l) :
    Yields (yieldOrExpressions g l f) s (Reads T s.here) :=
  .ite (fun hname => yieldExpression_reads hg hl (Lexeme.isSolid_of_isName hname))
    fun _ => expressions_reads hg hl

theorem element_reads (hl : Ahead T s l) : Yields (element g l) s (Reads T s.here) := by
  refine .ite (fun hname => ?_) fun _ => .ite (fun hmark => ?_) fun _ => hg.expression _ hl
  · exact yieldExpression_reads hg hl (Lexeme.isSolid_of_isName hname)
  · refine .bind ((hl.takeMark hmark).mono fun _ _ h => ?_)
    exact .grow h (expression_reads hg h.here) fun _ _ h => .pure (h.wrap rfl)

theorem targets_reads (hs : s.In T) : Yields (targets g) s (Reads T s.here) := by
  unfold targets
  extract_lets target
  have htarget {s : Scan} {l : Lexeme} (hl : Ahead T s l) :
      Yields (target l) s (Reads T s.here) :=
    .bind ((hg.operand _ hl).mono fun _ _ h => .ite (fun _ => .pure h) fun _ => .failure)
  refine .peek hs fun l hl => .bind ((htarget hl).mono fun _ _ h => ?_)
  refine .loop h fun _ _ h => .peek h.here fun comma hcomma => ?_
  refine .ite (fun hmark => ?_) fun _ => .pure h
  refine .grow h (hcomma.takeMark hmark) fun _ _ h => .peek h.here fun l hl => ?_
  exact .ite (fun _ => .pure h) fun _ => .grow h (htarget hl) fun _ _ h => .pure h

theorem iterables_reads (hs : s.In T) : Yields (iterables g) s (Reads T s.here) :=
  .bind ((expression_reads hg hs).mono fun _ _ h => more_reads hg h)

theorem comprehension_reads (hs : s.In T) : Yields (comprehension g) s (Reads T s.here) := by
  refine .loop (Reads.refl hs) fun _ _ h => .peek h.here fun l hl => ?_
  refine .ite (fun _ => ?_) fun _ => .ite (fun hif => ?_) fun _ => .pure h
  · extract_lets isAsync
    have hasync : Yields isAsync _ (Reads T _) :=
      .ite (fun hname => hl.takeName hname) fun _ => .pure (.refl h.here)
    refine .bind (hasync.mono fun _ _ h' => ?_)
    refine .grow h' (keyword_reads h'.here) fun _ _ h' => ?_
    refine .grow h' (targets_reads hg h'.here) fun _ _ h' => ?_
    refine .grow h' (keyword_reads h'.here) fun _ _ h' => ?_
    exact .grow h' (iterables_reads hg h'.here) fun _ _ h' => .pure (h.append (h'.wrap rfl))
  · rw [Bool.and_eq_true] at hif
    refine .bind ((hl.takeName hif.1).mono fun _ _ h' => ?_)
    exact .grow h' (expression_reads hg h'.here) fun _ _ h' => .pure (h.append (h'.wrap rfl))

theorem elements_reads {close : String} (h : Reads T a start s) :
    Yields (elements g start close) s (Reads T a) :=
  items_reads id (element_reads hg) h

theorem closed_reads {mark' : String} (h : Reads T a start s) {k : Kind}
    (hk : k.isFree) :
    Yields (do
      let clauses ← comprehension g
      let close ← mark Follow.bracketed.after mark'
      return wrap k (start ++ clauses ++ close)) s (Reads T a) := by
  refine .grow h (comprehension_reads hg h.here) fun _ _ h => ?_
  exact .grow h (mark_reads h.here) fun _ _ h => .pure (h.wrap hk)

theorem parentheses_reads (hl : Ahead T s l) (hsolid : l.token.isSolid) :
    Yields (parentheses g l) s (Reads T s.here) := by
  refine .bind ((hl.take hsolid).mono fun _ _ h => .peek h.here fun first hfirst => ?_)
  refine .ite (fun hmark => ?_) fun _ => ?_
  · exact .grow h (hfirst.takeMark hmark) fun _ _ h => .pure (h.wrap rfl)
  refine .grow h (element_reads hg hfirst) fun _ _ h => .peek h.here fun next hnext => ?_
  refine .ite (fun hmark => ?_) fun _ => .ite (fun _ => closed_reads hg h rfl) fun _ => ?_
  · exact .grow h (hnext.takeMark hmark) fun _ _ h => .pure (h.wrap rfl)
  · exact .bind ((elements_reads hg h).mono fun _ _ h => .pure (h.wrap rfl))

theorem brackets_reads (hl : Ahead T s l) (hsolid : l.token.isSolid) :
    Yields (brackets g l) s (Reads T s.here) := by
  refine .bind ((hl.take hsolid).mono fun _ _ h => .peek h.here fun first hfirst => ?_)
  refine .ite (fun hmark => ?_) fun _ => ?_
  · exact .grow h (hfirst.takeMark hmark) fun _ _ h => .pure (h.wrap rfl)
  refine .grow h (element_reads hg hfirst) fun _ _ h => .peek h.here fun _ _ => ?_
  refine .ite (fun _ => closed_reads hg h rfl) fun _ => ?_
  exact .bind ((elements_reads hg h).mono fun _ _ h => .pure (h.wrap rfl))

theorem entryValue_reads (hs : s.In T) : Yields (entryValue g) s (Reads T s.here) := by
  refine .bind ((mark_reads hs).mono fun _ _ h => ?_)
  exact .grow h (expression_reads hg h.here) fun _ _ h => .pure h

theorem entries_reads (h : Reads T a start s) : Yields (entries g start) s (Reads T a) := by
  refine .loop h fun _ _ h => .peek h.here fun l hl => ?_
  refine .ite (fun hmark => ?_) fun _ => .ite (fun hmark => ?_) fun _ => .failure
  · exact .grow h (hl.takeMark hmark) fun _ _ h => .pure h
  refine .grow h (hl.takeMark hmark) fun _ _ h => .peek h.here fun l hl => ?_
  refine .ite (fun hmark => ?_) fun _ => .ite (fun hmark => ?_) fun _ => ?_
  · exact .grow h (hl.takeMark hmark) fun _ _ h => .pure h
  · refine .bind ((hl.takeMark hmark).mono fun _ _ h' => ?_)
    exact .grow h' (expression_reads hg h'.here) fun _ _ h' => .pure (h.append (h'.wrap rfl))
  · refine .bind ((hg.expression _ hl).mono fun _ _ h' => ?_)
    exact .grow h' (entryValue_reads hg h'.here) fun _ _ h' => .pure (h.append (h'.wrap rfl))

theorem braces_reads (hl : Ahead T s l) (hsolid : l.token.isSolid) :
    Yields (braces g l) s (Reads T s.here) := by
  refine .bind ((hl.take hsolid).mono fun _ _ h => .peek h.here fun first hfirst => ?_)
  refine .ite (fun hmark => ?_) fun _ => .ite (fun hmark => ?_) fun _ =>
    .ite (fun hmark => ?_) fun _ => ?_
  · exact .grow h (hfirst.takeMark hmark) fun _ _ h => .pure (h.wrap rfl)
  · refine .grow h (hfirst.takeMark hmark) fun _ _ h => ?_
    exact .grow h (mark_reads h.here) fun _ _ h => .pure (h.wrap rfl)
  · refine .bind ((hfirst.takeMark hmark).mono fun _ _ h' => ?_)
    refine .grow h' (expression_reads hg h'.here) fun _ _ h' => ?_
    exact .bind ((entries_reads hg (h.append (h'.wrap rfl))).mono fun _ _ h => .pure (h.wrap rfl))
  refine .bind ((element_reads hg hfirst).mono fun key _ h' => .peek h'.here fun next hnext => ?_)
  refine .ite (fun _ => ?_) fun _ => .ite (fun _ => ?_) fun _ => ?_
  · refine .grow h' (entryValue_reads hg h'.here) fun _ _ h' => ?_
    have h := h.append (h'.wrap (k := .phrase) rfl)
    refine .peek h.here fun _ _ => .ite (fun _ => closed_reads hg h rfl) fun _ => ?_
    exact .bind ((entries_reads hg h).mono fun _ _ h => .pure (h.wrap rfl))
  · exact closed_reads hg (h.append h') rfl
  · exact .bind ((elements_reads hg (h.append h')).mono fun _ _ h => .pure (h.wrap rfl))

end Displays

section Operands

variable (hg : g.Sound T)
include hg

theorem argument_reads (hl : Ahead T s l) :
    Yields (argument g l) s fun x => Reads T s.here x.1 := by
  refine .ite (fun hmark => ?_) fun _ => .ite (fun hmark => ?_) fun _ => ?_
  · refine .bind ((hl.takeMark hmark).mono fun _ _ h => ?_)
    exact .grow h (expression_reads hg h.here) fun _ _ h => .pure (h.wrap rfl)
  · refine .bind ((hl.takeMark hmark).mono fun _ _ h => ?_)
    exact .grow h (expression_reads hg h.here) fun _ _ h => .pure (h.wrap rfl)
  refine .bind ((hg.expression _ hl).mono fun _ _ h => .peek h.here fun next hnext => ?_)
  refine .ite (fun hequals => ?_) fun _ => .pure h
  rw [Bool.and_eq_true] at hequals
  refine .grow h (hnext.takeMark hequals.1) fun _ _ h => ?_
  exact .grow h (expression_reads hg h.here) fun _ _ h => .pure (h.wrap rfl)

theorem arguments_reads {ofCall : Bool} (hl : Ahead T s l) (hsolid : l.token.isSolid) :
    Yields (arguments g l ofCall) s (Reads T s.here) := by
  refine .bind ((hl.take hsolid).mono fun _ _ h => .peek h.here fun first hfirst => ?_)
  refine .ite (fun hmark => ?_) fun _ => .ite (fun hmark => ?_) fun _ => ?_
  · exact .grow h (hfirst.takeMark hmark) fun _ _ h => .pure (h.wrap rfl)
  · refine .grow h (hfirst.takeMark hmark) fun _ _ h => ?_
    exact .grow h (mark_reads h.here) fun _ _ h => .pure (h.wrap rfl)
  refine .bind ((argument_reads hg hfirst).mono fun value _ h' => ?_)
  have h := h.append h'
  refine .peek h.here fun _ _ => .ite (fun _ => closed_reads hg h rfl) fun _ => ?_
  refine .bind (.mono (R := Reads T s.here) ?_ fun _ _ h => .pure (h.wrap rfl))
  exact items_reads Prod.fst (argument_reads hg) h

theorem sliceRest_reads {another : Bool} (hs : s.In T) :
    Yields (sliceRest g another) s (Reads T s.here) := by
  refine .peek hs fun l hl => ?_
  extract_lets behind
  have hbehind {bound : Forest} {s₁ : Scan} (h : Reads T s.here bound s₁) :
      Yields (behind bound) s₁ (Reads T s.here) := by
    refine .peek h.here fun next hnext => .ite (fun hcolon => ?_) fun _ => .pure h
    rw [Bool.and_eq_true] at hcolon
    refine .grow h (hnext.takeMark hcolon.2) fun _ _ h => .peek h.here fun l hl => ?_
    exact .ite (fun _ => .grow h (hg.expression _ hl) fun _ _ h => .pure h) fun _ => .pure h
  refine .ite (fun _ => ?_) fun _ => ?_
  · exact .bind ((hg.expression _ hl).mono fun _ _ h => hbehind h)
  · exact .bind (.pure (hbehind (.refl hs)))

theorem subscript_reads (hl : Ahead T s l) : Yields (subscript g l) s (Reads T s.here) := by
  unfold subscript
  extract_lets behind
  have hbehind {start : Forest} {s₁ : Scan} (h : Reads T s.here start s₁) :
      Yields (behind start) s₁ (Reads T s.here) := by
    refine .peek h.here fun next hnext => .ite (fun hmark => ?_) fun _ => .pure h
    refine .grow h (hnext.takeMark hmark) fun _ _ h => ?_
    exact .grow h (sliceRest_reads hg h.here) fun _ _ h => .pure (h.wrap rfl)
  refine .ite (fun _ => ?_) fun _ => ?_
  · exact .bind (.pure (hbehind (.refl hl.here)))
  · exact .bind ((hg.expression _ hl).mono fun _ _ h => hbehind h)

theorem subscripts_reads (hl : Ahead T s l) (hsolid : l.token.isSolid) :
    Yields (subscripts g l) s (Reads T s.here) := by
  refine .bind ((hl.take hsolid).mono fun _ _ h => .peek h.here fun first hfirst => ?_)
  exact .grow h (subscript_reads hg hfirst) fun _ _ h => items_reads id (subscript_reads hg) h

theorem atom_reads (hl : Ahead T s l) : Yields (atom g l f) s (Reads T s.here) := by
  unfold atom
  split
  case h_6 => exact hl.name
  case h_7 => exact literals_reads hg hl f
  case h_8 htoken => exact parentheses_reads hg hl (by simp [htoken, Token.isSolid])
  case h_9 htoken => exact brackets_reads hg hl (by simp [htoken, Token.isSolid])
  case h_10 htoken => exact braces_reads hg hl (by simp [htoken, Token.isSolid])
  case h_11 => exact .failure
  all_goals exact hl.takeAs (by simp [*, Token.isSolid]) (by decide)

theorem primary_reads (hl : Ahead T s l) : Yields (primary g l f) s (Reads T s.here) := by
  refine .bind ((atom_reads hg hl).mono fun _ _ h => ?_)
  refine .loop h fun _ _ h => .peek h.here fun l hl => ?_
  split
  case h_1 htoken =>
    refine .grow h (hl.take (by simp [htoken, Token.isSolid])) fun _ _ h => ?_
    exact .peek h.here fun l hl => .grow h hl.name fun _ _ h => .pure (h.wrap rfl)
  case h_2 htoken =>
    have hsolid : l.token.isSolid := by simp [htoken, Token.isSolid]
    exact .grow h (arguments_reads hg hl hsolid) fun _ _ h => .pure (h.wrap rfl)
  case h_3 htoken =>
    have hsolid : l.token.isSolid := by simp [htoken, Token.isSolid]
    exact .grow h (subscripts_reads hg hl hsolid) fun _ _ h => .pure (h.wrap rfl)
  case h_4 => exact .pure h

theorem operand_reads (hl : Ahead T s l) : Yields (operand g l f) s (Reads T s.here) := by
  have hsign (hsolid : l.token.isSolid) : Yields (do
      let sign ← take l
      let next ← peek { string := true }
      let rest ← g (.operand next f)
      return wrap .phrase (sign ++ rest)) s (Reads T s.here) := by
    refine .bind ((hl.take hsolid).mono fun _ _ h => .peek h.here fun next hnext => ?_)
    exact .grow h (hg.operand f hnext) fun _ _ h => .pure (h.wrap rfl)
  unfold operand
  split
  case h_4 htoken =>
    refine .bind ((hl.take (by simp [htoken, Token.isSolid])).mono fun _ _ h => ?_)
    refine .peek h.here fun first hfirst => .bind ((primary_reads hg hfirst).mono fun _ _ h' => ?_)
    split
    · exact .ite (fun _ => .pure ((h.append h').wrap rfl)) fun _ => .failure
    · exact .failure
  case h_5 htoken =>
    refine .orElse ?_ (primary_reads hg hl)
    refine .bind ((hl.take (by simp [htoken, Token.isSolid])).mono fun _ _ h => ?_)
    refine .peek h.here fun awaited hawaited => .ite (fun _ => ?_) fun _ => .failure
    exact .grow h (hg.operand f hawaited) fun _ _ h => .pure (h.wrap rfl)
  case h_6 => exact primary_reads hg hl
  all_goals exact hsign (by simp [*, Token.isSolid])

end Operands

section Expressions

variable (hg : g.Sound T)
include hg

theorem parameter_reads {hint : Parser Forest} {typed : Bool}
    (hhint : ∀ {s : Scan}, s.In T → Yields hint s (Reads T s.here)) (hl : Ahead T s l) :
    Yields (parameter g hint typed f l) s (Reads T s.here) := by
  unfold parameter
  extract_lets annotated defaulted
  have hannotated {parts : Forest} {s₁ : Scan} (h : Reads T s.here parts s₁) :
      Yields (annotated parts) s₁ (Reads T s.here) := by
    refine .peek h.here fun colon hcolon => .ite (fun hmark => ?_) fun _ => .pure h
    rw [Bool.and_eq_true] at hmark
    refine .grow h (hcolon.takeMark hmark.2) fun _ _ h => ?_
    exact .grow h (hhint h.here) fun _ _ h => .pure (h.wrap rfl)
  have hdefaulted {parts : Forest} {s₁ : Scan} (h : Reads T s.here parts s₁) :
      Yields (defaulted parts) s₁ (Reads T s.here) := by
    refine .peek h.here fun equals hequals => .ite (fun hmark => ?_) fun _ => .pure h
    refine .grow h (hequals.takeMark hmark) fun _ _ h => ?_
    exact .grow h (expression_reads hg h.here) fun _ _ h => .pure (h.wrap rfl)
  split
  case h_1 htoken => exact hl.take (by simp [htoken, Token.isSolid])
  case h_2 htoken | h_3 htoken =>
    have hsolid : l.token.isSolid := by simp [htoken, Token.isSolid]
    refine .bind ((hl.take hsolid).mono fun _ _ h => .peek h.here fun next hnext => ?_)
    split
    · refine .grow h (primary_reads hg hnext) fun _ _ h => ?_
      exact .ite (fun _ => hannotated (h.wrap rfl)) fun _ => .failure
    · exact .ite (fun _ => .pure h) fun _ => .failure
  case h_4 =>
    refine .bind ((primary_reads hg hl).mono fun _ _ h => ?_)
    exact .ite (fun _ => hdefaulted h) fun _ => .failure
  case h_5 =>
    refine .bind (hl.name.mono fun _ _ h => ?_)
    exact .bind ((hannotated h).mono fun _ _ h => hdefaulted h)
  case h_6 => exact .failure

theorem parameters_reads {hint : Parser Forest} {typed : Bool} {close : String}
    (hhint : ∀ {s : Scan}, s.In T → Yields hint s (Reads T s.here)) (hs : s.In T) :
    Yields (parameters g hint typed f close) s (Reads T s.here) := by
  refine .peek hs fun first hfirst => .ite (fun _ => .pure (.refl hs)) fun _ => ?_
  refine .bind ((parameter_reads hg hhint hfirst).mono fun _ _ h => ?_)
  refine .loop h fun _ _ h => .peek h.here fun comma hcomma => ?_
  refine .ite (fun hmark => ?_) fun _ => .pure h
  refine .grow h (hcomma.takeMark hmark) fun _ _ h => .peek h.here fun l hl => ?_
  refine .ite (fun _ => .pure h) fun _ => ?_
  exact .grow h (parameter_reads hg hhint hl) fun _ _ h => .pure h

theorem lambda_reads (hl : Ahead T s l) (hsolid : l.token.isSolid) :
    Yields (lambda g l f) s (Reads T s.here) := by
  refine .bind ((hl.take hsolid).mono fun _ _ h => ?_)
  refine .grow h (parameters_reads hg (fun _ => .failure) h.here) fun _ _ h => ?_
  refine .grow h (mark_reads h.here) fun _ _ h => ?_
  exact .grow h (expression_reads hg h.here) fun _ _ h => .pure (h.wrap rfl)

theorem conjunct_reads (hl : Ahead T s l) : Yields (conjunct g l f) s (Reads T s.here) := by
  refine .loop (I := fun x s₁ => Reads T s.here x.1 s₁ ∧ Ahead T s₁ x.2) ⟨.refl hl.here, hl⟩ ?_
  intro (negations, l) s₁ ⟨h, hl⟩
  have hfinish {parts : Forest} {s₂ : Scan} (h' : Reads T s₁.here parts s₂) : Reads T s.here
      (if negations.isEmpty then parts else wrap .phrase (negations ++ parts)) s₂ := by
    split
    · rename_i hempty
      obtain rfl : negations = [] := by simpa using hempty
      exact h.append h'
    · exact (h.append h').wrap rfl
  dsimp only
  split
  case h_1 htoken =>
    refine .grow h (hl.take (by simp [htoken, Token.isSolid])) fun _ _ h => ?_
    exact .peek h.here fun l hl => .pure ⟨h, hl⟩
  case h_2 htoken =>
    have hsolid : l.token.isSolid := by simp [htoken, Token.isSolid]
    exact .bind ((lambda_reads hg hl hsolid).mono fun _ _ h' => .pure (hfinish h'))
  case h_3 =>
    refine .ite (fun hequals => ?_) fun _ => ?_
    · refine .bind (hl.name_next.mono fun _ _ h' => ?_)
      obtain ⟨h', rfl⟩ := h'
      refine .lex (.grow h' ((lex_ahead h'.here).takeMark hequals) fun _ _ h' => ?_)
      exact .grow h' (expression_reads hg h'.here) fun _ _ h' => .pure (hfinish (h'.wrap rfl))
    · exact .bind ((hg.operand f hl).mono fun _ _ h' => .pure (hfinish h'))
  case h_4 => exact .bind ((hg.operand f hl).mono fun _ _ h' => .pure (hfinish h'))

theorem chain_reads (hl : Ahead T s l) : Yields (chain g l f) s (Reads T s.here) := by
  refine .bind ((conjunct_reads hg hl).mono fun _ _ h => ?_)
  refine .loop (I := fun x => Reads T s.here x.1) h fun (parts, several) s₁ h => ?_
  refine .peek h.here fun l hl => ?_
  have hoperator (hsolid : l.token.isSolid) :
      Yields (do return parts ++ (← take l)) s₁ (Reads T s.here) :=
    .grow h (hl.take hsolid) fun _ _ h => .pure h
  have hoperand {parts : Forest} {s₂ : Scan} (h : Reads T s.here parts s₂) :
      Yields (do
        let next ← peek { string := true }
        let operand ← g (.operand next f)
        return .inl (parts ++ operand, true)) s₂
        (Steps (fun x => Reads T s.here x.1) (Reads T s.here)) :=
    .peek h.here fun next hnext => .grow h (hg.operand f hnext) fun _ _ h => .pure h
  have hconjunct (hsolid : l.token.isSolid) : Yields
      ((do return parts ++ (← take l) : Parser Forest) >>= fun parts => do
        let next ← peek { string := true }
        let rest ← conjunct g next f
        return .inl (parts ++ rest, true)) s₁
      (Steps (fun x => Reads T s.here x.1) (Reads T s.here)) := by
    refine .bind ((hoperator hsolid).mono fun _ _ h => .peek h.here fun next hnext => ?_)
    exact .grow h (conjunct_reads hg hnext) fun _ _ h => .pure h
  have hstop : Reads T s.here (if several then wrap .phrase parts else parts) s₁ := by
    cases several
    · exact h
    · exact h.wrap rfl
  dsimp only
  split
  case h_1 htoken =>
    refine .ite (fun _ => ?_) fun _ => .pure hstop
    exact .bind ((hoperator (by simp [htoken, Token.isSolid])).mono fun _ _ h => hoperand h)
  case h_2 htoken =>
    exact .bind ((hoperator (by simp [htoken, Token.isSolid])).mono fun _ _ h => hoperand h)
  case h_3 htoken =>
    refine .bind ((hoperator (by simp [htoken, Token.isSolid])).mono fun _ _ h => ?_)
    exact .grow h (keyword_reads h.here) fun _ _ h => hoperand h
  case h_4 htoken =>
    refine .bind ((hoperator (by simp [htoken, Token.isSolid])).mono fun _ _ h => ?_)
    refine .peek h.here fun next hnext => .ite (fun hname => ?_) fun _ => ?_
    · exact .grow h (hnext.takeName hname) fun _ _ h => hoperand h
    · exact .grow h (hg.operand f hnext) fun _ _ h => .pure h
  case h_5 htoken => exact hconjunct (by simp [htoken, Token.isSolid])
  case h_6 htoken => exact hconjunct (by simp [htoken, Token.isSolid])
  case h_7 htoken =>
    refine .bind ((hoperator (by simp [htoken, Token.isSolid])).mono fun _ _ h => ?_)
    exact .grow h (expression_reads hg h.here) fun _ _ h => .pure (h.wrap rfl)
  case h_8 htoken =>
    refine .ite (fun _ => ?_) fun _ => .pure hstop
    refine .bind ((hoperator (by simp [htoken, Token.isSolid])).mono fun _ _ h => ?_)
    refine .grow h (expression_reads hg h.here) fun _ _ h => ?_
    refine .grow h (keyword_reads h.here) fun _ _ h => ?_
    exact .grow h (expression_reads hg h.here) fun _ _ h => .pure (h.wrap rfl)
  case h_9 => exact .pure hstop

theorem replacementField_covers (hs : s.In T) :
    Yields (replacementField g) s (Covers T s.here) := by
  refine .peek hs fun l hl => .bind ((yieldOrExpressions_reads hg hl).mono fun _ _ h => ?_)
  exact .bind ((fieldRest_covers hg h.here).mono fun _ _ h' => .pure (h.covers.append h'))

end Expressions

section Patterns

theorem numberPattern_reads (hl : Ahead T s l) :
    Yields (numberPattern l f) s (Reads T s.here) := by
  refine .ite (fun _ => .bind .failure) fun hnumber => ?_
  have hsolid : l.token.isSolid := by simp [not_not.1 hnumber, Token.isSolid]
  refine .bind ((hl.take hsolid).mono fun _ _ h => .peek h.here fun sign hsign => ?_)
  refine .ite (fun hmark => ?_) fun _ => .pure h
  have hsigned : sign.token.isSolid := by
    rcases Bool.or_eq_true_iff.1 hmark with hmark | hmark
    · exact Lexeme.isSolid_of_isMark hmark
    · exact Lexeme.isSolid_of_isMark hmark
  refine .grow h (hsign.take hsigned) fun _ _ h => .peek h.here fun second hsecond => ?_
  refine .ite (fun hnumber => ?_) fun _ => .failure
  exact .grow h (hsecond.take (by simp [hnumber, Token.isSolid])) fun _ _ h => .pure h

theorem dottedName_reads {e : Expected} (hl : Ahead T s l) :
    Yields (dottedName l e) s (Reads T s.here) := by
  refine .bind (hl.name.mono fun _ _ h => .loop h fun _ _ h => ?_)
  refine .peek h.here fun dot hdot => .ite (fun hmark => ?_) fun _ => .pure h
  refine .grow h (hdot.takeMark hmark) fun _ _ h => .peek h.here fun l hl => ?_
  exact .grow h hl.name fun _ _ h => .pure h

theorem patternsUntil_reads {close : String} {item : Lexeme → Parser Forest}
    (hitem : ∀ {s l}, Ahead T s l → Yields (item l) s (Reads T s.here)) (h : Reads T a start s) :
    Yields (patternsUntil start close item) s (Reads T a) := by
  refine .loop h fun _ _ h => .peek h.here fun l hl => ?_
  refine .ite (fun hmark => ?_) fun _ => ?_
  · exact .grow h (hl.takeMark hmark) fun _ _ h => .pure h
  refine .grow h (hitem hl) fun _ _ h => .peek h.here fun next hnext => ?_
  refine .ite (fun hmark => ?_) fun _ => .ite (fun hmark => ?_) fun _ => .failure
  · exact .grow h (hnext.takeMark hmark) fun _ _ h => .pure h
  · exact .grow h (hnext.takeMark hmark) fun _ _ h => .pure h

variable (hg : g.Sound T)
include hg

theorem closedPattern_reads (hl : Ahead T s l) :
    Yields (closedPattern g l f) s (Reads T s.here) := by
  unfold closedPattern
  extract_lets item
  have hitem {s : Scan} {l : Lexeme} (hl : Ahead T s l) : Yields (item l) s (Reads T s.here) :=
    hg.casePattern _ hl
  have hstarred (hsolid : l.token.isSolid) : Yields (do
      let start ← take l
      let next ← peek {}
      let rest ← name next
      return start ++ rest) s (Reads T s.here) := by
    refine .bind ((hl.take hsolid).mono fun _ _ h => .peek h.here fun next hnext => ?_)
    exact .grow h hnext.name fun _ _ h => .pure h
  split
  case h_1 => exact literals_reads hg hl f
  case h_2 => exact numberPattern_reads hl
  case h_3 htoken =>
    refine .bind ((hl.take (by simp [htoken, Token.isSolid])).mono fun _ _ h => ?_)
    exact .peek h.here fun l hl => .grow h (numberPattern_reads hl) fun _ _ h => .pure h
  case h_4 htoken => exact hstarred (by simp [htoken, Token.isSolid])
  case h_5 htoken => exact hstarred (by simp [htoken, Token.isSolid])
  case h_6 htoken =>
    refine .bind ((hl.take (by simp [htoken, Token.isSolid])).mono fun _ _ h => ?_)
    exact patternsUntil_reads hitem h
  case h_7 htoken =>
    refine .bind ((hl.take (by simp [htoken, Token.isSolid])).mono fun _ _ h => ?_)
    exact patternsUntil_reads hitem h
  case h_8 htoken =>
    refine .bind ((hl.take (by simp [htoken, Token.isSolid])).mono fun _ _ h => ?_)
    refine patternsUntil_reads (fun hl => ?_) h
    refine .bind ((hg.casePattern _ hl).mono fun _ _ h => .ite (fun _ => .pure h) fun _ => ?_)
    refine .grow h (mark_reads h.here) fun _ _ h => .peek h.here fun l hl => ?_
    exact .grow h (hitem hl) fun _ _ h => .pure h
  case h_9 =>
    refine .bind ((dottedName_reads hl).mono fun _ _ h => .peek h.here fun next hnext => ?_)
    refine .ite (fun hmark => ?_) fun _ => .pure h
    exact .grow h (hnext.takeMark hmark) fun _ _ h => patternsUntil_reads hitem h
  case h_10 => exact .failure

theorem casePattern_reads (hl : Ahead T s l) :
    Yields (casePattern g l f) s (Reads T s.here) := by
  refine .bind ((closedPattern_reads hg hl).mono fun _ _ h => ?_)
  refine .bind (.mono (R := Reads T s.here) ?_ fun _ _ h => .pure (h.wrap rfl))
  refine .loop h fun parts _ h => .peek h.here fun next hnext => ?_
  split
  case h_1 htoken =>
    refine .grow h (hnext.take (by simp [htoken, Token.isSolid])) fun _ _ h => ?_
    refine .peek h.here fun l hl => ?_
    exact .grow h (closedPattern_reads hg hl) fun _ _ h => .pure h
  case h_2 htoken =>
    split
    · refine .ite (fun _ => ?_) fun _ => .failure
      refine .grow h (hnext.take (by simp [htoken, Token.isSolid])) fun _ _ h => ?_
      refine .peek h.here fun l hl => ?_
      exact .grow h (closedPattern_reads hg hl) fun _ _ h => .pure h
    · exact .failure
  case h_3 htoken =>
    refine .grow h (hnext.take (by simp [htoken, Token.isSolid])) fun _ _ h => ?_
    exact .peek h.here fun l hl => .grow h hl.name fun _ _ h => .pure h
  case h_4 => exact .pure h

end Patterns

end DocstringEditor.Syntax.Parser
