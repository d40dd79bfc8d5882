import DocstringEditor.Proofs.Syntax.Yields
import DocstringEditor.Syntax.Expression

namespace DocstringEditor.Syntax

open Forest (wrap leaves leaves_append Extras IsLegible Listed)

variable {s s' : Scan} {l : Lexeme} {ps qs : Forest} {k : Kind} {n : Node} {α β : Type}

namespace Forest

def Opened (ps : Forest) : Prop :=
  ∃ before n rest, ps = before ++ n :: rest ∧ Extras before ∧ ¬n.isExtra

theorem leaves_wrap (hk : k ≠ .string) : leaves (wrap k ps) = leaves ps := by
  rcases wrap_cases k ps with ⟨-, -, hw⟩ | ⟨before, n, rest, rfl, -, -, -, hw⟩
  · rw [hw]
  · rw [hw, leaves_append, leaves_append, leaves_cons, leaves_nil, List.append_nil]
    exact congrArg _ (Node.leaves_mk hk (List.cons_ne_nil n rest))

def Has (P : Kind → Prop) (ps : Forest) : Prop := ∃ l ∈ leaves ps, P l.kind

abbrev Foreign (ps : Forest) : Prop := Has (·.isForeign) ps

structure Marked (ps : Forest) : Prop where
  opened : Opened ps
  foreign : Foreign ps

theorem Opened.append (h : Opened ps) (qs : Forest) : Opened (ps ++ qs) := by
  obtain ⟨before, n, rest, rfl, hbefore, hn⟩ := h
  exact ⟨before, n, rest ++ qs, by simp, hbefore, hn⟩

variable {P : Kind → Prop}

theorem Has.append_left (h : Has P qs) (ps : Forest) : Has P (ps ++ qs) := by
  obtain ⟨l, hl, hk⟩ := h
  exact ⟨l, by simp [hl], hk⟩

theorem Has.append_right (h : Has P ps) (qs : Forest) : Has P (ps ++ qs) := by
  obtain ⟨l, hl, hk⟩ := h
  exact ⟨l, by simp [hl], hk⟩

theorem Has.leaf {a b : Location} (h : P k) (ps : Forest) : Has P (ps ++ [.leaf k a b]) := by
  refine .append_left ⟨.leaf k a b, ?_, h⟩ ps
  simp [leaves_cons, Node.leaves_of_leaf (n := .leaf k a b) rfl]

theorem Has.wrap (h : Has P ps) (hk : k ≠ .string) : Has P (wrap k ps) := by
  rwa [Has, leaves_wrap hk]

theorem Marked.append (h : Marked ps) (qs : Forest) : Marked (ps ++ qs) :=
  ⟨h.opened.append qs, h.foreign.append_right qs⟩

theorem Opened.mark (h : Opened ps) (hqs : Foreign qs) : Marked (ps ++ qs) :=
  ⟨h.append qs, hqs.append_left ps⟩

theorem IsLegible.opened (h : IsLegible ps) : Opened ps := by
  obtain ⟨before, n, rfl, hbefore, hn⟩ := h
  exact ⟨before, n, [], rfl, hbefore, hn.isNamed.2⟩

theorem wrap_of_extras {before rest : Forest} (hbefore : Extras before) (hn : ¬n.isExtra) :
    wrap k (before ++ n :: rest) = before ++
      [.mk k none n.start ((n :: rest).getLast (by simp)).stop (n :: rest)] := by
  have hspan : (before ++ n :: rest).span (·.isExtra) = (before, n :: rest) := by
    rw [List.span_eq_takeWhile_dropWhile, List.takeWhile_append_of_pos fun e he => (hbefore e he).1,
      List.dropWhile_append_of_pos fun e he => (hbefore e he).1, List.takeWhile_cons_of_neg hn,
      List.dropWhile_cons_of_neg hn, List.append_nil]
  rw [wrap, hspan]

def Itemized (ps : Forest) : Prop := ∃ before m rest, ps = before ++ m :: rest ∧
  Extras before ∧ m.Legible ∧ (rest = [] ∨ ∃ between c others, rest = between ++ c :: others ∧
    Extras between ∧ c.kind = .mark "," ∧ c.children = [] ∧ ∃ d ∈ others, d.isNamed)

theorem IsLegible.itemized (h : IsLegible ps) : Itemized ps := by
  obtain ⟨before, m, rfl, hbefore, hm⟩ := h
  exact ⟨before, m, [], rfl, hbefore, hm, .inl rfl⟩

namespace Itemized

theorem opened (h : Itemized ps) : Opened ps := by
  obtain ⟨before, m, rest, rfl, hbefore, hm, -⟩ := h
  exact ⟨before, m, rest, rfl, hbefore, hm.isNamed.2⟩

theorem dropWhile_eq {before rest : Forest} {m : Node} (hbefore : Extras before)
    (hm : m.Legible) : (before ++ m :: rest).dropWhile Node.isExtra = m :: rest := by
  rw [List.dropWhile_append_of_pos fun e he => (hbefore e he).1,
    List.dropWhile_cons_of_neg hm.isNamed.2]

theorem listed (h : Itemized ps) : Listed (ps.dropWhile Node.isExtra) := by
  obtain ⟨before, m, rest, rfl, hbefore, hm, hrest⟩ := h
  refine ⟨m, rest, dropWhile_eq hbefore hm, hm, hrest.imp_right ?_⟩
  rintro ⟨between, c, others, heq, hbetween, hc, hleaf, hothers⟩
  exact ⟨between, c, others, heq, hbetween, hc, hleaf, .inr hothers⟩

variable {between : Forest} {c : Node}

theorem listed_comma (h : Itemized ps) (hbetween : Extras between) (hc : c.kind = .mark ",")
    (hleaf : c.children = []) : Listed ((ps ++ (between ++ [c])).dropWhile Node.isExtra) := by
  obtain ⟨before, m, rest, rfl, hbefore, hm, hrest⟩ := h
  refine ⟨m, rest ++ (between ++ [c]), by rw [List.append_assoc, List.cons_append,
    dropWhile_eq hbefore hm], hm, .inr ?_⟩
  rcases hrest with rfl | ⟨between', c', others, rfl, hbetween', hc', hleaf', d, hd, hnamed⟩
  · exact ⟨between, c, [], rfl, hbetween, hc, hleaf, .inl rfl⟩
  · exact ⟨between', c', others ++ (between ++ [c]), by simp, hbetween', hc', hleaf',
      .inr ⟨d, by simp [hd], hnamed⟩⟩

theorem append (h : Itemized ps) (hbetween : Extras between) (hc : c.kind = .mark ",")
    (hleaf : c.children = []) (hqs : IsLegible qs) : Itemized (ps ++ (between ++ [c]) ++ qs) := by
  obtain ⟨before, m, rest, rfl, hbefore, hm, hrest⟩ := h
  obtain ⟨before', n, rfl, -, hn⟩ := hqs
  refine ⟨before, m, rest ++ (between ++ [c]) ++ (before' ++ [n]), by simp, hbefore, hm, .inr ?_⟩
  rcases hrest with rfl | ⟨between', c', others, rfl, hbetween', hc', hleaf', d, hd, hnamed⟩
  · exact ⟨between, c, before' ++ [n], by simp, hbetween, hc, hleaf, n, by simp, hn.isNamed.1⟩
  · exact ⟨between', c', others ++ (between ++ [c]) ++ (before' ++ [n]), by simp, hbetween', hc',
      hleaf', d, by simp [hd], hnamed⟩

end Itemized

theorem Opened.wrap (h : Opened ps) {k : Kind} (hk : k ≠ .string) :
    ∃ before n, wrap k ps = before ++ [n] ∧
    Extras before ∧ n.kind = k ∧ leaves ps = before ++ n.leaves ∧
    ∀ l ∈ leaves ps, ¬l.isExtra → l ∈ n.leaves := by
  obtain ⟨before, n, rest, rfl, hbefore, hn⟩ := h
  obtain ⟨m, hw, hk, hm⟩ : ∃ m, Forest.wrap k (before ++ n :: rest) = before ++ [m] ∧
      m.kind = k ∧ m.leaves = leaves (n :: rest) :=
    ⟨_, wrap_of_extras hbefore hn, rfl, Node.leaves_mk hk (List.cons_ne_nil n rest)⟩
  have hleaves : leaves (before ++ n :: rest) = before ++ m.leaves := by
    rw [hm, leaves_append, hbefore.leaves]
  refine ⟨before, m, hw, hbefore, hk, hleaves, fun l hl hextra => ?_⟩
  rw [hleaves, List.mem_append] at hl
  exact hl.resolve_left fun hl => hextra (hbefore l hl).1

/-- A phrase with a token of its own is legible. -/
theorem Marked.wrap (h : Marked ps) (hk : k.isOther) : IsLegible (wrap k ps) := by
  obtain ⟨before, n, hw, hbefore, rfl, -, hmem⟩ :=
    h.opened.wrap (k := k) (by rintro rfl; simp [Kind.isOther] at hk)
  obtain ⟨l, hl, hforeign⟩ := h.foreign
  have hl := hmem l hl (Kind.not_isExtra_of_isForeign hforeign)
  exact ⟨before, n, hw, hbefore, .of_foreign hk ⟨l, hl, hforeign⟩⟩

def Closed (ps : Forest) : Prop := ∃ ls c, leaves ps = ls ++ [c] ∧ c.kind = .mark ")"

theorem Closed.append_left (h : Closed qs) (ps : Forest) : Closed (ps ++ qs) := by
  obtain ⟨ls, c, hls, hc⟩ := h
  exact ⟨leaves ps ++ ls, c, by rw [leaves_append, hls, List.append_assoc], hc⟩

/-- A comma inside of parentheses makes a tuple, which is no literal. -/
theorem Closed.tuple (hclosed : Closed ps) (h : Opened ps) (hcomma : Has (· = .mark ",") ps) :
    IsLegible (Forest.wrap .tuple ps) := by
  obtain ⟨before, n, hw, hbefore, hk, heq, hmem⟩ := h.wrap (k := .tuple) (by decide)
  obtain ⟨ls, c, hls, hc⟩ := hclosed
  obtain ⟨rest, c', hn⟩ : ∃ rest c', n.leaves = rest ++ [c'] :=
    ⟨_, _, (List.dropLast_append_getLast (Node.leaves_ne_nil.1 n)).symm⟩
  have hlast : before ++ rest ++ [c'] = ls ++ [c] := by rw [List.append_assoc, ← hn, ← heq, hls]
  obtain rfl : c' = c := by simpa using (List.append_inj' hlast rfl).2
  obtain ⟨l, hl, hlk⟩ := hcomma
  have hl := hmem l hl (by simp [Node.isExtra, hlk, Kind.isExtra])
  refine ⟨before, n, hw, hbefore, .other (by rw [hk]; rfl) ⟨l, hl, by simp [hlk]⟩ ?_⟩
  intro ls hbare
  rw [hn] at hbare hl
  have henclosed := hbare.enclosed_of_last (by simp [hc])
  rcases henclosed.kind_of_mem hl with h | h | h | h <;>
    simp [hlk, Node.isExtra, Kind.isExtra] at h

theorem Opened.leaf {before : Forest} {a b : Location} (hbefore : Extras before)
    (hk : ¬k.isExtra) : Opened (before ++ [.leaf k a b]) :=
  ⟨before, .leaf k a b, [], rfl, hbefore, hk⟩

theorem not_isExtra_mark {text : String} {a b : Location} :
    ¬(Node.leaf (.mark text) a b).isExtra := Bool.false_ne_true

section Parentheses

variable {before after : Forest} {a b c d : Location} (hbefore : Extras before)
  (hafter : Extras after)
include hbefore hafter

theorem IsLegible.parenthesized (h : IsLegible ps) : IsLegible (Forest.wrap .parenthesized
    (before ++ [.leaf (.mark "(") a b] ++ ps ++ (after ++ [.leaf (.mark ")") c d]))) := by
  obtain ⟨between, m, rfl, hbetween, hm⟩ := h
  have heq : between ++ [m] ++ (after ++ [.leaf (.mark ")") c d]) =
      between ++ m :: after ++ [.leaf (.mark ")") c d] := by simp
  rw [List.append_assoc, List.append_assoc, List.singleton_append, heq,
    wrap_of_extras hbefore not_isExtra_mark]
  exact ⟨before, _, rfl, hbefore, .parenthesized rfl rfl ⟨rfl, rfl⟩ ⟨rfl, rfl⟩ hbetween hafter hm⟩

theorem isLegible_empty : IsLegible (Forest.wrap .tuple
    (before ++ [.leaf (.mark "(") a b] ++ (after ++ [.leaf (.mark ")") c d]))) := by
  rw [List.append_assoc, List.singleton_append, wrap_of_extras hbefore not_isExtra_mark]
  refine ⟨before, _, rfl, hbefore, ?_⟩
  set n := Node.mk .tuple _ _ _ _ with hn
  have hleaves : n.leaves = .leaf (.mark "(") a b :: after ++ [.leaf (.mark ")") c d] := by
    rw [hn, Node.leaves_mk (by decide) (List.cons_ne_nil _ _), leaves_of_single, List.cons_append]
    intro m hm
    refine .inr ?_
    simp only [List.mem_cons, List.mem_append, List.not_mem_nil, or_false] at hm
    rcases hm with rfl | hm | rfl
    · rfl
    · exact (hafter m hm).2
    · rfl
  refine .other rfl ⟨.leaf (.mark ")") c d, by simp [hleaves], by simp [Node.leaf, Node.kind]⟩ ?_
  intro ls hbare
  rw [hleaves] at hbare
  have hinside := (hbare.enclosed_of_last (by simp [Node.leaf, Node.kind])).inside rfl
  have hinside : Enclosed ls (after ++ [] ++ []) := by simpa using hinside
  obtain ⟨rfl, -⟩ := hinside.extras hafter fun _ h => absurd h List.not_mem_nil
  obtain ⟨_, _, hfirst, -⟩ := hinside.first
  exact absurd hfirst (List.cons_ne_nil _ _).symm

end Parentheses

theorem IsLegible.call (h : IsLegible ps) (hqs : Has (· = .mark "(") qs) :
    IsLegible (Forest.wrap .phrase (ps ++ qs)) := by
  obtain ⟨before, m, rfl, hbefore, hm⟩ := h
  obtain ⟨o, ho, hk⟩ := hqs
  obtain ⟨as, bs, hqs⟩ := List.append_of_mem ho
  obtain ⟨a, ha, hne⟩ := hm.closing
  have heq : before ++ [m] ++ qs = before ++ m :: qs := by simp
  rw [heq, wrap_of_extras hbefore hm.isNamed.2]
  refine ⟨before, _, rfl, hbefore, ?_⟩
  set n := Node.mk .phrase _ _ _ _ with hn
  have hleaves : n.leaves = (m.leaves ++ as) ++ o :: bs := by
    rw [hn, Node.leaves_mk (by decide) (List.cons_ne_nil m qs), leaves_cons, hqs, List.append_assoc]
  refine .other rfl ⟨a, by simp [hleaves, ha], hne⟩ fun ls hbare => ?_
  rw [hleaves] at hbare
  obtain ⟨_, henclosed⟩ := hbare.enclosed (by simp [hk])
  exact hne (henclosed.opening hk (List.mem_append_left as ha))

theorem isLegible_concatenated {before ns : Forest} (hbefore : Extras before) (h : Literals ns) :
    IsLegible (Forest.wrap .concatenatedString (before ++ ns)) := by
  obtain ⟨l, rest, rfl, hl⟩ := h.first
  rw [wrap_of_extras hbefore (by simp [Node.isExtra, hl, Kind.isExtra])]
  refine ⟨before, _, rfl, hbefore, .concatenated rfl h rfl ?_⟩
  exact congrArg _ (List.getLast?_eq_some_getLast (List.cons_ne_nil l rest))

end Forest

theorem Scan.extra?_leaf (h : s.extra? = some (n, s')) : n.isExtra ∧ n.children = [] := by
  unfold Scan.extra? at h
  split at h
  case h_6 => simp at h
  all_goals
    obtain ⟨rfl, -⟩ := Prod.mk.inj (Option.some.inj h)
    exact ⟨rfl, rfl⟩

theorem Scan.lexWithin_extras {e : Expected} {m : Nat} {ps : Forest} (h : Extras ps) (s : Scan) :
    Extras (s.lexWithin e m ps).extras := by
  induction m generalizing ps s with
  | zero => exact h
  | succ m ih =>
      rw [Scan.lexWithin]
      split
      · exact h
      · dsimp only
        split
        · rename_i node next hnode
          refine ih (fun n hn => ?_) next
          rcases List.mem_append.1 hn with hn | hn
          · exact h n hn
          · exact List.mem_singleton.1 hn ▸ extra?_leaf hnode
        · exact h

theorem Scan.lex_extras (e : Expected) (s : Scan) : Extras (s.lex e).extras :=
  lexWithin_extras (fun _ h => absurd h List.not_mem_nil) s

def Lexeme.isForeign (l : Lexeme) : Bool :=
  match l.token with
  | .name text | .mark text => text ∉ ["(", ")", ","]
  | _ => true

namespace Yields

variable {p : Parser α} {f : α → Parser β} {Q : β → Scan → Prop} {g : Lexeme → Parser β}

theorem step (h : ∀ a s, Yields (f a) s Q) : Yields (p >>= f) s Q :=
  .bind fun a s' _ => h a s'

theorem ahead {e : Expected} (h : ∀ l, l = s.lex e → l.extras.Extras → Yields (g l) s Q) :
    Yields (Parser.peek e >>= g) s Q :=
  .lex (h _ rfl (Scan.lex_extras e s))

end Yields

theorem Lexeme.isForeign_of_isMark {text : String} (h : l.isMark text)
    (htext : text ∉ ["(", ")", ","]) : l.isForeign := by
  simp only [Lexeme.isMark, decide_eq_true_eq] at h
  simp only [isForeign, h, htext, not_false_eq_true, decide_true]

theorem Lexeme.isForeign_of_isName {text : String} (h : l.isName text)
    (htext : text ∉ ["(", ")", ","]) : l.isForeign := by
  simp only [Lexeme.isName, decide_eq_true_eq] at h
  simp only [isForeign, h, htext, not_false_eq_true, decide_true]

namespace Parser

variable {text : String}

theorem takeAs_eq : Yields (takeAs l k) s fun ps s' => ps = l.leaf k ∧ s' = l.next := by
  intro ps s' hps
  obtain ⟨rfl, rfl⟩ := Prod.mk.inj (Option.some.inj hps)
  exact ⟨rfl, rfl⟩

theorem take_mark (hmark : l.isMark text) :
    Yields (take l) s fun ps _ => ps = l.extras ++ [.leaf (.mark text) l.start l.next.here] := by
  refine takeAs_eq.mono fun ps s' h => ?_
  simp only [Lexeme.isMark, decide_eq_true_eq] at hmark
  rw [h.1, Lexeme.leaf, hmark]

theorem take_has (hmark : l.isMark text) :
    Yields (take l) s fun ps _ => Forest.Has (· = .mark text) ps := by
  refine (take_mark hmark).mono fun _ _ h => ?_
  rw [h]
  exact .leaf (P := (· = .mark text)) rfl _

theorem take_closed (hmark : l.isMark ")") : Yields (take l) s fun ps _ => Forest.Closed ps := by
  refine (take_mark hmark).mono fun _ _ h => ?_
  rw [h]
  exact ⟨_, _, leaves_append, rfl⟩

theorem take_foreign (hl : l.isForeign) : Yields (take l) s fun ps _ => Forest.Foreign ps := by
  refine takeAs_eq.mono fun ps s' h => ?_
  rw [h.1, Lexeme.leaf]
  refine Forest.Has.leaf (P := (Kind.isForeign ·)) ?_ _
  unfold Lexeme.isForeign at hl
  split at hl <;> simp_all [Kind.isForeign]

theorem take_opened (hl : Extras l.extras) : Yields (take l) s fun ps _ => Forest.Opened ps := by
  refine takeAs_eq.mono fun ps s' h => ⟨l.extras, _, [], h.1, hl, ?_⟩
  split <;> simp [Node.isExtra, Node.leaf, Node.kind, Kind.isExtra]

theorem take_marked (hl : Extras l.extras) (hforeign : l.isForeign) :
    Yields (take l) s fun ps _ => Forest.Marked ps :=
  ((take_opened hl).and (take_foreign hforeign)).mono fun _ _ h => ⟨h.1, h.2⟩

theorem keyword_foreign {e : Expected} (htext : text ∉ ["(", ")", ","]) :
    Yields (keyword e text) s fun ps _ => Forest.Foreign ps :=
  .step fun _ _ => .ite
    (fun h => take_foreign (Lexeme.isForeign_of_isName (decide_eq_true h) htext)) fun _ => .failure

theorem takeAs_legible (hl : Extras l.extras) (hk : k.isOther) :
    Yields (takeAs l k) s fun ps _ => IsLegible ps := by
  have hleaf : (Node.leaf k l.start l.next.here).children = [] := rfl
  refine takeAs_eq.mono fun ps s' h => ⟨l.extras, _, h.1, hl, .of_foreign hk ?_⟩
  refine ⟨_, (Node.leaves_of_leaf hleaf).symm ▸ List.mem_singleton_self _, ?_⟩
  rw [Node.leaf, Node.kind]
  cases k <;> simp_all [Kind.isOther, Kind.isForeign]

theorem name_legible (hl : Extras l.extras) :
    Yields (name l) s fun ps s' => IsLegible ps ∧ s' = l.next := by
  unfold name
  split
  · exact (takeAs_legible hl rfl).and (takeAs_eq.mono fun _ _ h => h.2)
  · exact .failure

variable {g : Grammar} {f : Follow} {start : Forest}

section Displays

variable (hg : g.Legible)
include hg

omit hg in
theorem yieldExpression_legible (hl : Extras l.extras) (hname : l.isName "yield") :
    Yields (yieldExpression g l f) s fun ps _ => IsLegible ps := by
  have htake := take_marked (s := s) hl (Lexeme.isForeign_of_isName hname (by decide))
  refine .bind (htake.mono fun start _ h => .step fun first _ => ?_)
  refine .ite (fun _ => ?_) fun _ => .ite (fun _ => ?_) fun _ => .pure (h.wrap rfl)
  · exact .step fun _ _ => .step fun _ _ => .pure (((h.append _).append _).wrap rfl)
  · exact .step fun _ _ => .pure ((h.append _).wrap rfl)

theorem expressions_listed {stops : List String} (hl : Extras l.extras) :
    Yields (expressions g l f stops) s fun ps _ =>
      Forest.Opened ps ∧ Listed (ps.dropWhile Node.isExtra) := by
  refine .bind ((hg.expression f hl).mono fun _ _ h => ?_)
  refine .loop (I := fun ps _ => Forest.Itemized ps) h.itemized fun parts _ h => ?_
  refine .ahead fun comma _ hcomma => .ite (fun hmark => ?_) fun _ => .pure ⟨h.opened, h.listed⟩
  refine .bind ((take_mark hmark).mono fun qs _ hqs => .ahead fun l _ hl => ?_)
  rw [hqs]
  refine .ite (fun _ => ?_) fun _ => .pure ⟨h.opened.append _, h.listed_comma hcomma rfl rfl⟩
  exact .bind ((hg.expression f hl).mono fun _ _ h' => .pure (h.append hcomma rfl rfl h'))

theorem yieldOrExpressions_listed (hl : Extras l.extras) :
    Yields (yieldOrExpressions g l f) s fun ps _ =>
      Forest.Opened ps ∧ Listed (ps.dropWhile Node.isExtra) :=
  .ite (fun hname => (yieldExpression_legible hl hname).mono fun _ _ h =>
    ⟨h.opened, h.itemized.listed⟩) fun _ => expressions_listed hg hl

theorem element_legible (hl : Extras l.extras) :
    Yields (element g l) s fun ps _ => IsLegible ps := by
  refine .ite (fun hname => yieldExpression_legible hl hname) fun _ => .ite (fun hmark => ?_)
    fun _ => hg.expression _ hl
  have htake := take_marked (s := s) hl (Lexeme.isForeign_of_isMark hmark (by decide))
  exact .bind (htake.mono fun _ _ h => .step fun _ _ => .pure ((h.append _).wrap rfl))

omit hg in
theorem comprehension_foreign (hs : startsComprehension (s.lex Follow.bracketed.after)) :
    Yields (comprehension g) s fun ps _ => Forest.Foreign ps := by
  -- The loop does not stop before its first clause, which has a `for` in it.
  refine .loop (I := fun ps s' => ps = [] ∧ s' = s ∨ Forest.Foreign ps) (.inl ⟨rfl, rfl⟩)
    fun parts s₁ h => .lex (.ite (fun _ => ?_) fun hno => ?_)
  · refine .step fun _ _ => .bind ((keyword_foreign (by decide)).mono fun _ _ hfor => ?_)
    refine .step fun _ _ => .step fun _ _ => .step fun _ _ => .pure (.inr ?_)
    refine .append_left (.wrap ?_ (by decide)) _
    exact (((hfor.append_left _).append_right _).append_right _).append_right _
  · rcases h with ⟨rfl, rfl⟩ | h
    · exact absurd hs hno
    · refine .ite (fun _ => ?_) fun _ => .pure h
      exact .step fun _ _ => .step fun _ _ => .pure (.inr (h.append_right _))

omit hg in
/-- Where a tuple goes on after its first element there is a comma. -/
theorem elements_comma (h : Forest.Opened start)
    (hs : ¬(s.lex Follow.bracketed.after).isMark ")") :
    Yields (elements g start ")") s fun ps _ =>
      Forest.Opened ps ∧ Forest.Closed ps ∧ Forest.Has (· = .mark ",") ps := by
  -- No closing parenthesis is next to the first element, so the loop goes on with a comma.
  refine .loop (I := fun ps s' => Forest.Opened ps ∧ (s' = s ∨ Forest.Has (· = .mark ",") ps))
    ⟨h, .inl rfl⟩ fun parts s₁ h => .lex (.ite (fun hclose => ?_) fun _ => .ite (fun hmark => ?_)
      fun _ => .failure)
  · have hcomma := h.2.resolve_left fun heq => hs (heq ▸ hclose)
    refine .bind ((take_closed hclose).mono fun qs _ hqs => .pure ?_)
    exact ⟨h.1.append qs, hqs.append_left _, hcomma.append_right qs⟩
  · refine .bind ((take_has hmark).mono fun qs _ hqs => .lex ?_)
    have h := h.1.append qs
    have hcomma := hqs.append_left parts
    refine .ite (fun hclose => ?_) fun _ => ?_
    · refine .bind ((take_closed hclose).mono fun qs _ hqs => .pure ?_)
      exact ⟨h.append qs, hqs.append_left _, hcomma.append_right qs⟩
    · exact .step fun qs _ => .pure ⟨h.append qs, .inr (hcomma.append_right qs)⟩

/-- In parentheses stands one expression, unless there are words or commas of other phrases. -/
theorem parentheses_legible (hl : Extras l.extras) (hmark : l.isMark "(") :
    Yields (parentheses g l) s fun ps _ => IsLegible ps := by
  refine .bind ((take_mark hmark).mono fun start _ hstart => .ahead fun first _ hfirst => ?_)
  subst hstart
  have hopened := Forest.Opened.leaf (k := .mark "(") (a := l.start) (b := l.next.here) hl
    Bool.false_ne_true
  refine .ite (fun hclose => ?_) fun _ => .bind ((element_legible hg hfirst).mono fun _ _ h => ?_)
  · refine .bind ((take_mark hclose).mono fun _ _ hps => .pure ?_)
    subst hps
    exact Forest.isLegible_empty hl hfirst
  refine .ahead fun next hnext hextras => .ite (fun hclose => ?_) fun hclose =>
    .ite (fun hbody => ?_) fun _ => ?_
  · refine .bind ((take_mark hclose).mono fun _ _ hps => .pure ?_)
    subst hps
    exact h.parenthesized hl hextras
  · rw [hnext, Bool.and_eq_true] at hbody
    refine .bind ((comprehension_foreign hbody.1).mono fun _ _ hfor => .step fun _ _ => .pure ?_)
    exact (((hopened.append _).mark hfor).append _).wrap rfl
  · refine .bind ((elements_comma (hopened.append _) (hnext ▸ hclose)).mono fun _ _ h => .pure ?_)
    exact h.2.1.tuple h.1 h.2.2

omit hg in
theorem elements_marked {close : String} (h : Forest.Marked start) :
    Yields (elements g start close) s fun ps _ => Forest.Marked ps := by
  refine .loop (I := fun ps _ => Forest.Marked ps) h fun _ _ h => .lex (.ite (fun _ => ?_)
    fun _ => .ite (fun _ => ?_) fun _ => .failure)
  · exact .step fun _ _ => .pure (h.append _)
  refine .step fun _ _ => .lex (.ite (fun _ => ?_) fun _ => ?_)
  · exact .step fun _ _ => .pure ((h.append _).append _)
  · exact .step fun _ _ => .pure ((h.append _).append _)

omit hg in
theorem brackets_legible (hl : Extras l.extras) (hmark : l.isMark "[") :
    Yields (brackets g l) s fun ps _ => IsLegible ps := by
  have htake := take_marked (s := s) hl (Lexeme.isForeign_of_isMark hmark (by decide))
  refine .bind (htake.mono fun _ _ h => .lex (.ite (fun _ => ?_) fun _ => ?_))
  · exact .step fun _ _ => .pure ((h.append _).wrap rfl)
  refine .step fun _ _ => .lex (.ite (fun _ => ?_) fun _ => ?_)
  · exact .step fun _ _ => .step fun _ _ => .pure ((((h.append _).append _).append _).wrap rfl)
  · exact .bind ((elements_marked (h.append _)).mono fun _ _ h => .pure (h.wrap rfl))

omit hg in
theorem entries_marked (h : Forest.Marked start) :
    Yields (entries g start) s fun ps _ => Forest.Marked ps := by
  refine .loop (I := fun ps _ => Forest.Marked ps) h fun _ _ h => .lex (.ite (fun _ => ?_)
    fun _ => .ite (fun _ => ?_) fun _ => .failure)
  · exact .step fun _ _ => .pure (h.append _)
  refine .step fun _ _ => .lex (.ite (fun _ => ?_) fun _ => .ite (fun _ => ?_) fun _ => ?_)
  · exact .step fun _ _ => .pure ((h.append _).append _)
  · exact .step fun _ _ => .step fun _ _ => .pure ((h.append _).append _)
  · exact .step fun _ _ => .step fun _ _ => .pure ((h.append _).append _)

omit hg in
theorem braces_legible (hl : Extras l.extras) (hmark : l.isMark "\x7b") :
    Yields (braces g l) s fun ps _ => IsLegible ps := by
  have htake := take_marked (s := s) hl (Lexeme.isForeign_of_isMark hmark (by decide))
  refine .bind (htake.mono fun _ _ h => .lex (.ite (fun _ => ?_) fun _ => .ite (fun _ => ?_)
    fun _ => .ite (fun _ => ?_) fun _ => ?_))
  · exact .step fun _ _ => .pure ((h.append _).wrap rfl)
  · exact .step fun _ _ => .step fun _ _ => .pure (((h.append _).append _).wrap rfl)
  · refine .step fun _ _ => .step fun _ _ => ?_
    exact .bind ((entries_marked (h.append _)).mono fun _ _ h => .pure (h.wrap rfl))
  refine .step fun _ _ => .lex (.ite (fun _ => ?_) fun _ => .ite (fun _ => ?_) fun _ => ?_)
  · refine .step fun _ _ => .lex (.ite (fun _ => ?_) fun _ => ?_)
    · exact .step fun _ _ => .step fun _ _ => .pure ((((h.append _).append _).append _).wrap rfl)
    · exact .bind ((entries_marked (h.append _)).mono fun _ _ h => .pure (h.wrap rfl))
  · exact .step fun _ _ => .step fun _ _ => .pure ((((h.append _).append _).append _).wrap rfl)
  · exact .bind ((elements_marked (h.append _)).mono fun _ _ h => .pure (h.wrap rfl))

end Displays

section Operands

theorem literalRest_opening {style : StringStyle} (opening : Forest) :
    Yields (literalRest g style opening) s fun ps _ => opening <+: ps := by
  refine .get (.loop (I := fun x _ => opening <+: x.1) (List.prefix_refl opening) ?_)
  intro (parts, start) _ h
  have hmore (qs : Forest) : opening <+: parts ++ qs := h.trans (List.prefix_append parts qs)
  refine .get ?_
  split
  · refine .step fun _ _ => .get (.get (.step fun _ _ => .step fun _ _ => .get (.pure ?_)))
    exact (hmore _).trans (List.prefix_append _ _)
  · exact .step fun _ _ => .pure h
  · exact .get (.step fun _ _ => .get (.pure ((hmore _).trans (List.prefix_append _ _))))
  · exact .failure

theorem literal_single (hl : Extras l.extras) : Yields (literal g l) s fun ps _ =>
    ∃ n : Node, ps = l.extras ++ [n] ∧ n.kind = .string := by
  unfold literal
  split
  · refine .set (.bind ((literalRest_opening _).mono fun ps _ ⟨rest, hps⟩ => .pure ?_))
    have hopening : ¬(Node.leaf .stringStart l.start l.next.here).isExtra := Bool.false_ne_true
    rw [← hps, Lexeme.leaf, List.append_assoc, List.singleton_append,
      Forest.wrap_of_extras hl hopening]
    exact ⟨_, rfl, rfl⟩
  · exact .failure

theorem literals_legible (hl : Extras l.extras) :
    Yields (literals g l f) s fun ps _ => IsLegible ps := by
  refine .bind ((literal_single hl).mono fun _ _ ⟨n, hps, hk⟩ => ?_)
  -- The extras before the first literal stay outside of what is put together.
  refine .loop (I := fun x _ => ∃ ns, x.1 = l.extras ++ ns ∧ Literals ns ∧
    (x.2 = false → ∃ n : Node, ns = [n] ∧ n.kind = .string))
    ⟨[n], hps, (Node.isLiteral_string hk).literals, fun _ => ⟨n, rfl, hk⟩⟩ ?_
  intro (parts, several) _ ⟨ns, hparts, hns, hone⟩
  obtain rfl : parts = l.extras ++ ns := hparts
  refine .ahead fun next _ hnext => ?_
  split
  · refine .bind ((literal_single hnext).mono fun _ _ ⟨m, hps, hk⟩ => .pure ?_)
    refine ⟨ns ++ (next.extras ++ [m]), ?_, hns.append hnext hk, nofun⟩
    rw [hps, List.append_assoc]
  · refine .pure ?_
    cases several
    · obtain ⟨n, rfl, hk⟩ := hone rfl
      exact ⟨l.extras, n, rfl, hl, .string hk⟩
    · exact Forest.isLegible_concatenated hl hns

theorem arguments_has {ofCall : Bool} (hmark : l.isMark "(") :
    Yields (arguments g l ofCall) s fun ps _ => Forest.Has (· = .mark "(") ps := by
  refine .bind ((take_has hmark).mono fun _ _ h => .lex (.ite (fun _ => ?_)
    fun _ => .ite (fun _ => ?_) fun _ => ?_))
  · exact .step fun _ _ => .pure ((h.append_right _).wrap (by decide))
  · exact .step fun _ _ => .step fun _ _ => .pure (((h.append_right _).append_right _).wrap (by decide))
  refine .step fun value _ => .lex (.ite (fun _ => ?_) fun _ => ?_)
  · refine .step fun _ _ => .step fun _ _ => .pure (.wrap ?_ (by decide))
    exact ((h.append_right _).append_right _).append_right _
  refine .bind (.mono (R := fun ps _ => Forest.Has (· = .mark "(") ps) ?_
    fun _ _ h => .pure (h.wrap (by decide)))
  refine .loop (I := fun ps _ => Forest.Has (· = .mark "(") ps) (h.append_right _) fun _ _ h =>
    .lex (.ite (fun _ => ?_) fun _ => .ite (fun _ => ?_) fun _ => .failure)
  · exact .step fun _ _ => .pure (h.append_right _)
  refine .step fun _ _ => .lex (.ite (fun _ => ?_) fun _ => ?_)
  · exact .step fun _ _ => .pure ((h.append_right _).append_right _)
  · exact .step fun _ _ => .pure ((h.append_right _).append_right _)

theorem subscripts_foreign (hmark : l.isMark "[") :
    Yields (subscripts g l) s fun ps _ => Forest.Foreign ps := by
  have htake := take_foreign (s := s) (Lexeme.isForeign_of_isMark hmark (by decide))
  refine .bind (htake.mono fun _ _ h => .lex (.step fun _ _ => ?_))
  refine .loop (I := fun ps _ => Forest.Foreign ps) (h.append_right _) fun _ _ h =>
    .lex (.ite (fun _ => ?_) fun _ => .ite (fun _ => ?_) fun _ => .failure)
  · exact .step fun _ _ => .pure (h.append_right _)
  refine .step fun _ _ => .lex (.ite (fun _ => ?_) fun _ => ?_)
  · exact .step fun _ _ => .pure ((h.append_right _).append_right _)
  · exact .step fun _ _ => .pure ((h.append_right _).append_right _)

variable (hg : g.Legible)
include hg

theorem atom_legible (hl : Extras l.extras) : Yields (atom g l f) s fun ps _ => IsLegible ps := by
  unfold atom
  split
  case h_6 => exact (name_legible hl).mono fun _ _ h => h.1
  case h_7 => exact literals_legible hl
  case h_8 htoken => exact parentheses_legible hg hl (decide_eq_true htoken)
  case h_9 htoken => exact brackets_legible hl (decide_eq_true htoken)
  case h_10 htoken => exact braces_legible hl (decide_eq_true htoken)
  case h_11 => exact .failure
  all_goals exact takeAs_legible hl rfl

theorem primary_legible (hl : Extras l.extras) :
    Yields (primary g l f) s fun ps _ => IsLegible ps := by
  refine .bind ((atom_legible hg hl).mono fun _ _ h => ?_)
  refine .loop (I := fun ps _ => IsLegible ps) h fun _ _ h => .lex ?_
  split
  case h_1 htoken =>
    refine .bind ((take_foreign (by simp [Lexeme.isForeign, htoken])).mono fun _ _ hdot => ?_)
    exact .lex (.step fun _ _ => .pure (((h.opened.mark hdot).append _).wrap rfl))
  case h_2 htoken =>
    exact .bind ((arguments_has (decide_eq_true htoken)).mono fun _ _ hqs => .pure (h.call hqs))
  case h_3 htoken =>
    refine .bind ((subscripts_foreign (decide_eq_true htoken)).mono fun _ _ hqs => .pure ?_)
    exact (h.opened.mark hqs).wrap rfl
  case h_4 => exact .pure h

theorem operand_legible (hl : Extras l.extras) :
    Yields (operand g l f) s fun ps _ => IsLegible ps := by
  unfold operand
  split
  case h_4 htoken =>
    refine .bind ((take_marked hl (by simp [Lexeme.isForeign, htoken])).mono fun _ _ h => ?_)
    refine .lex (.step fun _ _ => ?_)
    split
    · exact .ite (fun _ => .pure ((h.append _).wrap rfl)) fun _ => .failure
    · exact .failure
  case h_5 htoken =>
    refine .orElse ?_ (primary_legible hg hl)
    refine .bind ((take_marked hl (by simp [Lexeme.isForeign, htoken])).mono fun _ _ h => ?_)
    refine .lex (.ite (fun _ => .step fun _ _ => ?_) fun _ => .failure)
    exact .pure ((h.append _).wrap rfl)
  case h_6 => exact primary_legible hg hl
  all_goals
    refine .bind ((take_marked hl (by simp [Lexeme.isForeign, *])).mono fun _ _ h => ?_)
    exact .lex (.step fun _ _ => .pure ((h.append _).wrap rfl))

end Operands

section Expressions

theorem lambda_legible (hl : Extras l.extras) (hname : l.isName "lambda") :
    Yields (lambda g l f) s fun ps _ => IsLegible ps := by
  have htake := take_marked (s := s) hl (Lexeme.isForeign_of_isName hname (by decide))
  refine .bind (htake.mono fun _ _ h => .step fun _ _ => .step fun _ _ => .step fun _ _ => ?_)
  exact .pure ((((h.append _).append _).append _).wrap rfl)

variable (hg : g.Legible)
include hg

theorem conjunct_legible (hl : Extras l.extras) :
    Yields (conjunct g l f) s fun ps _ => IsLegible ps := by
  refine .loop (I := fun x _ => (x.1 = [] ∨ Forest.Marked x.1) ∧ Extras x.2.extras)
    ⟨.inl rfl, hl⟩ fun (negations, l) _ ⟨h, hl⟩ => ?_
  have hfinish {parts : Forest} (h' : IsLegible parts) : IsLegible
      (if negations.isEmpty then parts else wrap .phrase (negations ++ parts)) := by
    rcases h with rfl | h
    · exact h'
    · split
      · exact h'
      · exact (h.append parts).wrap rfl
  dsimp only at hl ⊢
  split
  case h_1 htoken =>
    refine .bind ((take_marked hl (by simp [Lexeme.isForeign, htoken])).mono fun _ _ h' => ?_)
    refine .ahead fun _ _ hl => .pure ⟨.inr ?_, hl⟩
    rcases h with rfl | h
    · exact h'
    · exact h.append _
  case h_2 htoken =>
    refine .bind ((lambda_legible hl (decide_eq_true htoken)).mono fun _ _ h' => .pure (hfinish h'))
  case h_3 =>
    refine .ite (fun hequals => ?_) fun _ => ?_
    · refine .bind ((name_legible hl).mono fun _ _ ⟨h', hs⟩ => .lex ?_)
      subst hs
      refine .bind ((take_foreign (Lexeme.isForeign_of_isMark hequals (by decide))).mono
        fun _ _ hfor => .step fun _ _ => .pure (hfinish ?_))
      exact ((h'.opened.mark hfor).append _).wrap rfl
    · exact .bind ((hg.operand f hl).mono fun _ _ h' => .pure (hfinish h'))
  case h_4 => exact .bind ((hg.operand f hl).mono fun _ _ h' => .pure (hfinish h'))

/-- Operands are followed by operators, each a mark or a word of its own. -/
theorem chain_legible (hl : Extras l.extras) :
    Yields (chain g l f) s fun ps _ => IsLegible ps := by
  refine .bind ((conjunct_legible hg hl).mono fun _ _ h => ?_)
  -- Behind the first operator the nodes are marked by it; before that they are one expression.
  let I (x : Forest × Bool) (_ : Scan) := if x.2 then Forest.Marked x.1 else IsLegible x.1
  refine .loop (I := I) h fun (parts, several) s₁ h => .ahead fun l _ _ => ?_
  have hopened : Forest.Opened parts := by
    cases several
    · exact IsLegible.opened h
    · exact Forest.Marked.opened h
  have hstop : IsLegible (if several then wrap .phrase parts else parts) := by
    cases several
    · exact h
    · exact Forest.Marked.wrap h rfl
  have hoperator (hforeign : l.isForeign) {f : Forest → Parser (Forest × Bool ⊕ Forest)}
      (hf : ∀ {ps s}, Forest.Marked ps → Yields (f ps) s (Steps I fun ps _ => IsLegible ps)) :
      Yields ((do return parts ++ (← take l) : Parser Forest) >>= f) s₁
        (Steps I fun ps _ => IsLegible ps) :=
    .bind (.bind ((take_foreign hforeign).mono fun _ _ h => .pure (hf (hopened.mark h))))
  dsimp only
  split
  case h_1 text htoken =>
    refine .ite (fun hmem => ?_) fun _ => .pure hstop
    have hall : ∀ text ∈ operators, text ∉ ["(", ")", ","] := by decide
    have hforeign := Lexeme.isForeign_of_isMark (decide_eq_true htoken) (hall text hmem)
    exact hoperator hforeign fun h => .lex (.step fun _ _ => .pure (h.append _))
  case h_9 => exact .pure hstop
  all_goals
    rename_i htoken
    have hforeign : l.isForeign := by simp [Lexeme.isForeign, htoken]
  case h_2 => exact hoperator hforeign fun h => .lex (.step fun _ _ => .pure (h.append _))
  case h_3 =>
    refine hoperator hforeign fun h => .step fun _ _ => .lex (.step fun _ _ => .pure ?_)
    exact (h.append _).append _
  case h_4 =>
    refine hoperator hforeign fun h => .lex (.ite (fun _ => ?_) fun _ => ?_)
    · exact .step fun _ _ => .lex (.step fun _ _ => .pure ((h.append _).append _))
    · exact .step fun _ _ => .pure (h.append _)
  case h_5 | h_6 => exact hoperator hforeign fun h => .lex (.step fun _ _ => .pure (h.append _))
  case h_7 => exact hoperator hforeign fun h => .step fun _ _ => .pure ((h.append _).wrap rfl)
  case h_8 =>
    refine .ite (fun _ => ?_) fun _ => .pure hstop
    refine hoperator hforeign fun h => .step fun _ _ => .step fun _ _ => .step fun _ _ => ?_
    exact .pure ((((h.append _).append _).append _).wrap rfl)

end Expressions

end Parser

end DocstringEditor.Syntax
