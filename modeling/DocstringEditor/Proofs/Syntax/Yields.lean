import DocstringEditor.Proofs.Syntax.Token
import DocstringEditor.Syntax.Parser

namespace DocstringEditor.Syntax

open Forest (Loose Plain Begun)

variable {T : Text} {s s' : Scan} {l : Lexeme} {a : Location} {ps : Forest} {lo : Nat}
variable {α β σ : Type}

/-- Whether all that a parser returns from a scan, with the scan it leaves, has a property. -/
def Yields (p : Parser α) (s : Scan) (Q : α → Scan → Prop) : Prop :=
  ∀ a s', p s = some (a, s') → Q a s'

/-- What the outcome of a loop's step has to be, given the loop's invariant and its result. -/
def Steps (I : σ → Scan → Prop) (Q : α → Scan → Prop) : σ ⊕ α → Scan → Prop
  | .inl x, s => I x s
  | .inr a, s => Q a s

/-- Nodes without a definition that stand between a place and a scan. -/
structure Reads (T : Text) (a : Location) (ps : Forest) (s : Scan) : Prop where
  here : s.In T
  plain : Plain T a ps s.here

/-- Nodes without a definition that stand between a place and a scan, where text of the literal that
they are part of may be among them. -/
structure Covers (T : Text) (a : Location) (ps : Forest) (s : Scan) : Prop where
  here : s.In T
  loose : Loose T a ps s.here

/-- Nodes of one or more statements with the token that they start with. They stand between a scan
and the end of a line; the token is a word or a mark if there are definitions among them. -/
structure States (T : Text) (s : Scan) (l : Lexeme) (ps : Forest) (s' : Scan) : Prop where
  here : s'.In T
  ends : EndsLine s'.rest
  nodes : Plain T s.here ps s'.here ∨
    l.token.isSolid ∧ Begun T l.start.row s.here ps s'.here

namespace Yields

variable {p q : Parser α} {f : α → Parser β} {Q : β → Scan → Prop} {R : α → Scan → Prop}

theorem mono (h : Yields p s R) {R' : α → Scan → Prop} (hR : ∀ a s, R a s → R' a s) :
    Yields p s R' := fun a s' ha => hR a s' (h a s' ha)

theorem and {R' : α → Scan → Prop} (h : Yields p s R) (h' : Yields p s R') :
    Yields p s fun a s => R a s ∧ R' a s := fun a s' ha => ⟨h a s' ha, h' a s' ha⟩

theorem pure {a : α} (h : R a s) : Yields (Pure.pure a) s R := by
  intro b s' hb
  obtain ⟨rfl, rfl⟩ := Prod.mk.inj (Option.some.inj hb)
  exact h

theorem bind (h : Yields p s fun a s' => Yields (f a) s' Q) : Yields (p >>= f) s Q := by
  intro b s' hb
  obtain ⟨⟨a, s₁⟩, ha, hb⟩ := Option.bind_eq_some_iff.1 hb
  exact h a s₁ ha b s' hb

theorem failure : Yields (failure : Parser α) s R := by
  intro a s' ha
  have hnone : (Alternative.failure : Parser α) s = none := rfl
  simp [hnone] at ha

theorem orElse (hp : Yields p s R) (hq : Yields q s R) : Yields (p <|> q) s R := by
  intro a s' ha
  have horElse : (p <|> q) s = (p s <|> q s) := rfl
  rw [horElse] at ha
  cases h : p s with
  | none =>
      rw [h] at ha
      exact hq a s' ha
  | some r =>
      rw [h] at ha
      obtain rfl : r = (a, s') := by simpa using ha
      exact hp a s' h

theorem ite {c : Prop} [Decidable c] (hp : c → Yields p s R) (hq : ¬c → Yields q s R) :
    Yields (if c then p else q) s R := by
  split
  · exact hp ‹_›
  · exact hq ‹_›

theorem loop {x : σ} {step : σ → Parser (σ ⊕ α)} {I : σ → Scan → Prop} (h : I x s)
    (hstep : ∀ x s, I x s → Yields (step x) s (Steps I R)) :
    Yields (Parser.loop x step) s R := by
  suffices hn : ∀ n x s, I x s → Yields (iterate step n x) s R from hn _ x s h
  intro n
  induction n with
  | zero => exact fun _ _ _ => failure
  | succ n ih =>
      intro x s hx
      rw [iterate]
      refine bind ((hstep x s hx).mono fun r s' hr => ?_)
      cases r with
      | inl x => exact ih x s' hr
      | inr a => exact pure hr

theorem get {f : Scan → Parser β} (h : Yields (f s) s Q) : Yields (MonadState.get >>= f) s Q :=
  bind fun _ _ ha => by
    obtain ⟨rfl, rfl⟩ : s = _ ∧ s = _ := by
      simpa [MonadState.get, getThe, MonadStateOf.get, StateT.get] using ha
    exact h

theorem set {f : PUnit → Parser β} (h : Yields (f ⟨⟩) s' Q) :
    Yields (MonadState.set s' >>= f) s Q :=
  bind fun _ _ ha => by
    obtain ⟨-, rfl⟩ := Prod.mk.inj (Option.some.inj ha)
    exact h

theorem update {g : Scan → Scan} {f : PUnit → Parser β} (h : Yields (f ⟨⟩) (g s) Q) :
    Yields (modify g >>= f) s Q :=
  bind fun _ _ ha => by
    obtain rfl : g s = _ := by
      simpa [modify, modifyGet, MonadStateOf.modifyGet, StateT.modifyGet] using ha
    exact h

theorem lex {e : Expected} {f : Lexeme → Parser β} (h : Yields (f (s.lex e)) s Q) :
    Yields (Parser.peek e >>= f) s Q :=
  bind fun l s' hl => by
    obtain ⟨rfl, rfl⟩ : s.lex e = l ∧ s = s' := by simpa [Parser.peek] using hl
    exact h

theorem peek {e : Expected} {f : Lexeme → Parser β} (hs : s.In T)
    (h : ∀ l, Ahead T s l → Yields (f l) s Q) : Yields (Parser.peek e >>= f) s Q :=
  lex (h _ (lex_ahead hs))

end Yields

namespace Reads

variable {qs : Forest} {k : Kind}

theorem refl (hs : s.In T) : Reads T s.here [] s := ⟨hs, .refl hs.place⟩

theorem append (h : Reads T a ps s) (h' : Reads T s.here qs s') : Reads T a (ps ++ qs) s' :=
  ⟨h'.here, h.plain.append h'.plain⟩

theorem wrap (h : Reads T a ps s) (hk : k.isFree) : Reads T a (Forest.wrap k ps) s := by
  obtain ⟨hphrase, hdef, -⟩ := Kind.isFree_iff.1 hk
  exact ⟨h.here, h.plain.wrap hphrase hdef (.of_isFree hk fun _ => h.plain.closed)⟩

theorem wrap_statement (h : Reads T a ps s) (hps : Forest.Listed (ps.dropWhile Node.isExtra)) :
    Reads T a (Forest.wrap .expressionStatement ps) s :=
  ⟨h.here, h.plain.wrap rfl (by decide)
    ⟨by simp [Kind.isDefinition], fun _ => hps, by simp, fun _ => h.plain.closed⟩⟩

end Reads

namespace Covers

variable {qs : Forest} {k : Kind}

theorem refl (hs : s.In T) : Covers T s.here [] s := ⟨hs, .refl hs.place⟩

theorem append (h : Covers T a ps s) (h' : Covers T s.here qs s') : Covers T a (ps ++ qs) s' :=
  ⟨h'.here, h.loose.append h'.loose⟩

theorem wrap (h : Covers T a ps s) (hk : k.isFree) (htext : k.holdsText) :
    Covers T a (Forest.wrap k ps) s := by
  obtain ⟨hphrase, hdef, -⟩ := Kind.isFree_iff.1 hk
  exact ⟨h.here, h.loose.wrap hphrase hdef (.of_isFree hk (absurd htext))⟩

end Covers

theorem Reads.covers (h : Reads T a ps s) : Covers T a ps s := ⟨h.here, h.plain.toLoose⟩

/-- What a parser adds to nodes that have been read. -/
theorem Yields.grow {p : Parser Forest} {f : Forest → Parser α} {Q : α → Scan → Prop}
    (h : Reads T a ps s) (hp : Yields p s (Reads T s.here))
    (hf : ∀ qs s', Reads T a (ps ++ qs) s' → Yields (f qs) s' Q) : Yields (p >>= f) s Q :=
  .bind (hp.mono fun qs s' h' => hf qs s' (h.append h'))

structure Grammar.Legible (g : Grammar) : Prop where
  expression : ∀ {s l} f, l.extras.Extras → Yields (g (.expression l f)) s fun ps _ => ps.IsLegible
  operand : ∀ {s l} f, l.extras.Extras → Yields (g (.operand l f)) s fun ps _ => ps.IsLegible

structure Grammar.Sound (T : Text) (g : Grammar) : Prop where
  legible : g.Legible
  expression : ∀ {s l} f, Ahead T s l → Yields (g (.expression l f)) s (Reads T s.here)
  operand : ∀ {s l} f, Ahead T s l → Yields (g (.operand l f)) s (Reads T s.here)
  field : ∀ {s : Scan}, s.In T → Yields (g .field) s (Covers T s.here)
  union : ∀ {s l} f, Ahead T s l → Yields (g (.union l f)) s (Reads T s.here)
  casePattern : ∀ {s l} f, Ahead T s l → Yields (g (.casePattern l f)) s (Reads T s.here)
  statement : ∀ {s l} nested, Ahead T s l → Yields (g (.statement l nested)) s (States T s l)

namespace Lexeme

theorem isSolid_of_isMark {text : String} (h : l.isMark text) : l.token.isSolid := by
  simp [Lexeme.isMark] at h
  simp [h, Token.isSolid]

theorem isSolid_of_isName {text : String} (h : l.isName text) : l.token.isSolid := by
  simp [Lexeme.isName] at h
  simp [h, Token.isSolid]

end Lexeme

namespace Ahead

variable {text : String}

theorem leaves (h : Ahead T s l) : l.extras.Extras := fun n hn =>
  ⟨h.isExtra n hn, (h.extras.sound_of_mem hn).leaf_of_isExtra (h.isExtra n hn)⟩

theorem leaf {k : Kind} (h : Ahead T s l) (hsolid : l.token.isSolid)
    (hk : k ≠ .module ∧ ¬k.isDefinition ∧ k ≠ .stringContent) (hextra : ¬k.isExtra) :
    Reads T s.here (l.leaf k) l.next := by
  obtain ⟨t, hfrom, ht, hchars⟩ := h.solid hsolid
  have hspells := Kind.spells_of_solid hextra hchars l.next.rest
  refine ⟨h.next, h.extras.append (.leaf hfrom ht hk hspells ?_)⟩
  exact fun _ hlast => hchars _ (List.mem_of_getLast? hlast) (by decide)

theorem take (h : Ahead T s l) (hsolid : l.token.isSolid) :
    Yields (Parser.take l) s' (Reads T s.here) := by
  intro ps s₁ hps
  obtain ⟨rfl, rfl⟩ : l.leaf _ = ps ∧ l.next = s₁ := by
    simpa [Parser.take, Parser.takeAs] using hps
  refine h.leaf hsolid ?_ ?_ <;> split <;> simp [Kind.isDefinition, Kind.isExtra]

theorem takeAs {k : Kind} (h : Ahead T s l) (hsolid : l.token.isSolid)
    (hk : (k ≠ .module ∧ ¬k.isDefinition ∧ k ≠ .stringContent) ∧ ¬k.isExtra) :
    Yields (Parser.takeAs l k) s' (Reads T s.here) := by
  intro ps s₁ hps
  obtain ⟨rfl, rfl⟩ : l.leaf k = ps ∧ l.next = s₁ := by simpa [Parser.takeAs] using hps
  exact h.leaf hsolid hk.1 hk.2

theorem takeMark (h : Ahead T s l) (hmark : l.isMark text) :
    Yields (Parser.take l) s' (Reads T s.here) := h.take (Lexeme.isSolid_of_isMark hmark)

theorem takeName (h : Ahead T s l) (hname : l.isName text) :
    Yields (Parser.take l) s' (Reads T s.here) := h.take (Lexeme.isSolid_of_isName hname)

theorem takeLayout (h : Ahead T s l) (htoken : l.token ∈ [.newline, .indent, .dedent, .finish]) :
    Yields (Parser.takeLayout l) s' (Reads T s.here) := by
  intro ps s₁ hps
  obtain ⟨rfl, rfl⟩ : l.extras = ps ∧ l.next = s₁ := by simpa [Parser.takeLayout] using hps
  exact ⟨h.next, (h.layout htoken).symm ▸ h.extras⟩

theorem name_solid (l : Lexeme) (s : Scan) :
    Yields (Parser.name l) s fun ps _ => ∃ m ∈ ps, ¬m.isExtra := by
  unfold Parser.name
  split
  · intro ps s₁ hps
    obtain ⟨rfl, -⟩ : l.leaf .identifier = ps ∧ l.next = s₁ := by
      simpa [Parser.takeAs] using hps
    refine ⟨_, List.mem_append_right _ (List.mem_singleton_self _), ?_⟩
    simp [Node.isExtra, Node.leaf, Node.kind, Kind.isExtra]
  · exact .failure

theorem takeEnd (h : Ahead T s l) (htoken : l.token = .newline ∨ l.token = .dedent) :
    Yields (Parser.takeLayout l) s' fun ps s₁ => Reads T s.here ps s₁ ∧ EndsLine s₁.rest := by
  intro ps s₁ hps
  refine ⟨h.takeLayout (by rcases htoken with h | h <;> simp [h]) ps s₁ hps, ?_⟩
  obtain ⟨-, rfl⟩ : l.extras = ps ∧ l.next = s₁ := by simpa [Parser.takeLayout] using hps
  exact h.ends htoken

theorem name_next (h : Ahead T s l) :
    Yields (Parser.name l) s' fun ps s₁ => Reads T s.here ps s₁ ∧ s₁ = l.next := by
  unfold Parser.name
  split
  · rename_i htoken
    intro ps s₁ hps
    refine ⟨h.takeAs (by simp [htoken, Token.isSolid]) (by decide) ps s₁ hps, ?_⟩
    obtain ⟨-, rfl⟩ : l.leaf .identifier = ps ∧ l.next = s₁ := by
      simpa [Parser.takeAs] using hps
    rfl
  · exact .failure

theorem name (h : Ahead T s l) : Yields (Parser.name l) s' (Reads T s.here) :=
  h.name_next.mono fun _ _ hps => hps.1

end Ahead

theorem mark_reads {e : Expected} {text : String} (hs : s.In T) :
    Yields (Parser.mark e text) s (Reads T s.here) := by
  refine .peek hs fun l hl => .ite (fun h => ?_) fun _ => .failure
  exact hl.take (by simp [h, Token.isSolid])

theorem mark_mem (e : Expected) (text : String) (s : Scan) :
    Yields (Parser.mark e text) s fun ps _ => ∃ m ∈ ps, m.kind = .mark text := by
  refine .lex (.ite (fun h => ?_) fun _ => .failure)
  intro ps s₁ hps
  obtain ⟨rfl, -⟩ : (s.lex e).leaf (.mark text) = ps ∧ (s.lex e).next = s₁ := by
    simpa [Parser.take, Parser.takeAs, h] using hps
  exact ⟨_, List.mem_append_right _ (List.mem_singleton_self _), rfl⟩

theorem keyword_reads {e : Expected} {text : String} (hs : s.In T) :
    Yields (Parser.keyword e text) s (Reads T s.here) := by
  refine .peek hs fun l hl => .ite (fun h => ?_) fun _ => .failure
  exact hl.take (by simp [h, Token.isSolid])

end DocstringEditor.Syntax
