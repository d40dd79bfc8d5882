import DocstringEditor.Proofs.Syntax.Span
import DocstringEditor.Syntax.Parser

namespace DocstringEditor.Syntax

mutual
/-- The parts of a node that hold no others, in source order. A string literal counts as one. -/
def Node.leaves : Node → List Node
  | .mk k r s e cs =>
    if k = .string || cs.isEmpty then [.mk k r s e cs] else Forest.leaves cs

def Forest.leaves : Forest → List Node
  | [] => []
  | n :: ns => n.leaves ++ Forest.leaves ns
end

def Forest.Extras (ps : Forest) : Prop := ∀ e ∈ ps, e.isExtra ∧ e.children = []

variable {k : Kind} {n m : Node} {ps qs ls : Forest}

namespace Forest

@[simp] theorem leaves_nil : leaves [] = [] := rfl

theorem leaves_cons : leaves (n :: ps) = n.leaves ++ leaves ps := rfl

@[simp] theorem leaves_append : leaves (ps ++ qs) = leaves ps ++ leaves qs := by
  induction ps with
  | nil => rfl
  | cons n ps ih => rw [List.cons_append, leaves_cons, leaves_cons, ih, List.append_assoc]

end Forest

theorem Node.leaves_of_single (h : n.kind = .string ∨ n.children = []) : n.leaves = [n] := by
  obtain ⟨k, r, s, e, cs⟩ := n
  rw [leaves]
  rcases h with h | h <;> simp_all [kind, children]

theorem Node.leaves_of_leaf (h : n.children = []) : n.leaves = [n] := leaves_of_single (.inr h)

theorem Node.leaves_of_string (h : n.kind = .string) : n.leaves = [n] := leaves_of_single (.inl h)

theorem Node.leaves_of_ne (hk : n.kind ≠ .string) (h : n.children ≠ []) :
    n.leaves = Forest.leaves n.children := by
  obtain ⟨k, r, s, e, cs⟩ := n
  rw [leaves]
  simp_all [kind, children]

theorem Node.leaves_mk {r : Option Role} {a b : Location} (hk : k ≠ .string) (h : ps ≠ []) :
    (mk k r a b ps).leaves = Forest.leaves ps := leaves_of_ne hk h

theorem Forest.leaves_of_single (h : ∀ n ∈ ps, n.kind = .string ∨ n.children = []) :
    leaves ps = ps := by
  induction ps with
  | nil => rfl
  | cons n ps ih =>
      obtain ⟨hn, hps⟩ := List.forall_mem_cons.1 h
      rw [leaves_cons, Node.leaves_of_single hn, ih hps]
      rfl

theorem Forest.Extras.leaves (h : Extras ps) : leaves ps = ps :=
  leaves_of_single fun e he => .inr (h e he).2

theorem Node.leaves_ne_nil :
    (∀ n : Node, n.leaves ≠ []) ∧ ∀ ps : Forest, ps ≠ [] → Forest.leaves ps ≠ [] := by
  apply Node.induction
  case mk =>
    intro k r s e cs ih
    by_cases hsingle : (mk k r s e cs).kind = .string ∨ (mk k r s e cs).children = []
    · rw [leaves_of_single hsingle]
      exact List.cons_ne_nil _ _
    · obtain ⟨hk, hcs⟩ := not_or.1 hsingle
      rw [leaves_of_ne hk hcs]
      exact ih hcs
  case nil => exact fun h => absurd rfl h
  case cons =>
    intro n ns ihn ihns _
    rw [Forest.leaves_cons]
    exact List.append_ne_nil_of_left_ne_nil ihn _

/-- Whether leaves are string literals with extras between them. -/
structure Literals (ls : List Node) : Prop where
  leaf : ∀ l ∈ ls, l.kind = .string ∨ l.isExtra ∧ l.children = []
  first : ∃ l rest, ls = l :: rest ∧ l.kind = .string
  last : ∃ rest l, ls = rest ++ [l] ∧ l.kind = .string

theorem Literals.append {es : Forest} (h : Literals ls) (hes : es.Extras)
    (hk : n.kind = .string) : Literals (ls ++ (es ++ [n])) := by
  obtain ⟨l, rest, heq, hl⟩ := h.first
  refine ⟨fun m hm => ?_, ⟨l, rest ++ (es ++ [n]), by simp [heq], hl⟩, ⟨ls ++ es, n, by simp, hk⟩⟩
  simp only [List.mem_append, List.mem_singleton] at hm
  rcases hm with hm | hm | rfl
  · exact h.leaf m hm
  · exact .inr (hes m hm)
  · exact .inl hk

inductive Enclosed (ls : List Node) : List Node → Prop
  | bare (h : Literals ls) : Enclosed ls ls
  | parentheses {o c : Node} {ms : List Node} (ho : o.kind = .mark "(") (hc : c.kind = .mark ")")
      (h : Enclosed ls ms) : Enclosed ls (o :: ms ++ [c])

/-- Whether leaves are literals inside of parentheses with at most a comma behind. -/
def Bare (ls ms : List Node) : Prop :=
  Enclosed ls ms ∨ ∃ ms' c, ms = ms' ++ [c] ∧ c.kind = .mark "," ∧ Enclosed ls ms'

/-- Whether a token is no part of literals inside of parentheses. -/
def Kind.isForeign : Kind → Bool
  | .string | .comment | .lineContinuation => false
  | .mark text => text ∉ ["(", ")", ","]
  | _ => true

theorem Kind.not_isExtra_of_isForeign (h : k.isForeign) : ¬k.isExtra := by
  cases k <;> simp_all [isForeign, isExtra]

namespace Enclosed

variable {ms as bs : List Node} {a b : Node}

theorem kind_of_mem (h : Enclosed ls ms) (hm : m ∈ ms) :
    m.kind = .mark "(" ∨ m.kind = .mark ")" ∨ m.kind = .string ∨ m.isExtra := by
  induction h with
  | bare h => exact .inr (.inr ((h.leaf m hm).imp id And.left))
  | parentheses ho hc _ ih =>
      simp only [List.cons_append, List.mem_cons, List.mem_append, List.not_mem_nil, or_false] at hm
      rcases hm with rfl | hm | rfl
      · exact .inl ho
      · exact ih hm
      · exact .inr (.inl hc)

theorem first (h : Enclosed ls ms) :
    ∃ o rest, ms = o :: rest ∧ (o.kind = .mark "(" ∨ o.kind = .string) := by
  cases h with
  | bare h =>
      obtain ⟨l, rest, rfl, hl⟩ := h.first
      exact ⟨l, rest, rfl, .inr hl⟩
  | parentheses ho => exact ⟨_, _, rfl, .inl ho⟩

theorem last (h : Enclosed ls ms) :
    ∃ rest c, ms = rest ++ [c] ∧ (c.kind = .mark ")" ∨ c.kind = .string) := by
  cases h with
  | bare h =>
      obtain ⟨rest, l, rfl, hl⟩ := h.last
      exact ⟨rest, l, rfl, .inr hl⟩
  | parentheses _ hc => exact ⟨_, _, rfl, .inl hc⟩

/-- Nothing comes before an opening parenthesis but such marks. -/
theorem opening (h : Enclosed ls (as ++ b :: bs)) (hb : b.kind = .mark "(") (ha : a ∈ as) :
    a.kind = .mark "(" := by
  generalize hms : as ++ b :: bs = ms at h
  induction h generalizing as bs with
  | bare h =>
      have hb' := h.leaf b (by simp [← hms])
      simp [hb, Node.isExtra, Kind.isExtra] at hb'
  | @parentheses o c ms ho hc h ih =>
      cases as with
      | nil => simp at ha
      | cons o' as =>
          obtain ⟨rfl, hms⟩ := List.cons.inj hms
          rcases List.mem_cons.1 ha with rfl | ha
          · exact ho
          rcases List.eq_nil_or_concat bs with rfl | ⟨bs, c', rfl⟩
          · obtain ⟨-, hbc⟩ := List.append_inj' hms rfl
            obtain rfl : b = c := by simpa using hbc
            simp [hb] at hc
          · have hms : (as ++ b :: bs) ++ [c'] = ms ++ [c] := by simpa using hms
            exact ih ha (List.append_inj' hms rfl).1

theorem eq_of_string (h : Enclosed ls ms) (hms : ms = a :: as) (ha : a.kind = .string) :
    ls = ms := by
  cases h with
  | bare => rfl
  | parentheses ho =>
      obtain ⟨rfl, -⟩ := List.cons.inj hms
      simp [ha] at ho

theorem inside (h : Enclosed ls (a :: as ++ [b])) (ha : a.kind = .mark "(") : Enclosed ls as := by
  generalize hms : a :: as ++ [b] = ms at h
  cases h with
  | bare h =>
      obtain ⟨l, rest, rfl, hl⟩ := h.first
      obtain ⟨rfl, -⟩ := List.cons.inj hms
      simp [ha] at hl
  | parentheses _ _ h =>
      obtain ⟨-, hms⟩ := List.cons.inj hms
      obtain ⟨rfl, -⟩ := List.append_inj' hms rfl
      exact h

theorem extras (h : Enclosed ls (as ++ ms ++ bs)) (ha : Forest.Extras as)
    (hb : Forest.Extras bs) : as = [] ∧ bs = [] := by
  constructor
  · cases as with
    | nil => rfl
    | cons a as =>
        obtain ⟨o, rest, heq, ho⟩ := h.first
        obtain ⟨rfl, -⟩ := List.cons.inj heq
        have := (ha a (by simp)).1
        rcases ho with ho | ho <;> simp [Node.isExtra, ho, Kind.isExtra] at this
  · rcases List.eq_nil_or_concat bs with rfl | ⟨bs, b, rfl⟩
    · rfl
    · obtain ⟨rest, c, heq, hc⟩ := h.last
      rw [List.concat_eq_append, ← List.append_assoc] at heq
      obtain rfl : b = c := by simpa using (List.append_inj' heq rfl).2
      have := (hb b (by simp)).1
      rcases hc with hc | hc <;> simp [Node.isExtra, hc, Kind.isExtra] at this

end Enclosed

/-- What is no comma is among the literals and their parentheses. -/
theorem Bare.enclosed {as bs : List Node} {b : Node} (h : Bare ls (as ++ b :: bs))
    (hb : b.kind ≠ .mark ",") : ∃ bs, Enclosed ls (as ++ b :: bs) := by
  rcases h with h | ⟨ms, c, heq, hc, h⟩
  · exact ⟨bs, h⟩
  · rcases List.eq_nil_or_concat bs with rfl | ⟨bs, c', rfl⟩
    · obtain ⟨-, hbc⟩ := List.append_inj' heq rfl
      obtain rfl : b = c := by simpa using hbc
      exact absurd hc hb
    · have heq : (as ++ b :: bs) ++ [c'] = ms ++ [c] := by simpa using heq
      exact ⟨bs, (List.append_inj' heq rfl).1 ▸ h⟩

theorem Bare.enclosed_of_last {as : List Node} {b : Node} (h : Bare ls (as ++ [b]))
    (hb : b.kind ≠ .mark ",") : Enclosed ls (as ++ [b]) := by
  rcases h with h | ⟨ms, c, heq, hc, -⟩
  · exact h
  · obtain rfl : b = c := by simpa using (List.append_inj' heq rfl).2
    exact absurd hc hb

def Kind.isOther : Kind → Bool
  | .string | .concatenatedString | .parenthesized | .comment | .lineContinuation | .mark _ => false
  | _ => true

namespace Node

inductive Legible : Node → Prop
  | string {n : Node} (hkind : n.kind = .string) : Legible n
  | concatenated {n : Node} (hkind : n.kind = .concatenatedString) (h : Literals n.children)
      (hstart : n.children.head?.map start = some n.start)
      (hstop : n.children.getLast?.map stop = some n.stop) : Legible n
  | parenthesized {n o m c : Node} {before after : Forest} (hkind : n.kind = .parenthesized)
      (hn : n.children = o :: (before ++ m :: after) ++ [c])
      (ho : o.kind = .mark "(" ∧ o.children = []) (hc : c.kind = .mark ")" ∧ c.children = [])
      (hbefore : before.Extras) (hafter : after.Extras) (h : Legible m) : Legible n
  | other {n : Node} (hkind : n.kind.isOther) (hclosing : ∃ l ∈ n.leaves, l.kind ≠ .mark "(")
      (hbare : ∀ ls, ¬Bare ls n.leaves) : Legible n

/-- Whether a node is a literal, or several that are concatenated, with its leaves. -/
structure IsLiteral (n : Node) (ls : List Node) : Prop where
  kind : n.kind = .string ∧ ls = [n] ∨ n.kind = .concatenatedString ∧ ls = n.children
  literals : Literals ls
  start : ls.head?.map start = some n.start
  stop : ls.getLast?.map stop = some n.stop

theorem isLiteral_string (hkind : n.kind = .string) : n.IsLiteral [n] := by
  refine ⟨.inl ⟨hkind, rfl⟩, ⟨fun l hl => ?_, ⟨n, [], rfl, hkind⟩, ⟨[], n, rfl, hkind⟩⟩, rfl, rfl⟩
  obtain rfl := List.mem_singleton.1 hl
  exact .inl hkind

theorem isNamed_of_isExtra (h : n.isExtra) : n.isNamed := by
  unfold isExtra at h
  unfold isNamed
  cases hk : n.kind <;> simp_all [Kind.isExtra, Kind.isNamed]

theorem unparenthesized_of_ne (h : n.kind ≠ .parenthesized) : n.unparenthesized = n := by
  cases n
  rw [unparenthesized]
  exact if_neg h

/-- Out of its parentheses comes what is alone in them, where nothing else is. -/
theorem unparenthesized_of_parenthesized {o c : Node} {before after : Forest}
    (hkind : n.kind = .parenthesized) (hn : n.children = o :: (before ++ m :: after) ++ [c])
    (ho : ¬o.isNamed) (hc : ¬c.isNamed) (hbefore : ∀ e ∈ before, e.isNamed) (hm : m.isNamed)
    (hafter : ∀ e ∈ after, e.isNamed) : n.unparenthesized =
      if before = [] ∧ after = [] then m.unparenthesized else n := by
  obtain ⟨k, r, s, e, cs⟩ := n
  obtain rfl : cs = _ := hn
  rw [unparenthesized]
  refine (if_pos hkind).trans ?_
  cases before with
  | nil =>
      cases after with
      | nil => simp [soleInner?, ho, hm, hc]
      | cons b after => simp [soleInner?, ho, hm, hafter b (by simp)]
  | cons b before => simp [soleInner?, ho, hm, hbefore b (by simp)]

namespace Legible

variable {ms : List Node}

theorem of_foreign (hkind : n.kind.isOther) (h : ∃ l ∈ n.leaves, l.kind.isForeign) :
    Legible n := by
  obtain ⟨l, hl, hforeign⟩ := h
  refine .other hkind ⟨l, hl, fun hopen => by simp [hopen, Kind.isForeign] at hforeign⟩
    fun ls hbare => ?_
  obtain ⟨as, bs, heq⟩ := List.append_of_mem hl
  rw [heq] at hbare
  obtain ⟨bs, h⟩ := hbare.enclosed fun hcomma => by simp [hcomma, Kind.isForeign] at hforeign
  rcases h.kind_of_mem (m := l) (by simp) with hk | hk | hk | hk
  · simp [hk, Kind.isForeign] at hforeign
  · simp [hk, Kind.isForeign] at hforeign
  · simp [hk, Kind.isForeign] at hforeign
  · exact Kind.not_isExtra_of_isForeign hforeign hk

theorem isNamed (h : Legible n) : n.isNamed ∧ ¬n.isExtra := by
  unfold Node.isNamed Node.isExtra
  cases h with
  | string hkind => simp [hkind, Kind.isNamed, Kind.isExtra]
  | concatenated hkind => simp [hkind, Kind.isNamed, Kind.isExtra]
  | parenthesized hkind => simp [hkind, Kind.isNamed, Kind.isExtra]
  | other hkind => cases hk : n.kind <;> simp_all [Kind.isOther, Kind.isNamed, Kind.isExtra]

theorem leaves_concatenated (hkind : n.kind = .concatenatedString) (h : Literals n.children) :
    n.leaves = n.children := by
  obtain ⟨l, rest, heq, -⟩ := h.first
  rw [leaves_of_ne (by simp [hkind]) (by simp [heq]),
    Forest.leaves_of_single fun l hl => (h.leaf l hl).imp id And.right]

theorem leaves_parenthesized {o c : Node} {before after : Forest}
    (hkind : n.kind = .parenthesized) (hn : n.children = o :: (before ++ m :: after) ++ [c])
    (ho : o.children = [])
    (hc : c.children = []) (hbefore : before.Extras) (hafter : after.Extras) :
    n.leaves = o :: (before ++ m.leaves ++ after) ++ [c] := by
  rw [leaves_of_ne (by simp [hkind]) (by simp [hn]), hn]
  simp [Forest.leaves_cons, leaves_of_leaf ho, leaves_of_leaf hc, hbefore.leaves, hafter.leaves]

theorem closing (h : Legible n) : ∃ l ∈ n.leaves, l.kind ≠ .mark "(" := by
  cases h with
  | string hkind => exact ⟨n, by simp [leaves_of_string hkind], by simp [hkind]⟩
  | concatenated hkind h =>
      obtain ⟨l, rest, heq, hl⟩ := h.first
      exact ⟨l, by simp [leaves_concatenated hkind h, heq], by simp [hl]⟩
  | @parenthesized _ o m c _ _ hkind hn ho hc hbefore hafter =>
      refine ⟨c, ?_, by simp [hc.1]⟩
      rw [leaves_parenthesized hkind hn ho.2 hc.2 hbefore hafter]
      simp
  | other _ hclosing => exact hclosing

theorem isLiteral (h : Legible n) (hbare : Bare ls n.leaves) :
    n.unparenthesized.IsLiteral ls ∧ Enclosed ls n.leaves := by
  induction h with
  | @string n hkind =>
      rw [unparenthesized_of_ne (by simp [hkind])]
      rw [leaves_of_string hkind, ← List.nil_append [n]] at hbare ⊢
      have henclosed := hbare.enclosed_of_last (by simp [hkind])
      rw [henclosed.eq_of_string rfl hkind]
      exact ⟨isLiteral_string hkind, henclosed.eq_of_string rfl hkind ▸ henclosed⟩
  | @concatenated n hkind h hstart hstop =>
      rw [unparenthesized_of_ne (by simp [hkind])]
      rw [leaves_concatenated hkind h] at hbare ⊢
      obtain ⟨rest, l, heq, hl⟩ := h.last
      rw [heq] at hbare
      have henclosed := hbare.enclosed_of_last (by simp [hl])
      rw [← heq] at henclosed
      obtain ⟨l, rest, heq, hl⟩ := h.first
      obtain rfl := henclosed.eq_of_string heq hl
      exact ⟨⟨.inr ⟨hkind, rfl⟩, h, hstart, hstop⟩, henclosed⟩
  | @parenthesized n o m c before after hkind hn ho hc hbefore hafter h ih =>
      rw [leaves_parenthesized hkind hn ho.2 hc.2 hbefore hafter] at hbare ⊢
      -- One pair of parentheses comes off the node and off its leaves.
      have henclosed := hbare.enclosed_of_last (by simp [hc.1])
      have hinside := henclosed.inside ho.1
      obtain ⟨rfl, rfl⟩ := hinside.extras hbefore hafter
      rw [unparenthesized_of_parenthesized hkind hn (by simp [Node.isNamed, ho.1, Kind.isNamed])
        (by simp [Node.isNamed, hc.1, Kind.isNamed]) (by simp) h.isNamed.1 (by simp),
        if_pos ⟨rfl, rfl⟩]
      refine ⟨(ih (.inl ?_)).1, henclosed⟩
      simpa using hinside
  | other _ _ hnot => exact absurd hbare (hnot ls)

theorem enclosed (h : Legible n) (hliteral : n.unparenthesized.kind = .string ∨
    n.unparenthesized.kind = .concatenatedString) :
    ∃ ls, n.unparenthesized.IsLiteral ls ∧ Enclosed ls n.leaves := by
  induction h with
  | @string n hkind =>
      rw [unparenthesized_of_ne (by simp [hkind]), leaves_of_string hkind]
      have h := isLiteral_string hkind
      exact ⟨_, h, .bare h.literals⟩
  | @concatenated n hkind h hstart hstop =>
      rw [unparenthesized_of_ne (by simp [hkind]), leaves_concatenated hkind h]
      exact ⟨_, ⟨.inr ⟨hkind, rfl⟩, h, hstart, hstop⟩, .bare h⟩
  | @parenthesized n o m c before after hkind hn ho hc hbefore hafter h ih =>
      rw [unparenthesized_of_parenthesized hkind hn (by simp [Node.isNamed, ho.1, Kind.isNamed])
        (by simp [Node.isNamed, hc.1, Kind.isNamed])
        (fun e he => isNamed_of_isExtra (hbefore e he).1) h.isNamed.1
        fun e he => isNamed_of_isExtra (hafter e he).1] at hliteral ⊢
      split at hliteral
      case isTrue hnil =>
        obtain ⟨rfl, rfl⟩ := hnil
        obtain ⟨ls, hls, henclosed⟩ := ih hliteral
        refine ⟨ls, by rwa [if_pos ⟨rfl, rfl⟩], ?_⟩
        rw [leaves_parenthesized hkind hn ho.2 hc.2 hbefore hafter]
        simpa using Enclosed.parentheses ho.1 hc.1 henclosed
      case isFalse => simp [hkind] at hliteral
  | @other n hkind =>
      rw [unparenthesized_of_ne (by rintro hk; simp [hk, Kind.isOther] at hkind)] at hliteral
      rcases hliteral with hk | hk <;> simp [hk, Kind.isOther] at hkind

end Legible

end Node

def Forest.IsLegible (ps : Forest) : Prop :=
  ∃ before n, ps = before ++ [n] ∧ Extras before ∧ n.Legible

def Forest.Listed (ps : Forest) : Prop := ∃ m rest, ps = m :: rest ∧ m.Legible ∧
  (rest = [] ∨ ∃ between c others, rest = between ++ c :: others ∧ Extras between ∧
    c.kind = .mark "," ∧ c.children = [] ∧ (others = [] ∨ ∃ d ∈ others, d.isNamed))

namespace Forest.Listed

/-- Where only one of the nodes is named, it is an expression with at most a comma behind. -/
theorem eq_of_named (h : Listed ps) (hm : ps.filter Node.isNamed = [m]) : m.Legible ∧
    (ps = [m] ∨ ∃ c, ps = [m, c] ∧ c.kind = .mark "," ∧ c.children = []) := by
  obtain ⟨n, rest, rfl, hn, hrest⟩ := h
  rw [List.filter_cons_of_pos hn.isNamed.1] at hm
  obtain ⟨rfl, hnone⟩ := List.cons.inj hm
  refine ⟨hn, ?_⟩
  rcases hrest with rfl | ⟨between, c, others, rfl, hbetween, hc, hleaf, hothers⟩
  · exact .inl rfl
  · have hunnamed (d : Node) (hd : d ∈ between ++ c :: others) : ¬d.isNamed := by
      simpa using List.filter_eq_nil_iff.1 hnone d hd
    obtain rfl : between = [] := by
      cases between with
      | nil => rfl
      | cons e between =>
          exact absurd (Node.isNamed_of_isExtra (hbetween e (by simp)).1) (hunnamed e (by simp))
    obtain rfl : others = [] := hothers.resolve_right fun ⟨d, hd, hnamed⟩ =>
      hunnamed d (by simp [hd]) hnamed
    exact .inr ⟨c, rfl, hc, hleaf⟩

theorem isLiteral (h : Listed ps) (hbare : Bare ls (leaves ps)) :
    ∃ m, ps.filter Node.isNamed = [m] ∧ m.unparenthesized.IsLiteral ls := by
  obtain ⟨m, rest, rfl, hm, hrest⟩ := h
  refine ⟨m, ?_⟩
  rw [List.filter_cons_of_pos hm.isNamed.1]
  rcases hrest with rfl | ⟨between, c, others, rfl, hbetween, hc, hleaf, -⟩
  · rw [leaves_cons, leaves_nil, List.append_nil] at hbare
    exact ⟨rfl, (hm.isLiteral hbare).1⟩
  · have heq : leaves (m :: (between ++ c :: others)) =
        (m.leaves ++ between) ++ c :: leaves others := by
      simp [leaves_cons, hbetween.leaves, Node.leaves_of_leaf hleaf]
    rw [heq] at hbare
    have houtside {bs : Forest} (h : Enclosed ls ((m.leaves ++ between) ++ c :: bs)) : False := by
      rcases h.kind_of_mem (m := c) (by simp) with hk | hk | hk | hk <;>
        simp [hc, Node.isExtra, Kind.isExtra] at hk
    -- The comma `c` is not among the literals, so it is the one behind them and the last leaf.
    rcases hbare with h | ⟨ms, c', hms, -, h⟩
    · exact (houtside h).elim
    rcases List.eq_nil_or_concat (leaves others) with hnil | ⟨bs, b, hbs⟩
    · rw [hnil] at hms
      obtain ⟨rfl, -⟩ := List.append_inj' hms rfl
      have h : Enclosed ls ([] ++ m.leaves ++ between) := by simpa using h
      obtain ⟨-, rfl⟩ := h.extras (by simp [Extras]) hbetween
      obtain rfl : others = [] := by
        by_contra hne
        exact Node.leaves_ne_nil.2 others hne hnil
      have hunnamed : ¬c.isNamed := by simp [Node.isNamed, hc, Kind.isNamed]
      exact ⟨by simp [hunnamed], (hm.isLiteral (.inl (by simpa using h))).1⟩
    · rw [hbs, List.concat_eq_append] at hms
      have hms : ((m.leaves ++ between) ++ c :: bs) ++ [b] = ms ++ [c'] := by simpa using hms
      rw [← (List.append_inj' hms rfl).1] at h
      exact (houtside h).elim

end Forest.Listed

end DocstringEditor.Syntax
