import Mathlib.Data.List.TakeDrop
import Mathlib.Data.List.TakeWhile
import DocstringEditor.Proofs.Syntax.Gap
import DocstringEditor.Proofs.Syntax.Legible

namespace DocstringEditor.Syntax

open Node (preorderAll)

variable {T : Text} {a b c : Location} {k : Kind} {n : Node} {ps qs : Forest} {lo lo' : Nat}

def Cut (T : Text) (l : Location) : Prop :=
  ∃ before, before <+: T ∧ l = Location.origin.after before ∧ before.getLast? ≠ some '\r'

def Kind.isPhrase : Kind → Bool
  | .module | .comment | .lineContinuation | .mark _ => false
  | .stringStart | .stringContent | .stringEnd => false
  | _ => true

def Kind.isDefinition (k : Kind) : Bool := k = .classDefinition || k = .functionDefinition

def Kind.holdsText : Kind → Bool
  | .string | .interpolation | .formatSpecifier => true
  | _ => false

def Kind.isFree (k : Kind) : Bool :=
  k.isPhrase && !k.isDefinition && k ≠ .expressionStatement && k ≠ .string

theorem Kind.isFree_iff {k : Kind} :
    k.isFree ↔ k.isPhrase ∧ ¬k.isDefinition ∧ k ≠ .expressionStatement ∧ k ≠ .string := by
  simp [isFree, and_assoc]

/-- Whether all text of literals that is in a node is in a literal that is too. -/
def Node.Closed (n : Node) : Prop :=
  n.kind ≠ .stringContent ∧
    ∀ m ∈ n.inner, m.kind = .stringContent → ∃ l ∈ n.preorder, l.kind = .string ∧ m ∈ l.inner

/-- Whether the first and the last of some nodes are quotes. -/
def Forest.Quoted (ps : Forest) : Prop :=
  ∃ o between c, ps = o :: (between ++ [c]) ∧ o.kind = .stringStart ∧ o.children = [] ∧
    o.hasWidth ∧ c.kind = .stringEnd ∧ c.children = [] ∧ c.hasWidth

def Forest.definitions (ps : Forest) : List Node := (preorderAll ps).filter Node.isDefinition

structure Node.Sound (T : Text) (n : Node) : Prop where
  start : Place T n.start
  stop : Place T n.stop
  within : Forest.Within n.start.byte n.children n.stop.byte
  kind : n.kind ≠ .module
  phrase : n.children ≠ [] → n.kind.isPhrase
  substantial : n.children ≠ [] → ∃ m ∈ n.children, m.isSubstantial
  cut : n.children = [] → n.isSubstantial → n.kind ≠ .stringContent → Cut T n.stop
  definition : n.isDefinition →
    (∃ m ∈ n.children, m.role = some .name) ∧ ∃ m ∈ n.children, m.kind = .mark ":"
  statement : n.kind = .expressionStatement → n.children ≠ [] → Forest.Listed n.children
  literal : n.kind = .string → n.children ≠ [] →
    Forest.Quoted n.children ∧ Forest.definitions n.children = []
  closed : ¬n.kind.holdsText → ∀ m ∈ n.children, m.Closed
  filled : n.children ≠ [] → Forest.Filled T n.start.byte n.children n.stop.byte
  leaf : n.children = [] → n.hasWidth → n.Written T

theorem Node.Sound.leaf_of_isExtra (h : n.Sound T) (hn : n.isExtra) : n.children = [] := by
  by_contra hne
  have := h.phrase hne
  unfold Node.isExtra at hn
  cases hk : n.kind <;> simp_all [Kind.isPhrase, Kind.isExtra]

namespace Forest

theorem Within.append {x y z : Nat} (h : Within x ps y) (h' : Within y qs z) :
    Within x (ps ++ qs) z := by
  induction ps generalizing x with
  | nil =>
      cases qs with
      | nil => exact Nat.le_trans h h'
      | cons q qs => exact ⟨Nat.le_trans h h'.1, h'.2⟩
  | cons p ps ih => exact ⟨h.1, h.2.1, ih h.2.2⟩

theorem Within.of_append {x z : Nat} (h : Within x (ps ++ qs) z) :
    ∃ y, Within x ps y ∧ Within y qs z := by
  induction ps generalizing x with
  | nil => exact ⟨x, Nat.le_refl x, h⟩
  | cons p ps ih =>
      obtain ⟨y, hp, hq⟩ := ih h.2.2
      exact ⟨y, ⟨h.1, h.2.1, hp⟩, hq⟩

/-- Nodes also stand up to where the last of them stops. -/
theorem Within.last {x y : Nat} (h : Within x (n :: ps) y) :
    Within n.start.byte (n :: ps) ((n :: ps).getLast (by simp)).stop.byte ∧
      ((n :: ps).getLast (by simp)).stop.byte ≤ y := by
  induction ps generalizing n x with
  | nil => exact ⟨⟨Nat.le_refl _, h.2.1, Nat.le_refl _⟩, h.2.2⟩
  | cons p ps ih =>
      obtain ⟨hw, hle⟩ := ih h.2.2
      exact ⟨⟨Nat.le_refl _, h.2.1, h.2.2.1, hw.2⟩, hle⟩

@[simp] theorem definitions_nil : definitions [] = [] := rfl

@[simp] theorem definitions_append : definitions (ps ++ qs) = definitions ps ++ definitions qs := by
  simp [definitions]

theorem mem_definitions {d : Node} :
    d ∈ definitions ps ↔ d ∈ preorderAll ps ∧ d.isDefinition := List.mem_filter

theorem definitions_cons :
    definitions (n :: ps) =
      (if n.isDefinition then [n] else []) ++ definitions n.children ++ definitions ps := by
  simp only [definitions, Node.preorderAll_cons, Node.preorder_eq, Node.inner, List.cons_append,
    List.filter_cons, List.filter_append]
  split <;> simp

def lead? (ps : Forest) : Option Node := ps.find? (!·.isExtra)

theorem lead?_append : lead? (ps ++ qs) = (lead? ps).or (lead? qs) := List.find?_append

theorem mem_of_lead? (h : lead? ps = some n) : n ∈ ps ∧ ¬n.isExtra := by
  refine ⟨List.mem_of_find?_eq_some h, ?_⟩
  simpa using List.find?_some h

theorem lead?_of_extras (h : ∀ n ∈ ps, n.isExtra) : lead? ps = none := by
  simpa [lead?] using h

theorem lead?_extras_append (h : ∀ m ∈ ps, m.isExtra) (hn : ¬n.isExtra) :
    lead? (ps ++ n :: qs) = some n := by
  rw [lead?_append, lead?_of_extras h]
  simp [lead?, hn]

theorem wrap_cases (k : Kind) (ps : Forest) :
    (∀ n ∈ ps, n.isExtra) ∧ lead? ps = none ∧ wrap k ps = ps ∨
    ∃ before n rest, ps = before ++ n :: rest ∧ (∀ m ∈ before, m.isExtra) ∧
      lead? ps = some n ∧ ¬n.isExtra ∧
      wrap k ps = before ++
        [.mk k none n.start ((n :: rest).getLast (by simp)).stop (n :: rest)] := by
  have hspan := List.span_eq_takeWhile_dropWhile (p := Node.isExtra) ps
  have hbefore : ∀ m ∈ ps.takeWhile Node.isExtra, m.isExtra :=
    fun m hm => List.mem_takeWhile_imp hm
  have hjoin := List.takeWhile_append_dropWhile (p := Node.isExtra) (l := ps)
  unfold wrap
  cases hrest : ps.dropWhile Node.isExtra with
  | nil =>
      rw [hrest, List.append_nil] at hjoin
      rw [hspan, hrest]
      rw [hjoin] at hbefore
      exact .inl ⟨hbefore, lead?_of_extras hbefore, hjoin⟩
  | cons n rest =>
      rw [hrest] at hjoin
      rw [hspan, hrest]
      have hn : ¬n.isExtra := by
        have := List.head_dropWhile_not Node.isExtra (l := ps) (by simp [hrest])
        simpa [hrest] using this
      refine .inr ⟨_, n, rest, hjoin.symm, hbefore, ?_, hn, rfl⟩
      rw [← hjoin, lead?_extras_append hbefore hn]

theorem mem_wrap (h : n ∈ wrap k ps) : n.isExtra ∨ n.kind = k := by
  rcases wrap_cases k ps with ⟨hps, -, hw⟩ | ⟨before, m, rest, -, hbefore, -, -, hw⟩
  · exact .inl (hps n (hw ▸ h))
  · rw [hw] at h
    rcases List.mem_append.1 h with h | h
    · exact .inl (hbefore n h)
    · obtain rfl := List.mem_singleton.1 h
      exact .inr rfl

/-- What nodes have to be like to be put together to a phrase of a kind. -/
structure Suits (k : Kind) (ps : Forest) : Prop where
  definition : k.isDefinition → (∃ m ∈ ps, ¬m.isExtra ∧ m.role = some .name) ∧
    ∃ m ∈ ps, ¬m.isExtra ∧ m.kind = .mark ":"
  statement : k = .expressionStatement → Listed (ps.dropWhile Node.isExtra)
  literal : k = .string → Quoted (ps.dropWhile Node.isExtra) ∧ definitions ps = []
  closed : ¬k.holdsText → ∀ n ∈ ps, n.Closed

theorem Suits.of_isFree (hk : k.isFree) (h : ¬k.holdsText → ∀ n ∈ ps, n.Closed) : Suits k ps := by
  obtain ⟨-, hdef, hstatement, hstring⟩ := Kind.isFree_iff.1 hk
  exact ⟨(absurd · hdef), (absurd · hstatement), (absurd · hstring), h⟩

structure Spans (T : Text) (a : Location) (ps : Forest) (b : Location) : Prop where
  start : Place T a
  stop : Place T b
  within : Within a.byte ps b.byte
  filled : Filled T a.byte ps b.byte
  sound : ∀ n ∈ preorderAll ps, n.Sound T

namespace Spans

theorem refl (h : Place T a) : Spans T a [] a := ⟨h, h, Nat.le_refl _, .refl h, by simp⟩

theorem append (h : Spans T a ps b) (h' : Spans T b qs c) : Spans T a (ps ++ qs) c := by
  refine ⟨h.start, h'.stop, h.within.append h'.within, h.filled.append h'.filled, fun n hn => ?_⟩
  rw [Node.preorderAll_append, List.mem_append] at hn
  exact hn.elim (h.sound n) (h'.sound n)

theorem sound_of_mem (h : Spans T a ps b) (hn : n ∈ ps) : n.Sound T :=
  h.sound n (Node.mem_preorderAll.2 ⟨n, hn, by simp⟩)

theorem wrap (h : Spans T a ps b) (hk : k.isPhrase) (hlead : ∀ n, lead? ps = some n → n.hasWidth)
    (hsuits : Suits k ps) : Spans T a (wrap k ps) b := by
  rcases wrap_cases k ps with ⟨-, -, hw⟩ | ⟨before, n, rest, rfl, hbefore, hn, hextra, hw⟩
  · rwa [hw]
  rw [hw]
  obtain ⟨y, hw₁, hw₂⟩ := h.within.of_append
  obtain ⟨hinner, hlast⟩ := hw₂.last
  obtain ⟨hfilled₁, hfilled₂⟩ := h.filled.of_append
  have hrest : Filled T n.start.byte (n :: rest) b.byte := ⟨hfilled₁.right, hfilled₂⟩
  obtain ⟨hfilled, hgap⟩ := hrest.last
  have hstart : n.start.byte ≤ ((n :: rest).getLast (by simp)).stop.byte := hinner.le
  have hsolid (m : Node) (hm : m ∈ before ++ n :: rest) (hmx : ¬m.isExtra) : m ∈ n :: rest := by
    rcases List.mem_append.1 hm with hm | hm
    · exact absurd (hbefore m hm) hmx
    · exact hm
  have hsub (m : Node) (hm : m ∈ preorderAll (n :: rest)) : m.Sound T := by
    refine h.sound m ?_
    rw [Node.preorderAll_append]
    exact List.mem_append_right _ hm
  have hself (m : Node) (hm : m ∈ n :: rest) : m.Sound T :=
    hsub m (Node.mem_preorderAll.2 ⟨m, hm, by simp⟩)
  have hdrop : (before ++ n :: rest).dropWhile Node.isExtra = n :: rest := by
    rw [List.dropWhile_append_of_pos hbefore, List.dropWhile_cons_of_neg hextra]
  refine ⟨h.start, h.stop, hw₁.append ⟨hw₂.1, hstart, hlast⟩,
    hfilled₁.append ⟨hfilled.1, hgap⟩, fun m hm => ?_⟩
  rw [Node.preorderAll_append, List.mem_append] at hm
  rcases hm with hm | hm
  · refine h.sound m ?_
    rw [Node.preorderAll_append]
    exact List.mem_append_left _ hm
  · have hm : m = .mk k none n.start ((n :: rest).getLast (by simp)).stop (n :: rest) ∨
        m ∈ preorderAll (n :: rest) := by
      simpa [Node.preorder_eq, Node.inner, Node.children] using hm
    rcases hm with rfl | hm
    · refine ⟨(hself n (by simp)).start, (hself _ (List.getLast_mem _)).stop, hinner, ?_,
        fun _ => hk, fun _ => ⟨n, by simp [Node.children], ?_⟩, ?_, fun hd => ?_, fun hs _ => ?_,
        fun hs _ => ?_, fun ht => ?_, fun _ => hfilled, ?_⟩
      · rintro rfl
        simp [Kind.isPhrase] at hk
      · have hcomment : ¬n.isComment := by
          intro hc
          simp_all [Node.isComment, Node.isExtra, Kind.isExtra]
        simp [Node.isSubstantial, hcomment, hlead n hn]
      · simp [Node.children]
      · obtain ⟨⟨x, hx, hxe, hxr⟩, y, hy, hye, hyk⟩ := hsuits.definition hd
        exact ⟨⟨x, hsolid x hx hxe, hxr⟩, y, hsolid y hy hye, hyk⟩
      · have hlisted := hsuits.statement hs
        rwa [hdrop] at hlisted
      · obtain ⟨hquoted, hnone⟩ := hsuits.literal hs
        rw [hdrop] at hquoted
        rw [definitions_append, List.append_eq_nil_iff] at hnone
        exact ⟨hquoted, hnone.2⟩
      · exact fun m hm => hsuits.closed ht m (List.mem_append_right _ hm)
      · simp [Node.children]
    · exact hsub m hm

end Spans

theorem Spans.nested (h : Spans T a ps b) : Node.Nested (preorderAll ps) :=
  fun n hn => (h.sound n hn).within

theorem definitions_of_extras (h : ∀ n ∈ ps, n.Sound T) (hps : ∀ n ∈ ps, n.isExtra) :
    definitions ps = [] := by
  refine List.filter_eq_nil_iff.2 fun d hd hdef => ?_
  obtain ⟨n, hn, hd⟩ := Node.mem_preorderAll.1 hd
  have hextra := hps n hn
  rcases Node.mem_preorder.1 hd with rfl | hd
  · unfold Node.isExtra at hextra
    unfold Node.isDefinition at hdef
    cases hk : d.kind <;> simp_all [Kind.isExtra]
  · simp [Node.inner, (h n hn).leaf_of_isExtra hextra] at hd

theorem definitions_wrap (hk : ¬k.isDefinition) : definitions (wrap k ps) = definitions ps := by
  rcases wrap_cases k ps with ⟨-, -, hw⟩ | ⟨before, n, rest, rfl, -, -, -, hw⟩
  · rw [hw]
  · rw [hw, definitions_append, definitions_append, definitions_cons (n := .mk k _ _ _ _),
      if_neg (show ¬Node.isDefinition (.mk k _ _ _ _) from hk)]
    simp [Node.children]

theorem sound_withRole (h : n.Sound T) (r : Role) : (n.withRole r).Sound T := by
  obtain ⟨k, role, s, e, cs⟩ := n
  exact ⟨h.start, h.stop, h.within, h.kind, h.phrase, h.substantial, h.cut, h.definition,
    h.statement, h.literal, h.closed, h.filled, h.leaf⟩

theorem mem_withRole {r : Role} (h : n ∈ withRole r ps) :
    ∃ m ∈ ps, n.kind = m.kind ∧ n.start = m.start ∧ n.stop = m.stop ∧ n.children = m.children ∧
      (¬m.isExtra → n.role = some r) ∧ (∀ T, m.Sound T → n.Sound T) := by
  obtain ⟨m, hm, rfl⟩ := List.mem_map.1 h
  obtain ⟨k, role, s, e, cs⟩ := m
  refine ⟨_, hm, ?_⟩
  split
  · rename_i hx
    exact ⟨rfl, rfl, rfl, rfl, fun hne => absurd hx hne, fun _ h => h⟩
  · exact ⟨rfl, rfl, rfl, rfl, fun _ => rfl, fun _ h => sound_withRole h r⟩

theorem withRole_cons (r : Role) (n : Node) (ps : Forest) :
    withRole r (n :: ps) = (if n.isExtra then n else n.withRole r) :: withRole r ps := rfl

theorem Within.withRole {x y : Nat} (h : Within x ps y) (r : Role) :
    Within x (withRole r ps) y := by
  induction ps generalizing x with
  | nil => exact h
  | cons p ps ih =>
      obtain ⟨k, role, s, e, cs⟩ := p
      rw [withRole_cons]
      split
      · exact ⟨h.1, h.2.1, ih h.2.2⟩
      · exact ⟨h.1, h.2.1, ih h.2.2⟩

theorem Spans.withRole (h : Spans T a ps b) (r : Role) : Spans T a (withRole r ps) b := by
  refine ⟨h.start, h.stop, h.within.withRole r, h.filled.withRole r, fun n hn => ?_⟩
  obtain ⟨p, hp, hn⟩ := Node.mem_preorderAll.1 hn
  obtain ⟨m, hm, -, -, -, hchildren, -, hsound⟩ := mem_withRole hp
  rcases Node.mem_preorder.1 hn with rfl | hn
  · exact hsound T (h.sound_of_mem hm)
  · refine h.sound n (Node.mem_preorderAll.2 ⟨m, hm, Node.mem_preorder.2 (.inr ?_)⟩)
    rwa [Node.inner, ← hchildren]

theorem definitions_withRole (r : Role) (hps : ∀ n ∈ ps, ¬n.isDefinition) :
    definitions (withRole r ps) = definitions ps := by
  induction ps with
  | nil => rfl
  | cons p ps ih =>
      have hp := hps p (by simp)
      obtain ⟨k, role, s, e, cs⟩ := p
      have hrest := ih fun n hn => hps n (by simp [hn])
      rw [withRole_cons, definitions_cons, definitions_cons, hrest, if_neg hp]
      split
      · rfl
      · rw [if_neg (show ¬(Node.withRole r (.mk k role s e cs)).isDefinition from hp)]
        rfl

theorem closed_append (h : ∀ n ∈ ps, n.Closed) (h' : ∀ n ∈ qs, n.Closed) :
    ∀ n ∈ ps ++ qs, n.Closed := fun n hn => (List.mem_append.1 hn).elim (h n) (h' n)

theorem closed_wrap (hk : k.isPhrase) (h : ∀ n ∈ ps, n.Closed) : ∀ n ∈ wrap k ps, n.Closed := by
  rcases wrap_cases k ps with ⟨-, -, hw⟩ | ⟨before, n, rest, rfl, -, -, -, hw⟩
  · rwa [hw]
  · rw [hw]
    refine closed_append (fun m hm => h m (List.mem_append_left _ hm)) fun m hm => ?_
    obtain rfl := List.mem_singleton.1 hm
    refine ⟨by rintro rfl; simp [Kind.isPhrase] at hk, fun l hl hcontent => ?_⟩
    obtain ⟨c, hc, hl⟩ := Node.mem_preorderAll.1 hl
    obtain ⟨hne, hin⟩ := h c (List.mem_append_right _ hc)
    rcases Node.mem_preorder.1 hl with rfl | hl
    · exact absurd hcontent hne
    · obtain ⟨s, hs, hstring⟩ := hin l hl hcontent
      exact ⟨s, Node.mem_preorder.2 (.inr (Node.mem_preorderAll.2 ⟨c, hc, hs⟩)), hstring⟩

/-- A literal holds its own text. -/
theorem closed_wrap_string (h : Spans T a ps b) : ∀ n ∈ wrap .string ps, n.Closed := by
  have hextra (n : Node) (hn : n ∈ ps) (hextra : n.isExtra) : n.Closed := by
    have hleaf := (h.sound_of_mem hn).leaf_of_isExtra hextra
    refine ⟨fun hk => by simp [Node.isExtra, hk, Kind.isExtra] at hextra, fun m hm => ?_⟩
    simp [Node.inner, hleaf] at hm
  intro n hn
  rcases wrap_cases .string ps with ⟨hps, -, hw⟩ | ⟨before, m, rest, rfl, hbefore, -, -, hw⟩
  · rw [hw] at hn
    exact hextra n hn (hps n hn)
  · rw [hw] at hn
    rcases List.mem_append.1 hn with hn | hn
    · exact hextra n (List.mem_append_left _ hn) (hbefore n hn)
    · obtain rfl := List.mem_singleton.1 hn
      exact ⟨by simp [Node.kind], fun l hl _ => ⟨_, by simp, rfl, hl⟩⟩

theorem closed_withRole (h : ∀ n ∈ ps, n.Closed) (r : Role) : ∀ n ∈ withRole r ps, n.Closed := by
  intro n hn
  obtain ⟨m, hm, hkind, -, -, hchildren, -⟩ := mem_withRole hn
  have hinner : n.inner = m.inner := by rw [Node.inner, Node.inner, hchildren]
  obtain ⟨hne, hin⟩ := h m hm
  refine ⟨hkind ▸ hne, fun l hl hcontent => ?_⟩
  rw [hinner] at hl
  obtain ⟨s, hs, hstring, hls⟩ := hin l hl hcontent
  rcases Node.mem_preorder.1 hs with rfl | hs
  · exact ⟨n, by simp, hkind.trans hstring, hinner ▸ hls⟩
  · exact ⟨s, Node.mem_preorder.2 (.inr (hinner ▸ hs)), hstring, hls⟩

/-- Nodes that hold no definition, and none of which is empty. -/
structure Loose (T : Text) (a : Location) (ps : Forest) (b : Location) : Prop
    extends Spans T a ps b where
  wide : ∀ n ∈ ps, n.hasWidth
  plain : definitions ps = []

namespace Loose

theorem refl (h : Place T a) : Loose T a [] a := ⟨.refl h, by simp, rfl⟩

theorem append (h : Loose T a ps b) (h' : Loose T b qs c) : Loose T a (ps ++ qs) c := by
  refine ⟨h.toSpans.append h'.toSpans, fun n hn => ?_, by simp [h.plain, h'.plain]⟩
  exact (List.mem_append.1 hn).elim (h.wide n) (h'.wide n)

theorem wrap (h : Loose T a ps b) (hk : k.isPhrase) (hdef : ¬k.isDefinition)
    (hsuits : Suits k ps) : Loose T a (wrap k ps) b := by
  refine ⟨h.toSpans.wrap hk (fun n hn => h.wide n (mem_of_lead? hn).1) hsuits,
    fun m hm => ?_, by rw [definitions_wrap hdef, h.plain]⟩
  rcases wrap_cases k ps with ⟨-, -, hw⟩ | ⟨before, n, rest, rfl, -, -, -, hw⟩
  · exact h.wide m (hw ▸ hm)
  · rw [hw] at hm
    rcases List.mem_append.1 hm with hm | hm
    · exact h.wide m (List.mem_append_left _ hm)
    · obtain rfl := List.mem_singleton.1 hm
      have hn := h.wide n (by simp)
      obtain ⟨y, -, hrest⟩ := h.within.of_append
      have := hrest.last.1.2.2.le
      simp only [Node.hasWidth, decide_eq_true_eq] at hn ⊢
      simp only [Node.start, Node.stop] at this hn ⊢
      omega

theorem not_isDefinition (h : Loose T a ps b) (hn : n ∈ ps) : ¬n.isDefinition := by
  intro hdef
  have : n ∈ definitions ps := mem_definitions.2 ⟨Node.mem_preorderAll.2 ⟨n, hn, by simp⟩, hdef⟩
  simp [h.plain] at this

end Loose

structure Plain (T : Text) (a : Location) (ps : Forest) (b : Location) : Prop
    extends Loose T a ps b where
  closed : ∀ n ∈ ps, n.Closed

namespace Plain

theorem refl (h : Place T a) : Plain T a [] a := ⟨.refl h, by simp⟩

theorem append (h : Plain T a ps b) (h' : Plain T b qs c) : Plain T a (ps ++ qs) c :=
  ⟨h.toLoose.append h'.toLoose, closed_append h.closed h'.closed⟩

theorem wrap (h : Plain T a ps b) (hk : k.isPhrase) (hdef : ¬k.isDefinition)
    (hsuits : Suits k ps) : Plain T a (wrap k ps) b :=
  ⟨h.toLoose.wrap hk hdef hsuits, closed_wrap hk h.closed⟩

theorem withRole (h : Plain T a ps b) (r : Role) : Plain T a (withRole r ps) b := by
  refine ⟨⟨h.toSpans.withRole r, fun n hn => ?_, ?_⟩, closed_withRole h.closed r⟩
  · obtain ⟨m, hm, -, hstart, hstop, -⟩ := mem_withRole hn
    simpa [Node.hasWidth, hstart, hstop] using h.wide m hm
  · rw [definitions_withRole r fun n hn => h.not_isDefinition hn, h.plain]

end Plain

/-- Nodes whose definitions start at some row or later, where of two definitions the one is below
the other or stops on an earlier row than the other starts. -/
structure Laid (T : Text) (lo : Nat) (a : Location) (ps : Forest) (b : Location) : Prop
    extends Spans T a ps b where
  closed : ∀ n ∈ ps, n.Closed
  rows : ∀ d ∈ definitions ps, lo ≤ d.start.row
  apart : (definitions ps).Pairwise fun d e => e ∈ d.inner ∨ d.stop.row < e.start.row

theorem Plain.laid (h : Plain T a ps b) : Laid T lo a ps b :=
  ⟨h.toSpans, h.closed, by simp [h.plain], by simp [h.plain]⟩

namespace Laid

theorem mono (h : Laid T lo' a ps b) (hlo : lo ≤ lo') : Laid T lo a ps b :=
  ⟨h.toSpans, h.closed, fun d hd => Nat.le_trans hlo (h.rows d hd), h.apart⟩

theorem stop_row_le (h : Spans T a ps b) {d : Node} (hd : d ∈ definitions ps) :
    d.stop.row ≤ b.row := by
  obtain ⟨hd, -⟩ := mem_definitions.1 hd
  exact (h.sound d hd).stop.row_le h.stop (Node.within_bounds.2 ps h.nested _ _ h.within d hd).2.2

/-- What comes behind the rows of some nodes may hold definitions too. -/
theorem append (h : Laid T lo a ps b) (h' : Laid T lo' b qs c) (hlo : lo ≤ lo')
    (hrow : b.row < lo') : Laid T lo a (ps ++ qs) c := by
  refine ⟨h.toSpans.append h'.toSpans, closed_append h.closed h'.closed, fun d hd => ?_, ?_⟩
  · rw [definitions_append, List.mem_append] at hd
    exact hd.elim (h.rows d) fun hd => Nat.le_trans hlo (h'.rows d hd)
  · rw [definitions_append]
    refine List.pairwise_append.2 ⟨h.apart, h'.apart, fun d hd e he => .inr ?_⟩
    have := stop_row_le h.toSpans hd
    have := h'.rows e he
    omega

theorem append_plain (h : Laid T lo a ps b) (h' : Plain T b qs c) : Laid T lo a (ps ++ qs) c :=
  ⟨h.toSpans.append h'.toSpans, closed_append h.closed h'.closed, by simpa [h'.plain] using h.rows,
    by simpa [h'.plain] using h.apart⟩

theorem plain_append (h : Spans T a ps b) (hps : definitions ps = []) (hclosed : ∀ n ∈ ps, n.Closed)
    (h' : Laid T lo b qs c) : Laid T lo a (ps ++ qs) c :=
  ⟨h.append h'.toSpans, closed_append hclosed h'.closed, by simpa [hps] using h'.rows,
    by simpa [hps] using h'.apart⟩

theorem wrap (h : Laid T lo a ps b) (hlead : ∀ n, lead? ps = some n → n.hasWidth)
    (hk : k.isFree) : Laid T lo a (Forest.wrap k ps) b := by
  obtain ⟨hphrase, hdef, -⟩ := Kind.isFree_iff.1 hk
  refine ⟨h.toSpans.wrap hphrase hlead (.of_isFree hk fun _ => h.closed),
    closed_wrap hphrase h.closed, ?_, ?_⟩
  · rw [definitions_wrap hdef]
    exact h.rows
  · rw [definitions_wrap hdef]
    exact h.apart

theorem withRole (h : Laid T lo a ps b) (r : Role) (hps : ∀ n ∈ ps, ¬n.isDefinition) :
    Laid T lo a (withRole r ps) b := by
  refine ⟨h.toSpans.withRole r, closed_withRole h.closed r, ?_, ?_⟩
  · rw [definitions_withRole r hps]
    exact h.rows
  · rw [definitions_withRole r hps]
    exact h.apart

end Laid

/-- Nodes of which the first that is no extra is not empty and starts at some row or later. -/
structure Begun (T : Text) (lo : Nat) (a : Location) (ps : Forest) (b : Location) : Prop
    extends Laid T lo a ps b where
  lead : ∃ n, lead? ps = some n ∧ n.hasWidth ∧ lo ≤ n.start.row

theorem Plain.begun (h : Plain T a ps b) (hlead : ∃ n, lead? ps = some n ∧ lo ≤ n.start.row) :
    Begun T lo a ps b := by
  obtain ⟨n, hn, hlo⟩ := hlead
  exact ⟨h.laid, n, hn, h.wide n (mem_of_lead? hn).1, hlo⟩

namespace Begun

theorem lead_append (h : Begun T lo a ps b) (qs : Forest) :
    ∃ n, lead? (ps ++ qs) = some n ∧ n.hasWidth ∧ lo ≤ n.start.row := by
  obtain ⟨n, hn, hwide, hlo⟩ := h.lead
  exact ⟨n, by simp [lead?_append, hn], hwide, hlo⟩

theorem append (h : Begun T lo a ps b) (h' : Laid T lo' b qs c) (hlo : lo ≤ lo')
    (hrow : b.row < lo') : Begun T lo a (ps ++ qs) c :=
  ⟨h.toLaid.append h' hlo hrow, h.lead_append qs⟩

/-- The row from which on definitions stand is no later than where the nodes stop. -/
theorem lo_le (h : Begun T lo a ps b) : lo ≤ b.row := by
  obtain ⟨n, hn, -, hlo⟩ := h.lead
  have hmem := Node.mem_preorderAll.2 ⟨n, (mem_of_lead? hn).1, Node.mem_preorder.2 (.inl rfl)⟩
  obtain ⟨-, hle, hstop⟩ := Node.within_bounds.2 ps h.nested _ _ h.within n hmem
  have hrow := (h.sound n hmem).start.row_le h.stop (Nat.le_trans hle hstop)
  omega

theorem hasWidth_of_lead? (h : Begun T lo a ps b) (hn : lead? ps = some n) : n.hasWidth := by
  obtain ⟨m, hm, hwide, -⟩ := h.lead
  rw [hn] at hm
  obtain rfl := Option.some.inj hm
  exact hwide

theorem lead_wrap (h : Begun T lo a ps b) (hk : k.isPhrase) :
    ∃ n, lead? (Forest.wrap k ps) = some n ∧ n.hasWidth ∧ lo ≤ n.start.row := by
  obtain ⟨m, hm, hwide, hlo⟩ := h.lead
  rcases wrap_cases k ps with ⟨-, hnone, -⟩ | ⟨before, n, rest, rfl, hbefore, hn, -, hw⟩
  · simp [hm] at hnone
  · rw [hm] at hn
    obtain rfl := Option.some.inj hn
    have hextra : ¬k.isExtra := by
      cases k <;> simp_all [Kind.isPhrase, Kind.isExtra]
    refine ⟨_, (congrArg lead? hw).trans (lead?_extras_append hbefore hextra), ?_, hlo⟩
    obtain ⟨y, -, hrest⟩ := h.within.of_append
    have hstop := hrest.last.1.2.2.le
    simp only [Node.hasWidth, decide_eq_true_eq] at hwide ⊢
    simp only [Node.start, Node.stop] at hstop hwide ⊢
    omega

theorem wrap (h : Begun T lo a ps b) (hk : k.isFree) : Begun T lo a (Forest.wrap k ps) b :=
  ⟨h.toLaid.wrap (fun _ hn => h.hasWidth_of_lead? hn) hk, h.lead_wrap (Kind.isFree_iff.1 hk).1⟩

theorem wrap_definition (h : Begun T lo a ps b) (hk : k.isDefinition)
    (hname : ∃ m ∈ ps, ¬m.isExtra ∧ m.role = some .name)
    (hcolon : ∃ m ∈ ps, m.kind = .mark ":") : Begun T lo a (Forest.wrap k ps) b := by
  have hphrase : k.isPhrase := by
    cases k <;> simp_all [Kind.isPhrase, Kind.isDefinition]
  have hspans := h.toSpans.wrap hphrase (fun n hn => h.hasWidth_of_lead? hn) ⟨fun _ =>
      ⟨hname, hcolon.imp fun m hm => ⟨hm.1, by simp [Node.isExtra, hm.2, Kind.isExtra], hm.2⟩⟩,
    fun hs => by simp [hs, Kind.isDefinition] at hk, fun hs => by simp [hs, Kind.isDefinition] at hk,
    fun _ => h.closed⟩
  obtain ⟨n, hlead, hwide, hlo⟩ := h.lead_wrap hphrase
  rcases wrap_cases k ps with ⟨-, hnone, -⟩ | ⟨before, m, rest, rfl, hbefore, -, -, hw⟩
  · obtain ⟨m, hm, -⟩ := h.lead
    simp [hm] at hnone
  · set d : Node := .mk k none m.start ((m :: rest).getLast (by simp)).stop (m :: rest) with hd
    have hextra : ¬d.isExtra := by
      cases k <;> simp_all [Kind.isDefinition, Node.isExtra, Node.kind, Kind.isExtra]
    rw [hw, lead?_extras_append hbefore hextra] at hlead
    obtain rfl := Option.some.inj hlead
    have hbare : definitions before = [] :=
      definitions_of_extras (fun x hx => h.sound_of_mem (List.mem_append_left _ hx)) hbefore
    have hdefs : definitions (Forest.wrap k (before ++ m :: rest)) =
        d :: definitions (m :: rest) := by
      rw [hw, definitions_append, hbare, definitions_cons, if_pos (show d.isDefinition from hk)]
      simp [hd, Node.children]
    have hrows := h.rows
    have hapart := h.apart
    rw [definitions_append, hbare, List.nil_append] at hrows hapart
    refine ⟨⟨hspans, closed_wrap hphrase h.closed, ?_, ?_⟩, h.lead_wrap hphrase⟩
    · rw [hdefs]
      exact List.forall_mem_cons.2 ⟨hlo, hrows⟩
    · rw [hdefs]
      refine List.pairwise_cons.2 ⟨fun e he => .inl ?_, hapart⟩
      exact (mem_definitions.1 he).1

end Begun

end Forest
end DocstringEditor.Syntax
