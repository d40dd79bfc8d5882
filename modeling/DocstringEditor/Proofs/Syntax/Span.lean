import Mathlib.Data.List.Basic
import DocstringEditor.Analysis.Definition

namespace DocstringEditor.Syntax

namespace Location

/-- By row, then column. -/
instance : LE Location where
  le a b := a.row < b.row ∨ a.row = b.row ∧ a.column ≤ b.column

instance : DecidableLE Location := fun a b =>
  inferInstanceAs (Decidable (a.row < b.row ∨ a.row = b.row ∧ a.column ≤ b.column))

theorem le_def {a b : Location} :
    a ≤ b ↔ a.row < b.row ∨ a.row = b.row ∧ a.column ≤ b.column := Iff.rfl

end Location

namespace Forest

def Within : Nat → Forest → Nat → Prop
  | a, [], b => a ≤ b
  | a, n :: ns, b => a ≤ n.start.byte ∧ n.start.byte ≤ n.stop.byte ∧ Within n.stop.byte ns b

end Forest

namespace Node

/-- What holds of trees and of forests, by recursion on both. -/
theorem induction {P : Node → Prop} {Q : Forest → Prop}
    (mk : ∀ k r s e cs, Q cs → P (mk k r s e cs)) (nil : Q [])
    (cons : ∀ n ns, P n → Q ns → Q (n :: ns)) : (∀ n, P n) ∧ ∀ ns, Q ns := by
  have tree : ∀ n, P n := fun n => @Node.rec P Q mk nil cons n
  refine ⟨tree, fun ns => ?_⟩
  induction ns with
  | nil => exact nil
  | cons n ns ih => exact cons n ns (tree n) ih

def inner (n : Node) : List Node := preorderAll n.children

def places (n : Node) : List Location := n.preorder.flatMap fun m => [m.start, m.stop]

def Nested (ns : List Node) : Prop :=
  ∀ n ∈ ns, Forest.Within n.start.byte n.children n.stop.byte

theorem preorder_eq (n : Node) : n.preorder = n :: n.inner := by
  cases n
  rfl

@[simp] theorem mem_preorder {m n : Node} : m ∈ n.preorder ↔ m = n ∨ m ∈ n.inner := by
  simp [preorder_eq]

@[simp] theorem preorderAll_nil : preorderAll [] = [] := rfl

@[simp] theorem preorderAll_cons (n : Node) (ns : Forest) :
    preorderAll (n :: ns) = n.preorder ++ preorderAll ns := rfl

@[simp] theorem preorderAll_append (ms ns : Forest) :
    preorderAll (ms ++ ns) = preorderAll ms ++ preorderAll ns := by
  induction ms with
  | nil => rfl
  | cons m ms ih => simp [ih]

theorem mem_preorderAll {m : Node} {ns : Forest} :
    m ∈ preorderAll ns ↔ ∃ n ∈ ns, m ∈ n.preorder := by
  induction ns with
  | nil => simp
  | cons n ns ih => simp [ih]

theorem size_lt_of_mem_inner :
    (∀ n m : Node, m ∈ n.inner → sizeOf m < sizeOf n) ∧
      ∀ (ns : Forest) (m : Node), m ∈ preorderAll ns → sizeOf m < sizeOf ns := by
  apply Node.induction
  case mk =>
    intro k r s e cs ih m h
    have := ih m h
    simp only [mk.sizeOf_spec]
    omega
  case nil => simp
  case cons =>
    intro n ns ihn ihns m h
    simp only [List.cons.sizeOf_spec]
    rcases List.mem_append.1 h with h | h
    · rcases mem_preorder.1 h with rfl | h
      · omega
      · have := ihn m h
        omega
    · have := ihns m h
      omega

theorem not_mem_inner_self (n : Node) : n ∉ n.inner :=
  fun h => Nat.lt_irrefl _ (size_lt_of_mem_inner.1 n n h)

theorem mem_inner_trans :
    (∀ n m l : Node, m ∈ n.inner → l ∈ m.inner → l ∈ n.inner) ∧
      ∀ (ns : Forest) (m l : Node), m ∈ preorderAll ns → l ∈ m.inner → l ∈ preorderAll ns := by
  apply Node.induction
  case mk =>
    intro k r s e cs ih m l hm hl
    exact ih m l hm hl
  case nil => simp
  case cons =>
    intro n ns ihn ihns m l hm hl
    rcases List.mem_append.1 hm with hm | hm
    · refine List.mem_append_left _ (mem_preorder.2 (.inr ?_))
      rcases mem_preorder.1 hm with rfl | hm
      · exact hl
      · exact ihn m l hm hl
    · exact List.mem_append_right _ (ihns m l hm hl)

theorem inner_trans {n m l : Node} (hm : m ∈ n.inner) (hl : l ∈ m.inner) : l ∈ n.inner :=
  mem_inner_trans.1 n m l hm hl

theorem preorder_trans {l m n : Node} (hm : m ∈ n.preorder) (hl : l ∈ m.preorder) :
    l ∈ n.preorder := by
  rcases mem_preorder.1 hm with rfl | hm
  · exact hl
  · rcases mem_preorder.1 hl with rfl | hl
    · exact mem_preorder.2 (.inr hm)
    · exact mem_preorder.2 (.inr (inner_trans hm hl))

end Node

namespace Node

theorem Nested.mono {ms ns : List Node} (h : Nested ns) (hs : ∀ m ∈ ms, m ∈ ns) : Nested ms :=
  fun m hm => h m (hs m hm)

theorem Nested.of_mem_preorder {m n : Node} (h : Nested n.preorder) (hm : m ∈ n.preorder) :
    Nested m.preorder :=
  h.mono fun _ hl => preorder_trans hm hl

theorem Nested.node {n : Node} {ns : Forest} (h : Nested (preorderAll (n :: ns))) :
    Nested n.preorder := h.mono fun _ hm => by simp_all

theorem Nested.tail {n : Node} {ns : Forest} (h : Nested (preorderAll (n :: ns))) :
    Nested (preorderAll ns) := h.mono fun _ hm => by simp_all

theorem Nested.inner {n : Node} (h : Nested n.preorder) : Nested n.inner :=
  h.mono fun _ hm => by simp [hm]

end Node

theorem Forest.Within.le {a b : Nat} {ns : Forest} (h : Within a ns b) : a ≤ b := by
  induction ns generalizing a with
  | nil => exact h
  | cons n ns ih =>
      obtain ⟨h₁, h₂, h₃⟩ := h
      have := ih h₃
      omega

namespace Node

theorem within_bounds :
    (∀ n : Node, Nested n.preorder → ∀ m ∈ n.inner,
      n.start.byte ≤ m.start.byte ∧ m.start.byte ≤ m.stop.byte ∧ m.stop.byte ≤ n.stop.byte) ∧
    ∀ ns : Forest, Nested (preorderAll ns) → ∀ a b, Forest.Within a ns b → ∀ m ∈ preorderAll ns,
      a ≤ m.start.byte ∧ m.start.byte ≤ m.stop.byte ∧ m.stop.byte ≤ b := by
  apply Node.induction
  case mk =>
    intro k r s e cs ih h m hm
    exact ih h.inner _ _ (h (mk k r s e cs) (by simp)) m hm
  case nil => simp
  case cons =>
    intro n ns ihn ihns h a b hw m hm
    obtain ⟨h₁, h₂, h₃⟩ := hw
    have hle := h₃.le
    rcases List.mem_append.1 hm with hm | hm
    · rcases mem_preorder.1 hm with rfl | hm
      · omega
      · have := ihn h.node m hm
        omega
    · have := ihns h.tail _ _ h₃ m hm
      omega

theorem Nested.of_mem {m : Node} {ns : Forest} (h : Nested (preorderAll ns))
    (hm : m ∈ preorderAll ns) : Nested m.preorder := by
  refine h.mono fun l hl => ?_
  rcases mem_preorder.1 hl with rfl | hl
  · exact hm
  · exact mem_inner_trans.2 ns m l hm hl

theorem stop_le_start_of_within {n d e : Node} {ns : Forest} {a b : Nat}
    (h : Nested (preorderAll (n :: ns))) (hw : Forest.Within a (n :: ns) b) (hd : d ∈ n.preorder)
    (he : e ∈ preorderAll ns) : d.stop.byte ≤ e.start.byte := by
  obtain ⟨-, -, hw⟩ := hw
  have hstart := (within_bounds.2 ns h.tail _ _ hw e he).1
  rcases mem_preorder.1 hd with rfl | hd
  · exact hstart
  · have := (within_bounds.1 n h.node d hd).2.2
    omega

theorem not_mem_inner_of_stop_le {d e : Node} (hd : Nested d.preorder) (he : Nested e.preorder)
    (hle : d.stop.byte ≤ e.start.byte) :
    (d.hasWidth → d ∉ e.inner) ∧ (e.hasWidth → e ∉ d.inner) := by
  simp only [hasWidth, decide_eq_true_eq]
  refine ⟨fun hwidth hde => ?_, fun hwidth hed => ?_⟩
  · have := within_bounds.1 e he d hde
    omega
  · have := within_bounds.1 d hd e hed
    omega

/-- Nodes with width come in the order of their starts: none is equal to a later one or below it. -/
theorem preorder_pairwise :
    (∀ n : Node, Nested n.preorder →
      n.preorder.Pairwise fun d e => d.hasWidth → d ≠ e ∧ d ∉ e.inner) ∧
    ∀ ns : Forest, Nested (preorderAll ns) → ∀ a b, Forest.Within a ns b →
      (preorderAll ns).Pairwise fun d e => d.hasWidth → d ≠ e ∧ d ∉ e.inner := by
  apply Node.induction
  case mk =>
    intro k r s e cs ih h
    rw [preorder_eq]
    refine List.pairwise_cons.2 ⟨fun d hd _ => ⟨?_, fun hn => ?_⟩,
      ih h.inner _ _ (h (mk k r s e cs) (by simp))⟩
    · rintro rfl
      exact not_mem_inner_self _ hd
    · exact not_mem_inner_self _ (inner_trans hd hn)
  case nil => simp
  case cons =>
    intro n ns ihn ihns h a b hw
    refine List.pairwise_append.2
      ⟨ihn h.node, ihns h.tail _ _ hw.2.2, fun d hd e he hwidth => ⟨?_, ?_⟩⟩
    · rintro rfl
      have := stop_le_start_of_within h hw hd he
      simp only [hasWidth, decide_eq_true_eq] at hwidth
      omega
    · exact (not_mem_inner_of_stop_le (h.of_mem (List.mem_append_left _ hd)) (h.tail.of_mem he)
        (stop_le_start_of_within h hw hd he)).1 hwidth

theorem logicalEnd_bounds :
    (∀ n : Node, Nested n.preorder → n.start.byte ≤ n.stop.byte →
      n.start.byte ≤ n.logicalEnd.byte ∧ n.logicalEnd.byte ≤ n.stop.byte) ∧
    ∀ ns : Forest, Nested (preorderAll ns) → ∀ a b, Forest.Within a ns b →
      ∀ l, lastEnd? ns = some l → a ≤ l.byte ∧ l.byte ≤ b := by
  apply Node.induction
  case mk =>
    intro k r s e cs ih h hle
    cases hc : lastEnd? cs with
    | none => simpa [logicalEnd, hc, start, stop] using hle
    | some l =>
        have := ih h.inner _ _ (h (mk k r s e cs) (by simp)) l hc
        simpa [logicalEnd, hc] using this
  case nil => simp [lastEnd?]
  case cons =>
    intro n ns ihn ihns h a b hw l hl
    obtain ⟨h₁, h₂, h₃⟩ := hw
    have hle := h₃.le
    cases hc : lastEnd? ns with
    | some l' =>
        obtain rfl : l' = l := by simpa [lastEnd?, hc] using hl
        have := ihns h.tail _ _ h₃ _ hc
        omega
    | none =>
        obtain ⟨-, rfl⟩ : n.isSubstantial ∧ n.logicalEnd = l := by simpa [lastEnd?, hc] using hl
        have := ihn h.node h₂
        omega

/-- The logical end is where a node stops that holds nothing substantial itself. -/
theorem logicalEnd_mem :
    (∀ n : Node, ∃ m ∈ n.preorder, n.logicalEnd = m.stop ∧ lastEnd? m.children = none ∧
      (m = n ∨ m.isSubstantial)) ∧
    ∀ (ns : Forest) (l : Location), lastEnd? ns = some l →
      ∃ m ∈ preorderAll ns, l = m.stop ∧ lastEnd? m.children = none ∧ m.isSubstantial := by
  apply Node.induction
  case mk =>
    intro k r s e cs ih
    cases hc : lastEnd? cs with
    | none => exact ⟨mk k r s e cs, by simp, by simp [logicalEnd, hc, stop], hc, .inl rfl⟩
    | some l =>
        obtain ⟨m, hm, rfl, hlast, hsub⟩ := ih l hc
        exact ⟨m, mem_preorder.2 (.inr hm), by simp [logicalEnd, hc], hlast, .inr hsub⟩
  case nil => simp [lastEnd?]
  case cons =>
    intro n ns ihn ihns l hl
    cases hc : lastEnd? ns with
    | some l' =>
        obtain rfl : l' = l := by simpa [lastEnd?, hc] using hl
        obtain ⟨m, hm, h⟩ := ihns _ hc
        exact ⟨m, List.mem_append_right _ hm, h⟩
    | none =>
        obtain ⟨hsub, rfl⟩ : n.isSubstantial ∧ n.logicalEnd = l := by
          simpa [lastEnd?, hc] using hl
        obtain ⟨m, hm, hstop, hlast, h⟩ := ihn
        refine ⟨m, List.mem_append_left _ hm, hstop, hlast, ?_⟩
        rcases h with rfl | h
        · exact hsub
        · exact h

theorem lastEnd?_isSome {ns : Forest} {m : Node} (hm : m ∈ ns) (hsub : m.isSubstantial) :
    (lastEnd? ns).isSome := by
  induction ns with
  | nil => simp at hm
  | cons n ns ih =>
      rw [lastEnd?, Option.isSome_or]
      rcases List.mem_cons.1 hm with rfl | hm
      · simp [hsub]
      · simp [ih hm]

theorem logicalEnd_mem_places (n : Node) : n.logicalEnd ∈ n.places := by
  obtain ⟨m, hm, h, -⟩ := logicalEnd_mem.1 n
  exact List.mem_flatMap.2 ⟨m, hm, by simp [h]⟩

theorem start_lt_logicalEnd {n : Node} (h : Nested n.preorder) (hwidth : n.hasWidth) :
    n.start.byte < n.logicalEnd.byte := by
  obtain ⟨m, hm, hend, -, hsub⟩ := logicalEnd_mem.1 n
  have hm : n.start.byte ≤ m.start.byte ∧ m.hasWidth := by
    rcases mem_preorder.1 hm with rfl | hm
    · exact ⟨Nat.le_refl _, hwidth⟩
    · refine ⟨(within_bounds.1 n h m hm).1, ?_⟩
      rcases hsub with rfl | hsub
      · exact hwidth
      · exact (Bool.and_eq_true_iff.1 hsub).2
  have hlt : m.start.byte < m.stop.byte := by simpa [hasWidth] using hm.2
  rw [hend]
  omega

theorem logicalEnd_mono_aux :
    (∀ n : Node, Nested n.preorder → ∀ d ∈ n.inner, d.isSubstantial →
      (∀ c ∈ n.inner, c.isComment → d ∉ c.inner) → d.logicalEnd.byte ≤ n.logicalEnd.byte) ∧
    ∀ ns : Forest, Nested (preorderAll ns) → ∀ a b, Forest.Within a ns b →
      ∀ d ∈ preorderAll ns, d.isSubstantial →
      (∀ c ∈ preorderAll ns, c.isComment → d ∉ c.inner) →
      ∃ l, lastEnd? ns = some l ∧ d.logicalEnd.byte ≤ l.byte := by
  apply Node.induction
  case mk =>
    intro k r s e cs ih h d hd hsub hc
    obtain ⟨l, hl, hle⟩ := ih h.inner _ _ (h (mk k r s e cs) (by simp)) d hd hsub hc
    simpa [logicalEnd, hl] using hle
  case nil => simp
  case cons =>
    intro n ns ihn ihns h a b hw d hd hsub hc
    obtain ⟨h₁, h₂, h₃⟩ := hw
    rcases List.mem_append.1 hd with hd | hd
    · have hdn : d.logicalEnd.byte ≤ n.logicalEnd.byte ∧ n.isSubstantial := by
        rcases mem_preorder.1 hd with rfl | hd
        · exact ⟨Nat.le_refl _, hsub⟩
        · refine ⟨ihn h.node d hd hsub fun c hcn => hc c (by simp [hcn]), ?_⟩
          have hb := within_bounds.1 n h.node d hd
          have hcom : n.isComment = false := by
            by_contra hcom
            exact hc n (by simp) (by simpa using hcom) hd
          simp only [isSubstantial, hasWidth, Bool.and_eq_true, decide_eq_true_eq] at hsub ⊢
          exact ⟨by simp [hcom], by omega⟩
      cases hl : lastEnd? ns with
      | none => exact ⟨n.logicalEnd, by simp [lastEnd?, hl, hdn.2], hdn.1⟩
      | some l =>
          refine ⟨l, by simp [lastEnd?, hl], ?_⟩
          have hn := (logicalEnd_bounds.1 n h.node h₂).2
          have := (logicalEnd_bounds.2 ns h.tail _ _ h₃ l hl).1
          omega
    · obtain ⟨l, hl, hle⟩ := ihns h.tail _ _ h₃ d hd hsub fun c hcn => hc c (by simp [hcn])
      exact ⟨l, by simp [lastEnd?, hl], hle⟩

theorem logicalEnd_mono {n d : Node} (h : Nested n.preorder) (hd : d ∈ n.inner)
    (hsub : d.isSubstantial) (hc : ∀ c ∈ n.inner, c.isComment → d ∉ c.inner) :
    d.logicalEnd.byte ≤ n.logicalEnd.byte := logicalEnd_mono_aux.1 n h d hd hsub hc

theorem isDefinition_iff {n : Node} : n.isDefinition ↔
    n.definitionKind? = some .classDef ∨ n.definitionKind? = some .functionDef := by
  unfold isDefinition definitionKind?
  cases n.kind <;> simp

theorem definitionKind?_of_kind_ne {n : Node} (h : n.kind ≠ .module) :
    n.definitionKind? ≠ some .module := by
  unfold definitionKind?
  cases hk : n.kind <;> simp_all

end Node
end DocstringEditor.Syntax
