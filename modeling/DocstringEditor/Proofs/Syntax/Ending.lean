import DocstringEditor.Proofs.Syntax.Module

namespace DocstringEditor.Syntax

variable {a b c : Location} {n m d root : Node} {ns : Forest}

def Location.Precedes (a b : Location) : Prop := a.byte ≤ b.byte ∧ a ≤ b

def Forest.Between : Location → Forest → Location → Prop
  | a, [], b => a.Precedes b
  | a, n :: ns, b => a.Precedes n.start ∧ n.start.Precedes n.stop ∧ Between n.stop ns b

namespace Location.Precedes

theorem refl (a : Location) : a.Precedes a := ⟨Nat.le_refl _, .inr ⟨rfl, Nat.le_refl _⟩⟩

theorem trans (hab : a.Precedes b) (hbc : b.Precedes c) : a.Precedes c := by
  simp only [Precedes, le_def] at *
  omega

end Location.Precedes

namespace Node

def Ordered (ns : List Node) : Prop := ∀ n ∈ ns, Forest.Between n.start n.children n.stop

/-- Whether all substantial nodes that have children have a substantial one. -/
def Substantive (ns : List Node) : Prop :=
  ∀ n ∈ ns, n.isSubstantial → n.children ≠ [] → ∃ c ∈ n.children, c.isSubstantial

mutual
def uncommented : Node → List Node
  | mk k r s e cs =>
    if k = .comment then []
    else if cs.isEmpty then if (mk k r s e cs).hasWidth then [mk k r s e cs] else []
    else uncommentedAll cs

def uncommentedAll : Forest → List Node
  | [] => []
  | n :: ns => uncommented n ++ uncommentedAll ns
end

/-- Whether a place is where one of several nodes stops, and none stops later. -/
def IsLastStop (l : Location) (ms : List Node) : Prop :=
  (∃ m ∈ ms, l = m.stop) ∧ ∀ m ∈ ms, m.stop.Precedes l

end Node

theorem Forest.Between.precedes (h : Between a ns b) : a.Precedes b := by
  induction ns generalizing a with
  | nil => exact h
  | cons n ns ih => exact h.1.trans (h.2.1.trans (ih h.2.2))

namespace Node

theorem Ordered.mono {ms ns : List Node} (h : Ordered ns) (hs : ∀ m ∈ ms, m ∈ ns) : Ordered ms :=
  fun m hm => h m (hs m hm)

theorem Substantive.mono {ms ns : List Node} (h : Substantive ns) (hs : ∀ m ∈ ms, m ∈ ns) :
    Substantive ms := fun m hm => h m (hs m hm)

theorem ordered_bounds :
    (∀ n : Node, Ordered n.preorder → ∀ m ∈ n.preorder, n.start.Precedes m.start ∧
      m.start.Precedes m.stop ∧ m.stop.Precedes n.stop) ∧
    ∀ ns : Forest, Ordered (preorderAll ns) → ∀ a b, Forest.Between a ns b → ∀ m ∈ preorderAll ns,
      a.Precedes m.start ∧ m.start.Precedes m.stop ∧ m.stop.Precedes b := by
  apply Node.induction
  case mk =>
    intro k r s e cs ih h m hm
    have hchildren := h (mk k r s e cs) (by simp)
    rcases mem_preorder.1 hm with rfl | hm
    · exact ⟨.refl _, hchildren.precedes, .refl _⟩
    · exact ih (h.mono fun _ hm => mem_preorder.2 (.inr hm)) _ _ hchildren m hm
  case nil => simp
  case cons =>
    intro n ns ihn ihns h a b hw m hm
    obtain ⟨hstart, hstop, hrest⟩ := hw
    rcases List.mem_append.1 hm with hm | hm
    · obtain ⟨h₁, h₂, h₃⟩ := ihn (h.mono fun _ hm => List.mem_append_left _ hm) m hm
      exact ⟨hstart.trans h₁, h₂, h₃.trans hrest.precedes⟩
    · obtain ⟨h₁, h₂, h₃⟩ := ihns (h.mono fun _ hm => List.mem_append_right _ hm) _ _ hrest m hm
      exact ⟨hstart.trans (hstop.trans h₁), h₂, h₃⟩

theorem uncommented_subset :
    (∀ n : Node, ∀ m ∈ n.uncommented, m ∈ n.preorder ∧ m.hasWidth) ∧
    ∀ ns : Forest, ∀ m ∈ uncommentedAll ns, m ∈ preorderAll ns ∧ m.hasWidth := by
  apply Node.induction
  case mk =>
    intro k r s e cs ih m hm
    rw [uncommented] at hm
    split at hm
    · cases hm
    · split at hm
      · split at hm
        · obtain rfl := List.mem_singleton.1 hm
          exact ⟨by simp, by assumption⟩
        · cases hm
      · exact ⟨mem_preorder.2 (.inr (ih m hm).1), (ih m hm).2⟩
  case nil => simp [uncommentedAll]
  case cons =>
    intro n ns ihn ihns m hm
    rcases List.mem_append.1 hm with hm | hm
    · exact ⟨List.mem_append_left _ (ihn m hm).1, (ihn m hm).2⟩
    · exact ⟨List.mem_append_right _ (ihns m hm).1, (ihns m hm).2⟩

/-- There is no token in a comment, nor in a node without width. -/
theorem uncommented_eq_nil (h : Ordered n.preorder) (hsub : ¬n.isSubstantial) :
    n.uncommented = [] := by
  by_cases hcomment : n.isComment
  · cases n
    simpa [uncommented, isComment, kind] using fun hne => absurd (of_decide_eq_true hcomment) hne
  · refine List.eq_nil_iff_forall_not_mem.2 fun m hm => hsub ?_
    obtain ⟨hin, hwidth⟩ := uncommented_subset.1 n m hm
    obtain ⟨hstart, -, hstop⟩ := ordered_bounds.1 n h m hin
    have hstart := hstart.1
    have hstop := hstop.1
    simp only [isSubstantial, hasWidth, Bool.and_eq_true, decide_eq_true_eq] at hwidth ⊢
    exact ⟨by simp [hcomment], by omega⟩

/-- The logical end of a substantial node is the last stop of its tokens. -/
theorem logicalEnd_isLastStop :
    (∀ n : Node, Ordered n.preorder → Substantive n.preorder → n.isSubstantial →
      IsLastStop n.logicalEnd n.uncommented) ∧
    ∀ ns : Forest, Ordered (preorderAll ns) → Substantive (preorderAll ns) → ∀ a b,
      Forest.Between a ns b → (lastEnd? ns = none → uncommentedAll ns = []) ∧
        ∀ l, lastEnd? ns = some l → IsLastStop l (uncommentedAll ns) := by
  apply Node.induction
  case mk =>
    intro k r s e cs ih h hfull hsub
    have hself : mk k r s e cs ∈ (mk k r s e cs).preorder := by simp
    have hkind : k ≠ .comment := by
      rintro rfl
      simp [isSubstantial, isComment, kind] at hsub
    have hwidth : (mk k r s e cs).hasWidth := (Bool.and_eq_true_iff.1 hsub).2
    by_cases hcs : cs = []
    · subst hcs
      refine ⟨⟨mk k r s e [], ?_, rfl⟩, fun m hm => ?_⟩
      · simp [uncommented, hkind, hwidth]
      · obtain rfl : m = mk k r s e [] := by simpa [uncommented, hkind, hwidth] using hm
        exact .refl _
    · obtain ⟨c, hc, hcsub⟩ := hfull _ hself hsub hcs
      obtain ⟨l, hl⟩ : ∃ l, lastEnd? cs = some l :=
        Option.isSome_iff_exists.1 (lastEnd?_isSome hc hcsub)
      have hlast := (ih (h.mono fun _ hm => mem_preorder.2 (.inr hm))
        (hfull.mono fun _ hm => mem_preorder.2 (.inr hm)) _ _ (h _ hself)).2 l hl
      have hend : (mk k r s e cs).logicalEnd = l := by rw [logicalEnd, hl, Option.getD_some]
      rw [hend]
      simpa [uncommented, hkind, hcs] using hlast
  case nil => simp [lastEnd?, uncommentedAll]
  case cons =>
    intro n ns ihn ihns h hfull a b hw
    have hnode := h.mono fun m (hm : m ∈ n.preorder) => List.mem_append_left (preorderAll ns) hm
    have hnodes := h.mono fun m (hm : m ∈ preorderAll ns) => List.mem_append_right n.preorder hm
    obtain ⟨hnone, hsome⟩ := ihns hnodes (hfull.mono fun _ hm => List.mem_append_right _ hm) _ _
      hw.2.2
    rw [lastEnd?, uncommentedAll]
    cases hlast : lastEnd? ns with
    | none =>
        rw [hnone hlast, List.append_nil, Option.none_or]
        by_cases hsub : n.isSubstantial
        · rw [if_pos hsub]
          refine ⟨fun hnil => absurd hnil (Option.some_ne_none _), fun l hl => ?_⟩
          obtain rfl := Option.some.inj hl
          exact ihn hnode (hfull.mono fun _ hm => List.mem_append_left _ hm) hsub
        · rw [if_neg hsub]
          exact ⟨fun _ => uncommented_eq_nil hnode hsub, fun l hl => by cases hl⟩
    | some l =>
        refine ⟨fun hnil => absurd hnil (Option.some_ne_none _), fun l' hl' => ?_⟩
        obtain rfl := Option.some.inj hl'
        obtain ⟨⟨m, hm, hstop⟩, hlater⟩ := hsome l hlast
        refine ⟨⟨m, List.mem_append_right _ hm, hstop⟩, fun m' hm' => ?_⟩
        rcases List.mem_append.1 hm' with hm' | hm'
        · -- The last token stands in a later node, which starts where this one has stopped.
          have hbefore := (ordered_bounds.1 n hnode m' (uncommented_subset.1 n m' hm').1).2.2
          obtain ⟨hstart, hself, -⟩ :=
            ordered_bounds.2 ns hnodes _ _ hw.2.2 m (uncommented_subset.2 ns m hm).1
          rw [hstop]
          exact hbefore.trans (hstart.trans hself)
        · exact hlater m' hm'

/-- With no comment in between, the tokens of a node are tokens of the nodes that it is below. -/
theorem uncommented_mono :
    (∀ n : Node, ¬n.isComment → ∀ d ∈ n.inner, (∀ c ∈ n.inner, c.isComment → d ∉ c.inner) →
      ∀ m ∈ d.uncommented, m ∈ n.uncommented) ∧
    ∀ ns : Forest, ∀ d ∈ preorderAll ns,
      (∀ c ∈ preorderAll ns, c.isComment → d ∉ c.inner) →
      ∀ m ∈ d.uncommented, m ∈ uncommentedAll ns := by
  apply Node.induction
  case mk =>
    intro k r s e cs ih hcomment d hd hbetween m hm
    have hkind : k ≠ .comment := by
      rintro rfl
      exact hcomment (by simp [isComment, kind])
    have hcs : cs ≠ [] := by
      rintro rfl
      cases hd
    have hall := ih d hd hbetween m hm
    simpa [uncommented, hkind, hcs] using hall
  case nil => simp
  case cons =>
    intro n ns ihn ihns d hd hbetween m hm
    rcases List.mem_append.1 hd with hd | hd
    · refine List.mem_append_left _ ?_
      rcases mem_preorder.1 hd with rfl | hd
      · exact hm
      · refine ihn (fun hcomment => hbetween n (by simp) hcomment hd) d hd (fun c hc => ?_) m hm
        exact hbetween c (by simp [hc])
    · exact List.mem_append_right _
        (ihns d hd (fun c hc => hbetween c (by simp [hc])) m hm)

theorem between_of_within (hns : ∀ m ∈ ns, m.start ∈ root.places ∧ m.stop ∈ root.places)
    (h : ∀ a ∈ root.places, ∀ b ∈ root.places, a.byte ≤ b.byte ↔ a ≤ b) (ha : a ∈ root.places)
    (hb : b ∈ root.places) (hw : Forest.Within a.byte ns b.byte) : Forest.Between a ns b := by
  have hle {a b : Location} (ha : a ∈ root.places) (hb : b ∈ root.places)
      (hbyte : a.byte ≤ b.byte) : a.Precedes b := ⟨hbyte, (h a ha b hb).1 hbyte⟩
  induction ns generalizing a with
  | nil => exact hle ha hb hw
  | cons n ns ih =>
      obtain ⟨⟨hstart, hstop⟩, hns⟩ := List.forall_mem_cons.1 hns
      exact ⟨hle ha hstart hw.1, hle hstart hstop hw.2.1, ih hns hstop hw.2.2⟩

theorem Regular.ordered_preorder (h : root.Regular) : Ordered root.preorder := by
  intro n hn
  refine between_of_within (fun m hm => ?_) h.ordered (start_mem_places hn) (stop_mem_places hn)
    (h.nested n hn)
  have hin : m ∈ root.preorder :=
    preorder_trans hn (mem_preorder.2 (.inr (mem_preorderAll.2 ⟨m, hm, by simp⟩)))
  exact ⟨start_mem_places hin, stop_mem_places hin⟩

theorem Tree.substantive {T : Text} (h : Tree T root) : Substantive root.inner :=
  fun _ hn _ hne => (h.sound _ hn).substantial hne

/-- The logical end of a substantial node is the greatest of the stops of its tokens. So it comes no
earlier than that of a substantial node below it, if no comment is in between. -/
theorem logicalEnd_greatest (h : Ordered root.preorder) (hfull : Substantive root.preorder)
    (hn : n ∈ root.preorder) (hsub : n.isSubstantial) :
    IsLastStop n.logicalEnd n.uncommented ∧
    ∀ d ∈ n.inner, d.isSubstantial → (∀ c ∈ n.inner, c.isComment → d ∉ c.inner) →
      d.logicalEnd.Precedes n.logicalEnd := by
  have hends {m : Node} (hm : m ∈ root.preorder) (hsub : m.isSubstantial) :
      IsLastStop m.logicalEnd m.uncommented :=
    logicalEnd_isLastStop.1 m (h.mono fun _ hl => preorder_trans hm hl)
      (hfull.mono fun _ hl => preorder_trans hm hl) hsub
  refine ⟨hends hn hsub, fun d hd hdsub hbetween => ?_⟩
  have hcomment : ¬n.isComment := by
    have := (Bool.and_eq_true_iff.1 hsub).1
    simpa using this
  obtain ⟨m, hm, hstop⟩ :=
    (hends (preorder_trans hn (mem_preorder.2 (.inr hd))) hdsub).1
  rw [hstop]
  exact (hends hn hsub).2 m (uncommented_mono.1 n hcomment d hd hbetween m hm)

theorem logicalEnd_greatest_comment : ∃ root n,
    ofText? "def f():\n    return 1\n    # end\n".toList = some root ∧
    Ordered root.preorder ∧ Substantive root.preorder ∧ n ∈ root.preorder ∧ n.isSubstantial ∧
    n.stop = ⟨31, 2, 9⟩ ∧ n.logicalEnd = ⟨21, 1, 12⟩ ∧ IsLastStop n.logicalEnd n.uncommented ∧
    ∀ d ∈ n.inner, d.isSubstantial → (∀ c ∈ n.inner, c.isComment → d ∉ c.inner) →
      d.logicalEnd.Precedes n.logicalEnd := by
  have hroot : (ofText? "def f():\n    return 1\n    # end\n".toList).any fun root =>
      root.children.any fun n => n.isSubstantial && n.stop = ⟨31, 2, 9⟩ &&
        n.logicalEnd = ⟨21, 1, 12⟩ := by
    decide +kernel
  obtain ⟨root, hroot, h⟩ := (Option.any_eq_true _ _).1 hroot
  obtain ⟨n, hn, h⟩ := List.any_eq_true.1 h
  simp only [Bool.and_eq_true, decide_eq_true_eq] at h
  obtain ⟨⟨hsub, hstop⟩, hend⟩ := h
  have htree := ofText?_tree hroot
  have hin : n ∈ root.inner := mem_preorderAll.2 ⟨n, hn, by simp⟩
  have hfull : Substantive root.preorder := by
    intro m hm hsubm hne
    rcases mem_preorder.1 hm with rfl | hm
    · exact ⟨n, hn, hsub⟩
    · exact htree.substantive m hm hsubm hne
  have hordered := htree.regular.ordered_preorder
  have hmem : n ∈ root.preorder := mem_preorder.2 (.inr hin)
  exact ⟨root, n, hroot, hordered, hfull, hmem, hsub, hstop, hend,
    logicalEnd_greatest hordered hfull hmem hsub⟩

end Node

end DocstringEditor.Syntax
