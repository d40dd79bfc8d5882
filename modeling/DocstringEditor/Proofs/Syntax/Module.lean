import DocstringEditor.Proofs.Analysis.Cursor
import DocstringEditor.Proofs.Syntax.Statement
import DocstringEditor.Syntax.Module


namespace DocstringEditor.Syntax

open Forest (Laid definitions)

variable {T : Text} {s : Scan} {root : Node}

theorem Grammar.within_legible (depth : Nat) : (Grammar.within depth).Legible := by
  induction depth with
  | zero => exact ⟨fun _ _ => .failure, fun _ _ => .failure⟩
  | succ depth ih =>
      exact ⟨fun _ hl => Parser.chain_legible ih hl, fun _ hl => Parser.operand_legible ih hl⟩

theorem Grammar.within_sound (T : Text) (depth : Nat) : (Grammar.within depth).Sound T := by
  induction depth with
  | zero =>
      exact ⟨within_legible 0, fun _ _ => .failure, fun _ _ => .failure, fun _ => .failure,
        fun _ _ => .failure, fun _ _ => .failure, fun _ _ => .failure⟩
  | succ depth ih =>
      exact ⟨within_legible (depth + 1), fun _ hl => Parser.chain_reads ih hl,
        fun _ hl => Parser.operand_reads ih hl, fun hs => Parser.replacementField_covers ih hs,
        fun _ hl => Parser.typeUnion_reads ih hl, fun _ hl => Parser.casePattern_reads ih hl,
        fun _ hl => Parser.statement_states ih hl⟩

theorem Parser.moduleStatements_laid {g : Grammar} (hg : g.Sound T) (hs : s.In T) :
    Yields (moduleStatements g) s fun ps s' => Laid T s.here.row s.here ps s'.here := by
  refine .loop (I := Block T s.here) (.refl hs) fun _ _ h => .peek h.here fun l hl => ?_
  refine .ite (fun htoken => ?_) fun _ => ?_
  · exact .bind ((hl.takeLayout (by simp [htoken])).mono
      fun _ _ h' => .pure (h.laid.append_plain h'.plain))
  · exact .bind ((hg.statement false hl).mono fun _ _ h' => .pure (h.append hl h'))

namespace Node

/-- What a parser makes of a text. -/
structure Tree (T : Text) (root : Node) : Prop where
  size : Text.byteSize T + 1 < UInt32.size
  kind : root.kind = .module
  start : Place T root.start
  stop : Place T root.stop
  within : Forest.Within root.start.byte root.children root.stop.byte
  filled : Forest.Filled T 0 root.children root.stop.byte
  sound : ∀ n ∈ root.inner, n.Sound T
  closed : ∀ n ∈ root.children, n.Closed
  apart : (definitions root.children).Pairwise
    fun d e => e ∈ d.inner ∨ d.stop.row < e.start.row

theorem ofText?_tree (h : ofText? T = some root) : Tree T root := by
  unfold ofText? at h
  obtain ⟨_, hguard, h⟩ := Option.bind_eq_some_iff.1 h
  obtain ⟨⟨parts, s⟩, hparts, h⟩ := Option.bind_eq_some_iff.1 h
  obtain rfl := Option.some.inj h
  have hlaid := Parser.moduleStatements_laid (Grammar.within_sound T _) (.ofText T) _ _ hparts
  have hsize : Text.byteSize T + 1 < UInt32.size := by
    by_contra hlarge
    simp [guard, hlarge] at hguard
  have hhead : Place T ((parts.head?.map Node.start).getD s.here) ∧
      Forest.Within ((parts.head?.map Node.start).getD s.here).byte parts s.here.byte := by
    cases parts with
    | nil => exact ⟨hlaid.stop, Nat.le_refl _⟩
    | cons n ps => exact ⟨(hlaid.sound_of_mem (by simp)).start, Nat.le_refl _, hlaid.within.2⟩
  have hmark : Gap T 0 (Scan.ofText T).here.byte := by
    unfold Scan.ofText
    split
    · exact ⟨[], ['\uFEFF'], _, rfl, rfl, rfl, by simp [gapChars]⟩
    · exact .refl (a := .origin) ⟨[], List.nil_prefix, rfl⟩
  exact ⟨hsize, rfl, hhead.1, hlaid.stop, hhead.2, hlaid.filled.gap_append hmark, hlaid.sound,
    hlaid.closed, hlaid.apart⟩

theorem rel_or_rel_of_pairwise {α : Type} {R : α → α → Prop} {as : List α} (h : as.Pairwise R)
    {a b : α} (ha : a ∈ as) (hb : b ∈ as) (hne : a ≠ b) : R a b ∨ R b a := by
  obtain ⟨i, hi, rfl⟩ := List.mem_iff_getElem.1 ha
  obtain ⟨j, hj, rfl⟩ := List.mem_iff_getElem.1 hb
  rw [List.pairwise_iff_getElem] at h
  rcases Nat.lt_trichotomy i j with hij | rfl | hij
  · exact .inl (h i j hi hj hij)
  · exact absurd rfl hne
  · exact .inr (h j i hj hi hij)

namespace Tree

variable (h : Tree T root)
include h

theorem places {l : Location} (hl : l ∈ root.places) : Place T l := by
  obtain ⟨n, hn, hl⟩ := List.mem_flatMap.1 hl
  have hn : Place T n.start ∧ Place T n.stop := by
    rcases mem_preorder.1 hn with rfl | hn
    · exact ⟨h.start, h.stop⟩
    · exact ⟨(h.sound n hn).start, (h.sound n hn).stop⟩
  simp only [List.mem_cons, List.not_mem_nil, or_false] at hl
  rcases hl with rfl | rfl
  · exact hn.1
  · exact hn.2

theorem nested : Nested root.preorder := by
  intro n hn
  rcases mem_preorder.1 hn with rfl | hn
  · exact h.within
  · exact (h.sound n hn).within

theorem nested_of_mem {n : Node} (hn : n ∈ root.inner) : Nested n.preorder :=
  h.nested.of_mem_preorder (mem_preorder.2 (.inr hn))

theorem wide {n : Node} (hn : n ∈ root.inner) (hne : n.children ≠ []) : n.hasWidth := by
  obtain ⟨m, hm, hsub⟩ := (h.sound n hn).substantial hne
  have hmn : m ∈ n.inner := mem_preorderAll.2 ⟨m, hm, by simp⟩
  have hb := within_bounds.1 n (h.nested_of_mem hn) m hmn
  simp only [isSubstantial, hasWidth, Bool.and_eq_true, decide_eq_true_eq] at hsub ⊢
  omega

theorem children_ne_nil {d : Node} (hd : d ∈ root.inner) (hdef : d.isDefinition) :
    d.children ≠ [] := by
  obtain ⟨⟨m, hm, -⟩, -⟩ := (h.sound d hd).definition hdef
  exact List.ne_nil_of_mem hm

theorem children_of_comment {c : Node} (hc : c ∈ root.inner) (hcomment : c.isComment) :
    c.children = [] := by
  by_contra hne
  have := (h.sound c hc).phrase hne
  simp_all [isComment, Kind.isPhrase]

/-- What a parser promises of its trees holds of them. -/
theorem regular : root.Regular := by
  refine ⟨h.kind, fun n hn => (h.sound n hn).kind, h.nested,
    fun a ha b hb => (h.places ha).le_iff (h.places hb), fun l hl => ?_, fun n hn hne => ?_,
    fun d hd hdef => h.wide hd (h.children_ne_nil hd hdef), fun c hc hcomment => ?_, ?_⟩
  · have hplace := h.places hl
    have hbyte := hplace.byte_le
    have hbounds := hplace.bounds
    have hsize := h.size
    exact ⟨by omega, by omega, by omega⟩
  · rcases mem_preorder.1 hn with rfl | hn
    · simp [isNamed, h.kind, Kind.isNamed]
    · have := (h.sound n hn).phrase hne
      unfold isNamed
      cases hk : n.kind <;> simp_all [Kind.isPhrase, Kind.isNamed]
  · simp [inner, h.children_of_comment hc hcomment]
  · intro d hd e he hddef hedef hne hde hed
    have hpair := rel_or_rel_of_pairwise h.apart (Forest.mem_definitions.2 ⟨hd, hddef⟩)
      (Forest.mem_definitions.2 ⟨he, hedef⟩) hne
    have hrow {d : Node} (hd : d ∈ root.inner) : d.logicalEnd.row ≤ d.stop.row := by
      have hplace := h.places (places_subset hd d.logicalEnd_mem_places)
      have hb := (logicalEnd_bounds.1 d (h.nested_of_mem hd) (h.sound d hd).within.le).2
      exact hplace.row_le (h.sound d hd).stop hb
    have hdrow := hrow hd
    have herow := hrow he
    rcases hpair with (hin | hlt) | (hin | hlt)
    · exact absurd hin hed
    · omega
    · exact absurd hin hde
    · omega

end Tree
end Node
end DocstringEditor.Syntax
