import DocstringEditor.Analysis.Symbols
import DocstringEditor.Proofs.Outcome
import DocstringEditor.Proofs.Syntax.Span

namespace DocstringEditor.Analysis.Symbols

open Syntax Syntax.Node

/-- A node with a scope of its own, and the index of the scope around it. -/
abbrev Entry := Option Nat × Node

mutual
/-- The definitions of a tree, parents first, where the first of them gets the index `next`. -/
def outline (parent next : Nat) : Node → List Entry
  | .mk k r b e cs =>
    if (Node.mk k r b e cs).isDefinition then
      (some parent, .mk k r b e cs) :: outlineAll next (next + 1) cs
    else outlineAll parent next cs

def outlineAll (parent next : Nat) : Forest → List Entry
  | [] => []
  | n :: ns =>
    outline parent next n ++ outlineAll parent (next + (outline parent next n).length) ns
end

def entries (root : Node) : List Entry := (none, root) :: outlineAll 0 1 root.children

structure Describes (s : Source) (scope : Scope) (n : Node) : Prop where
  kind : n.definitionKind? = some scope.kind
  docstring : scope.docstring = s.docstringRange? n
  name : n.isDefinition → s.nameOf scope.kind n = .ok scope.name
  range : n.isDefinition → scope.range = Source.rangeOf n
  signatureEnd : n.isDefinition →
    ∃ stop, signatureEnd s scope.kind n = .ok stop ∧ scope.signatureEnd = some stop

def childrenOf (es : List Entry) (parent : Nat) : List Nat :=
  (List.range es.length).filter fun i => es[i]?.any fun e => e.1 = some parent

/-- Whether a table holds just the scopes of some entries, linked both ways. -/
structure Linked (s : Source) (table : ScopeTable) (es : List Entry) : Prop where
  size : table.size = es.length
  earlier : ∀ (i p : Nat) n, es[i]? = some (some p, n) → p < i
  scope : ∀ i p n, es[i]? = some (p, n) → ∃ scope, table[i]? = some scope ∧
    scope.parent = p ∧ scope.children = childrenOf es i ∧ Describes s scope n

theorem mem_childrenOf {es : List Entry} {parent i : Nat} :
    i ∈ childrenOf es parent ↔ ∃ n, es[i]? = some (some parent, n) := by
  simp only [childrenOf, List.mem_filter, List.mem_range]
  constructor
  · rintro ⟨hi, h⟩
    obtain ⟨⟨p, n⟩, he, hp⟩ := (Option.any_eq_true _ _).1 h
    exact ⟨n, by simp_all⟩
  · rintro ⟨n, h⟩
    exact ⟨(List.getElem?_eq_some_iff.1 h).1, by simp [h]⟩

theorem childrenOf_append (es : List Entry) (e : Entry) (parent : Nat) :
    childrenOf (es ++ [e]) parent =
      childrenOf es parent ++ if e.1 = some parent then [es.length] else [] := by
  unfold childrenOf
  rw [List.length_append, List.length_singleton, List.range_succ, List.filter_append]
  congr 1
  · refine List.filter_congr fun i hi => ?_
    rw [List.getElem?_append_left (List.mem_range.1 hi)]
  · by_cases h : e.1 = some parent <;> simp [h]

theorem getElem?_concat {α : Type} {as : List α} {a b : α} {i : Nat} :
    (as ++ [a])[i]? = some b ↔ as[i]? = some b ∨ i = as.length ∧ a = b := by
  rcases Nat.lt_trichotomy i as.length with hi | rfl | hi
  · simp [List.getElem?_append_left hi, Nat.ne_of_lt hi]
  · simp
  · have hlong : (as ++ [a])[i]? = none :=
      List.getElem?_eq_none (by rw [List.length_append, List.length_singleton]; omega)
    have hshort : as[i]? = none := List.getElem?_eq_none (Nat.le_of_lt hi)
    simp [hlong, hshort, Nat.ne_of_gt hi]

namespace Linked

variable {s : Source} {table table' : ScopeTable} {es : List Entry}

theorem childrenOf_length (h : Linked s table es) : childrenOf es es.length = [] := by
  refine List.eq_nil_iff_forall_not_mem.2 fun i hi => ?_
  obtain ⟨n, hn⟩ := mem_childrenOf.1 hi
  have := h.earlier i _ n hn
  have := (List.getElem?_eq_some_iff.1 hn).1
  omega

theorem push (h : Linked s table es) {parent : Nat} (hp : parent < es.length) {kind : EntityKind}
    {n : Node} (hkind : n.definitionKind? = some kind)
    (hpush : Symbols.push s parent table kind n = .ok table') :
    Linked s table' (es ++ [(some parent, n)]) := by
  unfold Symbols.push at hpush
  obtain ⟨name, hname, hpush⟩ := bind_eq_ok.1 hpush
  obtain ⟨stop, hstop, hpush⟩ := bind_eq_ok.1 hpush
  simp only [pure, Except.pure, Except.ok.injEq] at hpush
  subst hpush
  have hsize := h.size
  refine ⟨by simp [hsize], fun i p m hm => ?_, fun i p m hm => ?_⟩
  · rcases getElem?_concat.1 hm with hm | ⟨rfl, he⟩
    · exact h.earlier i p m hm
    · obtain ⟨rfl, -⟩ : parent = p ∧ n = m := by simpa using he
      exact hp
  · simp only [Array.getElem?_modify, Array.getElem?_push, hsize, childrenOf_append,
      Option.some.injEq]
    rcases getElem?_concat.1 hm with hm | ⟨rfl, he⟩
    · obtain ⟨scope, ht, hparent, hchildren, hd⟩ := h.scope i p m hm
      have hi := (List.getElem?_eq_some_iff.1 hm).1
      rw [if_neg (Nat.ne_of_lt hi), ht]
      by_cases hpi : parent = i
      · exact ⟨{ scope with children := scope.children ++ [es.length] }, by simp [hpi], hparent,
          by simp [hpi, hchildren], hd.kind, hd.docstring, hd.name, hd.range, hd.signatureEnd⟩
      · exact ⟨scope, by simp [hpi], hparent, by simp [hpi, hchildren], hd⟩
    · obtain ⟨rfl, rfl⟩ := Prod.mk.inj he
      rw [if_neg (Nat.ne_of_lt hp), if_pos rfl]
      refine ⟨_, rfl, rfl, ?_, hkind, rfl, fun _ => hname, fun _ => rfl,
        fun _ => ⟨stop, hstop, rfl⟩⟩
      simp [h.childrenOf_length, Nat.ne_of_lt hp]

theorem collect_outline :
    (∀ (n : Node) parent table table' es, Linked s table es → parent < es.length →
      collect s parent table n = .ok table' →
      Linked s table' (es ++ outline parent es.length n)) ∧
    ∀ (ns : Forest) parent table table' es, Linked s table es → parent < es.length →
      collectAll s parent table ns = .ok table' →
      Linked s table' (es ++ outlineAll parent es.length ns) := by
  apply Node.induction
  case mk =>
    intro k r b e cs ih parent table table' es h hp hcollect
    rw [collect] at hcollect
    set n := Node.mk k r b e cs with hn
    split at hcollect
    case h_1 | h_2 =>
      rename_i hkind
      have hdef : n.isDefinition = false := by
        rw [← Bool.not_eq_true, isDefinition_iff]
        simp [hkind]
      rw [hn, outline, ← hn, hdef]
      exact ih parent table table' es h hp hcollect
    case h_3 =>
      rename_i kind hne hkind
      have hdef : n.isDefinition := isDefinition_iff.2 (by cases kind <;> simp_all)
      obtain ⟨grown, hpush, hcollect⟩ := bind_eq_ok.1 hcollect
      have := ih _ _ _ _ (h.push hp hkind hpush) (by simp [h.size]) hcollect
      rw [hn, outline, ← hn, if_pos hdef]
      simpa [h.size] using this
  case nil =>
    intro parent table table' es h hp hcollect
    obtain rfl : table = table' := by simpa [collectAll] using hcollect
    simpa [outlineAll] using h
  case cons =>
    intro n ns ihn ihns parent table table' es h hp hcollect
    rw [collectAll] at hcollect
    obtain ⟨grown, hn, hns⟩ := bind_eq_ok.1 hcollect
    have := ihns _ _ _ _ (ihn _ _ _ _ h hp hn) (by simp; omega) hns
    simpa [outlineAll] using this

end Linked

variable {s : Source} {table : ScopeTable}

/-- The first scope describes any module with the docstring of the root. -/
theorem build_linked_of {m : Node} (hm : m.kind = .module)
    (hdocstring : s.docstringRange? s.root = s.docstringRange? m) (h : build s = .ok table) :
    Linked s table ((none, m) :: outlineAll 0 1 s.root.children) := by
  refine Linked.collect_outline.2 s.root.children 0 _ _ [(none, m)] ⟨rfl, ?_, ?_⟩ (by simp) h
  · intro i p n hi
    cases i <;> simp at hi
  · intro i p n hi
    cases i with
    | succ i => simp at hi
    | zero =>
        obtain ⟨rfl, rfl⟩ : none = p ∧ m = n := by simpa using hi
        have hdef : ¬m.isDefinition := by simp [isDefinition, hm]
        refine ⟨_, rfl, rfl, rfl, ?_, hdocstring, ?_, ?_, ?_⟩
        · simp [definitionKind?, hm]
        all_goals exact fun hd => absurd hd hdef

theorem build_linked (hroot : s.root.kind = .module) (h : build s = .ok table) :
    Linked s table (entries s.root) := build_linked_of hroot rfl h

theorem outline_nodes :
    (∀ (n : Node) parent next,
      (outline parent next n).map (·.2) = n.preorder.filter isDefinition) ∧
    ∀ (ns : Forest) parent next,
      (outlineAll parent next ns).map (·.2) = (preorderAll ns).filter isDefinition := by
  apply Node.induction
  case mk =>
    intro k r b e cs ih parent next
    rw [outline, preorder_eq, List.filter_cons]
    split
    · rw [List.map_cons, ih]
      rfl
    · exact ih parent next
  case nil => simp [outlineAll]
  case cons =>
    intro n ns ihn ihns parent next
    simp [outlineAll, ihn, ihns]

theorem entries_nodes (root : Node) :
    (entries root).map (·.2) = root :: root.inner.filter isDefinition := by
  simp [entries, outline_nodes.2, Node.inner]

theorem outline_parent :
    (∀ (n : Node) parent next, ∀ e ∈ outline parent next n, e.1.isSome) ∧
    ∀ (ns : Forest) parent next, ∀ e ∈ outlineAll parent next ns, e.1.isSome := by
  apply Node.induction
  case mk =>
    intro k r b e cs ih parent next entry he
    rw [outline] at he
    split at he
    · rcases List.mem_cons.1 he with rfl | he
      · rfl
      · exact ih _ _ entry he
    · exact ih _ _ entry he
  case nil => simp [outlineAll]
  case cons =>
    intro n ns ihn ihns parent next entry he
    rw [outlineAll] at he
    rcases List.mem_append.1 he with he | he
    · exact ihn _ _ entry he
    · exact ihns _ _ entry he

theorem eq_zero_of_entries {root : Node} {i : Nat} {n : Node}
    (h : (entries root)[i]? = some (none, n)) :
    i = 0 := by
  cases i with
  | zero => rfl
  | succ i =>
      have := outline_parent.2 _ _ _ _ (List.mem_of_getElem? (by simpa [entries] using h))
      simp at this

def Nearest (es : List Entry) (ns : List Node) (parent next p : Nat) (m : Node) : Prop :=
  (p = parent ∧ ∀ d ∈ ns, d.isDefinition → m ∉ d.inner) ∨
  ∃ (j : Nat) (e : Entry), es[j]? = some e ∧ p = next + j ∧ m ∈ e.2.inner ∧
    ∀ (k : Nat) (e' : Entry), es[k]? = some e' → m ∈ e'.2.inner → k ≤ j

theorem mem_of_outline {n m : Node} {parent next i : Nat} {p : Option Nat}
    (h : (outline parent next n)[i]? = some (p, m)) : m ∈ n.preorder ∧ m.isDefinition := by
  have hm : m ∈ (outline parent next n).map (·.2) :=
    List.mem_map.2 ⟨(p, m), List.mem_of_getElem? h, rfl⟩
  rwa [outline_nodes.1, List.mem_filter] at hm

theorem mem_of_outlineAll {ns : Forest} {m : Node} {parent next i : Nat} {p : Option Nat}
    (h : (outlineAll parent next ns)[i]? = some (p, m)) :
    m ∈ preorderAll ns ∧ m.isDefinition := by
  have hm : m ∈ (outlineAll parent next ns).map (·.2) :=
    List.mem_map.2 ⟨(p, m), List.mem_of_getElem? h, rfl⟩
  rwa [outline_nodes.2, List.mem_filter] at hm

namespace Nearest

variable {es es' : List Entry} {ns ns' : List Node} {parent next p : Nat} {m n : Node}

theorem append_left (h : Nearest es ns parent next p m) (hns : ∀ d ∈ ns', m ∉ d.inner)
    (hes : ∀ (k : Nat) (e : Entry), es'[k]? = some e → m ∉ e.2.inner) :
    Nearest (es ++ es') (ns ++ ns') parent next p m := by
  rcases h with ⟨rfl, hnone⟩ | ⟨j, e, hj, rfl, he, hlast⟩
  · refine .inl ⟨rfl, fun d hd => ?_⟩
    rcases List.mem_append.1 hd with hd | hd
    · exact hnone d hd
    · exact fun _ => hns d hd
  · have hjlt := (List.getElem?_eq_some_iff.1 hj).1
    refine .inr ⟨j, e, by rwa [List.getElem?_append_left hjlt], rfl, he, fun k e' hk he' => ?_⟩
    rcases Nat.lt_or_ge k es.length with hklt | hkge
    · rw [List.getElem?_append_left hklt] at hk
      exact hlast k e' hk he'
    · rw [List.getElem?_append_right hkge] at hk
      exact absurd he' (hes _ e' hk)

theorem append_right (h : Nearest es' ns' parent (next + es.length) p m)
    (hns : ∀ d ∈ ns, m ∉ d.inner) : Nearest (es ++ es') (ns ++ ns') parent next p m := by
  rcases h with ⟨rfl, hnone⟩ | ⟨j, e, hj, rfl, he, hlast⟩
  · refine .inl ⟨rfl, fun d hd => ?_⟩
    rcases List.mem_append.1 hd with hd | hd
    · exact fun _ => hns d hd
    · exact hnone d hd
  · refine .inr ⟨es.length + j, e, ?_, by omega, he, fun k e' hk he' => ?_⟩
    · rw [List.getElem?_append_right (by omega), Nat.add_sub_cancel_left, hj]
    · rcases Nat.lt_or_ge k es.length with hklt | hkge
      · omega
      · rw [List.getElem?_append_right hkge] at hk
        have := hlast _ e' hk he'
        omega

theorem skip (h : Nearest es n.inner parent next p m) (hdef : ¬n.isDefinition) :
    Nearest es n.preorder parent next p m := by
  refine h.imp_left fun ⟨hp, hnone⟩ => ⟨hp, fun d hd hddef => ?_⟩
  rcases mem_preorder.1 hd with rfl | hd
  · exact absurd hddef hdef
  · exact hnone d hd hddef

theorem below (h : Nearest es n.inner next (next + 1) p m) (hm : m ∈ n.inner) (q : Option Nat)
    (hes : ∀ (k : Nat) (e : Entry), es[k]? = some e → e.2 ∈ n.inner ∧ e.2.isDefinition) :
    Nearest ((q, n) :: es) n.preorder parent next p m := by
  right
  rcases h with ⟨rfl, hnone⟩ | ⟨j, e, hj, rfl, he, hlast⟩
  · refine ⟨0, (q, n), rfl, rfl, hm, fun k e' hk he' => ?_⟩
    cases k with
    | zero => exact Nat.le_refl 0
    | succ k =>
        obtain ⟨hmem, hdef⟩ := hes k e' hk
        exact absurd he' (hnone _ hmem hdef)
  · refine ⟨j + 1, e, hj, by omega, he, fun k e' hk he' => ?_⟩
    cases k with
    | zero => exact Nat.zero_le _
    | succ k => exact Nat.succ_le_succ (hlast k e' hk he')

end Nearest

/-- The parent of an entry is the nearest definition around it. -/
theorem outline_nearest :
    (∀ n : Node, Nested n.preorder → (∀ d ∈ n.preorder, d.isDefinition → d.hasWidth) →
      ∀ (parent next i p : Nat) (m : Node), (outline parent next n)[i]? = some (some p, m) →
      Nearest (outline parent next n) n.preorder parent next p m) ∧
    ∀ ns : Forest, Nested (preorderAll ns) →
      (∀ d ∈ preorderAll ns, d.isDefinition → d.hasWidth) → ∀ a b, Forest.Within a ns b →
      ∀ (parent next i p : Nat) (m : Node), (outlineAll parent next ns)[i]? = some (some p, m) →
      Nearest (outlineAll parent next ns) (preorderAll ns) parent next p m := by
  apply Node.induction
  case mk =>
    intro k r b e cs ih h hwide parent next i p m hi
    have hw := h (mk k r b e cs) (by simp)
    have ih := ih h.inner (fun d hd => hwide d (mem_preorder.2 (.inr hd))) _ _ hw
    rw [outline] at hi ⊢
    set n := mk k r b e cs with hn
    split at hi
    case isFalse hdef =>
      rw [if_neg hdef]
      exact (ih _ _ _ _ _ hi).skip hdef
    case isTrue hdef =>
      rw [if_pos hdef]
      cases i with
      | zero =>
          obtain ⟨rfl, rfl⟩ : parent = p ∧ n = m := by simpa using hi
          refine .inl ⟨rfl, fun d hd _ hnd => ?_⟩
          rcases mem_preorder.1 hd with rfl | hd
          · exact not_mem_inner_self _ hnd
          · exact not_mem_inner_self _ (inner_trans hd hnd)
      | succ i =>
          exact (ih _ _ _ _ _ hi).below (mem_of_outlineAll hi).1 _ fun _ _ => mem_of_outlineAll
  case nil => simp [outlineAll]
  case cons =>
    -- Definitions have width, so one stands in no node before or behind its own.
    intro n ns ihn ihns h hwide a b hw parent next i p m hi
    rw [outlineAll] at hi ⊢
    set first := outline parent next n with hfirst
    rcases Nat.lt_or_ge i first.length with hlt | hge
    · rw [List.getElem?_append_left hlt] at hi
      obtain ⟨hm, hmdef⟩ := mem_of_outline hi
      have hmwide := hwide m (List.mem_append_left _ hm) hmdef
      have hlater (d : Node) (hd : d ∈ preorderAll ns) : m ∉ d.inner :=
        (not_mem_inner_of_stop_le (h.of_mem (List.mem_append_left _ hm)) (h.tail.of_mem hd)
          (stop_le_start_of_within h hw hm hd)).1 hmwide
      have hnearest := ihn h.node (fun d hd => hwide d (List.mem_append_left _ hd)) _ _ _ _ _ hi
      exact hnearest.append_left hlater fun _ _ hk => hlater _ (mem_of_outlineAll hk).1
    · rw [List.getElem?_append_right hge] at hi
      obtain ⟨hm, hmdef⟩ := mem_of_outlineAll hi
      have hmwide := hwide m (List.mem_append_right _ hm) hmdef
      have hearlier (d : Node) (hd : d ∈ n.preorder) : m ∉ d.inner :=
        (not_mem_inner_of_stop_le (h.of_mem (List.mem_append_left _ hd)) (h.tail.of_mem hm)
          (stop_le_start_of_within h hw hd hm)).2 hmwide
      have hnearest :=
        ihns h.tail (fun d hd => hwide d (List.mem_append_right _ hd)) _ _ hw.2.2 _ _ _ _ _ hi
      exact hnearest.append_right hearlier

end DocstringEditor.Analysis.Symbols
