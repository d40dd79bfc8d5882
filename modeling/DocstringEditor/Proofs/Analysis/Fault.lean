import Mathlib.Algebra.GroupWithZero.Nat
import DocstringEditor.Proofs.Analysis.Cursor
import DocstringEditor.Proofs.Syntax.Leaf

namespace DocstringEditor.Syntax

theorem Location.le_of_not_le {a b : Location} (h : ¬b ≤ a) : a ≤ b := by
  rw [Location.le_def] at *
  omega

namespace Node

theorem named_sublist :
    (∀ n : Node, n.named.Sublist n.preorder) ∧
      ∀ ns : Forest, (namedAll ns).Sublist (preorderAll ns) := by
  apply Node.induction
  case mk =>
    intro k r s e cs ih
    exact ih.cons_cons _
  case nil => exact List.Sublist.refl _
  case cons =>
    intro n ns ihn ihns
    rw [namedAll, preorderAll_cons]
    refine List.Sublist.append ?_ ihns
    split
    · exact ihn
    · exact List.nil_sublist _

theorem mem_preorder_of_named {m n : Node} (h : m ∈ n.named) : m ∈ n.preorder :=
  (named_sublist.1 n).subset h

theorem mem_namedAll {m : Node} {ns : Forest} :
    m ∈ namedAll ns ↔ ∃ c ∈ ns.filter isNamed, m ∈ c.named := by
  induction ns with
  | nil => simp [namedAll]
  | cons n ns ih => by_cases hn : n.isNamed <;> simp [namedAll, hn, ih]

theorem mem_named {m n : Node} : m ∈ n.named ↔ m = n ∨ ∃ c ∈ n.namedChildren, m ∈ c.named := by
  cases n
  rw [named, List.mem_cons, mem_namedAll]
  rfl

theorem mem_inner_of_namedChildren {m n : Node} (h : m ∈ n.namedChildren) : m ∈ n.inner :=
  mem_preorderAll.2 ⟨m, (List.mem_filter.1 h).1, mem_preorder.2 (.inl rfl)⟩

theorem children_pairwise {n : Node} (h : Nested n.preorder) :
    n.children.Pairwise fun c c' => ∀ d ∈ c.preorder, ∀ e ∈ c'.preorder,
      d.stop.byte ≤ e.start.byte := by
  have hw := h n (mem_preorder.2 (.inl rfl))
  have hnested : Nested (preorderAll n.children) := h.inner
  revert hw hnested
  generalize n.start.byte = a
  generalize n.children = cs
  intro hw hnested
  induction cs generalizing a with
  | nil => exact .nil
  | cons c cs ih =>
      refine List.pairwise_cons.2 ⟨fun c' hc' d hd e he => ?_, ih _ hw.2.2 hnested.tail⟩
      exact stop_le_start_of_within hnested hw hd (mem_preorderAll.2 ⟨c', hc', he⟩)

theorem preorder_or_preorder {n d e : Node} (h : Nested n.preorder) (hd : d ∈ n.preorder)
    (he : e ∈ n.preorder) (hlt : d.start.byte < e.stop.byte) (hlt' : e.start.byte < d.stop.byte) :
    d ∈ e.preorder ∨ e ∈ d.preorder := by
  rcases mem_preorder.1 hd with rfl | hd
  · exact .inr he
  · rcases mem_preorder.1 he with rfl | he
    · exact .inl (mem_preorder.2 (.inr hd))
    · rcases mem_or_apart.1 n h d hd e he with hde | hed | hle | hle
      · exact .inl hde
      · exact .inr hed
      · omega
      · omega

def ParentsFirst (order : List Node) : Prop :=
  order.Pairwise fun d e => d.hasWidth → d ∉ e.inner

theorem named_parentsFirst {n : Node} (h : Nested n.preorder) : ParentsFirst n.named :=
  ((preorder_pairwise.1 n h).imp fun hde hwidth => (hde hwidth).2).sublist (named_sublist.1 n)

theorem sum_sizeOf_namedChildren_lt (n : Node) :
    (n.namedChildren.map sizeOf).sum < sizeOf n := by
  have hle (cs : Forest) : ((cs.filter isNamed).map sizeOf).sum ≤ sizeOf cs := by
    induction cs with
    | nil => simp
    | cons c cs ih =>
        rw [List.filter_cons]
        split
        · simp only [List.map_cons, List.sum_cons, List.cons.sizeOf_spec]
          omega
        · simp only [List.cons.sizeOf_spec]
          omega
  cases n with
  | mk k r s e cs =>
      have := hle cs
      simp only [namedChildren, children, mk.sizeOf_spec]
      omega

/-- The named nodes in the order of a stack with the named children of each put on top of it. -/
def popped : List Node → List Node
  | [] => []
  | n :: stack => n :: popped (n.namedChildren.reverse ++ stack)
termination_by stack => (stack.map sizeOf).sum
decreasing_by
  have := sum_sizeOf_namedChildren_lt n
  simp only [List.map_append, List.map_reverse, List.sum_append, List.sum_reverse, List.map_cons,
    List.sum_cons]
  omega

theorem mem_popped {m : Node} {stack : List Node} :
    m ∈ popped stack ↔ ∃ n ∈ stack, m ∈ n.named := by
  fun_induction popped stack with
  | case1 => simp
  | case2 n stack ih =>
      rw [List.mem_cons, ih]
      simp only [List.mem_append, List.mem_reverse, List.mem_cons]
      constructor
      · rintro (rfl | ⟨c, hc | hc, hm⟩)
        · exact ⟨m, .inl rfl, mem_named.2 (.inl rfl)⟩
        · exact ⟨n, .inl rfl, mem_named.2 (.inr ⟨c, hc, hm⟩)⟩
        · exact ⟨c, .inr hc, hm⟩
      · rintro ⟨c, rfl | hc, hm⟩
        · rcases mem_named.1 hm with rfl | ⟨d, hd, hm⟩
          · exact .inl rfl
          · exact .inr ⟨d, .inl hd, hm⟩
        · exact .inr ⟨c, .inr hc, hm⟩

def Apart (m n : Node) : Prop := ∀ d ∈ m.preorder, d.hasWidth → d ∉ n.preorder

theorem popped_parentsFirst {stack : List Node} (hnested : ∀ n ∈ stack, Nested n.preorder)
    (hapart : stack.Pairwise Apart) : ParentsFirst (popped stack) := by
  fun_induction popped stack with
  | case1 => exact .nil
  | case2 n stack ih =>
      have hn := hnested n (List.mem_cons_self ..)
      obtain ⟨hfirst, hapart⟩ := List.pairwise_cons.1 hapart
      have hchild {c : Node} (hc : c ∈ n.namedChildren.reverse) : c ∈ n.inner :=
        mem_inner_of_namedChildren (List.mem_reverse.1 hc)
      refine List.pairwise_cons.2 ⟨fun e he hwidth hne => ?_, ih ?_ ?_⟩
      · obtain ⟨c, hc, hec⟩ := mem_popped.1 he
        have hnc : n ∈ c.preorder :=
          preorder_trans (mem_preorder_of_named hec) (mem_preorder.2 (.inr hne))
        rcases List.mem_append.1 hc with hc | hc
        · rcases mem_preorder.1 hnc with rfl | hnc
          · exact not_mem_inner_self _ (hchild hc)
          · exact not_mem_inner_self _ (inner_trans (hchild hc) hnc)
        · exact hfirst c hc n (mem_preorder.2 (.inl rfl)) hwidth hnc
      · intro c hc
        rcases List.mem_append.1 hc with hc | hc
        · exact hn.of_mem_preorder (mem_preorder.2 (.inr (hchild hc)))
        · exact hnested c (List.mem_cons_of_mem _ hc)
      · refine List.pairwise_append.2 ⟨List.pairwise_reverse.2 ?_, hapart, ?_⟩
        · refine ((children_pairwise hn).filter isNamed).imp fun hle d hd hwidth hd' => ?_
          have := hle d hd' d hd
          simp only [hasWidth, decide_eq_true_eq] at hwidth
          omega
        · intro c hc m hm d hd
          exact hfirst m hm d (preorder_trans (mem_preorder.2 (.inr (hchild hc))) hd)

end Node

end DocstringEditor.Syntax

namespace DocstringEditor.Analysis

open Syntax Syntax.Node

/-- Statements that only Python 2 has, each with its fault. -/
inductive Outdated : Node → Fault → Prop
  | print {n : Node} (hkind : n.kind = .printStatement)
      (hchevron : ∀ c ∈ n.children, c.kind ≠ .chevron) : Outdated n .printStatement
  | exec {n : Node} (hkind : n.kind = .execStatement) : Outdated n .execStatement

def Aligns (n : Node) : Prop := n.kind = .module ∨ n.kind = .block

namespace Source

/-- The statements among several nodes that start their line. -/
def starters (s : Source) (ns : Forest) : Forest :=
  ns.filter fun n => !n.isComment && s.startsLine n.start

def column? (s : Source) (n : Node) : Option Nat :=
  if n.kind = .module then some 0
  else (s.starters n.namedChildren).head?.map (·.start.column)

inductive Faulty (s : Source) : Node → Fault → Prop
  | outdated {n : Node} {fault : Fault} (hn : n ∈ s.root.named) (h : Outdated n fault) :
      Faulty s n fault
  | indentation {c n : Node} {column : Nat} (hc : c ∈ s.root.named) (haligns : Aligns c)
      (hn : n ∈ s.starters c.namedChildren) (hcolumn : s.column? c = some column)
      (hne : n.start.column ≠ column) : Faulty s n .indentation

structure Statements (s : Source) : Prop where
  nested : Nested s.root.preorder
  ordered : ∀ a ∈ s.root.places, ∀ b ∈ s.root.places, a.byte ≤ b.byte ↔ a ≤ b
  wide : ∀ c ∈ s.root.named, Aligns c → ∀ n ∈ c.namedChildren, ¬n.isComment → n.hasWidth
  outdated : ∀ n ∈ s.root.named, ∀ fault, Outdated n fault → n.hasWidth
  module : ∀ n ∈ s.root.named, ∀ fault, Outdated n fault → ∀ m ∈ n.inner, m.kind ≠ .module

variable {s : Source} {n : Node} {l l' : Location} {fault fault' : Fault}

theorem misindented?_eq (expected : Option Nat) (ns : Forest) :
    s.misindented? expected ns = (s.starters ns).find? fun n =>
      expected.or ((s.starters ns).head?.map (·.start.column)) ≠ some n.start.column := by
  induction ns generalizing expected with
  | nil => rfl
  | cons n ns ih =>
      have hskip : (n.isComment || !s.startsLine n.start) =
          !(!n.isComment && s.startsLine n.start) := by simp
      unfold misindented?
      rw [hskip, starters, List.filter_cons]
      by_cases hstarts : !n.isComment && s.startsLine n.start
      case neg =>
        rw [if_pos (by simp [hstarts]), if_neg hstarts, ih]
        rfl
      case pos =>
        rw [if_neg (by simp [hstarts]), if_pos hstarts, List.find?_cons]
        cases expected with
        | none => simp [ih, starters]
        | some column =>
            by_cases hcolumn : n.start.column = column
            · simp [hcolumn, ih, starters]
            · simp [hcolumn, Ne.symm hcolumn]

def misfit? (s : Source) (c : Node) : Option Node :=
  (s.starters c.namedChildren).find? fun n => s.column? c ≠ some n.start.column

theorem misfit?_of_module (h : n.kind = .module) :
    s.misindented? (some 0) n.namedChildren = s.misfit? n := by
  rw [misindented?_eq, misfit?, column?, if_pos h]
  rfl

theorem misfit?_of_block (h : n.kind = .block) :
    s.misindented? none n.namedChildren = s.misfit? n := by
  rw [misindented?_eq, misfit?, column?, if_neg (by simp [h])]
  rfl

theorem outdated_iff : Outdated n fault ↔
    n.kind = .printStatement ∧ (∀ c ∈ n.children, c.kind ≠ .chevron) ∧ fault = .printStatement ∨
    n.kind = .execStatement ∧ fault = .execStatement := by
  constructor
  · rintro (⟨hkind, hchevron⟩ | hkind)
    · exact .inl ⟨hkind, hchevron, rfl⟩
    · exact .inr ⟨hkind, rfl⟩
  · rintro (⟨hkind, hchevron, rfl⟩ | ⟨hkind, rfl⟩)
    · exact .print hkind hchevron
    · exact .exec hkind

theorem fault?_eq_some : s.fault? n = some (l, fault) ↔ Outdated n fault ∧ n.start = l ∨
    Aligns n ∧ ∃ m, s.misfit? n = some m ∧ m.start = l ∧ fault = .indentation := by
  rw [outdated_iff, Aligns]
  cases hkind : n.kind
  case printStatement =>
    by_cases hchevron : n.children.any (·.kind = .chevron)
    case pos =>
      obtain ⟨c, hc, hkind'⟩ := List.any_eq_true.1 hchevron
      simp only [fault?, hkind, hchevron]
      simpa using fun h => absurd (of_decide_eq_true hkind') (h c hc)
    case neg =>
      have hchevron' : ∀ c ∈ n.children, ¬c.kind = .chevron := by simpa using hchevron
      simp only [fault?, hkind, hchevron]
      simp [iff_true_intro hchevron', and_comm, eq_comm (a := fault)]
  case execStatement => simp [fault?, hkind, and_comm, eq_comm (a := fault)]
  case module =>
    simp only [fault?, hkind, misfit?_of_module hkind, Option.map_eq_some_iff]
    simp [eq_comm (a := fault)]
  case block =>
    simp only [fault?, hkind, misfit?_of_block hkind, Option.map_eq_some_iff]
    simp [eq_comm (a := fault)]
  all_goals simp [fault?, hkind]

/-- Whether a fault is the first of several that no other one is earlier than. -/
def Earliest (fs : List (Location × Fault)) (f : Location × Fault) : Prop :=
  ∃ before after, fs = before ++ f :: after ∧ (∀ g ∈ before, ¬g.1 ≤ f.1) ∧ ∀ g ∈ after, f.1 ≤ g.1

namespace Earliest

variable {fs : List (Location × Fault)} {f g : Location × Fault}

theorem bound (h : Earliest fs f) (hg : g ∈ fs) : f.1 ≤ g.1 := by
  obtain ⟨before, after, rfl, hbefore, hafter⟩ := h
  rcases List.mem_append.1 hg with hg | hg
  · exact Location.le_of_not_le (hbefore g hg)
  · rcases List.mem_cons.1 hg with rfl | hg
    · exact .inr ⟨rfl, Nat.le_refl _⟩
    · exact hafter g hg

theorem cons (h : Earliest fs f) (hg : ¬g.1 ≤ f.1) : Earliest (g :: fs) f := by
  obtain ⟨before, after, rfl, hbefore, hafter⟩ := h
  exact ⟨g :: before, after, rfl, List.forall_mem_cons.2 ⟨hg, hbefore⟩, hafter⟩

/-- A fault that comes no earlier than one in front of it makes no difference. -/
theorem insert {e : Location × Fault} (h : Earliest (e :: fs) f) (hg : e.1 ≤ g.1) :
    Earliest (e :: g :: fs) f := by
  have hbound := h.bound (List.mem_cons_self ..)
  obtain ⟨before, after, heq, hbefore, hafter⟩ := h
  cases before with
  | nil =>
      obtain ⟨rfl, rfl⟩ := List.cons.inj heq
      exact ⟨[], g :: fs, rfl, by simp, List.forall_mem_cons.2 ⟨hg, hafter⟩⟩
  | cons b before =>
      obtain ⟨rfl, rfl⟩ := List.cons.inj heq
      obtain ⟨he, hbefore⟩ := List.forall_mem_cons.1 hbefore
      refine ⟨e :: g :: before, after, rfl, ?_, hafter⟩
      exact List.forall_mem_cons.2 ⟨he, List.forall_mem_cons.2
        ⟨fun hgf => he (Location.le_trans hg hgf), hbefore⟩⟩

end Earliest

theorem earliest_foldl (f : Location × Fault) (fs : List (Location × Fault)) :
    Earliest (f :: fs) (fs.foldl earlier f) := by
  induction fs generalizing f with
  | nil => exact ⟨[], [], rfl, by simp, by simp⟩
  | cons g fs ih =>
      rw [List.foldl_cons, earlier]
      split
      case isTrue hlt =>
        refine (ih g).cons fun hf => ?_
        have := Location.le_trans hf ((ih g).bound (List.mem_cons_self ..))
        rw [Location.le_def] at this
        omega
      case isFalse hge =>
        refine (ih f).insert ?_
        rw [Location.le_def]
        omega

def earliest? (s : Source) (order : List Node) : Option (Location × Fault) :=
  match order.filterMap s.fault? with
  | [] => none
  | f :: fs => some (fs.foldl earlier f)

theorem earliest?_eq_none {order : List Node} :
    s.earliest? order = none ↔ ∀ n ∈ order, s.fault? n = none := by
  rw [← List.filterMap_eq_nil_iff, earliest?]
  cases order.filterMap s.fault? <;> simp

/-- The node with the fault to report comes no later in the order than others with a fault at the
same place. -/
theorem exists_first {order : List Node} (horder : ParentsFirst order)
    (h : s.earliest? order = some (l, fault)) : ∃ n ∈ order, s.fault? n = some (l, fault) ∧
      ∀ m ∈ order, ∀ l' fault', s.fault? m = some (l', fault') →
        l ≤ l' ∧ (l' ≤ l → n.hasWidth → m = n ∨ n ∉ m.inner) := by
  have he : Earliest (order.filterMap s.fault?) (l, fault) := by
    rw [earliest?] at h
    split at h
    case h_1 => simp at h
    case h_2 f fs hfs =>
      rw [hfs, ← Option.some.inj h]
      exact earliest_foldl f fs
  have hbound {m : Node} {l' : Location} {fault' : Fault} (hm : m ∈ order)
      (hf : s.fault? m = some (l', fault')) : l ≤ l' :=
    he.bound (List.mem_filterMap.2 ⟨m, hm, hf⟩)
  obtain ⟨before, after, heq, hbefore, -⟩ := he
  obtain ⟨ns, rest, rfl, rfl, hrest⟩ := List.filterMap_eq_append_iff.1 heq
  obtain ⟨skipped, n, ms, rfl, hskipped, hn, rfl⟩ := List.filterMap_eq_cons_iff.1 hrest
  refine ⟨n, by simp, hn, fun m hm l' fault' hf => ⟨hbound hm hf, fun hle hwidth => ?_⟩⟩
  rcases List.mem_append.1 hm with hm | hm
  · exact absurd hle (hbefore _ (List.mem_filterMap.2 ⟨m, hm, hf⟩))
  · rcases List.mem_append.1 hm with hm | hm
    · exact absurd hf (by simp [hskipped m hm])
    · rcases List.mem_cons.1 hm with rfl | hm
      · exact .inl rfl
      · have hlater := (List.pairwise_append.1 (List.pairwise_append.1 horder).2.1).2.1
        exact .inr ((List.pairwise_cons.1 hlater).1 m hm hwidth)

theorem mem_of_starters {c : Node} (hn : n ∈ s.starters c.namedChildren) :
    n ∈ c.namedChildren ∧ ¬n.isComment := by
  obtain ⟨hn, hstarts⟩ := List.mem_filter.1 hn
  exact ⟨hn, by simpa using (Bool.and_eq_true_iff.1 hstarts).1⟩

theorem misfit?_eq_some {c : Node} (h : s.misfit? c = some n) : ∃ before after,
    s.starters c.namedChildren = before ++ n :: after ∧ s.column? c ≠ some n.start.column ∧
      ∀ m ∈ before, s.column? c = some m.start.column := by
  obtain ⟨hne, before, after, heq, hbefore⟩ := List.find?_eq_some_iff_append.1 h
  exact ⟨before, after, heq, by simpa using hne, fun m hm => by simpa using hbefore m hm⟩

theorem exists_column {c : Node} (hn : n ∈ s.starters c.namedChildren) :
    ∃ column, s.column? c = some column := by
  unfold column?
  split
  · exact ⟨0, rfl⟩
  · cases hs : s.starters c.namedChildren with
    | nil => simp [hs] at hn
    | cons m ms => exact ⟨m.start.column, rfl⟩

theorem misfit?_eq_none {c : Node} : s.misfit? c = none ↔
    ∃ column, (c.kind = .module → column = 0) ∧
      ∀ n ∈ s.starters c.namedChildren, n.start.column = column := by
  have hnone : s.misfit? c = none ↔
      ∀ n ∈ s.starters c.namedChildren, s.column? c = some n.start.column := by
    simp [misfit?]
  rw [hnone]
  constructor
  · intro hall
    refine ⟨(s.column? c).getD 0, fun hkind => by simp [column?, hkind], fun n hn => ?_⟩
    rw [hall n hn]
    rfl
  · rintro ⟨column, hmodule, hall⟩ n hn
    rw [hall n hn, column?]
    split
    case isTrue hkind => rw [hmodule hkind]
    case isFalse =>
      cases hs : s.starters c.namedChildren with
      | nil => simp [hs] at hn
      | cons m ms => simp [hall m (by simp [hs])]

theorem fault?_eq_none : s.fault? n = none ↔
    (n.kind ≠ .execStatement ∧
      (n.kind = .printStatement → ∃ c ∈ n.children, c.kind = .chevron)) ∧
    (Aligns n → ∃ column, (n.kind = .module → column = 0) ∧
      ∀ m ∈ s.starters n.namedChildren, m.start.column = column) := by
  rw [← misfit?_eq_none, Option.eq_none_iff_forall_ne_some]
  constructor
  · intro hnone
    refine ⟨⟨fun hkind => ?_, fun hkind => ?_⟩, fun haligns => ?_⟩
    · exact hnone _ (fault?_eq_some.2 (.inl ⟨.exec hkind, rfl⟩))
    · by_contra hchevron
      exact hnone _ (fault?_eq_some.2 (.inl ⟨.print hkind (by simpa using hchevron), rfl⟩))
    · by_contra hsome
      obtain ⟨m, hm⟩ := Option.ne_none_iff_exists'.1 hsome
      exact hnone _ (fault?_eq_some.2 (.inr ⟨haligns, m, hm, rfl, rfl⟩))
  · rintro ⟨⟨hexec, hprint⟩, haligned⟩ ⟨l, fault⟩ hf
    rcases fault?_eq_some.1 hf with ⟨houtdated, -⟩ | ⟨haligns, m, hm, -⟩
    · cases houtdated with
      | print hkind hchevron =>
          obtain ⟨c, hc, hck⟩ := hprint hkind
          exact hchevron c hc hck
      | exec hkind => exact hexec hkind
    · simp [haligned haligns] at hm

theorem exists_faulty (hn : n ∈ s.root.named) (h : s.fault? n = some (l, fault)) :
    ∃ m, s.Faulty m fault ∧ m.start = l := by
  rcases fault?_eq_some.1 h with ⟨houtdated, rfl⟩ | ⟨haligns, m, hm, rfl, rfl⟩
  · exact ⟨n, .outdated hn houtdated, rfl⟩
  · obtain ⟨before, after, heq, hne, -⟩ := misfit?_eq_some hm
    have hm : m ∈ s.starters n.namedChildren := by simp [heq]
    obtain ⟨column, hcolumn⟩ := exists_column hm
    exact ⟨m, .indentation hn haligns hm hcolumn fun he => hne (he ▸ hcolumn), rfl⟩

theorem Faulty.mem (h : s.Faulty n fault) : n ∈ s.root.preorder := by
  cases h with
  | outdated hn => exact mem_preorder_of_named hn
  | indentation hc _ hn =>
      exact preorder_trans (mem_preorder_of_named hc)
        (mem_preorder.2 (.inr (mem_inner_of_namedChildren (mem_of_starters hn).1)))

namespace Statements

variable (h : s.Statements)
include h

theorem starters_pairwise {c : Node} (hc : c ∈ s.root.named) :
    (s.starters c.namedChildren).Pairwise fun m n => m.stop.byte ≤ n.start.byte := by
  have hchildren := children_pairwise (h.nested.of_mem_preorder (mem_preorder_of_named hc))
  exact ((hchildren.filter _).filter _).imp fun hle =>
    hle _ (mem_preorder.2 (.inl rfl)) _ (mem_preorder.2 (.inl rfl))

theorem starter_bounds {c : Node} (hc : c ∈ s.root.named) (haligns : Aligns c)
    (hn : n ∈ s.starters c.namedChildren) :
    c.start.byte ≤ n.start.byte ∧ n.start.byte < n.stop.byte ∧ n.stop.byte ≤ c.stop.byte := by
  obtain ⟨hchild, hcomment⟩ := mem_of_starters hn
  have hwide := h.wide c hc haligns n hchild hcomment
  have hbounds := within_bounds.1 c (h.nested.of_mem_preorder (mem_preorder_of_named hc)) n
    (mem_inner_of_namedChildren hchild)
  simp only [hasWidth, decide_eq_true_eq] at hwide
  omega

theorem byte_eq (hn : n ∈ s.root.preorder) {m : Node} (hm : m ∈ s.root.preorder)
    (hle : n.start ≤ m.start) (hge : m.start ≤ n.start) : n.start.byte = m.start.byte :=
  Nat.le_antisymm ((h.ordered _ (start_mem_places hn) _ (start_mem_places hm)).2 hle)
    ((h.ordered _ (start_mem_places hm) _ (start_mem_places hn)).2 hge)

/-- Each faulty statement is reported, or one of the same kind that comes no later. -/
theorem exists_report (hf : s.Faulty n fault) :
    ∃ c ∈ s.root.named, ∃ l, s.fault? c = some (l, fault) ∧ l ≤ n.start := by
  cases hf with
  | outdated hn houtdated =>
      exact ⟨n, hn, n.start, fault?_eq_some.2 (.inl ⟨houtdated, rfl⟩), .inr ⟨rfl, Nat.le_refl _⟩⟩
  | @indentation c _ column hc haligns hn hcolumn hne =>
      have hsome : (s.misfit? c).isSome := by
        rw [misfit?, List.find?_isSome]
        exact ⟨n, hn, by simpa [hcolumn] using Ne.symm hne⟩
      obtain ⟨m, hm⟩ := Option.isSome_iff_exists.1 hsome
      refine ⟨c, hc, m.start, fault?_eq_some.2 (.inr ⟨haligns, m, hm, rfl, rfl⟩), ?_⟩
      obtain ⟨before, after, heq, -, hbefore⟩ := misfit?_eq_some hm
      have hpairs := h.starters_pairwise hc
      have hmn := hn
      rw [heq] at hmn hpairs
      rcases List.mem_append.1 hmn with hmn | hmn
      · exact absurd (Option.some.inj ((hbefore n hmn).symm.trans hcolumn)) hne
      · rcases List.mem_cons.1 hmn with rfl | hmn
        · exact .inr ⟨rfl, Nat.le_refl _⟩
        · have hle := (List.pairwise_cons.1 (List.pairwise_append.1 hpairs).2.1).1 n hmn
          have hms : m ∈ s.starters c.namedChildren := by simp [heq]
          have hbounds := h.starter_bounds hc haligns hms
          have hin {m : Node} (hm : m ∈ s.starters c.namedChildren) : m.start ∈ s.root.places :=
            start_mem_places (preorder_trans (mem_preorder_of_named hc)
              (mem_preorder.2 (.inr (mem_inner_of_namedChildren (mem_of_starters hm).1))))
          exact (h.ordered _ (hin hms) _ (hin hn)).1 (by omega)

theorem outdated_width (hn : n ∈ s.root.named) (houtdated : Outdated n fault) :
    n.start.byte < n.stop.byte := by
  simpa [hasWidth] using h.outdated n hn fault houtdated

theorem mem_inner_of_misfit {c m : Node} (hc : c ∈ s.root.named) (haligns : Aligns c)
    (hm : s.misfit? c = some m) (hn : n ∈ s.root.named) (houtdated : Outdated n fault)
    (hstart : n.start.byte = m.start.byte) : n ∈ c.inner := by
  obtain ⟨before, after, heq, hne, hbefore⟩ := misfit?_eq_some hm
  have hms : m ∈ s.starters c.namedChildren := by simp [heq]
  have hbounds := h.starter_bounds hc haligns hms
  have hwidth := h.outdated_width hn houtdated
  have hkind : c ≠ n := by
    rintro rfl
    rcases haligns with hk | hk <;> simp [outdated_iff, hk] at houtdated
  rcases preorder_or_preorder h.nested (mem_preorder_of_named hc) (mem_preorder_of_named hn)
    (by omega) (by omega) with hin | hin
  · -- Another statement of the block comes first, which is not before the outdated one.
    have hin := (mem_preorder.1 hin).resolve_left hkind
    have hblock : c.kind ≠ .module := h.module n hn fault houtdated c hin
    cases before with
    | nil => simp [column?, if_neg hblock, heq] at hne
    | cons first before =>
        have hfirst : first ∈ s.starters c.namedChildren := by simp [heq]
        have hpairs := h.starters_pairwise hc
        rw [heq] at hpairs
        have hle := (List.pairwise_append.1 hpairs).2.2 first (by simp) m (by simp)
        have hfirst := h.starter_bounds hc haligns hfirst
        have hnested := h.nested.of_mem_preorder (mem_preorder_of_named hn)
        have := within_bounds.1 n hnested c hin
        omega
  · exact (mem_preorder.1 hin).resolve_left (Ne.symm hkind)

/-- What is reported is the least fault, and one of indentation where there is such a one. -/
theorem earliest?_least {order : List Node} (horder : ParentsFirst order)
    (hmem : ∀ n, n ∈ order ↔ n ∈ s.root.named) (he : s.earliest? order = some (l, fault)) :
    (∃ n, s.Faulty n fault ∧ n.start = l) ∧ (∀ n fault', s.Faulty n fault' → l ≤ n.start) ∧
      ∀ n, s.Faulty n .indentation → n.start ≤ l → fault = .indentation := by
  obtain ⟨n, hn, hreport, hfirst⟩ := exists_first horder he
  refine ⟨exists_faulty ((hmem n).1 hn) hreport, fun m fault' hm => ?_, fun m hm hle => ?_⟩
  · obtain ⟨c, hc, l', hc', hle⟩ := h.exists_report hm
    exact Location.le_trans (hfirst c ((hmem c).2 hc) l' fault' hc').1 hle
  · by_contra hfault
    obtain ⟨c, hc, l', hc', hle'⟩ := h.exists_report hm
    obtain ⟨hmin, hfirst⟩ := hfirst c ((hmem c).2 hc) l' _ hc'
    rcases fault?_eq_some.1 hreport with ⟨houtdated, rfl⟩ | ⟨-, -, -, -, rfl⟩
    · rcases fault?_eq_some.1 hc' with ⟨hc', -⟩ | ⟨haligns, m', hm', rfl, -⟩
      · cases hc'
      · have hn := (hmem n).1 hn
        have hle := Location.le_trans hle' hle
        obtain ⟨before, after, heq, -⟩ := misfit?_eq_some hm'
        have hmem' : m' ∈ s.root.preorder := by
          refine preorder_trans (mem_preorder_of_named hc) (mem_preorder.2 (.inr ?_))
          exact mem_inner_of_namedChildren (mem_of_starters (s := s) (by simp [heq])).1
        have hstart := h.byte_eq (mem_preorder_of_named hn) hmem' hmin hle
        have hin := h.mem_inner_of_misfit hc haligns hm' hn houtdated hstart
        rcases hfirst hle (h.outdated n hn fault houtdated) with rfl | hout
        · exact not_mem_inner_self _ hin
        · exact hout hin
    · exact hfault rfl

/-- Two orders with parents first lead to the same report. -/
theorem earliest?_congr {order order' : List Node} (horder : ParentsFirst order)
    (horder' : ParentsFirst order') (hmem : ∀ n, n ∈ order ↔ n ∈ s.root.named)
    (hmem' : ∀ n, n ∈ order' ↔ n ∈ s.root.named) : s.earliest? order = s.earliest? order' := by
  have hnone : s.earliest? order = none ↔ s.earliest? order' = none := by
    simp only [earliest?_eq_none, hmem, hmem']
  cases he : s.earliest? order with
  | none => exact (hnone.1 he).symm
  | some f =>
      have hsome : s.earliest? order' ≠ none := fun hn => by simp [hnone.2 hn] at he
      obtain ⟨f', he'⟩ := Option.ne_none_iff_exists'.1 hsome
      obtain ⟨l, fault⟩ := f
      obtain ⟨l', fault'⟩ := f'
      obtain ⟨⟨m, hm, hml⟩, hleast, htie⟩ := h.earliest?_least horder hmem he
      obtain ⟨⟨m', hm', hml'⟩, hleast', htie'⟩ := h.earliest?_least horder' hmem' he'
      have hle : l ≤ l' := hml' ▸ hleast m' fault' hm'
      have hge : l' ≤ l := hml ▸ hleast' m fault hm
      have hbyte : l.byte = l'.byte := by
        subst hml hml'
        exact h.byte_eq hm.mem hm'.mem hle hge
      obtain rfl : l = l' := by
        rw [Location.le_def] at hle hge
        cases l
        cases l'
        simp only [Location.mk.injEq] at *
        omega
      obtain ⟨n, hn, hreport, hfirst⟩ := exists_first horder he
      obtain ⟨n', hn', hreport', hfirst'⟩ := exists_first horder' he'
      rcases fault?_eq_some.1 hreport with ⟨houtdated, hstart⟩ | ⟨-, -, -, -, rfl⟩
      · rcases fault?_eq_some.1 hreport' with ⟨houtdated', hstart'⟩ | ⟨-, -, -, -, rfl⟩
        · have hn := (hmem n).1 hn
          have hn' := (hmem' n').1 hn'
          have hwidth := h.outdated_width hn houtdated
          have hwidth' := h.outdated_width hn' houtdated'
          have hfirst := (hfirst n' ((hmem n').2 hn') l fault' hreport').2 hle
            (h.outdated n hn fault houtdated)
          have hfirst' := (hfirst' n ((hmem' n).2 hn) l fault hreport).2 hle
            (h.outdated n' hn' fault' houtdated')
          have heq : n = n' := by
            rcases preorder_or_preorder h.nested (mem_preorder_of_named hn)
              (mem_preorder_of_named hn') (by rw [hstart, ← hstart']; omega)
              (by rw [hstart', ← hstart]; omega) with hin | hin
            · rcases hfirst with rfl | hout
              · rfl
              · exact (mem_preorder.1 hin).resolve_right hout
            · rcases hfirst' with rfl | hout
              · rfl
              · exact ((mem_preorder.1 hin).resolve_right hout).symm
          rw [he', ← hreport', ← heq, hreport]
        · rw [he', htie m' hm' (hml' ▸ hle)]
      · rw [he', htie' m hm (hml ▸ hle)]

end Statements

/-- Nothing is reported iff no statement is only of Python 2 and the statements that start their
line are all below each other in each module, at column 0, and in each block. Otherwise it is the
least fault by row and column, one of indentation if there is one at that place, and the same as
when nodes are visited by way of a stack. -/
theorem firstFault?_earliest (h : s.Statements) :
    (s.firstFault? = none ↔
      (∀ n ∈ s.root.named, n.kind ≠ .execStatement ∧
        (n.kind = .printStatement → ∃ c ∈ n.children, c.kind = .chevron)) ∧
      ∀ c ∈ s.root.named, Aligns c → ∃ column, (c.kind = .module → column = 0) ∧
        ∀ n ∈ s.starters c.namedChildren, n.start.column = column) ∧
    (∀ l fault, s.firstFault? = some (l, fault) →
      (∃ n, s.Faulty n fault ∧ n.start = l) ∧ (∀ n fault', s.Faulty n fault' → l ≤ n.start) ∧
      ∀ n, s.Faulty n .indentation → n.start ≤ l → fault = .indentation) ∧
    s.firstFault? = s.earliest? (popped [s.root]) := by
  have hnamed : ParentsFirst s.root.named := named_parentsFirst h.nested
  have hpopped : ParentsFirst (popped [s.root]) :=
    popped_parentsFirst (by simpa using h.nested) (List.pairwise_singleton _ _)
  refine ⟨?_, fun l fault hf => h.earliest?_least hnamed (fun _ => Iff.rfl) hf,
    h.earliest?_congr hnamed hpopped (fun _ => Iff.rfl) fun n => by simp [mem_popped]⟩
  have hnone : s.firstFault? = none ↔ ∀ n ∈ s.root.named, s.fault? n = none :=
    earliest?_eq_none
  simp only [hnone, fault?_eq_none, forall_and]

theorem statements_of_regular (h : s.root.Regular)
    (hwidth : ∀ n ∈ s.root.preorder, n.hasWidth) : s.Statements where
  nested := h.nested
  ordered := h.ordered
  wide := fun c hc _ n hn _ => hwidth n (preorder_trans (mem_preorder_of_named hc)
    (mem_preorder.2 (.inr (mem_inner_of_namedChildren hn))))
  outdated := fun n hn _ _ => hwidth n (mem_preorder_of_named hn)
  module := fun n hn _ _ m hm => by
    refine h.module_only m ?_
    rcases mem_preorder.1 (mem_preorder_of_named hn) with rfl | hn
    · exact hm
    · exact inner_trans hn hm

/-- A statement that is only of Python 2 and out of line as well. -/
theorem firstFault?_earliest_print : ∃ root,
    Node.ofText? "if a:\n  0\n print 0".toList = some root ∧
    let s := Source.ofTree "if a:\n  0\n print 0".toList root
    s.Statements ∧ s.firstFault? = some (⟨11, 2, 1⟩, .indentation) ∧
    ((s.firstFault? = none ↔
      (∀ n ∈ s.root.named, n.kind ≠ .execStatement ∧
        (n.kind = .printStatement → ∃ c ∈ n.children, c.kind = .chevron)) ∧
      ∀ c ∈ s.root.named, Aligns c → ∃ column, (c.kind = .module → column = 0) ∧
        ∀ n ∈ s.starters c.namedChildren, n.start.column = column) ∧
    (∀ l fault, s.firstFault? = some (l, fault) →
      (∃ n, s.Faulty n fault ∧ n.start = l) ∧ (∀ n fault', s.Faulty n fault' → l ≤ n.start) ∧
      ∀ n, s.Faulty n .indentation → n.start ≤ l → fault = .indentation) ∧
    s.firstFault? = s.earliest? (popped [s.root])) := by
  have hroot : (Node.ofText? "if a:\n  0\n print 0".toList).any (fun root =>
      root.preorder.all hasWidth && (ofTree "if a:\n  0\n print 0".toList root).firstFault? =
        some (⟨11, 2, 1⟩, .indentation)) := by
    decide +kernel
  obtain ⟨root, hroot, h⟩ := (Option.any_eq_true _ _).1 hroot
  obtain ⟨hwidth, hfault⟩ := Bool.and_eq_true_iff.1 h
  have hs : (ofTree "if a:\n  0\n print 0".toList root).Statements :=
    statements_of_regular (ofText?_tree hroot).regular (List.all_eq_true.1 hwidth)
  exact ⟨root, hroot, hs, of_decide_eq_true hfault, firstFault?_earliest hs⟩

end Source

end DocstringEditor.Analysis
