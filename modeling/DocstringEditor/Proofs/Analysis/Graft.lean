import Mathlib.Data.List.Forall2
import DocstringEditor.Proofs.Analysis.Fault

namespace DocstringEditor.Syntax

/-- Whether a node is a comment in no field, which is part of no phrase. -/
def Node.isLoose (n : Node) : Bool := n.isComment && n.role.isNone

namespace Forest

def bound (ns : Forest) : Forest := ns.filter (!·.isLoose)

variable {ns : Forest} {p : Node → Bool}

theorem mem_bound {n : Node} : n ∈ ns.bound ↔ n ∈ ns ∧ ¬n.isLoose := by simp [bound]

theorem find?_bound (h : ∀ n, n.isLoose → ¬p n) : ns.bound.find? p = ns.find? p := by
  rw [bound, List.find?_filter]
  congr 1
  funext n
  by_cases hn : n.isLoose
  · simp [hn, h n hn]
  · simp [hn]

end Forest

namespace Node

mutual
def decEq : (n m : Node) → Decidable (n = m)
  | .mk k r b e cs, .mk k' r' b' e' cs' =>
    match decEqAll cs cs' with
    | .isTrue h => decidable_of_iff (k = k' ∧ r = r' ∧ b = b' ∧ e = e') (by simp [h])
    | .isFalse h => .isFalse (by simp [h])

def decEqAll : (ns ms : Forest) → Decidable (ns = ms)
  | [], [] => .isTrue rfl
  | [], _ :: _ | _ :: _, [] => .isFalse (by simp)
  | n :: ns, m :: ms =>
    match decEq n m, decEqAll ns ms with
    | .isTrue h, .isTrue h' => .isTrue (by rw [h, h'])
    | .isFalse h, _ => .isFalse (by simp [h])
    | _, .isFalse h => .isFalse (by simp [h])
end

instance : DecidableEq Node := decEq

theorem child?_bound {n : Node} (r : Role) : n.children.bound.find? (·.role = some r) = n.child? r :=
  Forest.find?_bound fun m hm => by
    have := (Bool.and_eq_true_iff.1 hm).2
    simp only [Option.isNone_iff_eq_none] at this
    simp [this]

end Node

end DocstringEditor.Syntax

namespace DocstringEditor.Analysis

open List (Forall₂)
open Syntax Syntax.Node Syntax.Forest

variable (s s' : Source) (moved : Location → Location → Prop)

mutual
/-- Whether a tree of one source is a tree of another with its places moved, comments apart. -/
def Copies : Node → Node → Prop
  | mk k r b e cs, n' =>
    (n'.kind = k ∧ n'.role = r ∧ moved b n'.start ∧
      s'.nodeText n' = s.nodeText (mk k r b e cs)) ∧ CopiesAll cs n'.children.bound

def CopiesAll : Forest → Forest → Prop
  | [], ns' => ns' = []
  | n :: ns, ns' =>
    if n.isLoose then CopiesAll ns ns'
    else ∃ n' ∈ ns'.head?, Copies n n' ∧ CopiesAll ns ns'.tail
end

section

variable [∀ l l', Decidable (moved l l')]

mutual
def decCopies : (n n' : Node) → Decidable (Copies s s' moved n n')
  | .mk _ _ _ _ cs, n' =>
    have := decCopiesAll cs n'.children.bound
    inferInstanceAs (Decidable (_ ∧ CopiesAll s s' moved cs n'.children.bound))

def decCopiesAll : (ns ns' : Forest) → Decidable (CopiesAll s s' moved ns ns')
  | [], ns' => inferInstanceAs (Decidable (ns' = []))
  | n :: ns, ns' =>
    have := decCopiesAll ns
    have := decCopies n
    inferInstanceAs (Decidable (if n.isLoose then CopiesAll s s' moved ns ns'
      else ∃ n' ∈ ns'.head?, Copies s s' moved n n' ∧ CopiesAll s s' moved ns ns'.tail))
end

instance (ns ns' : Forest) : Decidable (CopiesAll s s' moved ns ns') :=
  decCopiesAll s s' moved ns ns'

end

/-- Whether a tree is another one with a statement in the body of one of its definitions, in front
of the statements of that body that are kept. -/
inductive Grafted (d stmt : Node) (gone kept : Forest) : Node → Node → Prop
  | body {d' block block' : Node} {front front' back back' kept' : Forest} :
      d'.kind = d.kind → d'.role = d.role → moved d.start d'.start →
      d.children.bound = front ++ block :: back →
      d'.children.bound = front' ++ block' :: back' →
      Forall₂ (Copies s s' moved) front front' → Forall₂ (Copies s s' moved) back back' →
      (∀ n ∈ front, n.role ≠ some .body) → block.role = some .body → block'.role = some .body →
      block.kind = .block → block'.kind = .block → block.children.bound = gone ++ kept →
      block'.children.bound = stmt :: kept' →
      Forall₂ (Copies s s' moved) kept kept' → Grafted d stmt gone kept d d'
  | child {n n' m m' : Node} {front front' back back' : Forest} :
      n'.kind = n.kind → n'.role = n.role → moved n.start n'.start →
      n.children.bound = front ++ m :: back → n'.children.bound = front' ++ m' :: back' →
      Forall₂ (Copies s s' moved) front front' → Forall₂ (Copies s s' moved) back back' →
      Grafted d stmt gone kept m m' → Grafted d stmt gone kept n n'

variable {s s' : Source} {moved : Location → Location → Prop} {n n' m d stmt : Node}
  {ns ns' gone kept : Forest}

theorem copiesAll_iff : CopiesAll s s' moved ns ns' ↔ Forall₂ (Copies s s' moved) ns.bound ns' := by
  induction ns generalizing ns' with
  | nil =>
      rw [CopiesAll]
      exact List.forall₂_nil_left_iff.symm
  | cons n ns ih =>
      rw [CopiesAll]
      by_cases hn : n.isLoose
      · have hbound : bound (n :: ns) = bound ns := List.filter_cons_of_neg (by simp [hn])
        rw [if_pos hn, ih, hbound]
      · have hbound : bound (n :: ns) = n :: bound ns := List.filter_cons_of_pos (by simp [hn])
        rw [if_neg hn, hbound, List.forall₂_cons_left_iff]
        constructor
        · rintro ⟨n', hn', hcopies, hall⟩
          obtain ⟨ns', rfl⟩ := List.head?_eq_some_iff.1 hn'
          exact ⟨n', ns', hcopies, ih.1 hall, rfl⟩
        · rintro ⟨n', ns', hcopies, hall, rfl⟩
          exact ⟨n', rfl, hcopies, ih.2 hall⟩

theorem copies_iff : Copies s s' moved n n' ↔
    (n'.kind = n.kind ∧ n'.role = n.role ∧ moved n.start n'.start ∧
      s'.nodeText n' = s.nodeText n) ∧
    Forall₂ (Copies s s' moved) n.children.bound n'.children.bound := by
  cases n
  rw [Copies, copiesAll_iff]
  rfl

/-- What is the same of two nodes, one at the moved place of the other. -/
structure Matches (moved : Location → Location → Prop) (n n' : Node) : Prop where
  kind : n'.kind = n.kind
  role : n'.role = n.role
  start : moved n.start n'.start

theorem Copies.matches (h : Copies s s' moved n n') : Matches moved n n' := by
  obtain ⟨⟨hkind, hrole, hstart, -⟩, -⟩ := copies_iff.1 h
  exact ⟨hkind, hrole, hstart⟩

theorem Grafted.matches (h : Grafted s s' moved d stmt gone kept n n') : Matches moved n n' := by
  cases h with
  | body hkind hrole hstart => exact ⟨hkind, hrole, hstart⟩
  | child hkind hrole hstart => exact ⟨hkind, hrole, hstart⟩

theorem matches_append {front front' back back' : Forest} {m m' : Node}
    (hfront : Forall₂ (Copies s s' moved) front front') (hm : Matches moved m m')
    (hback : Forall₂ (Copies s s' moved) back back') :
    Forall₂ (Matches moved) (front ++ m :: back) (front' ++ m' :: back') :=
  List.rel_append (hfront.imp fun _ _ => Copies.matches)
    (.cons hm (hback.imp fun _ _ => Copies.matches))

/-- Whether a place and one that has come from it are alike to the check of indentation. -/
def Keeps (s s' : Source) (l l' : Location) : Prop :=
  s'.startsLine l' = s.startsLine l ∧ l'.column = l.column

def Source.columns (s : Source) (ns : Forest) : List Nat :=
  (s.starters (ns.filter isNamed)).map (·.start.column)

theorem columns_bound (ns : Forest) : s.columns ns.bound = s.columns ns := by
  have hfilter : s.starters (ns.bound.filter isNamed) = s.starters (ns.filter isNamed) := by
    rw [Source.starters, Source.starters, bound, List.filter_filter, List.filter_filter,
      List.filter_filter]
    refine List.filter_congr fun n _ => ?_
    by_cases hn : n.isComment <;> simp [isLoose, hn]
  rw [Source.columns, hfilter, Source.columns]

theorem columns_eq (h : Forall₂ (Matches moved) ns ns')
    (hkeeps : ∀ n ∈ ns, ∀ l, moved n.start l → Keeps s s' n.start l) :
    s'.columns ns' = s.columns ns := by
  induction h with
  | nil => rfl
  | @cons n n' ns ns' hn _ ih =>
      obtain ⟨hn', hns⟩ := List.forall_mem_cons.1 hkeeps
      obtain ⟨hstarts, hcolumn⟩ := hn' _ hn.start
      have ih := ih hns
      simp only [Source.columns, Source.starters] at ih ⊢
      have hnamed : n'.isNamed = n.isNamed := by rw [isNamed, isNamed, hn.kind]
      have hcomment : n'.isComment = n.isComment := by rw [isComment, isComment, hn.kind]
      by_cases hin : n.isNamed
      · rw [List.filter_cons_of_pos hin, List.filter_cons_of_pos (hnamed.trans hin)]
        simp only [List.filter_cons, hcomment, hstarts]
        split
        · rw [List.map_cons, List.map_cons, ih, hcolumn]
        · exact ih
      · rwa [List.filter_cons_of_neg hin, List.filter_cons_of_neg (by rwa [hnamed])]

theorem fault?_eq_none_of_columns : s.fault? n = none ↔
    (n.kind ≠ .execStatement ∧
      (n.kind = .printStatement → ∃ c ∈ n.children.bound, c.kind = .chevron)) ∧
    (Aligns n → ∃ column, (n.kind = .module → column = 0) ∧
      ∀ c ∈ s.columns n.children.bound, c = column) := by
  have hchevron : (∃ c ∈ n.children.bound, c.kind = .chevron) ↔
      ∃ c ∈ n.children, c.kind = .chevron := by
    constructor
    · rintro ⟨c, hc, hkind⟩
      exact ⟨c, (mem_bound.1 hc).1, hkind⟩
    · rintro ⟨c, hc, hkind⟩
      exact ⟨c, mem_bound.2 ⟨hc, by simp [isLoose, isComment, hkind]⟩, hkind⟩
  rw [Source.fault?_eq_none, hchevron, columns_bound]
  simp [Source.columns, namedChildren]

theorem fault?_congr (hkind : n'.kind = n.kind)
    (h : Forall₂ (Matches moved) n.children.bound n'.children.bound)
    (hkeeps : ∀ m ∈ n.children, ∀ l, moved m.start l → Keeps s s' m.start l) :
    s'.fault? n' = none ↔ s.fault? n = none := by
  have hcolumns : s'.columns n'.children.bound = s.columns n.children.bound :=
    columns_eq h fun m hm => hkeeps m (mem_bound.1 hm).1
  have hchevron : (∃ c ∈ n'.children.bound, c.kind = .chevron) ↔
      ∃ c ∈ n.children.bound, c.kind = .chevron := by
    clear hcolumns
    revert h
    generalize n.children.bound = ns, n'.children.bound = ns'
    intro h
    induction h with
    | nil => rfl
    | cons hm _ ih => simp [hm.kind, ih]
  rw [fault?_eq_none_of_columns, fault?_eq_none_of_columns, hkind, hcolumns, hchevron, Aligns,
    Aligns, hkind]

/-- Whether no fault is in a node or below it. -/
def Sane (s : Source) (n : Node) : Prop := ∀ m ∈ n.named, s.fault? m = none

theorem sane_iff (hleaf : ∀ c ∈ n.children, c.isComment → c.children = []) :
    Sane s n ↔ s.fault? n = none ∧ ∀ c ∈ n.children.bound, c.isNamed → Sane s c := by
  constructor
  · intro h
    refine ⟨h n (mem_named.2 (.inl rfl)), fun c hc hnamed m hm => h m (mem_named.2 (.inr ?_))⟩
    exact ⟨c, List.mem_filter.2 ⟨(mem_bound.1 hc).1, hnamed⟩, hm⟩
  · rintro ⟨hn, hchildren⟩ m hm
    rcases mem_named.1 hm with rfl | ⟨c, hc, hm⟩
    · exact hn
    obtain ⟨hc, hnamed⟩ := List.mem_filter.1 hc
    by_cases hloose : c.isLoose
    · have hcomment := (Bool.and_eq_true_iff.1 hloose).1
      have hsole : m = c := by
        rcases mem_named.1 hm with rfl | ⟨d, hd, -⟩
        · rfl
        · simp [namedChildren, hleaf c hc hcomment] at hd
      have hkind : c.kind = .comment := by simpa [isComment] using hcomment
      rw [hsole, Source.fault?_eq_none]
      simp [hkind, Aligns]
    · exact hchildren c (mem_bound.2 ⟨hc, hloose⟩) hnamed m hm

theorem bound_cons (n : Node) (ns : Forest) :
    bound (n :: ns) = if n.isLoose then bound ns else n :: bound ns := by
  rw [bound, List.filter_cons]
  by_cases hn : n.isLoose <;> simp [hn, bound]

/-- Whether comments hold nothing, here and in all that is below. -/
def Tidy (ns : List Node) : Prop := ∀ c ∈ ns, c.isComment → c.children = []

/-- Whether all places that nodes start at are alike where they have come to. -/
def KeepsAll (s s' : Source) (moved : Location → Location → Prop) (ns : List Node) : Prop :=
  ∀ n ∈ ns, ∀ l, moved n.start l → Keeps s s' n.start l

theorem Tidy.children (h : Tidy n.preorder) : ∀ c ∈ n.children, c.isComment → c.children = [] :=
  fun c hc => h c (mem_preorder.2 (.inr (mem_preorderAll.2 ⟨c, hc, by simp⟩)))

theorem copies_sane :
    (∀ n n' : Node, Copies s s' moved n n' → Tidy n.preorder → Tidy n'.preorder →
      KeepsAll s s' moved n.preorder → (Sane s' n' ↔ Sane s n)) ∧
    ∀ ns ns' : Forest, Forall₂ (Copies s s' moved) ns.bound ns' → Tidy (preorderAll ns) →
      Tidy (preorderAll ns') → KeepsAll s s' moved (preorderAll ns) →
      ((∀ c ∈ ns', c.isNamed → Sane s' c) ↔ ∀ c ∈ ns.bound, c.isNamed → Sane s c) := by
  apply Node.induction
  case mk =>
    intro k r b e cs ih n' h htidy htidy' hkeeps
    obtain ⟨⟨hkind, -⟩, hchildren⟩ := copies_iff.1 h
    have hinner {m : Node} (hm : m ∈ preorderAll cs) : m ∈ (mk k r b e cs).preorder :=
      mem_preorder.2 (.inr hm)
    have hbound {m : Node} (hm : m ∈ preorderAll n'.children.bound) : m ∈ n'.preorder := by
      obtain ⟨c, hc, hm⟩ := mem_preorderAll.1 hm
      exact mem_preorder.2 (.inr (mem_preorderAll.2 ⟨c, (mem_bound.1 hc).1, hm⟩))
    rw [sane_iff htidy.children, sane_iff htidy'.children]
    refine and_congr (fault?_congr hkind (hchildren.imp fun _ _ => Copies.matches) ?_) ?_
    · exact fun m hm => hkeeps m (hinner (mem_preorderAll.2 ⟨m, hm, by simp⟩))
    · exact ih _ hchildren (fun c hc => htidy c (hinner hc)) (fun c hc => htidy' c (hbound hc))
        fun m hm => hkeeps m (hinner hm)
  case nil =>
    intro ns' h _ _ _
    obtain rfl := List.forall₂_nil_left_iff.1 h
    exact iff_of_true (by simp) (by simp [bound])
  case cons =>
    intro n ns ihn ihns ns' h htidy htidy' hkeeps
    rw [bound_cons] at h ⊢
    have ihns (ns'' : Forest) (h : Forall₂ (Copies s s' moved) ns.bound ns'')
        (hsub : ∀ m ∈ preorderAll ns'', m ∈ preorderAll ns') :=
      ihns ns'' h (fun c hc => htidy c (List.mem_append_right _ hc))
        (fun c hc => htidy' c (hsub c hc)) fun c hc => hkeeps c (List.mem_append_right _ hc)
    by_cases hn : n.isLoose
    · rw [if_pos hn] at h ⊢
      exact ihns ns' h fun _ hm => hm
    · rw [if_neg hn] at h ⊢
      obtain ⟨n', ns'', hcopies, hall, rfl⟩ := List.forall₂_cons_left_iff.1 h
      have hnamed : n'.isNamed = n.isNamed := by rw [isNamed, isNamed, hcopies.matches.kind]
      have hhead := ihn n' hcopies (fun c hc => htidy c (List.mem_append_left _ hc))
        (fun c hc => htidy' c (List.mem_append_left _ hc))
        fun c hc => hkeeps c (List.mem_append_left _ hc)
      rw [List.forall_mem_cons, List.forall_mem_cons, hnamed, hhead,
        ihns ns'' hall fun _ hm => List.mem_append_right _ hm]

theorem sane_of_copies (h : Forall₂ (Copies s s' moved) ns ns')
    (hsane : ∀ c ∈ ns, c.isNamed → Sane s c) (htidy : Tidy (preorderAll ns))
    (htidy' : Tidy (preorderAll ns')) (hkeeps : KeepsAll s s' moved (preorderAll ns)) :
    ∀ c ∈ ns', c.isNamed → Sane s' c := by
  induction h with
  | nil => simp
  | @cons n n' ns ns' hcopies _ ih =>
      obtain ⟨hn, hns⟩ := List.forall_mem_cons.1 hsane
      have hnamed : n'.isNamed = n.isNamed := by rw [isNamed, isNamed, hcopies.matches.kind]
      have ih := ih hns (fun c hc => htidy c (List.mem_append_right _ hc))
        (fun c hc => htidy' c (List.mem_append_right _ hc))
        fun c hc => hkeeps c (List.mem_append_right _ hc)
      refine List.forall_mem_cons.2 ⟨fun hnamed' => ?_, ih⟩
      refine (copies_sane.1 n n' hcopies (fun c hc => htidy c (List.mem_append_left _ hc))
        (fun c hc => htidy' c (List.mem_append_left _ hc))
        fun c hc => hkeeps c (List.mem_append_left _ hc)).2 (hn (hnamed ▸ hnamed'))

theorem columns_cons (n : Node) (ns : Forest) :
    s.columns (n :: ns) = s.columns [n] ++ s.columns ns := by
  have happend := List.filter_append (p := isNamed) [n] ns
  rw [List.singleton_append] at happend
  rw [Source.columns, happend, Source.starters, List.filter_append, List.map_append]
  rfl

theorem mem_preorder_of_bound (h : m ∈ preorderAll n.children.bound) : m ∈ n.preorder := by
  obtain ⟨c, hc, hm⟩ := mem_preorderAll.1 h
  exact mem_preorder.2 (.inr (mem_preorderAll.2 ⟨c, (mem_bound.1 hc).1, hm⟩))

/-- What stands beside a child is copied, and sane as it was. -/
theorem Sane.beside (hsane : Sane s n) {front front' back back' : Forest} {m' : Node}
    (hchildren : n.children.bound = front ++ m :: back)
    (hchildren' : n'.children.bound = front' ++ m' :: back')
    (hfront : Forall₂ (Copies s s' moved) front front')
    (hback : Forall₂ (Copies s s' moved) back back') (htidy : Tidy n.preorder)
    (htidy' : Tidy n'.preorder) (hkeeps : KeepsAll s s' moved n.preorder) :
    ∀ c ∈ front' ++ back', c.isNamed → Sane s' c := by
  obtain ⟨-, hsane⟩ := (sane_iff htidy.children).1 hsane
  have hin {c : Node} (hc : c ∈ preorderAll (front ++ back)) : c ∈ n.preorder := by
    refine mem_preorder_of_bound ?_
    rw [hchildren]
    simp only [preorderAll_append, preorderAll_cons, List.mem_append] at hc ⊢
    exact hc.imp id .inr
  have hin' {c : Node} (hc : c ∈ preorderAll (front' ++ back')) : c ∈ n'.preorder := by
    refine mem_preorder_of_bound ?_
    rw [hchildren']
    simp only [preorderAll_append, preorderAll_cons, List.mem_append] at hc ⊢
    exact hc.imp id .inr
  rw [hchildren] at hsane
  refine sane_of_copies (List.rel_append hfront hback) (fun c hc => hsane c ?_)
    (fun c hc => htidy c (hin hc)) (fun c hc => htidy' c (hin' hc)) fun c hc => hkeeps c (hin hc)
  exact List.mem_append.2 ((List.mem_append.1 hc).imp id (List.mem_cons_of_mem m))

/-- A node whose other children are sane is sane just if one of them is. -/
theorem sane_iff_child {front back : Forest} (hchildren : n.children.bound = front ++ m :: back)
    (htidy : Tidy n.preorder) (hfault : s.fault? n = none) (hnamed : m.isNamed)
    (hbeside : ∀ c ∈ front ++ back, c.isNamed → Sane s c) : Sane s n ↔ Sane s m := by
  rw [sane_iff htidy.children, hchildren]
  constructor
  · exact fun h => h.2 m (by simp) hnamed
  · intro hm
    refine ⟨hfault, fun c hc hc' => ?_⟩
    rcases List.mem_append.1 hc with hc | hc
    · exact hbeside c (List.mem_append_left _ hc) hc'
    · rcases List.mem_cons.1 hc with rfl | hc
      · exact hm
      · exact hbeside c (List.mem_append_right _ hc) hc'

theorem preorder_of_bound {front back : Forest} (h : n.children.bound = front ++ m :: back) :
    ∀ c ∈ m.preorder, c ∈ n.preorder :=
  fun c hc => mem_preorder_of_bound (by simp [h, hc])

/-- A block with a new statement in front is sane just if that is in line with the others. -/
theorem sane_block_iff {block block' : Node} {kept' : Forest} (hkind' : block'.kind = .block)
    (hparts : block.children.bound = gone ++ kept) (hparts' : block'.children.bound = stmt :: kept')
    (hkept : Forall₂ (Copies s s' moved) kept kept') (hsane : Sane s block)
    (htidy : Tidy block.preorder) (htidy' : Tidy block'.preorder)
    (hkeeps : KeepsAll s s' moved block.preorder) (hstmt : Sane s' stmt)
    (hcolumn : s'.columns [stmt] = [stmt.start.column]) :
    Sane s' block' ↔ ∀ c ∈ s.columns kept, c = stmt.start.column := by
  obtain ⟨-, hsane⟩ := (sane_iff htidy.children).1 hsane
  rw [hparts] at hsane
  have hin {c : Node} (hc : c ∈ preorderAll kept) : c ∈ block.preorder :=
    mem_preorder_of_bound (by simp [hparts, hc])
  have hin' {c : Node} (hc : c ∈ preorderAll kept') : c ∈ block'.preorder :=
    mem_preorder_of_bound (by simp [hparts', hc])
  have hkeptSane := sane_of_copies hkept (fun c hc => hsane c (by simp [hc]))
    (fun c hc => htidy c (hin hc)) (fun c hc => htidy' c (hin' hc)) fun c hc => hkeeps c (hin hc)
  have hkeptColumns : s'.columns kept' = s.columns kept :=
    columns_eq (hkept.imp fun _ _ => Copies.matches)
      fun c hc => hkeeps c (hin (mem_preorderAll.2 ⟨c, hc, by simp⟩))
  have hfault : s'.fault? block' = none ↔ ∀ c ∈ s.columns kept, c = stmt.start.column := by
    rw [fault?_eq_none_of_columns, hparts', columns_cons, hcolumn, hkeptColumns]
    simp [hkind', Aligns]
  rw [sane_iff htidy'.children, hparts', hfault]
  exact and_iff_left (List.forall_mem_cons.2 ⟨fun _ => hstmt, hkeptSane⟩)

/-- A graft is sane just if the statement is in line with those that are kept. -/
theorem Grafted.sane_iff (h : Grafted s s' moved d stmt gone kept n n') (hdef : d.isDefinition)
    (hnamed : ∀ m ∈ n.preorder, m.children ≠ [] → m.isNamed) (hsane : Sane s n)
    (htidy : Tidy n.preorder) (htidy' : Tidy n'.preorder) (hkeeps : KeepsAll s s' moved n.preorder)
    (hstmt : Sane s' stmt) (hcolumn : s'.columns [stmt] = [stmt.start.column]) :
    Sane s' n' ↔ ∀ c ∈ s.columns kept, c = stmt.start.column := by
  induction h with
  | @body d' block block' front front' back back' kept' hkind _ _ hchildren hchildren' hfront hback
      _ _ _ hblock hblock' hparts hparts' hkept =>
      have hin := preorder_of_bound hchildren
      have hsaneBlock : Sane s block := ((Analysis.sane_iff htidy.children).1 hsane).2 block
        (by simp [hchildren]) (by simp [isNamed, hblock, Kind.isNamed])
      have hfault : s'.fault? d' = none := by
        rw [fault?_eq_none_of_columns, Aligns, hkind]
        simp only [isDefinition, Bool.or_eq_true, decide_eq_true_eq] at hdef
        rcases hdef with hd | hd
        · simp [hd]
        · simp [hd]
      rw [sane_iff_child hchildren' htidy' hfault (by simp [isNamed, hblock', Kind.isNamed])
        (hsane.beside hchildren hchildren' hfront hback htidy htidy' hkeeps)]
      exact sane_block_iff hblock' hparts hparts' hkept hsaneBlock (fun c hc => htidy c (hin c hc))
        (fun c hc => htidy' c (preorder_of_bound hchildren' c hc)) (fun c hc => hkeeps c (hin c hc))
        hstmt hcolumn
  | @child n n' m m' front front' back back' hkind _ _ hchildren hchildren' hfront hback hm ih =>
      have hin := preorder_of_bound hchildren
      have hall : Forall₂ (Matches moved) n.children.bound n'.children.bound := by
        rw [hchildren, hchildren']
        exact matches_append hfront hm.matches hback
      have hfault : s'.fault? n' = none := (fault?_congr hkind hall fun c hc =>
        hkeeps c (mem_preorder.2 (.inr (mem_preorderAll.2 ⟨c, hc, by simp⟩)))).2
          ((Analysis.sane_iff htidy.children).1 hsane).1
      have hmNamed : m.isNamed := by
        refine hnamed m (hin m (by simp)) fun hnil => ?_
        cases hm with
        | body _ _ _ hc => simp [hnil, bound] at hc
        | child _ _ _ hc => simp [hnil, bound] at hc
      have hmNamed' : m'.isNamed := by rwa [isNamed, hm.matches.kind]
      have hmSane := ((Analysis.sane_iff htidy.children).1 hsane).2 m (by simp [hchildren]) hmNamed
      rw [sane_iff_child hchildren' htidy' hfault hmNamed'
        (hsane.beside hchildren hchildren' hfront hback htidy htidy' hkeeps)]
      exact ih (fun c hc => hnamed c (hin c hc)) hmSane (fun c hc => htidy c (hin c hc))
        (fun c hc => htidy' c (preorder_of_bound hchildren' c hc)) fun c hc => hkeeps c (hin c hc)

theorem exists_of_find? {R : Node → Node → Prop} {p : Node → Bool} (h : Forall₂ R ns ns')
    (hp : ∀ n n', R n n' → p n' = p n) (hfound : ns.find? p = some n) :
    ∃ n', ns'.find? p = some n' ∧ R n n' := by
  induction h with
  | nil => cases hfound
  | @cons m m' ns ns' hm _ ih =>
      rw [List.find?_cons] at hfound ⊢
      rw [hp m m' hm]
      cases hpm : p m with
      | true =>
          rw [hpm] at hfound
          obtain rfl := Option.some.inj hfound
          exact ⟨m', rfl, hm⟩
      | false =>
          rw [hpm] at hfound
          exact ih hfound

theorem mem_preorder_of_isDefinition {e : Node} (htidy : Tidy n.preorder) (he : e ∈ n.inner)
    (hdef : e.isDefinition) : e ∈ preorderAll n.children.bound := by
  obtain ⟨c, hc, hec⟩ := mem_preorderAll.1 he
  refine mem_preorderAll.2 ⟨c, mem_bound.2 ⟨hc, fun hloose => ?_⟩, hec⟩
  have hcomment := (Bool.and_eq_true_iff.1 hloose).1
  have hleaf := htidy.children c hc hcomment
  rcases mem_preorder.1 hec with rfl | hec
  · simp only [isComment, decide_eq_true_eq] at hcomment
    simp [isDefinition, hcomment] at hdef
  · simp [Node.inner, hleaf] at hec

/-- Definitions in a copy come from definitions. -/
theorem copies_definitions :
    (∀ n n' : Node, Copies s s' moved n n' → Tidy n'.preorder → ∀ e' ∈ n'.preorder,
      e'.isDefinition → ∃ e ∈ n.preorder, e.isDefinition ∧ moved e.start e'.start) ∧
    ∀ ns ns' : Forest, Forall₂ (Copies s s' moved) ns.bound ns' → Tidy (preorderAll ns') →
      ∀ e' ∈ preorderAll ns', e'.isDefinition →
        ∃ e ∈ preorderAll ns, e.isDefinition ∧ moved e.start e'.start := by
  apply Node.induction
  case mk =>
    intro k r b e cs ih n' h htidy e' he' hdef
    obtain ⟨-, hchildren⟩ := copies_iff.1 h
    rcases mem_preorder.1 he' with rfl | he'
    · refine ⟨_, mem_preorder.2 (.inl rfl), ?_, h.matches.start⟩
      rwa [isDefinition, ← h.matches.kind]
    · obtain ⟨e, he, hfrom⟩ := ih _ hchildren (fun c hc => htidy c (mem_preorder_of_bound hc)) e'
        (mem_preorder_of_isDefinition htidy he' hdef) hdef
      exact ⟨e, mem_preorder.2 (.inr he), hfrom⟩
  case nil =>
    intro ns' h _ e' he'
    obtain rfl := List.forall₂_nil_left_iff.1 h
    simp at he'
  case cons =>
    intro n ns ihn ihns ns' h htidy e' he' hdef
    rw [bound_cons] at h
    by_cases hn : n.isLoose
    · rw [if_pos hn] at h
      obtain ⟨e, he, hfrom⟩ := ihns ns' h htidy e' he' hdef
      exact ⟨e, List.mem_append_right _ he, hfrom⟩
    · rw [if_neg hn] at h
      obtain ⟨n', ns'', hcopies, hall, rfl⟩ := List.forall₂_cons_left_iff.1 h
      rcases List.mem_append.1 he' with he' | he'
      · obtain ⟨e, he, hfrom⟩ :=
          ihn n' hcopies (fun c hc => htidy c (List.mem_append_left _ hc)) e' he' hdef
        exact ⟨e, List.mem_append_left _ he, hfrom⟩
      · obtain ⟨e, he, hfrom⟩ :=
          ihns ns'' hall (fun c hc => htidy c (List.mem_append_right _ hc)) e' he' hdef
        exact ⟨e, List.mem_append_right _ he, hfrom⟩

theorem definitions_of_copies (h : Forall₂ (Copies s s' moved) ns ns')
    (htidy : Tidy (preorderAll ns')) : ∀ e' ∈ preorderAll ns', e'.isDefinition →
      ∃ e ∈ preorderAll ns, e.isDefinition ∧ moved e.start e'.start := by
  induction h with
  | nil => simp
  | @cons n n' ns ns' hcopies _ ih =>
      intro e' he' hdef
      rcases List.mem_append.1 he' with he' | he'
      · obtain ⟨e, he, hfrom⟩ := copies_definitions.1 n n' hcopies
          (fun c hc => htidy c (List.mem_append_left _ hc)) e' he' hdef
        exact ⟨e, List.mem_append_left _ he, hfrom⟩
      · obtain ⟨e, he, hfrom⟩ := ih (fun c hc => htidy c (List.mem_append_right _ hc)) e' he' hdef
        exact ⟨e, List.mem_append_right _ he, hfrom⟩

/-- What a definition is like that a statement has been put into. -/
structure Receives (s s' : Source) (moved : Location → Location → Prop) (d stmt d' : Node) :
    Prop where
  kind : d'.kind = d.kind
  start : moved d.start d'.start
  name : ∀ m, d.child? .name = some m →
    ∃ m', d'.child? .name = some m' ∧ s'.nodeText m' = s.nodeText m
  first : d'.firstStatement? = some stmt
  definitions : ∀ e' ∈ d'.inner, e'.isDefinition →
    ∃ e ∈ d.inner, e.isDefinition ∧ moved e.start e'.start

section

variable {d' block block' : Node} {front front' back back' : Forest}
  (hchildren : d.children.bound = front ++ block :: back)
  (hchildren' : d'.children.bound = front' ++ block' :: back')
  (hfront : Forall₂ (Copies s s' moved) front front')
  (hback : Forall₂ (Copies s s' moved) back back')
include hchildren hchildren' hfront

include hback in
/-- What is copied beside a block is found as before. -/
theorem exists_child {r : Role} (hr : r ≠ .body) (hbody : block.role = some .body)
    (hbody' : block'.role = some .body) (hm : d.child? r = some m) :
    ∃ m', d'.child? r = some m' ∧ s'.nodeText m' = s.nodeText m := by
  have hcopies {n n' : Node} (h : Copies s s' moved n n') : n'.role = n.role ∧
      (n.role ≠ some .body → s'.nodeText n' = s.nodeText n) := by
    obtain ⟨⟨-, hrole, -, htext⟩, -⟩ := copies_iff.1 h
    exact ⟨hrole, fun _ => htext⟩
  have hall : Forall₂ (fun n n' : Node => n'.role = n.role ∧
      (n.role ≠ some .body → s'.nodeText n' = s.nodeText n))
      (front ++ block :: back) (front' ++ block' :: back') :=
    List.rel_append (hfront.imp fun _ _ => hcopies)
      (.cons ⟨hbody'.trans hbody.symm, fun h => absurd hbody h⟩ (hback.imp fun _ _ => hcopies))
  have hrole : m.role = some r := by simpa using List.find?_some hm
  rw [← child?_bound, hchildren] at hm
  obtain ⟨m', hm', -, htext⟩ := exists_of_find? hall (fun n n' h => by rw [h.1]) hm
  exact ⟨m', by rw [← child?_bound, hchildren', hm'], htext (by simpa [hrole] using hr)⟩

omit hchildren in
theorem child?_body (hnone : ∀ n ∈ front, n.role ≠ some .body) (hbody' : block'.role = some .body) :
    d'.child? .body = some block' := by
  rw [← child?_bound, hchildren', List.find?_append]
  cases hfound : front'.find? (·.role = some .body) with
  | none => simp [hbody']
  | some n' =>
      obtain ⟨n, hn, -⟩ := exists_of_find? (R := flip (Copies s s' moved)) hfront.flip
        (fun n' n h => by rw [h.matches.role]) hfound
      exact absurd (by simpa using List.find?_some hn) (hnone n (List.mem_of_find?_eq_some hn))

include hback in
/-- A definition in what is around a block, or copied in it, comes from one that was there. -/
theorem exists_definition_of_inner {kept' : Forest} (hblock' : block'.kind = .block)
    (hparts : block.children.bound = gone ++ kept) (hparts' : block'.children.bound = stmt :: kept')
    (hkept : Forall₂ (Copies s s' moved) kept kept') (htidy : Tidy d'.preorder)
    (hdefs : ∀ e ∈ stmt.preorder, ¬e.isDefinition) {e' : Node} (he' : e' ∈ d'.inner)
    (hdef' : e'.isDefinition) : ∃ e ∈ d.inner, e.isDefinition ∧ moved e.start e'.start := by
  have hin := mem_preorder_of_isDefinition htidy he' hdef'
  have htidyIn {c : Node} (hc : c ∈ preorderAll (front' ++ block' :: back')) :
      c.isComment → c.children = [] :=
    htidy c (mem_preorder_of_bound (hchildren' ▸ hc))
  have hout {e : Node} (he : e ∈ preorderAll (front ++ block :: back)) : e ∈ d.inner := by
    obtain ⟨c, hc, hec⟩ := mem_preorderAll.1 he
    rw [← hchildren] at hc
    exact mem_preorderAll.2 ⟨c, (mem_bound.1 hc).1, hec⟩
  rw [hchildren', preorderAll_append, preorderAll_cons] at hin
  rcases List.mem_append.1 hin with hin | hin
  · obtain ⟨e, he, hfrom⟩ :=
      definitions_of_copies hfront (fun c hc => htidyIn (by simp [hc])) e' hin hdef'
    exact ⟨e, hout (by simp [he]), hfrom⟩
  rcases List.mem_append.1 hin with hin | hin
  · have hne : e' ≠ block' := by
      rintro rfl
      simp [isDefinition, hblock'] at hdef'
    have htidyBlock : Tidy block'.preorder := fun c hc => htidyIn (by simp [hc])
    have hin := mem_preorder_of_isDefinition htidyBlock ((mem_preorder.1 hin).resolve_left hne) hdef'
    rw [hparts', preorderAll_cons] at hin
    rcases List.mem_append.1 hin with hin | hin
    · exact absurd hdef' (hdefs e' hin)
    · obtain ⟨e, he, hfrom⟩ := definitions_of_copies hkept
        (fun c hc => htidyBlock c (mem_preorder_of_bound (by simp [hparts', hc]))) e' hin hdef'
      refine ⟨e, hout (mem_preorderAll.2 ⟨block, by simp, ?_⟩), hfrom⟩
      exact mem_preorder_of_bound (by simp [hparts, he])
  · obtain ⟨e, he, hfrom⟩ :=
      definitions_of_copies hback (fun c hc => htidyIn (by simp [hc])) e' hin hdef'
    exact ⟨e, hout (by simp [he]), hfrom⟩

end

theorem firstStatement?_of_bound {block : Node} {kept : Forest} (hmodule : d.kind ≠ .module)
    (hchild : d.child? .body = some block) (hparts : block.children.bound = stmt :: kept)
    (hnamed : stmt.isNamed) (hcomment : ¬stmt.isComment) : d.firstStatement? = some stmt := by
  have hloose (n : Node) (hn : n.isLoose) : ¬(n.isNamed && !n.isComment) := by
    simp [(Bool.and_eq_true_iff.1 hn).1]
  have hfirst := block.children.find?_bound hloose
  rw [hparts, List.find?_cons_of_pos (by simp [hnamed, hcomment])] at hfirst
  rw [firstStatement?, if_neg hmodule, hchild]
  show block.namedChildren.find? (!·.isComment) = some stmt
  rw [namedChildren, List.find?_filter, hfirst]
  congr 1
  funext n
  simp

theorem Grafted.exists_receives (h : Grafted s s' moved d stmt gone kept n n')
    (hdef : d.isDefinition) (htidy : Tidy n'.preorder) (hnamed : stmt.isNamed)
    (hcomment : ¬stmt.isComment) (hdefs : ∀ e ∈ stmt.preorder, ¬e.isDefinition) :
    ∃ d' ∈ n'.preorder, Receives s s' moved d stmt d' := by
  induction h with
  | @body d' block block' front front' back back' kept' hkind _ hstart hchildren hchildren' hfront
      hback hnone hbody hbody' _ hblock' hparts hparts' hkept =>
      have hmodule : d'.kind ≠ .module := by
        intro hmodule
        rw [hkind] at hmodule
        simp [isDefinition, hmodule] at hdef
      exact ⟨d', by simp, {
        kind := hkind
        start := hstart
        name := fun m => exists_child hchildren hchildren' hfront hback (by simp) hbody hbody'
        first := firstStatement?_of_bound hmodule (child?_body hchildren' hfront hnone hbody')
          hparts' hnamed hcomment
        definitions := fun e' => exists_definition_of_inner hchildren hchildren' hfront hback hblock'
          hparts hparts' hkept htidy hdefs }⟩
  | child _ _ _ _ hchildren' _ _ _ ih =>
      obtain ⟨d', hd', hreceives⟩ := ih fun c hc => htidy c (preorder_of_bound hchildren' c hc)
      exact ⟨d', preorder_of_bound hchildren' d' hd', hreceives⟩

end DocstringEditor.Analysis
