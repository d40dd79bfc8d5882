import DocstringEditor.Proofs.Analysis.ScopeTable

namespace DocstringEditor.Syntax.Node

def at? : Node → List Nat → Option Node
  | n, [] => some n
  | n, i :: path => n.children[i]?.bind (at? · path)

theorem at?_cons {n d : Node} {i : Nat} {path : List Nat} :
    n.at? (i :: path) = some d ↔ ∃ m, n.children[i]? = some m ∧ m.at? path = some d :=
  Option.bind_eq_some_iff

mutual
/-- The definitions of a tree with their paths, parents first, where the tree has a path itself. -/
def placed (path : List Nat) : Node → List (List Nat × Node)
  | mk k r b e cs =>
    if (mk k r b e cs).isDefinition then (path, mk k r b e cs) :: placedAll path 0 cs
    else placedAll path 0 cs

def placedAll (path : List Nat) (i : Nat) : Forest → List (List Nat × Node)
  | [] => []
  | n :: ns => placed (path ++ [i]) n ++ placedAll path (i + 1) ns
end

theorem mem_placed :
    (∀ (n : Node) path p d, (p, d) ∈ placed path n ↔
      ∃ q, p = path ++ q ∧ n.at? q = some d ∧ d.isDefinition) ∧
    ∀ (ns : Forest) path i p d, (p, d) ∈ placedAll path i ns ↔
      ∃ j q n, p = path ++ (i + j) :: q ∧ ns[j]? = some n ∧ n.at? q = some d ∧
        d.isDefinition := by
  apply Node.induction
  case mk =>
    intro k r b e cs ih path p d
    set n := Node.mk k r b e cs with hn
    have hbelow : (p, d) ∈ placedAll path 0 cs ↔
        ∃ i q, p = path ++ i :: q ∧ n.at? (i :: q) = some d ∧ d.isDefinition := by
      simp only [ih, at?_cons, Nat.zero_add]
      constructor
      · rintro ⟨i, q, m, hp, hm, hq, hd⟩
        exact ⟨i, q, hp, ⟨m, hm, hq⟩, hd⟩
      · rintro ⟨i, q, hp, ⟨m, hm, hq⟩, hd⟩
        exact ⟨i, q, m, hp, hm, hq, hd⟩
    have hself : (p, d) = (path, n) ↔ p = path ++ [] ∧ n.at? [] = some d := by
      rw [List.append_nil, Prod.mk.injEq, at?, Option.some.injEq, eq_comm (a := d)]
    rw [hn, placed, ← hn]
    constructor
    · intro h
      split at h
      · rename_i hdef
        rcases List.mem_cons.1 h with h | h
        · obtain ⟨hp, hd⟩ := hself.1 h
          exact ⟨[], hp, hd, (Prod.mk.inj h).2 ▸ hdef⟩
        · obtain ⟨i, q, h⟩ := hbelow.1 h
          exact ⟨i :: q, h⟩
      · obtain ⟨i, q, h⟩ := hbelow.1 h
        exact ⟨i :: q, h⟩
    · rintro ⟨q, hp, hq, hd⟩
      cases q with
      | nil =>
          have h := hself.2 ⟨hp, hq⟩
          rw [← (Prod.mk.inj h).2, if_pos hd]
          exact List.mem_cons.2 (.inl (by rw [(Prod.mk.inj h).1]))
      | cons i q =>
          have h := hbelow.2 ⟨i, q, hp, hq, hd⟩
          split
          · exact List.mem_cons_of_mem _ h
          · exact h
  case nil => simp [placedAll]
  case cons =>
    intro n ns ihn ihns path i p d
    rw [placedAll, List.mem_append, ihn, ihns]
    constructor
    · rintro (⟨q, hp, hq, hd⟩ | ⟨j, q, m, hp, hm, hq, hd⟩)
      · exact ⟨0, q, n, by simpa using hp, rfl, hq, hd⟩
      · exact ⟨j + 1, q, m, by rw [hp, Nat.add_right_comm]; rfl, hm, hq, hd⟩
    · rintro ⟨j, q, m, hp, hm, hq, hd⟩
      cases j with
      | zero =>
          obtain rfl : n = m := by simpa using hm
          exact .inl ⟨q, by simpa using hp, hq, hd⟩
      | succ j => exact .inr ⟨j, q, m, by rw [hp, Nat.add_right_comm]; rfl, hm, hq, hd⟩

theorem prefix_of_placed {n d : Node} {path p : List Nat} (h : (p, d) ∈ placed path n) :
    path <+: p := by
  obtain ⟨q, rfl, -⟩ := (mem_placed.1 n path p d).1 h
  exact List.prefix_append path q

theorem exists_of_placedAll {ns : Forest} {d : Node} {path p : List Nat} {i : Nat}
    (h : (p, d) ∈ placedAll path i ns) : ∃ j q, i ≤ j ∧ p = path ++ j :: q := by
  obtain ⟨j, q, -, rfl, -⟩ := (mem_placed.2 ns path i p d).1 h
  exact ⟨i + j, q, Nat.le_add_right i j, rfl⟩

/-- What is placed in one tree and in a later one has paths of which none starts the other. -/
theorem apart_of_placed {n d d' : Node} {ns : Forest} {path p q : List Nat} {i : Nat}
    (hp : (p, d) ∈ placed (path ++ [i]) n) (hq : (q, d') ∈ placedAll path (i + 1) ns) :
    p < q ∧ ¬p <+: q ∧ ¬q <+: p := by
  obtain ⟨p, rfl⟩ := prefix_of_placed hp
  obtain ⟨j, q, hij, rfl⟩ := exists_of_placedAll hq
  rw [List.append_assoc, List.singleton_append, List.prefix_append_right_inj,
    List.prefix_append_right_inj, List.cons_prefix_cons, List.cons_prefix_cons]
  exact ⟨List.append_left_lt (List.cons_lt_cons_iff.2 (.inl hij)), by omega, by omega⟩

theorem placed_pairwise :
    (∀ (n : Node) path, ((placed path n).map (·.1)).Pairwise (· < ·)) ∧
    ∀ (ns : Forest) path i, ((placedAll path i ns).map (·.1)).Pairwise (· < ·) := by
  apply Node.induction
  case mk =>
    intro k r b e cs ih path
    rw [placed]
    split
    · refine List.pairwise_cons.2 ⟨fun p hp => ?_, ih path 0⟩
      obtain ⟨⟨p, d⟩, hpd, rfl⟩ := List.mem_map.1 hp
      obtain ⟨j, q, -, rfl⟩ := exists_of_placedAll hpd
      have hlt : path ++ [] < path ++ j :: q := List.append_left_lt (List.nil_lt_cons j q)
      simpa using hlt
    · exact ih path 0
  case nil => simp [placedAll]
  case cons =>
    intro n ns ihn ihns path i
    rw [placedAll, List.map_append]
    refine List.pairwise_append.2 ⟨ihn _, ihns _ _, fun p hp q hq => ?_⟩
    obtain ⟨⟨p, d⟩, hpd, rfl⟩ := List.mem_map.1 hp
    obtain ⟨⟨q, e⟩, hqe, rfl⟩ := List.mem_map.1 hq
    exact (apart_of_placed hpd hqe).1

theorem exists_module (n : Node) : ∃ m : Node, m.kind = .module ∧
    m.firstStatement? = n.firstStatement? := by
  by_cases hk : n.kind = .module
  · exact ⟨n, hk, rfl⟩
  · have hbody : n.firstStatement? =
        (n.child? .body).bind fun body => body.namedChildren.find? (!·.isComment) := by
      rw [firstStatement?, if_neg hk]
      rfl
    rw [hbody]
    cases n.child? .body with
    | none => exact ⟨mk .module none .origin .origin [], rfl, rfl⟩
    | some body => exact ⟨mk .module none .origin .origin body.children, rfl, rfl⟩

end DocstringEditor.Syntax.Node

namespace DocstringEditor.Analysis.Symbols

open Syntax Syntax.Node

/-- Whether `p'` is the index of the longest of several paths that goes on to `p`, or `parent` where
none does. The paths are counted from `next`. -/
def Inmost (ps : List (List Nat)) (parent next p' : Nat) (p : List Nat) : Prop :=
  (p' = parent ∧ ∀ q ∈ ps, q <+: p → q = p) ∨
  ∃ (j : Nat) (q : List Nat), ps[j]? = some q ∧ p' = next + j ∧ q <+: p ∧ q ≠ p ∧
    ∀ r ∈ ps, r <+: p → r ≠ p → r <+: q

namespace Inmost

variable {ps ps' : List (List Nat)} {parent next p' : Nat} {p path : List Nat}

theorem append_left (h : Inmost ps parent next p' p) (hps : ∀ q ∈ ps', ¬q <+: p) :
    Inmost (ps ++ ps') parent next p' p := by
  rcases h with ⟨rfl, hnone⟩ | ⟨j, q, hj, rfl, hqp, hne, hlongest⟩
  · refine .inl ⟨rfl, fun q hq hqp => ?_⟩
    rcases List.mem_append.1 hq with hq | hq
    · exact hnone q hq hqp
    · exact absurd hqp (hps q hq)
  · have hjlt := (List.getElem?_eq_some_iff.1 hj).1
    refine .inr ⟨j, q, by rwa [List.getElem?_append_left hjlt], rfl, hqp, hne, fun r hr hrp => ?_⟩
    rcases List.mem_append.1 hr with hr | hr
    · exact hlongest r hr hrp
    · exact absurd hrp (hps r hr)

theorem append_right (h : Inmost ps' parent (next + ps.length) p' p)
    (hps : ∀ q ∈ ps, ¬q <+: p) : Inmost (ps ++ ps') parent next p' p := by
  rcases h with ⟨rfl, hnone⟩ | ⟨j, q, hj, rfl, hqp, hne, hlongest⟩
  · refine .inl ⟨rfl, fun q hq hqp => ?_⟩
    rcases List.mem_append.1 hq with hq | hq
    · exact absurd hqp (hps q hq)
    · exact hnone q hq hqp
  · refine .inr ⟨ps.length + j, q, ?_, by omega, hqp, hne, fun r hr hrp => ?_⟩
    · rw [List.getElem?_append_right (by omega), Nat.add_sub_cancel_left, hj]
    · rcases List.mem_append.1 hr with hr | hr
      · exact absurd hrp (hps r hr)
      · exact hlongest r hr hrp

/-- The path that all others go on from is next to those that no other one goes on to. -/
theorem cons (h : Inmost ps next (next + 1) p' p) (hp : path <+: p) (hne : path ≠ p)
    (hps : ∀ q ∈ ps, path <+: q) : Inmost (path :: ps) parent next p' p := by
  right
  rcases h with ⟨rfl, hnone⟩ | ⟨j, q, hj, rfl, hqp, hqne, hlongest⟩
  · refine ⟨0, path, rfl, rfl, hp, hne, fun r hr hrp hrne => ?_⟩
    rcases List.mem_cons.1 hr with rfl | hr
    · exact List.prefix_refl r
    · exact absurd (hnone r hr hrp) hrne
  · refine ⟨j + 1, q, hj, by omega, hqp, hqne, fun r hr hrp hrne => ?_⟩
    rcases List.mem_cons.1 hr with rfl | hr
    · exact hps q (List.mem_of_getElem? hj)
    · exact hlongest r hr hrp hrne

end Inmost

theorem outline_placed :
    (∀ (n : Node) parent next path,
      (outline parent next n).map (·.2) = (placed path n).map (·.2)) ∧
    ∀ (ns : Forest) parent next path i,
      (outlineAll parent next ns).map (·.2) = (placedAll path i ns).map (·.2) := by
  apply Node.induction
  case mk =>
    intro k r b e cs ih parent next path
    rw [outline, placed]
    split
    · rw [List.map_cons, List.map_cons, ih]
    · exact ih _ _ _ _
  case nil => simp [outlineAll, placedAll]
  case cons =>
    intro n ns ihn ihns parent next path i
    rw [outlineAll, placedAll, List.map_append, List.map_append, ihn parent next (path ++ [i]),
      ihns _ _ path (i + 1)]

/-- The parent of an entry is the nearest one that the path to it comes through. -/
theorem outline_inmost :
    (∀ (n : Node) parent next path (i p' : Nat) (m : Node) p d,
      (outline parent next n)[i]? = some (some p', m) → (placed path n)[i]? = some (p, d) →
      Inmost ((placed path n).map (·.1)) parent next p' p) ∧
    ∀ (ns : Forest) parent next path k (i p' : Nat) (m : Node) p d,
      (outlineAll parent next ns)[i]? = some (some p', m) →
      (placedAll path k ns)[i]? = some (p, d) →
      Inmost ((placedAll path k ns).map (·.1)) parent next p' p := by
  apply Node.induction
  case mk =>
    intro k r b e cs ih parent next path i p' m p d hi hp
    rw [outline] at hi
    rw [placed] at hp ⊢
    split at hi
    case isFalse hdef =>
      rw [if_neg hdef] at hp ⊢
      exact ih _ _ _ _ _ _ _ _ _ hi hp
    case isTrue hdef =>
      rw [if_pos hdef] at hp ⊢
      have hbelow : ∀ q ∈ (placedAll path 0 cs).map (·.1), path <+: q ∧ path ≠ q := by
        intro q hq
        obtain ⟨⟨q, c⟩, hqc, rfl⟩ := List.mem_map.1 hq
        obtain ⟨j, q, -, rfl⟩ := exists_of_placedAll hqc
        simp
      cases i with
      | zero =>
          obtain ⟨rfl, -⟩ : parent = p' ∧ _ = m := by simpa using hi
          obtain ⟨rfl, -⟩ : path = p ∧ _ = d := by simpa using hp
          refine .inl ⟨rfl, fun q hq hqp => ?_⟩
          rcases List.mem_cons.1 hq with rfl | hq
          · rfl
          · exact hqp.eq_of_length_le (hbelow q hq).1.length_le
      | succ i =>
          have hmem : p ∈ (placedAll path 0 cs).map (·.1) :=
            List.mem_map.2 ⟨(p, d), List.mem_of_getElem? hp, rfl⟩
          exact (ih _ _ _ _ _ _ _ _ _ hi hp).cons (hbelow p hmem).1 (hbelow p hmem).2
            fun q hq => (hbelow q hq).1
  case nil => simp [outlineAll]
  case cons =>
    intro n ns ihn ihns parent next path k i p' m p d hi hp
    rw [outlineAll] at hi
    rw [placedAll] at hp ⊢
    rw [List.map_append]
    have hlength : (outline parent next n).length = (placed (path ++ [k]) n).length := by
      simpa using congrArg List.length (outline_placed.1 n parent next (path ++ [k]))
    rcases Nat.lt_or_ge i (outline parent next n).length with hlt | hge
    · rw [List.getElem?_append_left hlt] at hi
      rw [List.getElem?_append_left (hlength ▸ hlt)] at hp
      refine (ihn _ _ _ _ _ _ _ _ hi hp).append_left fun q hq => ?_
      obtain ⟨⟨q, c⟩, hqc, rfl⟩ := List.mem_map.1 hq
      exact (apart_of_placed (List.mem_of_getElem? hp) hqc).2.2
    · rw [List.getElem?_append_right hge] at hi
      rw [List.getElem?_append_right (hlength ▸ hge), ← hlength] at hp
      have hnearest := ihns _ _ _ _ _ _ _ _ _ hi hp
      refine Inmost.append_right (by simpa [← hlength] using hnearest) fun q hq => ?_
      obtain ⟨⟨q, c⟩, hqc, rfl⟩ := List.mem_map.1 hq
      exact (apart_of_placed hqc (List.mem_of_getElem? hp)).2.1

/-- What a table says about a tree, where several paths go down to the definitions. The first scope
is that of the module. -/
structure Tabulates (s : Source) (table : ScopeTable) (ps : List (List Nat)) : Prop where
  size : table.size = ps.length
  root : ∃ scope, table[0]? = some scope ∧ scope.kind = .module ∧ scope.parent = none
  definition : ∀ i p, ps[i + 1]? = some p → ∃ scope d, table[i + 1]? = some scope ∧
    s.root.at? p = some d ∧ Describes s scope d
  parent : ∀ (i : Nat) p scope, ps[i + 1]? = some p → table[i + 1]? = some scope →
    ∃ (j : Nat) (q : List Nat), scope.parent = some j ∧ j < i + 1 ∧ ps[j]? = some q ∧ q <+: p ∧
      q ≠ p ∧ ∀ r ∈ ps, r <+: p → r ≠ p → r <+: q
  children : ∀ (i : Nat) (scope : Scope), table[i]? = some scope →
    scope.children.Pairwise (· < ·) ∧ ∀ c, c ∈ scope.children ↔
      ∃ child : Scope, table[c]? = some child ∧ child.parent = some i

variable {s : Source} {table : ScopeTable} {cursor : DocumentPosition}

namespace Linked

variable {es : List Entry} (h : Linked s table es)
include h

theorem exists_entry {i : Nat} {scope : Scope} (hi : table[i]? = some scope) :
    ∃ n, es[i]? = some (scope.parent, n) ∧ scope.children = childrenOf es i := by
  obtain ⟨hlt, -⟩ := Array.getElem?_eq_some_iff.1 hi
  rw [h.size] at hlt
  have he := List.getElem?_eq_getElem hlt
  obtain ⟨scope', hscope, hparent, hchildren, -⟩ := h.scope i _ _ he
  obtain rfl : scope = scope' := Option.some.inj (hi.symm.trans hscope)
  exact ⟨es[i].2, by rw [he, hparent]; rfl, hchildren⟩

theorem children_eq {i : Nat} {scope : Scope} (hi : table[i]? = some scope) :
    scope.children.Pairwise (· < ·) ∧
      ∀ c, c ∈ scope.children ↔
        ∃ child : Scope, table[c]? = some child ∧ child.parent = some i := by
  obtain ⟨-, -, hchildren⟩ := h.exists_entry hi
  rw [hchildren]
  refine ⟨List.pairwise_lt_range.filter _, fun c => mem_childrenOf.trans ⟨?_, ?_⟩⟩
  · rintro ⟨n, hn⟩
    obtain ⟨child, hchild, hparent, -⟩ := h.scope c _ _ hn
    exact ⟨child, hchild, hparent⟩
  · rintro ⟨child, hchild, hparent⟩
    obtain ⟨n, hn, -⟩ := h.exists_entry hchild
    exact ⟨n, hparent ▸ hn⟩

end Linked

theorem build_tabulates (h : build s = .ok table) :
    Tabulates s table ([] :: (placedAll [] 0 s.root.children).map (·.1)) := by
  obtain ⟨m, hm, hstatement⟩ := exists_module s.root
  have hl := build_linked_of hm (by simp only [Source.docstringRange?, hstatement]) h
  set ds := placedAll [] 0 s.root.children with hds
  have hnodes : (outlineAll 0 1 s.root.children).map (·.2) = ds.map (·.2) :=
    outline_placed.2 _ _ _ _ _
  have hentry {i : Nat} {p : List Nat} (hi : (ds.map (·.1))[i]? = some p) : ∃ d p',
      ds[i]? = some (p, d) ∧ (outlineAll 0 1 s.root.children)[i]? = some (some p', d) := by
    rw [List.getElem?_map] at hi
    obtain ⟨⟨q, d⟩, hd, rfl⟩ := Option.map_eq_some_iff.1 hi
    have hnode : ((outlineAll 0 1 s.root.children).map (·.2))[i]? = some d := by
      rw [hnodes, List.getElem?_map, hd]
      rfl
    rw [List.getElem?_map] at hnode
    obtain ⟨⟨parent, d'⟩, he, rfl⟩ := Option.map_eq_some_iff.1 hnode
    obtain ⟨p', rfl⟩ :=
      Option.isSome_iff_exists.1 (outline_parent.2 _ _ _ _ (List.mem_of_getElem? he))
    exact ⟨_, p', hd, he⟩
  constructor
  case size =>
    have hlength := congrArg List.length hnodes
    simp only [List.length_map] at hlength
    rw [hl.size, List.length_cons, List.length_cons, List.length_map, hlength]
  case root =>
    obtain ⟨scope, hscope, hparent, -, hd⟩ := hl.scope 0 none m rfl
    have hkind := hd.kind
    rw [definitionKind?, hm] at hkind
    exact ⟨scope, hscope, (Option.some.inj hkind).symm, hparent⟩
  case definition =>
    intro i p hi
    obtain ⟨d, p', hd, he⟩ := hentry hi
    obtain ⟨scope, hscope, -, -, hdescribes⟩ := hl.scope (i + 1) (some p') d he
    obtain ⟨j, q, n, rfl, hj, hq, -⟩ := (mem_placed.2 _ _ _ _ _).1 (List.mem_of_getElem? hd)
    refine ⟨scope, d, hscope, at?_cons.2 ⟨n, ?_, hq⟩, hdescribes⟩
    rwa [Nat.zero_add]
  case parent =>
    intro i p scope hi hscope
    obtain ⟨d, p', hd, he⟩ := hentry hi
    obtain ⟨n, hentry', -⟩ := hl.exists_entry hscope
    obtain ⟨hparent, rfl⟩ := Prod.mk.inj (Option.some.inj (hentry'.symm.trans he))
    have hp : p ∈ ds.map (·.1) := List.mem_of_getElem? hi
    have hne : [] ≠ p := by
      obtain ⟨⟨q, d⟩, hqd, rfl⟩ := List.mem_map.1 hp
      obtain ⟨j, q, -, rfl⟩ := exists_of_placedAll hqd
      simp
    have hnearest : Inmost ([] :: ds.map (·.1)) 0 0 p' p :=
      (outline_inmost.2 _ _ _ _ _ _ _ _ _ _ he hd).cons List.nil_prefix hne
        fun _ _ => List.nil_prefix
    have hlt := hl.earlier (i + 1) p' n he
    rcases hnearest with ⟨-, hnone⟩ | ⟨j, q, hj, rfl, hqp, hqne, hlongest⟩
    · exact absurd (hnone [] (List.mem_cons_self ..) List.nil_prefix) hne
    · rw [Nat.zero_add] at hparent hlt
      exact ⟨j, q, hparent, hlt, hj, hqp, hqne, hlongest⟩
  case children => exact fun i scope hi => hl.children_eq hi

/-- The way down from one scope to another, each the first child that contains the cursor. -/
inductive Descends (table : ScopeTable) (cursor : DocumentPosition) : Nat → Nat → Prop
  | stay {i : Nat} {scope : Scope} (hscope : table[i]? = some scope)
      (hout : containing? table cursor scope.children = .ok none) : Descends table cursor i i
  | down {i c j : Nat} {scope : Scope} (hscope : table[i]? = some scope)
      (hin : containing? table cursor scope.children = .ok (some c))
      (hdown : Descends table cursor c j) : Descends table cursor i j

inductive Ascends (table : ScopeTable) (kind : EntityKind) : Option Nat → Option Nat → Prop
  | past : Ascends table kind none none
  | found {i : Nat} {scope : Scope} (hscope : table[i]? = some scope)
      (hkind : scope.kind = kind) : Ascends table kind (some i) (some i)
  | up {i : Nat} {r : Option Nat} {scope : Scope} (hscope : table[i]? = some scope)
      (hkind : scope.kind ≠ kind) (hup : Ascends table kind scope.parent r) :
      Ascends table kind (some i) r

theorem containing?_isOk (cursor : DocumentPosition) {cs : List Nat}
    (hcs : ∀ c ∈ cs, c < table.size) :
    containing? table cursor cs = .ok none ∨
      ∃ c ∈ cs, containing? table cursor cs = .ok (some c) := by
  induction cs with
  | nil => exact .inl rfl
  | cons c cs ih =>
      have hlt := hcs c (List.mem_cons_self ..)
      have hc := Array.getElem?_eq_getElem hlt
      by_cases hwithin : cursorWithin table[c].range.start table[c].range.stop cursor
      · exact .inr ⟨c, List.mem_cons_self .., by simp [containing?, scopeAt, hc, hwithin]⟩
      · have hskip : containing? table cursor (c :: cs) = containing? table cursor cs := by
          simp [containing?, scopeAt, hc, hwithin]
        rw [hskip]
        exact (ih fun d hd => hcs d (List.mem_cons_of_mem _ hd)).imp_right
          fun ⟨d, hd, hfound⟩ => ⟨d, List.mem_cons_of_mem _ hd, hfound⟩

namespace Tabulates

variable {ps : List (List Nat)} {scope : Scope} {i j : Nat} (h : Tabulates s table ps)
include h

theorem parent_lt (hi : table[i]? = some scope) (hj : scope.parent = some j) : j < i := by
  cases i with
  | zero =>
      obtain ⟨root, hroot, -, hparent⟩ := h.root
      obtain rfl : root = scope := Option.some.inj (hroot.symm.trans hi)
      exact absurd (hparent.symm.trans hj) (by simp)
  | succ i =>
      have hlt := (Array.getElem?_eq_some_iff.1 hi).1
      rw [h.size] at hlt
      obtain ⟨j', q, hj', hlt, -⟩ := h.parent i _ scope (List.getElem?_eq_getElem hlt) hi
      obtain rfl : j' = j := Option.some.inj (hj'.symm.trans hj)
      exact hlt

theorem lt_child (hi : table[i]? = some scope) (hj : j ∈ scope.children) :
    i < j ∧ j < table.size := by
  obtain ⟨child, hchild, hparent⟩ := ((h.children i scope hi).2 j).1 hj
  exact ⟨h.parent_lt hchild hparent, (Array.getElem?_eq_some_iff.1 hchild).1⟩

/-- Each step down is to a later scope, so as many steps as there are later scopes will do. -/
theorem descend_isOk (cursor : DocumentPosition) {steps : Nat} (hi : i < table.size)
    (hsteps : table.size ≤ i + steps) :
    ∃ j, j < table.size ∧ Descends table cursor i j ∧ descend table cursor steps i = .ok j := by
  induction steps generalizing i with
  | zero => omega
  | succ steps ih =>
      have hscope := Array.getElem?_eq_getElem hi
      rcases containing?_isOk cursor fun c hc => (h.lt_child hscope hc).2 with
        hout | ⟨c, hc, hin⟩
      · exact ⟨i, hi, .stay hscope hout, by simp [descend, scopeAt, hscope, hout]⟩
      · obtain ⟨hlt, hcsize⟩ := h.lt_child hscope hc
        obtain ⟨j, hj, hdown, hsteps⟩ := ih hcsize (by omega)
        exact ⟨j, hj, .down hscope hin hdown, by simp [descend, scopeAt, hscope, hin, hsteps]⟩

theorem ascend_isOk (kind : EntityKind) {steps : Nat} (hi : i < table.size) (hsteps : i < steps) :
    ∃ r, Ascends table kind (some i) r ∧ ascend table kind steps (some i) = .ok r := by
  induction steps generalizing i with
  | zero => omega
  | succ steps ih =>
      have hscope := Array.getElem?_eq_getElem hi
      by_cases hkind : table[i].kind = kind
      · exact ⟨some i, .found hscope hkind, by simp [ascend, scopeAt, hscope, hkind]⟩
      · have hskip : ascend table kind (steps + 1) (some i) =
            ascend table kind steps table[i].parent := by
          simp [ascend, scopeAt, hscope, hkind]
        cases hparent : table[i].parent with
        | none =>
            have hend : ascend table kind steps none = .ok none := by cases steps <;> rfl
            refine ⟨none, .up hscope hkind ?_, by rw [hskip, hparent, hend]⟩
            rw [hparent]
            exact .past
        | some p =>
            have hp := h.parent_lt hscope hparent
            obtain ⟨r, hup, hr⟩ := ih (i := p) (by omega) (by omega)
            refine ⟨r, .up hscope hkind ?_, by rw [hskip, hparent, hr]⟩
            rwa [hparent]

theorem enclosing_isOk (cursor : DocumentPosition) : ∃ i, i < table.size ∧
    Descends table cursor 0 i ∧ innermost table cursor = .ok i ∧
    ∀ kind, ∃ r, Ascends table kind (some i) r ∧ enclosing table cursor kind = .ok r := by
  obtain ⟨root, hroot, -⟩ := h.root
  have hpos := (Array.getElem?_eq_some_iff.1 hroot).1
  obtain ⟨i, hi, hdown, hinner⟩ := h.descend_isOk cursor hpos (Nat.le_add_left table.size 0)
  refine ⟨i, hi, hdown, hinner, fun kind => ?_⟩
  obtain ⟨r, hup, hr⟩ := h.ascend_isOk kind hi hi
  exact ⟨r, hup, by simp [enclosing, innermost, hinner, hr]⟩

end Tabulates

/-- Whenever a table is built, its scopes are the module's and, in preorder, those of the
definitions, each linked both ways with the nearest one around it, and from any cursor the ways down
and up end at scopes of the table. -/
theorem build_scopes (h : build s = .ok table) :
    (∃ ps : List (List Nat), ps.Pairwise (· < ·) ∧
      (∀ p, p ∈ ps ↔ p ≠ [] ∧ ∃ d, s.root.at? p = some d ∧ d.isDefinition) ∧
      Tabulates s table ([] :: ps)) ∧
    ∀ cursor, ∃ i, i < table.size ∧ Descends table cursor 0 i ∧ innermost table cursor = .ok i ∧
      ∀ kind, ∃ r, Ascends table kind (some i) r ∧ enclosing table cursor kind = .ok r := by
  have ht := build_tabulates h
  refine ⟨⟨_, placed_pairwise.2 _ _ _, fun p => ?_, ht⟩, ht.enclosing_isOk⟩
  rw [List.mem_map]
  constructor
  · rintro ⟨⟨p, d⟩, hp, rfl⟩
    obtain ⟨j, q, n, rfl, hj, hq, hd⟩ := (mem_placed.2 _ _ _ _ _).1 hp
    exact ⟨by simp, d, at?_cons.2 ⟨n, by rwa [Nat.zero_add], hq⟩, hd⟩
  · rintro ⟨hne, d, hp, hd⟩
    obtain ⟨i, q, rfl⟩ := List.exists_cons_of_ne_nil hne
    obtain ⟨n, hi, hq⟩ := at?_cons.1 hp
    exact ⟨(i :: q, d), (mem_placed.2 _ _ _ _ _).2 ⟨i, q, n, by simp, hi, hq, hd⟩, rfl⟩

/-- A class with two methods, in the second of which there is a function. -/
theorem build_scopes_nested : ∃ root table,
    Node.ofText? "class A:\n\tdef f(self): 0\n\tdef g(self):\n\t\tdef h(): 0".toList = some root ∧
    let s := Source.ofTree
      "class A:\n\tdef f(self): 0\n\tdef g(self):\n\t\tdef h(): 0".toList root
    build s = .ok table ∧
    (∃ ps : List (List Nat), ps.Pairwise (· < ·) ∧
      (∀ p, p ∈ ps ↔ p ≠ [] ∧ ∃ d, s.root.at? p = some d ∧ d.isDefinition) ∧
      Tabulates s table ([] :: ps)) ∧
    ∀ cursor, ∃ i, i < table.size ∧ Descends table cursor 0 i ∧ innermost table cursor = .ok i ∧
      ∀ kind, ∃ r, Ascends table kind (some i) r ∧ enclosing table cursor kind = .ok r := by
  have hbuilt : (Node.ofText?
      "class A:\n\tdef f(self): 0\n\tdef g(self):\n\t\tdef h(): 0".toList).any (fun root =>
        (build (.ofTree
          "class A:\n\tdef f(self): 0\n\tdef g(self):\n\t\tdef h(): 0".toList root)).isOk) := by
    decide +kernel
  obtain ⟨root, hroot, hbuilt⟩ := (Option.any_eq_true _ _).1 hbuilt
  obtain ⟨table, htable⟩ := exists_eq_ok hbuilt
  exact ⟨root, table, hroot, htable, build_scopes htable⟩

end DocstringEditor.Analysis.Symbols
