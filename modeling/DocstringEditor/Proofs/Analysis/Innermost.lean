import DocstringEditor.Proofs.Analysis.ScopeTable
import DocstringEditor.Proofs.Syntax.Module

namespace DocstringEditor.Analysis

open Syntax Syntax.Node Symbols

/-- The nodes that have a scope, in the order of the scopes. -/
def scopeNodes (root : Node) : List Node := root :: root.inner.filter isDefinition

/-- Whether a definition with a property contains a cursor, and all others that do are around it. -/
def Deepest (cursor : DocumentPosition) (root : Node) (p : Node → Prop) (n : Node) : Prop :=
  (n ∈ root.inner ∧ n.isDefinition ∧ n.contains cursor ∧ p n) ∧
    ∀ d ∈ root.inner, d.isDefinition → d.contains cursor → p d → d = n ∨ n ∈ d.inner

def Outside (cursor : DocumentPosition) (root : Node) (p : Node → Prop) : Prop :=
  ∀ d ∈ root.inner, d.isDefinition → d.contains cursor → ¬p d

theorem rangeOf_eq {root n : Node} (h : root.Regular) (hn : n ∈ root.inner) :
    Source.rangeOf n = ⟨.ofLocation n.start, .ofLocation n.logicalEnd⟩ := by
  have hroot : n ∈ root.preorder := mem_preorder.2 (.inr hn)
  have hb := within_bounds.1 root h.nested n hn
  have hle : n.start ≤ n.logicalEnd := by
    refine (h.ordered _ (start_mem_places hroot) _ (h.logicalEnd_mem_places hroot)).1 ?_
    exact (logicalEnd_bounds.1 n (h.nested_of_mem hroot) hb.2.1).1
  have hline := (h.fits_start hroot).line
  have hcharacter := (h.fits_start hroot).character
  have hline' := (h.fits_logicalEnd hroot).line
  have hcharacter' := (h.fits_logicalEnd hroot).character
  have hlt : ¬(Position.ofLocation n.logicalEnd < Position.ofLocation n.start) := by
    rintro (hlt | ⟨heq, hlt⟩)
    · rw [UInt32.lt_iff_toNat_lt] at hlt
      rw [Location.le_def] at hle
      omega
    · rw [UInt32.lt_iff_toNat_lt] at hlt
      rw [← UInt32.toNat_inj] at heq
      rw [Location.le_def] at hle
      omega
  simp [Source.rangeOf, Range.ofLocations, hlt]

theorem scopeNodes_pairwise {root : Node} (h : root.Regular) :
    (scopeNodes root).Pairwise fun d e => d ≠ e ∧ d ∉ e.inner := by
  refine List.pairwise_cons.2 ⟨fun d hd => ⟨?_, fun hroot => ?_⟩, h.definitions_pairwise⟩
  · rintro rfl
    exact not_mem_inner_self _ (List.mem_filter.1 hd).1
  · exact not_mem_inner_self _ (inner_trans (List.mem_filter.1 hd).1 hroot)

/-- The entry at an index, if it is of the module or contains the cursor. -/
def Reached (cursor : DocumentPosition) (root : Node) (i : Nat) (n : Node) : Prop :=
  (scopeNodes root)[i]? = some n ∧ (i = 0 ∨ n.contains cursor)

section Reached

variable {cursor : DocumentPosition} {root : Node}

theorem mem_of_scopeNodes {i : Nat} {n : Node} (h : (scopeNodes root)[i]? = some n) (hi : 0 < i) :
    n ∈ root.inner ∧ n.isDefinition := by
  cases i with
  | zero => omega
  | succ i => exact List.mem_filter.1 (List.mem_of_getElem? (by simpa [scopeNodes] using h))

theorem scopeNodes_of_entries {i : Nat} {p : Option Nat} {n : Node}
    (h : (entries root)[i]? = some (p, n)) : (scopeNodes root)[i]? = some n := by
  have := congrArg (Option.map Prod.snd) h
  rwa [← List.getElem?_map, entries_nodes] at this

theorem entries_of_scopeNodes {i : Nat} {n : Node} (h : (scopeNodes root)[i]? = some n) :
    ∃ p, (entries root)[i]? = some (p, n) := by
  unfold scopeNodes at h
  rw [← entries_nodes, List.getElem?_map] at h
  obtain ⟨⟨p, m⟩, he, rfl⟩ := Option.map_eq_some_iff.1 h
  exact ⟨p, he⟩

theorem Reached.inner_of_lt (h : root.Regular) {i j : Nat} {d e : Node}
    (hd : Reached cursor root i d) (he : Reached cursor root j e) (hij : i < j) :
    e ∈ d.inner := by
  obtain ⟨hein, hedef⟩ := mem_of_scopeNodes he.1 (by omega)
  rcases Nat.eq_zero_or_pos i with rfl | hi
  · obtain rfl : root = d := by simpa [scopeNodes] using hd.1
    exact hein
  · obtain ⟨hdin, hddef⟩ := mem_of_scopeNodes hd.1 hi
    have hde := List.pairwise_iff_getElem.1 (scopeNodes_pairwise h) i j
      (List.getElem?_eq_some_iff.1 hd.1).1 (List.getElem?_eq_some_iff.1 he.1).1 hij
    rw [(List.getElem?_eq_some_iff.1 hd.1).2, (List.getElem?_eq_some_iff.1 he.1).2] at hde
    have hdaround := mem_around.2 ⟨hdin, hddef, hd.2.resolve_left (by omega)⟩
    have hearound := mem_around.2 ⟨hein, hedef, he.2.resolve_left (by omega)⟩
    exact (h.inner_or_inner hdaround hearound hde.1).resolve_left hde.2

/-- What is around the node of a reached scope has a reached scope too, and the parent is the
latest one. -/
theorem Reached.parent (h : root.Regular) {i p : Nat} {n : Node} (hi : Reached cursor root i n)
    (he : (entries root)[i]? = some (some p, n)) :
    (∃ m, Reached cursor root p m) ∧ ∀ q d, Reached cursor root q d → q < i → q ≤ p := by
  have hroot : Reached cursor root 0 root := ⟨rfl, .inl rfl⟩
  cases i with
  | zero => simp [entries] at he
  | succ i =>
      have hin := (mem_of_scopeNodes hi.1 (Nat.succ_pos i)).1
      have hw := h.nested root (by simp)
      have hnear := outline_nearest.2 root.children h.nested.inner h.wide _ _ hw 0 1 i p n
        (by simpa [entries] using he)
      have hcontains := hi.2.resolve_left (Nat.succ_ne_zero i)
      rcases hnear with ⟨rfl, hnone⟩ | ⟨j, e, hj, rfl, hne, hlast⟩
      · refine ⟨⟨root, hroot⟩, fun q d hq hlt => ?_⟩
        by_contra hpos
        obtain ⟨hdin, hddef⟩ := mem_of_scopeNodes hq.1 (by omega)
        exact hnone d hdin hddef (hq.inner_of_lt h hi hlt)
      · obtain ⟨ein, edef⟩ := mem_of_outlineAll hj
        refine ⟨⟨e.2, scopeNodes_of_entries (p := e.1) ?_, .inr ?_⟩, fun q d hq hlt => ?_⟩
        · rw [Nat.add_comm]
          simpa [entries] using hj
        · exact (h.contains_of_inner ein hne (mem_of_scopeNodes hi.1 (Nat.succ_pos i)).2
            hcontains).1
        · cases q with
          | zero => exact Nat.zero_le _
          | succ q =>
              obtain ⟨p', hp'⟩ := entries_of_scopeNodes hq.1
              have := hlast q (p', d) (by simpa [entries] using hp') (hq.inner_of_lt h hi hlt)
              omega

end Reached

section Queries

variable {s : Source} {table : ScopeTable} {cursor : DocumentPosition}
variable (h : s.root.Regular) (hl : Linked s table (entries s.root))
include hl

theorem scopeAt_of_reached {i : Nat} {n : Node} (hi : Reached cursor s.root i n) :
    ∃ scope, scopeAt table i = .ok scope ∧ scope.children = childrenOf (entries s.root) i ∧
      Describes s scope n ∧ (entries s.root)[i]? = some (scope.parent, n) := by
  obtain ⟨p, he⟩ := entries_of_scopeNodes hi.1
  obtain ⟨scope, ht, rfl, hchildren, hd⟩ := hl.scope i p n he
  exact ⟨scope, by simp [scopeAt, ht], hchildren, hd, he⟩

include h

variable (cursor) in
theorem containing?_eq {parent : Nat} {is : List Nat}
    (his : ∀ i ∈ is, ∃ n, (entries s.root)[i]? = some (some parent, n)) :
    (∃ i n, i ∈ is ∧ containing? table cursor is = .ok (some i) ∧ Reached cursor s.root i n) ∨
      containing? table cursor is = .ok none ∧ ∀ i ∈ is, ∀ n, ¬Reached cursor s.root i n := by
  induction is with
  | nil => exact .inr ⟨rfl, by simp⟩
  | cons i is ih =>
      obtain ⟨n, hn⟩ := his i (by simp)
      have hpos : 0 < i := by have := hl.earlier i _ n hn; omega
      have hnode := scopeNodes_of_entries hn
      obtain ⟨hin, hdef⟩ := mem_of_scopeNodes hnode hpos
      obtain ⟨scope, ht, -, -, hd⟩ := hl.scope i _ n hn
      have hscope : scopeAt table i = .ok scope := by simp [scopeAt, ht]
      have hwithin : cursorWithin scope.range.start scope.range.stop cursor =
          n.contains cursor := by
        rw [hd.range hdef, rangeOf_eq h hin, contains]
      cases hc : n.contains cursor with
      | true =>
          refine .inl ⟨i, n, by simp, ?_, hnode, .inr hc⟩
          simp [containing?, hscope, hwithin, hc]
      | false =>
          have hskip : containing? table cursor (i :: is) = containing? table cursor is := by
            simp [containing?, hscope, hwithin, hc]
          rw [hskip]
          rcases ih fun j hj => his j (by simp [hj]) with ⟨j, m, hj, hfound⟩ | ⟨hnone, hout⟩
          · exact .inl ⟨j, m, by simp [hj], hfound⟩
          · refine .inr ⟨hnone, fun j hj m hm => ?_⟩
            rcases List.mem_cons.1 hj with rfl | hj
            · obtain rfl : n = m := Option.some.inj (hnode.symm.trans hm.1)
              have := hm.2.resolve_left (by omega)
              simp [hc] at this
            · exact hout j hj m hm

theorem le_of_no_child {i : Nat} {n : Node} (hi : Reached cursor s.root i n)
    (hout : ∀ j ∈ childrenOf (entries s.root) i, ∀ m, ¬Reached cursor s.root j m) :
    ∀ q d, Reached cursor s.root q d → q ≤ i := by
  intro q
  induction q using Nat.strongRecOn with
  | ind q ih =>
      intro d hq
      by_contra hlt
      obtain ⟨p, he⟩ := entries_of_scopeNodes hq.1
      cases p with
      | none => have := eq_zero_of_entries he; omega
      | some p =>
          have hp := hl.earlier q p d he
          obtain ⟨⟨m, hm⟩, hlast⟩ := hq.parent h he
          have hip := hlast i n hi (by omega)
          have hpi := ih p hp m hm
          obtain rfl : p = i := by omega
          exact hout q (mem_childrenOf.2 ⟨d, he⟩) d hq

theorem descend_eq {steps i : Nat} {n : Node} (hi : Reached cursor s.root i n)
    (hsteps : table.size ≤ i + steps) :
    ∃ j m, descend table cursor steps i = .ok j ∧ Reached cursor s.root j m ∧
      ∀ q d, Reached cursor s.root q d → q ≤ j := by
  induction steps generalizing i n with
  | zero =>
      obtain ⟨p, he⟩ := entries_of_scopeNodes hi.1
      have := (List.getElem?_eq_some_iff.1 he).1
      have := hl.size
      omega
  | succ steps ih =>
      obtain ⟨scope, hscope, hchildren, -, -⟩ := scopeAt_of_reached hl hi
      rcases containing?_eq cursor h hl fun j hj => mem_childrenOf.1 hj with
        ⟨j, m, hj, hfound, hm⟩ | ⟨hnone, hout⟩
      · obtain ⟨m', he⟩ := mem_childrenOf.1 hj
        have hlt := hl.earlier j i m' he
        obtain ⟨r, d, hr, hd⟩ := ih hm (by omega)
        exact ⟨r, d, by simp [descend, hscope, hchildren, hfound, hr], hd⟩
      · exact ⟨i, n, by simp [descend, hscope, hchildren, hnone], hi,
          le_of_no_child h hl hi hout⟩

variable (cursor) in
theorem innermost_reached : ∃ i n, innermost table cursor = .ok i ∧ Reached cursor s.root i n ∧
    ∀ q d, Reached cursor s.root q d → q ≤ i :=
  descend_eq h hl (n := s.root) ⟨rfl, .inl rfl⟩ (by omega)

theorem ascend_eq (kind : EntityKind) {steps i : Nat} {n : Node}
    (hi : Reached cursor s.root i n) (hsteps : i < steps) :
    (∃ j m, ascend table kind steps (some i) = .ok (some j) ∧ Reached cursor s.root j m ∧
      m.definitionKind? = some kind ∧
      ∀ q d, Reached cursor s.root q d → q ≤ i → d.definitionKind? = some kind → q ≤ j) ∨
    ascend table kind steps (some i) = .ok none ∧
      ∀ q d, Reached cursor s.root q d → q ≤ i → d.definitionKind? ≠ some kind := by
  induction steps generalizing i n with
  | zero => omega
  | succ steps ih =>
      obtain ⟨scope, hscope, -, hd, he⟩ := scopeAt_of_reached hl hi
      have hself {q : Nat} {d : Node} (hq : Reached cursor s.root q d) (hqi : q = i) :
          d.definitionKind? = some scope.kind := by
        subst hqi
        obtain rfl : d = n := Option.some.inj (hq.1.symm.trans hi.1)
        exact hd.kind
      by_cases hkind : scope.kind = kind
      · exact .inl ⟨i, n, by simp [ascend, hscope, hkind], hi, hkind ▸ hd.kind,
          fun q d _ hle _ => hle⟩
      · have hup : ascend table kind (steps + 1) (some i) =
            ascend table kind steps scope.parent := by
          simp [ascend, hscope, hkind]
        rw [hup]
        cases hparent : scope.parent with
        | none =>
            rw [hparent] at he
            obtain rfl := eq_zero_of_entries he
            refine .inr ⟨by cases steps <;> rfl, fun q d hq hle hdk => ?_⟩
            rw [hself hq (by omega)] at hdk
            exact hkind (Option.some.inj hdk)
        | some p =>
            rw [hparent] at he
            have hp := hl.earlier i p n he
            obtain ⟨⟨m, hm⟩, hlast⟩ := hi.parent h he
            rcases ih hm (by omega) with ⟨j, m', hj, hj', hk, hmax⟩ | ⟨hnone, hout⟩
            · refine .inl ⟨j, m', hj, hj', hk, fun q d hq hle hdk => ?_⟩
              rcases Nat.lt_or_eq_of_le hle with hlt | hqi
              · exact hmax q d hq (hlast q d hq hlt) hdk
              · rw [hself hq hqi] at hdk
                exact absurd (Option.some.inj hdk) hkind
            · refine .inr ⟨hnone, fun q d hq hle hdk => ?_⟩
              rcases Nat.lt_or_eq_of_le hle with hlt | hqi
              · exact hout q d hq (hlast q d hq hlt) hdk
              · rw [hself hq hqi] at hdk
                exact hkind (Option.some.inj hdk)

end Queries

theorem outside_of_forall {cursor : DocumentPosition} {root : Node} {p : Node → Prop}
    (hout : ∀ q d, 0 < q → Reached cursor root q d → ¬p d) : Outside cursor root p := by
  intro d hd hddef hdc
  obtain ⟨j, hj⟩ := List.mem_iff_getElem?.1 (List.mem_filter.2 ⟨hd, hddef⟩)
  exact hout (j + 1) d (Nat.succ_pos j) ⟨by simpa [scopeNodes] using hj, .inr hdc⟩

theorem getLast?_filter_of_greatest {α : Type} {as : List α} {p : α → Bool} {i : Nat} {a : α}
    (ha : as[i]? = some a) (hp : p a) (hlast : ∀ j b, as[j]? = some b → p b → j ≤ i) :
    (as.filter p).getLast? = some a := by
  obtain ⟨hi, rfl⟩ := List.getElem?_eq_some_iff.1 ha
  have hlater : (as.drop (i + 1)).filter p = [] := by
    refine List.filter_eq_nil_iff.2 fun b hb hpb => ?_
    obtain ⟨j, hj⟩ := List.mem_iff_getElem?.1 hb
    have := hlast _ b (by rwa [List.getElem?_drop] at hj) hpb
    omega
  have hsplit : as.filter p = (as.take i).filter p ++ [as[i]] := by
    conv_lhs => rw [← List.take_append_drop i as, List.drop_eq_getElem_cons hi,
      List.filter_append, List.filter_cons_of_pos hp, hlater]
  rw [hsplit, List.getLast?_concat]

section Stack

variable {cursor : DocumentPosition} {root : Node} (h : root.Regular)
include h

theorem findLast?_eq {kind : EntityKind} (hkind : kind ≠ .module) :
    Structural.findLast? cursor root kind = ((root.inner.filter isDefinition).filter
      fun d => d.contains cursor && d.definitionKind? = some kind).getLast? := by
  have hroot : root.definitionKind? ≠ some kind := by
    simp [definitionKind?, h.module_root, hkind.symm]
  rw [Structural.findLast?, h.visited_root, ← List.getLast?_filter, List.filter_cons_of_neg
    (by simpa using hroot), around, List.filter_filter, List.filter_filter]
  congr 2
  funext d
  grind

theorem Reached.innermost?_eq {i : Nat} {n : Node} (hi : Reached cursor root i n)
    (hlast : ∀ q d, Reached cursor root q d → q ≤ i) :
    Structural.innermost? cursor root = some n := by
  have haround :
      root.around cursor = (root.inner.filter isDefinition).filter (contains cursor) := by
    simp [around, List.filter_filter, Bool.and_comm]
  rw [Structural.innermost?, h.visited_root, haround, List.getLast?_cons]
  cases i with
  | zero =>
      obtain rfl : root = n := by simpa [scopeNodes] using hi.1
      suffices hnone : (root.inner.filter isDefinition).filter (contains cursor) = [] by
        simp [hnone]
      refine List.filter_eq_nil_iff.2 fun d hd hc => ?_
      obtain ⟨j, hj⟩ := List.mem_iff_getElem?.1 hd
      have := hlast (j + 1) d ⟨by simpa [scopeNodes] using hj, .inr hc⟩
      omega
  | succ i =>
      rw [getLast?_filter_of_greatest (i := i) (by simpa [scopeNodes] using hi.1)
        (hi.2.resolve_left (Nat.succ_ne_zero i)), Option.getD_some]
      intro j b hb hc
      have := hlast (j + 1) b ⟨by simpa [scopeNodes] using hb, .inr hc⟩
      omega

theorem Reached.findLast?_eq {kind : EntityKind} (hkind : kind ≠ .module) {i : Nat} {n : Node}
    (hi : Reached cursor root i n) (hn : n.definitionKind? = some kind)
    (hlast : ∀ q d, Reached cursor root q d → d.definitionKind? = some kind → q ≤ i) :
    Structural.findLast? cursor root kind = some n := by
  rw [Analysis.findLast?_eq h hkind]
  cases i with
  | zero =>
      obtain rfl : root = n := by simpa [scopeNodes] using hi.1
      simp [definitionKind?, h.module_root, hkind.symm] at hn
  | succ i =>
      refine getLast?_filter_of_greatest (i := i) (by simpa [scopeNodes] using hi.1) ?_ ?_
      · simp [hi.2.resolve_left (Nat.succ_ne_zero i), hn]
      · intro j b hb hc
        rw [Bool.and_eq_true, decide_eq_true_eq] at hc
        have := hlast (j + 1) b ⟨by simpa [scopeNodes] using hb, .inr hc.1⟩ hc.2
        omega

theorem Reached.deepest {p : Node → Prop} {i : Nat} {n : Node} (hi : Reached cursor root i n)
    (hpos : 0 < i) (hp : p n) (hlast : ∀ q d, Reached cursor root q d → p d → q ≤ i) :
    Deepest cursor root p n := by
  obtain ⟨hin, hdef⟩ := mem_of_scopeNodes hi.1 hpos
  refine ⟨⟨hin, hdef, hi.2.resolve_left (by omega), hp⟩, fun d hd hddef hdc hpd => ?_⟩
  obtain ⟨j, hj⟩ := List.mem_iff_getElem?.1 (List.mem_filter.2 ⟨hd, hddef⟩)
  have hd : Reached cursor root (j + 1) d := ⟨by simpa [scopeNodes] using hj, .inr hdc⟩
  rcases Nat.lt_or_eq_of_le (hlast _ _ hd hpd) with hlt | rfl
  · exact .inr (hd.inner_of_lt h hi hlt)
  · exact .inl (Option.some.inj (hd.1.symm.trans hi.1))

end Stack

def Denotes (s : Source) (table : ScopeTable) (i : Nat) (n : Node) : Prop :=
  (scopeNodes s.root)[i]? = some n ∧ ∃ scope, table[i]? = some scope ∧ Describes s scope n

section Linked

variable {s : Source} {table : ScopeTable} {cursor : DocumentPosition}
variable (h : s.root.Regular) (hl : Linked s table (entries s.root))
include hl

theorem Reached.denotes {i : Nat} {n : Node} (hi : Reached cursor s.root i n) :
    Denotes s table i n := by
  obtain ⟨p, he⟩ := entries_of_scopeNodes hi.1
  obtain ⟨scope, hscope, -, -, hd⟩ := hl.scope i p n he
  exact ⟨hi.1, scope, hscope, hd⟩

include h

/-- The walk and the scope table lead to the deepest definition around a cursor, or to the module
where there is none. -/
theorem innermost_eq (cursor : DocumentPosition) :
    ∃ i n, innermost table cursor = .ok i ∧ Denotes s table i n ∧
      Structural.innermost? cursor s.root = some n ∧
      (Deepest cursor s.root (fun _ => True) n ∨
        n = s.root ∧ Outside cursor s.root fun _ => True) := by
  obtain ⟨i, n, hinner, hi, hlast⟩ := innermost_reached cursor h hl
  refine ⟨i, n, hinner, hi.denotes hl, hi.innermost?_eq h hlast, ?_⟩
  rcases Nat.eq_zero_or_pos i with rfl | hpos
  · obtain rfl : s.root = n := by simpa [scopeNodes] using hi.1
    refine .inr ⟨rfl, outside_of_forall fun q d hq hd => ?_⟩
    have := hlast q d hd
    omega
  · exact .inl (hi.deepest h hpos trivial fun q d hd _ => hlast q d hd)

theorem enclosing_eq (cursor : DocumentPosition) {kind : EntityKind} (hkind : kind ≠ .module) :
    (∃ i n, enclosing table cursor kind = .ok (some i) ∧ Denotes s table i n ∧
      Structural.findLast? cursor s.root kind = some n ∧
      Deepest cursor s.root (·.definitionKind? = some kind) n) ∨
    enclosing table cursor kind = .ok none ∧ Structural.findLast? cursor s.root kind = none ∧
      Outside cursor s.root (·.definitionKind? = some kind) := by
  obtain ⟨i, n, hinner, hi, hlast⟩ := innermost_reached cursor h hl
  have hsize : i < table.size := by
    obtain ⟨p, he⟩ := entries_of_scopeNodes hi.1
    rw [hl.size]
    exact (List.getElem?_eq_some_iff.1 he).1
  have hup : enclosing table cursor kind = ascend table kind table.size (some i) := by
    simp [enclosing, hinner]
  rw [hup]
  rcases ascend_eq h hl kind hi hsize with ⟨j, m, hj, hm, hmk, hmax⟩ | ⟨hnone, hout⟩
  · have hmax (q : Nat) (d : Node) (hd : Reached cursor s.root q d) :=
      hmax q d hd (hlast q d hd)
    have hpos : 0 < j := by
      refine Nat.pos_of_ne_zero fun hzero => ?_
      obtain rfl : s.root = m := by simpa [scopeNodes, hzero] using hm.1
      simp [definitionKind?, h.module_root, hkind.symm] at hmk
    exact .inl ⟨j, m, hj, hm.denotes hl, hm.findLast?_eq h hkind hmk hmax,
      hm.deepest h hpos hmk hmax⟩
  · refine .inr ⟨hnone, ?_, outside_of_forall fun q d _ hd => hout q d hd (hlast q d hd)⟩
    rw [findLast?_eq h hkind, List.getLast?_eq_none_iff, List.filter_eq_nil_iff]
    intro d hd hc
    rw [Bool.and_eq_true, decide_eq_true_eq] at hc
    obtain ⟨q, hq⟩ := List.mem_iff_getElem?.1 hd
    have hd : Reached cursor s.root (q + 1) d := ⟨by simpa [scopeNodes] using hq, .inr hc.1⟩
    exact hout _ d hd (hlast _ d hd) hc.2

end Linked

/-- For any cursor the walk of the one backend and the scope table of the other lead to the same
definition, the deepest one that contains the cursor, or the module where none does; and for each
kind of definition to the deepest one of that kind, or to none. -/
theorem resolution_eq {s : Source} {table : ScopeTable} (h : s.root.Regular)
    (ht : build s = .ok table) (cursor : DocumentPosition) :
    (∃ i n, innermost table cursor = .ok i ∧ Denotes s table i n ∧
      Structural.innermost? cursor s.root = some n ∧
      (Deepest cursor s.root (fun _ => True) n ∨
        n = s.root ∧ Outside cursor s.root fun _ => True)) ∧
    ∀ kind : EntityKind, kind ≠ .module →
      (∃ i n, enclosing table cursor kind = .ok (some i) ∧ Denotes s table i n ∧
        Structural.findLast? cursor s.root kind = some n ∧
        Deepest cursor s.root (·.definitionKind? = some kind) n) ∨
      enclosing table cursor kind = .ok none ∧ Structural.findLast? cursor s.root kind = none ∧
        Outside cursor s.root (·.definitionKind? = some kind) := by
  have hl := build_linked h.module_root ht
  exact ⟨innermost_eq h hl cursor, fun _ => enclosing_eq h hl cursor⟩

/-- A cursor in a method, which the class around it contains as well. -/
theorem resolution_eq_method : ∃ root table,
    Node.ofText? "class A:\n\tdef f(self): 0".toList = some root ∧
    let s := Source.ofTree "class A:\n\tdef f(self): 0".toList root
    build s = .ok table ∧
      (∃ i n, innermost table ⟨2, 6⟩ = .ok i ∧ Denotes s table i n ∧
        Structural.innermost? ⟨2, 6⟩ s.root = some n ∧
        (Deepest ⟨2, 6⟩ s.root (fun _ => True) n ∨
          n = s.root ∧ Outside ⟨2, 6⟩ s.root fun _ => True)) ∧
      ∀ kind : EntityKind, kind ≠ .module →
        (∃ i n, enclosing table ⟨2, 6⟩ kind = .ok (some i) ∧ Denotes s table i n ∧
          Structural.findLast? ⟨2, 6⟩ s.root kind = some n ∧
          Deepest ⟨2, 6⟩ s.root (·.definitionKind? = some kind) n) ∨
        enclosing table ⟨2, 6⟩ kind = .ok none ∧ Structural.findLast? ⟨2, 6⟩ s.root kind = none ∧
          Outside ⟨2, 6⟩ s.root (·.definitionKind? = some kind) := by
  have hbuilt : (Node.ofText? "class A:\n\tdef f(self): 0".toList).any (fun root =>
      (build (.ofTree "class A:\n\tdef f(self): 0".toList root)).isOk) := by
    rfl
  obtain ⟨root, hroot, hbuilt⟩ := (Option.any_eq_true _ _).1 hbuilt
  obtain ⟨table, htable⟩ := exists_eq_ok hbuilt
  exact ⟨root, table, hroot, htable, resolution_eq (ofText?_tree hroot).regular htable ⟨2, 6⟩⟩

end DocstringEditor.Analysis
