import DocstringEditor.Analysis.Registry
import DocstringEditor.Proofs.Analysis.Signature

namespace DocstringEditor.Analysis

open Syntax Syntax.Node

variable {parse : Parse} {text : Text} {s : Source} {d : Node} {kind : EntityKind}

def QueryScope.Admits (scope : QueryScope) (d : Node) : Prop :=
  match scope with
  | .context => True
  | .function => d.definitionKind? = some .functionDef
  | .classDef => d.definitionKind? = some .classDef
  | .module => False

theorem isDefinition_iff_exists :
    d.isDefinition ↔ ∃ kind, d.definitionKind? = some kind ∧ kind ≠ .module := by
  rw [isDefinition_iff]
  constructor
  · rintro (hkind | hkind)
    · exact ⟨_, hkind, by simp⟩
    · exact ⟨_, hkind, by simp⟩
  · rintro ⟨kind, hkind, hne⟩
    cases kind <;> simp_all

theorem nameOf_ok (h : s.Accepted) (hd : d ∈ s.root.inner) (hdef : d.isDefinition)
    (kind : EntityKind) : ∃ name, s.nameOf kind d = .ok name := by
  obtain ⟨⟨m, hm, hrole⟩, -⟩ := (h.tree.sound d hd).definition hdef
  have hname : (d.child? .name).isSome := by
    rw [child?, List.find?_isSome]
    exact ⟨m, hm, by simp [hrole]⟩
  obtain ⟨name, hname⟩ := Option.isSome_iff_exists.1 hname
  exact ⟨_, by rw [Source.nameOf, hname]⟩

namespace Symbols

variable {table : ScopeTable}

theorem signatureEnd_ok (h : s.Accepted) (hd : d ∈ s.root.inner) (hdef : d.isDefinition)
    (kind : EntityKind) : ∃ stop, signatureEnd s kind d = .ok stop := by
  obtain ⟨-, m, hm, hcolon⟩ := (h.tree.sound d hd).definition hdef
  unfold signatureEnd
  split
  · rename_i hnone
    have hempty := List.getLast?_eq_none_iff.1 hnone
    have : m ∈ d.children.filter (·.kind = .mark ":") := List.mem_filter.2 ⟨hm, by simp [hcolon]⟩
    simp [hempty] at this
  · exact ⟨_, rfl⟩

theorem push_ok (h : s.Accepted) (hd : d ∈ s.root.inner) (hdef : d.isDefinition)
    (parent : Nat) (table : ScopeTable) (kind : EntityKind) :
    ∃ table', push s parent table kind d = .ok table' := by
  obtain ⟨name, hname⟩ := nameOf_ok h hd hdef kind
  obtain ⟨stop, hstop⟩ := signatureEnd_ok h hd hdef kind
  exact ⟨_, by simp only [push, hname, hstop, ok_bind]; rfl⟩

theorem collect_ok (h : s.Accepted) :
    (∀ n : Node, (∀ m ∈ n.preorder, m ∈ s.root.inner) → ∀ parent table,
      ∃ table', collect s parent table n = .ok table') ∧
    ∀ ns : Forest, (∀ m ∈ preorderAll ns, m ∈ s.root.inner) → ∀ parent table,
      ∃ table', collectAll s parent table ns = .ok table' := by
  apply Node.induction
  case mk =>
    intro k r b e cs ih hroot parent table
    have hin := hroot (.mk k r b e cs) (by simp)
    have ih := ih fun m hm => hroot m (mem_preorder.2 (.inr hm))
    rw [collect]
    split
    · exact ih _ _
    · exact ih _ _
    · rename_i kind hne hkind
      have hdef : (Node.mk k r b e cs).isDefinition :=
        isDefinition_iff_exists.2 ⟨kind, hkind, hne⟩
      obtain ⟨grown, hgrown⟩ := push_ok h hin hdef parent table kind
      rw [hgrown, ok_bind]
      exact ih _ _
  case nil => exact fun _ _ table => ⟨table, rfl⟩
  case cons =>
    intro n ns ihn ihns hroot parent table
    obtain ⟨grown, hgrown⟩ := ihn (fun m hm => hroot m (by simp [hm])) parent table
    rw [collectAll, hgrown, ok_bind]
    exact ihns (fun m hm => hroot m (by simp [hm])) _ _

theorem build_ok (h : s.Accepted) : ∃ table, build s = .ok table :=
  (collect_ok h).2 s.root.children (fun _ hm => hm) 0 _

end Symbols

def Source.entity (s : Source) (kind : EntityKind) (d : Node) (name : String) (code : Text)
    (stop : DocumentPosition) : Entity :=
  namedEntity kind (.ofCode name code (Source.rangeOf d) stop (s.docstringRange? d) s.text)

namespace Symbols

variable {table : ScopeTable} {i : Nat}

theorem entityOf_definition (h : s.Accepted) (hd : d ∈ s.root.inner) (hdef : d.isDefinition)
    (hi : Denotes s table i d) : ∃ kind name stop, d.definitionKind? = some kind ∧
      s.nameOf kind d = .ok name ∧ signatureEnd s kind d = .ok stop ∧
      entityOf s table i = .ok (s.entity kind d name (s.margin d ++ s.definitionText d) stop) := by
  obtain ⟨-, scope, hscope, hs⟩ := hi
  obtain ⟨stop, hstop, hsig⟩ := hs.signatureEnd hdef
  obtain ⟨kind, hkind, hne⟩ := isDefinition_iff_exists.1 hdef
  obtain rfl : scope.kind = kind := Option.some.inj (hs.kind.symm.trans hkind)
  refine ⟨scope.kind, scope.name, stop, hs.kind, hs.name hdef, hstop, ?_⟩
  simp only [entityOf, scopeAt, hscope, ok_bind, if_neg hne, hsig, hs.range hdef,
    linesText_eq h hd hdef, pure_eq_ok, Source.entity, hs.docstring]

theorem entityOf_root (h : s.Accepted) (hi : Denotes s table i s.root) :
    entityOf s table i = .ok (s.moduleEntity (s.docstringRange? s.root)) := by
  obtain ⟨-, scope, hscope, hs⟩ := hi
  have hkind : scope.kind = .module := by
    have := hs.kind
    simp only [definitionKind?, h.tree.kind, Option.some.injEq] at this
    exact this.symm
  simp only [entityOf, scopeAt, hscope, ok_bind, if_pos hkind, pure_eq_ok, hs.docstring]

end Symbols

/-- What the structural backend may miss in a definition: a first statement, or a colon that its
header, read on its own, leads to outside of brackets, literals and comments. -/
inductive Lacks (s : Source) (d : Node) : Defect → Prop
  | body (kind : EntityKind) : d.definitionKind? = some kind → d.firstStatement? = none →
      Lacks s d (.noBody kind (.ofLocation d.start))
  | colon (kind : EntityKind) (body : Node) : d.definitionKind? = some kind →
      d.firstStatement? = some body → (∀ u v, ¬Header.Parts 0 (s.header d body).flatten u v) →
      Lacks s d (.noColon kind (.ofLocation d.start))

theorem Lacks.unique {defect defect' : Defect} (h : Lacks s d defect) (h' : Lacks s d defect') :
    defect = defect' := by
  cases h <;> cases h' <;> simp_all

namespace Structural

theorem headerEnd?_eq_none {header : List Text} {start : DocumentPosition} :
    headerEnd? header start = none ↔ ∀ u v, ¬Header.Parts 0 header.flatten u v := by
  rw [← Header.topLevelColons_eq_nil_iff]
  unfold headerEnd?
  cases hcolons : (Header.topLevelColons header.flatten).getLast? with
  | none => simpa using List.getLast?_eq_none_iff.1 hcolons
  | some colon =>
      refine iff_of_false (by simp) fun hnil => ?_
      simp [hnil] at hcolons

theorem entityOf_root (h : s.Accepted) :
    entityOf s s.root = .ok (s.moduleEntity (s.docstringRange? s.root)) := by
  simp [entityOf, definitionKind?, h.tree.kind]

theorem entityOf_definition (h : s.Accepted) (hd : d ∈ s.root.inner)
    (hkind : d.definitionKind? = some kind) (hne : kind ≠ .module) :
    ∃ name, s.nameOf kind d = .ok name ∧
      ((∃ defect, Lacks s d defect ∧ entityOf s d = .error (.internal defect)) ∨
        ∃ body stop, d.firstStatement? = some body ∧
          headerEnd? (s.header d body) (.ofLocation d.start) = some stop ∧
          entityOf s d =
            .ok (s.entity kind d name (padding (s.margin d) ++ s.definitionText d) stop)) := by
  have hdef := isDefinition_iff_exists.2 ⟨kind, hkind, hne⟩
  obtain ⟨name, hname⟩ := nameOf_ok h hd hdef kind
  refine ⟨name, hname, ?_⟩
  have hentity : entityOf s d = signatureEnd kind d (Source.rangeOf d)
      (padding (s.margin d) ++ s.definitionText d) >>= fun stop =>
        .ok (s.entity kind d name (padding (s.margin d) ++ s.definitionText d) stop) := by
    unfold entityOf
    rw [hkind]
    cases kind <;> simp_all [segment_eq h hd hdef, Source.entity]
  have hstart : (Source.rangeOf d).start = .ofLocation d.start := by
    rw [rangeOf_eq h.tree.regular hd]
  rw [hentity, signatureEnd, hstart]
  cases hbody : d.firstStatement? with
  | none => exact .inl ⟨_, .body kind hkind hbody, rfl⟩
  | some body =>
      cases hend : headerEnd? (s.header d body) (.ofLocation d.start) with
      | none =>
          refine .inl ⟨_, .colon kind body hkind hbody (headerEnd?_eq_none.1 hend), ?_⟩
          rw [Source.header] at hend
          simp only [hend]
          rfl
      | some stop =>
          refine .inr ⟨body, stop, rfl, hend, ?_⟩
          rw [Source.header] at hend
          simp only [hend]
          rfl

theorem entityOf_error_iff (h : s.Accepted) (hd : d ∈ s.root.inner) (hdef : d.isDefinition)
    {e : Error} :
    entityOf s d = .error e ↔ ∃ defect, Lacks s d defect ∧ e = .internal defect := by
  obtain ⟨kind, hkind, hne⟩ := isDefinition_iff_exists.1 hdef
  obtain ⟨name, -, ⟨defect, hlacks, herror⟩ | ⟨body, stop, hbody, hend, hok⟩⟩ :=
    entityOf_definition h hd hkind hne
  · rw [herror]
    constructor
    · intro he
      exact ⟨defect, hlacks, (Except.error.inj he).symm⟩
    · rintro ⟨defect', hlacks', rfl⟩
      rw [hlacks.unique hlacks']
  · rw [hok]
    refine iff_of_false (by simp) ?_
    rintro ⟨defect, hlacks, -⟩
    cases hlacks with
    | body _ _ hnone => simp [hbody] at hnone
    | colon _ body' _ hbody' hnil =>
        obtain rfl : body' = body := Option.some.inj (hbody'.symm.trans hbody)
        simp [headerEnd?_eq_none.2 hnil] at hend

theorem findLast?_module (h : s.root.Regular) (cursor : DocumentPosition) :
    (findLast? cursor s.root .module).getD s.root = s.root := by
  cases hfound : findLast? cursor s.root .module with
  | none => rfl
  | some n =>
      have hmem := List.mem_of_find?_eq_some hfound
      have hkind := List.find?_some hfound
      rw [List.mem_reverse, h.visited_root] at hmem
      rcases List.mem_cons.1 hmem with rfl | hmem
      · rfl
      · have hne := definitionKind?_of_kind_ne (h.module_only n (mem_around.1 hmem).1)
        simp [hne] at hkind

end Structural

theorem denotes_root {table : Symbols.ScopeTable} (h : s.Accepted)
    (ht : Symbols.build s = .ok table) : Denotes s table 0 s.root := by
  obtain ⟨scope, hscope, -, -, hs⟩ := (Symbols.build_linked h.tree.kind ht).scope 0 none s.root rfl
  exact ⟨rfl, scope, hscope, hs⟩

theorem findKind_cases {table : Symbols.ScopeTable} (h : s.Accepted)
    (ht : Symbols.build s = .ok table) (cursor : DocumentPosition) (hne : kind ≠ .module) :
    (∃ i d, Deepest cursor s.root (·.definitionKind? = some kind) d ∧ Denotes s table i d ∧
      (Structural.findLast? cursor s.root kind).mapM (Structural.entityOf s) =
        some <$> Structural.entityOf s d ∧
      (Symbols.enclosing table cursor kind >>= Option.mapM (Symbols.entityOf s table)) =
        some <$> Symbols.entityOf s table i) ∨
    (Outside cursor s.root (·.definitionKind? = some kind) ∧
      (Structural.findLast? cursor s.root kind).mapM (Structural.entityOf s) = .ok none ∧
      (Symbols.enclosing table cursor kind >>= Option.mapM (Symbols.entityOf s table)) =
        .ok none) := by
  rcases enclosing_eq h.tree.regular (Symbols.build_linked h.tree.kind ht) cursor hne with
    ⟨i, n, hup, hi, hlast, hdeep⟩ | ⟨hup, hlast, hout⟩
  · exact .inl ⟨i, n, hdeep, hi, by rw [hlast, Option.mapM_some], by
      rw [hup, ok_bind, Option.mapM_some]⟩
  · exact .inr ⟨hout, by rw [hlast, Option.mapM_none, pure_eq_ok], by
      rw [hup, ok_bind, Option.mapM_none, pure_eq_ok]⟩

/-- Both backends answer a query with the deepest definition that it admits, and where there is none
with the module or with nothing. -/
theorem find_cases {table : Symbols.ScopeTable} (h : s.Accepted) (ht : Symbols.build s = .ok table)
    (scope : QueryScope) (cursor : DocumentPosition) :
    (∃ i d, Deepest cursor s.root scope.Admits d ∧ Denotes s table i d ∧
      (Analyzer.structural s).find scope cursor = some <$> Structural.entityOf s d ∧
      (Analyzer.symbols s table).find scope cursor = some <$> Symbols.entityOf s table i) ∨
    (Outside cursor s.root scope.Admits ∧ ∃ found : Option Entity,
      (Analyzer.structural s).find scope cursor = .ok found ∧
      (Analyzer.symbols s table).find scope cursor = .ok found ∧
      ∀ e, found = some e → e = s.moduleEntity (s.docstringRange? s.root)) := by
  have hregular := h.tree.regular
  obtain ⟨i, n, hinner, hi, hlast, hn⟩ :=
    innermost_eq hregular (Symbols.build_linked h.tree.kind ht) cursor
  set e := s.moduleEntity (s.docstringRange? s.root) with he
  have hmodule (e' : Entity) (he' : some e = some e') : e' = e := (Option.some.inj he').symm
  cases scope with
  | context =>
      rcases hn with hdeep | ⟨rfl, hout⟩
      · refine .inl ⟨i, n, hdeep, hi, ?_, ?_⟩
        · simp only [Analyzer.find, hlast]
        · simp only [Analyzer.find, hinner, ok_bind]
          cases Symbols.entityOf s table i <;> rfl
      · refine .inr ⟨hout, some e, ?_, ?_, hmodule⟩
        · simp only [Analyzer.find, hlast, Structural.entityOf_root h]
          rfl
        · simp only [Analyzer.find, hinner, ok_bind, Symbols.entityOf_root h hi]
          rfl
  | function =>
      exact (findKind_cases h ht cursor (by simp)).imp id
        fun ⟨hout, hlast, hup⟩ => ⟨hout, none, hlast, hup, by simp⟩
  | classDef =>
      exact (findKind_cases h ht cursor (by simp)).imp id
        fun ⟨hout, hlast, hup⟩ => ⟨hout, none, hlast, hup, by simp⟩
  | module =>
      refine .inr ⟨fun d _ _ _ => id, some e, ?_, ?_, hmodule⟩
      · simp only [Analyzer.find, Structural.findLast?_module hregular, Structural.entityOf_root h]
        rfl
      · simp only [Analyzer.find, Symbols.entityOf_root h (denotes_root h ht), ok_bind]
        rfl

theorem Deepest.unique {root d' : Node} {cursor : DocumentPosition} {p : Node → Prop}
    (h : Deepest cursor root p d) (h' : Deepest cursor root p d') : d = d' := by
  rcases h'.2 d h.1.1 h.1.2.1 h.1.2.2.1 h.1.2.2.2 with rfl | hin
  · rfl
  · rcases h.2 d' h'.1.1 h'.1.2.1 h'.1.2.2.1 h'.1.2.2.2 with rfl | hin'
    · rfl
    · exact absurd (inner_trans hin hin') (not_mem_inner_self _)

/-- A header is not found to lack its colon if each literal before that reads as one on its own. -/
theorem not_lacks_colon (h : s.Accepted) (hd : d ∈ s.root.inner) (hdef : d.isDefinition)
    (hheaded : s.Headed d) (halone : s.LiteralsReadAlone d) {l : DocumentPosition} :
    ¬Lacks s d (.noColon kind l) := by
  intro hlacks
  cases hlacks with
  | colon _ body _ hbody hnone =>
      obtain ⟨parts, -, before, front, back, rest, ht⟩ := h.exists_headerText hd hheaded hbody
      obtain ⟨extra, hparts⟩ :=
        h.parts_header hd hdef (inner_trans hd (firstStatement?_mem hbody)) halone ht
      exact hnone _ _ hparts

/-- Every accepted source has an analyzer of either kind. A query to the symbols backend never
fails, and one to the structural backend just if something is missing in the definition it is
about. A colon is never missing where each literal of the header reads as one on its own. -/
theorem find_error_iff (hparse : parse.Faithful) (h : Source.parse parse text = .ok s)
    (b : Backend) :
    ∃ a, Analyzer.create parse b text = .ok a ∧
      (∀ scope cursor e, a.find scope cursor = .error e ↔ b = .structural ∧ ∃ d defect,
        Deepest cursor s.root scope.Admits d ∧ Lacks s d defect ∧ e = .internal defect) ∧
      ∀ d ∈ s.root.inner, d.isDefinition → s.Headed d → s.LiteralsReadAlone d →
        ∀ kind l, ¬Lacks s d (.noColon kind l) := by
  have hs := hparse.accepted h
  obtain ⟨table, ht⟩ := Symbols.build_ok hs
  have hcolon : ∀ d ∈ s.root.inner, d.isDefinition → s.Headed d → s.LiteralsReadAlone d →
      ∀ kind l, ¬Lacks s d (.noColon kind l) :=
    fun d hd hdef hheaded halone kind l => not_lacks_colon hs hd hdef hheaded halone
  cases b with
  | structural =>
      refine ⟨.structural s, by simp [Analyzer.create, h], fun scope cursor e => ?_, hcolon⟩
      rcases find_cases hs ht scope cursor with
        ⟨i, d, hdeep, -, hfind, -⟩ | ⟨hout, found, hfind, -⟩
      · rw [hfind, map_eq_error, Structural.entityOf_error_iff hs hdeep.1.1 hdeep.1.2.1]
        constructor
        · rintro ⟨defect, hlacks, rfl⟩
          exact ⟨rfl, d, defect, hdeep, hlacks, rfl⟩
        · rintro ⟨-, d', defect, hdeep', hlacks, rfl⟩
          rw [hdeep.unique hdeep']
          exact ⟨defect, hlacks, rfl⟩
      · rw [hfind]
        refine iff_of_false (by simp) ?_
        rintro ⟨-, d, _, hdeep, -⟩
        exact hout d hdeep.1.1 hdeep.1.2.1 hdeep.1.2.2.1 hdeep.1.2.2.2
  | symbols =>
      refine ⟨.symbols s table, by simp [Analyzer.create, h, ht], fun scope cursor e => ?_, hcolon⟩
      refine iff_of_false ?_ (by simp)
      rcases find_cases hs ht scope cursor with
        ⟨i, d, hdeep, hi, -, hfind⟩ | ⟨-, found, -, hfind, -⟩
      · obtain ⟨_, _, _, -, -, -, hok⟩ :=
          Symbols.entityOf_definition hs hdeep.1.1 hdeep.1.2.1 hi
        rw [hfind, map_eq_error, hok]
        simp
      · simp [hfind]

theorem find_error_iff_method : ∃ s,
    Source.parse python "class A:\n\tdef f(self, a='['): 0".toList = .ok s ∧
    (∀ d ∈ s.root.inner, d.isDefinition → s.Headed d) ∧
    ∃ a, Analyzer.create python .structural "class A:\n\tdef f(self, a='['): 0".toList = .ok a ∧
      (∀ scope cursor e, a.find scope cursor = .error e ↔
        Backend.structural = .structural ∧ ∃ d defect,
          Deepest cursor s.root scope.Admits d ∧ Lacks s d defect ∧ e = .internal defect) ∧
      ∀ d ∈ s.root.inner, d.isDefinition → s.Headed d → s.LiteralsReadAlone d →
        ∀ kind l, ¬Lacks s d (.noColon kind l) := by
  have hheaded : (Source.parse python "class A:\n\tdef f(self, a='['): 0".toList).toOption.any
      fun s => decide (∀ d ∈ s.root.inner, d.isDefinition → s.Headed d) := by
    decide +kernel
  obtain ⟨s, hs, hheaded⟩ := (Option.any_eq_true _ _).1 hheaded
  have h := toOption_eq_some.1 hs
  exact ⟨s, h, of_decide_eq_true hheaded, find_error_iff python_faithful h .structural⟩

/-- A body may be missing, and a colon may be lost behind a string that ends too early. -/
theorem find_error_reachable :
    (Analyzer.create python .structural "def f():".toList >>= (·.find .context ⟨1, 1⟩)) =
      .error (.internal (.noBody .functionDef ⟨1, 0⟩)) ∧
    (Analyzer.create python .structural "def f(a=f'\x7b'#'\x7d'): 0".toList >>=
        (·.find .context ⟨1, 1⟩)) =
      .error (.internal (.noColon .functionDef ⟨1, 0⟩)) := by
  decide +kernel

end DocstringEditor.Analysis
