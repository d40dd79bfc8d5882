import DocstringEditor.Proofs.Analysis.Query

namespace DocstringEditor.Analysis

open Syntax Syntax.Node

variable {parse : Parse} {text : Text} {s : Source} {d : Node} {cursor : DocumentPosition}

theorem context_eq_ok {a : Analyzer} {e : Entity} :
    a.context cursor = .ok e ↔ a.find .context cursor = .ok (some e) := by
  unfold Analyzer.context
  cases a.find .context cursor with
  | error e => simp [bind, Except.bind]
  | ok found => cases found <;> simp

theorem entity_eq_iff {kind : EntityKind} {name : String} {code code' : Text}
    {stop stop' : DocumentPosition} :
    s.entity kind d name code stop = s.entity kind d name code' stop' ↔
      code = code' ∧ stop = stop' := by
  cases kind <;> simp only [Source.entity, namedEntity, NamedEntity.ofCode, Entity.classDef.injEq,
    Entity.functionDef.injEq, NamedEntity.mk.injEq, true_and, and_true]
  all_goals
    constructor
    · exact fun h => ⟨h.1, h.2.1⟩
    · rintro ⟨rfl, rfl⟩
      simp

theorem kind_entity {kind : EntityKind} (hne : kind ≠ .module) (name : String) (code : Text)
    (stop : DocumentPosition) : (s.entity kind d name code stop).kind = kind := by
  cases kind <;> simp_all [Source.entity, namedEntity, Entity.kind]

theorem named?_entity (kind : EntityKind) (name : String) (code : Text)
    (stop : DocumentPosition) : (s.entity kind d name code stop).named? =
      some (.ofCode name code (Source.rangeOf d) stop (s.docstringRange? d) s.text) := by
  cases kind <;> rfl

theorem context_named {a b : Analyzer} {e e' : Entity}
    (hparse : parse.Faithful) (h : Source.parse parse text = .ok s)
    (ha : Analyzer.create parse .structural text = .ok a)
    (hb : Analyzer.create parse .symbols text = .ok b) (he : a.context cursor = .ok e)
    (he' : b.context cursor = .ok e') (hne : e.kind ≠ .module) :
    ∃ d kind name body stop stop', Deepest cursor s.root (fun _ => True) d ∧ kind ≠ .module ∧
      d.definitionKind? = some kind ∧ d.firstStatement? = some body ∧
      Structural.headerEnd? (s.header d body) (.ofLocation d.start) = some stop ∧
      Symbols.signatureEnd s kind d = .ok stop' ∧
      e = s.entity kind d name (Structural.padding (s.margin d) ++ s.definitionText d) stop ∧
      e' = s.entity kind d name (s.margin d ++ s.definitionText d) stop' := by
  have hs := hparse.accepted h
  obtain ⟨table, ht⟩ := Symbols.build_ok hs
  obtain rfl : .structural s = a := by simpa [Analyzer.create, h] using ha
  obtain rfl : .symbols s table = b := by simpa [Analyzer.create, h, ht] using hb
  rw [context_eq_ok] at he he'
  rcases find_cases hs ht .context cursor with
    ⟨i, d, hdeep, hi, hfind, hfind'⟩ | ⟨-, found, hfind, -, hmodule⟩
  · obtain ⟨kind, name', stop', hkind, hname', hstop', hok'⟩ :=
      Symbols.entityOf_definition hs hdeep.1.1 hdeep.1.2.1 hi
    obtain ⟨kind', hkind', hkne⟩ := isDefinition_iff_exists.1 hdeep.1.2.1
    obtain rfl : kind = kind' := Option.some.inj (hkind.symm.trans hkind')
    obtain ⟨name, hname, ⟨defect, -, herror⟩ | ⟨body, stop, hbody, hend, hok⟩⟩ :=
      Structural.entityOf_definition hs hdeep.1.1 hkind hkne
    · rw [hfind, herror] at he
      cases he
    · obtain rfl : name = name' := Except.ok.inj (hname.symm.trans hname')
      rw [hfind, hok] at he
      rw [hfind', hok'] at he'
      exact ⟨d, kind, name, body, stop, stop', hdeep, hkne, hkind, hbody, hend, hstop',
        (Option.some.inj (Except.ok.inj he)).symm, (Option.some.inj (Except.ok.inj he')).symm⟩
  · rw [hfind] at he
    exact absurd (congrArg Entity.kind (hmodule e (Except.ok.inj he))) hne

/-- The two backends say the same about a definition around a cursor just if blank space stands
before it and a scan of its header finds the end of the signature where the tree has it. For that it
is enough that each literal of the header reads as one on its own and no other blank stands before a
comment behind the colon. Even if not, it has one kind, name, range and docstring. -/
theorem context_eq_iff {a b : Analyzer} {e e' : Entity} (hparse : parse.Faithful)
    (h : Source.parse parse text = .ok s)
    (hheaded : ∀ d ∈ s.root.inner, d.isDefinition → s.Headed d)
    (ha : Analyzer.create parse .structural text = .ok a)
    (hb : Analyzer.create parse .symbols text = .ok b) (he : a.context cursor = .ok e)
    (he' : b.context cursor = .ok e') (hne : e.kind ≠ .module) :
    ∃ d, Deepest cursor s.root (fun _ => True) d ∧ e.kind = e'.kind ∧ e.name? = e'.name? ∧
      e.named?.map (·.range) = e'.named?.map (·.range) ∧ e.docstring = e'.docstring ∧
      (e.code = e'.code ↔ s.IsIndented d) ∧
      (s.IsIndented d →
        (e.named?.map (·.signatureEnd) = e'.named?.map (·.signatureEnd) ↔ s.EndsAgree d)) ∧
      (e = e' ↔ s.IsIndented d ∧ s.EndsAgree d) ∧
      (s.IsIndented d → s.LiteralsReadAlone d → (s.EndsAgree d ↔ s.ColonBlanks d)) := by
  obtain ⟨d, kind, name, body, stop, stop', hdeep, hkne, hkind, hbody, hend, hstop', rfl, rfl⟩ :=
    context_named hparse h ha hb he he' hne
  have hs := hparse.accepted h
  have hd := hdeep.1.1
  have hdef := hdeep.1.2.1
  have hcode : Structural.padding (s.margin d) ++ s.definitionText d =
      s.margin d ++ s.definitionText d ↔ s.IsIndented d := by
    rw [List.append_left_inj, padding_eq_self]
    rfl
  have hsignature (hindented : s.IsIndented d) : stop = stop' ↔ s.EndsAgree d :=
    hs.signatureEnd_eq_iff hd hdef (hheaded d hd hdef) hbody hindented hend hstop'
  refine ⟨d, hdeep, ?_, ?_, ?_, ?_, ?_, fun hindented => ?_, ?_,
    hs.endsAgree_iff hd hdef (hheaded d hd hdef) hbody⟩
  · rw [kind_entity hkne, kind_entity hkne]
  · simp [Entity.name?, named?_entity, NamedEntity.ofCode]
  · simp [named?_entity, NamedEntity.ofCode]
  · cases kind <;> rfl
  · rw [← hcode]
    cases kind <;> rfl
  · simp [named?_entity, NamedEntity.ofCode, hsignature hindented]
  · rw [entity_eq_iff, hcode]
    exact and_congr_right hsignature

theorem context_eq_iff_method : ∃ s a b e e',
    Source.parse python "class A:\n\tdef f(self): 0".toList = .ok s ∧
    (∀ d ∈ s.root.inner, d.isDefinition → s.Headed d) ∧
    Analyzer.create python .structural "class A:\n\tdef f(self): 0".toList = .ok a ∧
    Analyzer.create python .symbols "class A:\n\tdef f(self): 0".toList = .ok b ∧
    a.context ⟨2, 6⟩ = .ok e ∧ b.context ⟨2, 6⟩ = .ok e' ∧ e.kind ≠ .module ∧
    ∃ d, Deepest ⟨2, 6⟩ s.root (fun _ => True) d ∧ e.kind = e'.kind ∧ e.name? = e'.name? ∧
      e.named?.map (·.range) = e'.named?.map (·.range) ∧ e.docstring = e'.docstring ∧
      (e.code = e'.code ↔ s.IsIndented d) ∧
      (s.IsIndented d →
        (e.named?.map (·.signatureEnd) = e'.named?.map (·.signatureEnd) ↔ s.EndsAgree d)) ∧
      (e = e' ↔ s.IsIndented d ∧ s.EndsAgree d) ∧
      (s.IsIndented d → s.LiteralsReadAlone d → (s.EndsAgree d ↔ s.ColonBlanks d)) := by
  have hheaded : (Source.parse python "class A:\n\tdef f(self): 0".toList).toOption.any
      fun s => decide (∀ d ∈ s.root.inner, d.isDefinition → s.Headed d) := by
    decide +kernel
  obtain ⟨s, hfound, hheaded⟩ := (Option.any_eq_true _ _).1 hheaded
  have hs := toOption_eq_some.1 hfound
  have hheaded := of_decide_eq_true hheaded
  have hfunction : (Analyzer.create python .structural "class A:\n\tdef f(self): 0".toList >>=
      (·.context ⟨2, 6⟩)).toOption.any (·.kind = .functionDef) := rfl
  obtain ⟨e, hfound, hkind⟩ := (Option.any_eq_true _ _).1 hfunction
  obtain ⟨a, ha, he⟩ := bind_eq_ok.1 (toOption_eq_some.1 hfound)
  obtain ⟨e', hfound'⟩ := exists_eq_ok (x := Analyzer.create python .symbols
    "class A:\n\tdef f(self): 0".toList >>= (·.context ⟨2, 6⟩)) (by rfl)
  obtain ⟨b, hb, he'⟩ := bind_eq_ok.1 hfound'
  have hne : e.kind ≠ .module := by simp_all
  exact ⟨s, a, b, e, e', hs, hheaded, ha, hb, he, he', hne,
    context_eq_iff python_faithful hs hheaded ha hb he he' hne⟩

/-- A mark at the start of the source changes the code, and a string that ends too early the end of
the signature. -/
theorem context_ne_reachable :
    (Analyzer.create python .structural "\uFEFFdef f(): 0".toList >>=
        (·.context ⟨1, 4⟩)).map (·.code) =
      .ok " def f(): 0".toList ∧
    (Analyzer.create python .symbols "\uFEFFdef f(): 0".toList >>=
        (·.context ⟨1, 4⟩)).map (·.code) =
      .ok "\uFEFFdef f(): 0".toList ∧
    (Analyzer.create python .structural "def f() -> lambda: f\"\x7b'\"'\x7d\": 0".toList >>=
      (·.context ⟨1, 4⟩)).map (·.named?.map (·.signatureEnd)) = .ok (some ⟨1, 18⟩) ∧
    (Analyzer.create python .symbols "def f() -> lambda: f\"\x7b'\"'\x7d\": 0".toList >>=
      (·.context ⟨1, 4⟩)).map (·.named?.map (·.signatureEnd)) = .ok (some ⟨1, 28⟩) := by
  decide +kernel

end DocstringEditor.Analysis
