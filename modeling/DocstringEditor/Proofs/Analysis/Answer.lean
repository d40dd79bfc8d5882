import DocstringEditor.Proofs.Analysis.Parity
import DocstringEditor.Request

namespace DocstringEditor.Analysis

open Syntax Syntax.Node

variable {parse : Parse} {text : Text} {s : Source} {b : Backend} {a : Analyzer}
  {cursor : DocumentPosition}

/-- What a backend has before a definition on the first line of its code. -/
def Source.lead (s : Source) (b : Backend) (d : Node) : Text :=
  match b with
  | .structural => Structural.padding (s.margin d)
  | .symbols => s.margin d

theorem newline_not_mem_lead {d : Node} {before rest : Text} (hs : Stands s d before rest)
    (b : Backend) : '\n' ∉ s.lead b d := by
  cases b with
  | symbols =>
      rw [Source.lead, hs.margin]
      exact Text.newline_not_mem_lastLine before
  | structural => exact newline_not_mem_padding _

/-- Whether a backend lets the signature of a definition end at a position. -/
def Source.EndsSignature (s : Source) (b : Backend) (d : Node) (stop : DocumentPosition) : Prop :=
  match b with
  | .structural => ∃ body, d.firstStatement? = some body ∧
      Structural.headerEnd? (s.header d body) (.ofLocation d.start) = some stop
  | .symbols => ∃ kind, Symbols.signatureEnd s kind d = .ok stop

structure Describes (s : Source) (b : Backend) (d : Node) (n : NamedEntity) : Prop where
  mem : d ∈ s.root.inner
  isDefinition : d.isDefinition
  code : n.code = s.lead b d ++ s.definitionText d
  range : n.range = Source.rangeOf d
  signatureEnd : s.EndsSignature b d n.signatureEnd
  docstring : n.docstring = s.docstringRange? d
  source : n.source = s.text
  level : n.indentLevel = indentLevelOf ((Text.splitLines n.code).headD [])

theorem Source.Accepted.relative_line {d : Node} {n : NamedEntity} (h : s.Accepted)
    (hn : Describes s b d n) (p : DocumentPosition) :
    (n.relative p).line.toNat = p.line.toNat - (d.start.row + 1) := by
  have hroot : d ∈ s.root.preorder := mem_preorder.2 (.inr hn.mem)
  have hfits := h.tree.regular.fits_start hroot
  have hsize := p.line.toNat_lt
  rw [NamedEntity.relative, Position.relativeTo, hn.range, rangeOf_eq h.tree.regular hn.mem,
    hfits.line, UInt32.toNat_ofNat']
  exact Nat.mod_eq_of_lt (by omega)

theorem exists_describes {d : Node} {stop : DocumentPosition} (kind : EntityKind) (name : String)
    (hd : d ∈ s.root.inner) (hdef : d.isDefinition) (hstop : s.EndsSignature b d stop) :
    ∃ n, (s.entity kind d name (s.lead b d ++ s.definitionText d) stop).named? = some n ∧
      Describes s b d n :=
  ⟨_, named?_entity .., hd, hdef, rfl, rfl, hstop, rfl, rfl, rfl⟩

/-- What a query finds is the deepest definition that it admits, or the module where there is
none. -/
theorem find_entity {scope : QueryScope} {e : Entity}
    (hparse : parse.Faithful) (h : Source.parse parse text = .ok s)
    (ha : Analyzer.create parse b text = .ok a)
    (he : a.find scope cursor = .ok (some e)) :
    (∃ d kind name stop, Deepest cursor s.root scope.Admits d ∧ d.definitionKind? = some kind ∧
      kind ≠ .module ∧ s.nameOf kind d = .ok name ∧ s.EndsSignature b d stop ∧
      e = s.entity kind d name (s.lead b d ++ s.definitionText d) stop) ∨
      Outside cursor s.root scope.Admits ∧ e = s.moduleEntity (s.docstringRange? s.root) := by
  have hs := hparse.accepted h
  obtain ⟨table, ht⟩ := Symbols.build_ok hs
  rcases find_cases hs ht scope cursor with
    ⟨i, d, hdeep, hi, hfind, hfind'⟩ | ⟨hout, found, hfind, hfind', hmodule⟩
  · obtain ⟨hd, hdef, -⟩ := hdeep.1
    obtain ⟨kind, hkind, hkne⟩ := isDefinition_iff_exists.1 hdef
    cases b with
    | structural =>
        obtain rfl : .structural s = a := by simpa [Analyzer.create, h] using ha
        obtain ⟨name, hname, ⟨defect, -, herror⟩ | ⟨body, stop, hbody, hend, hok⟩⟩ :=
          Structural.entityOf_definition hs hd hkind hkne
        · rw [hfind, herror] at he
          cases he
        · rw [hfind, hok] at he
          exact .inl ⟨d, kind, name, stop, hdeep, hkind, hkne, hname, ⟨body, hbody, hend⟩,
            (Option.some.inj (Except.ok.inj he)).symm⟩
    | symbols =>
        obtain rfl : .symbols s table = a := by simpa [Analyzer.create, h, ht] using ha
        obtain ⟨kind', name, stop, hkind', hname, hstop, hok⟩ :=
          Symbols.entityOf_definition hs hd hdef hi
        obtain rfl := Option.some.inj (hkind.symm.trans hkind')
        rw [hfind', hok] at he
        exact .inl ⟨d, kind, name, stop, hdeep, hkind, hkne, hname, ⟨kind, hstop⟩,
          (Option.some.inj (Except.ok.inj he)).symm⟩
  · have hfound : found = some e := by
      cases b with
      | structural =>
          obtain rfl : .structural s = a := by simpa [Analyzer.create, h] using ha
          exact Except.ok.inj (hfind.symm.trans he)
      | symbols =>
          obtain rfl : .symbols s table = a := by simpa [Analyzer.create, h, ht] using ha
          exact Except.ok.inj (hfind'.symm.trans he)
    exact .inr ⟨hout, hmodule e hfound⟩

theorem find_eq_some {scope : QueryScope} {e : Entity}
    (hparse : parse.Faithful) (h : Source.parse parse text = .ok s)
    (ha : Analyzer.create parse b text = .ok a)
    (he : a.find scope cursor = .ok (some e)) :
    (∃ d n, Deepest cursor s.root scope.Admits d ∧ e.named? = some n ∧ Describes s b d n) ∨
      Outside cursor s.root scope.Admits ∧ e = s.moduleEntity (s.docstringRange? s.root) := by
  rcases find_entity hparse h ha he with ⟨d, kind, name, stop, hdeep, -, -, -, hstop, rfl⟩ | hout
  · obtain ⟨n, hn, hd⟩ := exists_describes kind name hdeep.1.1 hdeep.1.2.1 hstop
    exact .inl ⟨d, n, hdeep, hn, hd⟩
  · exact .inr hout

theorem find_named {scope : QueryScope} {e : Entity} {n : NamedEntity}
    (hparse : parse.Faithful) (h : Source.parse parse text = .ok s)
    (ha : Analyzer.create parse b text = .ok a)
    (he : a.find scope cursor = .ok (some e)) (hn : e.named? = some n) :
    ∃ d, Deepest cursor s.root scope.Admits d ∧ Describes s b d n := by
  rcases find_eq_some hparse h ha he with ⟨d, n', hdeep, hn', hd⟩ | ⟨-, rfl⟩
  · obtain rfl := Option.some.inj (hn.symm.trans hn')
    exact ⟨d, hdeep, hd⟩
  · cases hn

namespace Source

variable {d literal : Node} {range : DocumentRange}

theorem unparenthesized_mem :
    (∀ n : Node, n.unparenthesized ∈ n.preorder) ∧
      ∀ (ns : Forest) (m : Node), soleInner? ns = some m → m ∈ preorderAll ns := by
  apply Node.induction
  case mk =>
    intro k r b e cs ih
    rw [unparenthesized]
    split
    · cases hinner : soleInner? cs with
      | none => exact mem_preorder.2 (.inl rfl)
      | some m => exact mem_preorder.2 (.inr (ih m hinner))
    · exact mem_preorder.2 (.inl rfl)
  case nil => simp [soleInner?]
  case cons =>
    intro n ns ihn ihns m hm
    rw [soleInner?] at hm
    split at hm
    · split at hm
      · cases hm
      · obtain rfl := Option.some.inj hm
        simp [ihn]
    · simp [ihns m hm]

theorem docstringRange?_eq_some_iff : s.docstringRange? d = some range ↔
    ∃ statement only, d.firstStatement? = some statement ∧
      statement.kind = .expressionStatement ∧ statement.namedChildren = [only] ∧
      s.isDocstring only.unparenthesized ∧
      range = .ofLocations only.unparenthesized.start only.unparenthesized.stop := by
  constructor
  · intro h
    obtain ⟨statement, hstatement, h⟩ := Option.bind_eq_some_iff.1 h
    dsimp only at h
    split at h
    · cases h
    rename_i hkind
    split at h
    case h_2 => cases h
    case h_1 only honly =>
      obtain ⟨literal, hliteral, h⟩ := Option.bind_eq_some_iff.1 h
      obtain rfl := Option.some.inj hliteral
      split at h
      case isFalse => cases h
      case isTrue hdocstring =>
        exact ⟨statement, only, hstatement, not_not.1 hkind, honly, hdocstring,
          (Option.some.inj h).symm⟩
  · rintro ⟨statement, only, hstatement, hkind, honly, hdocstring, rfl⟩
    simp [docstringRange?, hstatement, hkind, honly, hdocstring]

theorem docstringRange?_eq_some (h : s.docstringRange? d = some range) :
    ∃ literal ∈ d.inner, s.isDocstring literal ∧
      range = .ofLocations literal.start literal.stop := by
  obtain ⟨statement, only, hstatement, -, honly, hdocstring, rfl⟩ :=
    docstringRange?_eq_some_iff.1 h
  have hmem : only ∈ statement.children :=
    List.mem_of_mem_filter (p := isNamed) (by rw [← namedChildren, honly]; simp)
  exact ⟨_, inner_trans (firstStatement?_mem hstatement)
    (mem_preorderAll.2 ⟨only, hmem, unparenthesized_mem.1 only⟩), hdocstring, rfl⟩

end Source

theorem Analyzer.create_backend (h : create parse b text = .ok a) : a.backend = b := by
  obtain ⟨s, -, h⟩ := bind_eq_ok.1 h
  cases b with
  | structural =>
      obtain rfl := Except.ok.inj h
      rfl
  | symbols =>
      obtain ⟨table, -, h⟩ := bind_eq_ok.1 h
      obtain rfl := Except.ok.inj h
      rfl

end DocstringEditor.Analysis

namespace DocstringEditor

open Analysis

namespace Query

variable {parse : Parse} {q : Query} {backend : String} {e : Entity} {found : Option Entity}

theorem run_eq_ok : q.run parse = .ok (backend, found) ↔ ∃ b a cursor,
    Registry.builtin.backend? (q.backend.getD defaultBackend) = some b ∧ backend = b.name ∧
      q.position.toDocument = .ok cursor ∧ Analyzer.create parse b q.source = .ok a ∧
      a.find q.scope cursor = .ok found := by
  constructor
  · intro hrun
    obtain ⟨⟨a, cursor⟩, hopen, hask⟩ := bind_eq_ok.1 hrun
    obtain ⟨cursor', hcursor, hmake⟩ := bind_eq_ok.1 hopen
    obtain ⟨a', hcreate, hpair⟩ := bind_eq_ok.1 hmake
    obtain ⟨rfl, rfl⟩ := Prod.mk.inj (Except.ok.inj hpair)
    obtain ⟨found', hfind, hanswer⟩ := bind_eq_ok.1 hask
    obtain ⟨rfl, rfl⟩ := Prod.mk.inj (Except.ok.inj hanswer)
    rw [Registry.create, Registry.createWith] at hcreate
    split at hcreate
    · rename_i b hb
      exact ⟨b, a', cursor', hb, by rw [Analyzer.create_backend hcreate],
        mapError_eq_ok.1 hcursor, hcreate, hfind⟩
    · cases hcreate
  · rintro ⟨b, a, cursor, hb, rfl, hcursor, hcreate, hfind⟩
    simp [run, open?, hcursor, Registry.create, Registry.createWith, hb, hcreate, hfind,
      Analyzer.create_backend hcreate]

theorem require_eq_ok : q.require parse = .ok (backend, e) ↔
    q.run parse = .ok (backend, some e) := by
  unfold require
  cases q.run parse with
  | error error => exact iff_of_false (by simp [bind, Except.bind]) (by simp)
  | ok answer =>
      obtain ⟨backend', found⟩ := answer
      cases found <;> simp

theorem resolve_eq_ok : q.resolve parse = .ok ⟨backend, found⟩ ↔
    q.run parse = .ok (backend, found) := by
  unfold resolve
  cases q.run parse with
  | error error => exact iff_of_false (by simp [bind, Except.bind]) (by simp)
  | ok answer => simp [Prod.ext_iff]

theorem require_named (hparse : parse.Faithful) {n : NamedEntity}
    (h : q.require parse = .ok (backend, e)) (hn : e.named? = some n) : ∃ s b cursor d,
      Source.parse parse q.source = .ok s ∧ backend = b.name ∧ q.position.toDocument = .ok cursor ∧
      Deepest cursor s.root q.scope.Admits d ∧ Describes s b d n := by
  obtain ⟨b, a, cursor, -, hbackend, hcursor, hcreate, hfind⟩ := run_eq_ok.1 (require_eq_ok.1 h)
  obtain ⟨s, hs, -⟩ := bind_eq_ok.1 hcreate
  obtain ⟨d, hdeep, hd⟩ := find_named hparse hs hcreate hfind hn
  exact ⟨s, b, cursor, d, hs, hbackend, hcursor, hdeep, hd⟩

end Query

end DocstringEditor
