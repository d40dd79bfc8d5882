import DocstringEditor.Proofs.Analysis.Answer
import DocstringEditor.Proofs.Json.Decoder

namespace DocstringEditor

open Analysis Syntax Syntax.Node

namespace Entity

def positions : Entity → List DocumentPosition
  | module e => e.docstring.toList.flatMap fun r => [r.start, r.stop]
  | classDef e | functionDef e =>
    [e.range.start, e.range.stop, e.signatureEnd] ++
      e.docstring.toList.flatMap fun r => [r.start, r.stop]

def received : Entity → Entity
  | module e => module e
  | classDef e => classDef { e with source := [] }
  | functionDef e => functionDef { e with source := [] }

/-- Whether two entities are the same to everybody who does not ask for their source. -/
structure Agrees (e e' : Entity) : Prop where
  kind : e.kind = e'.kind
  name : e.name? = e'.name?
  code : e.code = e'.code
  range : e.named?.map (·.range) = e'.named?.map (·.range)
  signatureEnd : e.named?.map (·.signatureEnd) = e'.named?.map (·.signatureEnd)
  docstring : e.docstring = e'.docstring
  indentLevel : e.named?.map (·.indentLevel) = e'.named?.map (·.indentLevel)
  clean (skip : List String) : e.clean skip = e'.clean skip
  plan (generated : Text) (onNewLine : Bool) (document : Text) :
    Docstring.plan e generated onNewLine document = Docstring.plan e' generated onNewLine document

theorem received_agrees (e : Entity) : e.received.Agrees e := by
  cases e <;> exact ⟨rfl, rfl, rfl, rfl, rfl, rfl, rfl, fun _ => rfl, fun _ _ _ => rfl⟩

end Entity

namespace Json.Decoder

theorem entityKind_name (k : EntityKind) (isNothing : Json → Bool) :
    entityKind isNothing (.ofString k.name) = .ok k := by
  cases k <;> rfl

theorem documentRange_toJson {r : DocumentRange} (hstart : r.start.line ≠ 0)
    (hstop : r.stop.line ≠ 0) : documentRange r.toJson = .ok r :=
  range_toJson (documentPosition_toJson hstart) (documentPosition_toJson hstop)

theorem docstring_toJson {o : Option DocumentRange}
    (h : ∀ p ∈ o.toList.flatMap fun r => [r.start, r.stop], p.line ≠ 0) :
    option documentRange (.ofOption Range.toJson o) = .ok o := by
  cases o with
  | none => rfl
  | some r =>
      have hr : documentRange r.toJson = .ok r :=
        documentRange_toJson (h r.start (by simp)) (h r.stop (by simp))
      rw [Json.ofOption, option, hr]
      · rfl
      · nofun

theorem namedEntity_fields {e : NamedEntity} (h : ∀ p ∈ (Entity.classDef e).positions, p.line ≠ 0) :
    namedEntity (.object (Entity.namedFields e)) = .ok { e with source := [] } := by
  simp only [Entity.positions, List.mem_append, List.mem_cons, List.not_mem_nil, or_false] at h
  have hrange := documentRange_toJson (h e.range.start (by simp)) (h e.range.stop (by simp))
  have hstop := documentPosition_toJson (h e.signatureEnd (by simp))
  have hdocstring := docstring_toJson fun p hp => h p (.inr hp)
  simp [namedEntity, Entity.namedFields, field?, required, flatten, hrange, hstop, hdocstring,
    Functor.map, Except.map]

theorem moduleEntity_fields {e : ModuleEntity} (h : ∀ p ∈ (Entity.module e).positions, p.line ≠ 0) :
    moduleEntity (.object (Entity.module e).fields) = .ok e := by
  have hdocstring := docstring_toJson h
  simp [moduleEntity, Entity.fields, field?, required, flatten, hdocstring, Functor.map, Except.map]

/-- The kind of an entity and its other fields are told apart. -/
theorem entity_fields {k : EntityKind} {fields : List (String × Json)}
    (h : ∀ f ∈ fields, f.1 ≠ "kind") :
    entity (.object (("kind", .ofString k.name) :: fields)) =
      match k with
      | .module => Entity.module <$> moduleEntity (.object fields)
      | .classDef => Entity.classDef <$> namedEntity (.object fields)
      | .functionDef => Entity.functionDef <$> namedEntity (.object fields) := by
  have hkind : fields.filter (·.1 = "kind") = [] := by simpa using h
  have hrest : fields.filter (·.1 ≠ "kind") = fields := by simpa using h
  have hone : field? "kind" pure (("kind", .ofString k.name) :: fields) =
      .ok (some (.ofString k.name)) := by
    rw [field?, List.filter_cons_of_pos (by simp), hkind]
    rfl
  have hothers : (("kind", Json.ofString k.name) :: fields).filter (·.1 ≠ "kind") = fields := by
    rw [List.filter_cons_of_neg (by simp), hrest]
  cases k <;> simp only [entity, hone, ok_bind, required, pure_eq_ok, hothers, entityKind_name]

theorem entity_toJson {e : Entity} (h : ∀ p ∈ e.positions, p.line ≠ 0) :
    entity e.toJson = .ok e.received := by
  rw [Entity.toJson, entity_fields]
  · cases e with
    | module m =>
        simp only [Entity.kind, moduleEntity_fields h]
        rfl
    | classDef n | functionDef n =>
        simp only [Entity.kind, Entity.fields, namedEntity_fields h]
        rfl
  · cases e <;> simp [Entity.fields, Entity.namedFields]

theorem lines_of_gives {r : DocumentRange} (h : documentRange.Gives r) :
    r.start.line ≠ 0 ∧ r.stop.line ≠ 0 :=
  ⟨line_of_gives (ends_of_gives h).1, line_of_gives (ends_of_gives h).2⟩

theorem lines_of_docstring {o : Option DocumentRange}
    (h : ∀ r, o = some r → documentRange.Gives r) :
    ∀ p ∈ o.toList.flatMap fun r => [r.start, r.stop], p.line ≠ 0 := by
  intro p hp
  obtain ⟨r, hr, hp⟩ := List.mem_flatMap.1 hp
  obtain ⟨hstart, hstop⟩ := lines_of_gives (h r (Option.mem_toList.1 hr))
  rcases List.mem_cons.1 hp with rfl | hp
  · exact hstart
  · obtain rfl := List.mem_singleton.1 hp
    exact hstop

theorem gives_of_flatten {name : String} {o : Option (Option DocumentRange)}
    {fields : List (String × Json)}
    (h : field? name (option documentRange) fields = .ok o) :
    ∀ r, flatten o = some r → documentRange.Gives r := by
  intro r hr
  obtain rfl : o = some (some r) := by
    cases o with
    | none => cases hr
    | some o => exact congrArg some hr
  obtain ⟨v, hv⟩ := gives_of_field? h
  exact gives_of_option hv

theorem lines_of_moduleEntity {v : Json} {e : ModuleEntity} (h : moduleEntity v = .ok e) :
    ∀ p ∈ (Entity.module e).positions, p.line ≠ 0 := by
  apply lines_of_docstring
  unfold moduleEntity at h
  split at h
  · obtain ⟨code, -, h⟩ := bind_eq_ok.1 h
    obtain ⟨docstring, hdocstring, h⟩ := bind_eq_ok.1 h
    obtain ⟨code', -, h⟩ := bind_eq_ok.1 h
    obtain rfl := Except.ok.inj h
    exact gives_of_flatten hdocstring
  · obtain ⟨code, -, h⟩ := bind_eq_ok.1 h
    obtain ⟨docstring, hdocstring, h⟩ := bind_eq_ok.1 h
    obtain rfl := Except.ok.inj h
    rintro r rfl
    exact gives_of_option hdocstring
  · cases h

theorem gives_of_namedEntity {v : Json} {e : NamedEntity} (h : namedEntity v = .ok e) :
    documentRange.Gives e.range ∧ documentPosition.Gives e.signatureEnd ∧
      (∀ r, e.docstring = some r → documentRange.Gives r) ∧ e.source = [] := by
  unfold namedEntity at h
  split at h
  · obtain ⟨code, -, h⟩ := bind_eq_ok.1 h
    obtain ⟨range, hrange, h⟩ := bind_eq_ok.1 h
    obtain ⟨docstring, hdocstring, h⟩ := bind_eq_ok.1 h
    obtain ⟨indentLevel, -, h⟩ := bind_eq_ok.1 h
    obtain ⟨name, -, h⟩ := bind_eq_ok.1 h
    obtain ⟨signatureEnd, hsignatureEnd, h⟩ := bind_eq_ok.1 h
    obtain ⟨name', -, h⟩ := bind_eq_ok.1 h
    obtain ⟨code', -, h⟩ := bind_eq_ok.1 h
    obtain ⟨range', hrange', h⟩ := bind_eq_ok.1 h
    obtain ⟨signatureEnd', hsignatureEnd', h⟩ := bind_eq_ok.1 h
    obtain ⟨indentLevel', -, h⟩ := bind_eq_ok.1 h
    obtain rfl := Except.ok.inj h
    obtain rfl := required_eq_ok.1 hrange'
    obtain rfl := required_eq_ok.1 hsignatureEnd'
    exact ⟨gives_of_field? hrange, gives_of_field? hsignatureEnd, gives_of_flatten hdocstring, rfl⟩
  · obtain ⟨name, -, h⟩ := bind_eq_ok.1 h
    obtain ⟨code, -, h⟩ := bind_eq_ok.1 h
    obtain ⟨range, hrange, h⟩ := bind_eq_ok.1 h
    obtain ⟨signatureEnd, hsignatureEnd, h⟩ := bind_eq_ok.1 h
    obtain ⟨docstring, hdocstring, h⟩ := bind_eq_ok.1 h
    obtain ⟨indentLevel, -, h⟩ := bind_eq_ok.1 h
    obtain rfl := Except.ok.inj h
    refine ⟨⟨_, hrange⟩, ⟨_, hsignatureEnd⟩, ?_, rfl⟩
    rintro r rfl
    exact gives_of_option hdocstring
  · cases h

theorem lines_of_namedEntity {v : Json} {e : NamedEntity} (h : namedEntity v = .ok e) :
    ∀ p ∈ (Entity.classDef e).positions, p.line ≠ 0 := by
  obtain ⟨hrange, hsignatureEnd, hdocstring, -⟩ := gives_of_namedEntity h
  intro p hp
  simp only [Entity.positions, List.mem_append, List.mem_cons, List.not_mem_nil, or_false] at hp
  rcases hp with (rfl | rfl | rfl) | hp
  · exact (lines_of_gives hrange).1
  · exact (lines_of_gives hrange).2
  · exact line_of_gives hsignatureEnd
  · exact lines_of_docstring hdocstring p hp

theorem lines_of_kind {k : EntityKind} {rest : Json} {e : Entity}
    (h : (match k with
      | .module => Entity.module <$> moduleEntity rest
      | .classDef => Entity.classDef <$> namedEntity rest
      | .functionDef => Entity.functionDef <$> namedEntity rest) = .ok e) :
    (∀ p ∈ e.positions, p.line ≠ 0) ∧ e.received = e := by
  cases k with
  | module =>
      obtain ⟨m, hm, rfl⟩ := map_eq_ok.1 h
      exact ⟨lines_of_moduleEntity hm, rfl⟩
  | classDef | functionDef =>
      obtain ⟨n, hn, rfl⟩ := map_eq_ok.1 h
      refine ⟨lines_of_namedEntity hn, ?_⟩
      rw [Entity.received, ← (gives_of_namedEntity hn).2.2.2]

/-- What has been received is an entity without a source, and its lines are document lines. -/
theorem lines_of_entity {v : Json} {e : Entity} (h : entity v = .ok e) :
    (∀ p ∈ e.positions, p.line ≠ 0) ∧ e.received = e := by
  unfold entity at h
  dsimp only at h
  split at h
  · obtain ⟨kind, -, h⟩ := bind_eq_ok.1 h
    obtain ⟨kind', -, h⟩ := bind_eq_ok.1 h
    obtain ⟨pair, -, h⟩ := bind_eq_ok.1 h
    obtain ⟨k, -, h⟩ := bind_eq_ok.1 h
    exact lines_of_kind h
  · obtain ⟨pair, -, h⟩ := bind_eq_ok.1 h
    obtain ⟨k, -, h⟩ := bind_eq_ok.1 h
    exact lines_of_kind h
  · cases h

end Json.Decoder

namespace Analysis

variable {s : Source} {b : Backend} {a : Analyzer} {cursor : DocumentPosition} {d : Node}

theorem line_ofLocation {l : Location} (h : l.Fits) : (Position.ofLocation l).line ≠ 0 := by
  intro hzero
  have hline := h.line
  rw [hzero] at hline
  exact absurd hline (Nat.succ_ne_zero l.row).symm

theorem lines_ofLocations {start stop : Location} (hstart : start.Fits) (hstop : stop.Fits) :
    (Range.ofLocations start stop).start.line ≠ 0 ∧
      (Range.ofLocations start stop).stop.line ≠ 0 := by
  refine ⟨line_ofLocation hstart, ?_⟩
  simp only [Range.ofLocations]
  split
  · exact line_ofLocation hstart
  · exact line_ofLocation hstop

theorem lines_docstringRange? (hs : s.Accepted) (hd : d ∈ s.root.preorder) :
    ∀ p ∈ (s.docstringRange? d).toList.flatMap fun r => [r.start, r.stop], p.line ≠ 0 := by
  intro p hp
  obtain ⟨r, hr, hp⟩ := List.mem_flatMap.1 hp
  obtain ⟨literal, hliteral, -, rfl⟩ := Source.docstringRange?_eq_some (Option.mem_toList.1 hr)
  have hin : literal ∈ s.root.preorder := by
    rcases mem_preorder.1 hd with rfl | hd
    · exact mem_preorder.2 (.inr hliteral)
    · exact mem_preorder.2 (.inr (inner_trans hd hliteral))
  have hregular := hs.tree.regular
  have hlines := lines_ofLocations (hregular.fits_start hin) (hregular.fits_stop hin)
  rcases List.mem_cons.1 hp with rfl | hp
  · exact hlines.1
  · obtain rfl := List.mem_singleton.1 hp
    exact hlines.2

theorem line_signatureEnd (hs : s.Accepted) (hd : d ∈ s.root.inner) {stop : DocumentPosition}
    (h : s.EndsSignature b d stop) : stop.line ≠ 0 := by
  cases b with
  | structural =>
      obtain ⟨body, -, h⟩ := h
      obtain ⟨colon, -, h⟩ := Option.bind_eq_some_iff.1 h
      obtain rfl := Option.some.inj h
      dsimp only
      split
      · decide
      · assumption
  | symbols =>
      obtain ⟨kind, h⟩ := h
      unfold Symbols.signatureEnd at h
      split at h
      · cases h
      · rename_i colon hcolon
        have hchild := List.mem_of_mem_filter (List.mem_of_getLast? hcolon)
        have hin : colon ∈ s.root.inner :=
          inner_trans hd (mem_preorderAll.2 ⟨colon, hchild, by simp⟩)
        have hline := line_ofLocation (hs.tree.regular.fits_stop (mem_preorder.2 (.inr hin)))
        obtain rfl := Except.ok.inj h
        simpa only [apply_ite Position.line, ite_self] using hline

/-- All document lines of an entity that a query finds count from 1. -/
theorem find_lines {parse : Parse} (hparse : parse.Faithful) {text : Text} {scope : QueryScope}
    {e : Entity} (h : Source.parse parse text = .ok s) (ha : Analyzer.create parse b text = .ok a)
    (he : a.find scope cursor = .ok (some e)) : ∀ p ∈ e.positions, p.line ≠ 0 := by
  have hs := hparse.accepted h
  rcases find_eq_some hparse h ha he with ⟨d, n, -, hn, hd⟩ | ⟨-, rfl⟩
  · have hpositions : e.positions = (Entity.classDef n).positions := by
      cases e with
      | module m => cases hn
      | classDef n' | functionDef n' =>
          obtain rfl := Option.some.inj hn
          rfl
    have hin : d ∈ s.root.preorder := mem_preorder.2 (.inr hd.mem)
    have hregular := hs.tree.regular
    have hrange : n.range.start.line ≠ 0 ∧ n.range.stop.line ≠ 0 := by
      rw [hd.range]
      exact lines_ofLocations (hregular.fits_start hin) (hregular.fits_logicalEnd hin)
    rw [hpositions]
    intro p hp
    simp only [Entity.positions, List.mem_append, List.mem_cons, List.not_mem_nil, or_false] at hp
    rcases hp with (rfl | rfl | rfl) | hp
    · exact hrange.1
    · exact hrange.2
    · exact line_signatureEnd hs hd.mem hd.signatureEnd
    · rw [hd.docstring] at hp
      exact lines_docstringRange? hs hin p hp
  · exact lines_docstringRange? hs (mem_preorder.2 (.inl rfl))

end Analysis

open Json.Decoder

/-- What a query finds is received as it was sent, and what has been received can be sent on. -/
theorem found_received {parse : Parse} (hparse : parse.Faithful) :
    (∀ (b : Backend) (text : Text) (a : Analyzer) (scope : QueryScope) (cursor : DocumentPosition)
        (e : Entity), Analyzer.create parse b text = .ok a → a.find scope cursor = .ok (some e) →
      ∃ e', Json.Decoder.entity e.toJson = .ok e' ∧ e'.Agrees e) ∧
    ∀ (v : Json) (e : Entity), Json.Decoder.entity v = .ok e →
      (∀ p ∈ e.positions, 1 ≤ p.line) ∧ Json.Decoder.entity e.toJson = .ok e := by
  constructor
  · intro b text a scope cursor e ha he
    obtain ⟨s, hs, -⟩ := bind_eq_ok.1 ha
    exact ⟨e.received, entity_toJson (find_lines hparse hs ha he), e.received_agrees⟩
  · intro v e h
    obtain ⟨hlines, hreceived⟩ := lines_of_entity h
    refine ⟨fun p hp => ?_, ?_⟩
    · have hline : p.line.toNat ≠ 0 := fun hzero => hlines p hp (UInt32.toNat_inj.1 hzero)
      exact UInt32.le_iff_toNat_le.2 (Nat.one_le_iff_ne_zero.2 hline)
    · rw [entity_toJson hlines, hreceived]

theorem found_received_method :
    (∃ a e e', Analyzer.create python .symbols
        "class A:\n\tdef f(self):\n\t\t'doc'\n\t\treturn 0\n".toList = .ok a ∧
      a.find .function ⟨3, 4⟩ = .ok (some e) ∧ e.name? = some "f" ∧
      Json.Decoder.entity e.toJson = .ok e' ∧ e'.Agrees e) ∧
    ∃ e, Json.Decoder.entity (.array [.ofString "class", .ofString "A", .ofString "class A: 0",
        .array [.array [.natural 1, .natural 0], .array [.natural 1, .natural 10]],
        .array [.natural 1, .natural 8], .null, .natural 0]) = .ok e ∧
      (∀ p ∈ e.positions, 1 ≤ p.line) ∧ Json.Decoder.entity e.toJson = .ok e := by
  constructor
  · have hmethod : (Analyzer.create python .symbols
        "class A:\n\tdef f(self):\n\t\t'doc'\n\t\treturn 0\n".toList >>=
        (·.find .function ⟨3, 4⟩)).toOption.any (·.any (·.name? = some "f")) := by decide +kernel
    obtain ⟨found, hfound, hany⟩ := (Option.any_eq_true _ _).1 hmethod
    obtain ⟨e, rfl, hname⟩ := (Option.any_eq_true _ _).1 hany
    obtain ⟨a, ha, he⟩ := bind_eq_ok.1 (toOption_eq_some.1 hfound)
    obtain ⟨e', hdecoded, hagrees⟩ := (found_received python_faithful).1 _ _ a _ _ e ha he
    exact ⟨a, e, e', ha, he, of_decide_eq_true hname, hdecoded, hagrees⟩
  · have hclass : Json.Decoder.entity (.array [.ofString "class", .ofString "A",
        .ofString "class A: 0",
        .array [.array [.natural 1, .natural 0], .array [.natural 1, .natural 10]],
        .array [.natural 1, .natural 8], .null, .natural 0]) =
        .ok (.classDef ⟨"A", "class A: 0".toList, ⟨⟨1, 0⟩, ⟨1, 10⟩⟩, ⟨1, 8⟩, none, 0, []⟩) := by
      decide +kernel
    exact ⟨_, hclass, (found_received python_faithful).2 _ _ hclass⟩

end DocstringEditor
