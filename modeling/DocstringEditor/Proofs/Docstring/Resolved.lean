import DocstringEditor.Proofs.Analysis.Offside
import DocstringEditor.Proofs.Docstring.Removal

namespace DocstringEditor

open Analysis Docstring Syntax Syntax.Node
open Header (IsInside)
open Text (byteSize splitLines)

variable {parse : Parse} {s s' : Source} {b : Backend} {d d' stmt literal : Node} {e : Entity}
  {n : NamedEntity} {row row' : Nat} {w : Insertion} {kind : EntityKind} {name : String}
  {cursor stop : DocumentPosition}

theorem Analysis.docstring_entity (kind : EntityKind) (name : String) (code : Text)
    (stop : DocumentPosition) :
    (s.entity kind d name code stop).docstring = s.docstringRange? d := by
  cases kind <;> rfl

theorem Analysis.name?_entity (kind : EntityKind) (name : String) (code : Text)
    (stop : DocumentPosition) : (s.entity kind d name code stop).name? = some name := by
  cases kind <;> rfl

theorem Analysis.Receives.nameOf {moved : Location → Location → Prop}
    (h : Receives s s' moved d stmt d') (hname : s.nameOf kind d = .ok name) :
    s'.nameOf kind d' = .ok name := by
  unfold Source.nameOf at hname ⊢
  cases hchild : d.child? .name with
  | none => simp [hchild] at hname
  | some m =>
      obtain ⟨m', hm', htext⟩ := h.name m hchild
      rw [hchild] at hname
      simpa only [hm', htext] using hname

theorem Analysis.Grafted.exists_definition {gone kept : Forest} (hs' : s'.Accepted)
    (hdef : d.isDefinition) (hstmt : w.Stated stmt literal)
    (hgraft : Grafted s s' (w.Moved row row') d stmt gone kept s.root s'.root) :
    ∃ d' ∈ s'.root.inner, d'.isDefinition ∧ Receives s s' (w.Moved row row') d stmt d' := by
  obtain ⟨d', hd', hreceives⟩ := hgraft.exists_receives hdef hs'.tidy hstmt.isNamed
    hstmt.not_comment fun m hm => hstmt.not_isDefinition hm
  have hdef' : d'.isDefinition := by rwa [isDefinition, hreceives.kind]
  refine ⟨d', (mem_preorder.1 hd').resolve_left ?_, hdef', hreceives⟩
  rintro rfl
  simp [isDefinition, hs'.tree.kind] at hdef'

theorem Analysis.Grafted.literal_mem {gone kept : Forest} (hs' : s'.Accepted)
    (hdef : d.isDefinition) (hstmt : w.Stated stmt literal)
    (hgraft : Grafted s s' (w.Moved row row') d stmt gone kept s.root s'.root) :
    literal ∈ s'.root.inner := by
  obtain ⟨d', hd', -, hreceives⟩ := hgraft.exists_definition hs' hdef hstmt
  refine inner_trans (inner_trans hd' (firstStatement?_mem hreceives.first)) ?_
  exact mem_preorderAll.2 ⟨literal, by simp [hstmt.children], by simp⟩

/-- An accepted document with a new line has a docstring there. -/
theorem exists_found {gone kept : Forest} (hs : s.Accepted) (hparse : parse.Faithful)
    (hok' : Source.parse parse s'.text = .ok s') (h : Inserts s s' row row' w)
    (slot : Slot s d row row') (hd : d ∈ s.root.inner) (hkind : d.definitionKind? = some kind)
    (hne : kind ≠ .module) (hname : s.nameOf kind d = .ok name) (hend : s.EndsSignature b d stop)
    (hrow : stop.row < row) (hstmt : w.Stated stmt literal)
    (hgraft : Grafted s s' (w.Moved row row') d stmt gone kept s.root s'.root)
    (hline : cursor.line.toNat = d.start.row + 1)
    (hcharacter : cursor.character.toNat = d.start.column + 1) :
    ∃ a e', Analyzer.create parse b s'.text = .ok a ∧ a.find .context cursor = .ok (some e') ∧
      e'.kind = kind ∧ e'.name? = some name ∧
      e'.docstring = some (rangeOfText (w.above ++ w.blanks) (quoted w.inside)) := by
  have hs' := hparse.accepted hok'
  have hdef := isDefinition_iff_exists.2 ⟨kind, hkind, hne⟩
  obtain ⟨d', hd', hdef', hreceives⟩ := hgraft.exists_definition hs' hdef hstmt
  have hkind' : d'.definitionKind? = some kind := by
    rw [← hkind, definitionKind?, definitionKind?, hreceives.kind]
  have hname' := hreceives.nameOf hname
  have hdocstring := docstringRange?_stated h hstmt hreceives.first
  have hentity (code : Text) (stop : DocumentPosition) :
      (s'.entity kind d' name code stop).kind = kind ∧
      (s'.entity kind d' name code stop).name? = some name ∧
      (s'.entity kind d' name code stop).docstring =
        some (rangeOfText (w.above ++ w.blanks) (quoted w.inside)) :=
    ⟨kind_entity hne .., name?_entity .., (docstring_entity ..).trans hdocstring⟩
  obtain ⟨table, ht⟩ := Symbols.build_ok hs'
  have hdeep := deepest_receives hs' h slot hd' hdef' hreceives hline hcharacter
  rcases find_cases hs' ht .context cursor with ⟨i, d₂, hdeep₂, hi, hfind, hfind'⟩ | ⟨hout, -⟩
  · obtain rfl := hdeep.unique hdeep₂
    cases b with
    | structural =>
        obtain ⟨body, hbody, hend⟩ := hend
        obtain ⟨stop', hend'⟩ := exists_headerEnd hs hs' h slot hd hdef hd' hdef' hstmt hreceives
          hbody hend hrow
        obtain ⟨name', hname'', ⟨defect, hlacks, -⟩ | ⟨body', stop'', -, -, hok⟩⟩ :=
          Structural.entityOf_definition hs' hd' hkind' hne
        · cases hlacks with
          | body _ _ hnone => simp [hreceives.first] at hnone
          | colon _ body' _ hbody' hnone =>
              obtain rfl := Option.some.inj (hreceives.first.symm.trans hbody')
              simp [Structural.headerEnd?_eq_none.2 hnone] at hend'
        · obtain rfl := Except.ok.inj (hname'.symm.trans hname'')
          exact ⟨.structural s', _, by simp [Analyzer.create, hok'], by rw [hfind, hok]; rfl,
            hentity _ _⟩
    | symbols =>
        obtain ⟨kind'', name', stop', hkind'', hname'', -, hok⟩ :=
          Symbols.entityOf_definition hs' hd' hdef' hi
        obtain rfl := Option.some.inj (hkind'.symm.trans hkind'')
        obtain rfl := Except.ok.inj (hname'.symm.trans hname'')
        exact ⟨.symbols s' table, _, by simp [Analyzer.create, hok', ht], by rw [hfind', hok]; rfl,
          hentity _ _⟩
  · exact absurd trivial (hout d' hdeep.1.1 hdeep.1.2.1 hdeep.1.2.2.1)

/-- What writing a docstring puts into a document, and what it takes out. -/
def Docstring.insertion (r : DocstringRequest) (n : NamedEntity) : Insertion where
  above := ((splitLines r.query.source).take (insertionRow n)).flatten
  removed := (((splitLines r.query.source).take (resumedRow n)).drop (insertionRow n)).flatten
  blanks := indentation n
  inside := written r.query.source r.docstring (n.indentLevel + 1) r.onNewLine
  ending := .ofDocument r.query.source
  below := ((splitLines r.query.source).drop (resumedRow n)).flatten

theorem quoted_eq (inside : Text) : quoted inside = quotes ++ inside ++ quotes := rfl

theorem Docstring.Planned.text_eq_added {r : DocstringRequest} {edit : DocstringEdit}
    (h : Planned r.query.source r.docstring r.onNewLine n edit) :
    edit.text = (insertion r n).added := by
  rw [h.text, ← quoted_eq]
  simp only [Insertion.added, insertion, indentation]

theorem Docstring.Edited.eq_insertion {r : DocstringRequest} {text patched before removed rest : Text}
    (h : Edited r.query.source n text patched before removed rest)
    (hle : insertionRow n ≤ resumedRow n) : Edited r.query.source n text patched
      (insertion r n).above (insertion r n).removed (insertion r n).below := by
  have hremoved : removed = (insertion r n).removed := by
    have hresumed := h.resumed
    rw [h.above, ← Text.flatten_parts _ hle] at hresumed
    exact List.append_cancel_left hresumed
  have hrest : rest = (insertion r n).below := by
    show rest = ((splitLines r.query.source).drop (resumedRow n)).flatten
    rw [h.dropped, Text.flatten_splitLines]
  have habove : before = (insertion r n).above := h.above
  rwa [← habove, ← hremoved, ← hrest]

/-- Whether a document with a literal in a range is accepted, and a query just behind a place finds an
entity like another one there, with its docstring in the range. -/
def Resolves (parse : Parse) (document : Text) (backend : String) (l : Location) (e : Entity)
    (range : DocumentRange) : Prop :=
  (∃ s, Source.parse parse document = .ok s ∧ ∃ literal ∈ s.root.inner, literal.kind = .string ∧
    range = .ofLocations literal.start literal.stop) ∧ ∃ e',
    Query.resolve parse
        { source := document, position := ⟨.ofNat l.row, .ofNat (l.column + 1)⟩, backend } =
      .ok ⟨backend, some e'⟩ ∧
    e'.kind = e.kind ∧ e'.name? = e.name? ∧ e'.docstring = some range

theorem ofLocations_inj {a b a' b' : Location} (ha : a.Fits) (hb : b.Fits) (ha' : a'.Fits)
    (hb' : b'.Fits) (hle : a ≤ b) (hle' : a' ≤ b')
    (h : (Range.ofLocations a b : DocumentRange) = .ofLocations a' b') :
    a.row = a'.row ∧ a.column = a'.column ∧ b.row = b'.row ∧ b.column = b'.column := by
  have hstart := congrArg Range.start h
  have hstop := congrArg Range.stop h
  rw [stop_ofLocations ha hb hle, stop_ofLocations ha' hb' hle'] at hstop
  have hrow := congrArg (·.line.toNat) hstart
  have hcolumn := congrArg (·.character.toNat) hstart
  have hrow' := congrArg (·.line.toNat) hstop
  have hcolumn' := congrArg (·.character.toNat) hstop
  simp only [Range.ofLocations, ha.line, ha'.line, hb.line, hb'.line, ha.character, ha'.character,
    hb.character, hb'.character] at hrow hcolumn hrow' hcolumn'
  omega

theorem Analysis.Insertion.place_start : Place w.text w.start :=
  ⟨_, ⟨quoted w.inside ++ (w.ending.text ++ w.below), by simp [text, added]⟩, rfl⟩

theorem Analysis.Insertion.place_stop : Place w.text w.stop :=
  ⟨_, ⟨w.ending.text ++ w.below, by simp [text, added]⟩, rfl⟩

theorem Analysis.Insertion.start_le_stop : w.start ≤ w.stop := by
  rw [stop, Location.after_append]
  exact Location.le_after w.start _

theorem ends_of_range (hs' : s'.Accepted) (htext : s'.text = w.text) {m : Node}
    (hm : m ∈ s'.root.inner)
    (hrange : rangeOfText (w.above ++ w.blanks) (quoted w.inside) = .ofLocations m.start m.stop) :
    m.start = w.start ∧ m.stop = w.stop := by
  have hsound := hs'.tree.sound m hm
  have hsize := hs'.tree.size
  have hplace : Place s'.text w.start := htext ▸ w.place_start
  have hplace' : Place s'.text w.stop := htext ▸ w.place_stop
  have hle := (hsound.start.le_iff hsound.stop).1
    (within_bounds.1 s'.root hs'.tree.nested m hm).2.1
  obtain ⟨hrow, hcolumn, hrow', hcolumn'⟩ := ofLocations_inj (hplace.fits hsize)
    (hplace'.fits hsize) (hsound.start.fits hsize) (hsound.stop.fits hsize) w.start_le_stop hle hrange
  exact ⟨(hplace.ext hsound.start hrow hcolumn).symm, (hplace'.ext hsound.stop hrow' hcolumn').symm⟩

/-- A named entity that a query requires is that of a definition. -/
theorem Query.require_definition (hparse : parse.Faithful) {q : Query} {backend : String}
    (hs : Source.parse parse q.source = .ok s) (h : q.require parse = .ok (backend, e))
    (hn : e.named? = some n) (hcursor : q.position.toDocument = .ok cursor)
    (hd : Deepest cursor s.root q.scope.Admits d) : ∃ b kind name, backend = b.name ∧
      d.definitionKind? = some kind ∧ kind ≠ .module ∧ s.nameOf kind d = .ok name ∧
      e.kind = kind ∧ e.name? = some name ∧ Describes s b d n := by
  obtain ⟨b, a, cursor', -, rfl, hcursor', hcreate, hfind⟩ := run_eq_ok.1 (require_eq_ok.1 h)
  obtain rfl := Except.ok.inj (hcursor.symm.trans hcursor')
  rcases find_entity hparse hs hcreate hfind with
    ⟨d₂, kind, name, stop, hdeep, hkind, hne, hname, hstop, rfl⟩ | ⟨-, rfl⟩
  · obtain rfl := hd.unique hdeep
    obtain ⟨n', hn', hdescribes⟩ := exists_describes kind name hd.1.1 hd.1.2.1 hstop
    obtain rfl := Option.some.inj (hn.symm.trans hn')
    exact ⟨b, kind, name, rfl, hkind, hne, hname, kind_entity hne .., name?_entity .., hdescribes⟩
  · cases hn

theorem Resolves.exists_docstring (hparse : parse.Faithful) {document : Text} {backend : String}
    {l : Location} {range : DocumentRange} (h : Resolves parse document backend l e range)
    (hkind : e.kind ≠ .module) : ∃ s' d' literal, Source.parse parse document = .ok s' ∧
      d' ∈ s'.root.inner ∧ d'.isDefinition ∧ s'.docstringRange? d' = some range ∧
      literal ∈ s'.root.inner ∧ literal.kind = .string ∧
      range = .ofLocations literal.start literal.stop := by
  obtain ⟨⟨s', hs', literal, hliteral⟩, e', hresolve, hkind', -, hrange⟩ := h
  obtain ⟨b, a, cursor, -, -, -, hcreate, hfind⟩ := Query.run_eq_ok.1 (Query.resolve_eq_ok.1 hresolve)
  rcases find_entity hparse hs' hcreate hfind with
    ⟨d', kind, name, stop, hdeep, -, -, -, -, rfl⟩ | ⟨-, rfl⟩
  · exact ⟨s', d', literal, hs', hdeep.1.1, hdeep.1.2.1, (docstring_entity ..).symm.trans hrange,
      hliteral⟩
  · exact absurd hkind'.symm hkind

theorem Analysis.backend?_builtin (b : Backend) : Registry.builtin.backend? b.name = some b := by
  cases b <;> decide

theorem resolves_of_find {document : Text} {a : Analyzer} {e' : Entity} {l : Location}
    {range : DocumentRange} (hok : Source.parse parse document = .ok s')
    (hliteral : literal ∈ s'.root.inner) (hstring : literal.kind = .string)
    (hends : range = .ofLocations literal.start literal.stop)
    (hcreate : Analyzer.create parse b document = .ok a)
    (hcursor : (⟨.ofNat l.row, .ofNat (l.column + 1)⟩ : ProtocolPosition).toDocument = .ok cursor)
    (hfind : a.find .context cursor = .ok (some e')) (hkind : e'.kind = e.kind)
    (hname : e'.name? = e.name?) (hrange : e'.docstring = some range) :
    Resolves parse document b.name l e range :=
  ⟨⟨s', hok, literal, hliteral, hstring, hends⟩, e', Query.resolve_eq_ok.2 (Query.run_eq_ok.2
    ⟨b, a, cursor, backend?_builtin b, rfl, hcursor, hcreate, hfind⟩), hkind, hname, hrange⟩

/-- There is a position one column behind each place. -/
theorem exists_cursor {T : Text} {l : Location} (h : Place T l)
    (hsize : byteSize T + 1 < UInt32.size) : ∃ cursor : DocumentPosition,
      (⟨.ofNat l.row, .ofNat (l.column + 1)⟩ : ProtocolPosition).toDocument = .ok cursor ∧
        cursor.line.toNat = l.row + 1 ∧ cursor.character.toNat = l.column + 1 := by
  have hbyte := h.byte_le
  have hbounds := h.bounds
  have hrow : (UInt32.ofNat l.row).toNat = l.row := UInt32.toNat_ofNat_of_lt' (by omega)
  refine ⟨⟨.ofNat l.row + 1, .ofNat (l.column + 1)⟩, if_pos (by rw [hrow]; omega),
    (h.fits hsize).line, UInt32.toNat_ofNat_of_lt' (by omega)⟩

namespace Analysis.Parse.Offside

variable {slot : Slot s d row row'} (hrule : parse.Offside slot w)
include hrule

/-- A line that is more indented than the definition and in line with the statements below it is
taken as the first statement. -/
theorem exists_grafted (hs : s.Accepted) (hparse : parse.Faithful)
    (hok : Source.parse parse s.text = .ok s) (hdef : d.isDefinition)
    (hinserts : ∀ s', s'.text = w.text → s'.lines = splitLines s'.text → Inserts s s' row row' w)
    (hw : w.Closed) (hhome : slot.width * slot.home < w.blanks.length)
    (hcolumns : ∀ c ∈ s.columns slot.kept, c = w.blanks.length) :
    ∃ s' stmt literal, Source.parse parse s'.text = .ok s' ∧ s'.text = w.text ∧
      Inserts s s' row row' w ∧ w.Stated stmt literal ∧
      Grafted s s' (w.Moved row row') d stmt slot.gone slot.kept s.root s'.root := by
  have hwidth : 1 ≤ slot.width := by
    unfold Slot.width
    split <;> omega
  obtain ⟨s', stmt, literal, hread, htext, hstmt, hgraft⟩ := hrule.deeper hw hhome fun c hc => by
    rw [hcolumns c hc]
    exact Nat.le_mul_of_pos_left _ hwidth
  have hinsert := hinserts s' htext hread.2.2
  exact ⟨s', stmt, literal, (parse_grafted_iff hs (hread.accepted hparse) hok hread hinsert hdef hstmt
    hgraft).2 hcolumns, htext, hinsert, hstmt, hgraft⟩

/-- A document that is accepted with a literal in the line has it closed by its own quotes. -/
theorem closed (hs' : s'.Accepted) (hread : parse.Reads s') (htext : s'.text = w.text)
    (hliteral : literal ∈ s'.root.inner) (hstring : literal.kind = .string)
    (hends : rangeOfText (w.above ++ w.blanks) (quoted w.inside) =
      .ofLocations literal.start literal.stop) : w.Closed := by
  obtain ⟨hstart, hstop⟩ := ends_of_range hs' htext hliteral hends
  obtain ⟨u, hu, hplain, hquoted⟩ := hrule.closing s' hread htext literal hliteral hstring hstart
  rw [nodeText_eq_quoted htext hstart hstop, quoted, quoted, List.append_cancel_right_eq,
    List.append_cancel_left_eq] at hquoted
  have hsize := hs'.tree.size
  rw [htext] at hsize
  exact ⟨hquoted ▸ hu, hquoted ▸ hplain, hsize⟩

/-- An accepted document that has a docstring in the line has it more indented than the definition
and in line with the statements below. -/
theorem in_line (hs : s.Accepted) (hparse : parse.Faithful)
    (hok : Source.parse parse s.text = .ok s) (hok' : Source.parse parse s'.text = .ok s')
    (hdef : d.isDefinition) (h : Inserts s s' row row' w) (hw : w.Closed) (hd' : d' ∈ s'.root.inner)
    (hdef' : d'.isDefinition)
    (hrange : s'.docstringRange? d' =
      some (rangeOfText (w.above ++ w.blanks) (quoted w.inside))) :
    slot.width * slot.home < w.blanks.length ∧ ∀ c ∈ s.columns slot.kept, c = w.blanks.length := by
  have hread := Source.reads_of_parse hok'
  have hs' := hread.accepted hparse
  obtain ⟨stmt, only, hfirst, hkind, honly, -, hends⟩ := Source.docstringRange?_eq_some_iff.1 hrange
  have hin : only.unparenthesized ∈ stmt.inner := by
    have hmem : only ∈ stmt.children :=
      List.mem_of_mem_filter (p := isNamed) (by rw [← namedChildren, honly]; simp)
    exact mem_preorderAll.2 ⟨only, hmem, Source.unparenthesized_mem.1 only⟩
  have hhome : slot.width * slot.home < w.blanks.length := by
    by_contra hle
    have hroot := inner_trans (inner_trans hd' (firstStatement?_mem hfirst)) hin
    exact hrule.level (Nat.not_lt.1 hle) s' hread h.text d' hd' hdef' stmt hfirst hkind _ hin
      (ends_of_range hs' h.text hroot hends).1
  refine ⟨hhome, ?_⟩
  have hdeep : ∀ c ∈ s.columns slot.kept, w.blanks.length ≤ slot.width * c := by
    intro c hc
    by_contra hlt
    obtain ⟨outer, houter, haligns, hhomeMem, hmem⟩ :=
      hrule.shallower hw hhome c hc (Nat.not_le.1 hlt) s' hread h.text
    have hfault := (fault?_eq_none_of_columns.1 (hread.parse_eq_ok_iff.1 hok' outer houter)).2 haligns
    obtain ⟨column, -, hcolumn⟩ := hfault
    rw [columns_bound] at hcolumn
    have := slot.deeper c hc
    have := hcolumn _ hhomeMem
    have := hcolumn _ hmem
    omega
  obtain ⟨s₂, stmt₂, literal₂, hread₂, htext₂, hstmt₂, hgraft⟩ := hrule.deeper hw hhome hdeep
  obtain rfl := hread.ext hread₂ (h.text.trans htext₂.symm)
  exact (parse_grafted_iff hs hs' hok hread h hdef hstmt₂ hgraft).1 hok'

end Analysis.Parse.Offside

def headerNodes : Forest :=
  [.leaf (.mark "def") .origin ⟨3, 0, 3⟩, .mk .identifier (some .name) ⟨4, 0, 4⟩ ⟨5, 0, 5⟩ [],
    .mk .phrase none ⟨5, 0, 5⟩ ⟨7, 0, 7⟩
      [.leaf (.mark "(") ⟨5, 0, 5⟩ ⟨6, 0, 6⟩, .leaf (.mark ")") ⟨6, 0, 6⟩ ⟨7, 0, 7⟩],
    .leaf (.mark ":") ⟨7, 0, 7⟩ ⟨8, 0, 8⟩]

/-- A literal of four letters. -/
def literalNode (quotes : Nat) : Node :=
  .mk .string none ⟨13, 1, 4⟩ ⟨17 + 2 * quotes, 1, 8 + 2 * quotes⟩
    [.leaf .stringStart ⟨13, 1, 4⟩ ⟨13 + quotes, 1, 4 + quotes⟩,
      .leaf .stringContent ⟨13 + quotes, 1, 4 + quotes⟩ ⟨17 + quotes, 1, 8 + quotes⟩,
      .leaf .stringEnd ⟨17 + quotes, 1, 8 + quotes⟩ ⟨17 + 2 * quotes, 1, 8 + 2 * quotes⟩]

def statementNode (quotes : Nat) : Node :=
  .mk .expressionStatement none (literalNode quotes).start (literalNode quotes).stop
    [literalNode quotes]

def numberNode (quotes : Nat) : Node :=
  .mk .expressionStatement none ⟨22 + 2 * quotes, 2, 4⟩ ⟨23 + 2 * quotes, 2, 5⟩
    [.leaf .phrase ⟨22 + 2 * quotes, 2, 4⟩ ⟨23 + 2 * quotes, 2, 5⟩]

def blockNode (quotes : Nat) : Node :=
  .mk .block (some .body) (statementNode quotes).start (numberNode quotes).stop
    [statementNode quotes, numberNode quotes]

def definitionNode (quotes : Nat) : Node :=
  .mk .functionDefinition none .origin (numberNode quotes).stop (headerNodes ++ [blockNode quotes])

def moduleNode (quotes : Nat) : Node :=
  .mk .module none .origin ⟨24 + 2 * quotes, 3, 0⟩ [definitionNode quotes]

theorem ofText?_old : ofText? oldText = some (moduleNode 1) := by decide +kernel

theorem ofText?_new : ofText? newText = some (moduleNode 3) := by decide +kernel


def oldSource : Source := .ofTree oldText (moduleNode 1)

def newSource : Source := .ofTree newText (moduleNode 3)

instance (n : Node) : Decidable (Aligns n) := inferInstanceAs (Decidable (_ ∨ _))

theorem margins_old : ∀ outer ∈ oldSource.root.named, Aligns outer →
    ∀ m ∈ oldSource.starters outer.namedChildren, (oldSource.margin m).all (· = ' ') := by
  decide

def newLine : Insertion :=
  ⟨"def f():\n".toList, "    'Old.'\n".toList, "    ".toList, "New.".toList, .lf, "    0\n".toList⟩

def oldSlot : Slot oldSource (definitionNode 1) 1 2 where
  front := headerNodes
  block := blockNode 1
  back := []
  gone := [statementNode 1]
  kept := [numberNode 1]
  home := 0
  mark := ' '
  children := rfl
  body := rfl
  statements := rfl
  start := by decide
  keyword := by decide
  above := by decide
  between := by decide
  below := by decide
  wide := by decide
  joined := by decide
  outer := ⟨moduleNode 1, by decide, .inl rfl, definitionNode 1, by decide, .inl rfl, rfl⟩
  deeper := by decide
  blank := .inl rfl
  indents := by simpa using margins_old

theorem grafted_new : Grafted oldSource newSource (newLine.Moved 1 2) (definitionNode 1)
    (statementNode 3) [statementNode 1] [numberNode 1] (moduleNode 1) (moduleNode 3) := by
  have hmodule (quotes : Nat) :
      (moduleNode quotes).children.bound = [] ++ definitionNode quotes :: [] := rfl
  have hdefinition (quotes : Nat) :
      (definitionNode quotes).children.bound = headerNodes ++ blockNode quotes :: [] := rfl
  have hheader : CopiesAll oldSource newSource (newLine.Moved 1 2) headerNodes headerNodes := by decide
  have hkept : CopiesAll oldSource newSource (newLine.Moved 1 2) [numberNode 1] [numberNode 3] := by
    decide
  refine .child rfl rfl (by decide) (hmodule 1) (hmodule 3) .nil .nil ?_
  exact .body rfl rfl (by decide) (hdefinition 1) (hdefinition 3) (copiesAll_iff.1 hheader) .nil
    (by decide) rfl rfl rfl rfl rfl rfl (copiesAll_iff.1 hkept)

theorem reads_new : python.Reads newSource := by
  refine ⟨?_, by decide, rfl⟩
  show python newText = _
  rw [python, ofText?_new]
  rfl

theorem reads_old : python.Reads oldSource := by
  refine ⟨?_, by decide, rfl⟩
  show python oldText = _
  rw [python, ofText?_old]
  rfl

theorem offside_old : python.Offside oldSlot newLine where
  deeper _ _ _ := ⟨newSource, statementNode 3, literalNode 3, reads_new, by decide,
    ⟨rfl, rfl, by decide, rfl, by decide, by decide, by decide⟩, grafted_new⟩
  level hle := absurd hle (by decide)
  shallower _ _ c hc hlt := by
    have hcolumns : ∀ c ∈ oldSource.columns oldSlot.kept,
        ¬oldSlot.width * c < newLine.blanks.length := by decide
    exact absurd hlt (hcolumns c hc)
  closing s' hs' htext l hl hstring hstart := by
    obtain rfl := hs'.ext reads_new (htext.trans (by decide))
    have hquoted : ∀ l ∈ newSource.root.inner, l.kind = .string →
        newSource.nodeText l = quoted "New.".toList := by decide
    exact ⟨_, isInside_new, by decide, hquoted l hl hstring⟩


end DocstringEditor
