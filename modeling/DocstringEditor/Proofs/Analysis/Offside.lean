import DocstringEditor.Proofs.Analysis.DocstringLiteral
import DocstringEditor.Proofs.Analysis.Graft
import DocstringEditor.Proofs.Analysis.HeaderRows
import DocstringEditor.Proofs.Analysis.Lexing

namespace DocstringEditor.Syntax.Place

theorem fits {T : Text} {l : Location} (h : Place T l)
    (hsize : Text.byteSize T + 1 < UInt32.size) : l.Fits := by
  have hbyte := h.byte_le
  have hbounds := h.bounds
  exact ⟨by omega, by omega, by omega⟩

theorem ext {T : Text} {a b : Location} (ha : Place T a) (hb : Place T b)
    (hrow : a.row = b.row) (hcolumn : a.column = b.column) : a = b := by
  have hle := (ha.le_iff hb).2 (by rw [Location.le_def]; omega)
  have hge := (hb.le_iff ha).2 (by rw [Location.le_def]; omega)
  have hbyte := Nat.le_antisymm hle hge
  cases a
  cases b
  simp_all

end DocstringEditor.Syntax.Place

namespace DocstringEditor.Analysis

open Header (IsInside)
open List (Forall₂)
open Syntax Syntax.Node Syntax.Forest
open Text (byteSize lastLine splitLines)

variable {parse : Parse} {s s' : Source} {d stmt literal : Node} {row row' : Nat} {w : Insertion}
  {l l' : Location}

namespace Insertion

variable (w : Insertion)

def start : Location := .after .origin (w.above ++ w.blanks)

def stop : Location := .after .origin (w.above ++ w.blanks ++ quoted w.inside)

/-- Whether a place above a row is the same, and one from another row on has gone along with the
text below. -/
def Moved (row row' : Nat) (l l' : Location) : Prop :=
  l.row < row ∧ l' = l ∨
    row' ≤ l.row ∧
      l' = ⟨l.byte - byteSize (w.above ++ w.removed) + byteSize (w.above ++ w.added),
        l.row - (w.above ++ w.removed).count '\n' + (w.above ++ w.added).count '\n', l.column⟩

instance (row row' : Nat) (l l' : Location) : Decidable (w.Moved row row' l l') :=
  inferInstanceAs (Decidable (_ ∨ _))

/-- Whether the text of the line is closed by the quotes behind it and by no others, in a document
that a grammar can read. -/
structure Closed : Prop where
  inside : IsInside '"' true w.inside
  plain : '\x00' ∉ w.inside
  size : byteSize w.text + 1 < UInt32.size

/-- Whether a statement is the literal of the line and nothing else. -/
structure Stated (stmt literal : Node) : Prop where
  kind : stmt.kind = .expressionStatement
  children : stmt.children = [literal]
  start : stmt.start = w.start
  string : literal.kind = .string
  start' : literal.start = w.start
  stop : literal.stop = w.stop
  parts : ∀ m ∈ literal.inner, m.kind ∈ [.stringStart, .stringContent, .stringEnd]

end Insertion

namespace Inserts

variable (h : Inserts s s' row row' w)
include h

theorem line_eq (hl : w.Moved row row' l l') : s'.line l'.row = s.line l.row := by
  rw [Source.line, Source.line, List.getD_eq_getElem?_getD, List.getD_eq_getElem?_getD]
  congr 1
  rcases hl with ⟨hrow, rfl⟩ | ⟨hrow, rfl⟩
  · have hline := congrArg (·[l'.row]?) h.above_eq
    simpa only [List.getElem?_take_of_lt hrow] using hline
  · obtain ⟨k, hk⟩ := Nat.exists_eq_add_of_le hrow
    have hbelow := h.below_eq
    rcases h.resumed with hcount | hnil
    · have hline := congrArg (·[k]?) hbelow
      simp only [List.getElem?_drop] at hline
      dsimp only
      rw [hk, hcount, Nat.add_sub_cancel_left, Nat.add_comm, hline]
    · have hdropped := h.dropped
      rw [hnil, Text.splitLines_nil] at hdropped
      rw [hdropped, List.drop_eq_nil_iff] at hbelow
      rw [List.drop_eq_nil_iff] at hdropped
      dsimp only
      rw [List.getElem?_eq_none (by omega), List.getElem?_eq_none (by omega)]

theorem keeps (hl : w.Moved row row' l l') : Keeps s s' l l' := by
  have hcolumn : l'.column = l.column := by
    rcases hl with ⟨-, rfl⟩ | ⟨-, rfl⟩ <;> rfl
  refine ⟨?_, hcolumn⟩
  rw [Source.startsLine, Source.startsLine, Source.lineText, Source.lineText, h.line_eq hl, hcolumn]

theorem start_eq (hl : w.Moved row row' l l') (hrow : l.row < row) : l' = l := by
  have hle := h.le
  rcases hl with ⟨-, rfl⟩ | ⟨hbelow, -⟩
  · rfl
  · omega

theorem byteSize_blanks : byteSize w.blanks = w.blanks.length := by
  have hblank := h.blank
  generalize w.blanks = t at hblank ⊢
  induction t with
  | nil => rfl
  | cons c t ih =>
      obtain ⟨rfl, ht⟩ := List.forall_mem_cons.1 hblank
      have hwidth : ' '.utf8Size = 1 := rfl
      rw [Text.byteSize_cons, ih ht, hwidth, List.length_cons, Nat.add_comm]

theorem lastLine_start : lastLine (w.above ++ w.blanks) = w.blanks := by
  have hnewline : '\n' ∉ w.blanks := fun hmem => absurd (h.blank _ hmem) (by decide)
  rw [Text.lastLine_append, if_neg hnewline, h.line, List.nil_append]

theorem start_column : w.start.column = w.blanks.length := by
  rw [Insertion.start, Location.origin_after_column, h.lastLine_start, h.byteSize_blanks]

theorem start_row : w.start.row = row := by
  have hnewline : '\n' ∉ w.blanks := fun hmem => absurd (h.blank _ hmem) (by decide)
  rw [Insertion.start, Location.origin_after_row, List.count_append, h.count,
    List.count_eq_zero_of_not_mem hnewline, Nat.add_zero]

theorem text_start : s'.text = w.above ++ w.blanks ++ (quoted w.inside ++
    (w.ending.text ++ w.below)) := by
  rw [h.text, Insertion.text, Insertion.added]
  simp only [List.append_assoc]

theorem startsLine_start : s'.startsLine w.start := by
  have hlines : s'.lines = splitLines (w.above ++ w.blanks ++ (quoted w.inside ++
      (w.ending.text ++ w.below))) := by
    rw [h.lines, h.text_start]
  have hline := Analysis.line_eq hlines
  rw [h.lastLine_start] at hline
  have hreturn : w.blanks.getLast? ≠ some '\r' := fun hlast =>
    absurd (h.blank _ (List.mem_of_getLast? hlast)) (by decide)
  have hnewline : '\n' ∉ w.blanks := fun hmem => absurd (h.blank _ hmem) (by decide)
  obtain ⟨rest, hrest⟩ := Text.prefix_stripLineEnding hnewline hreturn
    (Text.firstLine (quoted w.inside ++ (w.ending.text ++ w.below)))
  have hblank : ∀ c ∈ w.blanks, Text.isBlank c := by
    intro c hc
    rw [h.blank c hc]
    decide
  rw [Source.startsLine, Source.lineText, Insertion.start, hline, ← hrest, ← Insertion.start,
    h.start_column, ← h.byteSize_blanks, Text.takeBytes_append, Option.getD_some,
    Text.isBlankLine, List.all_eq_true]
  exact hblank

end Inserts

namespace Insertion.Stated

variable (hstmt : w.Stated stmt literal)
include hstmt

theorem namedChildren : stmt.namedChildren = [literal] := by
  rw [Node.namedChildren, hstmt.children, List.filter_cons_of_pos, List.filter_nil]
  simp [isNamed, hstmt.string, Kind.isNamed]

theorem isNamed : stmt.isNamed := by simp [Node.isNamed, hstmt.kind, Kind.isNamed]

theorem not_comment : ¬stmt.isComment := by simp [isComment, hstmt.kind]

/-- Nothing in the statement is one of what is checked. -/
theorem kind_of_mem {m : Node} (hm : m ∈ stmt.preorder) : m.kind ∈
    [.expressionStatement, .string, .stringStart, .stringContent, .stringEnd] := by
  rcases mem_preorder.1 hm with rfl | hm
  · simp [hstmt.kind]
  · rw [Node.inner, hstmt.children, preorderAll_cons, preorderAll, List.append_nil] at hm
    rcases mem_preorder.1 hm with rfl | hm
    · simp [hstmt.string]
    · exact List.mem_cons_of_mem _ (List.mem_cons_of_mem _ (hstmt.parts m hm))

theorem not_isDefinition {m : Node} (hm : m ∈ stmt.preorder) : ¬m.isDefinition := by
  have hkind := hstmt.kind_of_mem hm
  intro hdef
  rcases (by simpa [isDefinition] using hdef) with hk | hk <;> simp [hk] at hkind

theorem sane : Sane s' stmt := by
  intro m hm
  have hkind := hstmt.kind_of_mem (mem_preorder_of_named hm)
  rw [Source.fault?_eq_none]
  have hne {k : Kind} (hk : m.kind = k) : k ∈
      [.expressionStatement, .string, .stringStart, .stringContent, .stringEnd] := hk ▸ hkind
  refine ⟨⟨fun hk => absurd (hne hk) (by decide), fun hk => absurd (hne hk) (by decide)⟩, ?_⟩
  rintro (hk | hk) <;> exact absurd (hne hk) (by decide)

theorem columns (h : Inserts s s' row row' w) : s'.columns [stmt] = [w.blanks.length] := by
  have hstarts := h.startsLine_start
  rw [← hstmt.start] at hstarts
  have hnamed : [stmt].filter Node.isNamed = [stmt] := List.filter_cons_of_pos hstmt.isNamed
  have hstarter : s'.starters [stmt] = [stmt] :=
    List.filter_cons_of_pos (by simp [hstmt.not_comment, hstarts])
  rw [Source.columns, hnamed, hstarter, List.map_singleton, hstmt.start, h.start_column]

theorem rangeOfText_eq : rangeOfText (w.above ++ w.blanks) (quoted w.inside) =
    .ofLocations literal.start literal.stop := by
  rw [hstmt.start', hstmt.stop]
  rfl

end Insertion.Stated

/-- A place for a line in the body of a definition: between its header and the statements `kept`, in
the place of the statements `gone` on the rows from one to another. -/
structure Slot (s : Source) (d : Node) (row row' : Nat) where
  front : Forest
  block : Node
  back : Forest
  gone : Forest
  kept : Forest
  /-- The column of the statement that is the definition or holds it with its decorators. -/
  home : Nat
  /-- What lines are indented with. -/
  mark : Char
  children : d.children.bound = front ++ block :: back
  body : d.child? .body = some block
  statements : block.children.bound = gone ++ kept
  start : d.start.row < row
  keyword : ∀ e ∈ d.inner, e.isDefinition → e.start ≠ d.start
  above : ∀ m ∈ front, m.stop.row < row
  between : ∀ m ∈ gone, row ≤ m.start.row ∧ m.stop.row < row'
  below : ∀ m ∈ kept ++ back, row' ≤ m.start.row
  wide : ∀ m ∈ gone ++ kept, m.hasWidth
  joined : ∀ m ∈ s.root.inner, m.kind = .lineContinuation → m.stop.row ≠ row ∧ m.stop.row ≠ row'
  outer : ∃ outer ∈ s.root.named, Aligns outer ∧ ∃ m ∈ s.starters outer.namedChildren,
    (m = d ∨ d ∈ m.children) ∧ m.start.column = home
  deeper : ∀ c ∈ s.columns kept, home < c
  blank : mark = ' ' ∨ mark = '\t'
  indents : ∀ outer ∈ s.root.named, Aligns outer → ∀ m ∈ s.starters outer.namedChildren,
    ∀ c ∈ s.margin m, c = mark

/-- How much a character of an indentation counts. -/
def Slot.width (slot : Slot s d row row') : Nat := if slot.mark = '\t' then 8 else 1

/-- What indentation means to a grammar where a line is put into a body. A line that is indented more
than the definition and no more than the statements below is the first statement of the body. One
that is not indented more than the definition is no first statement, and statements that are
indented less than the line are next to the definition and not next to the line. A literal that
starts with three quotes ends at the first three that close it. -/
structure Parse.Offside (parse : Parse) (slot : Slot s d row row') (w : Insertion) : Prop where
  deeper : w.Closed → slot.width * slot.home < w.blanks.length →
    (∀ c ∈ s.columns slot.kept, w.blanks.length ≤ slot.width * c) →
    ∃ s' stmt literal, parse.Reads s' ∧ s'.text = w.text ∧ w.Stated stmt literal ∧
      Grafted s s' (w.Moved row row') d stmt slot.gone slot.kept s.root s'.root
  level : w.blanks.length ≤ slot.width * slot.home → ∀ s', parse.Reads s' → s'.text = w.text →
    ∀ e ∈ s'.root.inner, e.isDefinition → ∀ stmt, e.firstStatement? = some stmt →
      stmt.kind = .expressionStatement → ∀ m ∈ stmt.inner, m.start ≠ w.start
  shallower : w.Closed → slot.width * slot.home < w.blanks.length →
    ∀ c ∈ s.columns slot.kept, slot.width * c < w.blanks.length →
    ∀ s', parse.Reads s' → s'.text = w.text → ∃ outer ∈ s'.root.named, Aligns outer ∧
      slot.home ∈ s'.columns outer.children ∧ c ∈ s'.columns outer.children
  closing : ∀ s', parse.Reads s' → s'.text = w.text → ∀ l ∈ s'.root.inner, l.kind = .string →
    l.start = w.start → ∃ u, IsInside '"' true u ∧ '\x00' ∉ u ∧ s'.nodeText l = quoted u

theorem Parse.Reads.parse_eq_ok_iff (hs : parse.Reads s) :
    Source.parse parse s.text = .ok s ↔ Sane s s.root := by
  have hfault : s.firstFault? = none ↔ Sane s s.root := Source.earliest?_eq_none
  rw [← hfault, Source.parse, hs.1]
  simp only [hs.2.1, ← hs.eq_ofTree]
  cases s.firstFault? <;> simp

theorem Source.Accepted.tidy (hs : s.Accepted) : Tidy s.root.preorder := by
  intro c hc hcomment
  rcases mem_preorder.1 hc with rfl | hc
  · simp [isComment, hs.tree.kind] at hcomment
  · exact hs.tree.children_of_comment hc hcomment

/-- A document with a new line is accepted just if the line is in line with what is kept. -/
theorem parse_grafted_iff (hs : s.Accepted) (hs' : s'.Accepted)
    (hok : Source.parse parse s.text = .ok s) (hread' : parse.Reads s')
    (h : Inserts s s' row row' w) (hdef : d.isDefinition) {gone kept : Forest}
    (hstmt : w.Stated stmt literal)
    (hgraft : Grafted s s' (w.Moved row row') d stmt gone kept s.root s'.root) :
    Source.parse parse s'.text = .ok s' ↔ ∀ c ∈ s.columns kept, c = w.blanks.length := by
  have hread := Source.reads_of_parse hok
  have hcolumn : s'.columns [stmt] = [stmt.start.column] := by
    rw [hstmt.columns h, hstmt.start, h.start_column]
  rw [hread'.parse_eq_ok_iff, hgraft.sane_iff hdef hs.tree.regular.named
    (hread.parse_eq_ok_iff.1 hok) hs.tidy hs'.tidy (fun m _ l hl => h.keeps hl) hstmt.sane hcolumn,
    hstmt.start, h.start_column]

variable {d' : Node} {moved : Location → Location → Prop}

theorem nodeText_eq_quoted {m : Node} (htext : s'.text = w.text) (hstart : m.start = w.start)
    (hstop : m.stop = w.stop) : s'.nodeText m = quoted w.inside := by
  have hparts : s'.text = w.above ++ w.blanks ++ quoted w.inside ++ (w.ending.text ++ w.below) := by
    simp [htext, Insertion.text, Insertion.added]
  rw [Source.nodeText, hstart, hstop, Insertion.start, Insertion.stop, Location.origin_after_byte,
    Location.origin_after_byte, hparts, Text.sliceBytes_append]
  rfl

theorem docstringRange?_stated (h : Inserts s s' row row' w) (hstmt : w.Stated stmt literal)
    (hfirst : d'.firstStatement? = some stmt) :
    s'.docstringRange? d' = some (rangeOfText (w.above ++ w.blanks) (quoted w.inside)) := by
  have hliteral : literal.unparenthesized = literal :=
    unparenthesized_of_ne (by simp [hstmt.string])
  have htext := nodeText_eq_quoted h.text hstmt.start' hstmt.stop
  refine Source.docstringRange?_eq_some_iff.2
    ⟨stmt, literal, hfirst, hstmt.kind, hstmt.namedChildren, ?_, ?_⟩
  · rw [hliteral, Source.isDocstring, hstmt.string]
    show s'.isTextLiteral literal
    rw [Source.isTextLiteral, htext]
    rfl
  · rw [hliteral, hstmt.rangeOfText_eq]

/-- A place just behind the start of a definition is in no definition inside of it. -/
theorem deepest_receives (hs' : s'.Accepted) (h : Inserts s s' row row' w)
    (slot : Slot s d row row') (hd' : d' ∈ s'.root.inner) (hdef' : d'.isDefinition)
    (hreceives : Receives s s' (w.Moved row row') d stmt d') {cursor : DocumentPosition}
    (hline : cursor.line.toNat = d.start.row + 1)
    (hcharacter : cursor.character.toNat = d.start.column + 1) :
    Deepest cursor s'.root (fun _ => True) d' := by
  have hregular := hs'.tree.regular
  have hroot' := mem_preorder.2 (.inr hd')
  have hstart : d'.start = d.start := h.start_eq hreceives.start slot.start
  have hcontains : d'.contains cursor := by
    have hbounds := logicalEnd_bounds.1 d' (hs'.tree.nested_of_mem hd')
      (hs'.tree.sound d' hd').within.le
    have hrow := (hs'.tree.sound d' hd').start.row_le
      (hs'.tree.places (places_subset hd' d'.logicalEnd_mem_places)) hbounds.1
    rw [contains, cursorWithin_iff (hregular.fits_start hroot') (hregular.fits_logicalEnd hroot'),
      hline, hcharacter]
    rw [hstart] at hrow ⊢
    omega
  refine ⟨⟨hd', hdef', hcontains, trivial⟩, fun e he hedef hecontains _ => ?_⟩
  by_contra hnot
  rw [not_or] at hnot
  have hin := (hregular.inner_or_inner (mem_around.2 ⟨he, hedef, hecontains⟩)
    (mem_around.2 ⟨hd', hdef', hcontains⟩) hnot.1).resolve_right hnot.2
  obtain ⟨e₀, he₀, hdef₀, hmoved⟩ := hreceives.definitions e hin hedef
  have heroot := mem_preorder.2 (.inr he)
  have hplace := (hs'.tree.sound e he).start
  have hplace' := (hs'.tree.sound d' hd').start
  have hle := (within_bounds.1 d' (hs'.tree.nested_of_mem hd') e hin).1
  have hle' := (hplace'.le_iff hplace).1 hle
  -- The two start on one row and in one column.
  have hsame : e.start = d'.start := by
    rw [contains, cursorWithin_iff (hregular.fits_start heroot) (hregular.fits_logicalEnd heroot),
      hline, hcharacter, ← hstart] at hecontains
    rw [Location.le_def] at hle'
    exact hplace.ext hplace' (by omega) (by omega)
  rcases hmoved with ⟨-, heq⟩ | ⟨-, heq⟩
  · exact slot.keyword e₀ he₀ hdef₀ (by rw [← heq, hsame, hstart])
  · have hrow := congrArg Location.row (heq.symm.trans (hsame.trans hstart))
    have hstart := slot.start
    have hcount := h.count
    simp only [List.count_append] at hrow
    omega

theorem Slot.first (slot : Slot s d row row') (h : Inserts s s' row row' w)
    (hdef : d.isDefinition) {body : Node} (hbody : d.firstStatement? = some body) :
    row ≤ body.start.row ∧ body.isSubstantial := by
  have hmodule : d.kind ≠ .module := by
    intro hmodule
    simp [isDefinition, hmodule] at hdef
  have hfind : slot.block.namedChildren.find? (!·.isComment) = some body := by
    rw [firstStatement?, if_neg hmodule, slot.body] at hbody
    exact hbody
  have hcomment : ¬body.isComment := by simpa using List.find?_some hfind
  have hmem : body ∈ slot.gone ++ slot.kept := by
    rw [← slot.statements, mem_bound]
    refine ⟨List.mem_of_mem_filter (List.mem_of_find?_eq_some hfind), ?_⟩
    simp [isLoose, hcomment]
  refine ⟨?_, by simp [isSubstantial, hcomment, slot.wide body hmem]⟩
  have hle := h.le
  rcases List.mem_append.1 hmem with hgone | hkept
  · exact (slot.between body hgone).1
  · have := slot.below body (List.mem_append_left _ hkept)
    omega

/-- A scan of a header that finds its end above a row also does when a line is put there. -/
theorem exists_headerEnd (hs : s.Accepted) (hs' : s'.Accepted) (h : Inserts s s' row row' w)
    (slot : Slot s d row row') (hd : d ∈ s.root.inner) (hdef : d.isDefinition)
    (hd' : d' ∈ s'.root.inner) (hdef' : d'.isDefinition) (hstmt : w.Stated stmt literal)
    (hreceives : Receives s s' (w.Moved row row') d stmt d') {body : Node}
    {stop : DocumentPosition} (hbody : d.firstStatement? = some body)
    (hstop : Structural.headerEnd? (s.header d body) (.ofLocation d.start) = some stop)
    (hrow : stop.row < row) :
    ∃ stop', Structural.headerEnd? (s'.header d' stmt) (.ofLocation d'.start) = some stop' := by
  have hstart : d'.start = d.start := h.start_eq hreceives.start slot.start
  have hslot := slot.start
  rw [← h.count] at hslot
  obtain ⟨hfirst, hsub⟩ := slot.first h hdef hbody
  rw [← h.count] at hfirst
  have htext : s.text = w.above ++ (s.lines.drop row).flatten := by
    have hparts := Text.flatten_take_drop s.lines row
    rw [h.taken, Text.flatten_splitLines] at hparts
    rw [hparts, hs.lines, Text.flatten_splitLines]
  have htext' : s'.text = w.above ++ (w.added ++ w.below) := by
    rw [h.text, Insertion.text, List.append_assoc]
  have hstmtIn := firstStatement?_mem hreceives.first
  have hsub' : stmt.isSubstantial := by
    have hwide := hs'.tree.wide (inner_trans hd' hstmtIn) (by simp [hstmt.children])
    simp [isSubstantial, hstmt.not_comment, hwide]
  obtain ⟨before, front, extra, habove, hplace, hmargin, hheader⟩ :=
    hs.header_above hd hdef (firstStatement?_mem hbody) hsub htext h.line hslot hfirst
  obtain ⟨before', front', extra', habove', hplace', hmargin', hheader'⟩ :=
    hs'.header_above hd' hdef' hstmtIn hsub' htext' h.line (by rw [hstart]; exact hslot)
      (by rw [hstmt.start, h.start_row, h.count])
  have hsize : byteSize before = byteSize before' := by
    rw [← Location.origin_after_byte, ← Location.origin_after_byte, ← hplace, ← hplace', hstart]
  obtain ⟨rfl, rfl⟩ := Text.append_inj_of_byteSize (habove.symm.trans habove') hsize
  obtain ⟨u, v, hparts, hstopRow⟩ := hs.headerEnd_row hd hdef hstop
  rw [hheader] at hparts
  obtain ⟨v', hparts'⟩ := hparts.replace (by
    rw [hstopRow, hplace, Location.origin_after_row, ← h.count, habove, List.count_append] at hrow
    rw [List.count_append]
    omega) extra'
  cases hend : Structural.headerEnd? (s'.header d' stmt) (.ofLocation d'.start) with
  | some stop' => exact ⟨stop', rfl⟩
  | none =>
      rw [Structural.headerEnd?_eq_none, hheader', hmargin', ← hmargin] at hend
      exact absurd hparts' (hend u v')

end DocstringEditor.Analysis
