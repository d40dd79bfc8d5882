import DocstringEditor.Proofs.Analysis.Header
import DocstringEditor.Proofs.Header.Ending

namespace DocstringEditor.Analysis

open Header (AtLineEnd HashBehind LastParts Parts Reads endColumn special)
open Syntax Syntax.Node Syntax.Forest
open Text (byteSize)

variable {s : Source} {d body colon : Node} {before front back u rest : Text}

namespace Source

/-- The lines of a definition's header as the structural backend reads them. -/
def header (s : Source) (d body : Node) : List Text :=
  Structural.headerLines (Structural.padding (s.margin d) ++ s.definitionText d)
    (.ofLocation d.start) (.ofLocation body.start)

/-- Whether nothing but blank characters that padding keeps stands before a node on its line. -/
def IsIndented (s : Source) (d : Node) : Prop :=
  ∀ c ∈ s.margin d, c = ' ' ∨ c = '\t' ∨ c = '\x0c'

/-- The last line of a header is cut where the body starts, or as far as it goes. -/
theorem flatten_headerLines {start stop : DocumentPosition} {c : Char}
    (hrow : stop.row - start.row = u.count '\n') (hline : c ≠ '\n') (hreturn : c ≠ '\r') :
    ∃ above line, u = above ++ Text.lastLine u ∧
      line = Text.lastLine u ++ Text.stripLineEnding (Text.firstLine (c :: rest)) ∧
      (Structural.headerLines (u ++ c :: rest) start stop).flatten =
        above ++ (Text.takeBytes line stop.column).getD line := by
  have hlines : (Text.splitLines (u ++ c :: rest)).take (u.count '\n' + 1) =
      (Text.splitLines (u ++ c :: rest)).take (u.count '\n') ++
        [Text.lastLine u ++ Text.firstLine (c :: rest)] := by
    rw [List.take_add_one, Text.getElem?_splitLines]
    rfl
  have hfirst : Text.firstLine (c :: rest) = c :: Text.firstLine rest := by
    rw [Text.firstLine, Text.splitLines_cons hline]
    rfl
  refine ⟨_, _, (Text.flatten_take_splitLines u (c :: rest)).symm, rfl, ?_⟩
  unfold Structural.headerLines
  simp only [hrow, hlines, List.getLast?_concat, List.dropLast_concat, List.flatten_append,
    List.flatten_singleton]
  rw [hfirst, Text.stripLineEnding_append_cons hline hreturn]

theorem takeBytes_getD {t x : Text} {n : Nat} (hle : byteSize t ≤ n) : ∃ extra,
    (Text.takeBytes (t ++ x) n).getD (t ++ x) = t ++ extra ∧ extra <+: x ∧
      (n = byteSize t → extra = []) := by
  cases htake : Text.takeBytes (t ++ x) n with
  | none =>
      refine ⟨x, rfl, List.prefix_rfl, fun hsize => ?_⟩
      rw [hsize, Text.takeBytes_append] at htake
      cases htake
  | some u =>
      obtain ⟨hstarts, hsize⟩ := Text.takeBytes_eq_some.1 htake
      obtain ⟨extra, rfl⟩ : t <+: u :=
        Text.prefix_of_byteSize_le (List.prefix_append _ _) hstarts (by omega)
      refine ⟨extra, rfl, (List.prefix_append_right_inj t).1 hstarts, fun hequal => ?_⟩
      by_contra hne
      have := Text.byteSize_pos hne
      rw [Text.byteSize_append] at hsize
      omega

theorem Accepted.row_sub_row (h : s.Accepted) (hd : d ∈ s.root.inner) (hbody : body ∈ s.root.inner)
    {v : Text} (hstart : d.start = Location.origin.after before)
    (hbodyStart : body.start = Location.origin.after (before ++ v)) :
    (Position.ofLocation body.start).row - (Position.ofLocation d.start).row = v.count '\n' := by
  have hregular := h.tree.regular
  rw [ofLocation_row (hregular.fits_start (mem_preorder.2 (.inr hbody))),
    ofLocation_row (hregular.fits_start (mem_preorder.2 (.inr hd))), hbodyStart, hstart,
    Location.origin_after_row, Location.origin_after_row, List.count_append]
  omega

/-- The text that the structural backend looks for the end of a header in. Its first line may be cut
late, where padding is shorter than what it stands for. -/
theorem Accepted.flatten_header (h : s.Accepted) (hd : d ∈ s.root.inner) (hdef : d.isDefinition)
    (ht : HeaderText s d colon body before front back rest) (hbody : body ∈ s.root.inner) :
    ∃ extra,
      (s.header d body).flatten =
        Structural.padding (s.margin d) ++ front ++ ':' :: back ++ extra ∧ extra <+: rest ∧
      (byteSize (Structural.padding (s.margin d)) = byteSize (s.margin d) → extra = []) := by
  obtain ⟨before', rest', hs⟩ := h.stands hd hdef
  obtain ⟨rfl, c, tail, hcode, hprefix, hsolid⟩ := h.definitionText_eq hs ht
  have hline : c ≠ '\n' := by
    rintro rfl
    exact hsolid (by decide)
  have hreturn : c ≠ '\r' := by
    rintro rfl
    exact hsolid (by decide)
  obtain ⟨lead, hlead⟩ : ∃ lead, lead = Structural.padding (s.margin d) := ⟨_, rfl⟩
  have hnewline : '\n' ∉ lead := hlead ▸ newline_not_mem_padding _
  have hlast : Text.lastLine lead = lead := Text.lastLine_of_not_mem hnewline
  obtain ⟨code, hfront⟩ : ∃ code, code = front ++ ':' :: back := ⟨_, rfl⟩
  have hbodyStart := ht.bodyStart
  rw [List.append_assoc before', ← hfront] at hbodyStart
  rw [← hfront] at hcode
  have hrow : (Position.ofLocation body.start).row - (Position.ofLocation d.start).row =
      (lead ++ code).count '\n' := by
    rw [h.row_sub_row hd hbody ht.start hbodyStart, List.count_append,
      List.count_eq_zero_of_not_mem hnewline, Nat.zero_add]
  have hcolumn : (Position.ofLocation body.start).column =
      byteSize (Text.lastLine (before' ++ code)) := by
    rw [ofLocation_column (h.tree.regular.fits_start (mem_preorder.2 (.inr hbody))), hbodyStart,
      Location.origin_after_column]
  -- The padding is no longer than what it stands for, so the cut is behind the header.
  have hle : byteSize lead ≤ byteSize (s.margin d) := by
    rw [hlead, byteSize_padding]
    exact Text.length_le_byteSize _
  have hsizes : byteSize (Text.lastLine (lead ++ code)) ≤
      byteSize (Text.lastLine (before' ++ code)) := by
    rw [Text.byteSize_lastLine_append, Text.byteSize_lastLine_append, ← hs.margin, hlast]
    split <;> omega
  obtain ⟨above, line, habove, rfl, hflatten⟩ := flatten_headerLines hrow hline hreturn
  obtain ⟨extra, hcut, hextra, hnil⟩ := takeBytes_getD
    (x := Text.stripLineEnding (Text.firstLine (c :: tail))) hsizes
  rw [List.append_assoc lead, ← hcode, hcolumn, hcut, ← List.append_assoc, ← habove] at hflatten
  refine ⟨extra, ?_, ?_, fun hequal => hnil ?_⟩
  · rw [header, ← hlead, hflatten, hfront]
    simp
  · exact hextra.trans ((Text.stripLineEnding_prefix _).trans
      ((Text.firstLine_prefix _).trans hprefix))
  · rw [Text.byteSize_lastLine_append, Text.byteSize_lastLine_append, ← hs.margin, hlast, hlead,
      hequal]

theorem Accepted.flatten_header_indented (h : s.Accepted) (hd : d ∈ s.root.inner)
    (hdef : d.isDefinition) (hbody : body ∈ s.root.inner) (hindented : s.IsIndented d)
    (ht : HeaderText s d colon body before front back rest) :
    (s.header d body).flatten = s.margin d ++ front ++ ':' :: back := by
  obtain ⟨extra, hheader, -, hextra⟩ := h.flatten_header hd hdef ht hbody
  rw [padding_eq_self.2 hindented] at hheader hextra
  rw [hheader, hextra rfl, List.append_nil]

namespace HeaderText

variable (ht : HeaderText s d colon body before front back rest)
include ht

theorem between_start : s.between d.start colon.start = front := by
  have htext : s.text = before ++ front ++ (':' :: back ++ rest) := by
    rw [ht.text]
    simp
  rw [between, ht.start, ht.colonStart, Location.origin_after_byte, Location.origin_after_byte,
    htext, Text.sliceBytes_append]
  rfl

theorem between_stop : s.between colon.stop body.start = back := by
  have hassoc : before ++ front ++ ':' :: back = before ++ front ++ [':'] ++ back := by simp
  rw [between, ht.colonStop, ht.bodyStart, Location.origin_after_byte, Location.origin_after_byte,
    ht.text, hassoc, Text.sliceBytes_append]
  rfl

theorem behind_colon : Text.dropBytes s.text colon.stop.byte = some (back ++ rest) := by
  have htext : s.text = before ++ front ++ [':'] ++ (back ++ rest) := by
    rw [ht.text]
    simp
  rw [ht.colonStop, Location.origin_after_byte, htext, Text.dropBytes_append]

end HeaderText

/-- The colon of a header is found by a scan of its own if each literal before it reads as one. -/
theorem Accepted.parts_header (h : s.Accepted) (hd : d ∈ s.root.inner)
    (hdef : d.isDefinition) (hbody : body ∈ s.root.inner) (halone : s.LiteralsReadAlone d)
    (ht : HeaderText s d colon body before front back rest) :
    ∃ extra, Parts 0 (s.header d body).flatten (Structural.padding (s.margin d) ++ front)
      (back ++ extra) := by
  obtain ⟨extra, hheader, hprefix, -⟩ := h.flatten_header hd hdef ht hbody
  have hplain : ∀ c ∈ Structural.padding (s.margin d), c ∉ special := by
    intro c hc
    rcases eq_of_mem_padding hc with rfl | rfl | rfl <;> decide
  refine ⟨extra, by rw [hheader]; simp, ?_, ?_⟩
  · obtain ⟨behind, rfl⟩ := hprefix
    have hsingle := ht.single
    cases back with
    | cons c back => exact hsingle
    | nil =>
        cases extra with
        | cons c extra => exact hsingle
        | nil => simp
  · exact (Reads.plain hplain 0 _).trans ((ht.reads halone).congr rfl)

def isColonBlank (c : Char) : Bool := c = ' ' || c = '\t' || c = '\x0c'

theorem commentCovers_iff {byte : Nat} :
    (∀ n : Node, Symbols.commentCovers byte n ↔ ∃ m ∈ n.preorder, m.kind = .comment ∧
      m.start.byte ≤ byte ∧ byte < m.stop.byte) ∧
    ∀ ns : Forest, Symbols.anyCommentCovers byte ns ↔ ∃ m ∈ preorderAll ns, m.kind = .comment ∧
      m.start.byte ≤ byte ∧ byte < m.stop.byte := by
  apply Node.induction
  case mk =>
    intro k r a b cs ih
    rw [Symbols.commentCovers, Bool.or_eq_true, ih]
    simp [Node.preorder, Node.kind, Node.start, Node.stop, and_assoc]
  case nil => simp [Symbols.anyCommentCovers]
  case cons =>
    intro n ns ihn ihns
    rw [Symbols.anyCommentCovers, Bool.or_eq_true, ihn, ihns, preorderAll_cons]
    simp only [List.mem_append, or_and_right, exists_or]

theorem HeaderText.back_eq (ht : HeaderText s d colon body before front back rest)
    {blanks tail : Text} (hblanks : ∀ c ∈ blanks, isColonBlank c)
    (hparts : back ++ rest = blanks ++ '#' :: tail) : ∃ v, back = blanks ++ '#' :: v := by
  obtain ⟨c, hc, hsolid⟩ := ht.solid
  obtain ⟨rest, rfl⟩ := List.head?_eq_some_iff.1 hc
  have hne : c ∉ blanks ∧ c ≠ '#' := by
    refine ⟨fun hmem => ?_, ?_⟩
    · have hblank := hblanks c hmem
      simp only [isColonBlank, Bool.or_eq_true, decide_eq_true_eq] at hblank
      rcases hblank with (rfl | rfl) | rfl <;> exact hsolid (by decide)
    · rintro rfl
      exact hsolid (by decide)
  rcases List.append_eq_append_iff.1 hparts with ⟨a, rfl, hbehind⟩ | ⟨a, rfl, hbehind⟩
  · cases a with
    | nil => exact absurd (List.cons.inj hbehind).1 hne.2
    | cons d a =>
        obtain ⟨rfl, -⟩ := List.cons.inj hbehind
        exact absurd (by simp) hne.1
  · cases a with
    | nil => exact absurd (List.cons.inj hbehind).1.symm hne.2
    | cons d a => exact ⟨a, by rw [(List.cons.inj hbehind).1]⟩

/-- A comment covers what is behind the blank characters that follow a colon if that is a `#`. -/
theorem Accepted.commented_iff (h : s.Accepted) (hcolon : colon ∈ s.root.inner)
    (hleaf : colon.children = []) (hmark : colon.kind ≠ .comment)
    (ht : HeaderText s d colon body before front back rest) {blanks tail : Text} {c : Char}
    (hblanks : ∀ c ∈ blanks, isColonBlank c) (hparts : back ++ rest = blanks ++ c :: tail) :
    Symbols.commentCovers (colon.stop.byte + byteSize blanks) s.root ↔ c = '#' := by
  have hbyte : colon.stop.byte = byteSize (before ++ front ++ [':']) := by
    rw [ht.colonStop, Location.origin_after_byte]
  rw [commentCovers_iff.1, hbyte, ← Text.byteSize_append]
  constructor
  · rintro ⟨m, hm, hcomment, hstart, hstop⟩
    have hin : m ∈ s.root.inner := by
      rcases mem_preorder.1 hm with rfl | hin
      · simp [h.tree.kind] at hcomment
      · exact hin
    have hmleaf := h.tree.children_of_comment hin (by simp [isComment, hcomment])
    have hwidth : m.hasWidth := by
      simp only [hasWidth, decide_eq_true_eq]
      omega
    obtain ⟨u, t, after, htext, -, hplace, -, hspells⟩ := h.tree.written_of_leaf hin hmleaf hwidth
    rw [hcomment] at hspells
    obtain ⟨t, rfl⟩ := List.head?_eq_some_iff.1 hspells.1
    rw [hplace, Location.origin_after_byte] at hstart
    -- The comment does not start before the colon stops, nor among the blank characters.
    have hbehind : byteSize (before ++ front ++ [':']) ≤ byteSize u := by
      have hcolonLe := (h.tree.sound colon hcolon).within.le
      rcases h.tree.eq_or_apart hin hcolon hmleaf hleaf with rfl | hapart | hapart
      · exact absurd hcomment hmark
      · simp only [Text.byteSize_append] at hstop hbyte
        omega
      · rwa [hbyte, hplace, Location.origin_after_byte] at hapart
    have hwhole : before ++ front ++ [':'] ++ blanks ++ c :: tail = u ++ '#' :: (t ++ after) := by
      have hsource : before ++ front ++ [':'] ++ (back ++ rest) = u ++ '#' :: t ++ after := by
        rw [← htext, ht.text]
        simp
      rw [hparts] at hsource
      simpa using hsource
    rcases Nat.lt_or_eq_of_le hstart with hlt | heq
    · obtain ⟨t₁, t₂, rfl, -, -⟩ := Text.exists_cut hwhole hbehind hlt
      exact absurd (hblanks '#' (by simp)) (by decide)
    · obtain ⟨-, htail⟩ := Text.append_inj_of_byteSize hwhole heq.symm
      exact (List.cons.inj htail).1
  · rintro rfl
    obtain ⟨v, rfl⟩ := ht.back_eq hblanks hparts
    obtain ⟨n, hn, hcomment, hstart, hstop⟩ := ht.comments blanks v rfl
    have hassoc : before ++ front ++ ':' :: blanks = before ++ front ++ [':'] ++ blanks := by simp
    rw [hassoc] at hstart hstop
    exact ⟨n, mem_preorder.2 (.inr hn), hcomment, hstart, hstop⟩

theorem HeaderText.hashBehind_iff (ht : HeaderText s d colon body before front back rest) :
    HashBehind isColonBlank back ↔
      ((back ++ rest).dropWhile isColonBlank).head? = some '#' := by
  have hhash : ¬isColonBlank '#' := by decide
  rw [Header.hashBehind_iff hhash]
  constructor
  · rintro ⟨blanks, tail, rfl, hblanks⟩
    rw [List.append_assoc, List.dropWhile_append_of_pos fun c hc => (hblanks c hc).1,
      List.cons_append, List.dropWhile_cons_of_neg hhash]
    rfl
  · intro hhead
    obtain ⟨tail, htail⟩ := List.head?_eq_some_iff.1 hhead
    have hblanks : ∀ c ∈ (back ++ rest).takeWhile isColonBlank, isColonBlank c :=
      fun c hc => List.mem_takeWhile_imp hc
    obtain ⟨v, hv⟩ := ht.back_eq hblanks (htail ▸ List.takeWhile_append_dropWhile.symm)
    refine ⟨_, v, hv, fun c hc => ⟨hblanks c hc, ?_⟩⟩
    rintro rfl
    exact absurd (hblanks _ hc) (by decide)

theorem Accepted.lineText_colon (h : s.Accepted)
    (ht : HeaderText s d colon body before front back rest)
    (hhash : HashBehind isColonBlank back) :
    s.lineText colon.stop.row = Header.lineAround (before ++ front) back := by
  obtain ⟨w, v, rfl, -⟩ := (Header.hashBehind_iff (by decide)).1 hhash
  obtain ⟨c, hc, hsolid⟩ := ht.solid
  have hline : '\n' ∈ w ++ '#' :: v := by
    have hmem := ht.idle.newline_mem (List.ne_nil_of_mem (List.mem_of_mem_head? hc))
      (fun hnewline => hsolid (by
        obtain rfl := Option.some.inj (hc.symm.trans hnewline)
        decide)) rfl
    simp [hmem]
  have hrow : colon.stop.row = (before ++ front).count '\n' := by
    rw [ht.colonStop, Location.origin_after_row, @List.count_append _ _ _ _ [':']]
    rfl
  have htext : s.lines =
      Text.splitLines (before ++ front ++ (':' :: (w ++ '#' :: v) ++ rest)) := by
    rw [h.lines, ht.text]
    simp
  rw [lineText, line, htext, hrow, Text.getD_splitLines,
    Text.firstLine_append_of_mem (List.mem_cons_of_mem _ hline), Header.stripLineEnding_line]

theorem Accepted.signatureEnd_symbols (h : s.Accepted) (hd : d ∈ s.root.inner)
    (ht : HeaderText s d colon body before front back rest) {fronts backs : Forest}
    (hsplit : splitColon? d.children = some (fronts, colon, backs)) (kind : EntityKind) :
    Symbols.signatureEnd s kind d = .ok ⟨UInt32.ofNat ((before ++ front).count '\n') + 1,
      UInt32.ofNat (endColumn isColonBlank (before ++ front) back)⟩ := by
  obtain ⟨hchildren, hmark⟩ := eq_of_splitColon? hsplit
  have hcolon : colon ∈ s.root.inner :=
    inner_trans hd (mem_preorderAll.2 ⟨colon, by simp [hchildren], by simp⟩)
  have hleaf : colon.children = [] := by
    by_contra hne
    have := (h.tree.sound colon hcolon).phrase hne
    simp [hmark, Kind.isPhrase] at this
  have hlast := getLast?_filter_colon d.children
  rw [hsplit] at hlast
  have hcut : (back ++ rest).takeWhile isColonBlank ++ (back ++ rest).dropWhile isColonBlank =
      back ++ rest := List.takeWhile_append_dropWhile
  have hblanks : ∀ c ∈ (back ++ rest).takeWhile isColonBlank, isColonBlank c :=
    fun c hc => List.mem_takeWhile_imp hc
  have hdrop := congrArg (List.drop ((back ++ rest).takeWhile isColonBlank).length) hcut
  rw [List.drop_left] at hdrop
  have hstop : Position.ofLocation colon.stop =
      ⟨UInt32.ofNat ((before ++ front).count '\n') + 1,
        UInt32.ofNat (byteSize (Text.lastLine (before ++ front)) + 1)⟩ := by
    have hcolumn : byteSize (Text.lastLine (before ++ front ++ [':'])) =
        byteSize (Text.lastLine (before ++ front)) + 1 := by
      rw [Text.lastLine_append, if_neg (by decide), Text.byteSize_append]
      rfl
    rw [Position.ofLocation, ht.colonStop, Location.origin_after_row,
      Location.origin_after_column, hcolumn, @List.count_append _ _ _ _ [':']]
    rfl
  have hrow : (Position.ofLocation colon.stop).row = colon.stop.row :=
    ofLocation_row (h.tree.regular.fits_stop (mem_preorder.2 (.inr hcolon)))
  have hpredicate : (fun c : Char => decide (c = ' ') || decide (c = '\t') || decide (c = '\x0c')) =
    isColonBlank := rfl
  have hhash := ht.hashBehind_iff
  unfold Symbols.signatureEnd
  simp only [hlast, Option.map_some, ht.behind_colon, Option.getD_some, hpredicate, ← hdrop]
  cases hbehind : (back ++ rest).dropWhile isColonBlank with
  | nil =>
      rw [hbehind] at hhash
      simp only [endColumn, hhash, List.head?_nil, reduceCtorEq, if_false, hstop]
  | cons c tail =>
      rw [hbehind] at hhash hcut
      have hcovers := h.commented_iff hcolon hleaf (by simp [hmark]) ht hblanks hcut.symm
      by_cases hc : c = '#'
      · subst hc
        have hhash : HashBehind isColonBlank back := hhash.2 rfl
        have hcommented := hcovers.2 rfl
        have hline := h.lineText_colon ht hhash
        rw [← hrow] at hline
        rw [endColumn, if_pos hhash, hline, hstop]
        simp [hcommented]
      · have hcommented := mt hcovers.1 hc
        have hhash : ¬HashBehind isColonBlank back := mt hhash.1 (by simpa using hc)
        simp [endColumn, hhash, hcommented, hstop]

/-- Whether the last colon that a scan of a definition's header finds has the end of the signature
in the same place as the colon of the tree: both on one line, with a comment or nothing else behind
it there, or both the same colon. -/
def EndsAgree (s : Source) (d : Node) : Prop :=
  ∃ parts ∈ splitColon? d.children, ∃ body ∈ d.firstStatement?, ∃ front back u v,
    front = s.margin d ++ s.between d.start parts.2.1.start ∧
    back = s.between parts.2.1.stop body.start ∧ LastParts (front ++ ':' :: back) u v ∧
    u.count '\n' = front.count '\n' ∧
    (AtLineEnd Text.isBlank v ∧ AtLineEnd isColonBlank back ∨
      ¬AtLineEnd Text.isBlank v ∧ ¬AtLineEnd isColonBlank back ∧ u = front)

/-- Whether only spaces, tabs and form feeds stand between the colon of a header and a comment on
its line. -/
def ColonBlanks (s : Source) (d : Node) : Prop :=
  ∀ parts ∈ splitColon? d.children, ∀ body ∈ d.firstStatement?,
    HashBehind Text.isBlank (s.between parts.2.1.stop body.start) →
      HashBehind isColonBlank (s.between parts.2.1.stop body.start)

theorem headerLines_prefix_code (code : Text) (start body : DocumentPosition) :
    (Structural.headerLines code start body).flatten <+: code := by
  unfold Structural.headerLines
  dsimp only
  have hlines := Text.take_splitLines_prefix code (body.row - start.row + 1)
  generalize (Text.splitLines code).take (body.row - start.row + 1) = lines at hlines ⊢
  rcases List.eq_nil_or_concat lines with rfl | ⟨ls, last, rfl⟩
  · exact List.nil_prefix
  · simp only [List.concat_eq_append, List.getLast?_concat, List.dropLast_concat,
      List.flatten_append, List.flatten_singleton] at hlines ⊢
    refine ((List.prefix_append_right_inj _).2 ?_).trans hlines
    exact (Header.takeBytes_prefix_self _ _).trans (Text.stripLineEnding_prefix last)

namespace Accepted

variable (h : s.Accepted) (hd : d ∈ s.root.inner) (hdef : d.isDefinition)
include h hd hdef

theorem byteSize_header_le (body : Node) : byteSize (s.header d body).flatten ≤ byteSize s.text := by
  obtain ⟨before, rest, hs⟩ := h.stands hd hdef
  have hprefix := Text.byteSize_le_of_infix
    (headerLines_prefix_code (Structural.padding (s.margin d) ++ s.definitionText d)
      (.ofLocation d.start) (.ofLocation body.start)).isInfix
  have hpadding := Text.length_le_byteSize (s.margin d)
  have hmargin := Text.byteSize_le_of_infix (Text.lastLine_suffix before).isInfix
  rw [Text.byteSize_append, byteSize_padding] at hprefix
  rw [← hs.margin] at hmargin
  rw [h.text_eq hs, Text.byteSize_append, Text.byteSize_append, header]
  omega

theorem rows_header_lt (body : Node) :
    d.start.row + (s.header d body).flatten.count '\n' + 1 < UInt32.size := by
  obtain ⟨before, rest, hs⟩ := h.stands hd hdef
  have hcount := (headerLines_prefix_code (Structural.padding (s.margin d) ++ s.definitionText d)
    (.ofLocation d.start) (.ofLocation body.start)).sublist.count_le '\n'
  have hlength : s.text.count '\n' ≤ byteSize s.text :=
    List.count_le_length.trans (Text.length_le_byteSize s.text)
  have hsize := h.tree.size
  rw [List.count_append, List.count_eq_zero_of_not_mem (newline_not_mem_padding _)] at hcount
  rw [h.text_eq hs, List.count_append, List.count_append, ← h.text_eq hs] at hlength
  rw [hs.start, Location.origin_after_row, header]
  omega

/-- The structural backend ends a signature behind the last colon that it finds. -/
theorem headerEnd_eq {stop : DocumentPosition}
    (hstop : Structural.headerEnd? (s.header d body) (.ofLocation d.start) = some stop) :
    ∃ u v, LastParts (s.header d body).flatten u v ∧ stop =
      ⟨UInt32.ofNat (d.start.row + u.count '\n' + 1), UInt32.ofNat (endColumn Text.isBlank u v)⟩ := by
  obtain ⟨a, ha⟩ : ∃ a, (Header.topLevelColons (s.header d body).flatten).getLast? = some a := by
    cases hnone : (Header.topLevelColons (s.header d body).flatten).getLast? with
    | none => simp [Structural.headerEnd?, hnone] at hstop
    | some a => exact ⟨a, rfl⟩
  obtain ⟨u, v, hparts, -⟩ := Header.exists_last_of_getLast? ha
  have hrows := h.rows_header_lt hd hdef body
  rw [hparts.1.text, List.count_append] at hrows
  have hline : (Position.ofLocation d.start).line + UInt32.ofNat (u.count '\n') =
      UInt32.ofNat (d.start.row + u.count '\n' + 1) := by
    rw [Position.ofLocation, UInt32.ofNat_add, UInt32.ofNat_add, UInt32.add_assoc,
      UInt32.add_comm 1, ← UInt32.add_assoc]
    rfl
  have hpos : UInt32.ofNat (d.start.row + u.count '\n' + 1) ≠ 0 := by
    intro hzero
    have hzero := congrArg UInt32.toNat hzero
    rw [UInt32.toNat_ofNat_of_lt' (by omega)] at hzero
    exact absurd hzero (Nat.succ_ne_zero _)
  have hstop := (Header.headerEnd?_eq hparts).symm.trans hstop
  rw [hline, if_neg hpos] at hstop
  exact ⟨u, v, hparts, (Option.some.inj hstop).symm⟩

end Accepted

theorem ofNat_inj {m n : Nat} (hm : m < UInt32.size) (hn : n < UInt32.size) :
    UInt32.ofNat m = UInt32.ofNat n ↔ m = n := by
  rw [← UInt32.toNat_inj, UInt32.toNat_ofNat_of_lt' hm, UInt32.toNat_ofNat_of_lt' hn]

theorem HeaderText.endsAgree_iff (ht : HeaderText s d colon body before front back rest)
    {fronts backs : Forest} (hsplit : splitColon? d.children = some (fronts, colon, backs))
    (hbody : d.firstStatement? = some body) {u v : Text}
    (hparts : LastParts (s.margin d ++ front ++ ':' :: back) u v) : s.EndsAgree d ↔
      u.count '\n' = (s.margin d ++ front).count '\n' ∧
        (AtLineEnd Text.isBlank v ∧ AtLineEnd isColonBlank back ∨
          ¬AtLineEnd Text.isBlank v ∧ ¬AtLineEnd isColonBlank back ∧ u = s.margin d ++ front) := by
  constructor
  · rintro ⟨parts, hparts', body', hbody', _, _, u', v', rfl, rfl, hlast, hrows, hends⟩
    obtain rfl := Option.some.inj (hparts'.symm.trans hsplit)
    obtain rfl := Option.some.inj (hbody'.symm.trans hbody)
    rw [ht.between_start, ht.between_stop] at hlast hends
    rw [ht.between_start] at hrows
    obtain ⟨rfl, rfl⟩ := hparts.unique hlast
    exact ⟨hrows, hends⟩
  · rintro ⟨hrows, hends⟩
    refine ⟨_, hsplit, body, hbody, _, _, u, v, rfl, rfl, ?_⟩
    rw [ht.between_start, ht.between_stop]
    exact ⟨hparts, hrows, hends⟩

theorem Accepted.signatureEnd_eq_iff (h : s.Accepted) (hd : d ∈ s.root.inner)
    (hdef : d.isDefinition) (hheaded : s.Headed d) (hbody : d.firstStatement? = some body)
    (hindented : s.IsIndented d) {kind : EntityKind} {stop stop' : DocumentPosition}
    (hstop : Structural.headerEnd? (s.header d body) (.ofLocation d.start) = some stop)
    (hstop' : Symbols.signatureEnd s kind d = .ok stop') : stop = stop' ↔ s.EndsAgree d := by
  obtain ⟨⟨fronts, colon, backs⟩, hsplit, before, front, back, rest, ht⟩ :=
    h.exists_headerText hd hheaded hbody
  have hbodyIn := inner_trans hd (firstStatement?_mem hbody)
  have hheader := h.flatten_header_indented hd hdef hbodyIn hindented ht
  obtain ⟨before', rest', hs⟩ := h.stands hd hdef
  obtain ⟨rfl, -⟩ := h.definitionText_eq hs ht
  have hmargin : s.margin d = Text.lastLine before' := hs.margin
  have hlast : Text.lastLine (before' ++ front) = Text.lastLine (s.margin d ++ front) := by
    rw [hmargin, Text.lastLine_append, Text.lastLine_append,
      Text.lastLine_of_not_mem (Text.newline_not_mem_lastLine before')]
  have hcount : (s.margin d ++ front).count '\n' = front.count '\n' := by
    rw [hmargin, List.count_append, List.count_eq_zero_of_not_mem
      (Text.newline_not_mem_lastLine before'), Nat.zero_add]
  obtain ⟨u, v, hparts, rfl⟩ := h.headerEnd_eq hd hdef hstop
  obtain rfl := Except.ok.inj ((h.signatureEnd_symbols hd ht hsplit kind).symm.trans hstop')
  have htext : u ++ ':' :: v = s.margin d ++ front ++ ':' :: back := by
    rw [← hheader, hparts.1.text]
  -- All numbers are small enough to be told apart.
  have hsize := h.tree.size
  have hrows := h.rows_header_lt hd hdef body
  have hrows' := hrows
  have hcolumns := h.byteSize_header_le hd hdef body
  rw [hparts.1.text] at hcolumns hrows
  rw [hheader, List.count_append, hcount] at hrows'
  rw [List.count_append] at hrows
  have hcolumn := Header.endColumn_le Text.isBlank u v
  have hcolumn' := Header.endColumn_le isColonBlank (s.margin d ++ front) back
  rw [← htext] at hcolumn'
  have hstart : d.start.row = before'.count '\n' := by
    rw [ht.start, Location.origin_after_row]
  have hone : UInt32.ofNat ((before' ++ front).count '\n') + 1 =
      UInt32.ofNat (d.start.row + front.count '\n' + 1) := by
    rw [UInt32.ofNat_add, hstart, ← List.count_append]
    rfl
  rw [hone, Header.endColumn_congr hlast, Position.mk.injEq, ofNat_inj (by omega) (by omega),
    ofNat_inj (by omega) (by omega)]
  have hsame : d.start.row + u.count '\n' + 1 = d.start.row + front.count '\n' + 1 ↔
      u.count '\n' = (s.margin d ++ front).count '\n' := by
    rw [hcount]
    omega
  rw [ht.endsAgree_iff hsplit hbody (hheader ▸ hparts), hsame]
  exact and_congr_right fun hrows => Header.endColumn_eq_iff htext hrows

theorem isBlank_of_isColonBlank (c : Char) (h : isColonBlank c) : Text.isBlank c := by
  simp only [isColonBlank, Bool.or_eq_true, decide_eq_true_eq] at h
  rcases h with (rfl | rfl) | rfl <;> decide

/-- Where each literal of a header reads as one on its own, the scan ends at the colon of the tree,
so the ends only differ where other blank characters stand before a comment. -/
theorem Accepted.endsAgree_iff (h : s.Accepted) (hd : d ∈ s.root.inner) (hdef : d.isDefinition)
    (hheaded : s.Headed d) (hbody : d.firstStatement? = some body) (hindented : s.IsIndented d)
    (halone : s.LiteralsReadAlone d) : s.EndsAgree d ↔ s.ColonBlanks d := by
  obtain ⟨⟨fronts, colon, backs⟩, hsplit, before, front, back, rest, ht⟩ :=
    h.exists_headerText hd hheaded hbody
  have hbodyIn := inner_trans hd (firstStatement?_mem hbody)
  have hheader := h.flatten_header_indented hd hdef hbodyIn hindented ht
  obtain ⟨extra, hparts⟩ := h.parts_header hd hdef hbodyIn halone ht
  rw [hheader, padding_eq_self.2 hindented] at hparts
  obtain rfl : extra = [] := by simpa using hparts.text
  rw [List.append_nil] at hparts
  have hlast := hparts.last ht.idle
  have hblanks : s.ColonBlanks d ↔
      (HashBehind Text.isBlank back → HashBehind isColonBlank back) := by
    constructor
    · intro hall
      have hall := hall _ hsplit body hbody
      rwa [ht.between_stop] at hall
    · intro hback parts hparts' body' hbody'
      obtain rfl := Option.some.inj (hparts'.symm.trans hsplit)
      obtain rfl := Option.some.inj (hbody'.symm.trans hbody)
      rwa [ht.between_stop]
  rw [hblanks, ← Header.atLineEnd_iff isBlank_of_isColonBlank]
  rw [ht.endsAgree_iff hsplit hbody hlast]
  constructor
  · rintro ⟨-, hends⟩
    exact hends.imp id fun h => ⟨h.1, h.2.1⟩
  · intro hends
    exact ⟨rfl, hends.imp id fun h => ⟨h.1, h.2, rfl⟩⟩

end Source

end DocstringEditor.Analysis
