import DocstringEditor.Proofs.Header.Scan

namespace DocstringEditor.Header

open Syntax (Location)
open Text (byteSize lastLine)

variable {q c : Char} {triple : Bool} {t u before rest : Text} {l : Location} {depth : Nat}

inductive Item
  | string (lead : Text) (q : Char) (triple : Bool) (inside : Text)
  | comment (t : Text)
  | newline
  | opening (c : Char)
  | closing (c : Char)
  | walrus
  | colon
  | other (t : Text)
  deriving DecidableEq, Repr

def stringPrefixes : List Text :=
  ["", "r", "u", "b", "f", "t", "br", "rb", "fr", "rf", "tr", "rt"].map String.toList

namespace Item

def text : Item → Text
  | string lead q triple inside =>
    lead ++ (delimiter q triple ++ inside ++ delimiter q triple)
  | comment t => '#' :: t
  | newline => ['\n']
  | opening c | closing c => [c]
  | walrus => [':', '=']
  | colon => [':']
  | other t => t

def IsProper : Item → Prop
  | string lead q triple inside =>
    lead.map Char.toLower ∈ stringPrefixes ∧ (q = '"' ∨ q = '\'') ∧ IsInside q triple inside
  | comment t => '\n' ∉ t
  | opening c => c = '(' ∨ c = '[' ∨ c = '{'
  | closing c => c = ')' ∨ c = ']' ∨ c = '}'
  | other t => ∀ c ∈ t, c ∉ special ∧ c ≠ '\n'
  | newline | walrus | colon => True

/-- Whether a text behind an item leaves it what it is. -/
def Precedes : Item → Text → Prop
  | string _ q triple inside, t => triple = false → inside = [] → t.head? ≠ some q
  | comment _, t => t = [] ∨ t.head? = some '\n'
  | colon, t => t.head? ≠ some '='
  | _, _ => True

/-- How many brackets are open behind an item. -/
def depthBehind (depth : Nat) : Item → Nat
  | opening _ => depth + 1
  | closing _ => depth - 1
  | _ => depth

end Item

def itemsText (items : List Item) : Text := items.flatMap Item.text

inductive IsItems : List Item → Prop
  | nil : IsItems []
  | cons {i : Item} {items : List Item} : i.IsProper → i.Precedes (itemsText items) →
      IsItems items → IsItems (i :: items)

def itemColons (depth : Nat) (before : Text) : List Item → List Colon
  | [] => []
  | i :: items =>
    (if i = .colon ∧ depth = 0 then [⟨before.count '\n', byteSize (lastLine (before ++ i.text))⟩]
      else []) ++ itemColons (i.depthBehind depth) (before ++ i.text) items

theorem not_starts_with_pair (hq : q ≠ '\\') (h : IsInside q false u)
    (hrest : u = [] → rest.head? ≠ some q) : ¬[q, q] <+: u ++ q :: rest := by
  intro hpair
  cases u with
  | nil =>
      obtain ⟨tail, htail⟩ := (List.cons_prefix_cons.1 hpair).2
      exact hrest rfl (by rw [← htail]; rfl)
  | cons c u =>
      obtain ⟨rfl, -⟩ := List.cons_prefix_cons.1 hpair
      exact ((isInside_cons hq).1 h).1 ⟨u ++ [q], rfl⟩

theorem stringLength_eq (hq : q ≠ '\\') (h : IsInside q triple u)
    (hrest : triple = false → u = [] → rest.head? ≠ some q) :
    stringLength (delimiter q triple ++ u ++ delimiter q triple ++ rest) =
      (delimiter q triple ++ u ++ delimiter q triple).length := by
  have hpair : triple = false → ¬[q, q] <+: u ++ (delimiter q triple ++ rest) := by
    rintro rfl
    exact not_starts_with_pair hq h (hrest rfl)
  have hclosing := closingLength_eq hq h rest
  rw [List.append_assoc] at hclosing
  rw [List.append_assoc, List.append_assoc, stringLength_delimiter hpair, hclosing,
    List.length_append, List.length_append, Nat.add_assoc]

/-- A character that is a capital or small letter of a prefix is one of a word. -/
theorem not_mem_special_of_mem_lead {lead : Text} (hlead : lead.map Char.toLower ∈ stringPrefixes)
    (hc : c ∈ lead) : c ∉ special := by
  have hlower : special.all (fun d => d.toLower = d) := by decide
  have hprefixes : stringPrefixes.all (·.all (· ∉ special)) := by decide
  intro hmem
  have hsame : c.toLower = c := of_decide_eq_true (List.all_eq_true.1 hlower c hmem)
  have hletters := List.all_eq_true.1 (List.all_eq_true.1 hprefixes _ hlead) c.toLower
    (List.mem_map_of_mem hc)
  rw [hsame] at hletters
  exact of_decide_eq_true hletters hmem

theorem colonsAt_string {lead : Text} (hi : (Item.string lead q triple u).IsProper)
    (hrest : (Item.string lead q triple u).Precedes rest) :
    colonsAt depth l ((Item.string lead q triple u).text ++ rest) =
      colonsAt depth (l.after (Item.string lead q triple u).text) rest := by
  obtain ⟨hlead, hquote, hinside⟩ := hi
  have hlength := stringLength_eq (ne_of_isQuote (isQuote_iff.2 hquote)).1 hinside hrest
  obtain ⟨quotes, hquotes⟩ := delimiter_eq_cons q triple
  rw [Item.text, List.append_assoc, Location.after_append,
    colonsAt_append fun c hc => not_mem_special_of_mem_lead hlead hc]
  generalize hliteral : delimiter q triple ++ u ++ delimiter q triple = literal at hlength ⊢
  obtain ⟨tail, rfl⟩ : ∃ tail, literal = q :: tail := by
    rw [hquotes] at hliteral
    exact ⟨_, hliteral.symm⟩
  rw [List.cons_append] at hlength ⊢
  rw [colonsAt_quote (isQuote_iff.2 hquote), hlength, ← List.cons_append, List.take_left,
    List.drop_left]

theorem colonsAt_item {i : Item} (hi : i.IsProper) (hrest : i.Precedes rest) :
    colonsAt depth l (i.text ++ rest) =
      (if i = .colon ∧ depth = 0 then [⟨l.row, (l.after i.text).column⟩] else []) ++
        colonsAt (i.depthBehind depth) (l.after i.text) rest := by
  cases i with
  | string lead q triple inside => exact colonsAt_string hi hrest
  | comment t => exact colonsAt_comment hi hrest
  | newline => exact colonsAt_plain (by decide)
  | opening c => exact colonsAt_opening (by simpa [Item.IsProper] using hi)
  | closing c => exact colonsAt_closing (by simpa [Item.IsProper] using hi)
  | walrus =>
      refine colonsAt_colon.trans ?_
      rw [if_neg (by simp), List.nil_append]
      exact colonsAt_plain (by decide)
  | colon =>
      have hwidth : ':'.utf8Size = 1 := rfl
      have hne : rest.head? ≠ some '=' := hrest
      refine colonsAt_colon.trans ?_
      simp [Item.text, Item.depthBehind, Location.advance, hwidth, hne]
  | other t => exact colonsAt_append fun c hc => (hi c hc).1

theorem colonsAt_itemsText {items : List Item} (h : IsItems items) (depth : Nat) (before : Text) :
    colonsAt depth (Location.origin.after before) (itemsText items) =
      itemColons depth before items := by
  induction h generalizing depth before with
  | nil => rfl
  | @cons i items hi hrest _ ih =>
      have hcons : itemsText (i :: items) = i.text ++ itemsText items := rfl
      rw [hcons, colonsAt_item hi hrest, ← Location.after_append, ih, itemColons,
        Location.origin_after_row, Location.origin_after_column]

/-- In the text of lexical items just their colons within no brackets are found, in order. -/
theorem topLevelColons_text {items : List Item} (h : IsItems items) :
    topLevelColons (itemsText items) = itemColons 0 [] items :=
  colonsAt_itemsText h 0 []

theorem topLevelColons_text_header : ∃ items, IsItems items ∧
    itemsText items = "f([:rB'\\\n:\\'',''])->b\"\"\"é:\n\\\"\"\"\"x:=y:#:'\n::".toList ∧
    topLevelColons (itemsText items) = [⟨2, 10⟩, ⟨3, 1⟩, ⟨3, 2⟩] := by
  have hitems : IsItems [.other ['f'], .opening '(', .opening '[', .colon,
      .string ['r', 'B'] '\'' false ['\\', '\n', ':', '\\', '\''], .other [','],
      .string [] '\'' false [], .closing ']', .closing ')', .other ['-', '>'],
      .string ['b'] '"' true ['é', ':', '\n', '\\', '"'], .other ['x'], .walrus, .other ['y'],
      .colon, .comment [':', '\''], .newline, .colon, .colon] := by
    have hline : IsInside '\'' false ['\\', '\n', ':', '\\', '\''] := by
      simp [isInside_escape, isInside_cons, isInside_nil, delimiter]
    have hlines : IsInside '"' true ['é', ':', '\n', '\\', '"'] := by
      simp [isInside_escape, isInside_cons, isInside_nil, delimiter]
    repeat' first | exact IsItems.nil | apply IsItems.cons
    all_goals simp [Item.IsProper, Item.Precedes, hline, hlines, isInside_nil, stringPrefixes,
      special, punctuation, itemsText, Item.text]
  refine ⟨_, hitems, by decide, (topLevelColons_text hitems).trans (by decide)⟩

end DocstringEditor.Header
