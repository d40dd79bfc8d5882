import DocstringEditor.Proofs.Header.Colon
import DocstringEditor.Proofs.Header.Item
import DocstringEditor.Proofs.Header.LineEnding

namespace DocstringEditor.Header

open Syntax (Location)

variable {q c : Char} {triple : Bool} {t u v u' v' w rest rest' : Text} {l : Location} {a : Colon}
  {depth depth' depth'' : Nat}

/-- What a text is read as in front of another one, from within so many brackets to within so many.
A literal without triple quotes that does not close is given up at the end of its line. -/
inductive Reads : Nat → Text → Nat → Text → Prop
  | done {depth : Nat} {rest : Text} : Reads depth [] depth rest
  | item {depth depth' : Nat} {u rest : Text} {i : Item} : i.IsProper → i.Precedes (u ++ rest) →
      Reads (i.depthBehind depth) u depth' rest → Reads depth (i.text ++ u) depth' rest
  | unclosed {depth depth' : Nat} {u rest inside : Text} {q : Char} : isQuote q →
      IsInside q false inside → Reads depth ('\n' :: u) depth' rest →
      Reads depth (q :: inside ++ '\n' :: u) depth' rest

/-- Whether a text, read from within so many brackets, has a colon between two of its parts that is
within none. -/
structure Parts (depth : Nat) (t u v : Text) : Prop where
  text : t = u ++ ':' :: v
  single : v.head? ≠ some '='
  reads : Reads depth u 0 (':' :: v)

def LastParts (t u v : Text) : Prop := Parts 0 t u v ∧ ∀ u' v', Parts 0 t u' v' → u' <+: u

theorem Item.Precedes.congr {i : Item} (h : i.Precedes rest) (hhead : rest.head? = rest'.head?) :
    i.Precedes rest' := by
  cases i with
  | string lead q triple inside => exact fun htriple hnil => hhead ▸ h htriple hnil
  | comment t =>
      refine h.imp (fun hnil => ?_) fun hline => hhead ▸ hline
      rwa [hnil, eq_comm, List.head?_nil, List.head?_eq_none_iff] at hhead
  | colon => exact fun heq => h (hhead.trans heq)
  | newline | opening c | closing c | walrus | other t => trivial

namespace Reads

/-- Of what stands behind a text only the first character matters. -/
theorem congr (h : Reads depth u depth' rest) (hhead : rest.head? = rest'.head?) :
    Reads depth u depth' rest' := by
  induction h with
  | done => exact .done
  | @item _ _ u rest i hi hprecedes _ ih =>
      refine .item hi (hprecedes.congr ?_) (ih hhead)
      rw [List.head?_append, List.head?_append, hhead]
  | unclosed hq hinside _ ih => exact .unclosed hq hinside (ih hhead)

theorem trans (h : Reads depth u depth' (v ++ rest)) (h' : Reads depth' v depth'' rest) :
    Reads depth (u ++ v) depth'' rest := by
  generalize hbehind : v ++ rest = behind at h
  induction h with
  | done => exact h'
  | @item _ _ u _ i hi hprecedes _ ih =>
      rw [List.append_assoc]
      refine .item hi ?_ (ih h' hbehind)
      rwa [List.append_assoc, hbehind]
  | unclosed hq hinside _ ih =>
      have htail := ih h' hbehind
      rw [List.append_assoc]
      exact .unclosed hq hinside htail

theorem single {i : Item} (hi : i.IsProper) (hprecedes : i.Precedes rest) (depth : Nat) :
    Reads depth i.text (i.depthBehind depth) rest := by
  have h : Reads depth (i.text ++ []) (i.depthBehind depth) rest := .item hi hprecedes .done
  rwa [List.append_nil] at h

theorem plain (hu : ∀ c ∈ u, c ∉ special) (depth : Nat) (rest : Text) :
    Reads depth u depth rest := by
  induction u with
  | nil => exact .done
  | cons c u ih =>
      obtain ⟨hc, hbehind⟩ := List.forall_mem_cons.1 hu
      by_cases hline : c = '\n'
      · rw [hline]
        exact .item (i := .newline) trivial trivial (ih hbehind)
      · exact .item (i := .other [c]) (by simpa [Item.IsProper] using ⟨hc, hline⟩) trivial
          (ih hbehind)

end Reads

/-- A literal without triple quotes that is given up ends before the end of its line. -/
theorem closingLength_unclosed (hq : isQuote q) (h : IsInside q false u) (rest : Text) :
    closingLength q false (u ++ '\n' :: rest) = u.length := by
  have hquote := ne_of_isQuote hq
  induction u using escape_induction with
  | nil => simp [closingLength, hquote.2.2]
  | backslash => exact absurd h not_isInside_backslash
  | escape c u ih =>
      simp only [List.cons_append, closingLength_escape, List.length_cons,
        ih ((isInside_escape hquote.1).1 h)]
      omega
  | plain c u hc ih =>
      obtain ⟨hstarts, hline, hu⟩ := (isInside_cons hc).1 h
      have hne : ¬delimiter q false <+: c :: (u ++ '\n' :: rest) := by
        intro hprefix
        obtain rfl := (List.cons_prefix_cons.1 hprefix).1
        exact hstarts ⟨_, rfl⟩
      rw [List.cons_append, closingLength_cons hc hne hline, ih hu, List.length_cons,
        Nat.add_comm]

theorem closingLength_cases (hq : isQuote q) (triple : Bool) (t : Text) :
    (∃ u rest, t = u ++ delimiter q triple ++ rest ∧ IsInside q triple u) ∨
    (triple = false ∧ ∃ u rest, t = u ++ '\n' :: rest ∧ IsInside q false u) ∨
    closingLength q triple t = t.length := by
  have hquote := (ne_of_isQuote hq).1
  induction t using escape_induction with
  | nil => exact .inr (.inr rfl)
  | backslash => exact .inr (.inr rfl)
  | escape c t ih =>
      rcases ih with ⟨u, rest, rfl, hu⟩ | ⟨htriple, u, rest, rfl, hu⟩ | hall
      · exact .inl ⟨'\\' :: c :: u, rest, rfl, (isInside_escape hquote).2 hu⟩
      · exact .inr (.inl ⟨htriple, '\\' :: c :: u, rest, rfl, (isInside_escape hquote).2 hu⟩)
      · refine .inr (.inr ?_)
        rw [closingLength_escape, hall, List.length_cons, List.length_cons]
        omega
  | plain c t hc ih =>
      by_cases hcloses : delimiter q triple <+: c :: t
      · obtain ⟨rest, hrest⟩ := hcloses
        exact .inl ⟨[], rest, hrest.symm, isInside_nil⟩
      by_cases hline : triple = false ∧ c = '\n'
      · obtain ⟨rfl, rfl⟩ := hline
        exact .inr (.inl ⟨rfl, [], t, rfl, isInside_nil⟩)
      have hline : triple = false → c ≠ '\n' := fun htriple hc => hline ⟨htriple, hc⟩
      rcases ih with ⟨u, rest, rfl, hu⟩ | ⟨rfl, u, rest, rfl, hu⟩ | hall
      · refine .inl ⟨c :: u, rest, rfl, (isInside_cons hc).2 ⟨?_, hline, hu⟩⟩
        rwa [← delimiter_prefix_iff c u rest]
      · refine .inr (.inl ⟨rfl, c :: u, rest, rfl, (isInside_cons hc).2 ⟨fun hprefix => ?_, hline,
          hu⟩⟩)
        obtain rfl := (List.cons_prefix_cons.1 hprefix).1
        exact hcloses ⟨_, rfl⟩
      · refine .inr (.inr ?_)
        rw [closingLength_cons hc hcloses hline, hall, List.length_cons, Nat.add_comm]

theorem colonsAt_unclosed (hq : isQuote q) (h : IsInside q false u) :
    colonsAt depth l (q :: u ++ '\n' :: rest) =
      colonsAt depth (l.after (q :: u)) ('\n' :: rest) := by
  have hpair : false = false → ¬[q, q] <+: u ++ '\n' :: rest := by
    intro _ hpair
    cases u with
    | nil => exact (ne_of_isQuote hq).2.2 (List.cons_prefix_cons.1 hpair).1.symm
    | cons c u =>
        obtain ⟨rfl, -⟩ := List.cons_prefix_cons.1 hpair
        exact ((isInside_cons (ne_of_isQuote hq).1).1 h).1 ⟨u ++ [q], rfl⟩
  have hdelimiter : colonsAt depth l (delimiter q false ++ (u ++ '\n' :: rest)) = _ :=
    colonsAt_delimiter hq hpair
  rw [colonsIn, closingLength_unclosed hq h, colonsFrom_eq, List.take_left, List.drop_left,
    ← Location.after_append] at hdelimiter
  exact hdelimiter

/-- What is found in the rest of a text that reads to it is found in the whole. -/
theorem Reads.found (h : Reads depth u depth' rest) (l : Location) :
    ∃ found, colonsAt depth l (u ++ rest) = found ++ colonsAt depth' (l.after u) rest := by
  induction h generalizing l with
  | done => exact ⟨[], rfl⟩
  | @item _ _ _ _ i hi hprecedes _ ih =>
      obtain ⟨found, hfound⟩ := ih (l.after i.text)
      rw [List.append_assoc, colonsAt_item hi hprecedes, hfound, ← List.append_assoc,
        Location.after_append]
      exact ⟨_, rfl⟩
  | @unclosed _ _ u rest inside q hq hinside _ ih =>
      obtain ⟨found, hfound⟩ := ih (l.after (q :: inside))
      refine ⟨found, ?_⟩
      rw [List.append_assoc, Location.after_append, ← hfound]
      exact colonsAt_unclosed hq hinside

namespace Parts

theorem item {i : Item} (hi : i.IsProper) (hprecedes : i.Precedes t)
    (h : Parts (i.depthBehind depth) t u v) : Parts depth (i.text ++ t) (i.text ++ u) v := by
  obtain ⟨rfl, hsingle, hreads⟩ := h
  exact ⟨by rw [List.append_assoc], hsingle, .item hi hprecedes hreads⟩

theorem unclosed (hq : isQuote q) (hu : IsInside q false u) (h : Parts depth ('\n' :: t) v w) :
    Parts depth (q :: u ++ '\n' :: t) (q :: u ++ v) w := by
  obtain ⟨htext, hsingle, hreads⟩ := h
  rw [htext]
  cases v with
  | nil => cases htext
  | cons c v =>
      obtain ⟨rfl, -⟩ := List.cons.inj htext
      exact ⟨by rw [List.append_assoc], hsingle, .unclosed hq hu hreads⟩

end Parts

theorem precedes_of_open (hopen : triple = false → ¬[q, q] <+: u ++ delimiter q triple ++ rest) :
    (Item.string [] q triple u).Precedes rest := by
  rintro rfl rfl hhead
  obtain ⟨tail, rfl⟩ := List.head?_eq_some_iff.1 hhead
  exact hopen rfl ⟨tail, rfl⟩

theorem exists_item (hc : c ≠ '#') (hquote : ¬isQuote c) (t : Text) : ∃ (i : Item) (rest : Text),
    c :: t = i.text ++ rest ∧ i.text ≠ [] ∧ i.IsProper ∧ i.Precedes rest := by
  by_cases hpunctuation : c ∈ punctuation
  · have hkind : (c = '(' ∨ c = '[' ∨ c = '{') ∨ (c = ')' ∨ c = ']' ∨ c = '}') ∨ c = ':' := by
      simpa [punctuation, or_assoc] using hpunctuation
    rcases hkind with hopening | hclosing | rfl
    · exact ⟨.opening c, t, rfl, by simp [Item.text], hopening, trivial⟩
    · exact ⟨.closing c, t, rfl, by simp [Item.text], hclosing, trivial⟩
    · by_cases hhead : t.head? = some '='
      · obtain ⟨rest, rfl⟩ := List.head?_eq_some_iff.1 hhead
        exact ⟨.walrus, rest, rfl, by simp [Item.text], trivial, trivial⟩
      · exact ⟨.colon, t, rfl, by simp [Item.text], trivial, hhead⟩
  · have hplain : c ∉ special := not_mem_special_iff.2 ⟨hpunctuation, hc, hquote⟩
    by_cases hline : c = '\n'
    · exact ⟨.newline, t, by rw [hline]; rfl, by simp [Item.text], trivial, trivial⟩
    · exact ⟨.other [c], t, rfl, by simp [Item.text],
        by simpa [Item.IsProper] using ⟨hplain, hline⟩, trivial⟩

/-- A text comes in items and literals that are given up, or ends in a literal. -/
theorem item_induction {motive : Text → Prop} (nil : motive [])
    (item : ∀ (i : Item) t, i.IsProper → i.Precedes t → motive t → motive (i.text ++ t))
    (unclosed : ∀ q u t, isQuote q → IsInside q false u → motive ('\n' :: t) →
      motive (q :: u ++ '\n' :: t))
    (open_ : ∀ q triple t, isQuote q → (triple = false → ¬[q, q] <+: t) →
      closingLength q triple t = t.length → motive (delimiter q triple ++ t)) : ∀ t, motive t
  | [] => nil
  | c :: t => by
    by_cases hquote : isQuote c
    · obtain ⟨triple, u, hparts, hopen⟩ := exists_delimiter c t
      rcases closingLength_cases hquote triple u with
        ⟨inside, rest, rfl, hinside⟩ | ⟨rfl, inside, rest, rfl, hinside⟩ | hall
      · have htext : c :: t = (Item.string [] c triple inside).text ++ rest := by
          simp [hparts, Item.text]
        rw [htext]
        exact item _ rest ⟨by decide, isQuote_iff.1 hquote, hinside⟩ (precedes_of_open hopen)
          (item_induction nil item unclosed open_ rest)
      · rw [hparts]
        exact unclosed c inside rest hquote hinside
          (item_induction nil item unclosed open_ ('\n' :: rest))
      · rw [hparts]
        exact open_ c triple u hquote hopen hall
    · by_cases hc : c = '#'
      · obtain ⟨line, rest, hparts, hline, hrest⟩ := exists_line t
        rw [hc, hparts]
        exact item (.comment line) rest hline hrest
          (item_induction nil item unclosed open_ rest)
      · obtain ⟨i, rest, htext, hpos, hi, hprecedes⟩ := exists_item hc hquote t
        rw [htext]
        exact item i rest hi hprecedes (item_induction nil item unclosed open_ rest)
termination_by t => t.length
decreasing_by
  · have := length_delimiter_pos c triple
    rw [hparts, List.length_append, List.length_append]
    omega
  · have := length_delimiter_pos c false
    rw [hparts, List.length_append, List.length_append]
    omega
  · rw [hparts, List.length_cons, List.length_append]
    omega
  · have := List.length_pos_iff.2 hpos
    rw [htext, List.length_append]
    omega

/-- The colons that are found are the ones that a text reads to within no brackets. -/
theorem mem_colonsAt_iff :
    a ∈ colonsAt depth l t ↔ ∃ u v, Parts depth t u v ∧ a = .ofPlace (l.after u) := by
  constructor
  · intro h
    induction t using item_induction generalizing depth l with
    | nil => simp [colonsAt, colonsFrom] at h
    | item i t hi hprecedes ih =>
        rw [colonsAt_item hi hprecedes, List.mem_append] at h
        rcases h with hfound | hbehind
        · split at hfound
          · rename_i hcolon
            obtain ⟨rfl, rfl⟩ := hcolon
            have hwidth : ':'.utf8Size = 1 := rfl
            refine ⟨[], t, ⟨rfl, hprecedes, .done⟩, ?_⟩
            simpa [Item.text, Location.advance, hwidth, Colon.ofPlace] using hfound
          · cases hfound
        · obtain ⟨u, v, hparts, rfl⟩ := ih hbehind
          exact ⟨_, v, hparts.item hi hprecedes, by rw [Location.after_append]⟩
    | unclosed q u t hq hu ih =>
        rw [colonsAt_unclosed hq hu] at h
        obtain ⟨v, w, hparts, rfl⟩ := ih h
        exact ⟨_, w, hparts.unclosed hq hu, by rw [Location.after_append]⟩
    | open_ q triple t hq hopen hall =>
        rw [colonsAt_delimiter hq hopen, colonsIn, colonsFrom_eq, hall, List.drop_length] at h
        simp [colonsAt, colonsFrom] at h
  · rintro ⟨u, v, ⟨rfl, hsingle, hreads⟩, rfl⟩
    obtain ⟨found, hfound⟩ := hreads.found l
    rw [hfound, colonsAt_colon, if_pos ⟨rfl, hsingle⟩]
    simp [Colon.ofPlace]

/-- Whether nothing but comments and characters that mean nothing stands in front of a text. -/
inductive Idle : Text → Text → Prop
  | done {v : Text} : Idle [] v
  | plain {c : Char} {u v : Text} : c ∉ special → Idle u v → Idle (c :: u) v
  | comment {t u v : Text} : '\n' ∉ t → (u ++ v = [] ∨ (u ++ v).head? = some '\n') → Idle u v →
      Idle ('#' :: t ++ u) v

namespace Idle

theorem append_plain (ht : ∀ c ∈ t, c ∉ special) (h : Idle u v) : Idle (t ++ u) v := by
  induction t with
  | nil => exact h
  | cons c t ih =>
      obtain ⟨hc, ht⟩ := List.forall_mem_cons.1 ht
      exact .plain hc (ih ht)

theorem colonsAt_eq_nil (h : Idle u v) (depth : Nat) (l : Location) : colonsAt depth l u = [] := by
  induction h generalizing l with
  | done => rfl
  | plain hc _ ih => rw [colonsAt_plain hc, ih]
  | @comment t u v ht hbehind _ ih =>
      have hrest : u = [] ∨ u.head? = some '\n' := by
        cases u with
        | nil => exact .inl rfl
        | cons c u => exact .inr (by simpa using hbehind)
      rw [List.cons_append, colonsAt_comment ht hrest, ih]

/-- A comment in it ends before it does. -/
theorem newline_mem (h : Idle u v) (hv : v ≠ []) (hline : v.head? ≠ some '\n')
    (hu : u = t ++ '#' :: w) : '\n' ∈ w := by
  induction h generalizing t with
  | done => simp at hu
  | plain hc _ ih =>
      cases t with
      | nil =>
          obtain ⟨rfl, -⟩ := List.cons.inj hu
          exact absurd (by decide) hc
      | cons d t => exact ih hv hline (List.cons.inj hu).2
  | @comment t₀ u v _ hbehind _ ih =>
      obtain ⟨u, rfl⟩ : ∃ u', u = '\n' :: u' := by
        rcases hbehind with hnil | hhead
        · exact absurd (List.append_eq_nil_iff.1 hnil).2 hv
        · cases u with
          | nil => exact absurd hhead hline
          | cons c u => exact ⟨u, by simpa using hhead⟩
      rcases List.append_eq_append_iff.1 hu with ⟨a, -, hbehind⟩ | ⟨a, -, hhash⟩
      · exact ih hv hline hbehind
      · cases a with
        | nil => cases hhash
        | cons c a => simp [(List.cons.inj hhash).2]

end Idle

theorem prefix_of_after_le (hu : u <+: t) (hv : v <+: t)
    (hle : Location.origin.after u ≤ Location.origin.after v) : u <+: v := by
  rcases List.prefix_or_prefix_of_prefix hu hv with hin | ⟨w, rfl⟩
  · exact hin
  · rw [Location.after_append] at hle
    by_cases hw : w = []
    · simp [hw]
    · exact absurd hle (Location.not_after_le _ hw)

theorem topLevelColons_eq_nil_iff : topLevelColons t = [] ↔ ∀ u v, ¬Parts 0 t u v := by
  rw [List.eq_nil_iff_forall_not_mem]
  constructor
  · intro h u v hparts
    exact h _ (mem_colonsAt_iff (l := .origin).2 ⟨u, v, hparts, rfl⟩)
  · intro h a ha
    obtain ⟨u, v, hparts, -⟩ := mem_colonsAt_iff (l := .origin).1 ha
    exact h u v hparts

theorem lastParts_of_getLast? (hparts : Parts 0 t u v)
    (h : (topLevelColons t).getLast? = some (.ofPlace (Location.origin.after u))) :
    LastParts t u v := by
  refine ⟨hparts, fun u' v' hparts' => ?_⟩
  have hmem : Colon.ofPlace (Location.origin.after u') ∈ topLevelColons t :=
    mem_colonsAt_iff (l := .origin).2 ⟨u', v', hparts', rfl⟩
  have hle : Location.origin.after u' ≤ Location.origin.after u := by
    obtain ⟨front, hfront⟩ := List.getLast?_eq_some_iff.1 h
    have hsorted := colonsFrom_pairwise 0 0 .origin t
    have horder := (List.pairwise_append.1 (hfront ▸ hsorted :
      (front ++ [Colon.ofPlace (Location.origin.after u)]).Pairwise Colon.Before)).2.2
    rw [hfront, List.mem_append, List.mem_singleton] at hmem
    rw [Location.le_def]
    rcases hmem with hmem | hmem
    · have := horder _ hmem _ (List.mem_singleton_self _)
      simp only [Colon.Before, Colon.ofPlace] at this
      omega
    · simp only [Colon.ofPlace, Colon.mk.injEq] at hmem
      omega
  exact prefix_of_after_le ⟨_, hparts'.text.symm⟩ ⟨_, hparts.text.symm⟩ hle

theorem exists_last_of_getLast? (h : (topLevelColons t).getLast? = some a) :
    ∃ u v, LastParts t u v ∧ a = .ofPlace (Location.origin.after u) := by
  obtain ⟨u, v, hparts, rfl⟩ := mem_colonsAt_iff (l := .origin).1 (List.mem_of_getLast? h)
  exact ⟨u, v, lastParts_of_getLast? hparts h, rfl⟩

theorem LastParts.unique (h : LastParts t u v) (h' : LastParts t u' v') : u = u' ∧ v = v' := by
  have heq := (h'.2 u v h.1).eq_of_length_le (h.2 u' v' h'.1).length_le
  refine ⟨heq, ?_⟩
  have htext := h.1.text.symm.trans h'.1.text
  rw [heq] at htext
  exact (List.cons.inj (List.append_cancel_left htext)).2

theorem LastParts.getLast? (h : LastParts t u v) :
    (topLevelColons t).getLast? = some (.ofPlace (Location.origin.after u)) := by
  have hmem : Colon.ofPlace (Location.origin.after u) ∈ topLevelColons t :=
    mem_colonsAt_iff (l := .origin).2 ⟨u, v, h.1, rfl⟩
  cases hlast : (topLevelColons t).getLast? with
  | none => simp [List.getLast?_eq_none_iff.1 hlast] at hmem
  | some a =>
      obtain ⟨u', v', h', rfl⟩ := exists_last_of_getLast? hlast
      rw [(h.unique h').1]

/-- A colon with nothing but comments and blank text behind it is the last one. -/
theorem Parts.last (h : Parts 0 t u v) (hidle : Idle v w) : LastParts t u v := by
  refine lastParts_of_getLast? h ?_
  obtain ⟨rfl, hsingle, hreads⟩ := h
  obtain ⟨found, hfound⟩ := hreads.found .origin
  have hcolons : topLevelColons (u ++ ':' :: v) =
      found ++ [.ofPlace (Location.origin.after u)] := by
    rw [colonsAt_colon, if_pos ⟨rfl, hsingle⟩, hidle.colonsAt_eq_nil, List.append_nil] at hfound
    exact hfound
  rw [hcolons, List.getLast?_concat]

end DocstringEditor.Header
