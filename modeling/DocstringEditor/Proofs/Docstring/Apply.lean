import DocstringEditor.Proofs.Docstring.Edit

namespace DocstringEditor

open Text (byteSize splitLines takeBytes dropBytes sliceBytes)

variable {source : Text} {p : ProtocolPosition} {n : Nat}

namespace Text

theorem exists_parts {s t u w : Text} (hs : s <+: w) (ht : t <+: w) (hu : u <+: w)
    (hle : byteSize s ≤ byteSize t) (hle' : byteSize t ≤ byteSize u) :
    ∃ b c rest, t = s ++ b ∧ u = s ++ b ++ c ∧ w = s ++ b ++ c ++ rest := by
  obtain ⟨b, rfl⟩ := prefix_of_byteSize_le hs ht hle
  obtain ⟨c, rfl⟩ := prefix_of_byteSize_le ht hu hle'
  obtain ⟨rest, rfl⟩ := hu
  exact ⟨b, c, rest, rfl, rfl, rfl⟩

theorem takeBytes_parts (s t u v : Text) : takeBytes (s ++ t ++ u ++ v) (byteSize s) = some s := by
  rw [List.append_assoc, List.append_assoc]
  exact takeBytes_append s _

theorem sliceBytes_parts (s t u v : Text) :
    sliceBytes (s ++ t ++ u ++ v) (byteSize s) (byteSize (s ++ t)) = some t := by
  rw [List.append_assoc (s ++ t)]
  exact sliceBytes_append s t _

end Text

namespace Docstring

def isOutside (source : Text) (p : ProtocolPosition) : Bool := !(byteOffset source p).isOk

theorem isOutside_iff :
    isOutside source p = true ↔ byteOffset source p = .error (.outOfBounds p) := by
  rw [isOutside, byteOffset]
  split <;> simp [Except.isOk, Except.toBool]

theorem not_isOutside_iff : ¬isOutside source p = true ↔ ∃ n, byteOffset source p = .ok n := by
  rw [isOutside, byteOffset]
  split <;> simp [Except.isOk, Except.toBool]

end Docstring

namespace DocstringEdit

open Docstring

variable {e : DocstringEdit} {place start stop : Nat}

/-- The positions of an edit in the order in which they are looked up. -/
def places (e : DocstringEdit) : List ProtocolPosition :=
  e.insertAt :: e.removal.toList.flatMap fun gone => [gone.start, gone.stop]

/-- How applying an edit ends. All offsets are those of the document before it. -/
inductive Outcome (e : DocstringEdit) (source : Text) : Except (Halt EditError) Text → Prop
  | outOfBounds (p : ProtocolPosition) (first : e.places.find? (isOutside source) = some p) :
      Outcome e source (.error (.error (.outOfBounds p)))
  | reversed {place start stop : Nat} (offsets : e.Offsets source place start stop)
      (lt : stop < start) : Outcome e source (.error .panic)
  | overlap {place start stop : Nat} (offsets : e.Offsets source place start stop)
      (after : start < place) (before : place < stop) :
      Outcome e source (.error (.error (.overlap e.insertAt)))
  | before {place start stop : Nat} {above between below : Text}
      (offsets : e.Offsets source place start stop) (ordered : start ≤ stop) (le : place ≤ start)
      (kept : takeBytes source place = some above)
      (kept' : sliceBytes source place start = some between)
      (kept'' : dropBytes source stop = some below) :
      Outcome e source (.ok (above ++ e.text ++ between ++ below))
  | behind {place start stop : Nat} {above between below : Text}
      (offsets : e.Offsets source place start stop) (ordered : start ≤ stop) (le : stop ≤ place)
      (kept : takeBytes source start = some above)
      (kept' : sliceBytes source stop place = some between)
      (kept'' : dropBytes source place = some below) :
      Outcome e source (.ok (above ++ between ++ e.text ++ below))
  | inserted {place : Nat} {above below : Text} (removal : e.removal = none)
      (insertion : byteOffset source e.insertAt = .ok place)
      (kept : takeBytes source place = some above) (kept' : dropBytes source place = some below) :
      Outcome e source (.ok (above ++ e.text ++ below))

theorem apply_of_find? (h : e.places.find? (isOutside source) = some p) :
    e.apply source = .error (.error (.outOfBounds p)) := by
  have hp := isOutside_iff.1 (List.find?_some h)
  rw [apply]
  by_cases hinsertion : isOutside source e.insertAt
  · rw [places, List.find?_cons_of_pos hinsertion] at h
    obtain rfl := Option.some.inj h
    simp only [hp, mapError_error]
    rfl
  obtain ⟨place, hplace⟩ := not_isOutside_iff.1 hinsertion
  rw [places, List.find?_cons_of_neg hinsertion] at h
  simp only [hplace, mapError_ok, ok_bind]
  cases hremoval : e.removal with
  | none => simp [hremoval] at h
  | some gone =>
      rw [hremoval] at h
      change [gone.start, gone.stop].find? (isOutside source) = some p at h
      by_cases hstart : isOutside source gone.start
      · rw [List.find?_cons_of_pos hstart] at h
        obtain rfl := Option.some.inj h
        simp only [hp]
        rfl
      obtain ⟨start, hstart'⟩ := not_isOutside_iff.1 hstart
      rw [List.find?_cons_of_neg hstart] at h
      obtain rfl := List.mem_singleton.1 (List.mem_of_find?_eq_some h)
      simp only [hstart', hp]
      rfl

namespace Offsets

theorem apply_behind {above removed between below : Text}
    (h : e.Offsets (above ++ removed ++ between ++ below) (byteSize (above ++ removed ++ between))
      (byteSize above) (byteSize (above ++ removed))) :
    e.apply (above ++ removed ++ between ++ below) =
      .ok (above ++ between ++ e.text ++ below) := by
  have hoffset : byteSize (above ++ removed ++ between) - (byteSize (above ++ removed) -
      byteSize above) = byteSize (above ++ between) := by
    simp only [Text.byteSize_append]
    omega
  have hremove := removeBytes_append above removed (between ++ below)
  have hinsert := insertAtByte_append (above ++ between) e.text below
  rw [← List.append_assoc, ← List.append_assoc above] at hremove
  rw [h.apply_eq, if_neg (by simp only [Text.byteSize_append]; omega),
    if_neg (by simp only [Text.byteSize_append]; omega),
    if_pos (by simp only [Text.byteSize_append]; omega), hoffset, hremove, hinsert]

theorem exists_prefixes (h : e.Offsets source place start stop) : ∃ s t u : Text,
    s <+: source ∧ t <+: source ∧ u <+: source ∧
      byteSize s = place ∧ byteSize t = start ∧ byteSize u = stop := by
  obtain ⟨gone, -, hstart, hstop⟩ := h.removal
  obtain ⟨s, hs, hplace⟩ := exists_of_byteOffset h.insertion
  obtain ⟨t, ht, hstart⟩ := exists_of_byteOffset hstart
  obtain ⟨u, hu, hstop⟩ := exists_of_byteOffset hstop
  exact ⟨s, t, u, hs, ht, hu, hplace, hstart, hstop⟩

theorem exists_parts_before (h : e.Offsets source place start stop) (hle : place ≤ start)
    (hordered : start ≤ stop) : ∃ above between removed below,
      source = above ++ between ++ removed ++ below ∧ place = byteSize above ∧
      start = byteSize (above ++ between) ∧ stop = byteSize (above ++ between ++ removed) := by
  obtain ⟨s, t, u, hs, ht, hu, rfl, rfl, rfl⟩ := h.exists_prefixes
  obtain ⟨b, c, rest, rfl, rfl, rfl⟩ := Text.exists_parts hs ht hu hle hordered
  exact ⟨s, b, c, rest, rfl, rfl, rfl, rfl⟩

theorem exists_parts_behind (h : e.Offsets source place start stop) (hle : stop ≤ place)
    (hordered : start ≤ stop) : ∃ above removed between below,
      source = above ++ removed ++ between ++ below ∧
      place = byteSize (above ++ removed ++ between) ∧ start = byteSize above ∧
      stop = byteSize (above ++ removed) := by
  obtain ⟨s, t, u, hs, ht, hu, rfl, rfl, rfl⟩ := h.exists_prefixes
  obtain ⟨b, c, rest, rfl, rfl, rfl⟩ := Text.exists_parts ht hu hs hordered hle
  exact ⟨t, b, c, rest, rfl, rfl, rfl, rfl⟩

theorem exists_outcome (h : e.Offsets source place start stop) : ∃ r, Outcome e source r := by
  by_cases hordered : stop < start
  · exact ⟨_, .reversed h hordered⟩
  by_cases hbefore : place ≤ start
  · obtain ⟨above, between, removed, below, rfl, rfl, rfl, rfl⟩ :=
      h.exists_parts_before hbefore (by omega)
    exact ⟨_, .before h (by omega) hbefore (Text.takeBytes_parts above between removed below)
      (Text.sliceBytes_parts above between removed below) (Text.dropBytes_append _ below)⟩
  by_cases hbehind : stop ≤ place
  · obtain ⟨above, removed, between, below, rfl, rfl, rfl, rfl⟩ :=
      h.exists_parts_behind hbehind (by omega)
    exact ⟨_, .behind h (by omega) hbehind (Text.takeBytes_parts above removed between below)
      (Text.sliceBytes_append _ between below) (Text.dropBytes_append _ below)⟩
  · exact ⟨_, .overlap h (by omega) (by omega)⟩

end Offsets

theorem Outcome.apply_eq {r : Except (Halt EditError) Text} (h : Outcome e source r) :
    e.apply source = r := by
  cases h with
  | outOfBounds p first => exact apply_of_find? first
  | reversed offsets lt => rw [offsets.apply_eq, if_neg (by omega), if_pos lt]
  | overlap offsets after before => rw [offsets.apply_eq, if_pos ⟨after, before⟩]
  | before offsets ordered le kept kept' kept'' =>
      obtain ⟨above, between, removed, below, rfl, rfl, rfl, rfl⟩ :=
        offsets.exists_parts_before le ordered
      rw [Text.takeBytes_parts] at kept
      rw [Text.sliceBytes_parts] at kept'
      rw [Text.dropBytes_append] at kept''
      obtain rfl := Option.some.inj kept
      obtain rfl := Option.some.inj kept'
      obtain rfl := Option.some.inj kept''
      exact offsets.apply_before
  | behind offsets ordered le kept kept' kept'' =>
      obtain ⟨above, removed, between, below, rfl, rfl, rfl, rfl⟩ :=
        offsets.exists_parts_behind le ordered
      rw [Text.takeBytes_parts] at kept
      rw [Text.sliceBytes_append] at kept'
      rw [Text.dropBytes_append] at kept''
      obtain rfl := Option.some.inj kept
      obtain rfl := Option.some.inj kept'
      obtain rfl := Option.some.inj kept''
      exact offsets.apply_behind
  | inserted removal insertion kept kept' =>
      obtain ⟨above, ⟨below, rfl⟩, rfl⟩ := exists_of_byteOffset insertion
      rw [Text.takeBytes_append] at kept
      rw [Text.dropBytes_append] at kept'
      obtain rfl := Option.some.inj kept
      obtain rfl := Option.some.inj kept'
      exact apply_of_none removal insertion

theorem exists_outcome (e : DocstringEdit) (source : Text) : ∃ r, Outcome e source r := by
  cases hfind : e.places.find? (isOutside source) with
  | some p => exact ⟨_, .outOfBounds p hfind⟩
  | none =>
      have haccepted : ∀ p ∈ e.places, ∃ n, byteOffset source p = .ok n :=
        fun p hp => not_isOutside_iff.1 (List.find?_eq_none.1 hfind p hp)
      obtain ⟨place, hplace⟩ := haccepted e.insertAt List.mem_cons_self
      cases hremoval : e.removal with
      | none =>
          obtain ⟨above, ⟨below, rfl⟩, rfl⟩ := exists_of_byteOffset hplace
          exact ⟨_, .inserted hremoval hplace (Text.takeBytes_append above below)
            (Text.dropBytes_append above below)⟩
      | some gone =>
          obtain ⟨start, hstart⟩ := haccepted gone.start (by simp [places, hremoval])
          obtain ⟨stop, hstop⟩ := haccepted gone.stop (by simp [places, hremoval])
          exact Offsets.exists_outcome ⟨hplace, gone, hremoval, hstart, hstop⟩

/-- Applying an edit fails at the first of its positions that is outside of the document, then if
the insertion is inside of the removal. A reversed removal ends the program. Else both changes are
made at once. -/
theorem apply_eq_iff {r : Except (Halt EditError) Text} :
    e.apply source = r ↔ Outcome e source r := by
  constructor
  · rintro rfl
    obtain ⟨r, hr⟩ := exists_outcome e source
    rwa [hr.apply_eq]
  · exact Outcome.apply_eq

/-- The first line below the place that an edit changes. -/
def resumedLine (e : DocstringEdit) : Nat :=
  match e.removal with
  | some gone => gone.stop.line.toNat
  | none => e.insertAt.line.toNat

end DocstringEdit

theorem Entity.docstring_of_named {e : Entity} {n : NamedEntity} (h : e.named? = some n) :
    e.docstring = n.docstring := by
  cases e with
  | module m => cases h
  | classDef n' | functionDef n' =>
      obtain rfl := Option.some.inj h
      rfl

theorem Position.row_le_row {p q : DocumentPosition} (h : p ≤ q) : p.row ≤ q.row := by
  have hline : p.line.toNat ≤ q.line.toNat := by
    rcases h with hlt | ⟨heq, -⟩
    · exact Nat.le_of_lt hlt
    · exact Nat.le_of_eq (congrArg _ heq)
  exact Nat.sub_le_sub_right hline 1

namespace Docstring

variable {e : Entity} {generated document : Text} {onNewLine : Bool} {edit : DocstringEdit}

theorem Planned.apply_lines {n : NamedEntity} (h : Planned document generated onNewLine n edit)
    (hordered : ∀ range, n.docstring = some range → range.start ≤ range.stop) :
    edit.apply document =
      .ok (((splitLines document).take edit.insertAt.line.toNat).flatten ++ edit.text ++
        ((splitLines document).drop edit.resumedLine).flatten) := by
  have hplace : byteOffset document edit.insertAt = .ok _ := byteOffset_lineStart h.column
  have hdocument := Text.flatten_splitLines document
  cases hdocstring : n.docstring with
  | none =>
      have hremoval := h.added hdocstring
      rw [DocstringEdit.resumedLine, hremoval]
      rw [← Text.flatten_take_drop _ edit.insertAt.line.toNat] at hdocument
      generalize splitLines document = lines at hplace hdocument ⊢
      subst hdocument
      exact DocstringEdit.apply_of_none hremoval hplace
  | some range =>
      obtain ⟨gone, hgone, hstart, hline, hcolumn⟩ := h.replaced range hdocstring
      have hstop : byteOffset document gone.stop = .ok _ := byteOffset_lineStart hcolumn
      have hrow : edit.insertAt.line.toNat ≤ gone.stop.line.toNat := by
        have hrows := Position.row_le_row (hordered range hdocstring)
        rw [h.row, hline, insertionRow, hdocstring]
        exact Nat.le_succ_of_le hrows
      rw [DocstringEdit.resumedLine, hgone]
      rw [← Text.flatten_take_drop _ gone.stop.line.toNat, ← Text.flatten_parts _ hrow] at hdocument
      rw [← Text.flatten_parts _ hrow] at hstop
      generalize splitLines document = lines at hplace hstop hdocument ⊢
      subst hdocument
      exact DocstringEdit.apply_of_start_eq hgone hstart hplace hstop

/-- A planned edit always applies. Its text comes between the whole lines above the row where it is
put and those below the docstring that it replaces. -/
theorem apply_plan (hordered : ∀ range, e.docstring = some range → range.start ≤ range.stop)
    (h : plan e generated onNewLine document = .ok edit) :
    edit.apply document =
      .ok (((splitLines document).take edit.insertAt.line.toNat).flatten ++ edit.text ++
        ((splitLines document).drop edit.resumedLine).flatten) := by
  obtain ⟨n, hn, hplanned⟩ := plan_eq_ok h
  rw [Entity.docstring_of_named hn] at hordered
  exact hplanned.apply_lines hordered

/-- The old docstring may reach past the end of a document without a final line end. -/
theorem apply_plan_method : ∃ (e : Entity) (edit : DocstringEdit),
    (∀ range, e.docstring = some range → range.start ≤ range.stop) ∧
    plan e "Doc.\n\n  More.".toList true "class A:\r\n\tdef f(self):\r\n\t\t'''old".toList =
      .ok edit ∧
    edit.apply "class A:\r\n\tdef f(self):\r\n\t\t'''old".toList =
      .ok (((splitLines "class A:\r\n\tdef f(self):\r\n\t\t'''old".toList).take
          edit.insertAt.line.toNat).flatten ++ edit.text ++
        ((splitLines "class A:\r\n\tdef f(self):\r\n\t\t'''old".toList).drop
          edit.resumedLine).flatten) := by
  obtain ⟨e, he⟩ : ∃ e, e = Entity.functionDef ⟨"f", "\tdef f(self):\r\n\t\t'''old\r\n'''".toList,
    ⟨⟨2, 1⟩, ⟨4, 3⟩⟩, ⟨2, 13⟩, some ⟨⟨3, 2⟩, ⟨4, 3⟩⟩, 0, []⟩ := ⟨_, rfl⟩
  have hordered : ∀ range, e.docstring = some range → range.start ≤ range.stop := by
    intro range hrange
    rw [he] at hrange
    obtain rfl := Option.some.inj hrange
    decide
  obtain ⟨edit, hedit⟩ := exists_eq_ok (x := plan e "Doc.\n\n  More.".toList true
    "class A:\r\n\tdef f(self):\r\n\t\t'''old".toList) (by rw [he]; decide +kernel)
  exact ⟨e, edit, hordered, hedit, apply_plan hordered hedit⟩

end Docstring

end DocstringEditor
