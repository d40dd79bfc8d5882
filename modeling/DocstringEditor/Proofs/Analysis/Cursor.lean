import DocstringEditor.Analysis.Structural
import DocstringEditor.Proofs.Syntax.Span

namespace DocstringEditor.Syntax

open Analysis (cursorWithin)
open Analysis.Structural (enters visited visitedAll)

/-- Whether a document position has room for a location, whose line it counts from 1. -/
def Location.Fits (l : Location) : Prop :=
  l.byte < UInt32.size ∧ l.row + 1 < UInt32.size ∧ l.column < UInt32.size

namespace Node

/-- What a parser promises of its trees. -/
structure Regular (root : Node) : Prop where
  module_root : root.kind = .module
  module_only : ∀ n ∈ root.inner, n.kind ≠ .module
  nested : Nested root.preorder
  ordered : ∀ a ∈ root.places, ∀ b ∈ root.places, a.byte ≤ b.byte ↔ a ≤ b
  fits : ∀ l ∈ root.places, l.Fits
  named : ∀ n ∈ root.preorder, n.children ≠ [] → n.isNamed
  wide : ∀ d ∈ root.inner, d.isDefinition → d.hasWidth
  comments : ∀ c ∈ root.inner, c.isComment → ∀ d ∈ c.inner, ¬d.isDefinition
  apart : ∀ d ∈ root.inner, ∀ e ∈ root.inner, d.isDefinition → e.isDefinition → d ≠ e →
    d ∉ e.inner → e ∉ d.inner → d.logicalEnd.row < e.start.row ∨ e.logicalEnd.row < d.start.row

def contains (cursor : DocumentPosition) (n : Node) : Bool :=
  cursorWithin (Position.ofLocation n.start) (Position.ofLocation n.logicalEnd) cursor

def around (cursor : DocumentPosition) (root : Node) : List Node :=
  root.inner.filter fun d => d.isDefinition && d.contains cursor

end Node

theorem Location.Fits.line {l : Location} (h : l.Fits) :
    (Position.ofLocation l).line.toNat = l.row + 1 := by
  obtain ⟨-, h, -⟩ := h
  simp only [Position.ofLocation, UInt32.toNat_add, UInt32.toNat_ofNat', UInt32.size] at *
  simp
  omega

theorem Location.Fits.character {l : Location} (h : l.Fits) :
    (Position.ofLocation l).character.toNat = l.column := by
  obtain ⟨-, -, h⟩ := h
  simp only [Position.ofLocation, UInt32.toNat_ofNat', UInt32.size] at *
  omega

theorem cursorWithin_iff {a b : Location} (ha : a.Fits) (hb : b.Fits) (c : DocumentPosition) :
    cursorWithin (.ofLocation a) (.ofLocation b) c ↔
      (a.row + 1 < c.line.toNat ∨ a.row + 1 = c.line.toNat ∧ a.column < c.character.toNat) ∧
        c.line.toNat ≤ b.row + 1 := by
  have hline := ha.line
  have hstop := hb.line
  have hcolumn := ha.character
  unfold cursorWithin
  simp only [UInt32.lt_iff_toNat_lt, ← UInt32.toNat_inj, hline, hstop, hcolumn, ne_eq,
    Bool.or_eq_true, decide_eq_true_eq]
  split
  · simp only [Bool.false_eq_true, false_iff]
    omega
  · simp only [decide_not, Bool.or_eq_true, Bool.not_eq_eq_eq_not, Bool.not_true,
      decide_eq_false_iff_not, decide_eq_true_eq]
    omega

theorem cursorWithin_mono {a a' b b' : Location} (ha : a.Fits) (ha' : a'.Fits) (hb : b.Fits)
    (hb' : b'.Fits) (hstart : a ≤ a') (hstop : b' ≤ b) {c : DocumentPosition}
    (h : cursorWithin (.ofLocation a') (.ofLocation b') c) :
    cursorWithin (.ofLocation a) (.ofLocation b) c := by
  rw [cursorWithin_iff ha hb]
  rw [cursorWithin_iff ha' hb'] at h
  rw [Location.le_def] at hstart hstop
  omega

namespace Node

theorem start_mem_places {m n : Node} (h : m ∈ n.preorder) : m.start ∈ n.places :=
  List.mem_flatMap.2 ⟨m, h, by simp⟩

theorem stop_mem_places {m n : Node} (h : m ∈ n.preorder) : m.stop ∈ n.places :=
  List.mem_flatMap.2 ⟨m, h, by simp⟩

theorem places_subset {m n : Node} (h : m ∈ n.inner) {l : Location} (hl : l ∈ m.places) :
    l ∈ n.places := by
  obtain ⟨p, hp, hl⟩ := List.mem_flatMap.1 hl
  refine List.mem_flatMap.2 ⟨p, mem_preorder.2 (.inr ?_), hl⟩
  rcases mem_preorder.1 hp with rfl | hp
  · exact h
  · exact inner_trans h hp

theorem mem_around {root d : Node} {cursor : DocumentPosition} :
    d ∈ root.around cursor ↔ d ∈ root.inner ∧ d.isDefinition ∧ d.contains cursor := by
  simp [around]

namespace Regular

variable {root : Node} (h : root.Regular)
include h

theorem nested_of_mem {n : Node} (hn : n ∈ root.preorder) : Nested n.preorder :=
  h.nested.of_mem_preorder hn

theorem isSubstantial {d : Node} (hd : d ∈ root.inner) (hdef : d.isDefinition) :
    d.isSubstantial := by
  have hcomment : d.isComment = false := by
    by_contra hc
    simp_all [isDefinition, isComment]
  simp [Node.isSubstantial, hcomment, h.wide d hd hdef]

theorem start_le {n d : Node} (hn : n ∈ root.preorder) (hd : d ∈ n.inner) : n.start ≤ d.start := by
  refine (h.ordered _ (start_mem_places hn) _ ?_).1
    (within_bounds.1 n (h.nested_of_mem hn) d hd).1
  rcases mem_preorder.1 hn with rfl | hn
  · exact start_mem_places (mem_preorder.2 (.inr hd))
  · exact start_mem_places (mem_preorder.2 (.inr (inner_trans hn hd)))

theorem logicalEnd_mem_places {n : Node} (hn : n ∈ root.preorder) : n.logicalEnd ∈ root.places := by
  rcases mem_preorder.1 hn with rfl | hn
  · exact n.logicalEnd_mem_places
  · exact places_subset hn n.logicalEnd_mem_places

theorem logicalEnd_le {n d : Node} (hn : n ∈ root.inner) (hd : d ∈ n.inner)
    (hdef : d.isDefinition) : d.logicalEnd ≤ n.logicalEnd ∧ d.logicalEnd ≤ n.stop := by
  have hnroot := mem_preorder.2 (.inr hn)
  have hdin := inner_trans hn hd
  have hdroot := mem_preorder.2 (.inr hdin)
  have hsub := h.isSubstantial hdin hdef
  have hnested := h.nested_of_mem hnroot
  constructor
  · refine (h.ordered _ (h.logicalEnd_mem_places hdroot) _ (h.logicalEnd_mem_places hnroot)).1 ?_
    exact logicalEnd_mono hnested hd hsub fun c hc hcom hdc =>
      h.comments c (inner_trans hn hc) hcom d hdc hdef
  · refine (h.ordered _ (h.logicalEnd_mem_places hdroot) _ (stop_mem_places hnroot)).1 ?_
    have hb := within_bounds.1 n hnested d hd
    have := (logicalEnd_bounds.1 d (h.nested_of_mem hdroot) hb.2.1).2
    omega

theorem fits_start {n : Node} (hn : n ∈ root.preorder) : n.start.Fits :=
  h.fits _ (start_mem_places hn)

theorem fits_stop {n : Node} (hn : n ∈ root.preorder) : n.stop.Fits :=
  h.fits _ (stop_mem_places hn)

theorem fits_logicalEnd {n : Node} (hn : n ∈ root.preorder) : n.logicalEnd.Fits :=
  h.fits _ (h.logicalEnd_mem_places hn)

theorem contains_of_inner {n d : Node} (hn : n ∈ root.inner) (hd : d ∈ n.inner)
    (hdef : d.isDefinition) {cursor : DocumentPosition} (hc : d.contains cursor) :
    n.contains cursor ∧
      cursorWithin (Position.ofLocation n.start) (Position.ofLocation n.stop) cursor := by
  have hnroot := mem_preorder.2 (.inr hn)
  have hdroot := mem_preorder.2 (.inr (inner_trans hn hd))
  have hstart := h.start_le hnroot hd
  obtain ⟨hend, hstop⟩ := h.logicalEnd_le hn hd hdef
  exact ⟨cursorWithin_mono (h.fits_start hnroot) (h.fits_start hdroot) (h.fits_logicalEnd hnroot)
      (h.fits_logicalEnd hdroot) hstart hend hc,
    cursorWithin_mono (h.fits_start hnroot) (h.fits_start hdroot) (h.fits_stop hnroot)
      (h.fits_logicalEnd hdroot) hstart hstop hc⟩

theorem enters_of_contains {n d : Node} (hn : n ∈ root.inner) (hd : d ∈ n.preorder)
    (hdef : d.isDefinition) {cursor : DocumentPosition} (hc : d.contains cursor) :
    enters cursor n := by
  have hmodule := definitionKind?_of_kind_ne (h.module_only n hn)
  have hboth : n.isDefinition → n.contains cursor := by
    intro hndef
    rcases mem_preorder.1 hd with rfl | hd
    · exact hc
    · exact (h.contains_of_inner hn hd hdef hc).1
  unfold enters
  split
  · rfl
  · rename_i kind hne hkind
    refine hboth (isDefinition_iff.2 ?_)
    cases kind <;> simp_all
  · rename_i hnone
    rcases mem_preorder.1 hd with rfl | hd
    · simp [isDefinition_iff, hnone] at hdef
    · exact (h.contains_of_inner hn hd hdef hc).2

theorem visited_eq (cursor : DocumentPosition) :
    (∀ n : Node, (∀ m ∈ n.preorder, m ∈ root.inner) →
      visited cursor n = n.preorder.filter fun d => d.isDefinition && d.contains cursor) ∧
    ∀ ns : Forest, (∀ m ∈ preorderAll ns, m ∈ root.inner) →
      visitedAll cursor ns =
        (preorderAll ns).filter fun d => d.isDefinition && d.contains cursor := by
  apply Node.induction
  case mk =>
    intro k r s e cs ih hroot
    set n := Node.mk k r s e cs with hn
    have hin : n ∈ root.inner := hroot n (by simp)
    have hmodule := definitionKind?_of_kind_ne (h.module_only n hin)
    cases he : enters cursor n with
    | false =>
        have hnone : ∀ d ∈ n.preorder, ¬(d.isDefinition && d.contains cursor) := by
          intro d hd hboth
          rw [Bool.and_eq_true] at hboth
          simp [h.enters_of_contains hin hd hboth.1 hboth.2] at he
        rw [List.filter_eq_nil_iff.2 hnone, hn, visited, ← hn, he]
        rfl
    | true =>
        rw [hn, visited, ← hn, he, ih fun m hm => hroot m (mem_preorder.2 (.inr hm)),
          preorder_eq, List.filter_cons]
        have hhead : n.definitionKind?.isSome = (n.isDefinition && n.contains cursor) := by
          unfold enters at he
          rw [Bool.eq_iff_iff, Bool.and_eq_true, isDefinition_iff]
          split at he <;> simp_all [contains]
          rename_i kind _ _
          cases kind <;> simp_all
        rw [← hhead]
        cases n.definitionKind?.isSome <;> rfl
  case nil => simp [visitedAll]
  case cons =>
    intro n ns ihn ihns hroot
    have hnode : ∀ m ∈ n.preorder, m ∈ root.inner := fun m hm => hroot m (by simp_all)
    rw [visitedAll, preorderAll_cons, List.filter_append,
      ihns fun m hm => hroot m (by simp [hm])]
    congr 1
    cases hnamed : n.isNamed with
    | true => exact ihn hnode
    | false =>
        have hchildren : n.children = [] := by
          by_contra hc
          have := h.named n (mem_preorder.2 (.inr (hnode n (by simp)))) hc
          simp [hnamed] at this
        have hdef : n.isDefinition = false := by
          unfold isNamed at hnamed
          unfold isDefinition
          cases hk : n.kind <;> simp_all [Kind.isNamed]
        simp [preorder_eq, inner, hchildren, hdef]

/-- The walk to a cursor comes by the module and the definitions that contain the cursor. -/
theorem visited_root (cursor : DocumentPosition) :
    visited cursor root = root :: root.around cursor := by
  obtain ⟨k, r, s, e, cs⟩ := root
  obtain rfl : k = .module := h.module_root
  rw [visited, (h.visited_eq cursor).2 cs fun _ hm => hm]
  rfl

/-- Of two definitions that contain a cursor one is below the other, as they share a row. -/
theorem inner_or_inner {cursor : DocumentPosition} {d e : Node} (hd : d ∈ root.around cursor)
    (he : e ∈ root.around cursor) (hne : d ≠ e) : d ∈ e.inner ∨ e ∈ d.inner := by
  obtain ⟨hdin, hddef, hdc⟩ := mem_around.1 hd
  obtain ⟨hein, hedef, hec⟩ := mem_around.1 he
  by_contra hout
  rw [not_or] at hout
  have hapart := h.apart d hdin e hein hddef hedef hne hout.1 hout.2
  have hdroot : d ∈ root.preorder := mem_preorder.2 (.inr hdin)
  have heroot : e ∈ root.preorder := mem_preorder.2 (.inr hein)
  rw [contains, cursorWithin_iff (h.fits_start hdroot) (h.fits_logicalEnd hdroot)] at hdc
  rw [contains, cursorWithin_iff (h.fits_start heroot) (h.fits_logicalEnd heroot)] at hec
  omega

theorem definitions_pairwise :
    (root.inner.filter isDefinition).Pairwise fun d e => d ≠ e ∧ d ∉ e.inner := by
  have hw := h.nested root (by simp)
  have hp := (preorder_pairwise.2 root.children h.nested.inner _ _ hw).filter isDefinition
  refine List.Pairwise.imp_of_mem (fun hd _ hde => hde ?_) hp
  rw [List.mem_filter] at hd
  exact h.wide _ hd.1 hd.2

end Regular
end Node
end DocstringEditor.Syntax
