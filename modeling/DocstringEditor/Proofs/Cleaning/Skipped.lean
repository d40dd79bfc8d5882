import Mathlib.Data.List.Pairwise
import Mathlib.Data.List.Sort
import Mathlib.Data.String.Basic
import DocstringEditor.Proofs.Cleaning.Passes
import DocstringEditor.Proofs.Text.Terminated

namespace DocstringEditor

open Text (IsTerminated bareLines splitLines stripLineEnding)

variable {line v v' : Text} {ls ls' : List Text}

namespace Text

theorem bareLines_flatten (h : ∀ line ∈ ls, IsTerminated line) (t : Text) :
    bareLines (ls.flatten ++ t) = ls.map stripLineEnding ++ bareLines t := by
  rw [bareLines, splitLines_flatten h, List.map_append, bareLines]

theorem bareLines_prefix_of_not_mem (h : '\n' ∉ v) : bareLines v <+: [v] := by
  have hlast : v.getLast? ≠ some '\n' := fun hlast => h (List.mem_of_getLast? hlast)
  have hline := (splitLines_prefix_of_not_mem h).map stripLineEnding
  rwa [List.map_singleton, stripLineEnding_of_getLast?_ne hlast] at hline

/-- Lines with a line feed each that lose the last terminator. Nothing is left of a last line that
is empty without it. -/
theorem bareLines_stripLineEnding_concat (h : ∀ u ∈ ls ++ [line], IsTerminated u) :
    bareLines (stripLineEnding (ls ++ [line]).flatten) =
      ls.map stripLineEnding ++ bareLines (stripLineEnding line) := by
  obtain ⟨hls, hline⟩ := List.forall_mem_append.1 h
  obtain ⟨v, -, rfl⟩ := hline line (List.mem_singleton_self line)
  have hlast : ls.flatten.getLast? ≠ some '\r' := by
    rcases List.eq_nil_or_concat ls with rfl | ⟨ls, before, rfl⟩
    · simp
    · rw [List.concat_eq_append] at hls ⊢
      obtain ⟨w, -, rfl⟩ := hls before (by simp)
      simp [List.getLast?_append]
  rw [List.flatten_append, List.flatten_singleton, stripLineEnding_append hlast (by simp),
    bareLines_flatten hls]

theorem bareLines_prefix_map (h : ∀ line ∈ ls, IsTerminated line) :
    bareLines (stripLineEnding ls.flatten) <+: ls.map stripLineEnding := by
  rcases List.eq_nil_or_concat ls with rfl | ⟨ls, line, rfl⟩
  · exact List.nil_prefix
  · rw [List.concat_eq_append] at h ⊢
    rw [bareLines_stripLineEnding_concat h, List.map_append, List.map_singleton]
    have hline := h line (List.mem_append_right ls (List.mem_singleton_self line))
    exact (List.prefix_append_right_inj _).2
      (bareLines_prefix_of_not_mem hline.newline_not_mem_stripLineEnding)

theorem bareLines_sublist_map (hls : ∀ line ∈ ls', IsTerminated line) (h : ls.Sublist ls')
    (below : List Text) :
    (bareLines (stripLineEnding ls.flatten)).Sublist (ls'.map stripLineEnding ++ below) :=
  (bareLines_prefix_map fun line hline => hls line (h.subset hline)).sublist.trans
    ((h.map stripLineEnding).trans (List.sublist_append_left _ below))

theorem bareLines_sublist (hls : ∀ line ∈ ls', IsTerminated line) (h : ls.Sublist ls')
    (hv : v = [] ∨ v = v') :
    (bareLines (ls.flatten ++ v)).Sublist (bareLines (ls'.flatten ++ v')) := by
  rw [bareLines_flatten hls, bareLines_flatten fun line hline => hls line (h.subset hline)]
  refine (h.map stripLineEnding).append ?_
  rcases hv with rfl | rfl
  · exact List.nil_sublist _
  · exact List.Sublist.refl _

theorem bareLines_stripLineEnding_sublist (hls : ∀ line ∈ ls', IsTerminated line)
    (h : ls.Sublist ls') (hnewline : '\n' ∉ v') (hv : v = [] ∨ v = v') :
    (bareLines (stripLineEnding (ls.flatten ++ v))).Sublist
      (bareLines (stripLineEnding (ls'.flatten ++ v'))) := by
  by_cases hnil : v' = []
  · obtain rfl : v = [] := hv.elim id (·.trans hnil)
    rw [hnil, List.append_nil, List.append_nil]
    rcases List.eq_nil_or_concat ls' with rfl | ⟨ls', line, rfl⟩
    · rw [List.sublist_nil.1 h]
    · -- The terminator comes off the same line just if that line is left on both sides.
      rw [List.concat_eq_append] at hls h ⊢
      obtain ⟨above, last, rfl, habove, hlast⟩ := List.sublist_append_iff.1 h
      rw [bareLines_stripLineEnding_concat hls]
      rcases List.sublist_singleton.1 hlast with rfl | rfl
      · rw [List.append_nil]
        exact bareLines_sublist_map (List.forall_mem_append.1 hls).1 habove _
      · rw [bareLines_stripLineEnding_concat fun line hline => hls line (h.subset hline)]
        exact (habove.map stripLineEnding).append_right _
  · have hstrip (t : Text) : stripLineEnding (t ++ v') = t ++ v' := by
      refine stripLineEnding_of_getLast?_ne fun hlast => hnewline ?_
      rw [List.getLast?_append_of_ne_nil t hnil] at hlast
      exact List.mem_of_getLast? hlast
    rw [hstrip]
    rcases hv with rfl | rfl
    · rw [List.append_nil, bareLines_flatten hls]
      exact bareLines_sublist_map hls h _
    · rw [hstrip]
      exact bareLines_sublist hls h (.inr rfl)

theorem exists_rests {part part' : List Text} (hls : ∀ line ∈ ls, IsTerminated line)
    (hnewline : '\n' ∉ v) (hpart' : part'.Sublist (ls ++ [v])) (hpart : part.Sublist part') :
    ∃ (above above' : List Text) (rest rest' : Text), part.flatten = above.flatten ++ rest ∧
      part'.flatten = above'.flatten ++ rest' ∧ (∀ line ∈ above', IsTerminated line) ∧
      above.Sublist above' ∧ '\n' ∉ rest' ∧ (rest = [] ∨ rest = rest') := by
  obtain ⟨above', last', rfl, habove', hlast'⟩ := List.sublist_append_iff.1 hpart'
  obtain ⟨above, last, rfl, habove, hlast⟩ := List.sublist_append_iff.1 hpart
  refine ⟨above, above', last.flatten, last'.flatten, by simp, by simp,
    fun line hline => hls line (habove'.subset hline), habove, ?_, ?_⟩
  · rcases List.sublist_singleton.1 hlast' with rfl | rfl <;> simp [hnewline]
  · rcases List.sublist_singleton.1 hlast' with rfl | rfl
    · simp [List.sublist_nil.1 hlast]
    · rcases List.sublist_singleton.1 hlast with rfl | rfl <;> simp

end Text

namespace Cleaning

variable {name n : String} {names names' : List String}

theorem mem_insertName : n ∈ insertName name names ↔ n = name ∨ n ∈ names := by
  fun_induction insertName name names with
  | case1 => simp
  | case2 => exact List.mem_cons
  | case3 => simp
  | case4 m ns _ _ ih => rw [List.mem_cons, ih, List.mem_cons, or_left_comm]

theorem pairwise_insertName (h : names.Pairwise (· < ·)) :
    (insertName name names).Pairwise (· < ·) := by
  fun_induction insertName name names with
  | case1 => exact List.pairwise_singleton _ _
  | case2 m ns hlt => exact List.pairwise_cons_cons_iff_of_trans.2 ⟨hlt, h⟩
  | case3 => exact h
  | case4 m ns hlt hne ih =>
      obtain ⟨hm, hns⟩ := List.pairwise_cons.1 h
      refine List.pairwise_cons.2 ⟨fun n hn => ?_, ih hns⟩
      rcases mem_insertName.1 hn with rfl | hn
      · exact lt_of_le_of_ne (not_lt.1 hlt) (Ne.symm hne)
      · exact hm n hn

theorem mem_sortNames : n ∈ sortNames names ↔ n ∈ names := by
  induction names with
  | nil => rfl
  | cons m names ih =>
      rw [sortNames, List.foldr_cons, mem_insertName, List.mem_cons, ← ih]
      rfl

theorem pairwise_sortNames (names : List String) : (sortNames names).Pairwise (· < ·) := by
  induction names with
  | nil => exact .nil
  | cons m names ih => exact pairwise_insertName ih

theorem isTerminated_dropIndentation (n : Nat) (h : IsTerminated line) :
    IsTerminated (dropIndentation n line) := by
  obtain ⟨v, hv, rfl⟩ := h
  have hends : (v ++ ['\n']).getLast? = some '\n' := List.getLast?_concat
  have hlast := getLast?_dropIndentation n hends
  obtain ⟨w, hw⟩ := List.getLast?_eq_some_iff.1 hlast
  obtain ⟨blanks, hline, -⟩ := exists_dropIndentation n (v ++ ['\n'])
  rw [hw, ← List.append_assoc] at hline
  refine ⟨w, fun hmem => hv ?_, hw⟩
  rw [List.append_cancel_right hline]
  exact List.mem_append_right blanks hmem

theorem newline_not_mem_dropIndentation (n : Nat) (h : '\n' ∉ v) : '\n' ∉ dropIndentation n v := by
  obtain ⟨blanks, hline, -⟩ := exists_dropIndentation n v
  rw [hline] at h
  exact fun hmem => h (List.mem_append_right blanks hmem)

end Cleaning

namespace Entity

open Cleaning

variable {e : Entity} {skip skip' : List String} {methods methods' : List CleaningMethod}

def Supports (e : Entity) (name : String) : Prop := ∃ m ∈ e.supportedMethods, m.name = name

theorem clean_of_not_supports (h : ∃ name ∈ skip, ¬e.Supports name) :
    ∃ names, e.clean skip = .error (.unknownMethods names) ∧ names.Pairwise (· < ·) ∧
      ∀ name, name ∈ names ↔ name ∈ skip ∧ ¬e.Supports name := by
  have hmem (name : String) :
      name ∈ (skip.filter fun name => !e.supportedMethods.any (·.name = name)) ↔
        name ∈ skip ∧ ¬e.Supports name := by
    simp [Supports]
  refine ⟨_, ?_, pairwise_sortNames _, fun name => mem_sortNames.trans (hmem name)⟩
  obtain ⟨name, hname⟩ := h
  unfold clean
  dsimp only
  split
  · rename_i hnil
    have := (hmem name).2 hname
    rw [hnil] at this
    cases this
  · rfl

theorem clean_error_iff :
    (∃ error, e.clean skip = .error error) ↔ ∃ name ∈ skip, ¬e.Supports name := by
  constructor
  · rintro ⟨error, herror⟩
    by_contra hnone
    have hskip : ∀ name ∈ skip, e.Supports name := by simpa using hnone
    cases herror.symm.trans (clean_of_supported hskip)
  · intro h
    obtain ⟨names, herror, -⟩ := clean_of_not_supports h
    exact ⟨_, herror⟩

theorem clean_congr (h : ∀ name, name ∈ skip ↔ name ∈ skip') : e.clean skip = e.clean skip' := by
  by_cases hunknown : ∃ name ∈ skip, ¬e.Supports name
  · obtain ⟨names, herror, hsorted, hmem⟩ := clean_of_not_supports hunknown
    obtain ⟨names', herror', hsorted', hmem'⟩ :=
      clean_of_not_supports (by simpa only [h] using hunknown)
    rw [herror, herror', hsorted.eq_of_mem_iff hsorted' fun name => by rw [hmem, hmem', h]]
  · have hskip : ∀ name ∈ skip, e.Supports name := by simpa using hunknown
    have hskip' : ∀ name ∈ skip', e.Supports name := by simpa only [h] using hskip
    rw [clean_of_supported hskip, clean_of_supported hskip']
    simp only [h]

theorem kept_sublist (h : methods' ⊆ methods)
    (hindentation : .indentation ∈ methods ↔ .indentation ∈ methods') :
    (e.kept methods).Sublist (e.kept methods') := by
  rw [kept, kept]
  simp only [hindentation]
  refine (List.monotone_filter_right _ fun row hrow => ?_).map _
  rw [Bool.not_eq_true', List.any_eq_false] at hrow ⊢
  exact fun m hm => hrow m (h hm)

theorem exists_kept_lines (e : Entity) (methods : List CleaningMethod) :
    ∃ (ls : List Text) (v : Text), (∀ line ∈ ls, IsTerminated line) ∧ '\n' ∉ v ∧
      ((e.kept methods).map (·.1)).Sublist (ls ++ [v]) := by
  obtain ⟨ls, v, hls, hv, hcode⟩ := Text.exists_terminated e.code
  have hlines (keep : Text × Nat → Bool) :
      ((e.codeLines.zipIdx.filter keep).map (·.1)).Sublist (ls ++ [v]) := by
    refine (List.filter_sublist.map Prod.fst).trans ?_
    rw [List.zipIdx_map_fst, codeLines, hcode, Text.splitLines_flatten hls]
    exact (Text.splitLines_prefix_of_not_mem hv).sublist.append_left ls
  rw [kept, List.map_map]
  generalize (if .indentation ∈ methods then e.indentation else 0) = width
  refine ⟨ls.map (dropIndentation width), dropIndentation width v,
    List.forall_mem_map.2 fun line hline => isTerminated_dropIndentation width (hls line hline),
    newline_not_mem_dropIndentation width hv, ?_⟩
  have hshort := (hlines fun row => !methods.any (e.drops row.2 row.1)).map (dropIndentation width)
  rwa [List.map_map, List.map_append] at hshort

theorem joined_sublist {rows rows' : List (Text × Nat)} (h : rows.Sublist rows')
    (hls : ∀ line ∈ ls, IsTerminated line) (hv : '\n' ∉ v)
    (hrows : (rows'.map (·.1)).Sublist (ls ++ [v])) :
    (bareLines (e.joined rows)).Sublist (bareLines (e.joined rows')) := by
  obtain ⟨above, above', rest, rest', hflatten, hflatten', habove', habove, hnewline, hrest⟩ :=
    Text.exists_rests hls hv hrows (h.map (·.1))
  rw [joined, joined, List.flatMap_def, List.flatMap_def, hflatten, hflatten']
  split
  · exact Text.bareLines_sublist habove' habove hrest
  · exact Text.bareLines_stripLineEnding_sublist habove' habove hnewline hrest

theorem cleanWith_sublist (h : methods' ⊆ methods)
    (hindentation : .indentation ∈ methods ↔ .indentation ∈ methods') :
    (bareLines (e.cleanWith methods)).Sublist (bareLines (e.cleanWith methods')) := by
  obtain ⟨ls, v, hls, hv, hrows⟩ := e.exists_kept_lines methods'
  rw [cleanWith_eq, cleanWith_eq]
  exact joined_sublist (kept_sublist h hindentation) hls hv hrows

/-- What cleaning gives depends on nothing but which names are skipped. It fails just if one of them
is that of no method for the entity, and then it gives all such names in increasing order. To skip
more, with the indentation in both or in none, leaves all lines in that are left otherwise. -/
theorem clean_skipping (e : Entity) (skip : List String) :
    (∀ skip', (∀ name, name ∈ skip ↔ name ∈ skip') → e.clean skip = e.clean skip') ∧
    ((∃ error, e.clean skip = .error error) ↔ ∃ name ∈ skip, ¬e.Supports name) ∧
    (∀ names, e.clean skip = .error (.unknownMethods names) →
      names.Pairwise (· < ·) ∧ ∀ name, name ∈ names ↔ name ∈ skip ∧ ¬e.Supports name) ∧
    ∀ skip', skip ⊆ skip' → ("indentation" ∈ skip ↔ "indentation" ∈ skip') →
      (∀ name ∈ skip', e.Supports name) → ∃ cleaned cleaned', e.clean skip = .ok cleaned ∧
        e.clean skip' = .ok cleaned' ∧ (bareLines cleaned).Sublist (bareLines cleaned') := by
  refine ⟨fun _ => clean_congr, clean_error_iff, fun names herror => ?_,
    fun skip' hsub hindentation hskip' => ?_⟩
  · obtain ⟨names', herror', hsorted, hmem⟩ := clean_of_not_supports (clean_error_iff.1 ⟨_, herror⟩)
    cases herror.symm.trans herror'
    exact ⟨hsorted, hmem⟩
  · refine ⟨_, _, clean_of_supported fun name hname => hskip' name (hsub hname),
      clean_of_supported hskip', cleanWith_sublist (fun m hm => ?_) ?_⟩
    · rw [List.mem_filter, decide_eq_true_eq] at hm ⊢
      exact ⟨hm.1, fun hname => hm.2 (hsub hname)⟩
    · rw [List.mem_filter, List.mem_filter, decide_eq_true_eq, decide_eq_true_eq]
      exact and_congr_right fun _ => not_congr hindentation

theorem clean_skipping_method : ∃ e : Entity,
    e.code = "    def f(self):\n        # one\n\n        return 0\n\n    ".toList ∧
    (∀ name, name ∈ ["comments", "comments"] ↔ name ∈ ["comments"]) ∧
    e.clean ["comments", "comments"] = e.clean ["comments"] ∧
    (∃ names, e.clean ["two", "comments", "one", "two"] = .error (.unknownMethods names) ∧
      names.Pairwise (· < ·) ∧
      ∀ name, name ∈ names ↔ name ∈ ["two", "comments", "one", "two"] ∧ ¬e.Supports name) ∧
    ["comments", "comments"] ⊆ ["blank_lines", "comments"] ∧
    ("indentation" ∈ ["comments", "comments"] ↔ "indentation" ∈ ["blank_lines", "comments"]) ∧
    (∀ name ∈ ["blank_lines", "comments"], e.Supports name) ∧
    ∃ cleaned cleaned', e.clean ["comments", "comments"] = .ok cleaned ∧
      e.clean ["blank_lines", "comments"] = .ok cleaned' ∧
      (bareLines cleaned).Sublist (bareLines cleaned') := by
  obtain ⟨e, he⟩ : ∃ e, e = Entity.functionDef ⟨"f",
    "    def f(self):\n        # one\n\n        return 0\n\n    ".toList,
    ⟨⟨3, 4⟩, ⟨8, 4⟩⟩, ⟨3, 16⟩, none, 1, []⟩ := ⟨_, rfl⟩
  have hsame : ∀ name, name ∈ ["comments", "comments"] ↔ name ∈ ["comments"] := by simp
  have herror : e.clean ["two", "comments", "one", "two"] =
      .error (.unknownMethods ["one", "two"]) := by
    rw [he]
    decide +kernel
  have hskip : ∀ name ∈ ["blank_lines", "comments"], e.Supports name := by
    unfold Supports
    rw [he]
    decide
  obtain ⟨hcongr, -, -, hsublist⟩ := clean_skipping e ["comments", "comments"]
  have hnames := (clean_skipping e ["two", "comments", "one", "two"]).2.2.1 _ herror
  exact ⟨e, by rw [he]; rfl, hsame, hcongr _ hsame, ⟨_, herror, hnames⟩, by decide, by decide,
    hskip, hsublist _ (by decide) (by decide) hskip⟩

end Entity

end DocstringEditor
