import Mathlib.Data.List.Basic
import DocstringEditor.Text.Lines

namespace DocstringEditor.Text

variable {t u v w : Text} {n m : Nat}

/-- What stands behind the last line end. -/
def lastLine : Text → Text
  | [] => []
  | c :: t => if '\n' ∈ c :: t then lastLine t else c :: t

def firstLine (t : Text) : Text := (splitLines t).headD []

@[simp] theorem splitLines_newline (t : Text) :
    splitLines ('\n' :: t) = ['\n'] :: splitLines t := rfl

theorem splitLines_cons {c : Char} (hc : c ≠ '\n') (t : Text) :
    splitLines (c :: t) = (c :: firstLine t) :: (splitLines t).tail := by
  rw [splitLines, if_neg hc, firstLine]
  cases splitLines t <;> rfl

@[simp] theorem lastLine_newline (t : Text) : lastLine ('\n' :: t) = lastLine t := by
  simp [lastLine]

theorem lastLine_of_not_mem (h : '\n' ∉ t) : lastLine t = t := by
  cases t with
  | nil => rfl
  | cons c t => exact if_neg h

theorem lastLine_cons_of_mem {c : Char} (h : '\n' ∈ t) : lastLine (c :: t) = lastLine t :=
  if_pos (List.mem_cons_of_mem c h)

theorem newline_not_mem_lastLine (t : Text) : '\n' ∉ lastLine t := by
  induction t with
  | nil => simp [lastLine]
  | cons c t ih =>
      rw [lastLine]
      split
      · exact ih
      · assumption

theorem lastLine_suffix (t : Text) : lastLine t <:+ t := by
  induction t with
  | nil => exact List.suffix_refl _
  | cons c t ih =>
      rw [lastLine]
      split
      · exact ih.trans (List.suffix_cons c t)
      · exact List.suffix_refl _

theorem lastLine_append (t u : Text) :
    lastLine (t ++ u) = if '\n' ∈ u then lastLine u else lastLine t ++ u := by
  induction t with
  | nil =>
      split
      · rfl
      · rename_i hu
        rw [List.nil_append, lastLine_of_not_mem hu]
        rfl
  | cons c t ih =>
      by_cases hu : '\n' ∈ u
      · rw [if_pos hu] at ih
        rw [if_pos hu, List.cons_append, lastLine_cons_of_mem (List.mem_append_right t hu), ih]
      · rw [if_neg hu] at ih
        rw [if_neg hu]
        by_cases ht : '\n' ∈ c :: t
        · have hmem : '\n' ∈ c :: t ++ u := List.mem_append_left u ht
          rw [lastLine, if_pos ht, ← ih]
          exact if_pos hmem
        · rw [lastLine_of_not_mem ht]
          exact lastLine_of_not_mem (by simpa [hu] using ht)

theorem flatten_take_splitLines (t u : Text) :
    ((splitLines (t ++ u)).take (t.count '\n')).flatten ++ lastLine t = t := by
  induction t with
  | nil => rfl
  | cons c t ih =>
      by_cases hc : c = '\n'
      · subst hc
        simp [ih]
      · rw [List.count_cons_of_ne hc, List.cons_append, splitLines_cons hc]
        by_cases ht : '\n' ∈ t
        · obtain ⟨k, hk⟩ := Nat.exists_eq_succ_of_ne_zero (Nat.ne_of_gt (List.count_pos_iff.2 ht))
          rw [hk] at ih
          rw [hk, lastLine_cons_of_mem ht, List.take_succ_cons, List.flatten_cons, List.cons_append,
            List.cons_append]
          cases hs : splitLines (t ++ u) with
          | nil =>
              rw [hs] at ih
              simpa [firstLine, hs] using ih
          | cons line lines =>
              rw [hs] at ih
              simpa [firstLine, hs] using ih
        · rw [List.count_eq_zero_of_not_mem ht, lastLine_of_not_mem (by simp [ht, Ne.symm hc])]
          rfl

/-- The lines behind a cut. The first of them starts before it. -/
theorem getD_splitLines_add (t u : Text) (i : Nat) :
    (splitLines (t ++ u)).getD (t.count '\n' + i) [] =
      (if i = 0 then lastLine t else []) ++ (splitLines u).getD i [] := by
  induction t generalizing i with
  | nil => simp [lastLine]
  | cons c t ih =>
      by_cases hc : c = '\n'
      · subst hc
        rw [List.count_cons_self, Nat.add_right_comm, lastLine_newline]
        exact ih i
      · rw [List.count_cons_of_ne hc, List.cons_append, splitLines_cons hc]
        by_cases ht : '\n' ∈ t
        · obtain ⟨k, hk⟩ := Nat.exists_eq_succ_of_ne_zero (Nat.ne_of_gt (List.count_pos_iff.2 ht))
          have ih := ih i
          rw [hk, Nat.succ_add] at ih
          rw [hk, Nat.succ_add, lastLine_cons_of_mem ht, ← ih]
          cases splitLines (t ++ u) <;> simp
        · rw [List.count_eq_zero_of_not_mem ht, lastLine_of_not_mem ht] at ih
          rw [List.count_eq_zero_of_not_mem ht, lastLine_of_not_mem (by simp [ht, Ne.symm hc])]
          cases i with
          | zero =>
              have ih := ih 0
              rw [Nat.add_zero, if_pos rfl] at ih
              rw [Nat.add_zero, if_pos rfl, List.cons_append, ← ih]
              cases h : splitLines (t ++ u) <;> simp [firstLine, h]
          | succ i =>
              have ih := ih (i + 1)
              rw [Nat.zero_add, if_neg (Nat.succ_ne_zero i)] at ih
              rw [Nat.zero_add, if_neg (Nat.succ_ne_zero i), List.getD_cons_succ, ← ih]
              cases splitLines (t ++ u) <;> simp

theorem getD_splitLines (t u : Text) :
    (splitLines (t ++ u)).getD (t.count '\n') [] = lastLine t ++ firstLine u := by
  have h := getD_splitLines_add t u 0
  rw [Nat.add_zero, if_pos rfl] at h
  rw [h, firstLine]
  cases splitLines u <;> rfl

theorem getD_splitLines_of_lt {i : Nat} (h : i < t.count '\n') (u : Text) :
    (splitLines (t ++ u)).getD i [] = (splitLines t).getD i [] := by
  induction t generalizing i with
  | nil => simp at h
  | cons c t ih =>
      by_cases hc : c = '\n'
      · subst hc
        cases i with
        | zero => rfl
        | succ i =>
            rw [List.count_cons_self, Nat.add_lt_add_iff_right] at h
            exact ih h
      · rw [List.count_cons_of_ne hc] at h
        have ih := ih h
        rw [List.cons_append, splitLines_cons hc, splitLines_cons hc]
        cases i with
        | zero =>
            have hfirst : firstLine (t ++ u) = firstLine t := by
              rw [firstLine, firstLine]
              cases hs : splitLines (t ++ u) <;> cases hs' : splitLines t <;> simp_all
            rw [hfirst]
            rfl
        | succ i =>
            rw [List.getD_cons_succ, List.getD_cons_succ]
            cases hs : splitLines (t ++ u) <;> cases hs' : splitLines t <;> simp_all

theorem getD_zero_splitLines (t : Text) : (splitLines t).getD 0 [] = firstLine t := by
  rw [firstLine]
  cases splitLines t <;> rfl

theorem firstLine_prefix (t : Text) : firstLine t <+: t := by
  have h := flatten_splitLines t
  rw [firstLine]
  cases hs : splitLines t with
  | nil => exact List.nil_prefix
  | cons line lines =>
      rw [hs] at h
      exact ⟨lines.flatten, h⟩

theorem firstLine_append_of_mem (h : '\n' ∈ t) (u : Text) : firstLine (t ++ u) = firstLine t := by
  rw [← getD_zero_splitLines, getD_splitLines_of_lt (List.count_pos_iff.2 h), getD_zero_splitLines]

theorem firstLine_append_of_not_mem (h : '\n' ∉ t) (u : Text) :
    firstLine (t ++ u) = t ++ firstLine u := by
  have hcut := getD_splitLines t u
  rwa [List.count_eq_zero_of_not_mem h, getD_zero_splitLines, lastLine_of_not_mem h] at hcut

theorem firstLine_of_not_mem (h : '\n' ∉ t) : firstLine t = t := by
  simpa [firstLine] using firstLine_append_of_not_mem h []

theorem firstLine_prefix_append (t u : Text) : firstLine t <+: firstLine (t ++ u) := by
  by_cases h : '\n' ∈ t
  · exact ⟨[], by rw [firstLine_append_of_mem h, List.append_nil]⟩
  · exact ⟨firstLine u, by rw [firstLine_append_of_not_mem h, firstLine_of_not_mem h]⟩

theorem splitLines_of_not_mem (ht : t ≠ []) (h : '\n' ∉ t) : splitLines t = [t] := by
  induction t with
  | nil => exact absurd rfl ht
  | cons c t ih =>
      obtain ⟨hc, h⟩ : '\n' ≠ c ∧ '\n' ∉ t := by simpa using h
      rw [splitLines_cons hc.symm, firstLine]
      cases t with
      | nil => rfl
      | cons d t =>
          rw [ih (List.cons_ne_nil d t) h]
          rfl

theorem firstLine_ne_nil (h : t ≠ []) : firstLine t ≠ [] := by
  cases t with
  | nil => exact absurd rfl h
  | cons c t =>
      by_cases hc : c = '\n'
      · simp [hc, firstLine]
      · simp [firstLine, splitLines_cons hc]

theorem byteSize_pos (h : t ≠ []) : 0 < byteSize t := by
  cases t with
  | nil => exact absurd rfl h
  | cons c t =>
      have := c.utf8Size_pos
      rw [byteSize_cons]
      omega

theorem length_le_byteSize (t : Text) : t.length ≤ byteSize t := by
  induction t with
  | nil => exact Nat.le_refl 0
  | cons c t ih =>
      have := c.utf8Size_pos
      rw [List.length_cons, byteSize_cons]
      omega

theorem byteSize_le_of_infix (h : t <:+: u) : byteSize t ≤ byteSize u := by
  obtain ⟨v, w, rfl⟩ := h
  simp only [byteSize_append]
  omega

theorem firstLine_mem (h : t ≠ []) : firstLine t ∈ splitLines t := by
  rw [firstLine]
  cases hs : splitLines t with
  | nil => exact absurd (by rw [← flatten_splitLines t, hs]; rfl) h
  | cons line lines => simp

theorem flatten_take_drop (lines : List Text) (i : Nat) :
    (lines.take i).flatten ++ (lines.drop i).flatten = lines.flatten := by
  rw [← List.flatten_append, List.take_append_drop]

theorem flatten_parts (lines : List Text) {i j : Nat} (h : i ≤ j) :
    (lines.take i).flatten ++ ((lines.take j).drop i).flatten = (lines.take j).flatten := by
  have htake : (lines.take j).take i = lines.take i := by rw [List.take_take, Nat.min_eq_left h]
  rw [← htake, flatten_take_drop]

theorem flatten_map_getD (ls : List Text) (a n : Nat) :
    ((List.range' a n).map fun i => ls.getD i []).flatten = ((ls.drop a).take n).flatten := by
  induction n generalizing a with
  | zero => simp
  | succ n ih =>
      rw [List.range'_succ, List.map_cons, List.flatten_cons, ih]
      cases h : ls[a]? with
      | none =>
          have hle := List.getElem?_eq_none_iff.1 h
          rw [List.drop_eq_nil_of_le hle, List.drop_eq_nil_of_le (by omega)]
          simp [h]
      | some line =>
          obtain ⟨hlt, rfl⟩ := List.getElem?_eq_some_iff.1 h
          rw [List.drop_eq_getElem_cons hlt, List.take_succ_cons, List.flatten_cons]
          simp [h]

/-- What stands between two cuts, from the start of the line that the first one is in. -/
theorem flatten_lines (t u v : Text) :
    ((List.range' (t.count '\n') (u.count '\n')).map fun i =>
      (splitLines (t ++ u ++ v)).getD i []).flatten ++ lastLine (t ++ u) = lastLine t ++ u := by
  have hall := flatten_take_splitLines (t ++ u) v
  have hfirst := flatten_take_splitLines t (u ++ v)
  rw [← List.append_assoc] at hfirst
  rw [List.count_append, List.take_add, List.flatten_append, List.append_assoc] at hall
  rw [flatten_map_getD]
  refine List.append_cancel_left (hall.trans ?_)
  rw [← List.append_assoc, hfirst]

theorem mem_firstLine (h : '\n' ∈ t) : '\n' ∈ firstLine t := by
  induction t with
  | nil => simp at h
  | cons c t ih =>
      by_cases hc : c = '\n'
      · simp [hc, firstLine]
      · have ht : '\n' ∈ t := by simpa [Ne.symm hc] using h
        rw [firstLine, splitLines_cons hc]
        exact List.mem_cons_of_mem c (ih ht)

theorem lastLine_eq_nil_iff : lastLine t = [] ↔ t = [] ∨ t.getLast? = some '\n' := by
  induction t with
  | nil => simp [lastLine]
  | cons c t ih =>
      by_cases ht : '\n' ∈ t
      · have hne : t ≠ [] := List.ne_nil_of_mem ht
        rw [lastLine_cons_of_mem ht, ih, List.getLast?_cons_of_ne_nil hne]
        simp [hne]
      · cases t with
        | nil => by_cases hc : c = '\n' <;> simp [lastLine, hc, Ne.symm]
        | cons d t =>
            have hlast : (c :: d :: t).getLast? ≠ some '\n' := by
              rw [List.getLast?_cons_of_ne_nil (List.cons_ne_nil d t)]
              exact fun h => ht (List.mem_of_getLast? h)
            by_cases hc : c = '\n'
            · subst hc
              rw [lastLine_newline, lastLine_of_not_mem ht]
              simp_all
            · rw [lastLine_of_not_mem (by simpa [Ne.symm hc] using ht)]
              simp_all

theorem lastLine_take_splitLines (t : Text) (row : Nat) :
    lastLine ((splitLines t).take row).flatten = [] ↔ row ≤ t.count '\n' ∨ lastLine t = [] := by
  induction t generalizing row with
  | nil => simp [lastLine]
  | cons c t ih =>
      cases row with
      | zero => simp [lastLine]
      | succ row =>
          by_cases hc : c = '\n'
          · subst hc
            simpa using ih row
          · have hflatten : ((splitLines (c :: t)).take (row + 1)).flatten =
                c :: ((splitLines t).take (row + 1)).flatten := by
              rw [splitLines_cons hc, firstLine]
              cases splitLines t <;> simp
            rw [hflatten, List.count_cons_of_ne hc]
            by_cases ht : '\n' ∈ t
            · have hmem : '\n' ∈ ((splitLines t).take (row + 1)).flatten := by
                have hfirst := mem_firstLine ht
                rw [firstLine] at hfirst
                cases hs : splitLines t <;> simp_all
              rw [lastLine_cons_of_mem hmem, lastLine_cons_of_mem ht]
              exact ih (row + 1)
            · have hnot : '\n' ∉ c :: t := by simp [ht, Ne.symm hc]
              have habove : c :: ((splitLines t).take (row + 1)).flatten <:+: c :: t := by
                refine List.IsPrefix.isInfix ⟨((splitLines t).drop (row + 1)).flatten, ?_⟩
                rw [List.cons_append, ← List.flatten_append, List.take_append_drop,
                  flatten_splitLines]
              rw [lastLine_of_not_mem fun h => hnot (habove.subset h), lastLine_of_not_mem hnot,
                List.count_eq_zero_of_not_mem ht]
              simp

/-- The width of the last line, of which a first part may have the start. -/
theorem byteSize_lastLine_append (t u : Text) : byteSize (lastLine (t ++ u)) =
    (if u.count '\n' = 0 then byteSize (lastLine t) else 0) + byteSize (lastLine u) := by
  rw [lastLine_append]
  by_cases hmem : '\n' ∈ u
  · rw [if_pos hmem, if_neg (Nat.ne_of_gt (List.count_pos_iff.2 hmem)), Nat.zero_add]
  · rw [if_neg hmem, if_pos (List.count_eq_zero_of_not_mem hmem), byteSize_append,
      lastLine_of_not_mem hmem]

theorem lastLine_append_eq_nil (ht : lastLine t = []) (hu : lastLine u = []) :
    lastLine (t ++ u) = [] := by
  rw [lastLine_append]
  split
  · exact hu
  · rename_i hmem
    rw [ht, ← lastLine_of_not_mem hmem, hu]
    rfl

theorem exists_lastLine (t : Text) : ∃ u, t = u ++ lastLine t ∧ lastLine u = [] := by
  obtain ⟨u, hu⟩ := lastLine_suffix t
  refine ⟨u, hu.symm, ?_⟩
  have hlast := lastLine_append u (lastLine t)
  rw [hu, if_neg (newline_not_mem_lastLine t)] at hlast
  simpa using hlast

theorem eq_nil_of_line_eq {line : Text} (h : line ∈ splitLines t) (hline : line = u ++ '\n' :: v) :
    v = [] := by
  induction t generalizing line u with
  | nil => simp at h
  | cons c t ih =>
      by_cases hc : c = '\n'
      · subst hc
        rcases List.mem_cons.1 h with rfl | h
        · cases u <;> simp_all
        · exact ih h hline
      · rw [splitLines_cons hc] at h
        rcases List.mem_cons.1 h with rfl | h
        · cases u with
          | nil => exact absurd (List.cons.inj hline).1 hc
          | cons d u =>
              have hfirst : firstLine t = u ++ '\n' :: v := (List.cons.inj hline).2
              refine ih ?_ hfirst
              rw [firstLine] at hfirst ⊢
              cases hs : splitLines t <;> simp_all
        · exact ih (List.mem_of_mem_tail h) hline

theorem getLast?_of_splitLines {line : Text} {ls ls' : List Text}
    (h : splitLines t = ls ++ line :: ls') (hne : ls' ≠ []) : line.getLast? = some '\n' := by
  induction t generalizing line ls with
  | nil => simp at h
  | cons c t ih =>
      by_cases hc : c = '\n'
      · subst hc
        cases ls with
        | nil =>
            obtain ⟨rfl, -⟩ := List.cons.inj h
            rfl
        | cons l ls => exact ih (List.cons.inj h).2
      · rw [splitLines_cons hc, firstLine] at h
        cases hs : splitLines t with
        | nil => cases ls <;> simp_all
        | cons first rest =>
            rw [hs] at h
            cases ls with
            | nil =>
                obtain ⟨rfl, rfl⟩ := List.cons.inj h
                have hfirst : first.getLast? = some '\n' := @ih first [] hs
                exact List.mem_getLast?_cons hfirst
            | cons l ls =>
                have htail : rest = ls ++ line :: ls' := (List.cons.inj h).2
                exact @ih line (first :: ls) (by rw [hs, htail, List.cons_append])

theorem takeBytes_append (t u : Text) : takeBytes (t ++ u) (byteSize t) = some t := by
  rw [takeBytes, splitAtByte_byteSize]
  rfl

theorem dropBytes_append (t u : Text) : dropBytes (t ++ u) (byteSize t) = some u := by
  rw [dropBytes, splitAtByte_byteSize]
  rfl

theorem sliceBytes_append (t u v : Text) :
    sliceBytes (t ++ u ++ v) (byteSize t) (byteSize (t ++ u)) = some u := by
  rw [sliceBytes, if_pos (by simp), List.append_assoc, dropBytes_append, byteSize_append,
    Nat.add_sub_cancel_left]
  exact takeBytes_append u v

theorem prefix_of_byteSize_le (ht : t <+: w) (hu : u <+: w) (h : byteSize t ≤ byteSize u) :
    t <+: u := by
  rcases List.prefix_or_prefix_of_prefix ht hu with hp | ⟨v, rfl⟩
  · exact hp
  · cases v with
    | nil => simp
    | cons c v =>
        have := c.utf8Size_pos
        rw [byteSize_append, byteSize_cons] at h
        omega

theorem append_inj_of_byteSize (h : t ++ u = v ++ w) (hsize : byteSize t = byteSize v) :
    t = v ∧ u = w := by
  have hprefix : t <+: v := prefix_of_byteSize_le ⟨u, h⟩ ⟨w, rfl⟩ (Nat.le_of_eq hsize)
  have hprefix' : v <+: t := prefix_of_byteSize_le ⟨w, rfl⟩ ⟨u, h⟩ (Nat.le_of_eq hsize.symm)
  obtain rfl := hprefix.eq_of_length_le hprefix'.length_le
  exact ⟨rfl, List.append_cancel_left h⟩

theorem take_splitLines_prefix (t : Text) (row : Nat) :
    ((splitLines t).take row).flatten <+: t := by
  refine ⟨((splitLines t).drop row).flatten, ?_⟩
  rw [flatten_take_drop, flatten_splitLines]

theorem getElem?_splitLines (t u : Text) (c : Char) :
    (splitLines (t ++ c :: u))[t.count '\n']? = some (lastLine t ++ firstLine (c :: u)) := by
  have hline := getD_splitLines t (c :: u)
  have hne := firstLine_ne_nil (List.cons_ne_nil c u)
  cases hget : (splitLines (t ++ c :: u))[t.count '\n']? with
  | none =>
      rw [List.getD_eq_getElem?_getD, hget] at hline
      simp_all
  | some line =>
      rw [← hline, List.getD_eq_getElem?_getD, hget]
      rfl

theorem byteSize_flatten_take_le (ls : List Text) {n m : Nat} (h : n ≤ m) :
    byteSize (ls.take n).flatten ≤ byteSize (ls.take m).flatten := by
  obtain ⟨k, rfl⟩ := Nat.exists_eq_add_of_le h
  rw [List.take_add, List.flatten_append, byteSize_append]
  omega

theorem exists_cut {s : Text} {c : Char} (h : s ++ t ++ u = v ++ c :: w)
    (hle : byteSize s ≤ byteSize v) (hlt : byteSize v < byteSize (s ++ t)) :
    ∃ t₁ t₂, t = t₁ ++ c :: t₂ ∧ v = s ++ t₁ ∧ w = t₂ ++ u := by
  obtain ⟨t₁, rfl⟩ : s <+: v :=
    prefix_of_byteSize_le ⟨t ++ u, by rw [← h, List.append_assoc]⟩ ⟨c :: w, rfl⟩ hle
  obtain ⟨t₂, ht₂⟩ : s ++ t₁ <+: s ++ t :=
    prefix_of_byteSize_le ⟨c :: w, h.symm⟩ ⟨u, rfl⟩ (by omega)
  obtain rfl : t₁ ++ t₂ = t := by simpa using ht₂
  have hrest : t₂ ++ u = c :: w := by simpa using h
  cases t₂ with
  | nil => simp at hlt
  | cons d t₂ =>
      obtain ⟨rfl, rfl⟩ := List.cons.inj hrest
      exact ⟨t₁, t₂, rfl, rfl, rfl⟩

/-- Taking the terminator off a line takes nothing away from what is cut off before it. -/
theorem prefix_stripLineEnding (hn : '\n' ∉ t) (hr : t.getLast? ≠ some '\r') (u : Text) :
    t <+: stripLineEnding (t ++ u) := by
  have hhead : t.reverse.head? ≠ some '\r' := by simpa using hr
  have hmem : '\n' ∉ t.reverse := by simpa using hn
  unfold stripLineEnding
  split
  case h_1 rest h =>
    rw [List.reverse_append] at h
    rcases hu : u.reverse with _ | ⟨c, _ | ⟨d, w⟩⟩
    · simp [hu] at h
      simp [h] at hmem
    · simp [hu] at h
      simp [h.2] at hhead
    · simp [hu] at h
      exact ⟨w.reverse, by simp [← h.2.2]⟩
  case h_2 rest _ h =>
    rw [List.reverse_append] at h
    rcases hu : u.reverse with _ | ⟨c, w⟩
    · simp [hu] at h
      simp [h] at hmem
    · simp [hu] at h
      exact ⟨w.reverse, by simp [← h.2]⟩
  case h_3 => exact List.prefix_append t u

theorem stripLineEnding_of_getLast?_ne (h : t.getLast? ≠ some '\n') : stripLineEnding t = t := by
  rw [List.getLast?_eq_head?_reverse] at h
  unfold stripLineEnding
  split <;> simp_all

theorem stripLineEnding_newline (h : t.getLast? ≠ some '\r') :
    stripLineEnding (t ++ ['\n']) = t := by
  rw [List.getLast?_eq_head?_reverse] at h
  have hreverse : (t ++ ['\n']).reverse = '\n' :: t.reverse := by simp
  unfold stripLineEnding
  rw [hreverse]
  split
  case h_1 rest heq =>
    simp [(List.cons.inj heq).2] at h
  case h_2 rest _ heq =>
    rw [← (List.cons.inj heq).2, List.reverse_reverse]
  case h_3 hne => exact absurd rfl (hne _)

@[simp] theorem stripLineEnding_return (t : Text) : stripLineEnding (t ++ ['\r', '\n']) = t := by
  simp [stripLineEnding]

theorem stripLineEnding_append (ht : t.getLast? ≠ some '\r') (hu : u ≠ []) :
    stripLineEnding (t ++ u) = t ++ stripLineEnding u := by
  rcases List.eq_nil_or_concat u with rfl | ⟨v, c, rfl⟩
  · exact absurd rfl hu
  rw [List.concat_eq_append]
  by_cases hc : c = '\n'
  · subst hc
    rcases List.eq_nil_or_concat v with rfl | ⟨w, d, rfl⟩
    · rw [List.nil_append, stripLineEnding_newline ht, show stripLineEnding ['\n'] = [] from rfl,
        List.append_nil]
    · rw [List.concat_eq_append]
      by_cases hd : d = '\r'
      · subst hd
        rw [List.append_assoc w, List.cons_append, List.nil_append, stripLineEnding_return,
          ← List.append_assoc, stripLineEnding_return]
      · rw [← List.append_assoc, stripLineEnding_newline (by simpa using hd),
          stripLineEnding_newline (by simpa using hd)]
  · rw [stripLineEnding_of_getLast?_ne (by simpa using hc),
      stripLineEnding_of_getLast?_ne (by simpa using hc)]

theorem stripLineEnding_append_cons {c : Char} (hline : c ≠ '\n') (hreturn : c ≠ '\r')
    (t u : Text) : stripLineEnding (t ++ c :: u) = t ++ stripLineEnding (c :: u) := by
  have hlast (t : Text) : (t ++ [c]).getLast? ≠ some '\r' := by simpa using hreturn
  cases u with
  | nil =>
      rw [stripLineEnding_of_getLast?_ne (by simpa using hline),
        stripLineEnding_of_getLast?_ne (by simpa using hline)]
  | cons d u =>
      have hsplit (t : Text) : t ++ c :: d :: u = t ++ [c] ++ d :: u := by simp
      have hshort := stripLineEnding_append (hlast []) (List.cons_ne_nil d u)
      rw [hsplit, stripLineEnding_append (hlast t) (List.cons_ne_nil d u), List.append_assoc]
      exact congrArg (t ++ ·) hshort.symm

theorem exists_terminator (t : Text) :
    ∃ ending ∈ [[], ['\n'], ['\r', '\n']], t = stripLineEnding t ++ ending := by
  unfold stripLineEnding
  split
  case h_1 rest h =>
    exact ⟨['\r', '\n'], by simp, by simpa using congrArg List.reverse h⟩
  case h_2 rest _ h =>
    exact ⟨['\n'], by simp, by simpa using congrArg List.reverse h⟩
  case h_3 => exact ⟨[], by simp, by simp⟩

theorem splitLines_line (h : '\n' ∉ t) (u : Text) :
    splitLines (t ++ '\n' :: u) = (t ++ ['\n']) :: splitLines u := by
  induction t with
  | nil => rfl
  | cons c t ih =>
      obtain ⟨hc, ht⟩ : '\n' ≠ c ∧ '\n' ∉ t := by simpa using h
      rw [List.cons_append, splitLines_cons hc.symm, firstLine, ih ht]
      rfl

/-- A text is a line without a line end, or one with a line end in front of a text. -/
theorem line_induction {motive : Text → Prop} (last : ∀ t, '\n' ∉ t → motive t)
    (line : ∀ t u, '\n' ∉ t → motive u → motive (t ++ '\n' :: u)) (t : Text) : motive t := by
  suffices h : ∀ v, '\n' ∉ v → motive (v ++ t) from h [] (by simp)
  induction t with
  | nil =>
      intro v hv
      rw [List.append_nil]
      exact last v hv
  | cons c t ih =>
      intro v hv
      by_cases hc : c = '\n'
      · subst hc
        exact line v t hv (ih [] (by simp))
      · rw [List.append_cons]
        exact ih (v ++ [c]) (by simp [hv, Ne.symm hc])

theorem length_splitLines_le (t : Text) : (splitLines t).length ≤ t.count '\n' + 1 := by
  induction t using line_induction with
  | last t ht =>
      by_cases hnil : t = []
      · simp [hnil]
      · simp [splitLines_of_not_mem hnil ht]
  | line v t hv ih =>
      rw [splitLines_line hv, List.length_cons, List.count_append, List.count_cons_self]
      omega

theorem count_take_splitLines {row : Nat} (h : row ≤ t.count '\n') :
    ((splitLines t).take row).flatten.count '\n' = row := by
  induction t using line_induction generalizing row with
  | last t ht =>
      rw [List.count_eq_zero_of_not_mem ht] at h
      obtain rfl := Nat.le_zero.1 h
      rfl
  | line v t hv ih =>
      cases row with
      | zero => rfl
      | succ row =>
          have hzero : v.count '\n' = 0 := List.count_eq_zero_of_not_mem hv
          rw [List.count_append, hzero, List.count_cons_self] at h
          rw [splitLines_line hv, List.take_succ_cons, List.flatten_cons, List.count_append,
            List.count_append, hzero, ih (by omega), List.count_singleton_self]
          omega

theorem take_splitLines_append (h : lastLine t = []) (u : Text) :
    ((splitLines (t ++ u)).take (t.count '\n')).flatten = t := by
  have hlines := flatten_take_splitLines t u
  rwa [h, List.append_nil] at hlines

end DocstringEditor.Text
