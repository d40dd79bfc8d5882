import DocstringEditor.Proofs.Text.Lines

namespace DocstringEditor.Text

variable {line t u v : Text} {ls : List Text}

def IsTerminated (line : Text) : Prop := ∃ v, '\n' ∉ v ∧ line = v ++ ['\n']

theorem splitLines_flatten (h : ∀ line ∈ ls, IsTerminated line) (t : Text) :
    splitLines (ls.flatten ++ t) = ls ++ splitLines t := by
  induction ls with
  | nil => rfl
  | cons line ls ih =>
      obtain ⟨⟨v, hv, rfl⟩, hls⟩ := List.forall_mem_cons.1 h
      rw [List.flatten_cons, List.append_assoc, List.append_assoc, List.singleton_append,
        splitLines_line hv, ih hls]
      rfl

/-- A text is lines with a line feed each and a rest without one. -/
theorem exists_terminated (t : Text) :
    ∃ (ls : List Text) (v : Text),
      (∀ line ∈ ls, IsTerminated line) ∧ '\n' ∉ v ∧ t = ls.flatten ++ v := by
  induction t using line_induction with
  | last t ht => exact ⟨[], t, by simp, ht, rfl⟩
  | line u t hu ih =>
      obtain ⟨ls, v, hls, hv, rfl⟩ := ih
      exact ⟨(u ++ ['\n']) :: ls, v, List.forall_mem_cons.2 ⟨⟨u, hu, rfl⟩, hls⟩, hv, by simp⟩

theorem exists_terminated_of_lastLine (h : lastLine t = []) :
    ∃ ls : List Text, (∀ line ∈ ls, IsTerminated line) ∧ t = ls.flatten := by
  obtain ⟨ls, v, hls, hv, rfl⟩ := exists_terminated t
  rw [lastLine_append, if_neg hv] at h
  exact ⟨ls, hls, by rw [(List.append_eq_nil_iff.1 h).2, List.append_nil]⟩

theorem splitLines_append (h : lastLine t = []) (u : Text) :
    splitLines (t ++ u) = splitLines t ++ splitLines u := by
  obtain ⟨ls, hls, rfl⟩ := exists_terminated_of_lastLine h
  have hlines := splitLines_flatten hls []
  rw [List.append_nil, splitLines_nil, List.append_nil] at hlines
  rw [splitLines_flatten hls, hlines]

theorem length_splitLines (h : lastLine t = []) : (splitLines t).length = t.count '\n' := by
  obtain ⟨ls, hls, rfl⟩ := exists_terminated_of_lastLine h
  have hlines := splitLines_flatten hls []
  rw [List.append_nil, splitLines_nil, List.append_nil] at hlines
  rw [hlines]
  clear h hlines
  induction ls with
  | nil => rfl
  | cons line ls ih =>
      obtain ⟨⟨v, hv, rfl⟩, htail⟩ := List.forall_mem_cons.1 hls
      rw [List.flatten_cons, List.count_append, List.count_append,
        List.count_eq_zero_of_not_mem hv, List.count_singleton_self, List.length_cons, ih htail]
      omega

theorem take_splitLines (h : lastLine t = []) (u : Text) :
    (splitLines (t ++ u)).take (t.count '\n') = splitLines t := by
  rw [splitLines_append h, ← length_splitLines h, List.take_left]

theorem drop_splitLines (h : lastLine t = []) (u : Text) :
    (splitLines (t ++ u)).drop (t.count '\n') = splitLines u := by
  rw [splitLines_append h, ← length_splitLines h, List.drop_left]

theorem splitLines_prefix_of_not_mem (h : '\n' ∉ v) : splitLines v <+: [v] := by
  by_cases hnil : v = []
  · rw [hnil]
    exact List.nil_prefix
  · exact ⟨[], by rw [splitLines_of_not_mem hnil h, List.append_nil]⟩

theorem isTerminated_of_mem (h : line ∈ splitLines t) (hnewline : '\n' ∈ line) :
    IsTerminated line := by
  obtain ⟨ls, v, hls, hv, rfl⟩ := exists_terminated t
  rw [splitLines_flatten hls] at h
  rcases List.mem_append.1 h with h | h
  · exact hls line h
  · obtain rfl := List.mem_singleton.1 ((splitLines_prefix_of_not_mem hv).subset h)
    exact absurd hnewline hv

theorem isTerminated_of_splitLines {ls' : List Text} (h : splitLines t = ls ++ line :: ls')
    (hne : ls' ≠ []) : IsTerminated line :=
  isTerminated_of_mem (h ▸ List.mem_append_right ls List.mem_cons_self)
    (List.mem_of_getLast? (getLast?_of_splitLines h hne))

theorem IsTerminated.newline_not_mem_stripLineEnding (h : IsTerminated line) :
    '\n' ∉ stripLineEnding line := by
  obtain ⟨v, hv, rfl⟩ := h
  by_cases hreturn : v.getLast? = some '\r'
  · obtain ⟨w, rfl⟩ := List.getLast?_eq_some_iff.1 hreturn
    rw [List.append_assoc, List.singleton_append, stripLineEnding_return]
    exact fun hw => hv (List.mem_append_left _ hw)
  · rwa [stripLineEnding_newline hreturn]

theorem newline_not_mem_stripLineEnding (h : line ∈ splitLines t) :
    '\n' ∉ stripLineEnding line := by
  by_cases hnewline : '\n' ∈ line
  · exact (isTerminated_of_mem h hnewline).newline_not_mem_stripLineEnding
  · have hpart := stripLineEnding_prefix line
    exact fun hmem => hnewline (hpart.subset hmem)

end DocstringEditor.Text
