import DocstringEditor.Text.Basic

namespace DocstringEditor.Text

def splitLines : Text → List Text
  | [] => []
  | c :: t =>
    if c = '\n' then [c] :: splitLines t
    else match splitLines t with
      | [] => [[c]]
      | line :: lines => (c :: line) :: lines

@[simp] theorem splitLines_nil : splitLines [] = [] := rfl

theorem flatten_splitLines (t : Text) : (splitLines t).flatten = t := by
  induction t with
  | nil => rfl
  | cons c t ih =>
    rw [splitLines]
    split
    · simp [ih]
    · split <;> rename_i h <;> rw [h] at ih <;> simp_all

def stripLineEnding (line : Text) : Text :=
  match line.reverse with
  | '\n' :: '\r' :: rest => rest.reverse
  | '\n' :: rest => rest.reverse
  | _ => line

theorem stripLineEnding_prefix (line : Text) : stripLineEnding line <+: line := by
  unfold stripLineEnding
  split
  · rename_i rest h
    exact ⟨['\r', '\n'], by simpa using (congrArg List.reverse h).symm⟩
  · rename_i rest _ h
    exact ⟨['\n'], by simpa using (congrArg List.reverse h).symm⟩
  · exact List.prefix_refl _

def bareLines (t : Text) : List Text := (splitLines t).map stripLineEnding

end DocstringEditor.Text
