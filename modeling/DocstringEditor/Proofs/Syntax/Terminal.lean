import DocstringEditor.Proofs.Syntax.Leaf

namespace DocstringEditor.Syntax

variable {T : Text}

theorem Place.exists_after {T u rest : Text} {l : Location} (h : Place T l) (hT : T = u ++ rest)
    (hle : Text.byteSize u ≤ l.byte) :
    ∃ w v, rest = w ++ v ∧ l = Location.origin.after (u ++ w) := by
  obtain ⟨t, ⟨v, hv⟩, rfl⟩ := h
  rw [Location.origin_after_byte] at hle
  obtain ⟨w, rfl⟩ : u <+: t := Text.prefix_of_byteSize_le ⟨rest, hT.symm⟩ ⟨v, hv⟩ hle
  rw [← hv, List.append_assoc] at hT
  exact ⟨w, v, (List.append_cancel_left hT).symm, rfl⟩

namespace Forest

/-- The nodes before the last colon among several, the colon, and those behind it. -/
def splitColon? : Forest → Option (Forest × Node × Forest)
  | [] => none
  | n :: ns =>
    match splitColon? ns with
    | some (front, colon, back) => some (n :: front, colon, back)
    | none => if n.kind = .mark ":" then some ([], n, ns) else none

theorem eq_of_splitColon? {ns front back : Forest} {colon : Node}
    (h : splitColon? ns = some (front, colon, back)) :
    ns = front ++ colon :: back ∧ colon.kind = .mark ":" := by
  induction ns generalizing front with
  | nil => cases h
  | cons n ns ih =>
      rw [splitColon?] at h
      split at h
      · rename_i hns
        simp only [Option.some.injEq, Prod.mk.injEq] at h
        obtain ⟨rfl, rfl, rfl⟩ := h
        obtain ⟨rfl, hcolon⟩ := ih hns
        exact ⟨rfl, hcolon⟩
      · split at h
        · rename_i hcolon
          simp only [Option.some.injEq, Prod.mk.injEq] at h
          obtain ⟨rfl, rfl, rfl⟩ := h
          exact ⟨rfl, hcolon⟩
        · cases h

theorem getLast?_filter_colon (ns : Forest) :
    (ns.filter (·.kind = .mark ":")).getLast? = (splitColon? ns).map (·.2.1) := by
  induction ns with
  | nil => rfl
  | cons n ns ih =>
      rw [splitColon?]
      cases hsplit : splitColon? ns with
      | some parts =>
          rw [hsplit] at ih
          by_cases hn : n.kind = .mark ":" <;> simp [hn, ih, List.getLast?_cons]
      | none =>
          rw [hsplit, Option.map_none, List.getLast?_eq_none_iff] at ih
          by_cases hn : n.kind = .mark ":" <;> simp [hn, ih]

end Forest

namespace Node

theorem firstStatement?_mem {n m : Node} (h : n.firstStatement? = some m) : m ∈ n.inner := by
  have hfirst {container : Node}
      (hfirst : container.namedChildren.find? (!·.isComment) = some m) :
      m ∈ preorderAll container.children :=
    mem_preorderAll.2 ⟨m, List.mem_of_mem_filter (List.mem_of_find?_eq_some hfirst), by simp⟩
  unfold firstStatement? at h
  split at h
  · exact hfirst h
  · obtain ⟨container, hcontainer, hm⟩ := Option.bind_eq_some_iff.1 h
    have hchild := List.mem_of_find?_eq_some hcontainer
    exact inner_trans (mem_preorderAll.2 ⟨container, hchild, by simp⟩) (hfirst hm)

theorem firstStatement?_not_comment {n m : Node} (h : n.firstStatement? = some m) :
    ¬m.isComment := by
  have hfirst {container : Node}
      (hfirst : container.namedChildren.find? (!·.isComment) = some m) : ¬m.isComment := by
    simpa using List.find?_some hfirst
  unfold firstStatement? at h
  split at h
  · exact hfirst h
  · obtain ⟨container, -, hm⟩ := Option.bind_eq_some_iff.1 h
    exact hfirst hm

mutual
/-- The leaves of a tree, where a literal is one with all that is in it. -/
def terminals : Node → Forest
  | mk k r s e cs => if cs.isEmpty || k = .string then [mk k r s e cs] else terminalsAll cs

def terminalsAll : Forest → Forest
  | [] => []
  | n :: ns => terminals n ++ terminalsAll ns
end

theorem terminals_subset :
    (∀ n : Node, ∀ m ∈ n.terminals, m ∈ n.preorder) ∧
      ∀ ns : Forest, ∀ m ∈ terminalsAll ns, m ∈ preorderAll ns := by
  apply Node.induction
  case mk =>
    intro k r s e cs ih m hm
    rw [terminals] at hm
    split at hm
    · simp [List.mem_singleton.1 hm]
    · exact mem_preorder.2 (.inr (ih m hm))
  case nil => simp [terminalsAll]
  case cons =>
    intro n ns ihn ihns m hm
    exact List.mem_append.2 ((List.mem_append.1 hm).imp (ihn m) (ihns m))

theorem filled_terminals :
    (∀ n : Node, (∀ m ∈ n.preorder, m.Sound T) →
      Forest.Filled T n.start.byte n.terminals n.stop.byte) ∧
    ∀ ns : Forest, (∀ m ∈ preorderAll ns, m.Sound T) → ∀ x y, Forest.Filled T x ns y →
      Forest.Filled T x (terminalsAll ns) y := by
  apply Node.induction
  case mk =>
    intro k r s e cs ih h
    have hn := h (mk k r s e cs) (by simp)
    rw [terminals]
    split
    · exact ⟨.refl hn.start, .refl hn.stop⟩
    · rename_i hcs
      have hne : cs ≠ [] := by
        rintro rfl
        simp at hcs
      exact ih (fun m hm => h m (mem_preorder.2 (.inr hm))) _ _ (hn.filled hne)
  case nil => exact fun _ _ _ h => h
  case cons =>
    intro n ns ihn ihns h x y hfilled
    have hhead := ihn fun m hm => h m (List.mem_append_left _ hm)
    exact (hhead.gap_append hfilled.1).append
      (ihns (fun m hm => h m (List.mem_append_right _ hm)) _ _ hfilled.2)

end Node
end DocstringEditor.Syntax
