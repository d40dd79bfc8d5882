import DocstringEditor.Proofs.Outcome
import DocstringEditor.Wire.Entity

namespace DocstringEditor.Json.Decoder

variable {c : Convention} {α : Type} {decode : Decoder α} {place : Decoder (Position c)} {a : α}

@[simp] theorem text_string (t : Text) : text (.string t) = .ok t := rfl

@[simp] theorem bool_bool (b : Bool) : bool (.bool b) = .ok b := rfl

@[simp] theorem string_ofString (s : String) : string (.ofString s) = .ok s := by
  simp [string, Json.ofString, Functor.map, Except.map]

@[simp] theorem word_natural (n : UInt32) : word (.natural n.toNat) = .ok n := by
  simp [word, n.toNat_lt]

theorem required_eq_ok {o : Option α} : required o = .ok a ↔ o = some a := by
  cases o <;> simp [required]

theorem list_array {item : Decoder α} {encode : α → Json} {l : List α}
    (h : ∀ a ∈ l, item (encode a) = .ok a) : list item (.array (l.map encode)) = .ok l := by
  rw [list]
  induction l with
  | nil => rfl
  | cons a l ih =>
      rw [List.map_cons, List.mapM_cons, h a List.mem_cons_self, ok_bind,
        ih fun b hb => h b (List.mem_cons_of_mem a hb)]
      rfl

variable {name : String} {fs more : List (String × Json)}

theorem field?_append_left (h : ∀ f ∈ more, f.1 ≠ name) :
    field? name decode (fs ++ more) = field? name decode fs := by
  have hmore : more.filter (·.1 = name) = [] := by simpa using h
  rw [field?, List.filter_append, hmore, List.append_nil]
  rfl

theorem field?_append_right (h : ∀ f ∈ fs, f.1 ≠ name) :
    field? name decode (fs ++ more) = field? name decode more := by
  have hfs : fs.filter (·.1 = name) = [] := by simpa using h
  rw [field?, List.filter_append, hfs, List.nil_append]
  rfl

@[simp] theorem position_toJson (p : Position c) : position p.toJson = .ok p := by
  simp [position, Position.toJson, field?, required, Functor.map, Except.map]

@[simp] theorem protocolPosition_toJson (p : ProtocolPosition) :
    protocolPosition p.toJson = .ok p := position_toJson p

theorem documentPosition_toJson {p : DocumentPosition} (h : p.line ≠ 0) :
    documentPosition p.toJson = .ok p := by
  rw [documentPosition, position_toJson, ok_bind, Position.checkLine, if_neg h]
  rfl

theorem range_toJson {r : Range c} (hstart : place r.start.toJson = .ok r.start)
    (hstop : place r.stop.toJson = .ok r.stop) : range place r.toJson = .ok r := by
  simp [range, Range.toJson, field?, required, hstart, hstop, Functor.map, Except.map]

def Gives (decode : Decoder α) (a : α) : Prop := ∃ v, decode v = .ok a

theorem gives_of_map {v : Json} (h : some <$> decode v = .ok (some a)) : decode.Gives a := by
  obtain ⟨b, hb, hsome⟩ := map_eq_ok.1 h
  obtain rfl := Option.some.inj hsome
  exact ⟨v, hb⟩

theorem gives_of_field? {name : String} {fields : List (String × Json)}
    (h : field? name decode fields = .ok (some a)) : decode.Gives a := by
  unfold field? at h
  split at h
  · cases h
  · exact gives_of_map h
  · cases h

theorem gives_of_option {v : Json} (h : option decode v = .ok (some a)) : decode.Gives a := by
  unfold option at h
  split at h
  · cases h
  · exact gives_of_map h

theorem line_of_gives {p : DocumentPosition} (h : documentPosition.Gives p) : p.line ≠ 0 := by
  obtain ⟨v, hv⟩ := h
  obtain ⟨q, -, hq⟩ := bind_eq_ok.1 hv
  unfold Position.checkLine at hq
  split at hq
  · cases hq
  · obtain rfl := Except.ok.inj hq
    assumption

theorem ends_of_gives {r : Range c} (h : (range place).Gives r) :
    place.Gives r.start ∧ place.Gives r.stop := by
  obtain ⟨v, hv⟩ := h
  unfold range at hv
  split at hv
  · obtain ⟨stop, hstop, hv⟩ := bind_eq_ok.1 hv
    obtain ⟨start, hstart, hv⟩ := bind_eq_ok.1 hv
    obtain ⟨p, hp, hv⟩ := bind_eq_ok.1 hv
    obtain ⟨q, hq, hr⟩ := bind_eq_ok.1 hv
    obtain rfl := required_eq_ok.1 hp
    obtain rfl := required_eq_ok.1 hq
    obtain rfl := Except.ok.inj hr
    exact ⟨gives_of_field? hstart, gives_of_field? hstop⟩
  · obtain ⟨start, hstart, hv⟩ := bind_eq_ok.1 hv
    obtain ⟨stop, hstop, hr⟩ := bind_eq_ok.1 hv
    obtain rfl := Except.ok.inj hr
    exact ⟨⟨_, hstart⟩, ⟨_, hstop⟩⟩
  · cases hv

end DocstringEditor.Json.Decoder
