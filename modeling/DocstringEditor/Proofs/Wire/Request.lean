import DocstringEditor.Proofs.Json.Decoder
import DocstringEditor.Wire.Request

namespace DocstringEditor.Json.Decoder

open Analysis (QueryScope)

theorem queryScope_name (s : QueryScope) (isNothing : Json → Bool) :
    queryScope isNothing (.ofString s.name) = .ok s := by
  cases s <;> rfl

def queryNames : List String := ["source", "position", "backend", "scope"]

theorem mem_fields {q : Query} {f : String × Json} :
    f ∈ q.fields ↔ f = ("source", .string q.source) ∨ f = ("position", q.position.toJson) ∨
      (∃ b, q.backend = some b ∧ f = ("backend", .ofString b)) ∨
      f = ("scope", .ofString q.scope.name) := by
  unfold Query.fields
  cases q.backend <;> simp

theorem name_of_mem_fields {q : Query} {f : String × Json} (h : f ∈ q.fields) :
    f.1 ∈ queryNames := by
  rcases mem_fields.1 h with rfl | rfl | ⟨b, -, rfl⟩ | rfl <;> simp [queryNames]

theorem query_append {fs more : List (String × Json)} (h : ∀ f ∈ more, f.1 ∉ queryNames) :
    query (.object (fs ++ more)) = query (.object fs) := by
  have hne {name : String} (hname : name ∈ queryNames) : ∀ f ∈ more, f.1 ≠ name :=
    fun f hf heq => h f hf (heq ▸ hname)
  simp only [query, objectFields, ok_bind, field?_append_left (hne (by decide : "source" ∈ _)),
    field?_append_left (hne (by decide : "position" ∈ _)),
    field?_append_left (hne (by decide : "backend" ∈ _)),
    field?_append_left (hne (by decide : "scope" ∈ _))]

theorem query_toJson (q : Query) : query q.toJson = .ok q := by
  obtain ⟨source, position, backend, scope⟩ := q
  have hscope := queryScope_name scope isEmptyValue
  cases backend with
  | none =>
      simp [query, Query.toJson, Query.fields, objectFields, field?, required, flatten, hscope,
        Functor.map, Except.map]
  | some b =>
      have hbackend : option string (.ofString b) = .ok (some b) := by
        simp [option, Json.ofString, string, Functor.map, Except.map]
      simp [query, Query.toJson, Query.fields, objectFields, field?, required, flatten, hscope,
        hbackend, Functor.map, Except.map]

theorem cleanRequest_toJson (r : CleanRequest) : cleanRequest r.toJson = .ok r := by
  have hquery : query r.toJson = .ok r.query := by
    rw [CleanRequest.toJson, query_append (by simp [queryNames])]
    exact query_toJson r.query
  have hfields : ∀ f ∈ r.query.fields, f.1 ≠ "skip" := fun f hf heq =>
    absurd (heq ▸ name_of_mem_fields hf) (by decide)
  have hskip : list string (.array (r.skip.map .ofString)) = .ok r.skip :=
    list_array fun s _ => string_ofString s
  rw [cleanRequest, hquery, CleanRequest.toJson, objectFields, ok_bind, field?_append_right hfields]
  simp [field?, hskip, Functor.map, Except.map]

theorem docstringRequest_toJson (r : DocstringRequest) : docstringRequest r.toJson = .ok r := by
  have hquery : query r.toJson = .ok r.query := by
    rw [DocstringRequest.toJson, query_append (by simp [queryNames])]
    exact query_toJson r.query
  have hfields {name : String} (hname : name ∉ queryNames) : ∀ f ∈ r.query.fields, f.1 ≠ name :=
    fun f hf heq => hname (heq ▸ name_of_mem_fields hf)
  rw [docstringRequest, hquery, DocstringRequest.toJson, objectFields, ok_bind,
    field?_append_right (hfields (by decide : "docstring" ∉ _)),
    field?_append_right (hfields (by decide : "on_new_line" ∉ _))]
  simp [field?, required, Functor.map, Except.map]

end DocstringEditor.Json.Decoder
