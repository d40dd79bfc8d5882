import DocstringEditor.Proofs.Json.Reader
import DocstringEditor.Proofs.Wire.Request
import DocstringEditor.Server.Router

namespace DocstringEditor.Server

open Json (Reader ReadError TakesFields maxDepth)

theorem scalar_takes {accepts : Json → Bool} {v : Json} (hfits : v.Fits 0)
    (haccepts : accepts v = true) : (scalar accepts).Takes v := by
  intro rest hrest
  have hvalue := Json.value_takes hfits rest hrest
  obtain ⟨c, t, hc, hspace, -⟩ := Json.text_eq_cons hfits
  rw [hc, List.cons_append] at hvalue ⊢
  have hskip : Json.skipSpace (c :: (t ++ rest)) = c :: (t ++ rest) := by
    simp [Json.skipSpace, hspace]
  unfold scalar
  rw [hskip]
  split
  · next heq =>
      rw [heq] at hvalue
      cases hvalue
  · next heq =>
      rw [heq] at hvalue
      cases hvalue
  · rw [hvalue, ok_bind]
    exact if_pos haccepts

theorem strings_takes (l : List String) : strings.Takes (.array (l.map .ofString)) := by
  intro rest _
  have hfits : ∀ v ∈ l.map Json.ofString, v.Fits 0 := by
    intro v hv
    obtain ⟨s, -, rfl⟩ := List.mem_map.1 hv
    exact .string 0 _
  have htakes : ∀ v ∈ l.map Json.ofString, (scalar isString).Takes v := by
    intro v hv
    obtain ⟨s, -, rfl⟩ := List.mem_map.1 hv
    exact scalar_takes (.string 0 _) rfl
  rw [Json.text, List.cons_append, List.append_assoc, List.singleton_append]
  change (Json.items (scalar isString) _ true _).map _ = _
  rw [Json.items_text hfits htakes (Json.length_lt_itemsText _ rest)]
  rfl

variable {own : List (String × Reader Json)} {fs : List (String × Json)} {seen : List String}

def bodyField (own : List (String × Reader Json)) (seen : List String) (name : String) :
    Except ReadError (Reader Json) :=
  match own.lookup name with
  | none => .ok (Json.value (maxDepth - 1))
  | some read => if name ∈ seen then .error .mismatch else .ok read

theorem requestBody_text (h : TakesFields (bodyField own) [] fs) :
    requestBody own (Json.object fs).text = .ok (.object fs) := by
  change (do return Json.object (← Json.fields (bodyField own) _ true [] _).1) = _
  rw [Json.fields_text h (Json.length_lt_fieldsText fs [])]
  rfl

/-- Fields of different names can be read if own readers take theirs and the others fit. -/
theorem takesFields_body (hnodup : (fs.map (·.1)).Nodup) (hseen : ∀ f ∈ fs, f.1 ∉ seen)
    (hown : ∀ f ∈ fs, ∀ read, own.lookup f.1 = some read → read.Takes f.2)
    (hother : ∀ f ∈ fs, own.lookup f.1 = none → f.2.Fits (maxDepth - 1)) :
    TakesFields (bodyField own) seen fs := by
  induction fs generalizing seen with
  | nil => trivial
  | cons f fs ih =>
      rw [List.map_cons, List.nodup_cons] at hnodup
      have hmem := List.mem_cons_self (a := f) (l := fs)
      have hfields : TakesFields (bodyField own) (f.1 :: seen) fs := by
        apply ih hnodup.2
        · intro g hg hin
          rcases List.mem_cons.1 hin with heq | hin
          · exact hnodup.1 (heq ▸ List.mem_map_of_mem hg)
          · exact hseen g (List.mem_cons_of_mem f hg) hin
        · exact fun g hg => hown g (List.mem_cons_of_mem f hg)
        · exact fun g hg => hother g (List.mem_cons_of_mem f hg)
      refine ⟨?_, hfields⟩
      unfold bodyField
      cases hlookup : own.lookup f.1 with
      | none => exact ⟨_, rfl, Json.value_takes (hother f hmem hlookup)⟩
      | some read => exact ⟨read, if_neg (hseen f hmem), hown f hmem read hlookup⟩

open Json.Decoder (queryNames)

theorem position_fits {c : Convention} (p : Position c) (d : Nat) : p.toJson.Fits (d + 1) := by
  apply Json.Fits.object
  simp only [List.mem_cons, List.not_mem_nil, or_false, forall_eq_or_imp, forall_eq]
  exact ⟨.natural d p.line.toNat_lt, .natural d p.character.toNat_lt⟩

theorem fits_of_mem_fields {q : Query} {f : String × Json} (h : f ∈ q.fields) (d : Nat) :
    f.2.Fits (d + 1) := by
  rcases Json.Decoder.mem_fields.1 h with rfl | rfl | ⟨b, -, rfl⟩ | rfl
  · exact .string _ _
  · exact position_fits q.position d
  · exact .string _ _
  · exact .string _ _

theorem nodup_fields (q : Query) : (q.fields.map (·.1)).Nodup := by
  unfold Query.fields
  cases q.backend <;> simp

theorem takesFields_request {q : Query} {more : List (String × Json)}
    (hnodup : (more.map (·.1)).Nodup) (hquery : ∀ name ∈ queryNames, own.lookup name = none)
    (hmore : ∀ f ∈ more, ∃ read, own.lookup f.1 = some read ∧ read.Takes f.2) :
    TakesFields (bodyField own) [] (q.fields ++ more) := by
  have hfields {f : String × Json} (hf : f ∈ q.fields) : own.lookup f.1 = none :=
    hquery f.1 (Json.Decoder.name_of_mem_fields hf)
  apply takesFields_body
  · rw [List.map_append, List.nodup_append]
    refine ⟨nodup_fields q, hnodup, ?_⟩
    intro name hleft name' hright heq
    obtain ⟨f, hf, rfl⟩ := List.mem_map.1 hleft
    obtain ⟨g, hg, rfl⟩ := List.mem_map.1 hright
    obtain ⟨read, hread, -⟩ := hmore g hg
    rw [← heq, hfields hf] at hread
    cases hread
  · exact fun _ _ => List.not_mem_nil
  · intro f hf read hread
    rcases List.mem_append.1 hf with hf | hf
    · rw [hfields hf] at hread
      cases hread
    · obtain ⟨read', hread', htakes⟩ := hmore f hf
      obtain rfl := Option.some.inj (hread.symm.trans hread')
      exact htakes
  · intro f hf hnone
    rcases List.mem_append.1 hf with hf | hf
    · exact fits_of_mem_fields hf 125
    · obtain ⟨read, hread, -⟩ := hmore f hf
      rw [hnone] at hread
      cases hread

theorem decodeBody_text {α : Type} {decode : Json.Decoder α} {a : α}
    (h : TakesFields (bodyField own) [] fs) (hdecode : decode (.object fs) = .ok a) :
    decodeBody own decode (Json.object fs).text = .ok a := by
  rw [decodeBody, requestBody_text h, ok_bind, hdecode]
  rfl

def posted (e : Endpoint) (v : Json) : HttpRequest :=
  { method := "POST", path := e.path, contentType := some "application/json", body := v.text }

theorem ofPath?_posted (e : Endpoint) (v : Json) :
    Endpoint.ofPath? (pathOf (posted e v).path) = some e := by
  have hpath : ∀ e : Endpoint, Endpoint.ofPath? (pathOf e.path) = some e := by
    intro e
    cases e <;> decide +kernel
  exact hpath e

theorem post_posted (run : Text → HttpResponse) (e : Endpoint) (v : Json) :
    post run (posted e v) = run v.text := by
  have hjson : isJsonType (some "application/json") = true := by decide +kernel
  simp [post, posted, hjson]

variable (parse : Analysis.Parse) (report : String)

theorem respond_query (q : Query) : respond parse report (posted .resolve q.toJson) =
    answerWith report (fun q : Query => (q.resolve parse).mapError .error) ResolveAnswer.toJson
      (.ok q) := by
  have hfields : TakesFields (bodyField []) [] (q.fields ++ []) :=
    takesFields_request List.nodup_nil (fun _ _ => rfl) nofun
  rw [List.append_nil] at hfields
  rw [respond, ofPath?_posted]
  exact (post_posted _ _ _).trans (congrArg (answerWith _ _ _)
    (decodeBody_text hfields (Json.Decoder.query_toJson q)))

theorem respond_cleanRequest (r : CleanRequest) : respond parse report (posted .clean r.toJson) =
    answerWith report (fun r : CleanRequest => (r.run parse).mapError .error) CleanAnswer.toJson
      (.ok r) := by
  have hfields : TakesFields (bodyField [("skip", strings)]) []
      (r.query.fields ++ [("skip", .array (r.skip.map .ofString))]) := by
    apply takesFields_request
    · simp
    · decide
    · simp only [List.mem_singleton, forall_eq]
      exact ⟨strings, rfl, strings_takes r.skip⟩
  rw [respond, ofPath?_posted]
  exact (post_posted _ _ _).trans (congrArg (answerWith _ _ _)
    (decodeBody_text hfields (Json.Decoder.cleanRequest_toJson r)))

theorem respond_docstringRequest (r : DocstringRequest) :
    respond parse report (posted .docstringEdit r.toJson) =
      answerWith report (fun r : DocstringRequest => r.run parse) DocstringAnswer.toJson (.ok r) := by
  have hfields : TakesFields
      (bodyField [("docstring", scalar isString), ("on_new_line", scalar isBool)]) []
      (r.query.fields ++ [("docstring", .string r.docstring), ("on_new_line", .bool r.onNewLine)])
      := by
    apply takesFields_request
    · simp
    · decide
    · simp only [List.mem_cons, List.not_mem_nil, or_false, forall_eq_or_imp, forall_eq]
      exact ⟨⟨scalar isString, rfl, scalar_takes (.string 0 _) rfl⟩,
        ⟨scalar isBool, rfl, scalar_takes (.bool 0 _) rfl⟩⟩
  rw [respond, ofPath?_posted]
  exact (post_posted _ _ _).trans (congrArg (answerWith _ _ _)
    (decodeBody_text hfields (Json.Decoder.docstringRequest_toJson r)))

end DocstringEditor.Server
