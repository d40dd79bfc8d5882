import DocstringEditor.Proofs.CommandLine.Settings
import DocstringEditor.Proofs.CommandLine.Written
import DocstringEditor.Proofs.Docstring.Level
import DocstringEditor.Proofs.Server.Router

namespace DocstringEditor.CommandLine

open Server (HttpRequest HttpResponse posted respond answerWith)

namespace Command

/-- The request that a command builds, as it is posted to its route. -/
def request? (w : World) : Command → Option HttpRequest
  | resolve o _ _ => (o.query w).toOption.map fun q => posted .resolve q.toJson
  | clean o _ _ => (o.request w).toOption.map fun r => posted .clean r.toJson
  | docstring o _ _ => (o.request w).toOption.map fun r => posted .docstringEdit r.toJson
  | backends _ _ | serve _ => none

def Readable (w : World) : Command → Prop
  | resolve o _ _ => (w.read? o.file).isSome
  | clean o _ _ => (w.read? o.cursor.file).isSome
  | docstring o _ _ => (w.read? o.cursor.file).isSome ∧
      (o.text.isSome ∨ ∃ path, o.textFile = some path ∧ (w.read? path).isSome)
  | backends _ _ | serve _ => False

end Command

/-- Whether a run and a response give the same answer or report the same error. -/
inductive Agrees : Outcome → HttpResponse → Prop
  | answer (v : Json) : Agrees (.done (jsonLine v)) { status := 200, body := some v }
  | error (e : RequestError) :
      Agrees (.failed (.request e))
        { status := if e.isInternal then 500 else 400
          body := some (.object [("error", .ofString e.message)]) }

def Outcome.ofExcept : Except (Halt Failure) Text → Outcome
  | .ok t => .done t
  | .error (.error f) => .failed f
  | .error .panic => .panicked

variable {parse : Analysis.Parse} {report : String}

theorem Outcome.ofExcept_run (w : World) {args : List String} {c : Command}
    (h : Demand.ofArguments w.serverUrl args = .ok (.command c)) :
    (CommandLine.run parse w args).1 = .ofExcept ((Demand.command c).run parse w).1 := by
  rw [CommandLine.run, h]
  rcases hrun : (Demand.command c).run parse w with ⟨(_ | _) | _, _⟩ <;>
    simp only [hrun, ofExcept]

namespace Config

@[simp] theorem fillServer_empty (o : ServerOptions) : fillServer {} {} o = o := by
  simp [fillServer]

@[simp] theorem fillFormat_empty (f : OutputFormat) : fillFormat {} f = f := by
  simp [fillFormat]

@[simp] theorem fillCursor_empty (o : CursorOptions) : fillCursor {} o = o := by
  simp [fillCursor]

theorem fill_empty (c : Command) : fill {} c = c := by
  cases c with
  | clean o format server =>
      obtain ⟨cursor, skip⟩ := o
      cases skip <;> simp [fill]
  | _ => simp [fill]

theorem run_of_find?_none {w : World} (h : find? w = none) (c : Command) :
    (Demand.command c).run parse w = c.run parse w := by
  have hrun : (Demand.command c).run parse w = _ := Run.look_bind _ _ w
  rw [World.config, h] at hrun
  dsimp only at hrun
  rw [hrun, fill_empty]

end Config

variable {α β : Type} {encode : β → Json} {a : α} {w : World}

/-- What is asked and then printed as JSON, whatever is done between the two, is answered alike. -/
theorem agrees_ask (act : α → Except (Halt RequestError) β) (hpanic : act a ≠ .error .panic)
    {f : β → Run Text}
    (hf : ∀ b, act a = .ok b → (f b w).1 = .ok (jsonLine (encode b))) :
    Agrees (.ofExcept ((Run.ask (act a) >>= f) w).1) (answerWith report act encode (.ok a)) := by
  rw [Run.ask_bind, answerWith]
  cases hact : act a with
  | error halt =>
      cases halt with
      | error e => exact .error e
      | panic => exact absurd hact hpanic
  | ok b =>
      dsimp only
      rw [hf b hact]
      exact .answer (encode b)

theorem mapError_ne_panic {x : Except RequestError β} :
    x.mapError Halt.error ≠ .error .panic := by
  cases x <;> exact nofun

theorem look_bind_of_ok {x : World → Except Failure α} {a : α} (h : x w = .ok a)
    (f : α → Run β) : (Run.look x >>= f) w = f a w := by
  rw [Run.look_bind, h]

theorem require_none {o : ServerOptions} (h : o.url? = none) (route : String) :
    o.require route = .ok () := by
  rw [ServerOptions.require, h]

theorem query_of_readable {w : World} {o : CursorOptions} (h : (w.read? o.file).isSome) :
    ∃ q, o.query w = .ok q := by
  obtain ⟨source, hsource⟩ := Option.isSome_iff_exists.1 h
  exact ⟨_, by rw [CursorOptions.query, hsource]⟩

theorem docstring_of_readable {w : World} {o : DocstringOptions}
    (h : o.text.isSome ∨ ∃ path, o.textFile = some path ∧ (w.read? path).isSome) :
    ∃ t, o.docstring w = .ok t := by
  rcases h with h | ⟨path, hpath, h⟩
  · obtain ⟨t, ht⟩ := Option.isSome_iff_exists.1 h
    exact ⟨t.toList, by rw [DocstringOptions.docstring, ht]⟩
  · obtain ⟨t, ht⟩ := Option.isSome_iff_exists.1 h
    cases htext : o.text with
    | some t => exact ⟨t.toList, by rw [DocstringOptions.docstring, htext]⟩
    | none => exact ⟨t, by simp [DocstringOptions.docstring, htext, hpath, ht]⟩

/-- A command without a server is run as the route of its request is. -/
theorem Command.run_posted (hparse : parse.Faithful) {c : Command}
    (hserver : c.server.url? = none) (hformat : c.format? = some .json)
    (hreadable : c.Readable w) : ∃ r, c.request? w = some r ∧
      Agrees (.ofExcept (c.run parse w).1) (respond parse report r) := by
  cases c with
  | resolve o format server =>
      obtain rfl : format = .json := Option.some.inj hformat
      obtain ⟨q, hq⟩ := query_of_readable hreadable
      refine ⟨posted .resolve q.toJson, by rw [request?, hq]; rfl, ?_⟩
      rw [Server.respond_query, Command.run, look_bind_of_ok hq,
        look_bind_of_ok (require_none (o := server) hserver _)]
      exact agrees_ask (fun q : Query => (q.resolve parse).mapError .error)
        mapError_ne_panic fun _ _ => rfl
  | clean o format server =>
      obtain rfl : format = .json := Option.some.inj hformat
      obtain ⟨q, hq⟩ := query_of_readable hreadable
      obtain ⟨r, hr⟩ : ∃ r, o.request w = .ok r := ⟨_, by rw [CleanOptions.request, hq]; rfl⟩
      refine ⟨posted .clean r.toJson, by rw [request?, hr]; rfl, ?_⟩
      rw [Server.respond_cleanRequest, Command.run, look_bind_of_ok hr,
        look_bind_of_ok (require_none (o := server) hserver _)]
      exact agrees_ask (fun r : CleanRequest => (r.run parse).mapError .error)
        mapError_ne_panic fun _ _ => rfl
  | docstring o format server =>
      obtain rfl : format = .json := Option.some.inj hformat
      obtain ⟨q, hq⟩ := query_of_readable hreadable.1
      obtain ⟨t, ht⟩ := docstring_of_readable hreadable.2
      obtain ⟨r, hr⟩ : ∃ r, o.request w = .ok r :=
        ⟨_, by rw [DocstringOptions.request, ht, ok_bind, hq]; rfl⟩
      obtain ⟨source, hsource⟩ := Option.isSome_iff_exists.1 hreadable.1
      obtain ⟨p, hp, -⟩ := Option.bind_eq_some_iff.1 hsource
      refine ⟨posted .docstringEdit r.toJson, by rw [request?, hr]; rfl, ?_⟩
      rw [Server.respond_docstringRequest, Command.run, look_bind_of_ok hr,
        look_bind_of_ok (require_none (o := server) hserver _)]
      refine agrees_ask (fun r : DocstringRequest => r.run parse) (r.run_ne_panic hparse)
        fun a _ => ?_
      cases hwrite : o.write with
      | true =>
          simp only [if_true, Run.write_bind, hp]
          rfl
      | false => rfl
  | backends format server => exact hreadable.elim
  | serve address => exact hreadable.elim

/-- A run without a configuration and without a server answers its request as the route does that
the request is posted to, and fails with the same error. -/
theorem run_agrees_with_route (hparse : parse.Faithful) (report : String) {args : List String}
    {c : Command} (hargs : Demand.ofArguments w.serverUrl args = .ok (.command c))
    (hconfig : Config.find? w = none) (hserver : c.server.url? = none)
    (hformat : c.format? = some .json) (hreadable : c.Readable w) :
    ∃ r, c.request? w = some r ∧ Agrees (run parse w args).1 (respond parse report r) := by
  rw [Outcome.ofExcept_run w hargs, Config.run_of_find?_none hconfig]
  exact Command.run_posted hparse hserver hformat hreadable

/-- One run succeeds, one is refused for a body on the line of its header, and one comes upon a
definition without a body. -/
theorem run_agrees_with_route_method :
    ∃ (w : World) (args args' args'' : List String) (c c' c'' : Command) (r r' r'' : HttpRequest),
      w.files = [(["m.py"], some "class A:\n    def f(self): 0\n".toList),
        (["n.py"], some "def f():".toList)] ∧
      args = ["docstring", "m.py", "-l0", "--character=4", "--text", "Does.", "--format", "json"] ∧
      args' = ["docstring", "m.py", "-l1", "--character=8", "--text", "Does.", "--format", "json"] ∧
      args'' = ["resolve", "n.py", "-l0", "--character=1", "--format", "json"] ∧
      Demand.ofArguments w.serverUrl args = .ok (.command c) ∧
      Demand.ofArguments w.serverUrl args' = .ok (.command c') ∧
      Demand.ofArguments w.serverUrl args'' = .ok (.command c'') ∧
      c.request? w = some r ∧ c'.request? w = some r' ∧ c''.request? w = some r'' ∧
      Agrees (run Analysis.python w args).1 (respond Analysis.python "" r) ∧
      Agrees (run Analysis.python w args').1 (respond Analysis.python "" r') ∧
      Agrees (run Analysis.python w args'').1 (respond Analysis.python "" r'') ∧
      (respond Analysis.python "" r).status = 200 ∧
      (respond Analysis.python "" r').status = 400 ∧
      (respond Analysis.python "" r'').status = 500 := by
  obtain ⟨w, hw⟩ : ∃ w : World, w = {
      files := [(["m.py"], some "class A:\n    def f(self): 0\n".toList),
        (["n.py"], some "def f():".toList)]
      here := [] } := ⟨_, rfl⟩
  obtain ⟨c, hc⟩ : ∃ c, c = Command.docstring
    { cursor := { file := "m.py", line := 0, character := 4 }, text := some "Does." } .json {} :=
    ⟨_, rfl⟩
  obtain ⟨c', hc'⟩ : ∃ c, c = Command.docstring
    { cursor := { file := "m.py", line := 1, character := 8 }, text := some "Does." } .json {} :=
    ⟨_, rfl⟩
  obtain ⟨c'', hc''⟩ : ∃ c, c = Command.resolve
    { file := "n.py", line := 0, character := 1 } .json {} := ⟨_, rfl⟩
  have hargs : Demand.ofArguments w.serverUrl
      ["docstring", "m.py", "-l0", "--character=4", "--text", "Does.", "--format", "json"] =
        .ok (.command c) := by
    rw [hw, hc]
    exact toOption_eq_some.1 (by decide +kernel)
  have hargs' : Demand.ofArguments w.serverUrl
      ["docstring", "m.py", "-l1", "--character=8", "--text", "Does.", "--format", "json"] =
        .ok (.command c') := by
    rw [hw, hc']
    exact toOption_eq_some.1 (by decide +kernel)
  have hargs'' : Demand.ofArguments w.serverUrl
      ["resolve", "n.py", "-l0", "--character=1", "--format", "json"] = .ok (.command c'') := by
    rw [hw, hc'']
    exact toOption_eq_some.1 (by decide +kernel)
  have hconfig : Config.find? w = none := by
    rw [hw]
    decide +kernel
  have hreadable : c.Readable w ∧ c'.Readable w ∧ c''.Readable w := by
    rw [hw, hc, hc', hc'']
    exact ⟨⟨by decide +kernel, .inl rfl⟩, ⟨by decide +kernel, .inl rfl⟩,
      show (World.read? _ "n.py").isSome = true by decide +kernel⟩
  obtain ⟨r, hr, hagrees⟩ := run_agrees_with_route Analysis.python_faithful "" hargs hconfig
    (by rw [hc]; rfl) (by rw [hc]; rfl) hreadable.1
  obtain ⟨r', hr', hagrees'⟩ := run_agrees_with_route Analysis.python_faithful "" hargs' hconfig
    (by rw [hc']; rfl) (by rw [hc']; rfl) hreadable.2.1
  obtain ⟨r'', hr'', hagrees''⟩ := run_agrees_with_route Analysis.python_faithful "" hargs''
    hconfig (by rw [hc'']; rfl) (by rw [hc'']; rfl) hreadable.2.2
  have hstatus : (c.request? w).map (fun r => (respond Analysis.python "" r).status) =
      some 200 := by
    rw [hw, hc]
    decide +kernel
  have hstatus' : (c'.request? w).map (fun r => (respond Analysis.python "" r).status) =
      some 400 := by
    rw [hw, hc']
    decide +kernel
  have hstatus'' : (c''.request? w).map (fun r => (respond Analysis.python "" r).status) =
      some 500 := by
    rw [hw, hc'']
    decide +kernel
  rw [hr] at hstatus
  rw [hr'] at hstatus'
  rw [hr''] at hstatus''
  exact ⟨w, _, _, _, c, c', c'', r, r', r'', by rw [hw], rfl, rfl, rfl, hargs, hargs', hargs'', hr,
    hr', hr'', hagrees, hagrees', hagrees'', Option.some.inj hstatus, Option.some.inj hstatus',
    Option.some.inj hstatus''⟩

end DocstringEditor.CommandLine
