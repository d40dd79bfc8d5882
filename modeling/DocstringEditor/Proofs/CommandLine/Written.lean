import DocstringEditor.CommandLine.Run
import DocstringEditor.Proofs.Outcome

namespace DocstringEditor.CommandLine

variable {w : World} {c : Command} {p q : Path}

theorem lookup_map_written (files : List (Path × Option Text)) (t : Text) :
    (files.map fun (q, old) => (q, if q = p then some t else old)).lookup q =
      (files.lookup q).map fun old => if q = p then some t else old := by
  induction files with
  | nil => rfl
  | cons f files ih =>
      obtain ⟨r, old⟩ := f
      rw [List.map_cons, List.lookup_cons, List.lookup_cons, ih]
      cases h : q == r with
      | true => rw [eq_of_beq h]; rfl
      | false => rfl

theorem World.lookup_written (w : World) (p q : Path) (t : Text) :
    (w.written p t).lookup q = if q = p then some (some t) else w.files.lookup q := by
  unfold World.written
  split
  · next hfile =>
      obtain ⟨old, hold⟩ := Option.isSome_iff_exists.1 hfile
      rw [lookup_map_written]
      split
      · next heq => rw [heq, hold]; rfl
      · cases w.files.lookup q <;> rfl
  · next hfile =>
      have hnone : w.files.lookup p = none := Option.not_isSome_iff_eq_none.1 hfile
      rw [List.lookup_append, List.lookup_cons, List.lookup_nil]
      by_cases heq : q = p
      · simp [heq, hnone]
      · simp [heq, beq_eq_false_iff_ne.2 heq]

namespace Run

variable {α β : Type}

theorem look_bind (x : World → Except Failure α) (f : α → Run β) (w : World) :
    (look x >>= f) w = match x w with
      | .ok a => f a w
      | .error e => (.error (.error e), w) := by
  change ExceptT.bindCont f ((x w).mapError .error) w = _
  cases x w <;> rfl

theorem ask_bind (x : Except (Halt RequestError) α) (f : α → Run β) (w : World) :
    (ask x >>= f) w = match x with
      | .ok a => f a w
      | .error e => (.error (e.map .request), w) := by
  change ExceptT.bindCont f (x.mapError (.map .request)) w = _
  cases x <;> rfl

theorem write_bind (path : String) (t : Text) (f : Unit → Run β) (w : World) :
    (write path t >>= f) w = match w.locate? path with
      | some p => f () { w with files := w.written p t }
      | none => (.error (.error (.unwritable path)), w) := by
  change ((match w.locate? path with
    | some p => set { w with files := w.written p t }
    | none => throw (.error (.unwritable path)) : Run Unit) >>= f) w = _
  cases w.locate? path <;> rfl

end Run

variable {parse : Analysis.Parse}

namespace Command

def writes : Command → Bool
  | docstring o _ _ => o.write
  | _ => false

/-- Whether a command changes the file at a path, and the answer that says to what. -/
def Rewrites (parse : Analysis.Parse) (w : World) (p : Path) (a : DocstringAnswer) :
    Command → Prop
  | docstring o _ server => o.write = true ∧ server.url? = none ∧
      w.locate? o.cursor.file = some p ∧
      ∃ r, o.request w = .ok r ∧ w.textAt? p = some r.query.source ∧ r.run parse = .ok a
  | _ => False

theorem url?_of_require {o : ServerOptions} {route : String} {u : Unit}
    (h : o.require route = .ok u) : o.url? = none := by
  unfold ServerOptions.require at h
  split at h
  · cases h
  · assumption

theorem source_of_request {o : DocstringOptions} {r : DocstringRequest}
    (h : o.request w = .ok r) : w.read? o.cursor.file = some r.query.source := by
  obtain ⟨docstring, -, h⟩ := bind_eq_ok.1 h
  obtain ⟨query, hquery, h⟩ := bind_eq_ok.1 h
  obtain rfl := Except.ok.inj h
  unfold CursorOptions.query at hquery
  split at hquery
  · next source hsource =>
      obtain rfl := Except.ok.inj hquery
      exact hsource
  · cases hquery

end Command

/-- What a run of a command may leave behind: as long as it can fail, all that it started from. -/
inductive Leaves (parse : Analysis.Parse) (w : World) (c : Command) :
    Except (Halt Failure) Text × World → Prop
  | failed (halt : Halt Failure) : Leaves parse w c (.error halt, w)
  | kept (t : Text) (h : c.writes = false) : Leaves parse w c (.ok t, w)
  | rewritten (t : Text) {p : Path} {a : DocstringAnswer} (h : c.Rewrites parse w p a) :
      Leaves parse w c (.ok t, { w with files := w.written p a.patched })

namespace Leaves

variable {α : Type}

theorem look {x : World → Except Failure α} {f : α → Run Text}
    (h : ∀ a, x w = .ok a → Leaves parse w c (f a w)) :
    Leaves parse w c ((Run.look x >>= f) w) := by
  rw [Run.look_bind]
  cases hx : x w with
  | error e => exact .failed _
  | ok a => exact h a hx

theorem ask {x : Except (Halt RequestError) α} {f : α → Run Text}
    (h : ∀ a, x = .ok a → Leaves parse w c (f a w)) :
    Leaves parse w c ((Run.ask x >>= f) w) := by
  rw [Run.ask_bind]
  cases x with
  | error e => exact .failed _
  | ok a => exact h a rfl

theorem write {path : String} {a : DocstringAnswer} {t : Text}
    (h : ∀ p, w.locate? path = some p → c.Rewrites parse w p a) :
    Leaves parse w c ((Run.write path a.patched >>= fun _ => pure t) w) := by
  rw [Run.write_bind]
  cases hp : w.locate? path with
  | none => exact .failed _
  | some p => exact .rewritten t (h p hp)

end Leaves

/-- The file is written last. -/
theorem Command.leaves (parse : Analysis.Parse) (w : World) (c : Command) :
    Leaves parse w c (c.run parse w) := by
  cases c with
  | resolve o format server =>
      exact .look fun _ _ => .look fun _ _ => .ask fun _ _ => .kept _ rfl
  | clean o format server =>
      exact .look fun _ _ => .look fun _ _ => .ask fun _ _ => .kept _ rfl
  | docstring o format server =>
      refine .look fun r hr => .look fun _ hserver => .ask fun a ha => ?_
      cases hwrite : o.write with
      | false => exact .kept _ hwrite
      | true =>
          refine .write fun p hp => ⟨hwrite, url?_of_require hserver, hp, r, hr, ?_, ha⟩
          have hsource := source_of_request hr
          rwa [World.read?, hp] at hsource
  | backends format server => exact .look fun _ _ => .kept _ rfl
  | serve address => exact .failed _

@[simp] theorem Config.writes_fill (config : Config) (c : Command) :
    (config.fill c).writes = c.writes := by
  cases c <;> rfl

theorem run_command (parse : Analysis.Parse) {args : List String}
    (h : Demand.ofArguments w.serverUrl args = .ok (.command c)) :
    (∃ o, o.code ≠ 0 ∧ run parse w args = (o, w)) ∨
      (∃ t, c.writes = false ∧ run parse w args = (.done t, w)) ∨
      ∃ t config p a, w.config = .ok config ∧ (config.fill c).Rewrites parse w p a ∧
        run parse w args = (.done t, { w with files := w.written p a.patched }) := by
  have hfailed (halt : Halt Failure) (hrun : (Demand.command c).run parse w = (.error halt, w)) :
      ∃ o, o.code ≠ 0 ∧ run parse w args = (o, w) := by
    cases halt with
    | error f => exact ⟨.failed f, Nat.one_ne_zero, by simp only [run, h, hrun]⟩
    | panic => exact ⟨.panicked, by decide, by simp only [run, h, hrun]⟩
  have hrun : (Demand.command c).run parse w = _ := Run.look_bind _ _ w
  cases hconfig : w.config with
  | error f =>
      rw [hconfig] at hrun
      exact .inl (hfailed (.error f) hrun)
  | ok config =>
      rw [hconfig] at hrun
      have hleaves := (config.fill c).leaves parse w
      dsimp only at hrun
      rw [← hrun] at hleaves
      generalize hend : (Demand.command c).run parse w = ending at hleaves
      cases hleaves with
      | failed halt => exact .inl (hfailed halt hend)
      | kept t hwrites =>
          rw [Config.writes_fill] at hwrites
          exact .inr (.inl ⟨t, hwrites, by simp only [run, h, hend]⟩)
      | @rewritten t p a hrewrites =>
          exact .inr (.inr ⟨t, config, p, a, rfl, hrewrites, by simp only [run, h, hend]⟩)

theorem run_of_not_command (parse : Analysis.Parse) {args : List String}
    (h : ∀ c, Demand.ofArguments w.serverUrl args ≠ .ok (.command c)) :
    (run parse w args).2 = w := by
  unfold run
  cases hargs : Demand.ofArguments w.serverUrl args with
  | error e => cases e <;> rfl
  | ok d =>
      cases d with
      | schemaVersion => rfl
      | help =>
          have hhelp : Demand.help.run parse w = _ := Run.look_bind World.config _ w
          cases hconfig : w.config with
          | error f =>
              rw [hconfig] at hhelp
              simp only [hhelp]
          | ok config =>
              rw [hconfig] at hhelp
              simp only [hhelp]
              rfl
      | command c => exact absurd hargs (h c)

/-- A run that fails leaves everything as it was. One that succeeds does so too, unless it is a
docstring command that is to write: then the file that it names holds the patched text of what it
held before. -/
theorem files_after_run (parse : Analysis.Parse) (w : World) (args : List String) :
    ((run parse w args).1.code ≠ 0 → (run parse w args).2 = w) ∧
    ((run parse w args).1.code = 0 →
      ((∀ c, Demand.ofArguments w.serverUrl args = .ok (.command c) → c.writes = false) ∧
        (run parse w args).2 = w) ∨
      ∃ o format server config p a,
        Demand.ofArguments w.serverUrl args = .ok (.command (.docstring o format server)) ∧
        o.write = true ∧ w.locate? o.cursor.file = some p ∧ w.config = .ok config ∧
        (config.fill (.docstring o format server)).Rewrites parse w p a ∧
        (run parse w args).2 = { w with files := w.written p a.patched } ∧
        ∀ q, (run parse w args).2.files.lookup q =
          if q = p then some (some a.patched) else w.files.lookup q) := by
  by_cases hcommand : ∃ c, Demand.ofArguments w.serverUrl args = .ok (.command c)
  · obtain ⟨c, hargs⟩ := hcommand
    rcases run_command parse hargs with
      ⟨o, ho, hrun⟩ | ⟨t, hwrites, hrun⟩ | ⟨t, config, p, a, hconfig, hrewrites, hrun⟩
    · rw [hrun]
      exact ⟨fun _ => rfl, fun hcode => absurd hcode ho⟩
    · rw [hrun, hargs]
      refine ⟨fun _ => rfl, fun _ => .inl ⟨?_, rfl⟩⟩
      rintro _ ⟨⟩
      exact hwrites
    · rw [hrun]
      refine ⟨fun hcode => absurd rfl hcode, fun _ => .inr ?_⟩
      cases c with
      | docstring o format server =>
          exact ⟨o, format, server, config, p, a, hargs, hrewrites.1, hrewrites.2.2.1, hconfig,
            hrewrites, rfl, fun q => w.lookup_written p q a.patched⟩
      | _ => exact hrewrites.elim
  · have hnone (c : Command) : Demand.ofArguments w.serverUrl args ≠ .ok (.command c) :=
      fun h => hcommand ⟨c, h⟩
    have hkept := run_of_not_command parse hnone
    exact ⟨fun _ => hkept, fun _ => .inl ⟨fun c hc => absurd hc (hnone c), hkept⟩⟩

/-- A docstring is refused for a body on the line of its header, and written for another one. -/
theorem files_after_run_method : ∃ (w : World) (args args' : List String) (old : Text),
    w.files = [(["m.py"], some old)] ∧ old = "def f(): 0\ndef g():\n    return 0\n".toList ∧
    args = ["docstring", "m.py", "-l0", "-c4", "--text=Does.", "--write"] ∧
    args' = ["docstring", "m.py", "-l1", "-c4", "--text=Does.", "--write"] ∧
    ((run Analysis.python w args).1.code ≠ 0 ∧ (run Analysis.python w args).2 = w) ∧
    ((run Analysis.python w args').1.code = 0 ∧
      ∃ o format server config p a,
        Demand.ofArguments w.serverUrl args' = .ok (.command (.docstring o format server)) ∧
        o.write = true ∧ w.locate? o.cursor.file = some p ∧ w.config = .ok config ∧
        (config.fill (.docstring o format server)).Rewrites Analysis.python w p a ∧
        (run Analysis.python w args').2 = { w with files := w.written p a.patched } ∧
        ∀ q, (run Analysis.python w args').2.files.lookup q =
          if q = p then some (some a.patched) else w.files.lookup q) := by
  obtain ⟨w, hw⟩ : ∃ w : World, w =
    { files := [(["m.py"], some "def f(): 0\ndef g():\n    return 0\n".toList)], here := [] } :=
    ⟨_, rfl⟩
  have hrefused : (run Analysis.python w
      ["docstring", "m.py", "-l0", "-c4", "--text=Does.", "--write"]).1.code ≠ 0 := by
    rw [hw]
    decide +kernel
  have hwritten : (run Analysis.python w
      ["docstring", "m.py", "-l1", "-c4", "--text=Does.", "--write"]).1.code = 0 := by
    rw [hw]
    decide +kernel
  have hargs : Demand.ofArguments w.serverUrl
      ["docstring", "m.py", "-l1", "-c4", "--text=Does.", "--write"] =
        .ok (.command (.docstring
          { cursor := { file := "m.py", line := 1, character := 4 }, text := some "Does."
            write := true }
          .text {})) := by
    rw [hw]
    exact toOption_eq_some.1 (by decide +kernel)
  refine ⟨w, _, _, _, by rw [hw], rfl, rfl, rfl,
    ⟨hrefused, (files_after_run Analysis.python w _).1 hrefused⟩, hwritten, ?_⟩
  rcases (files_after_run Analysis.python w _).2 hwritten with ⟨hnone, -⟩ | hsome
  · cases hnone _ hargs
  · exact hsome

end DocstringEditor.CommandLine
