import DocstringEditor.CommandLine.Run
import DocstringEditor.Proofs.CommandLine.Settings

namespace DocstringEditor.CommandLine

open Analysis (QueryScope)

def Section.setting (s : Section) : OptionName → List String
  | .backend => s.backend.toList
  | .scope => (s.scope.map (·.name)).toList
  | .format => (s.format.map (·.name)).toList
  | .skip => s.skip
  | .onNewLine => flag s.onNewLine
  | .server => s.server.toList
  | .noServer => flag s.noServer
  | .address => s.address.toList
  | .line | .character | .text | .textFile | .write => []

def CommandName.configured : CommandName → List OptionName
  | resolve => [.backend, .scope, .format, .server, .noServer]
  | clean => [.backend, .skip, .format, .server, .noServer]
  | docstring => [.backend, .onNewLine, .server, .noServer]
  | backends => []
  | serve => [.address]

namespace Config

def sectionOf (config : Config) : CommandName → Section
  | .resolve => config.resolve
  | .clean => config.clean
  | .docstring => config.docstring
  | .backends => {}
  | .serve => config.serve

def defaultFor (config : Config) (n : CommandName) : OptionName → List String
  | .server =>
    if n = .serve then [] else ((config.sectionOf n).server.or config.http.server).toList
  | o => (config.sectionOf n).setting o

end Config

def Section.Gives (s : Section) (os : List OptionName) : Prop := ∀ o, s.setting o ≠ [] → o ∈ os

theorem Section.Gives.setting {s : Section} {os : List OptionName} (h : s.Gives os)
    {o : OptionName} (ho : o ∉ os) : s.setting o = [] :=
  Classical.byContradiction fun hne => ho (h o hne)

/-- Whether an entry changes what is said about an option, and nothing else. -/
def Config.Entry.Sets (e : Config.Entry Section) (o : OptionName) : Prop :=
  ∀ v s s', e.2 v s = some s' → ∀ o', o' ≠ o → s'.setting o' = s.setting o'

namespace Config

def entryOf : OptionName → Entry Section
  | .backend => backendEntry
  | .scope => scopeEntry
  | .format => formatEntry
  | .skip => skipEntry
  | .onNewLine => onNewLineEntry
  | .server => serverEntry "server"
  | .noServer => noServerEntry
  | .address => addressEntry
  | .line | .character | .text | .textFile | .write => ("", fun _ _ => none)

theorem entryOf_sets (o : OptionName) : (entryOf o).Sets o := by
  intro v s s' h o' hne
  cases o
  case line | character | text | textFile | write => cases h
  all_goals
    obtain ⟨a, -, h⟩ := Option.bind_eq_some_iff.1 h
    obtain rfl := Option.some.inj h
    cases o' <;> first | rfl | exact absurd rfl hne

variable {σ : Type} {P : σ → Prop} {a b : σ}

theorem foldlM_keeps {α : Type} {step : σ → α → Option σ} {l : List α}
    (hstep : ∀ x ∈ l, ∀ a b, P a → step a x = some b → P b) (ha : P a)
    (h : l.foldlM step a = some b) : P b := by
  induction l generalizing a with
  | nil =>
      obtain rfl := Option.some.inj h
      exact ha
  | cons x l ih =>
      obtain ⟨a', ha', h⟩ := Option.bind_eq_some_iff.1 h
      exact ih (fun y hy => hstep y (List.mem_cons_of_mem x hy))
        (hstep x List.mem_cons_self a a' ha ha') h

theorem decodeTable_keeps {known : List (Entry σ)} {es : Toml.Entries}
    (hknown : ∀ e ∈ known, ∀ v a b, P a → e.2 v a = some b → P b) (ha : P a)
    (h : decodeTable known es a = some b) : P b := by
  refine foldlM_keeps ?_ ha h
  rintro ⟨key, v⟩ - a b ha hb
  dsimp only at hb
  split at hb
  · next set hset =>
      obtain ⟨front, back, hmem, -⟩ := List.lookup_eq_some_iff.1 hset
      exact hknown (key, set) (by rw [hmem]; simp) v a b ha hb
  · exact Option.some.inj hb ▸ ha

variable {v : Toml} {s s' : Section} {os : List OptionName} {config : Config}

theorem gives_empty : Section.Gives {} os := by
  intro o h
  cases o <;> exact absurd rfl h

theorem gives_entry : ∀ e ∈ os.map entryOf, ∀ v (s s' : Section), s.Gives os →
    e.2 v s = some s' → s'.Gives os := by
  intro e he v s s' hs h o' hne
  obtain ⟨o, ho, rfl⟩ := List.mem_map.1 he
  by_cases heq : o' = o
  · exact heq ▸ ho
  · exact hs o' (entryOf_sets o v s s' h o' heq ▸ hne)

theorem gives_section? (h : section? (os.map entryOf) v = some s) : s.Gives os := by
  unfold section? at h
  split at h
  · exact decodeTable_keeps (P := (Section.Gives · os)) gives_entry gives_empty h
  · exact foldlM_keeps (P := (Section.Gives · os))
      (fun p hp => gives_entry p.1 (List.of_mem_zip hp).1 p.2) gives_empty h
  · exact foldlM_keeps (P := (Section.Gives · os))
      (fun p hp => gives_entry p.1 (List.of_mem_zip hp).1 p.2) gives_empty h
  · exact Option.some.inj h ▸ gives_empty
  · cases h

structure Proper (config : Config) : Prop where
  resolve : config.resolve.Gives CommandName.resolve.configured
  clean : config.clean.Gives CommandName.clean.configured
  docstring : config.docstring.Gives CommandName.docstring.configured
  serve : config.serve.Gives CommandName.serve.configured

theorem proper_empty : Proper {} := ⟨gives_empty, gives_empty, gives_empty, gives_empty⟩

theorem proper_ofText? {t : Text} (h : ofText? t = some config) : config.Proper := by
  obtain ⟨es, -, h⟩ := Option.bind_eq_some_iff.1 h
  refine decodeTable_keeps ?_ proper_empty h
  intro e he v a b ha hb
  simp only [sectionEntries, List.mem_cons, List.not_mem_nil, or_false] at he
  rcases he with rfl | rfl | rfl | rfl | rfl
  all_goals
    obtain ⟨s, hs, hb⟩ := Option.bind_eq_some_iff.1 hb
    obtain rfl := Option.some.inj hb
  · exact { ha with resolve := gives_section? hs }
  · exact { ha with clean := gives_section? hs }
  · exact { ha with docstring := gives_section? hs }
  · exact { ha with serve := gives_section? hs }
  · exact { ha with }

theorem proper_config {w : World} (h : w.config = .ok config) : config.Proper := by
  unfold World.config at h
  split at h
  · exact Except.ok.inj h ▸ proper_empty
  · split at h
    · cases h
    · split at h
      · next c hc => exact Except.ok.inj h ▸ proper_ofText? hc
      · cases h

end Config

/-- What becomes of a setting: a default takes the place of what is built in. -/
def filled (default held builtin : List String) : List String :=
  if default ≠ [] ∧ held = builtin then default else held

theorem filled_none {default held builtin : List String} (h : default = []) :
    held = filled default held builtin :=
  (if_neg fun hfill => hfill.1 h).symm

theorem filled_or (held default : Option String) :
    (held.or default).toList = filled default.toList held.toList [] := by
  cases held <;> cases default <;> rfl

theorem filled_flag (held default : Bool) :
    flag (held || default) = filled (flag default) (flag held) [] := by
  cases held <;> cases default <;> rfl

theorem filled_skip (held default : List String) :
    (if held.isEmpty then default else held) = filled default held [] := by
  cases held with
  | nil => cases default <;> rfl
  | cons name held => exact (if_neg fun hfill => List.cons_ne_nil _ _ hfill.2).symm

theorem filled_name {α : Type} [DecidableEq α] {name : α → String}
    (hname : ∀ a b, name a = name b → a = b) (held builtin : α) (default : Option α) :
    [name (if held = builtin then default.getD held else held)] =
      filled (default.map name).toList [name held] [name builtin] := by
  by_cases heq : held = builtin
  · subst heq
    cases default <;> simp [filled]
  · have hne : name held ≠ name builtin := fun h => heq (hname _ _ h)
    simp [filled, heq, hne]

theorem filled_address (held builtin : String) (default : Option String) :
    [if held = builtin then default.getD held else held] =
      filled default.toList [held] [builtin] := by
  simpa using @filled_name String _ id (fun _ _ h => h) held builtin default

theorem QueryScope.name_injective (a b : QueryScope) (h : a.name = b.name) : a = b := by
  cases a <;> cases b <;> first | rfl | exact absurd h (by decide)

theorem OutputFormat.name_injective (a b : OutputFormat) (h : a.name = b.name) : a = b := by
  cases a <;> cases b <;> first | rfl | exact absurd h (by decide)

namespace Config

variable {config : Config}

theorem defaultFor_eq_nil {n : CommandName} {o : OptionName} (h : config.Proper)
    (ho : o ∉ n.configured) (hne : o ≠ .server) : config.defaultFor n o = [] := by
  have hgives : (config.sectionOf n).Gives n.configured := by
    cases n with
    | resolve => exact h.resolve
    | clean => exact h.clean
    | docstring => exact h.docstring
    | backends => exact gives_empty
    | serve => exact h.serve
  rw [defaultFor, hgives.setting ho]
  exact hne

theorem filled_server (config : Config) (s : Section) (o : ServerOptions) :
    (config.fillServer s o).server.toList =
      filled (s.server.or config.http.server).toList o.server.toList [] := by
  rw [fillServer, Option.or_assoc]
  exact filled_or _ _

theorem setting_fill (h : config.Proper) (c : Command) (o : OptionName) :
    (config.fill c).setting o = filled (config.defaultFor c.name o) (c.setting o) o.builtin := by
  -- What a section does not give is left as it is, whether the command has the option or not.
  cases c with
  | resolve cursor format server =>
      cases o with
      | backend => exact filled_or _ _
      | scope => exact filled_name QueryScope.name_injective _ _ _
      | format => exact filled_name OutputFormat.name_injective _ _ _
      | server => exact filled_server _ _ _
      | noServer => exact filled_flag _ _
      | _ => exact filled_none (defaultFor_eq_nil (n := .resolve) h (by decide) (by decide))
  | clean options format server =>
      cases o with
      | backend => exact filled_or _ _
      | scope => exact filled_name QueryScope.name_injective _ _ _
      | format => exact filled_name OutputFormat.name_injective _ _ _
      | skip => exact filled_skip _ _
      | server => exact filled_server _ _ _
      | noServer => exact filled_flag _ _
      | _ => exact filled_none (defaultFor_eq_nil (n := .clean) h (by decide) (by decide))
  | docstring options format server =>
      cases o with
      | backend => exact filled_or _ _
      | scope => exact filled_name QueryScope.name_injective _ _ _
      | onNewLine => exact filled_flag _ _
      | server => exact filled_server _ _ _
      | noServer => exact filled_flag _ _
      | _ => exact filled_none (defaultFor_eq_nil (n := .docstring) h (by decide) (by decide))
  | backends format server =>
      cases o with
      | server => exact filled_server _ {} _
      | noServer => exact filled_flag _ _
      | _ => exact filled_none rfl
  | serve address =>
      cases o with
      | address => exact filled_address _ _ _
      | server => exact filled_none rfl
      | _ => exact filled_none (defaultFor_eq_nil (n := .serve) h (by decide) (by decide))

theorem filled_eq_iff {default held builtin : List String} :
    filled default held builtin = held ↔
      ¬(held = builtin ∧ default ≠ [] ∧ default ≠ builtin) := by
  unfold filled
  grind

/-- Only a scope, a format or an address that is given can be what is built in. -/
theorem mem_of_setting_eq_builtin {n : CommandName} {g : Given} {o : OptionName}
    (ho : g.has o = true) (heq : g.setting o = o.builtin) (hne : config.defaultFor n o ≠ []) :
    o ∈ [.scope, .format, .address] := by
  cases o with
  | scope | format | address => decide
  | backend | skip | onNewLine | server | noServer =>
      exact absurd heq (Given.setting_ne_nil ho (by decide))
  | line | character | text | textFile | write => exact absurd rfl hne

theorem configured_subset (n : CommandName) : n.configured ⊆ n.options := by
  cases n <;> decide

theorem mem_options_of_defaultFor {n : CommandName} {o : OptionName} (h : config.Proper)
    (hne : config.defaultFor n o ≠ []) : o ∈ n.options := by
  by_cases ho : o ∈ n.configured
  · exact configured_subset n ho
  · obtain rfl : o = .server :=
      Classical.byContradiction fun hserver => hne (defaultFor_eq_nil h ho hserver)
    cases n with
    | serve => exact absurd rfl hne
    | _ => decide

theorem server_fill {c : Command} (h : c.name ≠ .serve) :
    (config.fill c).server = config.fillServer (config.sectionOf c.name) c.server := by
  cases c with
  | serve address => exact absurd rfl h
  | _ => rfl

theorem url?_fill {c : Command} {url : String} (h : c.server.server = some url) :
    (config.fill c).server.url? =
      if config.defaultFor c.name .noServer = [] then c.server.url? else none := by
  have hname : c.name ≠ .serve := by
    cases c with
    | serve address => cases h
    | _ => nofun
  rw [server_fill hname, ServerOptions.url?, ServerOptions.url?, fillServer, h, defaultFor,
    Section.setting]
  · cases (config.sectionOf c.name).noServer with
    | true =>
        rw [Bool.or_true]
        exact (if_neg (List.cons_ne_nil _ _)).symm
    | false =>
        rw [Bool.or_false]
        exact (if_pos rfl).symm
  · nofun

end Config

/-- What the arguments give an option is kept unless it is a scope, a format or an address, is what
is built in, and another default is given; other options take their default. A server that is given
is asked as it would be without a configuration just if the section does not say to ask none. -/
theorem given_kept_iff {w : World} {args : List String} {c : Command} {config : Config}
    (hargs : Demand.ofArguments w.serverUrl args = .ok (.command c))
    (hconfig : w.config = .ok config) :
    ∃ rest g, args = c.name.name :: rest ∧ collect c.name {} rest = .ok g ∧
      (∀ o, g.has o = true → c.setting o = g.setting o ∧
        ((config.fill c).setting o = g.setting o ↔
          ¬(o ∈ [.scope, .format, .address] ∧ g.setting o = o.builtin ∧
            config.defaultFor c.name o ≠ [] ∧ config.defaultFor c.name o ≠ o.builtin))) ∧
      (∀ o, g.has o = false → (config.fill c).setting o =
        if config.defaultFor c.name o = [] ∨ (o = .server ∧ w.serverUrl ≠ none) then c.setting o
        else config.defaultFor c.name o) ∧
      (g.has .server = true → ((config.fill c).server.url? = c.server.url? ↔
        g.has .noServer = true ∨ config.defaultFor c.name .noServer = [])) := by
  have hproper := Config.proper_config hconfig
  obtain ⟨rest, g, hrest, hcollect, hc⟩ := given_of_ofArguments hargs
  have hg : g.Proper c.name := proper_collect (fun p hp => absurd hp List.not_mem_nil) hcollect
  have hsetting := setting_of_given hc hg
  refine ⟨rest, g, hrest, hcollect, ?given, ?other, ?server⟩
  case given =>
    intro o ho
    rw [Config.setting_fill hproper, (hsetting o).1 ho]
    refine ⟨rfl, Config.filled_eq_iff.trans (not_congr ⟨fun h => ?_, And.right⟩)⟩
    exact ⟨Config.mem_of_setting_eq_builtin ho h.1 h.2.1, h⟩
  case other =>
    intro o ho
    rw [Config.setting_fill hproper]
    by_cases hnone : config.defaultFor c.name o = []
    · rw [if_pos (.inl hnone), ← filled_none hnone]
    · rw [(hsetting o).2 ho (Config.mem_options_of_defaultFor hproper hnone)]
      by_cases hserver : o = .server
      · subst hserver
        cases hurl : w.serverUrl with
        | none => simp [filled, hnone, OptionName.builtin]
        | some url => simp [filled, OptionName.builtin]
      · simp [filled, hnone, hserver]
  case server =>
    intro ho
    obtain ⟨url, hurl⟩ := Given.value?_of_has ho
    have hserver := (hsetting .server).1 ho
    have hheld : c.server.server = some url := by
      have hvalue : g.setting .server = (g.value? .server).toList := rfl
      rw [hvalue, hurl] at hserver
      exact Option.toList_eq_singleton_iff.1 hserver
    have hnoServer : c.server.noServer = g.has .noServer :=
      noServer_of_given hc (Given.proper_value? hg hurl).1
    rw [Config.url?_fill hheld, ServerOptions.url?, hnoServer, hheld]
    cases g.has .noServer with
    | true => simp
    | false => simp

theorem given_kept_iff_method :
    ∃ w : World, ∃ c config rest g,
      w.files = [([".docres", "config.toml"], some "[resolve]\nscope = \"class\"\n".toList)] ∧
      Demand.ofArguments w.serverUrl ["resolve", "m.py", "-l", "1", "--scope=module"] =
        .ok (.command c) ∧
      w.config = .ok config ∧
      ["resolve", "m.py", "-l", "1", "--scope=module"] = c.name.name :: rest ∧
      collect c.name {} rest = .ok g ∧ g.setting .scope = ["module"] ∧
      (config.fill c).setting .scope = g.setting .scope := by
  let w : World := {
    files := [([".docres", "config.toml"], some "[resolve]\nscope = \"class\"\n".toList)]
    here := [] }
  have hargs : Demand.ofArguments w.serverUrl ["resolve", "m.py", "-l", "1", "--scope=module"] =
      .ok (.command (.resolve { file := "m.py", line := 1, scope := .module } .text {})) :=
    toOption_eq_some.1 (by decide +kernel)
  have hconfig : w.config = .ok { resolve := { scope := some .classDef } } :=
    toOption_eq_some.1 (by decide +kernel)
  obtain ⟨rest, g, hrest, hcollect, hgiven, -⟩ := given_kept_iff hargs hconfig
  obtain rfl : rest = ["m.py", "-l", "1", "--scope=module"] := (List.cons.inj hrest).2.symm
  have hg : collect .resolve {} ["m.py", "-l", "1", "--scope=module"] = .ok
      { values := [(.line, "1"), (.scope, "module")], file := some "m.py" } :=
    toOption_eq_some.1 (by decide +kernel)
  obtain rfl := Except.ok.inj (hcollect.symm.trans hg)
  obtain ⟨-, hkept⟩ := hgiven .scope (by decide)
  exact ⟨w, _, _, _, _, rfl, hargs, hconfig, hrest, hcollect, by decide, hkept.2 (by decide)⟩

/-- A scope that is given gives way to another one because it is the one built in. -/
theorem given_lost_reachable :
    ∃ w : World, ∃ c config,
      w.files = [([".docres", "config.toml"], some "[resolve]\nscope = \"class\"\n".toList)] ∧
      Demand.ofArguments w.serverUrl ["resolve", "m.py", "-l", "1", "--scope", "context"] =
        .ok (.command c) ∧
      w.config = .ok config ∧ c.setting .scope = ["context"] ∧
      (config.fill c).setting .scope = ["class"] := by
  let w : World := {
    files := [([".docres", "config.toml"], some "[resolve]\nscope = \"class\"\n".toList)]
    here := [] }
  have hargs : Demand.ofArguments w.serverUrl ["resolve", "m.py", "-l", "1", "--scope", "context"] =
      .ok (.command (.resolve { file := "m.py", line := 1 } .text {})) :=
    toOption_eq_some.1 (by decide +kernel)
  have hconfig : w.config = .ok { resolve := { scope := some .classDef } } :=
    toOption_eq_some.1 (by decide +kernel)
  exact ⟨w, _, _, rfl, hargs, hconfig, by decide, by decide⟩

end DocstringEditor.CommandLine
