import DocstringEditor.CommandLine.Arguments
import DocstringEditor.Proofs.Outcome

namespace DocstringEditor.CommandLine

open Analysis (QueryScope)

def flag (b : Bool) : List String := if b then [""] else []

theorem flag_injective {a b : Bool} (h : flag a = flag b) : a = b := by
  cases a <;> cases b <;> first | rfl | cases h

namespace Command

def name : Command → CommandName
  | resolve _ _ _ => .resolve
  | clean _ _ _ => .clean
  | docstring _ _ _ => .docstring
  | backends _ _ => .backends
  | serve _ => .serve

@[simp] def cursor? : Command → Option CursorOptions
  | resolve o _ _ => some o
  | clean o _ _ => some o.cursor
  | docstring o _ _ => some o.cursor
  | backends _ _ | serve _ => none

@[simp] def format? : Command → Option OutputFormat
  | resolve _ format _ | clean _ format _ | docstring _ format _ | backends format _ => some format
  | serve _ => none

@[simp] def server : Command → ServerOptions
  | resolve _ _ server | clean _ _ server | docstring _ _ server | backends _ server => server
  | serve _ => {}

def setting (c : Command) : OptionName → List String
  | .backend => (c.cursor?.bind (·.backend)).toList
  | .scope => (c.cursor?.map (·.scope.name)).toList
  | .format => (c.format?.map (·.name)).toList
  | .server => c.server.server.toList
  | .noServer => flag c.server.noServer
  | .skip =>
    match c with
    | clean o _ _ => o.skip
    | _ => []
  | .onNewLine =>
    match c with
    | docstring o _ _ => flag o.onNewLine
    | _ => []
  | .address =>
    match c with
    | serve address => [address]
    | _ => []
  | .line | .character | .text | .textFile | .write => []

end Command

/-- The setting that an option has if nothing is said about it. -/
def OptionName.builtin : OptionName → List String
  | scope => [QueryScope.context.name]
  | format => [OutputFormat.text.name]
  | address => [defaultAddress]
  | _ => []

namespace Given

def setting (g : Given) : OptionName → List String
  | .skip => g.skip
  | .noServer => flag (g.has .noServer)
  | .onNewLine => flag (g.has .onNewLine)
  | .line | .character | .text | .textFile | .write => []
  | o => (g.value? o).toList

def held (g : Given) (serverUrl : Option String) : OptionName → List String
  | .scope => [g.scope.name]
  | .format => [g.format.name]
  | .server => (g.server serverUrl).server.toList
  | .address => [(g.value? .address).getD defaultAddress]
  | o => g.setting o

/-- Whether all options that are given are options of a command and have values that they accept. -/
def Proper (c : CommandName) (g : Given) : Prop :=
  ∀ p ∈ g.values, p.1 ∈ c.options ∧ p.1.accepts p.2 = true

end Given

variable {n : CommandName} {g g' : Given} {c : Command} {o : OptionName} {serverUrl : Option String}

theorem Named.option?_mem {named : Named} {attached : Option Text}
    (h : named.option? n = some (o, attached)) : o ∈ n.options := by
  unfold Named.option? at h
  split at h
  · obtain ⟨o', ho', heq⟩ := Option.map_eq_some_iff.1 h
    obtain ⟨rfl, -⟩ := Prod.mk.inj heq
    exact List.mem_of_find?_eq_some ho'
  · obtain ⟨o', ho', heq⟩ := Option.map_eq_some_iff.1 h
    obtain ⟨rfl, -⟩ := Prod.mk.inj heq
    exact List.mem_of_find?_eq_some ho'
  · cases h

namespace Given

theorem proper_add {v : String} (hproper : g.Proper n) (ho : o ∈ n.options)
    (h : g.add o v = .ok g') : g'.Proper n := by
  unfold add at h
  split at h
  · cases h
  · next haccepts =>
      obtain rfl := Except.ok.inj h
      intro p hp
      rcases List.mem_append.1 hp with hp | hp
      · exact hproper p hp
      · obtain rfl := List.mem_singleton.1 hp
        rw [Bool.or_eq_true, not_or, Bool.not_eq_true', Bool.not_eq_false] at haccepts
        exact ⟨ho, haccepts.2⟩

theorem values_addFile {file : String} (h : g.addFile n file = .ok g') : g'.values = g.values := by
  unfold addFile at h
  split at h
  · cases h
  · obtain rfl := Except.ok.inj h
    rfl

theorem values_addFiles {files : List String} (h : files.foldlM (addFile n) g = .ok g') :
    g'.values = g.values := by
  induction files generalizing g with
  | nil =>
      obtain rfl := Except.ok.inj h
      rfl
  | cons file files ih =>
      obtain ⟨g₁, hg₁, h⟩ := bind_eq_ok.1 h
      exact (ih h).trans (values_addFile hg₁)

end Given

theorem proper_collect {args : List String} (hproper : g.Proper n)
    (h : collect n g args = .ok g') : g'.Proper n := by
  fun_induction collect n g args with
  | case1 g =>
      obtain rfl := Except.ok.inj h
      exact hproper
  | case2 g arg rest =>
      rw [Given.Proper, Given.values_addFiles h]
      exact hproper
  | case3 g arg rest hname ih =>
      obtain ⟨g₁, hg₁, h⟩ := bind_eq_ok.1 h
      refine ih g₁ ?_ h
      rw [Given.Proper, Given.values_addFile hg₁]
      exact hproper
  | case6 g arg rest o v _ _ _ _ hoption ih =>
      obtain ⟨g₁, hg₁, h⟩ := bind_eq_ok.1 h
      exact ih g₁ (Given.proper_add hproper (Named.option?_mem hoption) hg₁) h
  | case8 g arg rest o _ _ _ _ hoption ih =>
      obtain ⟨g₁, hg₁, h⟩ := bind_eq_ok.1 h
      exact ih g₁ (Given.proper_add hproper (Named.option?_mem hoption) hg₁) h
  | case9 g arg o _ v rest _ _ _ _ hoption ih =>
      obtain ⟨g₁, hg₁, h⟩ := bind_eq_ok.1 h
      exact ih g₁ (Given.proper_add hproper (Named.option?_mem hoption) hg₁) h
  | _ => cases h

theorem QueryScope.name_of_ofName? {s : String} {scope : QueryScope}
    (h : QueryScope.ofName? s = some scope) : scope.name = s := by
  have hname := List.find?_some h
  exact of_decide_eq_true hname

theorem OutputFormat.name_of_ofName? {s : String} {format : OutputFormat}
    (h : OutputFormat.ofName? s = some format) : format.name = s := by
  have hname := List.find?_some h
  exact of_decide_eq_true hname

namespace Given

theorem proper_value? {v : String} (hproper : g.Proper n) (h : g.value? o = some v) :
    o ∈ n.options ∧ o.accepts v = true := by
  obtain ⟨front, back, hvalues, -⟩ := List.lookup_eq_some_iff.1 h
  exact hproper (o, v) (by rw [hvalues]; simp)

theorem value?_of_has (h : g.has o = true) : ∃ v, g.value? o = some v :=
  Option.isSome_iff_exists.1 h

theorem value?_of_not_has (h : g.has o = false) : g.value? o = none :=
  Option.isSome_eq_false_iff.1 h |> Option.isNone_iff_eq_none.1

theorem skip_of_not_has (h : g.has .skip = false) : g.skip = [] := by
  have hnone := List.lookup_eq_none_iff.1 (value?_of_not_has h)
  have hfilter : g.values.filter (·.1 = .skip) = [] := by
    rw [List.filter_eq_nil_iff]
    intro p hp heq
    exact absurd (of_decide_eq_true heq).symm (by simpa using hnone p hp)
  rw [skip, hfilter]
  rfl

theorem splitOn_ne_nil (separator : Char) (t : Text) : Text.splitOn separator t ≠ [] := by
  cases t with
  | nil => nofun
  | cons c t =>
      rw [Text.splitOn]
      split
      · nofun
      · split <;> nofun

theorem skip_ne_nil (h : g.has .skip = true) : g.skip ≠ [] := by
  obtain ⟨v, hv⟩ := value?_of_has h
  obtain ⟨front, back, hvalues, -⟩ := List.lookup_eq_some_iff.1 hv
  have hmem : (OptionName.skip, v) ∈ g.values.filter (·.1 = .skip) := by simp [hvalues]
  obtain ⟨name, hname⟩ := List.exists_mem_of_ne_nil _ (splitOn_ne_nil ',' v.toList)
  exact List.ne_nil_of_mem (List.mem_flatMap.2 ⟨_, hmem, List.mem_map_of_mem hname⟩)

/-- Where nothing is built in, what is given can be told from it. -/
theorem setting_ne_nil (h : g.has o = true)
    (ho : o ∈ [.backend, .skip, .onNewLine, .server, .noServer]) : g.setting o ≠ [] := by
  obtain ⟨v, hv⟩ := value?_of_has h
  simp only [List.mem_cons, List.not_mem_nil, or_false] at ho
  rcases ho with rfl | rfl | rfl | rfl | rfl
  · simp [setting, hv]
  · exact skip_ne_nil h
  · simp [setting, h, flag]
  · simp [setting, hv]
  · simp [setting, h, flag]

theorem held_of_has (hproper : g.Proper n) (h : g.has o = true) :
    g.held serverUrl o = g.setting o := by
  obtain ⟨v, hv⟩ := value?_of_has h
  have haccepts := (proper_value? hproper hv).2
  cases o with
  | scope =>
      obtain ⟨scope, hscope⟩ := Option.isSome_iff_exists.1 haccepts
      have hname := QueryScope.name_of_ofName? hscope
      simp [held, setting, Given.scope, hv, hscope, hname]
  | format =>
      obtain ⟨format, hformat⟩ := Option.isSome_iff_exists.1 haccepts
      have hname := OutputFormat.name_of_ofName? hformat
      simp [held, setting, Given.format, hv, hformat, hname]
  | server => simp [held, setting, Given.server, hv]
  | address => simp [held, setting, hv]
  | _ => rfl

theorem held_of_not_has (h : g.has o = false) :
    g.held serverUrl o = if o = .server then serverUrl.toList else o.builtin := by
  have hv := value?_of_not_has h
  cases o with
  | scope => simp [held, OptionName.builtin, Given.scope, hv]
  | format => simp [held, OptionName.builtin, Given.format, hv]
  | server => simp [held, Given.server, hv]
  | address => simp [held, OptionName.builtin, hv]
  | skip => simp [held, setting, OptionName.builtin, skip_of_not_has h]
  | backend => simp [held, setting, OptionName.builtin, hv]
  | noServer => simp [held, setting, OptionName.builtin, h, flag]
  | onNewLine => simp [held, setting, OptionName.builtin, h, flag]
  | _ => rfl

end Given

theorem Given.cursor_eq_ok {cursor : CursorOptions} (h : g.cursor = .ok cursor) :
    cursor.backend = g.value? .backend ∧ cursor.scope = g.scope := by
  obtain ⟨file, -, h⟩ := bind_eq_ok.1 h
  obtain ⟨line, -, h⟩ := bind_eq_ok.1 h
  obtain rfl := Except.ok.inj h
  exact ⟨rfl, rfl⟩

theorem setting_ofGiven (h : Command.ofGiven n g serverUrl = .ok c) :
    c.name = n ∧ ∀ o, c.setting o = if o ∈ n.options then g.held serverUrl o else [] := by
  cases n with
  | resolve | clean =>
      obtain ⟨cursor, hcursor, h⟩ := bind_eq_ok.1 h
      obtain rfl := Except.ok.inj h
      obtain ⟨hbackend, hscope⟩ := Given.cursor_eq_ok hcursor
      refine ⟨rfl, fun o => ?_⟩
      cases o <;>
        simp [Command.setting, Given.held, Given.setting, CommandName.options,
          CommandName.cursorOptions, CommandName.outputOptions, hbackend, hscope, Given.server]
  | docstring =>
      rw [Command.ofGiven] at h
      split at h
      · cases h
      · obtain ⟨cursor, hcursor, h⟩ := bind_eq_ok.1 h
        obtain rfl := Except.ok.inj h
        obtain ⟨hbackend, hscope⟩ := Given.cursor_eq_ok hcursor
        refine ⟨rfl, fun o => ?_⟩
        cases o <;>
          simp [Command.setting, Given.held, Given.setting, CommandName.options,
            CommandName.cursorOptions, CommandName.outputOptions, hbackend, hscope, Given.server]
  | backends =>
      obtain rfl := Except.ok.inj h
      refine ⟨rfl, fun o => ?_⟩
      cases o <;>
        simp [Command.setting, Given.held, Given.setting, CommandName.options,
          CommandName.outputOptions, Given.server]
  | serve =>
      obtain rfl := Except.ok.inj h
      refine ⟨rfl, fun o => ?_⟩
      cases o <;>
        simp [Command.setting, Given.held, CommandName.options, flag]

theorem CommandName.name_of_ofName? {s : String} (h : CommandName.ofName? s = some n) :
    n.name = s := by
  have hname := List.find?_some h
  exact of_decide_eq_true hname

theorem given_of_ofArguments {args : List String}
    (h : Demand.ofArguments serverUrl args = .ok (.command c)) :
    ∃ rest g, args = c.name.name :: rest ∧ collect c.name {} rest = .ok g ∧
      Command.ofGiven c.name g serverUrl = .ok c := by
  unfold Demand.ofArguments at h
  split at h
  · cases h
  · cases h
  · split at h
    · cases h
    · split at h
      · cases h
      · obtain ⟨c', -, h⟩ := bind_eq_ok.1 h
        cases h
  · next arg rest _ _ =>
      split at h
      · cases h
      · obtain ⟨c', hc', h⟩ := map_eq_ok.1 h
        obtain rfl := Demand.command.inj h
        unfold Command.ofArguments at hc'
        split at hc'
        · cases hc'
        · next name rest' heq =>
            obtain ⟨rfl, rfl⟩ := List.cons.inj heq
            split at hc'
            · next n hn =>
                obtain ⟨g, hg, hc'⟩ := bind_eq_ok.1 hc'
                obtain ⟨rfl, -⟩ := setting_ofGiven hc'
                exact ⟨rest, g, by rw [CommandName.name_of_ofName? hn], hg, hc'⟩
            · cases hc'

/-- Options that are given are held as they are given; a server may come from the environment
instead, and other options are at what is built in. -/
theorem setting_of_given (h : Command.ofGiven c.name g serverUrl = .ok c)
    (hproper : g.Proper c.name) (o : OptionName) :
    (g.has o = true → c.setting o = g.setting o) ∧
      (g.has o = false → o ∈ c.name.options →
        c.setting o = if o = .server then serverUrl.toList else o.builtin) := by
  have hsetting := (setting_ofGiven h).2 o
  constructor
  · intro hhas
    obtain ⟨v, hv⟩ := Given.value?_of_has hhas
    rw [hsetting, if_pos (Given.proper_value? hproper hv).1, Given.held_of_has hproper hhas]
  · intro hhas ho
    rw [hsetting, if_pos ho, Given.held_of_not_has hhas]

theorem noServer_of_given (h : Command.ofGiven c.name g serverUrl = .ok c)
    (hserver : .server ∈ c.name.options) : c.server.noServer = g.has .noServer := by
  have hoption : .noServer ∈ c.name.options := by
    revert hserver
    cases c.name <;> decide
  have hsetting := (setting_ofGiven h).2 .noServer
  rw [if_pos hoption] at hsetting
  exact flag_injective hsetting

end DocstringEditor.CommandLine
