import DocstringEditor.CommandLine.Options

namespace DocstringEditor.CommandLine

open Analysis (QueryScope)

structure Given where
  values : List (OptionName × String) := []
  file : Option String := none
  deriving DecidableEq, Repr

namespace Given

def value? (g : Given) (o : OptionName) : Option String := g.values.lookup o

def has (g : Given) (o : OptionName) : Bool := (g.value? o).isSome

def add (g : Given) (o : OptionName) (v : String) : Except Refusal Given :=
  if (g.has o && !o.repeats) || !o.accepts v then .error .usage
  else .ok { g with values := g.values ++ [(o, v)] }

def addFile (c : CommandName) (g : Given) (file : String) : Except Refusal Given :=
  if !c.takesFile || g.file.isSome || file = "" then .error .usage
  else .ok { g with file := some file }

end Given

def isValue (arg : String) : Bool :=
  match arg.toList with
  | '-' :: _ :: _ => false
  | _ => true

inductive Named
  | long (name : Text) (attached : Option Text)
  | short (name : Char) (attached : Option Text)
  | separator
  | positional

namespace Named

def afterEquals? (t : Text) : Option Text :=
  match t.dropWhile (· ≠ '=') with
  | [] => none
  | _ :: v => some v

def ofArgument (arg : String) : Named :=
  match arg.toList with
  | ['-', '-'] => separator
  | '-' :: '-' :: t => long (t.takeWhile (· ≠ '=')) (afterEquals? t)
  | ['-', c] => short c none
  | '-' :: c :: '=' :: v => short c (some v)
  | '-' :: c :: v => short c (some v)
  | _ => positional

def asksForHelp : Named → Bool
  | long name attached => name = "help".toList && attached.isNone
  | short name _ => name = 'h'
  | _ => false

def option? (c : CommandName) : Named → Option (OptionName × Option Text)
  | long name attached =>
    (c.options.find? (·.long.toList = name)).map fun o => (o, attached)
  | short name attached => (c.options.find? (·.short? = some name)).map fun o => (o, attached)
  | _ => none

end Named

def collect (c : CommandName) : Given → List String → Except Refusal Given
  | g, [] => .ok g
  | g, arg :: rest =>
    match Named.ofArgument arg with
    | .separator => rest.foldlM (Given.addFile c) g
    | .positional => do collect c (← g.addFile c arg) rest
    | named =>
      if named.asksForHelp then .error .help
      else match named.option? c with
        | none => .error .usage
        | some (o, some v) =>
          if o.takesValue then do collect c (← g.add o (String.ofList v)) rest
          else .error .usage
        | some (o, none) =>
          if !o.takesValue then do collect c (← g.add o "") rest
          else match rest with
            | v :: rest =>
              if isValue v then do collect c (← g.add o v) rest else .error .usage
            | [] => .error .usage

namespace Given

def required {α : Type} : Option α → Except Refusal α
  | some a => .ok a
  | none => .error .usage

def scope (g : Given) : QueryScope := ((g.value? .scope).bind QueryScope.ofName?).getD .context

def format (g : Given) : OutputFormat := ((g.value? .format).bind OutputFormat.ofName?).getD .text

def cursor (g : Given) : Except Refusal CursorOptions := do
  return {
    file := ← required g.file
    line := ← required ((g.value? .line).bind word?)
    character := ((g.value? .character).bind word?).getD 0
    backend := g.value? .backend
    scope := g.scope }

/-- A server on the command line goes before the one of the environment. -/
def server (g : Given) (fromEnvironment : Option String) : ServerOptions :=
  { server := (g.value? .server).or fromEnvironment, noServer := g.has .noServer }

def skip (g : Given) : List String :=
  (g.values.filter (·.1 = .skip)).flatMap fun (_, v) =>
    (Text.splitOn ',' v.toList).map String.ofList

end Given

def Command.ofGiven (c : CommandName) (g : Given) (serverUrl : Option String) :
    Except Refusal Command := do
  let server := g.server serverUrl
  match c with
  | .resolve => return .resolve (← g.cursor) g.format server
  | .clean => return .clean { cursor := ← g.cursor, skip := g.skip } g.format server
  | .docstring =>
    if g.has .text && g.has .textFile then throw .usage
    let o : DocstringOptions := {
      cursor := ← g.cursor
      text := g.value? .text
      textFile := g.value? .textFile
      onNewLine := g.has .onNewLine
      write := g.has .write }
    return .docstring o g.format server
  | .backends => return .backends g.format server
  | .serve => return .serve ((g.value? .address).getD defaultAddress)

def Command.ofArguments (serverUrl : Option String) : List String → Except Refusal Command
  | [] => .error .help
  | name :: rest =>
    match CommandName.ofName? name with
    | some c => do Command.ofGiven c (← collect c {} rest) serverUrl
    | none => .error .usage

def isHelp (arg : String) : Bool := (Named.ofArgument arg).asksForHelp || arg = "help"

/-- What a command line asks for. Before the command it may ask for the schema version, once; then
the command is not run. -/
def Demand.ofArguments (serverUrl : Option String) : List String → Except Refusal Demand
  | [] => .ok .help
  | ["--"] => .ok .help
  | "--schema-version" :: rest =>
    if rest.isEmpty ∨ rest = ["--"] then .ok .schemaVersion
    else if isHelp (rest.headD "") then .error .help
    else do
      let _ ← Command.ofArguments serverUrl rest
      return .schemaVersion
  | arg :: rest =>
    if isHelp arg then .error .help else .command <$> Command.ofArguments serverUrl (arg :: rest)

end DocstringEditor.CommandLine
