import DocstringEditor.CommandLine.Address
import DocstringEditor.CommandLine.Arguments
import DocstringEditor.CommandLine.Config
import DocstringEditor.CommandLine.Report
import DocstringEditor.Wire.Request

namespace DocstringEditor.CommandLine

inductive Failure
  | invalidConfig (path : String)
  | unreadableConfig (path : String)
  | unreadableSource (path : String)
  | unreadableDocstring (path : String)
  | noDocstring
  | unreachable (url : String)
  | request (e : RequestError)
  | unwritable (path : String)
  | invalidAddress (address : String)
  | notListening (address : String)
  deriving DecidableEq, Repr

def Failure.message : Failure → String
  | invalidConfig path => s!"failed to parse TOML config at {path}"
  | unreadableConfig path => s!"failed to read config file at {path}"
  | unreadableSource path => s!"failed to read source file {path}"
  | unreadableDocstring path => s!"failed to read docstring file {path}"
  | noDocstring => "either --text or --text-file is required"
  | unreachable url => s!"failed to send request to {url}"
  | request e => e.message
  | unwritable path => s!"failed to write {path}"
  | invalidAddress address => s!"invalid listen address {address}"
  | notListening address => s!"failed to listen on {address}"

inductive Outcome
  | done (stdout : Text)
  | failed (f : Failure)
  | panicked
  | usage
  deriving DecidableEq, Repr

namespace Outcome

def code : Outcome → Nat
  | done _ => 0
  | failed _ => 1
  | panicked => 101
  | usage => 2

def stdout : Outcome → Text
  | done t => t
  | _ => []

def errorText : Outcome → Option String
  | failed f => some s!"Error: {f.message}"
  | _ => none

end Outcome

/-- A part of a run, which may change the files, also where it fails. -/
abbrev Run := ExceptT (Halt Failure) (StateM World)

namespace Run

def look {α : Type} (x : World → Except Failure α) : Run α := fun w =>
  ((x w).mapError .error, w)

def ask {α : Type} (x : Except (Halt RequestError) α) : Run α := fun w =>
  (x.mapError (.map .request), w)

def write (path : String) (t : Text) : Run Unit := do
  let w ← get
  match w.locate? path with
  | some p => set { w with files := w.written p t }
  | none => throw (.error (.unwritable path))

end Run

def CursorOptions.query (w : World) (o : CursorOptions) : Except Failure Query :=
  match w.read? o.file with
  | some source => .ok { source, position := ⟨o.line, o.character⟩, backend := o.backend,
                         scope := o.scope }
  | none => .error (.unreadableSource o.file)

def CleanOptions.request (w : World) (o : CleanOptions) : Except Failure CleanRequest := do
  let names := (o.skip.map fun name => Text.trim name.toList).filter (!·.isEmpty)
  return { query := ← o.cursor.query w, skip := names.map String.ofList }

def DocstringOptions.docstring (w : World) (o : DocstringOptions) : Except Failure Text :=
  match o.text, o.textFile with
  | some t, _ => .ok t.toList
  | none, some path =>
    match w.read? path with
    | some t => .ok t
    | none => .error (.unreadableDocstring path)
  | none, none => .error .noDocstring

def DocstringOptions.request (w : World) (o : DocstringOptions) :
    Except Failure DocstringRequest := do
  let docstring ← o.docstring w
  return { query := ← o.cursor.query w, docstring, onNewLine := o.onNewLine }

def ServerOptions.url? (o : ServerOptions) : Option String :=
  if o.noServer then none else o.server

def routeUrl (base route : String) : String :=
  String.ofList (base.toList.reverse.dropWhile (· = '/')).reverse ++ route

/-- Only a request that no server is to answer is answered here. -/
def ServerOptions.require (o : ServerOptions) (route : String) : Except Failure Unit :=
  match o.url? with
  | some base => .error (.unreachable (routeUrl base route))
  | none => .ok ()

def jsonLine (v : Json) : Text := v.text ++ ['\n']

def docstringReport (o : DocstringOptions) (a : DocstringAnswer) : Text :=
  if o.write then reportLine s!"Updated docstring of {a.name} in {o.cursor.file}" else a.patched

variable (parse : Analysis.Parse)

def Command.run : Command → Run Text
  | .resolve o format server => do
    let q ← .look o.query
    .look fun _ => server.require "/v1/resolve"
    let a ← .ask ((q.resolve parse).mapError .error)
    return if format = .json then jsonLine a.toJson else resolveReport a
  | .clean o format server => do
    let r ← .look o.request
    .look fun _ => server.require "/v1/clean"
    let a ← .ask ((r.run parse).mapError .error)
    return if format = .json then jsonLine a.toJson else cleanReport a
  | .docstring o format server => do
    let r ← .look o.request
    .look fun _ => server.require "/v1/docstring/edit"
    let a ← .ask (r.run parse)
    if o.write then .write o.cursor.file a.patched
    return if format = .json then jsonLine a.toJson else docstringReport o a
  | .backends format server => do
    .look fun _ => server.require "/v1/backends"
    return if format = .json then jsonLine backendsJson else backendsReport
  | .serve address =>
    throw (.error (if Address.isValid address then .notListening address else .invalidAddress address))

def World.config (w : World) : Except Failure Config :=
  match Config.find? w with
  | none => .ok {}
  | some p =>
    match w.textAt? p with
    | none => .error (.unreadableConfig (w.pathText p))
    | some t =>
      match Config.ofText? t with
      | some c => .ok c
      | none => .error (.invalidConfig (w.pathText p))

def usageText : Text :=
  "Usage: [--schema-version] <resolve|clean|docstring|backends|serve> [OPTIONS]\n".toList

/-- The schema version is printed whatever the configuration is. -/
def Demand.run : Demand → Run Text
  | .schemaVersion => return reportLine s!"Entity result JSON schema version: {protocolVersion}"
  | .help => do
    let _ ← .look World.config
    return usageText
  | .command c => do ((← .look World.config).fill c).run parse

def run (w : World) (args : List String) : Outcome × World :=
  match Demand.ofArguments w.serverUrl args with
  | .error .usage => (.usage, w)
  | .error .help => (.done usageText, w)
  | .ok d =>
    match d.run parse w with
    | (.ok t, w) => (.done t, w)
    | (.error (.error f), w) => (.failed f, w)
    | (.error .panic, w) => (.panicked, w)

def Command.paths : Command → List String
  | .resolve o _ _ => [o.file]
  | .clean o _ _ => [o.cursor.file]
  | .docstring o _ _ => o.cursor.file :: o.textFile.toList
  | .backends _ _ | .serve _ => []

def Demand.paths : Demand → List String
  | .command c => c.paths
  | _ => []

end DocstringEditor.CommandLine
