import DocstringEditor.CommandLine.Files
import DocstringEditor.CommandLine.Options
import DocstringEditor.Toml.Reader

namespace DocstringEditor.CommandLine

open Analysis (QueryScope)

structure Section where
  backend : Option String := none
  scope : Option QueryScope := none
  format : Option OutputFormat := none
  skip : List String := []
  onNewLine : Bool := false
  server : Option String := none
  noServer : Bool := false
  address : Option String := none
  deriving DecidableEq, Repr

structure Config where
  resolve : Section := {}
  clean : Section := {}
  docstring : Section := {}
  serve : Section := {}
  http : Section := {}
  deriving DecidableEq, Repr

namespace Config

def string? : Toml → Option String
  | .string t => some (String.ofList t)
  | _ => none

def bool? : Toml → Option Bool
  | .bool b => some b
  | _ => none

def strings? : Toml → Option (List String)
  | .array items => items.mapM string?
  | _ => none

def isEmpty : Toml → Bool
  | .array [] | .table _ [] => true
  | _ => false

def named? {α : Type} (ofName? : String → Option α) : Toml → Option α
  | .string t => ofName? (String.ofList t)
  | .table _ [(name, v)] => if isEmpty v then ofName? name else none
  | _ => none

abbrev Entry (σ : Type) := String × (Toml → σ → Option σ)

def backendEntry : Entry Section :=
  ("backend", fun v s => do return { s with backend := some (← string? v) })

def scopeEntry : Entry Section :=
  ("scope", fun v s => do return { s with scope := some (← named? QueryScope.ofName? v) })

def formatEntry : Entry Section :=
  ("format", fun v s => do return { s with format := some (← named? OutputFormat.ofName? v) })

def skipEntry : Entry Section := ("skip", fun v s => do return { s with skip := ← strings? v })

def onNewLineEntry : Entry Section :=
  ("on_new_line", fun v s => do return { s with onNewLine := ← bool? v })

def serverEntry (name : String) : Entry Section :=
  (name, fun v s => do return { s with server := some (← string? v) })

def noServerEntry : Entry Section :=
  ("no_server", fun v s => do return { s with noServer := ← bool? v })

def addressEntry : Entry Section :=
  ("addr", fun v s => do return { s with address := some (← string? v) })

def decodeTable {σ : Type} (known : List (Entry σ)) (es : Toml.Entries) (start : σ) : Option σ :=
  es.foldlM (fun s (key, v) =>
    match known.lookup key with
    | some set => set v s
    | none => some s) start

/-- Decodes a section: a table, or an array of the values in the order of the keys. A date counts as
a table of other keys. -/
def section? (known : List (Entry Section)) : Toml → Option Section
  | .table _ es => decodeTable known es {}
  | .array items => (known.zip items).foldlM (fun s ((_, set), v) => set v s) {}
  | .tables items => (known.zip items.reverse).foldlM (fun s ((_, set), v) => set v s) {}
  | .date => some {}
  | _ => none

def resolveEntries : List (Entry Section) :=
  [backendEntry, scopeEntry, formatEntry, serverEntry "server", noServerEntry]

def cleanEntries : List (Entry Section) :=
  [backendEntry, skipEntry, formatEntry, serverEntry "server", noServerEntry]

def docstringEntries : List (Entry Section) :=
  [backendEntry, onNewLineEntry, serverEntry "server", noServerEntry]

def sectionEntries : List (Entry Config) :=
  [("resolve", fun v c => do return { c with resolve := ← section? resolveEntries v }),
   ("clean", fun v c => do return { c with clean := ← section? cleanEntries v }),
   ("docstring", fun v c => do return { c with docstring := ← section? docstringEntries v }),
   ("serve", fun v c => do return { c with serve := ← section? [addressEntry] v }),
   ("http", fun v c => do return { c with http := ← section? [serverEntry "server_url"] v })]

def ofText? (t : Text) : Option Config := do
  decodeTable sectionEntries (← Toml.ofText? t) {}

def placesIn (dir : Path) : List Path :=
  [dir ++ [".docres", "config.toml"], dir ++ [".docres", "docres.toml"]]

def upward (dir : Path) : List Path :=
  (List.range (dir.length + 1)).reverse.map (dir.take ·)

def places (dir : Path) : List Path := (upward dir).flatMap placesIn

def find? (w : World) : Option Path := (places w.here).find? w.isFile

def fillServer (c : Config) (s : Section) (o : ServerOptions) : ServerOptions :=
  { server := (o.server.or s.server).or c.http.server, noServer := o.noServer || s.noServer }

def fillFormat (s : Section) (f : OutputFormat) : OutputFormat :=
  if f = .text then s.format.getD f else f

def fillCursor (s : Section) (o : CursorOptions) : CursorOptions :=
  { o with
    backend := o.backend.or s.backend
    scope := if o.scope = .context then s.scope.getD o.scope else o.scope }

def fill (c : Config) : Command → Command
  | .resolve o format server =>
    .resolve (fillCursor c.resolve o) (fillFormat c.resolve format) (c.fillServer c.resolve server)
  | .clean o format server =>
    let o := { o with
      cursor := fillCursor c.clean o.cursor
      skip := if o.skip.isEmpty then c.clean.skip else o.skip }
    .clean o (fillFormat c.clean format) (c.fillServer c.clean server)
  | .docstring o format server =>
    let o := { o with
      cursor := fillCursor c.docstring o.cursor
      onNewLine := o.onNewLine || c.docstring.onNewLine }
    .docstring o format (c.fillServer c.docstring server)
  | .backends format server => .backends format (c.fillServer {} server)
  | .serve address =>
    .serve (if address = defaultAddress then c.serve.address.getD address else address)

end Config

end DocstringEditor.CommandLine
