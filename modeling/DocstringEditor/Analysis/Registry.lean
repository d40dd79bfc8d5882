import DocstringEditor.Analysis.Structural
import DocstringEditor.Analysis.Symbols

namespace DocstringEditor.Analysis

inductive Backend
  | structural
  | symbols
  deriving DecidableEq, Repr

def Backend.name : Backend → String
  | structural => "structural"
  | symbols => "symbols"

inductive QueryScope
  | context
  | function
  | classDef
  | module
  deriving DecidableEq, Repr

namespace QueryScope

def all : List QueryScope := [context, function, classDef, module]

def name : QueryScope → String
  | context => "context"
  | function => "function"
  | classDef => "class"
  | module => "module"

def ofName? (s : String) : Option QueryScope := all.find? (·.name = s)

end QueryScope

inductive Analyzer
  | structural (s : Source)
  | symbols (s : Source) (table : Symbols.ScopeTable)

namespace Analyzer

def create (parse : Parse) (b : Backend) (text : Text) : Except Error Analyzer := do
  let s ← Source.parse parse text
  match b with
  | .structural => return .structural s
  | .symbols => return .symbols s (← Symbols.build s)

def backend : Analyzer → Backend
  | structural _ => .structural
  | symbols _ _ => .symbols

def find (a : Analyzer) (scope : QueryScope) (cursor : DocumentPosition) :
    Except Error (Option Entity) :=
  match a with
  | structural s =>
    let last (kind : EntityKind) := Structural.findLast? cursor s.root kind
    match scope with
    | .context =>
      match Structural.innermost? cursor s.root with
      | some n => some <$> Structural.entityOf s n
      | none => .error (.internal .noModule)
    | .function => (last .functionDef).mapM (Structural.entityOf s)
    | .classDef => (last .classDef).mapM (Structural.entityOf s)
    | .module => some <$> Structural.entityOf s ((last .module).getD s.root)
  | symbols s table => do
    match scope with
    | .context => return some (← Symbols.entityOf s table (← Symbols.innermost table cursor))
    | .function =>
      (← Symbols.enclosing table cursor .functionDef).mapM (Symbols.entityOf s table)
    | .classDef => (← Symbols.enclosing table cursor .classDef).mapM (Symbols.entityOf s table)
    | .module => return some (← Symbols.entityOf s table 0)

def context (a : Analyzer) (cursor : DocumentPosition) : Except Error Entity := do
  match ← a.find .context cursor with
  | some e => return e
  | none => .error (.internal .noModule)

end Analyzer

/-- Backends, or what they are started from, and aliases by lower-case name. Later entries replace
earlier ones. -/
structure Registry (κ : Type := Backend) where
  backends : List (String × κ) := []
  aliases : List (String × String) := []

namespace Registry

variable {κ α : Type}

def insert (name : String) (value : α) : List (String × α) → List (String × α)
  | [] => [(name, value)]
  | (n, v) :: rest =>
    if name < n then (name, value) :: (n, v) :: rest
    else if name = n then (name, value) :: rest
    else (n, v) :: insert name value rest

def lower (name : String) : String := String.ofList (name.toList.map Char.toLower)

def register (r : Registry κ) (name : String) (b : κ) : Registry κ :=
  { r with backends := insert (lower name) b r.backends }

def registerAlias (r : Registry κ) (name target : String) : Registry κ :=
  { r with aliases := insert (lower name) (lower target) r.aliases }

def names (r : Registry κ) : List String := r.backends.map (·.1)

/-- The name of a backend, after one alias at most. -/
def canonical? (r : Registry κ) (name : String) : Option String :=
  let found := (r.aliases.lookup (lower name)).getD (lower name)
  if (r.backends.lookup found).isSome then some found else none

def backend? (r : Registry κ) (name : String) : Option κ :=
  (r.canonical? name).bind (r.backends.lookup ·)

def createWith (start : κ → Text → Except Error α) (r : Registry κ) (name : String) (text : Text) :
    Except Error α :=
  match r.backend? name with
  | some b => start b text
  | none => .error (.unsupportedBackend name)

def create (parse : Parse) (r : Registry) (name : String) (text : Text) : Except Error Analyzer :=
  r.createWith (Analyzer.create parse) name text

def builtin : Registry :=
  (({ : Registry }.register "structural" .structural).registerAlias "ast" "structural"
    |>.register "symbols" .symbols).registerAlias "scopes" "symbols"

end Registry

end DocstringEditor.Analysis
