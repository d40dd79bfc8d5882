import DocstringEditor.Analysis.Registry
import DocstringEditor.Text.Digits

namespace DocstringEditor.CommandLine

open Analysis (QueryScope)

inductive OutputFormat
  | text
  | json
  deriving DecidableEq, Repr

namespace OutputFormat

def all : List OutputFormat := [text, json]

def name : OutputFormat → String
  | text => "text"
  | json => "json"

def ofName? (s : String) : Option OutputFormat := all.find? (·.name = s)

end OutputFormat

structure CursorOptions where
  file : String
  line : UInt32
  character : UInt32 := 0
  backend : Option String := none
  scope : QueryScope := .context
  deriving DecidableEq, Repr

structure ServerOptions where
  server : Option String := none
  noServer : Bool := false
  deriving DecidableEq, Repr

structure CleanOptions where
  cursor : CursorOptions
  skip : List String := []
  deriving DecidableEq, Repr

structure DocstringOptions where
  cursor : CursorOptions
  text : Option String := none
  textFile : Option String := none
  onNewLine : Bool := false
  write : Bool := false
  deriving DecidableEq, Repr

def defaultAddress : String := "127.0.0.1:7979"

inductive Command
  | resolve (o : CursorOptions) (format : OutputFormat) (server : ServerOptions)
  | clean (o : CleanOptions) (format : OutputFormat) (server : ServerOptions)
  | docstring (o : DocstringOptions) (format : OutputFormat) (server : ServerOptions)
  | backends (format : OutputFormat) (server : ServerOptions)
  | serve (address : String)
  deriving DecidableEq, Repr

inductive Demand
  | command (c : Command)
  | schemaVersion
  | help
  deriving DecidableEq, Repr

inductive Refusal
  | usage
  | help
  deriving DecidableEq, Repr

inductive OptionName
  | line
  | character
  | backend
  | scope
  | format
  | server
  | noServer
  | skip
  | text
  | textFile
  | onNewLine
  | write
  | address
  deriving DecidableEq, Repr

namespace OptionName

def long : OptionName → String
  | line => "line"
  | character => "character"
  | backend => "backend"
  | scope => "scope"
  | format => "format"
  | server => "server"
  | noServer => "no-server"
  | skip => "skip"
  | text => "text"
  | textFile => "text-file"
  | onNewLine => "on-new-line"
  | write => "write"
  | address => "addr"

def short? : OptionName → Option Char
  | line => some 'l'
  | character => some 'c'
  | backend => some 'b'
  | _ => none

def takesValue : OptionName → Bool
  | noServer | onNewLine | write => false
  | _ => true

def repeats : OptionName → Bool
  | skip => true
  | _ => false

end OptionName

/-- A number written with digits, perhaps with a sign, that fits a word. -/
def word? (s : String) : Option UInt32 :=
  let (negative, ds) := match s.toList with
    | '-' :: ds => (true, ds)
    | '+' :: ds => (false, ds)
    | ds => (false, ds)
  let n := Text.digitsValue ds
  if ds.isEmpty || !ds.all Char.isDigit || UInt32.size ≤ n || (negative && n ≠ 0) then none
  else some (UInt32.ofNat n)

def OptionName.accepts (o : OptionName) (v : String) : Bool :=
  match o with
  | line | character => (word? v).isSome
  | scope => (QueryScope.ofName? v).isSome
  | format => (OutputFormat.ofName? v).isSome
  | textFile => v ≠ ""
  | _ => true

inductive CommandName
  | resolve
  | clean
  | docstring
  | backends
  | serve
  deriving DecidableEq, Repr

namespace CommandName

def all : List CommandName := [resolve, clean, docstring, backends, serve]

def name : CommandName → String
  | resolve => "resolve"
  | clean => "clean"
  | docstring => "docstring"
  | backends => "backends"
  | serve => "serve"

def ofName? (s : String) : Option CommandName := all.find? (·.name = s)

def takesFile : CommandName → Bool
  | resolve | clean | docstring => true
  | backends | serve => false

def cursorOptions : List OptionName := [.line, .character, .backend, .scope]

def outputOptions : List OptionName := [.format, .server, .noServer]

def options : CommandName → List OptionName
  | resolve => cursorOptions ++ outputOptions
  | clean => cursorOptions ++ outputOptions ++ [.skip]
  | docstring => cursorOptions ++ outputOptions ++ [.text, .textFile, .onNewLine, .write]
  | backends => outputOptions
  | serve => [.address]

end CommandName

end DocstringEditor.CommandLine
