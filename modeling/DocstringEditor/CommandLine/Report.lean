import DocstringEditor.Request

namespace DocstringEditor.CommandLine

def rangeText : Option DocumentRange → String
  | some r => r.text
  | none => "none"

def reportLine (s : String) : Text := s.toList ++ ['\n']

def entityReport (backend : String) (e : Entity) : Text :=
  let title := match e.name? with
    | some name => s!"{e.kind.name} {name} ({backend})"
    | none => s!"{e.kind.name} ({backend})"
  let places := match e.named? with
    | some e =>
      [s!"range        : {e.range.text}", s!"signature end: {e.signatureEnd.text}",
       s!"indent level : {e.indentLevel}"]
    | none => []
  let facts :=
    [s!"docstring    : {rangeText e.docstring}", s!"lines        : {e.codeLines.length}", ""]
  (title :: places ++ facts).flatMap reportLine ++
    e.codeLines.flatMap fun line => "    ".toList ++ Text.stripLineEnding line ++ ['\n']

def resolveReport (a : ResolveAnswer) : Text :=
  match a.entity with
  | some e => entityReport a.backend e
  | none => reportLine s!"no entity found ({a.backend})"

def cleanReport (a : CleanAnswer) : Text :=
  if a.code.getLast? = some '\n' then a.code else a.code ++ ['\n']

def backendsReport : Text :=
  Analysis.Registry.builtin.names.flatMap fun name =>
    reportLine (if name = defaultBackend then name ++ " (default)" else name)

end DocstringEditor.CommandLine
