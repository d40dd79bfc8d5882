import DocstringEditor.Text.Basic

namespace DocstringEditor.CommandLine

abbrev Path := List String

structure World where
  /-- How the path of the topmost directory is written. Nothing stands for the root. -/
  top : String := ""
  files : List (Path × Option Text)
  directories : List Path := []
  here : Path
  serverUrl : Option String := none

namespace World

def pathText (w : World) (p : Path) : String := w.top ++ String.join (p.map ("/" ++ ·))

def isDirectory (w : World) (p : Path) : Bool :=
  p.isPrefixOf w.here || w.directories.any (p.isPrefixOf ·) ||
    w.files.any fun (q, _) => p.isPrefixOf q && p ≠ q

def isFile (w : World) (p : Path) : Bool := (w.files.lookup p).isSome

def textAt? (w : World) (p : Path) : Option Text := (w.files.lookup p).join

def walk (w : World) (p : Path) : List String → Option Path
  | [] => some p
  | part :: parts =>
    if !w.isDirectory p then none
    else if part = "" ∨ part = "." then walk w p parts
    else if part = ".." then
      if p = [] ∧ w.top ≠ "" then none else walk w p.dropLast parts
    else walk w (p ++ [part]) parts

def parts (path : Text) : List String :=
  (Text.splitOn '/' path).map String.ofList

/-- Where a path leads from the working directory. A path from the root leads anywhere only if the
topmost directory is the root. -/
def locate? (w : World) (path : String) : Option Path :=
  match path.toList with
  | [] => none
  | '/' :: rest => if w.top = "" then w.walk [] (parts rest) else none
  | t => w.walk w.here (parts t)

def read? (w : World) (path : String) : Option Text := (w.locate? path).bind w.textAt?

def written (w : World) (p : Path) (t : Text) : List (Path × Option Text) :=
  if w.isFile p then w.files.map fun (q, old) => (q, if q = p then some t else old)
  else w.files ++ [(p, some t)]

end World

end DocstringEditor.CommandLine
