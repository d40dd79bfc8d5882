import DocstringEditor.CommandLine.Run

namespace DocstringEditor.CommandLine

def absoluteParts (path : String) : Path := (World.parts path.toList).filter (· ≠ "")

def placesAlong (here : Path) (path : String) : List Path :=
  let start := if path.startsWith "/" then [] else here
  (World.parts path.toList).foldl (fun (ps : List Path) part =>
    let p := ps.headD []
    if part = "" ∨ part = "." then ps
    else if part = ".." then p.dropLast :: ps
    else (p ++ [part]) :: ps) [start]

def look (w : World) (p : Path) : IO World := do
  let path ← IO.FS.realPath (w.pathText p)
  if ← path.isDir then return { w with directories := p :: w.directories }
  else if ← path.pathExists then
    let bytes ← IO.FS.readBinFile path
    return { w with files := (p, (String.fromUTF8? bytes).map String.toList) :: w.files }
  else return w

def observe (here : Path) (serverUrl : Option String) (args : List String) : IO World := do
  let paths := match Demand.ofArguments serverUrl args with
    | .ok d => d.paths
    | .error _ => []
  let places := Config.places here ++ paths.flatMap (placesAlong here)
  places.foldlM look { files := [], here, serverUrl }

def serverVariable : String := "DOCRES_SERVER_URL"

def runHere (args : List String) : IO UInt32 := do
  let here := absoluteParts (← IO.currentDir).toString
  let w ← observe here (← IO.getEnv serverVariable) args
  let (outcome, left) := run Analysis.python w args
  for (p, content) in left.files do
    if let some t := content then
      if w.textAt? p ≠ content then IO.FS.writeFile (w.pathText p) (String.ofList t)
  IO.print (String.ofList outcome.stdout)
  if let some e := outcome.errorText then IO.eprintln e
  if outcome.code = 2 then IO.eprint (String.ofList usageText)
  return UInt32.ofNat outcome.code

end DocstringEditor.CommandLine

def main (args : List String) : IO UInt32 := DocstringEditor.CommandLine.runHere args
