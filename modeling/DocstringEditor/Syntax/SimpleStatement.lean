import DocstringEditor.Syntax.Expression
import DocstringEditor.Syntax.CasePattern

namespace DocstringEditor.Syntax.Parser

open Forest (wrap)

variable (g : Grammar)

def hasStarred (parts : Forest) : Bool := parts.any (·.kind = .starred)

def assignmentOperators : List String :=
  ["+=", "-=", "*=", "/=", "@=", "//=", "%=", "**=", ">>=", "<<=", "&=", "^=", "|="]

def typeExpression (f : Follow) (constrained : Bool) : Parser Forest := do
  let one : Parser Forest := do
    let l ← peek { string := true }
    g (.expression l f) <|> g (.union l f)
  let start ← one
  let colon ← peek f.after
  if constrained && colon.isMark ":" then
    return wrap .phrase (start ++ (← take colon) ++ (← one))
  else return wrap .phrase start

def typeParameters (l : Lexeme) : Parser Forest := do
  let start ← take l
  let start := start ++ (← typeExpression g .bracketed true)
  let parts ← loop start fun parts => do
    let l ← peek Follow.bracketed.after
    if l.isMark "]" then return .inr (parts ++ (← take l))
    else if l.isMark "," then
      let parts := parts ++ (← take l)
      let l ← peek Follow.bracketed.orString
      if l.isMark "]" then return .inr (parts ++ (← take l))
      else return .inl (parts ++ (← typeExpression g .bracketed true))
    else failure
  return wrap .phrase parts

def typeTerm (f : Follow) (l : Lexeme) : Parser Forest :=
  if l.isMark "**" then do
    return (← take l) ++ (← name (← peek {}))
  else g (.operand l f) <|> do
    let start ← name l
    let bracket ← peek f.after
    if bracket.isMark "[" then return wrap .phrase (start ++ (← typeParameters g bracket))
    else failure

def typeUnion (first : Lexeme) (f : Follow) : Parser Forest := do
  let start ← typeTerm g f first
  loop start fun parts => do
    let l ← peek f.after
    if l.isMark "|" then
      let parts := parts ++ (← take l)
      return .inl (wrap .phrase (parts ++ (← typeTerm g f (← peek { string := true }))))
    else if l.isMark "." then
      let parts := parts ++ (← take l)
      return .inl (wrap .phrase (parts ++ (← name (← peek {}))))
    else return .inr parts

def assignments (start : Forest) : Parser (Forest × Bool) :=
  loop (start, start, false) fun (parts, left, assigned) => do
    let right (parts : Forest) : Parser Forest := do
      let l ← peek { string := true }
      return parts ++ (← yieldOrExpressions g l .line)
    let next ← peek Follow.line.after
    let text := match next.token with
      | .mark text => text
      | _ => ""
    if text = "=" || text ∈ assignmentOperators then
      if !Node.areTargets left then failure
      let l ← take next
      let value ← right []
      return .inl (parts ++ l ++ value, value, true)
    else if text = ":" then
      if !Node.areTargets left then failure
      let parts := parts ++ (← take next) ++ (← typeExpression g .line true)
      let equals ← peek Follow.line.after
      if equals.isMark "=" then
        let l ← take equals
        let value ← right []
        return .inl (parts ++ l ++ value, value, true)
      else return .inr (parts, true)
    else return .inr (parts, assigned)

def expressionStatement (l : Lexeme) : Parser Forest := do
  let start ← yieldOrExpressions g l .line
  let (parts, assigned) ← assignments g start
  if !assigned && hasStarred parts then failure
  let stop ← peek Follow.line.after
  if stop.token = .newline || stop.isMark ";" then
    return wrap .expressionStatement (if assigned then wrap .phrase parts else parts)
  else failure

def keywordStatement (l : Lexeme) (stops : List String) : Parser Forest := do
  let start ← take l
  let first ← peek Follow.line.orString
  if first.startsExpression && !stops.any first.isName then
    return start ++ (← expressions g first .line stops)
  else return start

def raiseStatement (l : Lexeme) : Parser Forest := do
  let parts ← keywordStatement g l ["from"]
  let next ← peek Follow.line.after
  if next.isName "from" then return parts ++ (← take next) ++ (← expression g .line)
  else return parts

def printStatement (l : Lexeme) : Parser Forest := do
  let start ← take l
  let first ← peek Follow.line.orString
  if first.isMark ">>" then
    let file := wrap .chevron ((← take first) ++ (← expression g .line))
    let parts ← loop (start ++ file) fun parts => do
      let comma ← peek Follow.line.after
      if comma.isMark "," then
        let parts := parts ++ (← take comma)
        let l ← peek Follow.line.orString
        if l.startsExpression then return .inl (parts ++ (← g (.expression l .line)))
        else return .inr parts
      else return .inr parts
    return wrap .printStatement parts
  else return wrap .printStatement (start ++ (← expressions g first .line []))

def execStatement (l : Lexeme) : Parser Forest := do
  let start ← take l
  let first ← peek { string := true }
  let code ← match first.token with
    | .string _ => literal g first
    | _ => name first
  let next ← peek Follow.line.after
  let scope ← if next.isName "in" then
      pure ((← take next) ++ (← expressions g (← peek { string := true }) .line []))
    else pure []
  return wrap .execStatement (start ++ code ++ scope)

def typeAlias (l : Lexeme) : Parser Forest := do
  let parts := (← take l) ++ (← typeExpression g .line false) ++ (← mark {} "=")
  return wrap .phrase (parts ++ (← typeExpression g .line true))

def names : Parser Forest := do
  let start ← name (← peek {})
  loop start fun parts => do
    let comma ← peek Follow.line.after
    if comma.isMark "," then
      let parts := parts ++ (← take comma)
      return .inl (parts ++ (← name (← peek {})))
    else return .inr parts

def importedNames (f : Follow) : Parser Forest := do
  let one (l : Lexeme) : Parser Forest := do
    let parts ← dottedName l f.after
    let next ← peek f.after
    if next.isName "as" then return parts ++ (← take next) ++ (← name (← peek {})) else return parts
  let start ← one (← peek {})
  loop start fun parts => do
    let comma ← peek f.after
    if comma.isMark "," then
      let parts := parts ++ (← take comma)
      let l ← peek f.after
      match l.token with
      | .name _ => return .inl (parts ++ (← one l))
      | _ => return .inr parts
    else return .inr parts

def importStatement (l : Lexeme) : Parser Forest := do
  return wrap .phrase ((← take l) ++ (← importedNames .line))

def importFromStatement (l : Lexeme) : Parser Forest := do
  let start ← take l
  let (start, relative) ← loop (start, false) fun (parts, relative) => do
    let dot ← peek {}
    if dot.isMark "." || dot.isMark "..." then return .inl (parts ++ (← take dot), true)
    else return .inr (parts, relative)
  let source ← peek {}
  let source ← if relative && source.isName "import" then pure [] else dottedName source {}
  let parts := start ++ source ++ (← keyword {} "import")
  let first ← peek {}
  if first.isMark "*" then return wrap .phrase (parts ++ (← take first))
  else if first.isMark "(" then
    let parts := parts ++ (← take first) ++ (← importedNames .bracketed)
    return wrap .phrase (parts ++ (← mark Follow.bracketed.after ")"))
  else return wrap .phrase (parts ++ (← importedNames .line))

def simpleStatement (l : Lexeme) : Parser Forest :=
  match l.token with
  | .name "pass" | .name "break" | .name "continue" => return wrap .phrase (← take l)
  | .name "return" => return wrap .phrase (← keywordStatement g l [])
  | .name "del" | .name "assert" => do
    let start ← take l
    return wrap .phrase (start ++ (← expressions g (← peek { string := true }) .line []))
  | .name "raise" => return wrap .phrase (← raiseStatement g l)
  | .name "global" | .name "nonlocal" => return wrap .phrase ((← take l) ++ (← names))
  | .name "import" => importStatement l
  | .name "from" => importFromStatement l
  | .name "print" =>
    if (l.next.lex Follow.line.orString).isMark ">>" then printStatement g l
    else expressionStatement g l <|> printStatement g l
  | .name "exec" => expressionStatement g l <|> execStatement g l
  | .name "type" => expressionStatement g l <|> typeAlias g l
  | _ => expressionStatement g l

def simpleStatements (l : Lexeme) : Parser Forest := do
  loop ([], l) fun (parts, l) => do
    let parts := parts ++ (← simpleStatement g l)
    let next ← peek Follow.line.after
    if next.token = .newline then return .inr (parts ++ (← takeLayout next))
    else if next.isMark ";" then
      let parts := parts ++ (← take next)
      let l ← peek Follow.line.orString
      if l.token = .newline then return .inr (parts ++ (← takeLayout l))
      else return .inl (parts, l)
    else failure

end DocstringEditor.Syntax.Parser
