import DocstringEditor.Syntax.SimpleStatement

namespace DocstringEditor.Syntax.Parser

open Forest (wrap)

variable (g : Grammar)

def blockStatements : Parser Forest :=
  loop [] fun parts => do
    let l ← peek { string := true, dedent := true }
    if l.token = .dedent then return .inr (parts ++ (← takeLayout l))
    else return .inl (parts ++ (← g (.statement l true)))

def emptyBlock (l : Lexeme) : Parser Forest := do
  return (← takeLayout l) ++ [.leaf .block l.start l.start]

def suite : Parser Forest := do
  let l ← peek { string := true, newline := true, indent := true }
  match l.token with
  | .newline => emptyBlock l
  | .indent => return (← takeLayout l) ++ wrap .block (← blockStatements g)
  | _ => return wrap .block (← simpleStatements g l)

def colonSuite : Parser Forest := do
  return (← mark {} ":") ++ (← suite g)

def afterSuite (nested : Bool) : Expected := { string := true, dedent := nested }

def elseClause (nested : Bool) : Parser Forest := do
  let l ← peek (afterSuite nested)
  if l.isName "else" then return wrap .phrase ((← take l) ++ (← colonSuite g)) else return []

def ifStatement (l : Lexeme) (nested : Bool) : Parser Forest := do
  let start := (← take l) ++ (← expression g .inside) ++ (← colonSuite g)
  let parts ← loop start fun parts => do
    let l ← peek (afterSuite nested)
    if l.isName "elif" then
      let clause := (← take l) ++ (← expression g .inside)
      return .inl (parts ++ wrap .phrase (clause ++ (← colonSuite g)))
    else return .inr (parts ++ (← elseClause g nested))
  return wrap .phrase parts

def whileStatement (l : Lexeme) (nested : Bool) : Parser Forest := do
  let parts := (← take l) ++ (← expression g .inside) ++ (← colonSuite g)
  return wrap .phrase (parts ++ (← elseClause g nested))

def forStatement (start : Forest) (l : Lexeme) (nested : Bool) : Parser Forest := do
  let parts := start ++ (← take l) ++ (← targets g) ++ (← keyword {} "in")
  let parts := parts ++ (← expressions g (← peek { string := true }) .inside [])
  let parts := parts ++ (← colonSuite g)
  return wrap .phrase (parts ++ (← elseClause g nested))

def withStatement (start : Forest) (l : Lexeme) : Parser Forest := do
  let parts := start ++ (← take l)
  let parts := parts ++ (← expressions g (← peek { string := true }) .inside [])
  return wrap .phrase (parts ++ (← colonSuite g))

def exceptClause (l : Lexeme) (grouped : Bool) : Parser Forest := do
  let star := l.next.rest.head? = some '*'
  if star ≠ grouped then failure
  let start ← take l
  let start ← if star then pure (start ++ (← mark {} "*")) else pure start
  let first ← peek { string := true }
  let parts ← if first.startsExpression then
      pure (start ++ (← expressions g first .inside []))
    else if star then failure
    else pure start
  return wrap .phrase (parts ++ (← colonSuite g))

def tryStatement (l : Lexeme) (nested : Bool) : Parser Forest := do
  let start := (← take l) ++ (← colonSuite g)
  let first ← peek { handler := true }
  let finallyClause (l : Lexeme) : Parser Forest :=
    return wrap .phrase ((← take l) ++ (← colonSuite g))
  if first.isName "finally" then return wrap .phrase (start ++ (← finallyClause first))
  else if !first.isName "except" then failure
  let grouped := first.next.rest.head? = some '*'
  let parts ← loop (start ++ (← exceptClause g first grouped)) fun parts => do
    let l ← peek { afterSuite nested with handler := true }
    if l.isName "except" then return .inl (parts ++ (← exceptClause g l grouped))
    else return .inr parts
  let parts := parts ++ (← elseClause g nested)
  let l ← peek (afterSuite nested)
  if l.isName "finally" then return wrap .phrase (parts ++ (← finallyClause l))
  else return wrap .phrase parts

def definition (k : Kind) (start : Forest) (header : Parser Forest) : Parser Forest := do
  let parts := start ++ Forest.withRole .name (← name (← peek {}))
  let next ← peek {}
  let parts ← if next.isMark "[" then pure (parts ++ (← typeParameters g next)) else pure parts
  let parts := parts ++ (← header) ++ (← mark {} ":")
  return wrap k (parts ++ Forest.withRole .body (← suite g))

def functionDefinition (start : Forest) (l : Lexeme) : Parser Forest := do
  definition g .functionDefinition (start ++ (← take l)) do
    let opening ← mark {} "("
    let list ← parameters g (typeExpression g .bracketed true) true .bracketed ")"
    let list := wrap .phrase (opening ++ list ++ (← mark Follow.bracketed.after ")"))
    let arrow ← peek {}
    if arrow.isMark "->" then
      return list ++ (← take arrow) ++ (← typeExpression g .inside false)
    else return list

def classDefinition (l : Lexeme) : Parser Forest := do
  definition g .classDefinition (← take l) do
    let opening ← peek {}
    if opening.isMark "(" then arguments g opening false else return []

def asyncStatement (l : Lexeme) (nested : Bool) : Parser Forest := do
  let start ← take l
  let next ← peek {}
  match next.token with
  | .name "def" => functionDefinition g start next
  | .name "for" => forStatement g start next nested
  | .name "with" => withStatement g start next
  | _ => failure

def decoratedDefinition (l : Lexeme) : Parser Forest := do
  let parts ← loop ([], l) fun (parts, l) => do
    if l.isMark "@" then
      let decorator := (← take l) ++ (← expression g .line)
      let stop ← peek Follow.line.after
      if stop.token = .newline then
        let decorator := wrap .phrase (decorator ++ (← takeLayout stop))
        return .inl (parts ++ decorator, ← peek {})
      else failure
    else
      match l.token with
      | .name "def" => return .inr (parts ++ (← functionDefinition g [] l))
      | .name "async" =>
        let start ← take l
        let next ← peek {}
        if next.isName "def" then return .inr (parts ++ (← functionDefinition g start next))
        else failure
      | .name "class" => return .inr (parts ++ (← classDefinition g l))
      | _ => failure
  return wrap .phrase parts

def caseClause (l : Lexeme) : Parser Forest := do
  let start ← take l
  let start := start ++ (← g (.casePattern (← peek { string := true }) .inside))
  let parts ← loop start fun parts => do
    let comma ← peek {}
    if comma.isMark "," then
      let parts := parts ++ (← take comma)
      let l ← peek { string := true }
      if l.isMark ":" || l.isName "if" then return .inr parts
      else return .inl (parts ++ (← g (.casePattern l .inside)))
    else return .inr parts
  let guard ← peek {}
  let parts ← if guard.isName "if" then pure (parts ++ (← take guard) ++ (← expression g .inside))
    else pure parts
  return wrap .phrase (parts ++ (← colonSuite g))

def matchStatement (l : Lexeme) : Parser Forest := do
  let start ← take l
  let start := start ++ (← expressions g (← peek Follow.line.orString) .inside [])
  let start := start ++ (← mark {} ":")
  let l ← peek { newline := true, indent := true }
  match l.token with
  | .newline => return wrap .phrase (start ++ (← emptyBlock l))
  | .indent =>
    let before ← takeLayout l
    let cases ← loop [] fun parts => do
      let l ← peek { dedent := true }
      if l.token = .dedent then return .inr (parts ++ (← takeLayout l))
      else if l.isName "case" then return .inl (parts ++ (← caseClause g l))
      else failure
    return wrap .phrase (start ++ before ++ wrap .block cases)
  | _ => failure

def statement (l : Lexeme) (nested : Bool) : Parser Forest :=
  match l.token with
  | .name "if" => ifStatement g l nested
  | .name "while" => whileStatement g l nested
  | .name "for" => forStatement g [] l nested
  | .name "with" => withStatement g [] l
  | .name "try" => tryStatement g l nested
  | .name "def" => functionDefinition g [] l
  | .name "class" => classDefinition g l
  | .mark "@" => decoratedDefinition g l
  | .name "async" => asyncStatement g l nested <|> simpleStatements g l
  | .name "match" => matchStatement g l <|> simpleStatements g l
  | _ => simpleStatements g l

end DocstringEditor.Syntax.Parser
