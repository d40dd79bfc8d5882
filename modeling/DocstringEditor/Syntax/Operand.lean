import DocstringEditor.Syntax.Display

namespace DocstringEditor.Syntax.Parser

open Forest (wrap)

variable (g : Grammar)

def isPlainName (parts : Forest) : Bool :=
  match Forest.solid parts with
  | [n] => n.kind = .identifier
  | _ => false

def argument (l : Lexeme) : Parser (Forest × Bool) := do
  if l.isMark "*" then
    return (wrap .starred ((← take l) ++ (← expression g .bracketed)), startsBody l)
  else if l.isMark "**" then
    return (wrap .phrase ((← take l) ++ (← expression g .bracketed)), false)
  let value ← g (.expression l .bracketed)
  let next ← peek Follow.bracketed.after
  if next.isMark "=" && isPlainName value then
    return (wrap .phrase (value ++ (← take next) ++ (← expression g .bracketed)), false)
  else return (value, true)

def arguments (l : Lexeme) (ofCall : Bool) : Parser Forest := do
  let start ← take l
  let first ← peek Follow.bracketed.orString
  if first.isMark ")" then return wrap .phrase (start ++ (← take first))
  else if first.isMark "," then
    return wrap .phrase (start ++ (← take first) ++ (← mark Follow.bracketed.after ")"))
  let (value, iterable) ← argument g first
  if ofCall && iterable && startsComprehension (← peek Follow.bracketed.after) then
    let parts := start ++ value ++ (← comprehension g)
    return wrap .phrase (parts ++ (← mark Follow.bracketed.after ")"))
  let parts ← loop (start ++ value) fun parts => do
    let l ← peek Follow.bracketed.after
    if l.isMark ")" then return .inr (parts ++ (← take l))
    else if l.isMark "," then
      let parts := parts ++ (← take l)
      let l ← peek Follow.bracketed.orString
      if l.isMark ")" then return .inr (parts ++ (← take l))
      else return .inl (parts ++ (← argument g l).1)
    else failure
  return wrap .phrase parts

def sliceRest (another : Bool) : Parser Forest := do
  let l ← peek Follow.bracketed.orString
  let bound ← if l.startsExpression then g (.expression l .bracketed) else pure []
  let next ← peek Follow.bracketed.after
  if another && next.isMark ":" then
    let parts := bound ++ (← take next)
    let l ← peek Follow.bracketed.orString
    if l.startsExpression then return parts ++ (← g (.expression l .bracketed)) else return parts
  else return bound

def subscript (l : Lexeme) : Parser Forest := do
  let start ← if l.isMark ":" then pure [] else g (.expression l .bracketed)
  let next ← peek Follow.bracketed.after
  if next.isMark ":" then
    return wrap .phrase (start ++ (← take next) ++ (← sliceRest g true))
  else return start

def subscripts (l : Lexeme) : Parser Forest := do
  let start ← take l
  let start := start ++ (← subscript g (← peek { string := true }))
  loop start fun parts => do
    let l ← peek Follow.bracketed.after
    if l.isMark "]" then return .inr (parts ++ (← take l))
    else if l.isMark "," then
      let parts := parts ++ (← take l)
      let l ← peek Follow.bracketed.orString
      if l.isMark "]" then return .inr (parts ++ (← take l))
      else return .inl (parts ++ (← subscript g l))
    else failure

def atom (l : Lexeme) (f : Follow) : Parser Forest :=
  match l.token with
  | .number | .mark "..." | .name "True" | .name "False" | .name "None" => takeAs l .phrase
  | .name _ => name l
  | .string _ => literals g l f
  | .mark "(" => parentheses g l
  | .mark "[" => brackets g l
  | .mark "\x7b" => braces g l
  | _ => failure

def primary (l : Lexeme) (f : Follow) : Parser Forest := do
  let start ← atom g l f
  loop start fun parts => do
    let l ← peek f.after
    match l.token with
    | .mark "." =>
      let parts := parts ++ (← take l)
      return .inl (wrap .attribute (parts ++ (← name (← peek {}))))
    | .mark "(" => return .inl (wrap .phrase (parts ++ (← arguments g l true)))
    | .mark "[" => return .inl (wrap .subscript (parts ++ (← subscripts g l)))
    | _ => return .inr parts

def connectives : List String :=
  ["if", "else", "in", "is", "not", "and", "or", "as", "for", "async", "from"]

def startsAwaited (l : Lexeme) : Bool :=
  l.startsExpression && !l.isMark "*" && !connectives.any l.isName

def operand (l : Lexeme) (f : Follow) : Parser Forest := do
  match l.token with
  | .mark "-" | .mark "+" | .mark "~" =>
    return wrap .phrase ((← take l) ++ (← g (.operand (← peek { string := true }) f)))
  | .mark "*" =>
    let parts ← take l
    let starred ← primary g (← peek {}) f
    match Forest.solid starred with
    | [n] =>
      if n.kind ∈ [.identifier, .attribute, .subscript] then return wrap .starred (parts ++ starred)
      else failure
    | _ => failure
  | .name "await" =>
    (do
      let parts ← take l
      let awaited ← peek f.orString
      if startsAwaited awaited then return wrap .phrase (parts ++ (← g (.operand awaited f)))
      else failure) <|> primary g l f
  | _ => primary g l f

end DocstringEditor.Syntax.Parser
