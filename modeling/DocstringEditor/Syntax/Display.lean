import DocstringEditor.Syntax.StringLiteral

namespace DocstringEditor.Syntax.Parser

open Forest (wrap)

variable (g : Grammar)

def expression (f : Follow) : Parser Forest := do
  g (.expression (← peek { string := true }) f)

def expressions (first : Lexeme) (f : Follow) (stops : List String) : Parser Forest := do
  let start ← g (.expression first f)
  loop start fun parts => do
    let comma ← peek f.after
    if comma.isMark "," then
      let parts := parts ++ (← take comma)
      let l ← peek f.orString
      if l.startsExpression && !stops.any l.isName then
        return .inl (parts ++ (← g (.expression l f)))
      else return .inr parts
    else return .inr parts

def yieldExpression (l : Lexeme) (f : Follow) : Parser Forest := do
  let start ← take l
  let first ← peek f.orString
  if first.isName "from" then
    return wrap .phrase (start ++ (← take first) ++ (← expression g f))
  else if first.startsExpression then
    return wrap .phrase (start ++ (← expressions g first f []))
  else return wrap .phrase start

def yieldOrExpressions (l : Lexeme) (f : Follow) : Parser Forest :=
  if l.isName "yield" then yieldExpression g l f else expressions g l f []

def element (l : Lexeme) : Parser Forest := do
  if l.isName "yield" then yieldExpression g l .bracketed
  else if l.isMark "*" then
    return wrap .starred ((← take l) ++ (← expression g .bracketed))
  else g (.expression l .bracketed)

def targets : Parser Forest := do
  let target (l : Lexeme) : Parser Forest := do
    let parts ← g (.operand l .inside)
    if Node.areTargets parts then return parts else failure
  let start ← target (← peek { string := true })
  loop start fun parts => do
    let comma ← peek {}
    if comma.isMark "," then
      let parts := parts ++ (← take comma)
      let l ← peek { string := true }
      if l.isName "in" then return .inr parts
      else return .inl (parts ++ (← target l))
    else return .inr parts

def iterables : Parser Forest := do
  let f : Follow := { closer := true, conditional := false }
  let start ← expression g f
  loop start fun parts => do
    let comma ← peek f.after
    if comma.isMark "," then
      let parts := parts ++ (← take comma)
      let l ← peek f.orString
      if l.startsExpression && !(["for", "async", "if"].any l.isName) then
        return .inl (parts ++ (← g (.expression l f)))
      else return .inr parts
    else return .inr parts

def startsComprehension (l : Lexeme) : Bool := l.isName "for" || l.isName "async"

/-- Whether what starts here can be the body of a comprehension. Of starred elements only those can
that start with a name. -/
def startsBody (l : Lexeme) : Bool :=
  if l.isMark "*" then
    match (l.next.lex {}).token with
    | .name text => text ∉ ["not", "lambda", "await", "None", "True", "False"]
    | _ => false
  else !l.isMark "**" && !l.isName "yield"

def comprehension : Parser Forest :=
  loop [] fun parts => do
    let l ← peek Follow.bracketed.after
    if startsComprehension l then
      let isAsync := if l.isName "async" then take l else pure []
      let clause := (← isAsync) ++ (← keyword {} "for") ++ (← targets g) ++ (← keyword {} "in")
      return .inl (parts ++ (wrap .phrase (clause ++ (← iterables g))))
    else if l.isName "if" && !parts.isEmpty then
      let condition ← take l
      let condition := condition ++ (← expression g { closer := true, conditional := false })
      return .inl (parts ++ (wrap .phrase condition))
    else return .inr parts

def elements (start : Forest) (close : String) : Parser Forest :=
  loop start fun parts => do
    let l ← peek Follow.bracketed.after
    if l.isMark close then return .inr (parts ++ (← take l))
    else if l.isMark "," then
      let parts := parts ++ (← take l)
      let l ← peek Follow.bracketed.orString
      if l.isMark close then return .inr (parts ++ (← take l))
      else return .inl (parts ++ (← element g l))
    else failure

def parentheses (l : Lexeme) : Parser Forest := do
  let start ← take l
  let first ← peek Follow.bracketed.orString
  if first.isMark ")" then return wrap .tuple (start ++ (← take first))
  let start := start ++ (← element g first)
  let next ← peek Follow.bracketed.after
  if next.isMark ")" then return wrap .parenthesized (start ++ (← take next))
  else if startsComprehension next && startsBody first then
    let parts := start ++ (← comprehension g)
    return wrap .phrase (parts ++ (← mark Follow.bracketed.after ")"))
  else return wrap .tuple (← elements g start ")")

def brackets (l : Lexeme) : Parser Forest := do
  let start ← take l
  let first ← peek Follow.bracketed.orString
  if first.isMark "]" then return wrap .list (start ++ (← take first))
  let start := start ++ (← element g first)
  if startsComprehension (← peek Follow.bracketed.after) && startsBody first then
    let parts := start ++ (← comprehension g)
    return wrap .phrase (parts ++ (← mark Follow.bracketed.after "]"))
  else return wrap .list (← elements g start "]")

def entryValue : Parser Forest := do
  return (← mark {} ":") ++ (← expression g .bracketed)

def entries (start : Forest) : Parser Forest :=
  loop start fun parts => do
    let l ← peek Follow.bracketed.after
    if l.isMark "\x7d" then return .inr (parts ++ (← take l))
    else if l.isMark "," then
      let parts := parts ++ (← take l)
      let l ← peek Follow.bracketed.orString
      if l.isMark "\x7d" then return .inr (parts ++ (← take l))
      else if l.isMark "**" then
        return .inl (parts ++ (wrap .phrase ((← take l) ++ (← expression g .bracketed))))
      else return .inl (parts ++ (wrap .phrase ((← g (.expression l .inside)) ++ (← entryValue g))))
    else failure

def braces (l : Lexeme) : Parser Forest := do
  let start ← take l
  let first ← peek Follow.bracketed.orString
  if first.isMark "\x7d" then return wrap .phrase (start ++ (← take first))
  else if first.isMark "," then
    return wrap .phrase (start ++ (← take first) ++ (← mark Follow.bracketed.after "\x7d"))
  else if first.isMark "**" then
    let entry := wrap .phrase ((← take first) ++ (← expression g .bracketed))
    return wrap .phrase (← entries g (start ++ entry))
  let key ← element g first
  let next ← peek Follow.bracketed.after
  if next.isMark ":" then
    let start := start ++ (wrap .phrase (key ++ (← entryValue g)))
    if startsComprehension (← peek Follow.bracketed.after) then
      let parts := start ++ (← comprehension g)
      return wrap .phrase (parts ++ (← mark Follow.bracketed.after "\x7d"))
    else return wrap .phrase (← entries g start)
  else if startsComprehension next && startsBody first then
    let parts := start ++ key ++ (← comprehension g)
    return wrap .phrase (parts ++ (← mark Follow.bracketed.after "\x7d"))
  else return wrap .phrase (← elements g (start ++ key) "\x7d")

end DocstringEditor.Syntax.Parser
