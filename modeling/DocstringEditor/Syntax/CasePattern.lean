import DocstringEditor.Syntax.StringLiteral

namespace DocstringEditor.Syntax.Parser

open Forest (wrap)

variable (g : Grammar)

def patternsUntil (start : Forest) (close : String) (item : Lexeme → Parser Forest) :
    Parser Forest :=
  loop start fun parts => do
    let l ← peek Follow.bracketed.orString
    if l.isMark close then return .inr (parts ++ (← take l))
    let parts := parts ++ (← item l)
    let next ← peek Follow.bracketed.after
    if next.isMark "," then return .inl (parts ++ (← take next))
    else if next.isMark close then return .inr (parts ++ (← take next))
    else failure

def numberPattern (l : Lexeme) (f : Follow) : Parser Forest := do
  if l.token ≠ .number then failure
  let start ← take l
  let sign ← peek f.after
  if sign.isMark "+" || sign.isMark "-" then
    let parts := start ++ (← take sign)
    let second ← peek {}
    if second.token = .number then return parts ++ (← take second) else failure
  else return start

def dottedName (l : Lexeme) (e : Expected) : Parser Forest := do
  let start ← name l
  loop start fun parts => do
    let dot ← peek e
    if dot.isMark "." then
      let parts := parts ++ (← take dot)
      return .inl (parts ++ (← name (← peek {})))
    else return .inr parts

def closedPattern (l : Lexeme) (f : Follow) : Parser Forest := do
  let item (l : Lexeme) : Parser Forest := g (.casePattern l .bracketed)
  match l.token with
  | .string _ => literals g l f
  | .number => numberPattern l f
  | .mark "-" => return (← take l) ++ (← numberPattern (← peek {}) f)
  | .mark "*" | .mark "**" => return (← take l) ++ (← name (← peek {}))
  | .mark "[" => patternsUntil (← take l) "]" item
  | .mark "(" => patternsUntil (← take l) ")" item
  | .mark "\x7b" =>
    patternsUntil (← take l) "\x7d" fun l => do
      let key ← g (.casePattern l .inside)
      if l.isMark "**" || l.isMark "*" then return key
      else
        let colon ← mark {} ":"
        return key ++ colon ++ (← item (← peek { string := true }))
  | .name _ =>
    let parts ← dottedName l f.after
    let next ← peek f.after
    if next.isMark "(" then patternsUntil (parts ++ (← take next)) ")" item else return parts
  | _ => failure

def casePattern (l : Lexeme) (f : Follow) : Parser Forest := do
  let start ← closedPattern g l f
  let parts ← loop start fun parts => do
    let next ← peek f.after
    match next.token with
    | .mark "|" =>
      let parts := parts ++ (← take next)
      return .inl (parts ++ (← closedPattern g (← peek { string := true }) f))
    | .mark "=" =>
      match Forest.solid parts with
      | [n] =>
        if n.kind = .identifier then
          let parts := parts ++ (← take next)
          return .inl (parts ++ (← closedPattern g (← peek { string := true }) f))
        else failure
      | _ => failure
    | .name "as" => return .inr (parts ++ (← take next) ++ (← name (← peek {})))
    | _ => return .inr parts
  return wrap .phrase parts

end DocstringEditor.Syntax.Parser
