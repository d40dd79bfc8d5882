import DocstringEditor.Syntax.Operand

namespace DocstringEditor.Syntax.Parser

open Forest (wrap)

variable (g : Grammar)

def operators : List String :=
  ["+", "-", "*", "/", "//", "%", "@", "**", "|", "&", "^", "<<", ">>", "<", ">", "<=", ">=", "==",
   "!=", "<>"]

def parameter (hint : Parser Forest) (typed : Bool) (f : Follow) (l : Lexeme) :
    Parser Forest := do
  let annotated (parts : Forest) : Parser Forest := do
    let colon ← peek f.after
    if typed && colon.isMark ":" then
      return wrap .phrase (parts ++ (← take colon) ++ (← hint))
    else return parts
  let defaulted (parts : Forest) : Parser Forest := do
    let equals ← peek f.after
    if equals.isMark "=" then
      return wrap .phrase (parts ++ (← take equals) ++ (← expression g f))
    else return parts
  match l.token with
  | .mark "/" => take l
  | .mark "*" | .mark "**" =>
    let parts ← take l
    let next ← peek f.after
    match next.token with
    | .name _ =>
      let starred ← primary g next f
      if Node.areTargets starred then annotated (wrap .starred (parts ++ starred)) else failure
    | _ => if l.isMark "*" then return parts else failure
  | .mark "(" =>
    let parts ← primary g l f
    if Node.areTargets parts then defaulted parts else failure
  | .name _ => defaulted (← annotated (← name l))
  | _ => failure

def parameters (hint : Parser Forest) (typed : Bool) (f : Follow) (close : String) :
    Parser Forest := do
  let first ← peek f.after
  if first.isMark close then return []
  let start ← parameter g hint typed f first
  loop start fun parts => do
    let comma ← peek f.after
    if comma.isMark "," then
      let parts := parts ++ (← take comma)
      let l ← peek f.after
      if l.isMark close then return .inr parts
      else return .inl (parts ++ (← parameter g hint typed f l))
    else return .inr parts

def lambda (l : Lexeme) (f : Follow) : Parser Forest := do
  let start ← take l
  let list ← parameters g failure false .inside ":"
  return wrap .phrase (start ++ list ++ (← mark {} ":") ++ (← expression g f))

def conjunct (first : Lexeme) (f : Follow) : Parser Forest := do
  loop ([], first) fun (negations, l) => do
    let finish (parts : Forest) : Forest :=
      if negations.isEmpty then parts else wrap .phrase (negations ++ parts)
    match l.token with
    | .name "not" => return .inl (negations ++ (← take l), ← peek { string := true })
    | .name "lambda" => return .inr (finish (← lambda g l f))
    | .name _ =>
      if (l.next.lex f.after).isMark ":=" then
        let target ← name l
        let equals ← take (← peek f.after)
        return .inr (finish (wrap .phrase (target ++ equals ++ (← expression g f))))
      else return .inr (finish (← g (.operand l f)))
    | _ => return .inr (finish (← g (.operand l f)))

def chain (first : Lexeme) (f : Follow) : Parser Forest := do
  let start ← conjunct g first f
  loop (start, false) fun (parts, several) => do
    let l ← peek f.after
    let operator : Parser Forest := return parts ++ (← take l)
    let finish (parts : Forest) : Forest := wrap .phrase parts
    match l.token with
    | .mark text =>
      if text ∈ operators then
        let parts ← operator
        return .inl (parts ++ (← g (.operand (← peek { string := true }) f)), true)
      else return .inr (if several then finish parts else parts)
    | .name "in" =>
      let parts ← operator
      return .inl (parts ++ (← g (.operand (← peek { string := true }) f)), true)
    | .name "not" =>
      let parts := (← operator) ++ (← keyword {} "in")
      return .inl (parts ++ (← g (.operand (← peek { string := true }) f)), true)
    | .name "is" =>
      let parts ← operator
      let l ← peek { string := true }
      if l.isName "not" then
        let parts := parts ++ (← take l)
        return .inl (parts ++ (← g (.operand (← peek { string := true }) f)), true)
      else return .inl (parts ++ (← g (.operand l f)), true)
    | .name "and" | .name "or" =>
      let parts ← operator
      return .inl (parts ++ (← conjunct g (← peek { string := true }) f), true)
    | .name "as" => return .inr (finish ((← operator) ++ (← expression g f)))
    | .name "if" =>
      if f.conditional then
        let parts := (← operator) ++ (← expression g .inside) ++ (← keyword {} "else")
        return .inr (finish (parts ++ (← expression g f)))
      else return .inr (if several then finish parts else parts)
    | _ => return .inr (if several then finish parts else parts)

def replacementField : Parser Forest := do
  let parts ← yieldOrExpressions g (← peek { string := true }) .bracketed
  return parts ++ (← fieldRest g)

end DocstringEditor.Syntax.Parser
