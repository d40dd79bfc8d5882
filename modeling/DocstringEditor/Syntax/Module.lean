import DocstringEditor.Syntax.Statement

namespace DocstringEditor.Syntax

def Grammar.within : Nat → Grammar
  | 0, _ => failure
  | n + 1, phrase =>
    let g := Grammar.within n
    match phrase with
    | .expression l f => Parser.chain g l f
    | .operand l f => Parser.operand g l f
    | .field => Parser.replacementField g
    | .union l f => Parser.typeUnion g l f
    | .casePattern l f => Parser.casePattern g l f
    | .statement l nested => Parser.statement g l nested

namespace Parser

def moduleStatements (g : Grammar) : Parser Forest :=
  loop [] fun parts => do
    let l ← peek { string := true }
    if l.token = .finish then return .inr (parts ++ (← takeLayout l))
    else return .inl (parts ++ (← g (.statement l false)))

end Parser

/-- The syntax tree of a text, which has room for its places in 32 bits. No phrase nests deeper than
twice the number of characters, since one in another's place starts further on or is of a simpler
sort. -/
def Node.ofText? (t : Text) : Option Node := do
  guard (Text.byteSize t + 1 < UInt32.size)
  let g := Grammar.within (2 * t.length + 8)
  let (parts, s) ← Parser.moduleStatements g (Scan.ofText t)
  let start := (parts.head?.map Node.start).getD s.here
  return .mk .module none start s.here parts

end DocstringEditor.Syntax
