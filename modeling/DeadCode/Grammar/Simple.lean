import DeadCode.Grammar.TypeHint
import DeadCode.Grammar.Import

/- Statements that fit on a line. Several may share one, divided by semicolons. -/
namespace DeadCode.Grammar.Simple
open DeadCode.Tree DeadCode.Grammar.Parser

def atEnd : Parser Bool := do
  match (← get).cross? .stay with
  | some c => return c.atLineEnd || Token.symbol c.rest == ";"
  | none => return false

def augmentedSymbols : List String :=
  ["+=", "-=", "*=", "/=", "@=", "//=", "%=", "**=", ">>=", "<<=", "&=", "^=", "|="]

def assigned (rules : Rules) : Parser Node := do
  let start ← get
  if ← Expression.atYield then Expression.yielded rules .line
  else
    let left ← Expression.list rules .line [] true
    let right : Parser (List Node) := do
      cross .aligned
      return [← rules .assigned]
    if isTarget left then
      if ← anySymbol? .stay ("=" :: augmentedSymbols) then
        node start .statement (left :: (← right))
      else if ← symbol? .stay ":" then
        cross .aligned
        let note ← rules (.typeHint .line true)
        let value ← if ← symbol? .stay "=" then right else pure []
        node start .statement (left :: note :: value)
      else return left
    else return left

def closed (rules : Rules) : Parser Node := do
  let n ← assigned rules
  require (← atEnd)
  return n

def values (rules : Rules) (stops : List String) : Parser (List Node) := do
  if ← ahead .stay (startsOperand stops) then
    cross .stay
    return [← Expression.list rules .line stops true]
  else return []

def printTo (rules : Rules) : Parser Node := do
  let start ← get
  keyword .free "print"
  symbol .stay ">>"
  cross .aligned
  let parts ← Expression.list rules .line [] true
  node start .statement [parts]

def printStatement (rules : Rules) : Parser Node := do
  let start ← get
  keyword .free "print"
  cross .stay
  let parts ← Expression.list rules .line [] true
  node start .statement [parts]

def execStatement (rules : Rules) : Parser Node := do
  let start ← get
  keyword .free "exec"
  cross .stay
  let code ←
    match Token.opening? (← get).rest with
    | some o => Literal.single rules o
    | none => name .free
  let places ←
    if ← keyword? .stay "in" then
      cross .aligned
      pure [← Expression.list rules .line [] true]
    else pure []
  node start .statement (code :: places)

def typeAlias (rules : Rules) : Parser Node := do
  let start ← get
  keyword .free "type"
  cross .stay
  let left ← rules (.typeHint .line true)
  symbol .stay "="
  cross .aligned
  let right ← rules (.typeHint .line true)
  require (← atEnd)
  node start .statement [left, right]

def names (word : String) : Parser Node := do
  let start ← get
  keyword .free word
  cross .aligned
  let first ← name .free
  let rest ← many do
    if ← symbol? .stay "," then return some (← name .aligned) else return none
  node start .statement (first :: rest)

def assertion (rules : Rules) : Parser Node := do
  let start ← get
  keyword .free "assert"
  cross .aligned
  let first ← rules.expression .line
  let rest ← many do
    if ← symbol? .stay "," then
      cross .aligned
      return some (← rules.expression .line)
    else return none
  node start .statement (first :: rest)

def raising (rules : Rules) : Parser Node := do
  let start ← get
  keyword .free "raise"
  let raised ← values rules ["from"]
  let cause ←
    if ← keyword? .stay "from" then
      cross .aligned
      pure [← rules.expression .line]
    else pure []
  node start .statement (raised ++ cause)

def deletion (rules : Rules) : Parser Node := do
  let start ← get
  keyword .free "del"
  cross .aligned
  let targets ← Expression.list rules .line [] true
  node start .statement [targets]

def returning (rules : Rules) : Parser Node := do
  let start ← get
  keyword .free "return"
  let result ← values rules []
  node start .statement result

def bare (word : String) : Parser Node := do
  let start ← get
  keyword .free word
  node start .statement []

def statement (rules : Rules) : Parser Node := do
  match Token.word (← get).rest with
  | "import" => Import.statement
  | "from" => Import.fromStatement
  | "print" => orElse (printTo rules) (orElse (closed rules) (printStatement rules))
  | "exec" => orElse (closed rules) (execStatement rules)
  | "type" => orElse (typeAlias rules) (assigned rules)
  | "assert" => assertion rules
  | "return" => returning rules
  | "raise" => raising rules
  | "del" => deletion rules
  | "global" => names "global"
  | "nonlocal" => names "nonlocal"
  | "pass" => bare "pass"
  | "break" => bare "break"
  | "continue" => bare "continue"
  | _ => assigned rules

def line (rules : Rules) : Parser (List Node) := do
  let first ← statement rules
  let rest ← many do
    if ← symbol? .stay ";" then
      cross .stay
      if (← get).atLineEnd then return none
      return some (← statement rules)
    else return none
  cross .stay
  require (← get).atLineEnd
  return first :: rest

end DeadCode.Grammar.Simple
