import DeadCode.Grammar.Literal

/- The patterns of `case` clauses. Names in them are names, also each part of a dotted one; a lone
   underscore is none. -/
namespace DeadCode.Grammar.CasePattern
open DeadCode.Tree DeadCode.Grammar.Parser

def wildcard : String := "_"

def label (crossing : Crossing) : Parser (List Node) := do
  let n ← name crossing
  return if n.text == wildcard then [] else [n]

def numberLeaf : Parser Node := do
  let digits := Token.number (← get).rest
  require (0 < digits)
  leaf .literal digits

def number (bounds : Bounds) : Parser Node := do
  let first ← numberLeaf
  if ← anySymbol? bounds.crossing ["+", "-"] then
    cross .aligned
    discard numberLeaf
  return first

def bracketed (rules : Rules) (closer : String) : Parser (List Node) := do
  if ← symbol? .free closer then return []
  itemsUntil .free .free closer (rules (.casePattern .bracket))

def dotted (rules : Rules) (bounds : Bounds) : Parser Node := do
  let start ← get
  let first ← name .free
  let rest ← many do
    if ← symbol? bounds.crossing "." then return some (← name .aligned) else return none
  let parts ←
    if ← symbol? bounds.crossing "(" then bracketed rules ")" else pure []
  node start .pattern (first :: rest ++ parts)

def wordPattern (rules : Rules) (bounds : Bounds) (w : String) : Parser Node := do
  if w == wildcard then leaf .pattern 1
  else if ["True", "False", "None"].contains w then leaf .literal w.length
  else dotted rules bounds

def simple (rules : Rules) (bounds : Bounds) (entry : Parser Node) : Parser Node := do
  let start ← get
  match Token.opening? start.rest with
  | some o => Literal.adjacent rules bounds o
  | none =>
    let w := Token.word start.rest
    if w != "" then wordPattern rules bounds w
    else if 0 < Token.number start.rest then number bounds
    else
      let s := Token.symbol start.rest
      match s with
      | "-" =>
        pass .free 1
        cross .aligned
        number bounds
      | "*" | "**" =>
        pass .free s.length
        node start .pattern (← label .aligned)
      | "[" =>
        pass .free 1
        node start .pattern (← bracketed rules "]")
      | "(" =>
        pass .free 1
        node start .pattern (← bracketed rules ")")
      | "\x7b" =>
        pass .free 1
        if ← symbol? .free "\x7d" then node start .pattern []
        else node start .pattern (← itemsUntil .free .free "\x7d" entry)
      | _ => mismatch

/-- An entry of a mapping pattern has no mapping pattern as its key. -/
def entry (rules : Rules) : Parser Node := do
  let start ← get
  if ["*", "**"].contains (Token.symbol start.rest) then simple rules .bracket mismatch
  else
    let key ← simple rules .bracket mismatch
    symbol .free ":"
    cross .aligned
    let value ← rules (.casePattern .bracket)
    node start .pattern [key, value]

def union (rules : Rules) (bounds : Bounds) : Parser Node := do
  let start ← get
  let first ← simple rules bounds (entry rules)
  let rest ← many do
    if ← symbol? bounds.crossing "|" then
      cross .aligned
      return some (← simple rules bounds (entry rules))
    else return none
  if rest.isEmpty then return first
  node start .pattern (first :: rest)

def atKeyword (bounds : Bounds) : Parser Bool := do
  let c ← get
  let w := Token.word c.rest
  if w == "" || (Token.opening? c.rest).isSome then return false
  match (c.skip w.length).cross? bounds.crossing with
  | some after => return Token.symbol after.rest == "="
  | none => return false

def whole (rules : Rules) (bounds : Bounds) : Parser Node := do
  let start ← get
  let first ←
    if ← atKeyword bounds then
      let key ← name .free
      symbol bounds.crossing "="
      cross .aligned
      let value ← union rules bounds
      node start .pattern [key, value]
    else union rules bounds
  let targets ← many do
    if ← keyword? bounds.crossing "as" then return some (← name .aligned) else return none
  if targets.isEmpty then return first
  node start .pattern (first :: targets)

end DeadCode.Grammar.CasePattern
