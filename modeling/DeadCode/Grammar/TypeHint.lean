import DeadCode.Grammar.Expression

/- Type annotations and type parameters. A name with types in brackets is read as a whole; any other
   annotation begins as an expression. -/
namespace DeadCode.Grammar.TypeHint
open DeadCode.Tree DeadCode.Grammar.Parser

def reserved : List String :=
  ["print", "exec", "async", "await", "match", "True", "False", "None", "not", "lambda"]

def atGeneric (bounds : Bounds) : Parser Bool := do
  let c ← get
  let w := Token.word c.rest
  if w == "" || reserved.contains w || (Token.opening? c.rest).isSome then return false
  match (c.skip w.length).cross? bounds.crossing with
  | some after => return Token.symbol after.rest == "["
  | none => return false

def typeList (rules : Rules) (crossing : Crossing) : Parser (List Node) := do
  symbol crossing "["
  itemsUntil .aligned .free "]" (rules (.typeHint .bracket true))

def atStarred (bounds : Bounds) : Parser Bool := do
  let c ← get
  let s := Token.symbol c.rest
  if s == "**" then return true
  if s != "*" then return false
  match (c.skip 1).cross? .aligned with
  | none => return false
  | some label =>
    match (label.skip (Token.word label.rest).length).cross? bounds.crossing with
    | some after => return !(["[", "("].contains (Token.symbol after.rest))
    | none => return true

def first (rules : Rules) (bounds : Bounds) : Parser Node := do
  let start ← get
  let s := Token.symbol start.rest
  if ← atStarred bounds then
    pass .free s.length
    let label ← name .aligned
    node start .typeHint [label]
  else if ← atGeneric bounds then
    let label ← name .free
    let types ← typeList rules bounds.crossing
    node start .typeHint (label :: types)
  else rules.expression bounds

def more (rules : Rules) (bounds : Bounds) (constrained : Bool) (start : Cursor) (left : Node) :
    Parser (Option Node) := do
  if ← symbol? bounds.crossing "|" then
    cross .aligned
    let right ← rules (.typeHint bounds constrained)
    some <$> node start .typeHint [left, right]
  else if ← symbol? bounds.crossing "." then
    let member ← name .aligned
    some <$> node start .typeHint [left, member]
  else if !constrained then return none
  else if ← symbol? bounds.crossing ":" then
    cross .aligned
    let bound ← rules (.typeHint bounds constrained)
    some <$> node start .typeHint [left, bound]
  else return none

def whole (rules : Rules) (bounds : Bounds) (constrained : Bool) : Parser Node := do
  let start ← get
  let left ← first rules bounds
  grow (more rules bounds constrained start) left

def typeParameters (rules : Rules) : Parser (List Node) := do
  if (← symbolAhead .aligned) != "[" then return []
  cross .aligned
  let start ← get
  let types ← typeList rules .free
  return [(← node start .typeParameters types).as .typeParameters]

end DeadCode.Grammar.TypeHint
