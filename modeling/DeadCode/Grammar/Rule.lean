import DeadCode.Grammar.Parser

/- The constructs that contain each other. A parser of one construct takes the parsers of all of them
   as an argument. -/
namespace DeadCode.Grammar
open DeadCode.Tree

/-- A conditional reading may take `if` and `else`; inside a comprehension an `if` belongs to the
    comprehension. A constrained annotation may be followed by a bound. -/
inductive Rule where
  | expression (bounds : Bounds) (conditional : Bool)
  | unit (bounds : Bounds) (conditional : Bool)
  | operand (bounds : Bounds)
  | field
  | fieldValue
  | typeHint (bounds : Bounds) (constrained : Bool)
  | casePattern (bounds : Bounds)
  | assigned
  | statement
  deriving DecidableEq, Repr

abbrev Rules := Rule → Parser Node

namespace Rules

def expression (rules : Rules) (bounds : Bounds) : Parser Node :=
  rules (.expression bounds true)

end Rules

namespace Parser

def growUpTo (step : Node → Parser (Option Node)) : Nat → Node → Parser Node
  | 0, n => pure n
  | k + 1, n => do
    match ← step n with
    | some larger => growUpTo step k larger
    | none => pure n

def grow (step : Node → Parser (Option Node)) (n : Node) : Parser Node := do
  let c ← get
  growUpTo step (c.size - c.offset + 1) n

/-- Items divided by commas. After a comma the list may end where `ends` holds. -/
def commaItems {α : Type} (crossing : Crossing) (ends : Parser Bool) (item : Parser α) :
    Parser (List α) := do
  let first ← item
  let rest ← many do
    if ← symbol? crossing "," then
      if ← ends then return none
      cross crossing
      return some (← item)
    else return none
  return first :: rest

def itemsUntil {α : Type} (opening crossing : Crossing) (closer : String) (item : Parser α) :
    Parser (List α) := do
  cross opening
  let items ← commaItems crossing (return (← symbolAhead crossing) == closer) item
  symbol crossing closer
  return items

/-- Words that may begin an operand are names; a word in `stops` belongs to what follows. -/
def startsOperand (stops : List String) (text : List Char) : Bool :=
  (Token.opening? text).isSome || decide (0 < Token.number text) ||
    (Token.word text != "" && !stops.contains (Token.word text)) ||
    ["(", "[", "\x7b", "+", "-", "~", "*", "..."].contains (Token.symbol text)

end Parser
end DeadCode.Grammar
