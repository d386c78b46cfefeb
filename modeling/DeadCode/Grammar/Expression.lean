import DeadCode.Grammar.Literal
import DeadCode.Grammar.Target

/- Expressions. Their trees keep what an analysis of names needs: names, attributes, calls and
   nesting. Chains of operators are flat. -/
namespace DeadCode.Grammar.Expression
open DeadCode.Tree DeadCode.Grammar.Parser

/-- Between `if` and `else`, and before the colon of a function, a line end cannot finish a
    statement. -/
def within : Bounds → Bounds
  | .line => .header
  | bounds => bounds

/-! Lists of expressions -/

def list (rules : Rules) (bounds : Bounds) (stops : List String) (conditional : Bool) :
    Parser Node := do
  let start ← get
  let first ← rules (.expression bounds conditional)
  if (← symbolAhead bounds.crossing) != "," then return first
  let rest ← many do
    if ← symbol? bounds.crossing "," then
      if ← ahead bounds.crossing (startsOperand stops) then
        cross bounds.crossing
        return some (some (← rules (.expression bounds conditional)))
      else return some none
    else return none
  node start .expressionList (first :: rest.filterMap id)

def yielded (rules : Rules) (bounds : Bounds) : Parser Node := do
  let start ← get
  keyword .free "yield"
  if ← keyword? bounds.crossing "from" then
    cross .aligned
    let source ← rules.expression bounds
    node start .expression [source]
  else if ← ahead bounds.crossing (startsOperand []) then
    cross bounds.crossing
    let values ← list rules bounds [] true
    node start .expression [values]
  else node start .expression []

def atYield : Parser Bool := return Token.word (← get).rest == "yield"

def fieldValue (rules : Rules) : Parser Node := do
  if ← atYield then yielded rules .field else list rules .field [] true

/-! Comprehensions -/

def star (rules : Rules) (symbolText : String) : Parser Node := do
  let start ← get
  symbol .free symbolText
  cross .aligned
  let inner ← rules.expression .bracket
  node start .splat [inner]

def element (rules : Rules) : Parser Node := do
  if ← atYield then yielded rules .bracket
  else if (← symbolAhead .free) == "*" then star rules "*"
  else rules.expression .bracket

def atComprehension : Parser Bool := return ["for", "async"].contains (← wordAhead .free)

def loopTarget (rules : Rules) : Parser Node := do
  let target ← rules (.operand .header)
  require (isTarget target)
  return target

def loopTargets (rules : Rules) : Parser (List Node) := do
  cross .aligned
  let targets ← commaItems .aligned (return (← wordAhead .aligned) == "in") (loopTarget rules)
  keyword .aligned "in"
  return targets

def loopClause (rules : Rules) : Parser Node := do
  let start ← get
  discard (keyword? .free "async")
  keyword .aligned "for"
  let targets ← loopTargets rules
  cross .aligned
  let sources ← list rules .bracket ["for", "async", "if"] false
  node start .clause (targets ++ [sources])

def filterClause (rules : Rules) : Parser Node := do
  let start ← get
  keyword .free "if"
  cross .aligned
  let condition ← rules (.expression .bracket false)
  node start .clause [condition]

def clauses (rules : Rules) : Parser (List Node) := many do
  let w ← wordAhead .free
  if w == "for" || w == "async" then
    cross .free
    return some (← loopClause rules)
  else if w == "if" then
    cross .free
    return some (← filterClause rules)
  else return none

def elementsAfter (rules : Rules) (start : Cursor) (closer : String) (first : Node)
    (item : Parser Node) : Parser Node := do
  if first.kind != .splat && (← atComprehension) then
    let parts ← clauses rules
    symbol .free closer
    node start .expression (first :: parts)
  else
    let rest ← many do
      if ← symbol? .free "," then
        if (← symbolAhead .free) == closer then return none
        cross .free
        return some (← item)
      else return none
    symbol .free closer
    node start .group (first :: rest)

/-! Brackets -/

def bracketed (rules : Rules) (opener closer : String) : Parser Node := do
  let start ← get
  symbol .free opener
  if ← symbol? .free closer then node start .group []
  else
    cross .free
    let first ← element rules
    elementsAfter rules start closer first (element rules)

def pairAfter (rules : Rules) (start : Cursor) (key : Node) : Parser Node := do
  symbol .free ":"
  cross .aligned
  let value ← rules.expression .bracket
  node start .expression [key, value]

def pair (rules : Rules) : Parser Node := do
  let start ← get
  if (← symbolAhead .free) == "**" then star rules "**"
  else pairAfter rules start (← rules.expression .bracket)

def braced (rules : Rules) : Parser Node := do
  let start ← get
  symbol .free "\x7b"
  if ← symbol? .free "\x7d" then node start .expression []
  else if ← symbol? .free "," then
    symbol .free "\x7d"
    node start .expression []
  else
    cross .free
    let inside ← get
    let whole ←
      if (← symbolAhead .free) == "**" then
        let first ← pair rules
        elementsAfter rules start "\x7d" first (pair rules)
      else
        let first ← element rules
        if first.kind != .splat && (← symbolAhead .free) == ":" then
          let first ← pairAfter rules inside first
          elementsAfter rules start "\x7d" first (pair rules)
        else elementsAfter rules start "\x7d" first (element rules)
    return { whole with kind := .expression }

def sliceItem (rules : Rules) : Parser Node := do
  let start ← get
  let bound : Parser (List Node) := do
    if [":", ",", "]"].contains (← symbolAhead .free) then return []
    cross .free
    return [← rules.expression .bracket]
  let lower ← bound
  if ← symbol? .free ":" then
    let upper ← bound
    let step ← if ← symbol? .free ":" then bound else pure []
    node start .expression (lower ++ upper ++ step)
  else
    match lower with
    | [index] => return index
    | _ => mismatch

def atNamedArgument : Parser Bool := do
  let c ← get
  let w := Token.word c.rest
  if w == "" || ["lambda", "not", "True", "False", "None"].contains w ||
      (Token.opening? c.rest).isSome then return false
  match (c.skip w.length).cross? .free with
  | some after => return Token.symbol after.rest == "="
  | none => return false

def argument (rules : Rules) : Parser Node := do
  let start ← get
  let s ← symbolAhead .free
  if s == "*" || s == "**" then star rules s
  else if ← atNamedArgument then
    let label ← name .free
    symbol .free "="
    cross .aligned
    let value ← rules.expression .bracket
    node start .expression [label, value]
  else rules.expression .bracket

def arguments (rules : Rules) : Parser Node := do
  let start ← get
  symbol .free "("
  if ← symbol? .free ")" then node start .arguments []
  else if ← symbol? .free "," then
    symbol .free ")"
    node start .arguments []
  else
    cross .free
    let first ← argument rules
    let whole ← elementsAfter rules start ")" first (argument rules)
    return { whole with kind := .arguments }

/-! Operands -/

def wordOperand (w : String) : Parser Node :=
  leaf (if ["True", "False", "None"].contains w then .literal else .identifier) w.length

def atom (rules : Rules) (bounds : Bounds) : Parser Node := do
  let text := (← get).rest
  match Token.opening? text with
  | some o => Literal.adjacent rules bounds o
  | none =>
    let digits := Token.number text
    let w := Token.word text
    if 0 < digits then leaf .literal digits
    else if w != "" then wordOperand w
    else
      match Token.symbol text with
      | "(" => bracketed rules "(" ")"
      | "[" => bracketed rules "[" "]"
      | "\x7b" => braced rules
      | "..." => leaf .literal 3
      | _ => mismatch

def access (rules : Rules) (bounds : Bounds) (start : Cursor) (base : Node) :
    Parser (Option Node) := do
  match ← symbolAhead bounds.crossing with
  | "." =>
    pass bounds.crossing 1
    let field ← name .aligned
    let parts := [base.as .object, field.as .attribute]
    some <$> node start .attribute parts
  | "(" =>
    cross bounds.crossing
    let args ← arguments rules
    some <$> node start .call [base.as .callee, args]
  | "[" =>
    pass bounds.crossing 1
    let items ← itemsUntil .aligned .free "]" (sliceItem rules)
    some <$> node start .subscript (base :: items)
  | _ => return none

def accessed (rules : Rules) (bounds : Bounds) : Parser Node := do
  let start ← get
  let base ← atom rules bounds
  grow (access rules bounds start) base

/-- Words that cannot begin the operand of `await`, which is then a name itself. -/
def operatorWords : List String := ["in", "is", "and", "or", "if", "else", "as", "not", "for"]

def startsAwaited (text : List Char) : Bool := startsOperand operatorWords text

def operand (rules : Rules) (bounds : Bounds) : Parser Node := do
  let start ← get
  match Token.symbol start.rest with
  | "+" | "-" | "~" =>
    pass .free 1
    cross .aligned
    let inner ← rules (.operand bounds)
    node start .expression [inner]
  | "*" =>
    pass .free 1
    cross .aligned
    let inner ← accessed rules bounds
    match starred inner with
    | some n => return n
    | none => mismatch
  | _ =>
    if Token.word start.rest == "await" then
      match (start.skip 5).cross? bounds.crossing with
      | some after =>
        if startsAwaited after.rest then
          pass .free 5
          cross bounds.crossing
          let inner ← rules (.operand bounds)
          return ← node start .expression [inner]
      | none => pure ()
    accessed rules bounds

/-! Operators -/

def operatorSymbols : List String :=
  ["+", "-", "*", "@", "/", "%", "//", "**", "|", "&", "^", "<<", ">>",
   "<", "<=", "==", "!=", ">=", ">", "<>"]

def operator? (bounds : Bounds) : Parser Bool := do
  if ← anySymbol? bounds.crossing operatorSymbols then return true
  match ← wordAhead bounds.crossing with
  | "in" =>
    keyword bounds.crossing "in"
    return true
  | "is" =>
    keyword bounds.crossing "is"
    discard (keyword? .aligned "not")
    return true
  | "not" =>
    let here ← get
    keyword bounds.crossing "not"
    if ← keyword? .aligned "in" then return true
    set here
    return false
  | _ => return false

def operation (rules : Rules) (bounds : Bounds) : Parser Node := do
  let start ← get
  let first ← operand rules bounds
  let rest ← many do
    if ← operator? bounds then
      cross .aligned
      return some (← rules (.operand bounds))
    else return none
  if rest.isEmpty then return first
  node start .expression (first :: rest)

/-! Parameters of functions -/

def parameter (rules : Rules) (bounds : Bounds) (annotated : Bool) : Parser Node := do
  let start ← get
  let note : Parser (List Node) := do
    if !annotated then return []
    if ← symbol? bounds.crossing ":" then
      cross .aligned
      return [← rules (.typeHint bounds true)]
    else return []
  let default : Parser (List Node) := do
    if ← symbol? bounds.crossing "=" then
      cross .aligned
      return [← rules.expression bounds]
    else return []
  match Token.symbol start.rest with
  | "/" =>
    pass .free 1
    node start .pattern []
  | "*" =>
    pass .free 1
    if (← wordAhead .aligned) == "" then node start .pattern []
    else
      let label ← name .aligned
      node start .pattern (label :: (← note))
  | "**" =>
    pass .free 2
    let label ← name .aligned
    node start .pattern (label :: (← note))
  | "(" =>
    let targets ← bracketed rules "(" ")"
    require (isTarget targets)
    node start .pattern (targets :: (← default))
  | _ =>
    let label ← name .free
    let hint ← note
    let value ← default
    if hint.isEmpty && value.isEmpty then return label
    node start .pattern (label :: hint ++ value)

def lambda (rules : Rules) (bounds : Bounds) (conditional : Bool) : Parser Node := do
  let start ← get
  keyword .free "lambda"
  let inner := within bounds
  let parameters ←
    if ← symbol? .aligned ":" then pure []
    else itemsUntil .aligned .aligned ":" (parameter rules inner false)
  cross .aligned
  let value ← rules (.expression bounds conditional)
  node start .expression (parameters ++ [value])

/-! Expressions -/

/-- Whether a word and then `:=` stand here. In a replacement field the colon starts the format. -/
def atNamed (bounds : Bounds) : Parser Bool := do
  let c ← get
  let w := Token.word c.rest
  if bounds == .field || w == "" || ["True", "False", "None"].contains w then return false
  match (c.skip w.length).cross? bounds.crossing with
  | some after => return Token.symbol after.rest == ":="
  | none => return false

def unit (rules : Rules) (bounds : Bounds) (conditional : Bool) : Parser Node := do
  let start ← get
  match Token.word start.rest with
  | "not" =>
    keyword .free "not"
    cross .aligned
    let inner ← rules (.unit bounds conditional)
    node start .expression [inner]
  | "lambda" => lambda rules bounds conditional
  | _ =>
    if ← atNamed bounds then
      let label ← name .free
      symbol bounds.crossing ":="
      cross .aligned
      let value ← rules (.expression bounds conditional)
      node start .expression [label, value]
    else operation rules bounds

def connective (rules : Rules) (bounds : Bounds) (conditional : Bool) (start : Cursor)
    (left : Node) : Parser (Option Node) := do
  let w ← wordAhead bounds.crossing
  if w == "and" || w == "or" then
    keyword bounds.crossing w
    cross .aligned
    let right ← rules (.unit bounds conditional)
    some <$> node start .expression [left, right]
  else if w == "if" && conditional then
    keyword bounds.crossing w
    cross .aligned
    let inner := within bounds
    let condition ← rules.expression inner
    keyword inner.crossing "else"
    cross .aligned
    let other ← rules (.expression bounds conditional)
    some <$> node start .expression [left, condition, other]
  else if w == "as" then
    keyword bounds.crossing w
    cross .aligned
    let target ← rules (.expression bounds conditional)
    some <$> node start .expression [left, target]
  else return none

def whole (rules : Rules) (bounds : Bounds) (conditional : Bool) : Parser Node := do
  let start ← get
  let first ← rules (.unit bounds conditional)
  grow (connective rules bounds conditional start) first

end DeadCode.Grammar.Expression
