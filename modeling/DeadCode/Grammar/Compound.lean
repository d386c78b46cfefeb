import DeadCode.Grammar.CasePattern
import DeadCode.Grammar.Simple

/- Statements with blocks. A block is the rest of a line, the lines that stand right of the open
   block, or nothing. -/
namespace DeadCode.Grammar.Compound
open DeadCode.Tree DeadCode.Grammar.Parser

/-! Blocks -/

def blockItem (item : Parser Node) : Parser (Option Node) := do
  let c ← get
  let m := c.margin
  if m.endsBlock c.indent then return none
  else if m.comment.isSome then
    let start := c.skip (Cursor.blankLength c.rest)
    set c.pastComment
    some <$> node start .comment []
  else
    set (c.skip m.length)
    cross .free
    if (← get).rest.isEmpty then return none
    return some (← item)

def indented (item : Parser Node) : Parser (List Node) := do
  let c ← get
  let m := c.margin
  if c.indent < m.width then
    set { c with indents := m.width :: c.indents }
    let items ← many (blockItem item)
    modify fun after => { after with indents := c.indents }
    return items
  else return []

def suite (rules : Rules) : Parser Node := do
  symbol .aligned ":"
  cross .stay
  let start ← get
  let items ←
    if start.atLineEnd then indented (rules .statement) else Simple.line rules
  return (← node start .block items).as .body

/-! Clauses -/

def clauseWord (choices : List String) : Parser String := do
  let before ← get
  discard (many do
    let c ← get
    let m := c.margin
    if !m.endsBlock c.indent && m.comment.isSome then
      set c.pastComment
      return some ()
    else return none)
  let c ← get
  let w ← if c.margin.endsBlock c.indent then pure "" else wordAhead .free
  if choices.contains w then
    cross .free
    return w
  else
    set before
    return ""

def clause? (rules : Rules) (word : String) (head : Parser (List Node)) :
    Parser (Option Node) := do
  if (← clauseWord [word]) == "" then return none
  committed do
    let start ← get
    keyword .free word
    let parts ← head
    let body ← suite rules
    some <$> node start .clause (parts ++ [body])

def noHead : Parser (List Node) := pure []

def condition (rules : Rules) : Parser (List Node) := do
  cross .aligned
  return [← rules.expression .header]

def elseClause (rules : Rules) : Parser (List Node) := return (← clause? rules "else" noHead).toList

/-- What an `except` clause handles. A star that makes it handle groups follows at once. -/
def handled (rules : Rules) : Parser (List Node) := do
  if (← get).rest.head? == some '*' then modify (·.take 1)
  if (← symbolAhead .aligned) == ":" then return []
  cross .aligned
  let first ← rules.expression .header
  if ← symbol? .aligned "," then
    cross .aligned
    return [first, ← rules.expression .header]
  else return [first]

/-! Statements -/

def ifStatement (rules : Rules) : Parser Node := do
  let start ← get
  keyword .free "if"
  cross .aligned
  let before ← get
  let tested ← rules.expression .header
  let tested ← keepText before tested
  let body ← suite rules
  let others ← many (clause? rules "elif" (condition rules))
  let last ← elseClause rules
  node start .ifStatement (tested.as .condition :: body :: others ++ last)

def whileStatement (rules : Rules) : Parser Node := do
  let start ← get
  keyword .free "while"
  let tested ← condition rules
  let body ← suite rules
  let last ← elseClause rules
  node start .statement (tested ++ body :: last)

def forStatement (rules : Rules) (start : Cursor) : Parser Node := do
  keyword .aligned "for"
  let targets ← Expression.loopTargets rules
  cross .aligned
  let source ← Expression.list rules .header [] true
  let body ← suite rules
  let last ← elseClause rules
  node start .statement (targets ++ source :: body :: last)

def withStatement (rules : Rules) (start : Cursor) : Parser Node := do
  keyword .aligned "with"
  cross .aligned
  let managers ← Expression.list rules .header [] true
  let body ← suite rules
  node start .statement [managers, body]

def tryStatement (rules : Rules) : Parser Node := do
  let start ← get
  keyword .free "try"
  let body ← suite rules
  let handlers ← many (clause? rules "except" (handled rules))
  let last ← if handlers.isEmpty then pure [] else elseClause rules
  let final ← clause? rules "finally" noHead
  require (!handlers.isEmpty || final.isSome)
  node start .statement (body :: handlers ++ last ++ final.toList)

/-! Definitions -/

def parameters (rules : Rules) : Parser Node := do
  cross .aligned
  let start ← get
  symbol .free "("
  let items ←
    if ← symbol? .free ")" then pure []
    else itemsUntil .free .free ")" (Expression.parameter rules .bracket true)
  return (← node start .parameters items).as .parameters

def functionDefinition (rules : Rules) (start : Cursor) : Parser Node := do
  keyword .aligned "def"
  let label ← name .aligned
  let types ← TypeHint.typeParameters rules
  let inputs ← parameters rules
  let output ←
    if ← symbol? .aligned "->" then
      cross .aligned
      pure [(← rules (.typeHint .header false)).as .returnType]
    else pure []
  let body ← suite rules
  node start .functionDefinition (label.as .name :: types ++ inputs :: output ++ [body])

def classDefinition (rules : Rules) : Parser Node := do
  let start ← get
  keyword .free "class"
  let label ← name .aligned
  let types ← TypeHint.typeParameters rules
  let bases ←
    if (← symbolAhead .aligned) == "(" then
      cross .aligned
      pure [(← Expression.arguments rules).as .superclasses]
    else pure []
  let body ← suite rules
  node start .classDefinition (label.as .name :: types ++ bases ++ [body])

def decorator (rules : Rules) : Parser Node := do
  let start ← get
  symbol .free "@"
  cross .aligned
  let value ← rules.expression .line
  cross .stay
  require (← get).atLineEnd
  node start .decorator [value]

def decorated (rules : Rules) : Parser Node := do
  let start ← get
  let decorators ← many do
    if (← symbolAhead .aligned) == "@" then
      cross .aligned
      return some (← decorator rules)
    else return none
  cross .aligned
  let begin ← get
  let definition ←
    if Token.word begin.rest == "class" then classDefinition rules
    else
      discard (keyword? .free "async")
      functionDefinition rules begin
  node start .decoratedDefinition (decorators ++ [definition.as .definition])

/-! Matching -/

def caseClause (rules : Rules) : Parser Node := committed do
  let start ← get
  keyword .free "case"
  cross .aligned
  let ends : Parser Bool := do
    return (← wordAhead .aligned) == "if" || (← symbolAhead .aligned) == ":"
  let patterns ← commaItems .aligned ends (rules (.casePattern .header))
  let guard ← if ← keyword? .aligned "if" then condition rules else pure []
  let body ← suite rules
  node start .clause (patterns ++ guard ++ [body])

def matchHeader (rules : Rules) : Parser Node := do
  keyword .free "match"
  cross .stay
  let subjects ← Expression.list rules .line [] true
  symbol .stay ":"
  cross .stay
  require (← get).atLineEnd
  return subjects

def matchStatement (rules : Rules) (start : Cursor) (subjects : Node) : Parser Node := do
  let cases ← indented (caseClause rules)
  node start .statement (subjects :: cases)

/-! All statements -/

def simpleLine (rules : Rules) : Parser Node := do
  let start ← get
  match ← Simple.line rules with
  | [single] => return single
  | several => node start .statement several

def asyncStatement (rules : Rules) : Parser Node := do
  let start ← get
  match ((start.skip 5).cross? .aligned).map fun after => Token.word after.rest with
  | some "def" =>
    keyword .free "async"
    functionDefinition rules start
  | some "for" =>
    keyword .free "async"
    forStatement rules start
  | some "with" =>
    keyword .free "async"
    withStatement rules start
  | _ => simpleLine rules

def statement (rules : Rules) : Parser Node := committed do
  let start ← get
  if Token.symbol start.rest == "@" then decorated rules
  else
    match Token.word start.rest with
    | "if" => ifStatement rules
    | "while" => whileStatement rules
    | "for" => forStatement rules start
    | "with" => withStatement rules start
    | "try" => tryStatement rules
    | "def" => functionDefinition rules start
    | "class" => classDefinition rules
    | "async" => asyncStatement rules
    | "match" =>
      match ← attempt (matchHeader rules) with
      | some subjects => matchStatement rules start subjects
      | none => simpleLine rules
    | _ => simpleLine rules

end DeadCode.Grammar.Compound
