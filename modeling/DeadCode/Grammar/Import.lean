import DeadCode.Grammar.Rule

/- Statements that bring in modules and names from modules. -/
namespace DeadCode.Grammar.Import
open DeadCode.Tree DeadCode.Grammar.Parser

def featureModule : String := "__future__"

def dottedName (crossing : Crossing) : Parser Node := do
  let start ← get
  let first ← name .free
  let rest ← many do
    if ← symbol? crossing "." then return some (← name .aligned) else return none
  nodeWithText start .dottedName (first :: rest)

def item (crossing : Crossing) : Parser Node := do
  let start ← get
  let path ← dottedName crossing
  if ← keyword? crossing "as" then
    let other ← name .aligned
    return (← node start .aliasedImport [path.as .name, other.as .otherName]).as .name
  else return path.as .name

def lineItems : Parser (List Node) :=
  commaItems .stay (return (← wordAhead .stay) == "") (item .stay)

def statement : Parser Node := do
  let start ← get
  keyword .free "import"
  cross .aligned
  let items ← lineItems
  node start .importStatement items

def fromItems : Parser (List Node) := do
  if ← symbol? .free "(" then itemsUntil .aligned .free ")" (item .free) else lineItems

def dotAhead : Parser Bool := ahead .aligned fun text => text.head? == some '.'

def relative : Parser Node := do
  let start ← get
  discard (many do
    if ← dotAhead then
      pass .aligned 1
      return some ()
    else return none)
  let dots ← nodeWithText start .importDots []
  let w ← wordAhead .aligned
  let path ←
    if w == "" || w == "import" then pure []
    else
      cross .aligned
      pure [← dottedName .aligned]
  nodeWithText start .relativeImport (dots :: path)

def fromModule (start : Cursor) : Parser Node := do
  let source ← if ← dotAhead then relative else dottedName .aligned
  keyword .aligned "import"
  cross .aligned
  let items ←
    if (← symbolAhead .free) == "*" then pure [← leaf .wildcard 1] else fromItems
  node start .fromImport (source.as .moduleName :: items)

def fromStatement : Parser Node := do
  let start ← get
  keyword .free "from"
  cross .aligned
  if ← keyword? .free featureModule then
    keyword .aligned "import"
    cross .aligned
    let items ← fromItems
    node start .futureImport items
  else fromModule start

end DeadCode.Grammar.Import
