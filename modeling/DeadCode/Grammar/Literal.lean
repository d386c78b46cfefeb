import DeadCode.Grammar.Rule

/- Text literals. Those with a format mark have replacement fields, which hold expressions. -/
namespace DeadCode.Grammar.Literal
open DeadCode.Tree DeadCode.Grammar.Parser

def contentLength (o : Token.Opening) (text : List Char) : Nat :=
  match text with
  | '\\' :: rest =>
    if o.raw then
      let quoted := Token.oneOf [o.quote, '\\'] rest
      let rest := rest.drop quoted
      1 + quoted + (if ['\r', '\n'].isPrefixOf rest then 2 else Token.oneOf ['\r', '\n'] rest)
    else if o.bytes && rest.head?.any ['N', 'u', 'U'].contains then 3
    else Token.escapeLength text
  | _ => 1

def isClosed (o : Token.Opening) (text : List Char) : Bool :=
  (List.replicate (if o.triple then 3 else 1) o.quote).isPrefixOf text

/-- Reads a literal up to its closing quotes. A line may end in a literal with single quotes only
    right behind the opening, an escape or a field, that is, where no content has been read. -/
def content (rules : Rules) (o : Token.Opening) : Nat → Bool → Parser (List Node)
  | 0, _ => mismatch
  | n + 1, read => do
    let text := (← get).rest
    match text with
    | [] => mismatch
    | c :: rest =>
      if o.format && (c == '\x7b' || c == '\x7d') then
        if rest.head? == some c then
          modify (·.skip 2)
          content rules o n false
        else
          require (c == '\x7b')
          let field ← rules .field
          return field :: (← content rules o n false)
      else if isClosed o text then
        modify (·.take (if o.triple then 3 else 1))
        return []
      else
        require (c != '\n' || o.triple || !read)
        modify (·.skip (contentLength o text))
        content rules o n (if c == '\\' then o.raw && read else true)

def single (rules : Rules) (o : Token.Opening) : Parser Node := do
  let start ← get
  modify fun c => { c.skip o.length with inFormat := o.format || c.inFormat }
  let fields ← content rules o (start.size - start.offset + 1) false
  modify fun c => { c with inFormat := false }
  node start .literal fields

def adjacent (rules : Rules) (bounds : Bounds) (o : Token.Opening) : Parser Node := do
  let start ← get
  let first ← single rules o
  let rest ← many do
    match ← ahead bounds.crossing Token.opening? with
    | some o =>
      cross bounds.crossing
      return some (← single rules o)
    | none => return none
  if rest.isEmpty then return first
  node start .literal (first :: rest)

def charAhead (c : Char) : Parser Bool := ahead .free fun text => text.head? == some c

def format (rules : Rules) : Parser (List Node) := many do
  match (← get).rest with
  | [] => return none
  | c :: rest =>
    if c == '\x7d' then return none
    else if c == '\x7b' then return some (← rules .field)
    else
      modify (·.skip ((rest.takeWhile fun c => c != '\x7b' && c != '\x7d').length + 1))
      return some { kind := .literal }

def field (rules : Rules) : Parser Node := do
  let start ← get
  symbol .free "\x7b"
  cross .free
  let value ← rules .fieldValue
  discard (symbol? .free "=")
  if ← charAhead '!' then
    cross .free
    require (((← get).rest.drop 1).head?.any Char.isLower)
    modify (·.take 2)
  let inner ←
    if ← charAhead ':' then
      cross .free
      modify (·.take 1)
      format rules
    else pure []
  symbol .free "\x7d"
  node start .expression (value :: inner)

end DeadCode.Grammar.Literal
