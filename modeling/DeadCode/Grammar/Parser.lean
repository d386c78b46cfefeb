import DeadCode.Grammar.Cursor
import DeadCode.Grammar.Token

/- Parsers move a cursor over the tokens of one construct. They start at its first token and stop
   right behind its last one; a gap is crossed only when a token that is wanted stands behind it. -/
namespace DeadCode.Grammar
open DeadCode.Tree

/-- A mismatch lets another reading be tried. Damage is a statement that has no reading. -/
inductive Trouble where
  | mismatch
  | damage (row : Nat)
  deriving DecidableEq, Repr

abbrev Parser := StateT Cursor (Except Trouble)

inductive Bounds where
  | line
  | header
  | bracket
  | field
  deriving DecidableEq, Repr

def Bounds.crossing : Bounds → Crossing
  | .line => .stay
  | .header => .aligned
  | .bracket | .field => .free

namespace Parser

def mismatch {α : Type} : Parser α := throw .mismatch

def require (condition : Bool) : Parser Unit := if condition then pure () else mismatch

def attempt {α : Type} (p : Parser α) : Parser (Option α) := fun c =>
  match p c with
  | .ok (value, next) => .ok (some value, next)
  | .error .mismatch => .ok (none, c)
  | .error trouble => .error trouble

def orElse {α : Type} (p q : Parser α) : Parser α := do
  match ← attempt p with
  | some value => pure value
  | none => q

/-- A statement or clause that does not match is damage at its first row. -/
def committed {α : Type} (p : Parser α) : Parser α := fun c =>
  match p c with
  | .error .mismatch => .error (.damage c.place.row)
  | outcome => outcome

/-- Repeats a parser until it gives nothing. Each round reads a token, so the characters that are
    left bound the number of rounds. -/
def manyUpTo {α : Type} (p : Parser (Option α)) : Nat → Parser (List α)
  | 0 => pure []
  | n + 1 => do
    match ← p with
    | some value => return value :: (← manyUpTo p n)
    | none => pure []

def many {α : Type} (p : Parser (Option α)) : Parser (List α) := do
  let c ← get
  manyUpTo p (c.size - c.offset + 1)

def cross (crossing : Crossing) : Parser Unit := do
  match (← get).cross? crossing with
  | some c => set c
  | none => mismatch

def ahead {α : Type} [Inhabited α] (crossing : Crossing) (look : List Char → α) : Parser α := do
  match (← get).cross? crossing with
  | some c => pure (look c.rest)
  | none => pure default

def wordAhead (crossing : Crossing) : Parser String := ahead crossing Token.word

def symbolAhead (crossing : Crossing) : Parser String := ahead crossing Token.symbol

def pass (crossing : Crossing) (length : Nat) : Parser Unit := do
  cross crossing
  modify (·.take length)

def symbol? (crossing : Crossing) (s : String) : Parser Bool := do
  if (← symbolAhead crossing) == s then
    pass crossing s.length
    return true
  else return false

def anySymbol? (crossing : Crossing) (choices : List String) : Parser Bool := do
  let s ← symbolAhead crossing
  if choices.contains s then
    pass crossing s.length
    return true
  else return false

def symbol (crossing : Crossing) (s : String) : Parser Unit := do
  require (← symbol? crossing s)

def keyword? (crossing : Crossing) (s : String) : Parser Bool := do
  if (← wordAhead crossing) == s then
    pass crossing s.length
    return true
  else return false

def keyword (crossing : Crossing) (s : String) : Parser Unit := do
  require (← keyword? crossing s)

def node (start : Cursor) (kind : Kind) (children : List Node) : Parser Node := do
  return { kind, children, span := ⟨start.place, (← get).tokenEnd⟩ }

def nodeWithText (start : Cursor) (kind : Kind) (children : List Node) : Parser Node := do
  let here ← get
  return { kind, children, span := ⟨start.place, here.tokenEnd⟩, text := start.textTo here }

def leaf (kind : Kind) (length : Nat) : Parser Node := do
  let start ← get
  modify (·.take length)
  nodeWithText start kind []

def name (crossing : Crossing) : Parser Node := do
  cross crossing
  let w := Token.word (← get).rest
  require (w != "")
  leaf .identifier w.length

def keepText (start : Cursor) (n : Node) : Parser Node := do
  return { n with text := start.textTo (← get) }

end Parser
end DeadCode.Grammar
