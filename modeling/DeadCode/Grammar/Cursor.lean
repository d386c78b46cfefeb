import DeadCode.Tree.Node

/- Positions in a source text, and the gaps between its tokens: blanks, comments, line ends and
   line ends that a backslash hides. Whether a line end may stand in a gap depends on the place in
   the grammar, and a line that starts left of the open block ends that block. -/
namespace DeadCode.Grammar
open DeadCode.Tree (Place)

/-- The rest of the text after what has been read, the indentations of the open blocks, innermost
    first, and whether a text literal with replacement fields is open. -/
structure Cursor where
  rest : List Char
  size : Nat
  offset : Nat := 0
  place : Place := {}
  tokenEnd : Place := {}
  indents : List Nat := []
  inFormat : Bool := false
  deriving Inhabited

inductive Crossing where
  | stay
  | aligned
  | free
  deriving DecidableEq, Repr

namespace Cursor

def start (source : String) : Cursor := { rest := source.toList, size := source.toList.length }

def indent (c : Cursor) : Nat := c.indents.headD 0

def skip : Nat → Cursor → Cursor
  | 0, c => c
  | n + 1, c =>
    match c.rest with
    | [] => c
    | x :: rest =>
      let place : Place :=
        if x = '\n' then { row := c.place.row + 1 }
        else { row := c.place.row, column := c.place.column + 1 }
      skip n { c with rest, place, offset := c.offset + 1 }

def take (n : Nat) (c : Cursor) : Cursor :=
  let c := c.skip n
  { c with tokenEnd := c.place }

def atLineEnd (c : Cursor) : Bool :=
  match c.rest with
  | [] => true
  | x :: _ => x == '\n'

def textTo (c later : Cursor) : String := String.ofList (c.rest.take (later.offset - c.offset))

end Cursor

inductive GapState where
  | blank
  | comment
  | escape
  | escapeReturn
  deriving DecidableEq, Repr

/-- How far a gap has been read. The margin is the indentation since the last line end. -/
structure Gap where
  state : GapState := .blank
  length : Nat := 0
  crossed : Bool := false
  margin : Nat := 0

namespace Gap

/-- Blanks that count for nothing, besides space, tab, return and form feed. -/
def isZeroWidth (c : Char) : Bool :=
  c == '\x0b' || c == '\u200b' || c == '\u2060' || c == '\ufeff'

def isBlank (c : Char) : Bool :=
  c == ' ' || c == '\t' || c == '\r' || c == '\x0c' || isZeroWidth c

/-- The margin after one more blank: a tab is eight wide, returns and form feeds start over. -/
def widen (margin : Nat) (c : Char) : Nat :=
  if c == ' ' then margin + 1
  else if c == '\t' then margin + 8
  else if isZeroWidth c then margin
  else 0

def isQuote (c : Char) : Bool := c == '"' || c == '\x27' || c == '`'

def admits (crossing : Crossing) (indent : Nat) (next : Char) (gap : Gap) : Bool :=
  crossing != .aligned || !gap.crossed || isQuote next || decide (indent ≤ gap.margin)

def read (crossing : Crossing) (indent : Nat) : List Char → Gap → Option Nat
  | [], gap => if crossing == .aligned && decide (0 < indent) then none else some gap.length
  | c :: rest, gap =>
    let gap' := { gap with length := gap.length + 1 }
    match gap.state with
    | .escape =>
      if c == '\n' then read crossing indent rest { gap' with state := .blank }
      else if c == '\r' then read crossing indent rest { gap' with state := .escapeReturn }
      else none
    | .escapeReturn =>
      if c == '\n' then read crossing indent rest { gap' with state := .blank } else none
    | state =>
      if c == '\n' then
        if crossing == .stay then some gap.length
        else read crossing indent rest { gap' with state := .blank, crossed := true, margin := 0 }
      else if state == .comment then read crossing indent rest gap'
      else if isBlank c then read crossing indent rest { gap' with margin := widen gap.margin c }
      else if c == '\\' then read crossing indent rest { gap' with state := .escape }
      else if !gap.admits crossing indent c then none
      else if c == '#' then
        read crossing indent rest { gap' with state := .comment, crossed := false }
      else some gap.length

end Gap

/-- What stands between a finished statement and the next: the indentation of the next statement,
    zero at the end of the text, and of the first comment before it. -/
structure Margin where
  state : GapState := .blank
  length : Nat := 0
  crossed : Bool := false
  width : Nat := 0
  comment : Option Nat := none
  atEnd : Bool := false

namespace Margin

def read : List Char → Margin → Margin
  | [], m => { m with crossed := true, width := 0, atEnd := true }
  | c :: rest, m =>
    let m' := { m with length := m.length + 1 }
    match m.state with
    | .escape =>
      if c == '\n' then read rest { m' with state := .blank }
      else if c == '\r' then read rest { m' with state := .escapeReturn }
      else m
    | .escapeReturn => if c == '\n' then read rest { m' with state := .blank } else m
    | state =>
      if c == '\n' then read rest { m' with state := .blank, crossed := true, width := 0 }
      else if state == .comment then read rest m'
      else if c == '#' then
        read rest { m' with state := .comment, comment := m.comment.or (some m.width) }
      else if c == '\\' then read rest { m' with state := .escape }
      else if Gap.isBlank c && !Gap.isZeroWidth c then
        read rest { m' with width := Gap.widen m.width c }
      else m

/-- A line left of the block ends it, once the comments that belong to the block are read. -/
def endsBlock (indent : Nat) (m : Margin) : Bool :=
  m.crossed && decide (m.width < indent) && m.comment.all (· < indent)

end Margin

namespace Cursor

def margin (c : Cursor) : Margin := Margin.read c.rest {}

def cross? (crossing : Crossing) (c : Cursor) : Option Cursor :=
  (Gap.read crossing (if c.inFormat then 0 else c.indent) c.rest {}).map fun n => c.skip n

def blankLength : List Char → Nat
  | [] => 0
  | c :: rest => if c == '\n' || Gap.isBlank c then blankLength rest + 1 else 0

def pastComment (c : Cursor) : Cursor :=
  let c := c.skip (blankLength c.rest)
  c.take (c.rest.takeWhile (· != '\n')).length

end Cursor
end DeadCode.Grammar
