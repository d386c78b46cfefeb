import DeadCode.FileName

/- Path patterns. A pattern is a sequence of tokens, some of which offer alternatives; a path matches
   when all its bytes can be used up. Single stars and question marks stay inside one component,
   double stars between slashes span any number of them. -/
namespace DeadCode.Glob

abbrev Bytes := List UInt8

def utf8 (c : Char) : Bytes := (String.singleton c).toUTF8.toList

def slash : UInt8 := 47

inductive Token where
  | literal (bytes : Bytes)
  | any
  | zeroOrMore
  | leading
  | trailing
  | between
  | oneOf (negated : Bool) (ranges : List (UInt8 × UInt8))
  deriving DecidableEq, Repr

def withinComponent : Bytes → List Bytes
  | [] => [[]]
  | b :: rest => (b :: rest) :: (if b == slash then [] else withinComponent rest)

def afterSlash : Bytes → List Bytes
  | [] => []
  | b :: rest => if b == slash then rest :: afterSlash rest else afterSlash rest

def tails : Bytes → List Bytes
  | [] => [[]]
  | b :: rest => (b :: rest) :: tails rest

namespace Token

def after : Token → Bytes → List Bytes
  | literal bytes, text => if bytes.isPrefixOf text then [text.drop bytes.length] else []
  | any, b :: rest => if b == slash then [] else [rest]
  | zeroOrMore, text => withinComponent text
  | leading, text => text :: afterSlash text
  | trailing, b :: rest => if b == slash then tails rest else []
  | between, b :: rest => if b == slash then rest :: afterSlash rest else []
  | oneOf negated ranges, b :: rest =>
    if (ranges.any fun (first, last) => first ≤ b && b ≤ last) != negated then [rest] else []
  | _, [] => []

end Token

inductive Part where
  | token (t : Token)
  | either (choices : List (List Token))
  deriving DecidableEq, Repr

def sequences : List Part → List (List Token)
  | [] => [[]]
  | .token t :: rest => (sequences rest).map (t :: ·)
  | .either choices :: rest => choices.flatMap fun c => (sequences rest).map (c ++ ·)

def matchTokens : List Token → Bytes → Bool
  | [], text => text.isEmpty
  | t :: rest, text => (t.after text).any (matchTokens rest)

end Glob

structure Glob where
  parts : List Glob.Part
  deriving DecidableEq, Repr

namespace Glob

def isMatch (glob : Glob) (path : String) : Bool :=
  glob.parts == [.token .leading] ||
    (sequences glob.parts).any fun tokens => matchTokens tokens (FileName.bytes path)

/-! Reading patterns -/

/-- The bytes of a character class entry. A range runs from the last byte of its first character to
    the first byte of its last. -/
def byteRanges (first last : Char) : List (UInt8 × UInt8) :=
  let single (b : UInt8) : UInt8 × UInt8 := (b, b)
  if first = last then (utf8 first).map single
  else
    ((utf8 first).dropLast.map single) ++
      [((utf8 first).getLastD 0, (utf8 last).headD 0)] ++ ((utf8 last).drop 1).map single

inductive ClassOutcome where
  | closed (ranges : List (Char × Char)) (rest : List Char)
  | unclosed
  | invalid

/-- Reads a character class behind its opening. A bracket that comes first is a member; a dash
    makes a range unless it comes first or last. The ranges so far are in reverse. -/
def readClass (first inRange : Bool) (ranges : List (Char × Char)) : List Char → ClassOutcome
  | [] => .unclosed
  | c :: rest =>
    if c == ']' && !first then .closed (if inRange then ('-', '-') :: ranges else ranges) rest
    else if c == '-' && !first && !inRange then readClass false true ranges rest
    else if inRange then
      match ranges with
      | (low, _) :: others =>
        if c < low then .invalid else readClass false false ((low, c) :: others) rest
      | [] => .invalid
    else readClass false false ((c, c) :: ranges) rest

structure Group where
  finished : List (List Part) := []
  current : List Part := []

/-- A pattern that is being read: the groups that are open, innermost first, the character before,
    and whether brackets have turned out not to be classes. -/
structure Reader where
  group : Group := {}
  outer : List Group := []
  previous : Option Char := none
  plainBrackets : Bool := false

namespace Reader

def push (r : Reader) (part : Part) : Reader :=
  { r with group.current := part :: r.group.current }

def pushToken (r : Reader) (t : Token) : Reader := r.push (.token t)

def pushChar (r : Reader) (c : Char) : Reader := r.pushToken (.literal (utf8 c))

def close? (r : Reader) : Option Reader :=
  match r.outer with
  | [] => none
  | group :: outer =>
    let branches := (r.group.current :: r.group.finished).reverse.map List.reverse
    let choices := (branches.flatMap sequences).filter fun tokens => !tokens.isEmpty
    let reader := { r with group, outer }
    some (if choices.isEmpty then reader else reader.push (.either choices))

/-- Two stars, given what follows them. Between slashes, or at an end of the pattern and next to a
    slash, they span components; otherwise they are two single stars. The flag says whether the
    following slash is used up. -/
def doubleStar (r : Reader) (next : Option Char) : Reader × Bool :=
  let twoStars := (r.pushToken .zeroOrMore).pushToken .zeroOrMore
  let grouped := !r.outer.isEmpty
  let replaceLast (t : Token) : Reader :=
    match r.group.current with
    | .token .leading :: _ | .token .trailing :: _ => r
    | _ :: others => { r with group.current := .token t :: others }
    | [] => r
  if r.group.current.isEmpty then
    if next.all (· == '/') then (r.pushToken .leading, next.isSome) else (twoStars, false)
  else if r.previous != some '/' && !(grouped && (r.previous == some ',' || r.previous == some '\x7b'))
  then (twoStars, false)
  else
    match next with
    | none => (replaceLast .trailing, false)
    | some '/' => (replaceLast .between, true)
    | some c =>
      if grouped && (c == ',' || c == '\x7d') then (replaceLast .trailing, false)
      else (twoStars, false)

/-- Reads a pattern, and fails on a group that is not opened or not closed, on a class with a range
    that runs backwards and on a backslash at the end. -/
def read : Nat → List Char → Reader → Option Reader
  | _, [], r => some r
  | 0, _, _ => none
  | n + 1, c :: rest, r =>
    let follow (rest : List Char) (last : Char) (r : Reader) : Option Reader :=
      read n rest { r with previous := some last }
    match c with
    | '?' => follow rest c (r.pushToken .any)
    | '*' =>
      match rest with
      | '*' :: more =>
        let (r, usesSlash) := r.doubleStar more.head?
        if usesSlash then follow (more.drop 1) '/' r else follow more '*' r
      | _ => follow rest c (r.pushToken .zeroOrMore)
    | '[' =>
      if r.plainBrackets then follow rest c (r.pushChar c)
      else
        let negated := rest.head? == some '!' || rest.head? == some '^'
        match readClass true false [] (if negated then rest.drop 1 else rest) with
        | .closed ranges more =>
          follow more ']'
            (r.pushToken (.oneOf negated (ranges.flatMap fun (a, b) => byteRanges a b)))
        | .unclosed => follow rest c ({ r with plainBrackets := true }.pushChar c)
        | .invalid => none
    | '\x7b' => follow rest c { r with group := {}, outer := r.group :: r.outer }
    | '\x7d' => r.close?.bind (follow rest c)
    | ',' =>
      if r.outer.isEmpty then follow rest c (r.pushChar c)
      else
        follow rest c
          { r with group := { finished := r.group.current :: r.group.finished, current := [] } }
    | '\\' =>
      match rest with
      | [] => none
      | escaped :: more => follow more escaped (r.pushChar escaped)
    | _ => follow rest c (r.pushChar c)

end Reader

def ofText? (text : String) : Option Glob :=
  let chars := text.toList
  match Reader.read chars.length chars {} with
  | some r => if r.outer.isEmpty then some ⟨r.group.current.reverse⟩ else none
  | none => none

end Glob
end DeadCode
