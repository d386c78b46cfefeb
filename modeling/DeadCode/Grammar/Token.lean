import DeadCode.Grammar.WordChar

/- The longest token of each sort at the front of a text: words, numbers, operator symbols and the
   openings of text literals. -/
namespace DeadCode.Grammar.Token

def word (text : List Char) : String :=
  match text with
  | [] => ""
  | c :: rest =>
    if WordChar.starts c then String.ofList (c :: rest.takeWhile WordChar.continues) else ""

/-- Operators and punctuation, longer ones first. -/
def symbols : List String :=
  ["**=", "//=", ">>=", "<<=", "...",
   "**", "//", ">>", "<<", "<=", ">=", "==", "!=", "<>", "->", ":=", "+=", "-=", "*=", "/=", "@=",
   "%=", "&=", "|=", "^=",
   "(", ")", "[", "]", "\x7b", "\x7d", ",", ":", ".", ";", "@", "=", "+", "-", "*", "/", "%", "&",
   "|", "^", "~", "<", ">"]

def spelledSymbols : List (List Char × String) := symbols.map fun s => (s.toList, s)

def symbol (text : List Char) : String :=
  ((spelledSymbols.find? fun (chars, _) => chars.isPrefixOf text).map (·.2)).getD ""

def isHex (c : Char) : Bool :=
  c.isDigit || (decide ('a' ≤ c) && decide (c ≤ 'f')) || (decide ('A' ≤ c) && decide (c ≤ 'F'))

def isOctal (c : Char) : Bool := decide ('0' ≤ c) && decide (c ≤ '7')

def isBinary (c : Char) : Bool := c == '0' || c == '1'

/-- Decimal digits, where one underscore may follow each run. -/
def digitsAfter (digit : Bool) : List Char → Nat
  | [] => 0
  | c :: rest =>
    if c.isDigit then digitsAfter true rest + 1
    else if digit && c == '_' then digitsAfter false rest + 1
    else 0

def digitsLength (text : List Char) : Nat := digitsAfter false text

def baseDigitsLength (digit : Char → Bool) : List Char → Nat
  | [] => 0
  | c :: rest =>
    if digit c then baseDigitsLength digit rest + 1
    else if c == '_' && rest.head?.any digit then baseDigitsLength digit rest + 1
    else 0

def oneOf (chars : List Char) (text : List Char) : Nat :=
  if text.head?.any chars.contains then 1 else 0

def exponentLength (text : List Char) : Nat :=
  match text with
  | e :: rest =>
    if e == 'e' || e == 'E' then
      let sign := oneOf ['+', '-'] rest
      let digits := digitsLength (rest.drop sign)
      if digits = 0 then 0 else 1 + sign + digits
    else 0
  | [] => 0

def baseLength (text : List Char) : Nat :=
  match text with
  | '0' :: mark :: rest =>
    let digits :=
      if mark == 'x' || mark == 'X' then baseDigitsLength isHex rest
      else if mark == 'o' || mark == 'O' then baseDigitsLength isOctal rest
      else if mark == 'b' || mark == 'B' then baseDigitsLength isBinary rest
      else 0
    if digits = 0 then 0 else 2 + digits + oneOf ['l', 'L'] (rest.drop digits)
  | _ => 0

def decimalLength (text : List Char) : Nat :=
  let whole := digitsLength text
  let rest := text.drop whole
  let point := oneOf ['.'] rest
  let fraction := digitsLength (rest.drop point)
  if point = 1 && (0 < whole || 0 < fraction) then
    let body := whole + 1 + fraction
    let exponent := exponentLength (text.drop body)
    body + exponent + oneOf ['j', 'J'] (text.drop (body + exponent))
  else if whole = 0 then 0
  else
    let exponent := exponentLength rest
    if exponent = 0 then whole + oneOf ['l', 'L', 'j', 'J'] rest
    else whole + exponent + oneOf ['j', 'J'] (rest.drop exponent)

def number (text : List Char) : Nat := max (baseLength text) (decimalLength text)

structure Opening where
  length : Nat
  quote : Char
  triple : Bool
  raw : Bool
  bytes : Bool
  format : Bool
  deriving DecidableEq, Repr

def literalMarks : List Char := ['f', 'F', 'r', 'R', 'b', 'B', 'u', 'U']

def opening? (text : List Char) : Option Opening :=
  let marks := text.takeWhile literalMarks.contains
  match text.drop marks.length with
  | [] => none
  | quote :: rest =>
    if quote == '"' || quote == '\x27' || quote == '`' then
      let triple := quote != '`' && [quote, quote].isPrefixOf rest
      some {
        length := marks.length + if triple then 3 else 1
        quote, triple
        raw := marks.any fun c => c == 'r' || c == 'R'
        bytes := marks.any fun c => c == 'b' || c == 'B'
        format := marks.any fun c => c == 'f' || c == 'F' }
    else none

/-- The escape at the front of a text that starts with a backslash. A backslash that begins no
    escape stands for itself. -/
def escapeLength (text : List Char) : Nat :=
  match text.drop 1 with
  | [] => 1
  | c :: rest =>
    let hex (n : Nat) : Nat := if n ≤ ((rest.take n).takeWhile isHex).length then n + 2 else 1
    if c == 'u' then hex 4
    else if c == 'U' then hex 8
    else if c == 'x' then hex 2
    else if c == 'N' then
      let inner := (rest.drop 1).takeWhile (· != '\x7d')
      if rest.head? == some '\x7b' && !inner.isEmpty && (rest.drop (inner.length + 1)).head?.isSome
      then inner.length + 4 else 1
    else if c.isDigit then min 3 ((rest.takeWhile Char.isDigit).length + 1) + 1
    else if c == '\n' then 2
    else if c == '\r' then if rest.head? == some '\n' then 3 else 1
    else if ['\x27', '"', 'a', 'b', 'f', 'r', 'n', 't', 'v', '\\'].contains c then 2
    else 1

end DeadCode.Grammar.Token
