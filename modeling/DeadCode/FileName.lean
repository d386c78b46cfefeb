import DeadCode.Text

/- Names of files. A name is made of bytes, none of them a zero byte or a slash, and as a rule the
   bytes are UTF-8 text. In a tree a name stands as that text. A byte that belongs to no character
   stands as two characters: the zero character, which is in no name, and the one whose number is
   the byte. Patterns look at the bytes; whatever is reported shows a replacement character where
   bytes are no text, so names that differ may look the same. -/
namespace DeadCode.FileName

def mark : Char := '\x00'

/-- Bytes from 128 on are all that can fail to be text. -/
def standsForByte (c : Char) : Bool := decide (128 ≤ c.toNat ∧ c.toNat < 256)

inductive Piece where
  | char (c : Char)
  | byte (b : UInt8)
  deriving DecidableEq, Repr

def pieces : List Char → List Piece
  | [] => []
  | [c] => [.char c]
  | c :: next :: rest =>
    if c == mark && standsForByte next then .byte (UInt8.ofNat next.toNat) :: pieces rest
    else .char c :: pieces (next :: rest)

def Piece.bytes : Piece → List UInt8
  | .char c => String.utf8EncodeChar c
  | .byte b => [b]

def bytes (name : String) : List UInt8 := (pieces name.toList).flatMap Piece.bytes

/-- Where the bytes after a first byte may lie, but for the last, if they are to make a character. -/
def continuations (first : UInt8) : List (UInt8 × UInt8) :=
  if first = 0xe0 then [(0xa0, 0xbf)]
  else if first = 0xed then [(0x80, 0x9f)]
  else if 0xe1 ≤ first ∧ first ≤ 0xef then [(0x80, 0xbf)]
  else if first = 0xf0 then [(0x90, 0xbf), (0x80, 0xbf)]
  else if first = 0xf4 then [(0x80, 0x8f), (0x80, 0xbf)]
  else if 0xf1 ≤ first ∧ first ≤ 0xf3 then [(0x80, 0xbf), (0x80, 0xbf)]
  else []

def replacement : Char := '\ufffd'

/-- The bytes of a character that breaks off are shown as one replacement: those in the ranges go on
    with the one that has been replaced. -/
def shownPieces : List (UInt8 × UInt8) → List Piece → List Char
  | _, [] => []
  | _, .char c :: rest => c :: shownPieces [] rest
  | [], .byte b :: rest => replacement :: shownPieces (continuations b) rest
  | (low, high) :: more, .byte b :: rest =>
    if low ≤ b ∧ b ≤ high then shownPieces more rest
    else replacement :: shownPieces (continuations b) rest

def shown (name : String) : String := String.ofList (shownPieces [] (pieces name.toList))

def IsText (name : String) : Prop := mark ∉ name.toList

instance (name : String) : Decidable (IsText name) := inferInstanceAs (Decidable (_ ∉ _))

end DeadCode.FileName
