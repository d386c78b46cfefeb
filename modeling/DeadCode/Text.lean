/- Text cut at one separating character, and comparisons with the ends of a text.
   Everything is stated on the list of characters, so that the list lemmas apply. -/
namespace DeadCode.Text

def segments (sep : Char) (s : String) : List String :=
  (s.toList.splitOn sep).map String.ofList

def join (sep : Char) (parts : List String) : String :=
  String.ofList (List.intercalate [sep] (parts.map String.toList))

def fronts {α : Type} : List α → List (List α)
  | [] => []
  | x :: rest => [x] :: (fronts rest).map (x :: ·)

def startsWith (s front : String) : Bool := front.toList.isPrefixOf s.toList

def endsWith (s back : String) : Bool := back.toList.isSuffixOf s.toList

def hasInfix (inner : List Char) : List Char → Bool
  | [] => inner.isEmpty
  | c :: rest => inner.isPrefixOf (c :: rest) || hasInfix inner rest

def contains (s inner : String) : Bool := hasInfix inner.toList s.toList

def dropEnding? (s back : String) : Option String :=
  if endsWith s back then
    some (String.ofList (s.toList.take (s.toList.length - back.toList.length)))
  else none

def splitLast? (sep : Char) (s : String) : Option (String × String) :=
  let back := s.toList.reverse
  match back.dropWhile (· != sep) with
  | [] => none
  | _ :: front => some (String.ofList front.reverse, String.ofList (back.takeWhile (· != sep)).reverse)

def replaceChar (old new : Char) (s : String) : String :=
  String.ofList (s.toList.map fun c => if c = old then new else c)

def lines (parts : List String) : String :=
  String.join (parts.map (· ++ "\n"))

end DeadCode.Text
