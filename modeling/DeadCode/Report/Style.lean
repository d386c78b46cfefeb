/- Terminal styles. A style is a list of display codes, put before a text and reset after it. -/
namespace DeadCode.Report

inductive Style where
  | bold
  | dimmed
  | blue
  | cyan
  | brightBlue
  | red
  | redBold
  | yellow
  | yellowBold
  | greenBold
  deriving DecidableEq, Repr

namespace Style

def codes : Style → String
  | bold => "1"
  | dimmed => "2"
  | red => "31"
  | yellow => "33"
  | blue => "34"
  | cyan => "36"
  | brightBlue => "94"
  | redBold => "1;31"
  | greenBold => "1;32"
  | yellowBold => "1;33"

def opening (style : Style) : List Char := "\x1b[".toList ++ style.codes.toList ++ ['m']

def reset : List Char := "\x1b[0m".toList

/-- A reset inside a styled text would end the style early, so the style is opened again after it.
    The count is that of characters still to be copied before the next reset is looked for. -/
def reopen (style : Style) : Nat → List Char → List Char
  | 1, c :: rest => c :: (style.opening ++ reopen style 0 rest)
  | n + 2, c :: rest => c :: reopen style (n + 1) rest
  | 0, c :: rest =>
    c :: if reset.isPrefixOf (c :: rest) then reopen style (reset.length - 1) rest
      else reopen style 0 rest
  | _, [] => []

end Style

structure Palette where
  coloured : Bool
  deriving DecidableEq, Repr

def Palette.paint (palette : Palette) (style : Style) (text : String) : String :=
  if palette.coloured then
    String.ofList (style.opening ++ style.reopen 0 text.toList ++ Style.reset)
  else text

end DeadCode.Report
