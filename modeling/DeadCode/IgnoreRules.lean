import DeadCode.FileSystem
import DeadCode.Glob

/- Ignore files. Each line is a pattern for paths below the directory of the file; the last line that
   matches decides. Files in deeper directories win over those above, and files of the walker's own
   kind win over those of a repository. A file `.git` marks a repository as a directory does, but is
   not read for the place of the real one, and settings of a user are looked for at home only,
   whatever the variable `XDG_CONFIG_HOME` says. -/
namespace DeadCode

inductive Verdict where
  | ignore
  | keep
  deriving DecidableEq, Repr

structure IgnoreRule where
  glob : Glob
  verdict : Verdict := .ignore
  directoriesOnly : Bool := false
  deriving DecidableEq, Repr

namespace IgnoreRule

def isSpace (c : Char) : Bool :=
  let n := c.toNat
  (9 ≤ n && n ≤ 13) || n == 32 || n == 0x85 || n == 0xa0 || n == 0x1680 ||
    (0x2000 ≤ n && n ≤ 0x200a) || n == 0x2028 || n == 0x2029 || n == 0x202f || n == 0x205f ||
    n == 0x3000

def trimEnd (line : List Char) : List Char :=
  if ['\\', ' '].isSuffixOf line then line else (line.reverse.dropWhile isSpace).reverse

/-- The pattern of a line without its marks, its verdict, and whether it is tied to the directory of
    the file. A backslash takes an exclamation or number sign as it is. -/
def readMarks (line : List Char) : List Char × Verdict × Bool :=
  match line with
  | '\\' :: '!' :: rest => ('!' :: rest, .ignore, false)
  | '\\' :: '#' :: rest => ('#' :: rest, .ignore, false)
  | '!' :: '/' :: rest => (rest, .keep, true)
  | '!' :: rest => (rest, .keep, false)
  | '/' :: rest => (rest, .ignore, true)
  | rest => (rest, .ignore, false)

def readDirectoryMark (pattern : List Char) : List Char × Bool :=
  match pattern.reverse with
  | '/' :: '\\' :: rest => (rest.reverse, true)
  | '/' :: rest => (rest.reverse, true)
  | _ => (pattern, false)

/-- A pattern without a slash matches at any depth, and one that ends in `/**` only what is below. -/
def complete (pattern : List Char) (tied : Bool) : String :=
  let text := String.ofList pattern
  let text :=
    if tied || pattern.contains '/' || text == "**" then text else "**/" ++ text
  if Text.endsWith text "/**" then text ++ "/*" else text

def ofLine? (line : String) : Option IgnoreRule :=
  if Text.startsWith line "#" then none
  else
    let line := trimEnd line.toList
    if line.isEmpty then none
    else
      let (pattern, verdict, tied) := readMarks line
      let (pattern, directoriesOnly) := readDirectoryMark pattern
      (Glob.ofText? (complete pattern tied)).map fun glob => { glob, verdict, directoriesOnly }

def applies (rule : IgnoreRule) (path : String) (directory : Bool) : Bool :=
  (!rule.directoriesOnly || directory) && rule.glob.isMatch path

end IgnoreRule

namespace IgnoreRules

/-- The lines of a file up to the first that is no text. -/
def linesOf (content : ByteArray) : List String :=
  let lines := content.toList.splitOn 10
  let lines := if lines.getLast? == some [] then lines.dropLast else lines
  (lines.map fun line =>
      String.fromUTF8? ⟨(if line.getLast? == some 13 then line.dropLast else line).toArray⟩
    ).takeWhile (·.isSome) |>.filterMap id

def byteOrderMark : Char := '\ufeff'

def ofContent (content : ByteArray) : List IgnoreRule :=
  match linesOf content with
  | [] => []
  | first :: rest =>
    (String.ofList (first.toList.dropWhile (· == byteOrderMark)) :: rest).filterMap
      IgnoreRule.ofLine?

def verdict? (rules : List IgnoreRule) (path : String) (directory : Bool) : Option Verdict :=
  (rules.reverse.find? (·.applies path directory)).map (·.verdict)

def repositoryMarks : List String := [".git", ".jj"]

def isRepository (fs : FileSystem) (directory : Location) : Bool :=
  repositoryMarks.any fun mark => fs.exists? (directory ++ [mark])

def inFile (fs : FileSystem) (directory : Location) (names : List String) : List IgnoreRule :=
  ((fs.content? (directory ++ names)).map ofContent).getD []

def above : Location → List Location
  | [] => []
  | name :: rest => (above rest).map (name :: ·) ++ [[]]

def insideRepository (fs : FileSystem) : List Location → List Location
  | [] => []
  | directory :: rest =>
    if isRepository fs directory then [directory] else directory :: insideRepository fs rest

/-- What the files of one name say, the nearest that says anything first. -/
def verdictAmong (fs : FileSystem) (names : List String) (directories : List Location)
    (location : Location) (isDirectory : Bool) : Option Verdict :=
  directories.findSome? fun directory =>
    verdict? (inFile fs directory names) (FileTree.key (location.drop directory.length)) isDirectory

def spaces : List Char := [' ', '\t', '\r', '\x0b', '\x0c']

def excludesSetting? (line : String) : Option String :=
  let blank (c : Char) : Bool := spaces.contains c
  let text := line.toList.dropWhile blank
  let name := text.takeWhile fun c => c != '=' && !blank c
  match (text.drop name.length).dropWhile blank with
  | '=' :: rest =>
    let value := rest.dropWhile blank
    let value := (if value.head? == some '"' then value.drop 1 else value).dropWhile blank
    let value := (value.reverse.dropWhile blank).reverse
    let value := if value.getLast? == some '"' then value.dropLast else value
    let value := (value.reverse.dropWhile blank).reverse
    if (name.map Char.toLower) == "excludesfile".toList && !value.isEmpty && !value.any blank
    then some (String.ofList value) else none
  | _ => none

/-- The path of the user's own ignore file: the first setting found, or the usual place. -/
def excludesPath (fs : FileSystem) (home : Location) : String :=
  let setting? (names : List String) : Option String := do
    (linesOf (← fs.content? (home ++ names))).findSome? excludesSetting?
  match (setting? [".gitconfig"]).or (setting? [".config", "git", "config"]) with
  | some path =>
    String.join (path.toList.map fun c => if c == '~' then fs.pathOf home else String.singleton c)
  | none => fs.pathOf (home ++ [".config", "git", "ignore"])

def globals (fs : FileSystem) : List IgnoreRule :=
  match fs.home with
  | none => []
  | some home =>
    match fs.resolve (excludesPath fs home) with
    | .ok location => inFile fs location []
    | .error _ => []

/-- What the user's own rules say. Their paths are relative to the working directory. -/
def globalVerdict (fs : FileSystem) (rules : List IgnoreRule) (location : Location)
    (isDirectory : Bool) : Option Verdict :=
  let path := fs.pathOf location
  let front := fs.pathOf fs.workingDirectory
  let path :=
    if Text.startsWith path front then
      String.ofList ((path.toList.drop front.toList.length).dropWhile (· == '/'))
    else path
  verdict? rules path isDirectory

def isIgnored (fs : FileSystem) (globals : List IgnoreRule) (location : Location)
    (isDirectory : Bool) : Bool :=
  let directories := above location
  let own := verdictAmong fs [".ignore"] directories location isDirectory
  let repository :=
    if directories.any (isRepository fs) then
      let inside := insideRepository fs directories
      (verdictAmong fs [".gitignore"] inside location isDirectory).or
        ((verdictAmong fs [".git", "info", "exclude"] inside location isDirectory).or
          (globalVerdict fs globals location isDirectory))
    else none
  own.or repository == some .ignore

end IgnoreRules
end DeadCode
