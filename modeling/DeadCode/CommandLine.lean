import DeadCode.Check
import DeadCode.Report.Document
import DeadCode.Report.Text

/- The program as a function: from a file system and the words of a command line to an exit code, two
   texts and the file system afterwards. -/
namespace DeadCode.CommandLine

/-- What a run cannot know by itself: the time, how long it took, how many workers there were, and
    whether the report goes to a terminal. -/
structure Surroundings where
  timestamp : String
  elapsed : String
  workers : String
  coloured : Bool := false

structure Outcome where
  exit : Nat
  stdout : String := ""
  stderr : String := ""
  fs : FileSystem

inductive Failure where
  | creation (path : String) (cause : PathError)
  | root (problem : RootError)
  deriving DecidableEq, Repr

def Failure.message : Failure → String
  | .creation path cause =>
    "Error: Failed to create " ++ FileName.shown path ++ "\n\nCaused by:\n    " ++ cause.message ++ "\n"
  | .root problem => "Error: " ++ problem.message ++ "\n"

def finishedLine (p : Report.Palette) (s : Surroundings) (files : Nat) : String :=
  "\n" ++ p.paint .brightBlue "●" ++ " Finished in " ++ p.paint .cyan s.elapsed ++ "ms on " ++
    p.paint .cyan (toString files) ++ " files (using " ++ p.paint .cyan s.workers ++
    " threads).\n"

/-- The report of a result. A report that goes to a file has no colours. -/
def report (s : Surroundings) (o : Options) (result : AnalysisResult) : String :=
  let p : Report.Palette := { coloured := s.coloured && o.output.isNone }
  match o.format with
  | .json => Report.Document.render result
  | .text =>
    Report.Text.render p result o.minLines ++ finishedLine p s result.stats.filesAnalyzed

/-- The file that a report goes to is made, or emptied, before anything is checked. -/
def openOutput (fs : FileSystem) (o : Options) :
    Except Failure (FileSystem × Option Location) :=
  match o.output with
  | none => .ok (fs, none)
  | some path =>
    match fs.creation path with
    | .ok location => .ok (fs.writeAt location ByteArray.empty, some location)
    | .error cause => .error (.creation path cause)

def check (s : Surroundings) (fs : FileSystem) (o : Options) : Outcome :=
  match openOutput fs o with
  | .error failure => { exit := 1, stderr := failure.message, fs }
  | .ok (fs, target) =>
    match Check.run fs (IgnoreRules.globals fs) o s.timestamp with
    | .error problem => { exit := 1, stderr := (Failure.root problem).message, fs }
    | .ok result =>
      let text := report s o result
      let exit := if result.hasFindings then 1 else 0
      match target with
      | none => { exit, stdout := text, fs }
      | some location => { exit, fs := fs.writeAt location text.toUTF8 }

def commandName : String := "dead-code"

def usageExit : Nat := 2

/-- Help is a flag, or a command that may name one of the two commands. -/
def asksForHelp (word : String) (rest : List String) : Bool :=
  word == "--help" || Text.startsWith word "-h" ||
    word == "help" && [[], [commandName], ["help"]].contains rest

def run (s : Surroundings) (fs : FileSystem) (words : List String) : Outcome :=
  match words with
  | [] => { exit := usageExit, fs }
  | word :: rest =>
    if word == commandName then
      match Options.ofWords rest with
      | .ok o => check s fs o
      | .error .displayHelp => { exit := 0, fs }
      | .error _ => { exit := usageExit, fs }
    else { exit := if asksForHelp word rest then 0 else usageExit, fs }

end DeadCode.CommandLine
