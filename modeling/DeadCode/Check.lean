import DeadCode.Analysis
import DeadCode.Collect
import DeadCode.Options

/- The check of a project: its root is found, its sources are collected and read, and what could be
   read is analysed. -/
namespace DeadCode

namespace Options

def validRoot (fs : FileSystem) (path : String) : Except RootError String :=
  match fs.resolve path with
  | .ok location =>
    if fs.tree.isDirectory location then .ok (fs.pathOf location) else .error (.notDirectory path)
  | .error _ => .error (.missing path)

def repositoryRoot (fs : FileSystem) : Except RootError String :=
  match (fs.workingDirectory :: IgnoreRules.above fs.workingDirectory).find? fun directory =>
      fs.exists? (directory ++ [".git"]) with
  | some directory => .ok (fs.pathOf directory)
  | none => .error .noRepository

/-- Fixes the root. The root that was given is used up, so after a failure there is none. -/
def settleRoot (fs : FileSystem) (o : Options) : Except RootError Unit × Options :=
  let found := match o.root with
    | some path => validRoot fs path
    | none => repositoryRoot fs
  match found with
  | .ok path => (.ok (), { o with root := some path })
  | .error problem => (.error problem, { o with root := none })

def knownRoot (o : Options) : Except RootError String :=
  match o.root with
  | some path => .ok path
  | none => .error .unsettled

end Options

namespace Check

abbrev Readings := List (SourceFile × Except SourceError Extraction)

def readAll (sources : List Source) : Readings :=
  sources.map fun source => (source.file, source.extract)

def parsed (readings : Readings) : List (SourceFile × Extraction) :=
  readings.filterMap fun (file, outcome) =>
    match outcome with
    | .ok extraction => some (file, extraction)
    | .error _ => none

def skipped (readings : Readings) : List Diagnostic :=
  readings.filterMap fun (file, outcome) =>
    match outcome with
    | .ok _ => none
    | .error problem => some { file := file.relPath, message := problem.message }

def graphOf (readings : Readings) : ProjectGraph := ProjectGraph.ofExtractions (parsed readings)

def analyzeReadings (readings : Readings) (minLines : Nat) (timestamp : String) : AnalysisResult :=
  (graphOf readings).analyze minLines (skipped readings) timestamp

def run (fs : FileSystem) (globals : List IgnoreRule) (o : Options) (timestamp : String) :
    Except RootError AnalysisResult := do
  let (outcome, o) := o.settleRoot fs
  outcome
  let root ← o.knownRoot
  let sources ← Collect.sources fs globals root o.exclude
  return analyzeReadings (readAll sources) o.minLines timestamp

end Check
end DeadCode
