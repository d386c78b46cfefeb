import DeadCode.Extraction

/- What an analysis reports. -/
namespace DeadCode

inductive FindingKind where
  | deadFile
  | deadFunction
  | unusedImport
  deriving DecidableEq, Repr, Inhabited

structure Finding where
  kind : FindingKind
  file : String := ""
  line : Option Nat := none
  name : Option String := none
  confidence : Nat := 90
  lines : Nat := 1
  detail : String := ""
  deriving DecidableEq, Repr, Inhabited

structure Statistics where
  filesAnalyzed : Nat := 0
  filesReachable : Nat := 0
  filesUnreachable : Nat := 0
  filesSkipped : Nat := 0
  deadFiles : Nat := 0
  deadFunctions : Nat := 0
  unusedImports : Nat := 0
  reclaimableBytes : Nat := 0
  reclaimableLines : Nat := 0
  timestamp : String := ""
  deriving DecidableEq, Repr, Inhabited

structure AnalysisResult where
  deadFiles : List Finding := []
  deadFunctions : List Finding := []
  unusedImports : List Finding := []
  diagnostics : List Diagnostic := []
  stats : Statistics := {}
  deriving DecidableEq, Repr, Inhabited

namespace AnalysisResult

def findingCount (r : AnalysisResult) : Nat :=
  r.deadFiles.length + r.deadFunctions.length + r.unusedImports.length

def hasFindings (r : AnalysisResult) : Bool := decide (0 < r.findingCount)

end AnalysisResult
end DeadCode
