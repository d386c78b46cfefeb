import DeadCode.Classify

/- The analysis of a merged project: reach, findings and statistics. -/
namespace DeadCode.ProjectGraph

def total (counts : List Nat) : Nat := counts.foldr (· + ·) 0

def reclaimableBytes (graph : ProjectGraph) (deadFiles : List Finding) : Nat :=
  total ((deadFiles.filterMap fun f => graph.file? f.file).map (·.bytes))

def reclaimableLines (findings : List Finding) : Nat := total (findings.map (·.lines))

def ownReach (graph : ProjectGraph) : Reach := graph.reach (ModuleIndex.build graph.files)

def analyze (graph : ProjectGraph) (minLines : Nat) (diagnostics : List Diagnostic)
    (timestamp : String) : AnalysisResult :=
  let reach := graph.ownReach
  let deadFiles := Classify.deadFiles graph reach
  let deadFunctions := Classify.deadFunctions graph reach minLines
  let unusedImports := Classify.unusedImports graph reach
  { deadFiles, deadFunctions, unusedImports, diagnostics,
    stats :=
      { filesAnalyzed := graph.fileCount
        filesReachable := reach.files.size
        filesUnreachable := graph.fileCount - reach.files.size
        filesSkipped := diagnostics.length
        deadFiles := deadFiles.length
        deadFunctions := deadFunctions.length
        unusedImports := unusedImports.length
        reclaimableBytes := graph.reclaimableBytes deadFiles
        reclaimableLines := reclaimableLines (deadFiles ++ deadFunctions)
        timestamp } }

end DeadCode.ProjectGraph
