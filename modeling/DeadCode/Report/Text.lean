import DeadCode.Classify
import DeadCode.Report.ByteSize
import DeadCode.Report.Style

/- The report for readers: a section per kind of finding, then a summary. -/
namespace DeadCode.Report.Text

open DeadCode.Text (lines)

def padLeft (width : Nat) (text : String) : String :=
  String.ofList (List.replicate (width - text.toList.length) ' ') ++ text

def confidence (p : Palette) (value : Nat) : String :=
  let text := "[" ++ padLeft 3 (toString value) ++ "%]"
  if 80 ≤ value then p.paint .redBold text
  else if 60 ≤ value then p.paint .yellow text
  else p.paint .dimmed text

def location (p : Palette) (f : Finding) : String :=
  match f.line with
  | some line => p.paint .blue (f.file ++ ":" ++ toString line)
  | none => p.paint .blue f.file

def entry (p : Palette) (label : Finding → String) (branch : String) (f : Finding) : String :=
  p.paint .dimmed branch ++ "  " ++ confidence p f.confidence ++ " " ++ label f ++ " " ++
    p.paint .dimmed f.detail

def entries (p : Palette) (label : Finding → String) : List Finding → List String
  | [] => []
  | [f] => [entry p label "└──" f]
  | f :: rest => entry p label "├──" f :: entries p label rest

def listing (p : Palette) (title extra : String) (label : Finding → String)
    (findings : List Finding) : List String :=
  if findings.isEmpty then []
  else
    (p.paint .bold title ++ " (" ++ toString findings.length ++ extra ++ ")") ::
      entries p label findings ++ [""]

def skipped (p : Palette) (stats : Statistics) : List String :=
  if stats.filesSkipped = 0 then []
  else ["  Skipped " ++ p.paint .yellow (toString stats.filesSkipped) ++
    " files that could not be parsed"]

def largestCount : Nat := 5

def largest (r : AnalysisResult) : List Finding :=
  (Ranking.sort [Classify.byLinesDown, Classify.byFile] (r.deadFiles ++ r.deadFunctions)).take
    largestCount

def largestEntry (p : Palette) (rank : Nat) (f : Finding) : String :=
  let what :=
    match f.name with
    | some name => name ++ " - " ++ location p f
    | none => location p f
  "    " ++ toString rank ++ ". " ++ what ++ " (" ++ p.paint .red (toString f.lines) ++ " lines)"

def largestEntries (p : Palette) : Nat → List Finding → List String
  | _, [] => []
  | rank, f :: rest => largestEntry p rank f :: largestEntries p (rank + 1) rest

def largestLines (p : Palette) (r : AnalysisResult) : List String :=
  let top := largest r
  if top.isEmpty then []
  else ("  Largest " ++ toString top.length ++ ":") :: largestEntries p 1 top

def diagnosticLine (p : Palette) (d : Diagnostic) : String :=
  "    " ++ p.paint .blue d.file ++ " " ++ p.paint .dimmed d.message

def summary (p : Palette) (r : AnalysisResult) : List String :=
  let s := r.stats
  [ p.paint .dimmed (String.ofList (List.replicate 60 '─')),
    p.paint .bold "Summary",
    "  Files analyzed: " ++ p.paint .cyan (toString s.filesAnalyzed) ++ " (" ++
      toString s.filesReachable ++ " reachable, " ++ toString s.filesUnreachable ++ " unreachable)",
    "  Findings: " ++ p.paint .yellowBold (toString s.deadFiles) ++ " dead files, " ++
      p.paint .yellowBold (toString s.deadFunctions) ++ " dead functions, " ++
      p.paint .yellowBold (toString s.unusedImports) ++ " unused imports",
    "  Reclaimable: " ++ p.paint .greenBold (toString s.reclaimableLines) ++ " lines, " ++
      ByteSize.render s.reclaimableBytes ] ++
  largestLines p r ++ skipped p s ++ r.diagnostics.map (diagnosticLine p)

def full (p : Palette) (r : AnalysisResult) (minLines : Nat) : String :=
  lines <|
    [p.paint .yellowBold "⚠" ++ " Dead code detected", ""] ++
    listing p "Dead files" "" (fun f => p.paint .blue f.file) r.deadFiles ++
    listing p "Dead functions" (", at least " ++ toString minLines ++ " lines") (location p)
      r.deadFunctions ++
    listing p "Unused imports" "" (location p) r.unusedImports ++
    summary p r

def clean (p : Palette) (stats : Statistics) : String :=
  lines <|
    (p.paint .greenBold "✓" ++ " No dead code detected in " ++ toString stats.filesAnalyzed ++
      " files.") :: skipped p stats

def render (p : Palette) (r : AnalysisResult) (minLines : Nat) : String :=
  if r.hasFindings then full p r minLines else clean p r.stats

end DeadCode.Report.Text
