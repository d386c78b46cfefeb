import DeadCode.Finding
import DeadCode.Report.Json

/- The report for programs: every field of a result, in a fixed order. -/
namespace DeadCode

def FindingKind.label : FindingKind → String
  | .deadFile => "dead_file"
  | .deadFunction => "dead_function"
  | .unusedImport => "unused_import"

namespace Report.Document

def optionally {α : Type} (f : α → Json) : Option α → Json
  | none => .null
  | some a => f a

def finding (f : Finding) : Json :=
  .object
    [ ("kind", .string f.kind.label),
      ("file", .string f.file),
      ("line", optionally .number f.line),
      ("name", optionally .string f.name),
      ("confidence", .number f.confidence),
      ("lines", .number f.lines),
      ("detail", .string f.detail) ]

def diagnostic (d : Diagnostic) : Json :=
  .object [("file", .string d.file), ("message", .string d.message)]

def statistics (s : Statistics) : Json :=
  .object
    [ ("files_analyzed", .number s.filesAnalyzed),
      ("files_reachable", .number s.filesReachable),
      ("files_unreachable", .number s.filesUnreachable),
      ("files_skipped", .number s.filesSkipped),
      ("dead_files", .number s.deadFiles),
      ("dead_functions", .number s.deadFunctions),
      ("unused_imports", .number s.unusedImports),
      ("reclaimable_bytes", .number s.reclaimableBytes),
      ("reclaimable_lines", .number s.reclaimableLines),
      ("timestamp", .string s.timestamp) ]

def result (r : AnalysisResult) : Json :=
  .object
    [ ("dead_files", .array (r.deadFiles.map finding)),
      ("dead_functions", .array (r.deadFunctions.map finding)),
      ("unused_imports", .array (r.unusedImports.map finding)),
      ("diagnostics", .array (r.diagnostics.map diagnostic)),
      ("stats", statistics r.stats) ]

def render (r : AnalysisResult) : String := String.ofList ((result r).write 0 ++ ['\n'])

end Report.Document
end DeadCode
