import DeadCode.Analysis
import DeadCode.Report.Text
import DeadCode.Report.Document
import DeadCode.SourceText
import DeadCode.Options
import DeadCode.Main
import DeadCode.Proofs.FileRemoval
import DeadCode.Proofs.ModuleLookup
import DeadCode.Proofs.Definitions
import DeadCode.Proofs.UnusedImports
import DeadCode.Proofs.LiveNames
import DeadCode.Proofs.SymbolTables
import DeadCode.Proofs.MergeOrder
import DeadCode.Proofs.ReachGrowth
import DeadCode.Proofs.ImportNames
import DeadCode.Proofs.Findings
import DeadCode.Proofs.FunctionRemoval
import DeadCode.Proofs.CheckedRoot
import DeadCode.Proofs.ReportTarget
import DeadCode.Proofs.SkippedFiles
import DeadCode.Proofs.Resolution
import DeadCode.Proofs.LineSpans
import DeadCode.Proofs.ReportDocument
import DeadCode.Proofs.SyntaxDamage
import DeadCode.Proofs.PrintedSize
import DeadCode.Proofs.PrunedWalk
import DeadCode.Proofs.SettledRoot
