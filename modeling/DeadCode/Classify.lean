import DeadCode.Finding
import DeadCode.Ranking
import DeadCode.Reach

/- Turning what was not reached into findings. Signs that code is used in a way the analysis cannot
   see (scripts, examples, decorators, methods, package exports) lower the confidence. -/
namespace DeadCode.Classify

def isTestConfig (file : SourceFile) : Bool := Naming.testConfigFiles.contains file.baseName

def isExample (file : SourceFile) : Bool :=
  file.directories.any Naming.exampleDirectories.contains

/-- Files that are loaded without an import are no dead files. -/
def isExemptFile (file : SourceFile) : Bool := file.isMarker || isTestConfig file

def isExemptFunction (name : String) : Bool :=
  Naming.isDunder name || Text.startsWith name "test" || Naming.fixtureNames.contains name

def fileConfidence (file : SourceFile) (hasMainGuard : Bool) : Nat :=
  if hasMainGuard then 60 else if isExample file then 70 else 90

def functionConfidence (symbol : Symbol) : Nat :=
  if symbol.decorated then 50 else if symbol.kind = .method then 70 else 80

def importConfidence (file : SourceFile) : Nat := if file.isMarker then 60 else 90

def byLinesDown (a b : Finding) : Ordering := compare b.lines a.lines
def byFile (a b : Finding) : Ordering := Ranking.text a.file b.file
def byLine (a b : Finding) : Ordering := Ranking.optional compare a.line b.line
def byName (a b : Finding) : Ordering := Ranking.optional Ranking.text a.name b.name

def deadFileFinding (graph : ProjectGraph) (file : SourceFile) : Finding where
  kind := .deadFile
  file := file.relPath
  confidence := fileConfidence file ((graph.locals? file.relPath).any (·.hasMainGuard))
  lines := file.lines
  detail := "module '" ++ file.module ++ "' is never imported from any entry point"

def deadFiles (graph : ProjectGraph) (reach : Reach) : List Finding :=
  Ranking.sort [byLinesDown, byFile] <|
    (graph.files.filter fun file => !reach.files.contains file.relPath && !isExemptFile file).map
      (deadFileFinding graph)

def isDeadFunction (reach : Reach) (minLines : Nat) (qualified : String) (symbol : Symbol) : Bool :=
  symbol.kind != .classType && decide (minLines ≤ symbol.lines) &&
    !reach.functions.contains qualified && !isExemptFunction symbol.name

def deadFunctionFinding (qualified : String) (symbol : Symbol) : Finding where
  kind := .deadFunction
  file := symbol.file
  line := some symbol.line
  name := some qualified
  confidence := functionConfidence symbol
  lines := symbol.lines
  detail := (if symbol.kind = .method then "method" else "function") ++ " '" ++ symbol.name ++ "' (" ++
    toString symbol.lines ++ " lines) is never called from reachable code"

def deadFunctions (graph : ProjectGraph) (reach : Reach) (minLines : Nat) : List Finding :=
  Ranking.sort [byLinesDown, byFile, byLine] <|
    ((reach.files.toList.flatMap graph.symbolsIn).filter fun (qualified, symbol) =>
      isDeadFunction reach minLines qualified symbol).map fun (qualified, symbol) =>
        deadFunctionFinding qualified symbol

def unusedImportFinding (file : SourceFile) (binding : Binding) : Finding where
  kind := .unusedImport
  file := file.relPath
  line := some binding.line
  name := some binding.name
  confidence := importConfidence file
  lines := 1
  detail := "'" ++ binding.name ++ "' imported from '" ++ binding.source ++ "' is never used"

def unusedInFile (file : SourceFile) (locals : FileLocals) : List Finding :=
  (locals.bindings.filter fun b => !locals.references.contains b.name).map (unusedImportFinding file)

def unusedImports (graph : ProjectGraph) (reach : Reach) : List Finding :=
  Ranking.sort [byFile, byLine, byName] <|
    reach.files.toList.flatMap fun path =>
      match graph.file? path, graph.locals? path with
      | some file, some locals => unusedInFile file locals
      | _, _ => []

end DeadCode.Classify
