import DeadCode.Extraction

/- The merged extractions of a project. Imports, exports and calls are united, a symbol belongs to the
   file that brought it first, and what is local to a file is replaced when the file comes again. -/
namespace DeadCode

structure FileLocals where
  bindings : List Binding := []
  references : NameSet := ∅
  hasMainGuard : Bool := false
  deriving Inhabited

structure ProjectGraph where
  fileMap : NameMap SourceFile := ∅
  imports : NameMap NameSet := ∅
  exports : NameMap NameSet := ∅
  calls : NameMap NameSet := ∅
  moduleCalls : NameMap NameSet := ∅
  symbolMap : NameMap Symbol := ∅
  owned : NameMap NameSet := ∅
  byName : NameMap NameSet := ∅
  localMap : NameMap FileLocals := ∅
  deriving Inhabited

namespace ProjectGraph

def extend (names : NameSet) (old : Option NameSet) : NameSet := old.getD ∅ ∪ names

/-- A symbol is taken only if its qualified name is new; it is then entered in all three tables. -/
def addSymbol (path : String) (graph : ProjectGraph) (entry : String × Symbol) : ProjectGraph :=
  if graph.symbolMap.contains entry.1 then graph
  else { graph with
    symbolMap := graph.symbolMap.insert entry.1 entry.2
    owned := graph.owned.alter path fun old => (old.getD ∅).insert entry.1
    byName := graph.byName.alter entry.2.name fun old => (old.getD ∅).insert entry.1 }

def addFile (graph : ProjectGraph) (file : SourceFile) (extraction : Extraction) : ProjectGraph :=
  let path := file.relPath
  let graph := { graph with
    imports := graph.imports.alter path (extend extraction.imports)
    exports := graph.exports.alter path (extend extraction.exports)
    moduleCalls := graph.moduleCalls.alter path (extend extraction.moduleCalls)
    calls := extraction.calls.toList.foldl
      (fun calls (caller, callees) => calls.alter caller (extend callees)) graph.calls
    owned := graph.owned.alter path (·.getD ∅) }
  let graph := extraction.symbols.toList.foldl (addSymbol path) graph
  { graph with
    localMap := graph.localMap.insert path
      { bindings := extraction.bindings, references := extraction.references,
        hasMainGuard := extraction.hasMainGuard }
    fileMap := graph.fileMap.insert path file }

def ofExtractions (items : List (SourceFile × Extraction)) : ProjectGraph :=
  items.foldl (fun graph (file, extraction) => graph.addFile file extraction) {}

def files (graph : ProjectGraph) : List SourceFile := graph.fileMap.values

def fileCount (graph : ProjectGraph) : Nat := graph.fileMap.size

def file? (graph : ProjectGraph) (path : String) : Option SourceFile := graph.fileMap.get? path

def containsFile (graph : ProjectGraph) (path : String) : Bool := graph.fileMap.contains path

def importsOf (graph : ProjectGraph) (path : String) : NameSet := (graph.imports.get? path).getD ∅

def exportsOf (graph : ProjectGraph) (path : String) : NameSet := (graph.exports.get? path).getD ∅

def callsOf (graph : ProjectGraph) (qualified : String) : NameSet :=
  (graph.calls.get? qualified).getD ∅

def moduleCallsOf (graph : ProjectGraph) (path : String) : NameSet :=
  (graph.moduleCalls.get? path).getD ∅

def symbol? (graph : ProjectGraph) (qualified : String) : Option Symbol :=
  graph.symbolMap.get? qualified

def symbols (graph : ProjectGraph) : List (String × Symbol) := graph.symbolMap.toList

def symbolsIn (graph : ProjectGraph) (path : String) : List (String × Symbol) :=
  ((graph.owned.get? path).getD ∅).toList.filterMap fun qualified =>
    (graph.symbol? qualified).map (qualified, ·)

def matchCallee (graph : ProjectGraph) (bare : String) : NameSet := (graph.byName.get? bare).getD ∅

def locals? (graph : ProjectGraph) (path : String) : Option FileLocals := graph.localMap.get? path

end ProjectGraph
end DeadCode
