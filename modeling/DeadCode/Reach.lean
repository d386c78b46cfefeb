import DeadCode.ModuleIndex
import DeadCode.ProjectGraph
import DeadCode.Worklist

/- What the entry points of a project reach: files along imports, functions along calls by bare
   name. -/
namespace DeadCode

structure Reach where
  files : NameSet
  functions : NameSet
  deriving DecidableEq

namespace ProjectGraph

def importTargets (graph : ProjectGraph) (index : ModuleIndex) (path : String) : List String :=
  (index.resolveImports (graph.importsOf path).toList).map (·.2)

def entryFiles (graph : ProjectGraph) : List String :=
  (graph.files.filter (·.isEntry)).map (·.relPath)

def reachableFiles (graph : ProjectGraph) (index : ModuleIndex) : NameSet :=
  Worklist.closure graph.fileMap.keys (graph.importTargets index) graph.entryFiles

def importedBy (graph : ProjectGraph) (files : NameSet) : NameSet :=
  files.toList.foldl (fun names path => names ∪ graph.importsOf path) ∅

def packageName? (module : String) : Option String :=
  (Text.dropEnding? module Naming.markerModule).bind (Text.dropEnding? · ".")

/-- Whether a symbol of a reachable file is live without a call: exported classes, entry points,
    dunder names, and exported functions that a reachable file imports by name. -/
def isSeed (exported imported : NameSet) (package? : Option String) (qualified : String)
    (symbol : Symbol) : Bool :=
  match symbol.kind with
  | .classType => exported.contains symbol.name
  | .function =>
    Naming.entryPointNames.contains symbol.name || Naming.isDunder symbol.name ||
      exported.contains symbol.name &&
        (imported.contains qualified ||
          package?.any fun package => imported.contains (package ++ "." ++ symbol.name))
  | .method => Naming.entryPointNames.contains symbol.name || Naming.isDunder symbol.name

def callTargets (graph : ProjectGraph) (bare : NameSet) : List String :=
  bare.toList.flatMap fun name => (graph.matchCallee name).toList

def fileSeeds (graph : ProjectGraph) (imported : NameSet) (file : SourceFile) : List String :=
  let path := file.relPath
  ((graph.symbolsIn path).filter fun (qualified, symbol) =>
      isSeed (graph.exportsOf path) imported (packageName? file.module) qualified symbol).map (·.1) ++
    graph.callTargets (graph.moduleCallsOf path)

def functionSeeds (graph : ProjectGraph) (files : NameSet) : List String :=
  let imported := graph.importedBy files
  (files.toList.filterMap graph.file?).flatMap (graph.fileSeeds imported)

def reachableFunctions (graph : ProjectGraph) (files : NameSet) : NameSet :=
  Worklist.closure graph.symbolMap.keys (fun q => graph.callTargets (graph.callsOf q))
    (graph.functionSeeds files)

def reach (graph : ProjectGraph) (index : ModuleIndex) : Reach :=
  let files := graph.reachableFiles index
  { files, functions := graph.reachableFunctions files }

end ProjectGraph
end DeadCode
