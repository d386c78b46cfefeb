import DeadCode.NameMap
import DeadCode.SourceFile

/- The files of a project by module name. A name is looked up exactly, then through the least module
   nested below it, then through the marker file of its package. -/
namespace DeadCode

structure ModuleIndex where
  modules : NameMap String := ∅
  files : NameMap String := ∅
  deriving Inhabited

namespace ModuleIndex

def parentMarkers (module : String) : List (String × String) :=
  (Text.fronts (Text.segments '.' module)).dropLast.map fun front =>
    (Text.join '.' front, Text.join '/' (front ++ [Naming.markerFile]))

/-- A file claims its own module name, then the names of those parent packages that have a marker
    among the known paths. The first claim of a name wins. -/
def addFile (known : NameSet) (index : ModuleIndex) (file : SourceFile) : ModuleIndex where
  modules := (parentMarkers file.module).foldl
    (fun modules (package, marker) =>
      if known.contains marker then modules.insertNew package marker else modules)
    (index.modules.insertNew file.module file.relPath)
  files := index.files.insert file.relPath file.module

def build (files : List SourceFile) : ModuleIndex :=
  files.foldl (addFile (NameSet.ofList (files.map (·.relPath)))) {}

def moduleOf? (index : ModuleIndex) (path : String) : Option String := index.files.get? path

def markerOf? (index : ModuleIndex) (module : String) : Option String :=
  index.modules.get? (module ++ "." ++ Naming.markerModule)

def resolveDirect (index : ModuleIndex) (module : String) : Option String :=
  (index.modules.get? module).or (index.markerOf? module)

/-- The file of the least module below a package. Names that share a prefix are neighbours in the
    order of the keys, so the first key from the prefix on decides. -/
def nested? (index : ModuleIndex) (module : String) : Option String :=
  match index.modules.firstFrom? (module ++ ".") with
  | some (name, path) => if Text.startsWith name (module ++ ".") then some path else none
  | none => none

def resolve (index : ModuleIndex) (module : String) : Option String :=
  if module == "" then none
  else (index.modules.get? module).or ((index.nested? module).or (index.markerOf? module))

/-- A longer import of the same file that resolves directly stands for the name that it extends. -/
def covers (index : ModuleIndex) (module longer : String) : Bool :=
  Text.startsWith longer (module ++ ".") && (index.resolveDirect longer).isSome

def target? (index : ModuleIndex) (imports : List String) (module : String) : Option String :=
  if imports.any (index.covers module) then index.resolveDirect module else index.resolve module

def resolveImports (index : ModuleIndex) (imports : List String) : List (String × String) :=
  imports.filterMap fun module => (index.target? imports module).map (module, ·)

end ModuleIndex

structure Resolver where
  index : ModuleIndex
  memory : NameMap (Option String) := ∅
  deriving Inhabited

namespace Resolver

def resolve (r : Resolver) (module : String) : Option String × Resolver :=
  match r.memory.get? module with
  | some answer => (answer, r)
  | none =>
    let answer := r.index.resolve module
    (answer, { r with memory := r.memory.insert module answer })

def target? (r : Resolver) (imports : List String) (module : String) : Option String × Resolver :=
  if imports.any (r.index.covers module) then (r.index.resolveDirect module, r) else r.resolve module

def resolveEach (imports : List String) : List String → Resolver → List (String × String) × Resolver
  | [], r => ([], r)
  | module :: rest, r =>
    let (found, r) := r.target? imports module
    let (others, r) := resolveEach imports rest r
    ((found.map (module, ·)).toList ++ others, r)

def resolveImports (r : Resolver) (imports : List String) : List (String × String) × Resolver :=
  resolveEach imports imports r

end Resolver
end DeadCode
