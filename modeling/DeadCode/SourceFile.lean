import DeadCode.ModulePath

/- A collected source file, known by its path relative to the project root. -/
namespace DeadCode

structure SourceFile where
  relPath : String
  module : String
  bytes : Nat := 0
  lines : Nat := 0
  isMarker : Bool := false
  deriving DecidableEq, Repr, Inhabited

namespace SourceFile

def ofPath (relPath : String) : SourceFile := { relPath, module := ModulePath.ofPath relPath }

def package (file : SourceFile) : String := ModulePath.package file.module

def isAtRoot (file : SourceFile) : Bool := !file.relPath.toList.contains '/'

/-- Files at the project root and test files are used without being imported. -/
def isEntry (file : SourceFile) : Bool := file.isAtRoot || Naming.isTestPath file.relPath

def baseName (file : SourceFile) : String :=
  (Text.segments '/' file.relPath).getLastD file.relPath

def directories (file : SourceFile) : List String := (Text.segments '/' file.relPath).dropLast

end SourceFile
end DeadCode
