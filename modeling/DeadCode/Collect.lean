import DeadCode.IgnoreRules
import DeadCode.Ranking
import DeadCode.SourceText

/- The source files below a root directory. A file is collected when every directory on the way to it
   is entered and nothing ignores the file itself. Its path is made of the names as they are shown,
   and the files are put in the order of their paths; files whose paths look the same stay as they
   were found. -/
namespace DeadCode

structure Source where
  file : SourceFile
  path : String
  content : ByteArray

namespace Source

def text? (source : Source) : Option String := String.fromUTF8? source.content

def extract (source : Source) : Except SourceError Extraction :=
  match source.text? with
  | some text => source.file.extract text
  | none => .error (.undecodable source.path)

def byRelPath (a b : Source) : Ordering := Ranking.text a.file.relPath b.file.relPath

end Source

namespace Collect

def lineCount (content : ByteArray) : Nat :=
  let bytes := content.toList
  bytes.count 10 + (if bytes.getLast?.any (· != 10) then 1 else 0)

/-- The part of a name after its last dot, unless nothing stands before that dot. -/
def extension? (name : String) : Option String :=
  match Text.splitLast? '.' name with
  | some (stem, ext) => if stem == "" then none else some ext
  | none => none

def isSourceName (name : String) : Bool := extension? name == some Naming.sourceExtension

def isExcluded (exclude : List String) (name : String) : Bool :=
  Naming.excludedDirectories.contains (FileName.shown name) ||
    exclude.contains (FileName.shown name)

structure Walk where
  fs : FileSystem
  globals : List IgnoreRule := []
  root : Location
  exclude : List String := []

namespace Walk

def enters (walk : Walk) (names : List String) : Bool :=
  !(names.getLast?.any (isExcluded walk.exclude)) &&
    !IgnoreRules.isIgnored walk.fs walk.globals (walk.root ++ names) true

def admits (walk : Walk) (names : List String) : Bool :=
  (Text.fronts names.dropLast).all walk.enters &&
    names.getLast?.any isSourceName &&
    !IgnoreRules.isIgnored walk.fs walk.globals (walk.root ++ names) false

def namesBelow? (walk : Walk) (key : String) : Option (List String) :=
  let location := Text.segments '/' key
  if walk.root.isPrefixOf location && walk.root.length < location.length then
    some (location.drop walk.root.length)
  else none

def sourceFile (names : List String) (content : ByteArray) : SourceFile :=
  let shown := names.map FileName.shown
  let relPath := Text.join '/' shown
  { relPath
    module := ModulePath.ofPath relPath
    bytes := content.size
    lines := lineCount content
    isMarker := shown.getLast? == some Naming.markerFile }

def pathBelow (rootPath path : String) : String :=
  if Text.endsWith rootPath "/" then rootPath ++ path else rootPath ++ "/" ++ path

def source? (walk : Walk) (rootPath : String) (entry : String × Entry) : Option Source := do
  let names ← walk.namesBelow? entry.1
  let content ← walk.fs.content? (walk.root ++ names)
  if walk.admits names then
    let path := pathBelow rootPath (Text.join '/' names)
    return { file := sourceFile names content, content, path }
  else none

/-- The sources as the walk comes to them, the order of the tree standing for that of the walk. -/
def found (walk : Walk) (rootPath : String) : List Source :=
  walk.fs.tree.entries.toList.filterMap (walk.source? rootPath)

def sources (walk : Walk) (rootPath : String) : List Source :=
  Ranking.sort [Source.byRelPath] (walk.found rootPath)

end Walk
end Collect

inductive RootError where
  | missing (path : String)
  | notDirectory (path : String)
  | noRepository
  | unsettled
  deriving DecidableEq, Repr, Inhabited

def RootError.message : RootError → String
  | .missing path => "Root path " ++ FileName.shown path ++ " does not exist"
  | .notDirectory path => "Root path " ++ FileName.shown path ++ " is not a directory"
  | .noRepository => "Could not find .git directory in any parent folder"
  | .unsettled => "Config not initialized - call initialize() first"

namespace Collect

def sources (fs : FileSystem) (globals : List IgnoreRule) (rootPath : String)
    (exclude : List String) : Except RootError (List Source) :=
  match fs.resolve rootPath with
  | .ok root =>
    if fs.tree.isDirectory root then
      .ok (Walk.sources { fs, globals, root, exclude } rootPath)
    else .error (.notDirectory rootPath)
  | .error _ => .error (.notDirectory rootPath)

end Collect
end DeadCode
