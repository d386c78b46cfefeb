import DeadCode.FileName
import DeadCode.NameMap

/- A file system as data: files, directories and links by location below a top directory, and how a
   path leads to a location. The names on the way are those of `FileName`. Permissions are left out:
   every directory can be listed and every file can be read. -/
namespace DeadCode

abbrev Location := List String

inductive Entry where
  | file (content : ByteArray)
  | directory
  | link (target : String)
  deriving Inhabited

def Entry.isDirectory : Entry → Bool
  | .directory => true
  | _ => false

/-- Entries by location, written with slashes. The top directory is no entry. -/
structure FileTree where
  entries : NameMap Entry := ∅
  deriving Inhabited

namespace FileTree

def key (location : Location) : String := Text.join '/' location

def find? (tree : FileTree) (location : Location) : Option Entry :=
  if location.isEmpty then some .directory else tree.entries.get? (key location)

def isDirectory (tree : FileTree) (location : Location) : Bool :=
  (tree.find? location).any Entry.isDirectory

def put (tree : FileTree) (location : Location) (entry : Entry) : FileTree :=
  ⟨tree.entries.insert (key location) entry⟩

end FileTree

inductive PathError where
  | notFound
  | notDirectory
  | isDirectory
  | tooManyLinks
  deriving DecidableEq, Repr, Inhabited

def PathError.message : PathError → String
  | .notFound => "No such file or directory (os error 2)"
  | .notDirectory => "Not a directory (os error 20)"
  | .isDirectory => "Is a directory (os error 21)"
  | .tooManyLinks => "Too many levels of symbolic links (os error 40)"

/-- A tree whose top directory has the path `base`, and the directories that a program works in and
    calls home. -/
structure FileSystem where
  base : String
  tree : FileTree := {}
  workingDirectory : Location := []
  home : Option Location := none
  deriving Inhabited

namespace FileSystem

def linkLimit : Nat := 40

/-- Where a path starts, and the names on it. The empty path leads nowhere, and a path that begins
    with a slash but not with `base` leads out of the tree. -/
def locate (fs : FileSystem) (here : Location) (path : String) : Option (Location × List String) :=
  if path == "" then none
  else if path == fs.base then some ([], [])
  else if Text.startsWith path (fs.base ++ "/") then
    some ([], Text.segments '/' (String.ofList (path.toList.drop (fs.base.toList.length + 1))))
  else if Text.startsWith path "/" then none
  else some (here, Text.segments '/' path)

/-- Follows names from a directory. With `creating` the last name need not exist. -/
def follow (fs : FileSystem) (creating : Bool) (links : Nat) (here : Location) :
    List String → Except PathError Location
  | [] => .ok here
  | name :: rest =>
    if !fs.tree.isDirectory here then .error .notDirectory
    else if name == "" || name == "." then follow fs creating links here rest
    else if name == ".." then follow fs creating links here.dropLast rest
    else
      match fs.tree.find? (here ++ [name]) with
      | none => if creating && rest.isEmpty then .ok (here ++ [name]) else .error .notFound
      | some (.link target) =>
        match links with
        | 0 => .error .tooManyLinks
        | links + 1 =>
          match fs.locate here target with
          | some (start, names) => follow fs creating links start (names ++ rest)
          | none => .error .notFound
      | some _ => follow fs creating links (here ++ [name]) rest
termination_by names => (links, names.length)

def resolveFrom (fs : FileSystem) (here : Location) (path : String) : Except PathError Location :=
  match fs.locate here path with
  | some (start, names) => fs.follow false linkLimit start names
  | none => .error .notFound

def resolve (fs : FileSystem) (path : String) : Except PathError Location :=
  fs.resolveFrom fs.workingDirectory path

def target? (fs : FileSystem) (location : Location) : Option Entry :=
  match fs.follow false linkLimit [] location with
  | .ok found => fs.tree.find? found
  | .error _ => none

def exists? (fs : FileSystem) (location : Location) : Bool := (fs.target? location).isSome

def content? (fs : FileSystem) (location : Location) : Option ByteArray :=
  match fs.target? location with
  | some (.file content) => some content
  | _ => none

def pathOf (fs : FileSystem) (location : Location) : String :=
  if location.isEmpty then (if fs.base == "" then "/" else fs.base)
  else fs.base ++ "/" ++ FileTree.key location

/-- Where a file would be made for a path. A path that ends with a slash names a directory. -/
def creation (fs : FileSystem) (path : String) : Except PathError Location :=
  match fs.locate fs.workingDirectory path with
  | none => .error .notFound
  | some (start, names) => do
    let named := (names.reverse.dropWhile (· == "")).reverse
    if named.length < names.length then
      discard (fs.follow false linkLimit start named.dropLast)
      .error .isDirectory
    else
      let location ← fs.follow true linkLimit start names
      if fs.tree.isDirectory location then .error .isDirectory else .ok location

def writeAt (fs : FileSystem) (location : Location) (content : ByteArray) : FileSystem :=
  { fs with tree := fs.tree.put location (.file content) }

def makeDirectories (fs : FileSystem) (here : Location) : List String → FileSystem × Location
  | [] => (fs, here)
  | name :: rest =>
    match fs.resolveFrom here name with
    | .ok found => makeDirectories fs found rest
    | .error _ =>
      makeDirectories { fs with tree := fs.tree.put (here ++ [name]) .directory } (here ++ [name]) rest

def install (fs : FileSystem) (path : String) (entry : Entry) : FileSystem :=
  let names := (Text.segments '/' path).filter fun name => name != "" && name != "."
  match names.getLast? with
  | none => fs
  | some last =>
    let (fs, parent) := fs.makeDirectories [] names.dropLast
    if entry.isDirectory then (fs.makeDirectories parent [last]).1
    else { fs with tree := fs.tree.put (parent ++ [last]) entry }

end FileSystem
end DeadCode
