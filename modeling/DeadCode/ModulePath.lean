import DeadCode.Naming

/- Dotted module names: how they come from paths, which prefixes they have, and what an import with
   leading dots means. -/
namespace DeadCode.ModulePath

/-- The module of a path: one source extension is dropped and directories become segments. -/
def ofPath (path : String) : String :=
  Text.replaceChar '/' '.' ((Text.dropEnding? path ("." ++ Naming.sourceExtension)).getD path)

def package (module : String) : String :=
  match Text.splitLast? '.' module with
  | some (front, _) => front
  | none => ""

def parts (name : String) : List String :=
  (Text.segments '.' name).filter fun part => part != ""

/-- Every dotted prefix of a name, shortest first; empty segments are passed over. -/
def prefixes (name : String) : List String :=
  (Text.fronts (parts name)).map (Text.join '.')

/-- The absolute name of an import written with `level` leading dots inside a package. One dot is
    the package itself and each further dot climbs one level; climbing past the root leaves the
    remainder alone. There is no name when nothing is left. -/
def absolutize (package : String) (level : Nat) (remainder : String) : Option String :=
  match level with
  | 0 => if remainder == "" then none else some remainder
  | climb + 1 =>
    let parents := parts package
    let base := if parents.length < climb then [] else parents.take (parents.length - climb)
    let whole := if remainder == "" then base else base ++ [remainder]
    if whole.isEmpty then none else some (Text.join '.' whole)

end DeadCode.ModulePath
