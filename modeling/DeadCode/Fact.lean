import DeadCode.Extraction

/- Single facts about a source file, and the extraction that a list of facts adds up to. -/
namespace DeadCode

/-- A call belongs to the function whose body it stands in, or to the file. -/
inductive Fact where
  | imports (name : String)
  | binds (binding : Binding)
  | exports (name : String)
  | defines (qualified : String) (symbol : Symbol)
  | calls (owner : Option String) (name : String)
  | refers (name : String)
  | guards
  deriving DecidableEq, Repr

namespace Extraction

/-- Importing a module imports its packages too; the first definition of a name stays. -/
def add (e : Extraction) : Fact → Extraction
  | .imports name => { e with imports := e.imports.insertAll (ModulePath.prefixes name) }
  | .binds binding => { e with bindings := e.bindings ++ [binding] }
  | .exports name => { e with exports := e.exports.insert name }
  | .defines qualified symbol => { e with symbols := e.symbols.insertNew qualified symbol }
  | .calls (some owner) name =>
    { e with calls := e.calls.alter owner fun old => (old.getD ∅).insert name }
  | .calls none name => { e with moduleCalls := e.moduleCalls.insert name }
  | .refers name => { e with references := e.references.insert name }
  | .guards => { e with hasMainGuard := true }

def ofFacts (facts : List Fact) : Extraction := facts.foldl add {}

end Extraction
end DeadCode
