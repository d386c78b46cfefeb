import DeadCode.Text

/- Naming conventions of the projects under analysis: which names, files and directories are used
   without an import or a call that the analysis could see. -/
namespace DeadCode.Naming

def sourceExtension : String := "py"

def markerModule : String := "__init__"

def markerFile : String := "__init__.py"

def testConfigFiles : List String := ["conftest.py"]

def excludedDirectories : List String :=
  [".git", ".hg", ".svn", "__pycache__", ".venv", "venv", "env", ".env", ".tox", ".nox",
   ".mypy_cache", ".pytest_cache", ".ruff_cache", "node_modules", "build", "dist",
   "site-packages", ".eggs", ".idea", ".vscode"]

def entryPointNames : List String := ["main", "run", "start", "cli"]

def fixtureNames : List String :=
  ["setUp", "tearDown", "setUpClass", "tearDownClass", "setUpModule", "tearDownModule",
   "asyncSetUp", "asyncTearDown", "setup", "teardown", "setup_method", "teardown_method",
   "setup_class", "teardown_class", "setup_module", "teardown_module", "setup_function",
   "teardown_function"]

def exampleDirectories : List String :=
  ["example", "examples", "demo", "demos", "sample", "samples", "scripts", "docs", "benchmarks",
   "migrations"]

/-- Names such as `__name__`. The length is that of the UTF-8 form. -/
def isDunder (name : String) : Bool :=
  decide (4 < name.utf8ByteSize) && Text.startsWith name "__" && Text.endsWith name "__"

def isTestComponent (component : String) : Bool :=
  component == "test" || component == "tests" || Text.startsWith component "test_" ||
    Text.endsWith component "_test" || Text.endsWith component "_tests"

def withoutExtension (component : String) : String :=
  match Text.splitLast? '.' component with
  | some (stem, _) => stem
  | none => component

/-- A path is a test path when a component is, the last one taken without its extension. -/
def isTestPath (path : String) : Bool :=
  let components := Text.segments '/' path
  components.dropLast.any isTestComponent ||
    components.getLast?.any fun last => isTestComponent (withoutExtension last)

end DeadCode.Naming
