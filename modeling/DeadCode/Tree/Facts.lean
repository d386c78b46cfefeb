import DeadCode.Fact
import DeadCode.Tree.Node

/- What a tree says about its file. The walk carries the scope it is in; what one node contributes by
   itself and how its children are walked are given by functions that look at that node only. -/
namespace DeadCode.Tree

/-- Calls go to the owner. Functions directly in the body of a tracked class are its methods. -/
structure Scope where
  owner : Option String := none
  classBody : Option String := none
  topLevel : Bool := true
  decorated : Bool := false
  deriving DecidableEq, Repr, Inhabited

inductive Visit where
  | whole (scope : Scope)
  | inside (scope : Scope)
  | skip
  deriving DecidableEq, Repr

namespace Node

def dotted (node : Node) : String :=
  if node.kind == .identifier then node.text
  else
    Text.join '.' ((node.children.filter fun child => child.kind == .identifier).map (·.text))

/-! Imports -/

def importedName? (bound : String → String) (node : Node) : Option (String × String) :=
  if node.kind == .aliasedImport then do
    let source ← node.child? .name
    let other ← node.child? .otherName
    return (source.dotted, other.text)
  else some (node.dotted, bound node.dotted)

def bindingFacts (name : String) (line : Nat) (source : String) : List Fact :=
  if name == "_" then [] else [.binds { name, line, source }]

def firstSegment (module : String) : String := (Text.segments '.' module).headD ""

def importFacts (node : Node) : List Fact :=
  (node.childrenIn .name).flatMap fun item =>
    match item.importedName? firstSegment with
    | some (module, bound) =>
      if module == "" then [] else .imports module :: bindingFacts bound item.line module
    | none => []

def importSource (node : Node) : Nat × String :=
  if node.kind == .relativeImport then
    let dots := (node.children.filter fun child => child.kind == .importDots).getLast?
    let path := (node.children.filter fun child => child.kind == .dottedName).getLast?
    ((dots.map fun child => child.text.toList.count '.').getD 0, (path.map dotted).getD "")
  else (0, node.dotted)

def qualify (base : Option String) (name : String) : String :=
  match base with
  | some base => base ++ "." ++ name
  | none => name

def featureModule : String := "__future__"

def fromImportFacts (file : SourceFile) (node : Node) : List Fact :=
  match node.child? .moduleName with
  | none => []
  | some source =>
    let (level, remainder) := source.importSource
    if level == 0 && remainder == featureModule then []
    else
      let base := ModulePath.absolutize file.package level remainder
      base.toList.map Fact.imports ++
        (node.childrenIn .name).flatMap fun item =>
          match item.importedName? id with
          | some (imported, bound) =>
            if imported == "" then []
            else .imports (qualify base imported) :: bindingFacts bound item.line source.text
          | none => []

/-! Definitions -/

def isClass (node : Node) : Bool := node.kind == .classDefinition

/-- The qualified name and kind under which a definition is tracked: everything at the top level,
    and the functions directly in a tracked class. -/
def tracked? (file : SourceFile) (scope : Scope) (node : Node) (name : String) :
    Option (String × SymbolKind) :=
  if scope.topLevel then
    some (file.module ++ "." ++ name, if node.isClass then .classType else .function)
  else if node.isClass then none
  else scope.classBody.map fun owner => (owner ++ "." ++ name, .method)

def definitionFacts (file : SourceFile) (scope : Scope) (node : Node) (name : String) :
    List Fact :=
  (if scope.topLevel then [.exports name] else []) ++
    (node.tracked? file scope name).toList.map fun (qualified, kind) =>
      .defines qualified
        { name, kind, file := file.relPath, line := node.line, lines := node.span.lines,
          decorated := scope.decorated }

/-- A class body runs with the class statement, so its calls stay with the owner outside; a
    function body runs when the function is called. -/
def bodyScope (file : SourceFile) (scope : Scope) (node : Node) (name : String) : Scope :=
  let qualified := (node.tracked? file scope name).map (·.1)
  if node.isClass then
    { owner := scope.owner, classBody := if scope.topLevel then qualified else none,
      topLevel := false }
  else { owner := qualified.or scope.owner, topLevel := false }

def signatureRoles : List Role := [.parameters, .returnType, .superclasses, .typeParameters]

/-! The walk -/

def calleeName? (callee : Node) : Option String :=
  if callee.kind == .identifier then some callee.text
  else if callee.kind == .attribute then (callee.child? .attribute).map (·.text)
  else none

/-- A condition that mentions both names guards code that runs only in a main program. -/
def isMainGuard (condition : Node) : Bool :=
  Text.contains condition.text "__name__" && Text.contains condition.text "__main__"

def definedName? (node : Node) : Option String := (node.child? .name).map (·.text)

def ownFacts (file : SourceFile) (scope : Scope) (node : Node) : List Fact :=
  match node.kind with
  | .importStatement => node.importFacts
  | .fromImport => node.fromImportFacts file
  | .functionDefinition | .classDefinition =>
    match node.definedName? with
    | some name => node.definitionFacts file scope name
    | none => []
  | .call =>
    match (node.child? .callee).bind calleeName? with
    | some name => [.calls scope.owner name]
    | none => []
  | .identifier => [.refers node.text]
  | .ifStatement =>
    if scope.topLevel && (node.child? .condition).any isMainGuard then [.guards] else []
  | _ => []

/-- How a child is walked. Signatures and decorators belong to the scope around a definition; of an
    attribute only the object is a use of a name. -/
def visitChild (file : SourceFile) (scope : Scope) (node child : Node) : Visit :=
  let plain := { scope with decorated := false }
  match node.kind with
  | .importStatement | .fromImport | .futureImport | .comment => .skip
  | .decoratedDefinition =>
    if child.kind == .decorator then .inside plain
    else if child.role == .definition then .whole { scope with decorated := true }
    else .skip
  | .functionDefinition | .classDefinition =>
    match node.definedName? with
    | some name =>
      if child.role == .body then .inside (node.bodyScope file scope name)
      else if signatureRoles.contains child.role then .whole plain
      else .skip
    | none => .skip
  | .attribute => if child.role == .object then .whole plain else .skip
  | _ => .whole plain

mutual

def facts (file : SourceFile) : Visit → Node → List Fact
  | .skip, _ => []
  | .inside scope, ⟨_, _, _, _, children⟩ => factsOf file (fun _ => .whole scope) children
  | .whole scope, ⟨kind, role, span, text, children⟩ =>
    ownFacts file scope ⟨kind, role, span, text, children⟩ ++
      factsOf file (visitChild file scope ⟨kind, role, span, text, children⟩) children

def factsOf (file : SourceFile) (visit : Node → Visit) : List Node → List Fact
  | [] => []
  | node :: rest => node.facts file (visit node) ++ factsOf file visit rest

end

def extraction (file : SourceFile) (tree : Node) : Extraction :=
  Extraction.ofFacts (tree.facts file (.inside {}))

end Node
end DeadCode.Tree
