import DeadCode.Proofs.FactSums
import DeadCode.Proofs.TreeShape

/- What a node says by itself in a scope, by the sort of the fact. A definition speaks of exports and
   symbols, a call of a call, an identifier of a use, an import statement of modules and bindings. -/
namespace DeadCode

def Fact.isImporting : Fact → Bool
  | .imports _ | .binds _ => true
  | _ => false

namespace Tree.Node

variable {file : SourceFile} {scope : Scope} {node : Node} {fact : Fact} {name x : String}

def Calls (node : Node) (name : String) : Prop :=
  node.kind = .call ∧ ∃ callee, node.child? .callee = some callee ∧
    ((callee.kind = .identifier ∧ callee.text = name) ∨
      (callee.kind = .attribute ∧ ∃ last, callee.child? .attribute = some last ∧ last.text = name))

/-- What one imported name brings, where `full` makes it absolute and `source` is the module text to
    show. -/
def itemFacts (bound full source : String → String) (item : Node) : List Fact :=
  match item.importedName? bound with
  | some (imported, name) =>
    if imported == "" then []
    else .imports (full imported) :: bindingFacts name item.line (source imported)
  | none => []

theorem importFacts_eq (node : Node) :
    node.importFacts = (node.childrenIn .name).flatMap (itemFacts firstSegment id id) :=
  rfl

theorem fromImportFacts_eq {source : Node} (from_ : node.child? .moduleName = some source) :
    node.fromImportFacts file =
      if source.importSource.1 == 0 && source.importSource.2 == featureModule then []
      else
        let base := ModulePath.absolutize file.package source.importSource.1 source.importSource.2
        base.toList.map Fact.imports ++
          (node.childrenIn .name).flatMap (itemFacts id (qualify base) fun _ => source.text) := by
  rw [fromImportFacts, from_]
  rfl

theorem isImporting_itemFacts {bound full source : String → String} {item : Node}
    (mem : fact ∈ itemFacts bound full source item) : fact.isImporting = true := by
  unfold itemFacts at mem
  split at mem
  · split at mem
    · cases mem
    · rcases List.mem_cons.mp mem with rfl | binds
      · rfl
      · unfold bindingFacts at binds
        split at binds
        · cases binds
        · rw [List.mem_singleton.mp binds]
          rfl
  · cases mem

theorem isImporting_importFacts (mem : fact ∈ node.importFacts) : fact.isImporting = true := by
  rw [importFacts_eq] at mem
  obtain ⟨item, _, mem⟩ := List.mem_flatMap.mp mem
  exact isImporting_itemFacts mem

theorem isImporting_fromImportFacts (mem : fact ∈ node.fromImportFacts file) :
    fact.isImporting = true := by
  cases from_ : node.child? .moduleName with
  | none => simp [fromImportFacts, from_] at mem
  | some source =>
    rw [fromImportFacts_eq from_] at mem
    split at mem
    · cases mem
    · rcases List.mem_append.mp mem with base | items
      · obtain ⟨_, _, rfl⟩ := List.mem_map.mp base
        rfl
      · obtain ⟨item, _, mem⟩ := List.mem_flatMap.mp items
        exact isImporting_itemFacts mem

theorem mem_ownFacts_iff :
    fact ∈ node.ownFacts file scope ↔
      (node.kind = .importStatement ∧ fact ∈ node.importFacts) ∨
      (node.kind = .fromImport ∧ fact ∈ node.fromImportFacts file) ∨
      (node.isDefinition = true ∧ ∃ name, node.definedName? = some name ∧
        fact ∈ node.definitionFacts file scope name) ∨
      (node.kind = .call ∧ ∃ name, (node.child? .callee).bind calleeName? = some name ∧
        .calls scope.owner name = fact) ∨
      (node.kind = .identifier ∧ .refers node.text = fact) ∨
      (node.kind = .ifStatement ∧ .guards = fact ∧ scope.topLevel = true ∧
        (node.child? .condition).any isMainGuard = true) := by
  unfold ownFacts
  split
  · simp_all [isDefinition, Kind.isDefinition]
  · simp_all [isDefinition, Kind.isDefinition]
  · cases node.definedName? <;> simp_all [isDefinition, Kind.isDefinition]
  · cases node.definedName? <;> simp_all [isDefinition, Kind.isDefinition]
  · cases (node.child? .callee).bind calleeName? <;>
      simp_all [isDefinition, Kind.isDefinition, @eq_comm _ fact]
  · simp_all [isDefinition, Kind.isDefinition, @eq_comm _ fact]
  · split <;> simp_all [isDefinition, Kind.isDefinition, @eq_comm _ fact]
  · simp_all [isDefinition, Kind.isDefinition]

/-- A fact of another sort than those of import statements comes from another node. -/
theorem mem_ownFacts_iff_of_other (other : fact.isImporting = false) :
    fact ∈ node.ownFacts file scope ↔
      (node.isDefinition = true ∧ ∃ name, node.definedName? = some name ∧
        fact ∈ node.definitionFacts file scope name) ∨
      (node.kind = .call ∧ ∃ name, (node.child? .callee).bind calleeName? = some name ∧
        .calls scope.owner name = fact) ∨
      (node.kind = .identifier ∧ .refers node.text = fact) ∨
      (node.kind = .ifStatement ∧ .guards = fact ∧ scope.topLevel = true ∧
        (node.child? .condition).any isMainGuard = true) := by
  have importFacts : fact ∉ node.importFacts := fun mem => by
    simp [isImporting_importFacts mem] at other
  have fromImportFacts : fact ∉ node.fromImportFacts file := fun mem => by
    simp [isImporting_fromImportFacts mem] at other
  rw [mem_ownFacts_iff]
  simp only [importFacts, fromImportFacts, and_false, false_or]

theorem exports_mem_ownFacts :
    .exports x ∈ node.ownFacts file scope ↔
      node.isDefinition = true ∧ node.definedName? = some x ∧ scope.topLevel = true := by
  have told : ∀ name, Fact.exports x ∈ node.definitionFacts file scope name ↔
      scope.topLevel = true ∧ x = name := by
    intro name
    cases top : scope.topLevel <;> simp [definitionFacts, top]
  rw [mem_ownFacts_iff_of_other rfl]
  simp [told, and_comm]

theorem defines_mem_ownFacts {q : String} {symbol : Symbol} :
    .defines q symbol ∈ node.ownFacts file scope ↔
      node.isDefinition = true ∧ ∃ name, node.definedName? = some name ∧
        ∃ kind, node.tracked? file scope name = some (q, kind) ∧
          { name, kind, file := file.relPath, line := node.line, lines := node.span.lines,
            decorated := scope.decorated } = symbol := by
  rw [mem_ownFacts_iff_of_other rfl]
  simp [definitionFacts]

theorem calledName_eq_some_iff :
    (node.child? .callee).bind calleeName? = some x ↔
      ∃ callee, node.child? .callee = some callee ∧
        ((callee.kind = .identifier ∧ callee.text = x) ∨
          (callee.kind = .attribute ∧ ∃ last, callee.child? .attribute = some last ∧
            last.text = x)) := by
  rw [Option.bind_eq_some_iff]
  refine exists_congr fun callee => and_congr_right fun _ => ?_
  unfold calleeName?
  cases kind : callee.kind <;> simp

instance (node : Node) (name : String) : Decidable (node.Calls name) :=
  decidable_of_iff (node.kind = .call ∧ (node.child? .callee).bind calleeName? = some name)
    (and_congr_right fun _ => calledName_eq_some_iff)

theorem calls_mem_ownFacts {owner : Option String} :
    .calls owner x ∈ node.ownFacts file scope ↔ node.Calls x ∧ scope.owner = owner := by
  have untold : ∀ name, Fact.calls owner x ∉ node.definitionFacts file scope name := by
    intro name
    cases top : scope.topLevel <;> simp [definitionFacts, top]
  rw [mem_ownFacts_iff_of_other rfl, Calls, ← calledName_eq_some_iff]
  simp [untold, and_assoc, and_left_comm, and_comm]

theorem refers_mem_ownFacts :
    .refers x ∈ node.ownFacts file scope ↔ node.kind = .identifier ∧ node.text = x := by
  have untold : ∀ name, Fact.refers x ∉ node.definitionFacts file scope name := by
    intro name
    cases top : scope.topLevel <;> simp [definitionFacts, top]
  rw [mem_ownFacts_iff_of_other rfl]
  simp [untold]

theorem ownFacts_definition (defines : node.isDefinition = true)
    (named : node.definedName? = some name) :
    node.ownFacts file scope = node.definitionFacts file scope name := by
  rcases kind_of_definition defines with kind | kind <;> simp only [ownFacts, kind, named]

theorem definition?_ownFacts_other (other : node.isDefinition = false) :
    (node.ownFacts file scope).filterMap Fact.definition? = [] := by
  refine List.filterMap_eq_nil_iff.mpr fun fact mem => ?_
  cases fact with
  | defines qualified symbol =>
    have told := (mem_ownFacts_iff_of_other rfl).mp mem
    simp [other] at told
  | _ => rfl

theorem isImporting_ownFacts_other (module : node.kind ≠ .importStatement)
    (names : node.kind ≠ .fromImport) (mem : fact ∈ node.ownFacts file scope) :
    fact.isImporting = false := by
  have told := mem_ownFacts_iff.mp mem
  cases fact with
  | imports name => simp [module, names, definitionFacts] at told
  | binds binding => simp [module, names, definitionFacts] at told
  | _ => rfl

theorem binding?_ownFacts_other (module : node.kind ≠ .importStatement)
    (names : node.kind ≠ .fromImport) :
    (node.ownFacts file scope).filterMap Fact.binding? = [] := by
  refine List.filterMap_eq_nil_iff.mpr fun fact mem => ?_
  cases fact with
  | binds binding => cases isImporting_ownFacts_other module names mem
  | _ => rfl

end Tree.Node
end DeadCode
