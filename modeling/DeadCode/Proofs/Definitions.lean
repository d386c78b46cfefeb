import DeadCode.SourceText
import DeadCode.Proofs.NodeFacts

/- Definitions and calls against their meaning. What a definition is tracked as, and which function a
   call belongs to, is told by the definitions around it: those whose bodies hold it. The scope that
   the walk carries is the picture of these definitions. -/
namespace DeadCode.Tree

namespace Occurrence

def enclosingOf : Node → List Node → List Occurrence
  | _, [] => []
  | node, parent :: above =>
    if parent.isDefinition && node.role == .body then ⟨parent, above⟩ :: enclosingOf parent above
    else enclosingOf parent above

def enclosing (o : Occurrence) : List Occurrence := enclosingOf o.node o.above

def depth (o : Occurrence) : Nat := o.enclosing.length

def name (o : Occurrence) : String := o.node.definedName?.getD ""

/-- The qualified name and the kind under which a definition is tracked: everything outside all
    bodies, and functions that stand in the body of a class and in no other body. -/
def trackedAs? (file : SourceFile) (o : Occurrence) : Option (String × SymbolKind) :=
  match o.enclosing with
  | [] => some (file.module ++ "." ++ o.name, if o.node.isClass then .classType else .function)
  | [outer] =>
    if outer.node.isClass && !o.node.isClass then
      some (file.module ++ "." ++ outer.name ++ "." ++ o.name, .method)
    else none
  | _ => none

def isDecorated (o : Occurrence) : Bool :=
  o.above.head?.any fun parent => parent.kind == .decoratedDefinition

def record? (file : SourceFile) (o : Occurrence) : Option (String × Symbol) :=
  (o.trackedAs? file).map fun (qualified, kind) =>
    (qualified,
      { name := o.name, kind, file := file.relPath, line := o.node.line,
        lines := o.node.span.lines, decorated := o.isDecorated })

def TracksFunction (file : SourceFile) (o : Occurrence) (qualified : String) : Prop :=
  o.node.kind = .functionDefinition ∧ (o.trackedAs? file).map (·.1) = some qualified

instance (file : SourceFile) (o : Occurrence) (qualified : String) :
    Decidable (o.TracksFunction file qualified) :=
  inferInstanceAs (Decidable (_ ∧ _))

end Occurrence

namespace Node

def definitions (tree : Node) : List Occurrence :=
  tree.occurrences.filter fun o => o.node.isDefinition

end Node

open Node Occurrence

variable {file : SourceFile} {scope : Scope} {node parent tree : Node} {above : List Node}
variable {o : Occurrence} {name q x : String}

def classAround? (file : SourceFile) : List Occurrence → Option String
  | [outer] => if outer.node.isClass then some (file.module ++ "." ++ outer.name) else none
  | _ => none

structure Mirrors (file : SourceFile) (around : List Occurrence) (scope : Scope) : Prop where
  topLevel : scope.topLevel = around.isEmpty
  classBody : scope.classBody = classAround? file around
  owner : ∀ q, scope.owner = some q ↔ ∃ d ∈ around, d.TracksFunction file q

theorem Mirrors.tracked (mirrors : Mirrors file o.enclosing scope)
    (named : o.node.definedName? = some name) :
    o.node.tracked? file scope name = o.trackedAs? file := by
  have label : o.name = name := by rw [Occurrence.name, named]; rfl
  rw [tracked?, trackedAs?, mirrors.topLevel, mirrors.classBody, label]
  rcases o.enclosing with _ | ⟨outer, _ | ⟨next, rest⟩⟩
  · rfl
  · cases inner : o.node.isClass <;> cases around : outer.node.isClass <;>
      simp [classAround?, around]
  · cases o.node.isClass <;> simp [classAround?]

theorem kind_of_isClass (inside : node.isClass = true) : node.kind = .classDefinition := by
  simpa [isClass] using inside

theorem not_tracksFunction_class (inside : o.node.isClass = true) : ¬o.TracksFunction file q := by
  intro tracks
  have clash := tracks.1.symm.trans (kind_of_isClass inside)
  cases clash

theorem not_tracksFunction_around {d : Occurrence} (tracked : (o.trackedAs? file).isSome = true)
    (around : d ∈ o.enclosing) : ¬d.TracksFunction file q := by
  unfold trackedAs? at tracked
  split at tracked
  · next none => simp [none] at around
  · next outer one =>
    have same : d = outer := by simpa [one] using around
    subst same
    split at tracked
    · next inside => exact not_tracksFunction_class (Bool.and_eq_true_iff.mp inside).1
    · cases tracked
  · cases tracked

theorem Mirrors.in_function (mirrors : Mirrors file o.enclosing scope)
    (kind : o.node.kind = .functionDefinition) (named : o.node.definedName? = some name) :
    Mirrors file (o :: o.enclosing) (o.node.bodyScope file scope name) := by
  have outside : o.node.isClass = false := by simp [isClass, kind]
  have inner : o.node.bodyScope file scope name =
      { owner := ((o.trackedAs? file).map (·.1)).or scope.owner, topLevel := false } := by
    rw [bodyScope, mirrors.tracked named, outside]
    rfl
  rw [inner]
  refine ⟨rfl, ?_, fun q => ?_⟩
  · rcases o.enclosing with _ | ⟨outer, rest⟩ <;> simp [classAround?, outside]
  · rw [List.exists_mem_cons_iff]
    cases tracked : o.trackedAs? file with
    | none => simp [TracksFunction, tracked, mirrors.owner]
    | some entry =>
      have alone : ¬∃ d ∈ o.enclosing, d.TracksFunction file q := by
        intro h
        obtain ⟨d, around, tracks⟩ := h
        exact not_tracksFunction_around (by simp [tracked]) around tracks
      have own : o.TracksFunction file q ↔ entry.1 = q := by
        simp [TracksFunction, kind, tracked]
      simp [own, alone]

theorem Mirrors.in_class (mirrors : Mirrors file o.enclosing scope)
    (inside : o.node.isClass = true) (named : o.node.definedName? = some name) :
    Mirrors file (o :: o.enclosing) (o.node.bodyScope file scope name) := by
  have inner : o.node.bodyScope file scope name =
      { owner := scope.owner
        classBody := if o.enclosing.isEmpty then (o.trackedAs? file).map (·.1) else none
        topLevel := false } := by
    rw [bodyScope, mirrors.tracked named, inside, mirrors.topLevel]
    rfl
  rw [inner]
  refine ⟨rfl, ?_, fun q => ?_⟩
  · rw [trackedAs?]
    rcases o.enclosing with _ | ⟨outer, rest⟩ <;> simp [classAround?, inside]
  · rw [List.exists_mem_cons_iff]
    simp [not_tracksFunction_class inside, mirrors.owner]

theorem Mirrors.body (mirrors : Mirrors file o.enclosing scope)
    (defines : o.node.isDefinition = true) (named : o.node.definedName? = some name) :
    Mirrors file (o :: o.enclosing) (o.node.bodyScope file scope name) := by
  rcases kind_of_definition defines with kind | kind
  · exact mirrors.in_function kind named
  · exact mirrors.in_class (by simp [isClass, kind]) named

theorem Mirrors.redecorate {around : List Occurrence} (mirrors : Mirrors file around scope)
    (decorated : Bool) : Mirrors file around { scope with decorated } :=
  ⟨mirrors.topLevel, mirrors.classBody, mirrors.owner⟩

/- The scope along the way down to a node. -/

def Visit.scope? : Visit → Option Scope
  | .whole scope | .inside scope => some scope
  | .skip => none

theorem enclosingOf_body (defines : parent.isDefinition = true) (role : node.role = .body) :
    enclosingOf node (parent :: above) = ⟨parent, above⟩ :: enclosingOf parent above := by
  simp [enclosingOf, defines, role]

theorem enclosingOf_other (other : parent.isDefinition = true → node.role ≠ .body) :
    enclosingOf node (parent :: above) = enclosingOf parent above := by
  cases defines : parent.isDefinition with
  | false => simp [enclosingOf, defines]
  | true => simp [enclosingOf, other defines]

theorem not_body_of_signature (signature : signatureRoles.contains node.role = true) :
    node.role ≠ .body := by
  intro role
  simp [role, signatureRoles] at signature

theorem not_definition_of_frame (frame : node.kind.isFrame = true) : node.isDefinition = false := by
  cases kind : node.kind <;> simp_all [Kind.isFrame, isDefinition, Kind.isDefinition]

section Walk

variable (form : tree.WellFormed) (mem : ⟨node, above⟩ ∈ tree.occurrences)
include form mem

/-- The walk meets every node in a scope that tells which definitions are around it. -/
theorem mirrors_visit :
    ∀ scope, (node.visitAt file above).scope? = some scope →
      Mirrors file (enclosingOf node above) scope := by
  induction mem using occurrence_induction with
  | root =>
    intro scope met
    cases met
    exact ⟨rfl, rfl, by simp [enclosingOf]⟩
  | down parent above child there _ hc ih =>
    intro scope met
    rw [visitAt] at met
    cases visit : parent.visitAt file above with
    | skip => simp [visit, Visit.scope?] at met
    | inside outer =>
      have same : outer = scope := by simpa [visit, Visit.scope?] using met
      have frame := (kind_of_visit form there).2 outer visit
      rw [enclosingOf_other (by simp [not_definition_of_frame frame]), ← same]
      exact ih outer (by rw [visit]; rfl)
    | whole outer =>
      have mirrors := ih outer (by rw [visit]; rfl)
      have meets : Meets file outer parent child _ := meets_visitChild (form.wellMade _ there) hc
      simp only [visit] at met
      generalize parent.visitChild file outer child = step at meets met
      cases meets with
      | hidden => cases met
      | decorator kind =>
        cases met
        rw [enclosingOf_other (by simp [isDefinition, Kind.isDefinition, kind])]
        exact mirrors.redecorate false
      | decorated kind =>
        cases met
        rw [enclosingOf_other (by simp [isDefinition, Kind.isDefinition, kind])]
        exact mirrors.redecorate true
      | body defines role _ name named =>
        cases met
        rw [enclosingOf_body defines role]
        exact Mirrors.body mirrors defines named
      | part _ _ _ signature =>
        cases met
        rw [enclosingOf_other fun defines => not_body_of_signature (signature defines)]
        exact mirrors.redecorate false

theorem decorated_visit :
    (∀ scope, node.visitAt file above = .inside scope → scope.decorated = false) ∧
      ∀ scope, node.visitAt file above = .whole scope →
        scope.decorated = isDecorated ⟨node, above⟩ := by
  induction mem using occurrence_induction with
  | root => simp [visitAt]
  | down parent above child there _ hc ih =>
    rw [visitAt]
    cases visit : parent.visitAt file above with
    | skip => simp
    | inside outer =>
      have frame := (kind_of_visit form there).2 outer visit
      have other : (parent.kind == .decoratedDefinition) = false := by
        cases kind : parent.kind <;> simp_all [Kind.isFrame]
      simp [ih.1 outer visit, isDecorated, other]
    | whole outer =>
      have meets : Meets file outer parent child _ := meets_visitChild (form.wellMade _ there) hc
      simp only
      generalize parent.visitChild file outer child = step at meets
      cases meets with
      | hidden => simp
      | decorator => simp
      | decorated kind => simp [isDecorated, kind]
      | body _ _ _ name => simp [bodyScope]; split <;> rfl
      | part _ other => simp [isDecorated, other]

end Walk

/- What a node says where it stands. -/

section Told

variable (form : tree.WellFormed) (mem : o ∈ tree.occurrences)
include form mem

theorem exists_scope (named : o.node.kind.isNamePart = false) (frame : o.node.kind.isFrame = false) :
    ∃ scope, o.node.visitAt file o.above = .whole scope ∧ Mirrors file o.enclosing scope ∧
      scope.decorated = o.isDecorated := by
  obtain ⟨scope, visit⟩ := exists_visit_whole form mem named frame
  exact ⟨scope, visit, mirrors_visit form mem scope (by rw [visit]; rfl),
    (decorated_visit form mem).2 scope visit⟩

theorem facts_definition (defines : o.node.isDefinition = true) :
    o.facts file = (if o.depth = 0 then [.exports o.name] else []) ++
      (o.record? file).toList.map fun e => .defines e.1 e.2 := by
  have kinds := kind_of_definition defines
  have named : o.node.kind.isNamePart = false := by
    rcases kinds with kind | kind <;> simp [kind, Kind.isNamePart]
  have frame : o.node.kind.isFrame = false := by
    rcases kinds with kind | kind <;> simp [kind, Kind.isFrame]
  obtain ⟨scope, visit, mirrors, decorated⟩ := @exists_scope file tree o form mem named frame
  obtain ⟨name, label⟩ := exists_definedName (form.wellMade o mem) defines
  have same : o.name = name := by rw [Occurrence.name, label]; rfl
  have outside : scope.topLevel = true ↔ o.depth = 0 := by
    rw [mirrors.topLevel, List.isEmpty_iff, depth, List.length_eq_zero_iff]
  have own : o.facts file = o.node.ownFacts file scope := by
    simp only [Occurrence.facts, visit]
  rw [own, ownFacts_definition defines label, definitionFacts, mirrors.tracked label, record?, same]
  cases o.trackedAs? file <;> simp [outside, decorated]

theorem definition?_facts :
    (o.facts file).filterMap Fact.definition? =
      if o.node.isDefinition then (o.record? file).toList else [] := by
  cases defines : o.node.isDefinition with
  | true =>
    rw [facts_definition form mem defines]
    split <;> cases o.record? file <;> rfl
  | false => exact filterMap_facts_eq_nil fun _ => definition?_ownFacts_other defines

theorem exports_mem_facts :
    .exports x ∈ o.facts file ↔ o.node.isDefinition = true ∧ o.depth = 0 ∧ o.name = x := by
  cases defines : o.node.isDefinition with
  | true =>
    rw [facts_definition form mem defines]
    split
    · next outside => simp [outside, eq_comm]
    · next inside => simp [inside]
  | false => simp [mem_facts_iff, exports_mem_ownFacts, defines]

theorem exists_owner (calls : o.node.Calls x) :
    ∃ scope, Mirrors file o.enclosing scope ∧
      ∀ owner, .calls owner x ∈ o.facts file ↔ scope.owner = owner := by
  have named : o.node.kind.isNamePart = false := by simp [calls.1, Kind.isNamePart]
  have frame : o.node.kind.isFrame = false := by simp [calls.1, Kind.isFrame]
  obtain ⟨scope, visit, mirrors, _⟩ := @exists_scope file tree o form mem named frame
  refine ⟨scope, mirrors, fun owner => ?_⟩
  simp [Occurrence.facts, visit, calls_mem_ownFacts, calls]

omit form mem in
theorem calls_of_mem_facts {owner : Option String} (told : .calls owner x ∈ o.facts file) :
    o.node.Calls x := by
  obtain ⟨scope, _, own⟩ := mem_facts_iff.mp told
  exact (calls_mem_ownFacts.mp own).1

/-- A call goes to the tracked function whose body holds it. -/
theorem owned_call_mem_facts :
    .calls (some q) x ∈ o.facts file ↔
      o.node.Calls x ∧ ∃ d ∈ o.enclosing, d.TracksFunction file q := by
  constructor
  · intro told
    have calls := calls_of_mem_facts told
    obtain ⟨scope, mirrors, owner⟩ := @exists_owner file tree o x form mem calls
    exact ⟨calls, (mirrors.owner q).mp ((owner _).mp told)⟩
  · intro h
    obtain ⟨calls, around⟩ := h
    obtain ⟨scope, mirrors, owner⟩ := @exists_owner file tree o x form mem calls
    exact (owner _).mpr ((mirrors.owner q).mpr around)

theorem free_call_mem_facts :
    .calls none x ∈ o.facts file ↔
      o.node.Calls x ∧
        ∀ d ∈ o.enclosing, d.node.kind = .functionDefinition → d.trackedAs? file = none := by
  constructor
  · intro told
    have calls := calls_of_mem_facts told
    obtain ⟨scope, mirrors, owner⟩ := @exists_owner file tree o x form mem calls
    refine ⟨calls, fun d around kind => ?_⟩
    cases tracked : d.trackedAs? file with
    | none => rfl
    | some entry =>
      have owned := (mirrors.owner entry.1).mpr ⟨d, around, kind, by rw [tracked]; rfl⟩
      rw [(owner none).mp told] at owned
      cases owned
  · intro h
    obtain ⟨calls, free⟩ := h
    obtain ⟨scope, mirrors, owner⟩ := @exists_owner file tree o x form mem calls
    refine (owner none).mpr (Option.eq_none_iff_forall_ne_some.mpr fun q owned => ?_)
    obtain ⟨d, around, kind, tracked⟩ := (mirrors.owner q).mp owned
    rw [free d around kind] at tracked
    cases tracked

end Told

/- What the whole tree says. -/

theorem mem_definitions : o ∈ tree.definitions ↔ o ∈ tree.occurrences ∧ o.node.isDefinition = true :=
  List.mem_filter

theorem definition?_tree (form : tree.WellFormed) :
    (tree.facts file (.inside {})).filterMap Fact.definition? =
      tree.definitions.filterMap (record? file) := by
  rw [facts_eq_flatMap, List.filterMap_flatMap, definitions, List.filterMap_filter,
    List.filterMap_eq_flatMap_toList]
  refine List.flatMap_congr fun o mem => ?_
  rw [definition?_facts form mem]
  split <;> rfl

/-- The extraction of a tree without damage says of definitions and calls what their places in the
    tree say. Names defined outside all bodies are exported; a qualified name stands for the first
    definition that is tracked under it; a call belongs to the tracked function whose body holds it,
    and to the file when there is none. -/
theorem extractTree_reads_definitions (file : SourceFile) (tree : Node)
    (whole : tree.hasError = false) (form : tree.WellFormed) :
    ∃ e, file.extractTree tree = .ok e ∧
      (∀ x, x ∈ e.exports ↔ ∃ d ∈ tree.definitions, d.depth = 0 ∧ d.name = x) ∧
      (∀ q, e.symbols.get? q = NameMap.first? (tree.definitions.filterMap (record? file)) q) ∧
      (∀ q x, (∃ names, e.calls.get? q = some names ∧ x ∈ names) ↔
        ∃ o ∈ tree.occurrences, o.node.Calls x ∧ ∃ d ∈ o.enclosing, d.TracksFunction file q) ∧
      ∀ x, x ∈ e.moduleCalls ↔
        ∃ o ∈ tree.occurrences, o.node.Calls x ∧
          ∀ d ∈ o.enclosing, d.node.kind = .functionDefinition → d.trackedAs? file = none := by
  refine ⟨tree.extraction file, by simp [SourceFile.extractTree, whole], ?_, ?_, ?_, ?_⟩
  · intro x
    rw [extraction, Extraction.mem_exports_ofFacts, facts_eq_flatMap, List.mem_flatMap]
    constructor
    · intro h
      obtain ⟨o, mem, told⟩ := h
      obtain ⟨defines, outside, named⟩ := (exports_mem_facts form mem).mp told
      exact ⟨o, mem_definitions.mpr ⟨mem, defines⟩, outside, named⟩
    · intro h
      obtain ⟨o, definition, outside, named⟩ := h
      obtain ⟨mem, defines⟩ := mem_definitions.mp definition
      exact ⟨o, mem, (exports_mem_facts form mem).mpr ⟨defines, outside, named⟩⟩
  · intro q
    rw [extraction, Extraction.symbols_ofFacts, definition?_tree form]
  · intro q x
    rw [extraction, Extraction.mem_calls_ofFacts, facts_eq_flatMap, List.mem_flatMap]
    exact exists_congr fun o => and_congr_right fun mem => owned_call_mem_facts form mem
  · intro x
    rw [extraction, Extraction.mem_moduleCalls_ofFacts, facts_eq_flatMap, List.mem_flatMap]
    exact exists_congr fun o => and_congr_right fun mem => free_call_mem_facts form mem

/- A decorated function with a function inside, and a method below a condition. -/

def sampleSource : String :=
  "@route()\ndef index():\n def row(): cell()\n\n" ++
    "class Page:\n if ready():\n  def show(n=size()): draw()\n"

theorem sample_reads_definitions :
    let file := SourceFile.ofPath "views.py"
    let tree := Grammar.parse sampleSource
    (tree.hasError = false ∧ tree.WellFormed) ∧
      ∃ e, file.extractTree tree = .ok e ∧
        ("index" ∈ e.exports ∧ "Page" ∈ e.exports ∧ "row" ∉ e.exports ∧ "show" ∉ e.exports) ∧
        e.symbols.get? "views.index" =
          some { name := "index", file := "views.py", line := 2, lines := 2, decorated := true } ∧
        e.symbols.get? "views.Page.show" =
          some { name := "show", file := "views.py", kind := .method, line := 7 } ∧
        (∃ names, e.calls.get? "views.index" = some names ∧ "cell" ∈ names) ∧
        (∃ names, e.calls.get? "views.Page.show" = some names ∧ "draw" ∈ names) ∧
        "route" ∈ e.moduleCalls ∧ "size" ∈ e.moduleCalls ∧ "cell" ∉ e.moduleCalls := by
  intro file tree
  have sound : tree.hasError = false ∧ tree.WellFormed := by decide +kernel
  obtain ⟨e, read, exports, symbols, calls, moduleCalls⟩ :=
    extractTree_reads_definitions file tree sound.1 sound.2
  refine ⟨sound, e, read, ?_⟩
  simp only [exports, symbols, calls, moduleCalls]
  decide +kernel

end DeadCode.Tree
