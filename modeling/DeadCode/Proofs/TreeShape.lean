import DeadCode.Proofs.Occurrences

/- Trees as a grammar of the language makes them: which nodes may stand below which, and which parts
   a node cannot do without. In such a tree the walk leaves out names, remarks and parts of import
   statements, and nothing else. -/
namespace DeadCode.Tree

namespace Kind

def isImport (kind : Kind) : Bool :=
  kind == .importStatement || kind == .fromImport || kind == .futureImport

def isDefinition (kind : Kind) : Bool :=
  kind == .functionDefinition || kind == .classDefinition

def isNamePart (kind : Kind) : Bool :=
  kind == .identifier || kind == .dottedName || kind == .aliasedImport ||
    kind == .relativeImport || kind == .importDots || kind == .wildcard || kind == .comment

def isFrame (kind : Kind) : Bool := kind == .module || kind == .block || kind == .decorator

end Kind

namespace Node

variable {file : SourceFile} {scope : Scope} {node child tree : Node} {above : List Node}

def isDefinition (node : Node) : Bool := node.kind.isDefinition

def isRemark (node : Node) : Bool := node.kind == .comment && node.role == .plain

def isImportItem (node : Node) : Bool :=
  node.role == .name && (node.kind == .dottedName || node.kind == .aliasedImport)

/-- Whether a child may stand below a node. A remark may stand below every node that has parts. -/
def fits (node child : Node) : Bool :=
  match node.kind with
  | .comment | .identifier | .importDots | .wildcard => false
  | .dottedName => child.kind == .identifier || child.isRemark
  | .aliasedImport =>
    (child.role == .name && child.kind == .dottedName) ||
      (child.role == .otherName && child.kind == .identifier) || child.isRemark
  | .relativeImport => child.kind == .importDots || child.kind == .dottedName || child.isRemark
  | .importStatement | .futureImport => child.isImportItem || child.isRemark
  | .fromImport =>
    (child.role == .moduleName && (child.kind == .dottedName || child.kind == .relativeImport)) ||
      child.isImportItem || (child.role == .plain && child.kind == .wildcard) || child.isRemark
  | .attribute =>
    child.role == .object || (child.role == .attribute && child.kind == .identifier) ||
      child.isRemark
  | .decoratedDefinition =>
    child.kind == .decorator || (child.role == .definition && child.isDefinition) || child.isRemark
  | .functionDefinition | .classDefinition =>
    (child.role == .name && child.kind == .identifier) ||
      (child.role == .body && child.kind == .block) || signatureRoles.contains child.role ||
      child.isRemark
  | _ => true

def isComplete (node : Node) : Bool :=
  match node.kind with
  | .functionDefinition | .classDefinition => (node.child? .name).isSome
  | .aliasedImport =>
    ((node.child? .name).any fun path => path.line == node.line) && (node.child? .otherName).isSome
  | .fromImport => (node.child? .moduleName).isSome
  | .relativeImport => node.children.any fun child => child.kind == .importDots
  | .dottedName => node.children.any fun child => child.kind == .identifier
  | .importDots => node.text.toList.contains '.'
  | .identifier => node.text != "" && !node.text.toList.contains '.'
  | _ => true

def isWellMade (node : Node) : Bool := node.isComplete && node.children.all node.fits

structure WellFormed (tree : Node) : Prop where
  root : tree.kind = .module
  wellMade : ∀ o ∈ tree.occurrences, o.node.isWellMade = true

instance (tree : Node) : Decidable tree.WellFormed :=
  decidable_of_iff (tree.kind = .module ∧ ∀ o ∈ tree.occurrences, o.node.isWellMade = true)
    ⟨fun h => ⟨h.1, h.2⟩, fun h => ⟨h.root, h.wellMade⟩⟩

theorem fits_of_wellMade (made : node.isWellMade = true) (hc : child ∈ node.children) :
    node.fits child = true :=
  List.all_eq_true.mp (Bool.and_eq_true_iff.mp made).2 child hc

theorem complete_of_wellMade (made : node.isWellMade = true) : node.isComplete = true :=
  (Bool.and_eq_true_iff.mp made).1

theorem exists_definedName (made : node.isWellMade = true) (defines : node.isDefinition = true) :
    ∃ name, node.definedName? = some name := by
  have complete := complete_of_wellMade made
  have labelled : (node.child? .name).isSome = true := by
    simp only [isDefinition, Kind.isDefinition, Bool.or_eq_true, beq_iff_eq] at defines
    rcases defines with kind | kind <;> simpa [isComplete, kind] using complete
  obtain ⟨label, found⟩ := Option.isSome_iff_exists.mp labelled
  exact ⟨label.text, by rw [definedName?, found]; rfl⟩

inductive Meets (file : SourceFile) (scope : Scope) (node child : Node) : Visit → Prop
  | hidden (name : child.kind.isNamePart = true)
      (place : node.kind.isImport = true ∨ child.kind = .comment ∨ child.kind = .identifier ∧
        (node.kind = .attribute ∧ child.role = .attribute ∨
          node.isDefinition = true ∧ child.role = .name)) :
      Meets file scope node child .skip
  | decorator (parent : node.kind = .decoratedDefinition) (kind : child.kind = .decorator) :
      Meets file scope node child (.inside { scope with decorated := false })
  | decorated (parent : node.kind = .decoratedDefinition) (defines : child.isDefinition = true) :
      Meets file scope node child (.whole { scope with decorated := true })
  | body (parent : node.isDefinition = true) (role : child.role = .body)
      (kind : child.kind = .block) (name : String) (named : node.definedName? = some name) :
      Meets file scope node child (.inside (node.bodyScope file scope name))
  | part (outside : node.kind.isImport = false) (undecorated : node.kind ≠ .decoratedDefinition)
      (object : node.kind = .attribute → child.role = .object)
      (signature : node.isDefinition = true → signatureRoles.contains child.role = true) :
      Meets file scope node child (.whole { scope with decorated := false })

theorem kind_of_definition (defines : node.isDefinition = true) :
    node.kind = .functionDefinition ∨ node.kind = .classDefinition := by
  simpa [isDefinition, Kind.isDefinition] using defines

theorem meets_definition (made : node.isWellMade = true) (hc : child ∈ node.children)
    (defines : node.isDefinition = true) :
    Meets file scope node child (node.visitChild file scope child) := by
  obtain ⟨name, named⟩ := exists_definedName made defines
  have visit : node.visitChild file scope child =
      if child.role == .body then .inside (node.bodyScope file scope name)
      else if signatureRoles.contains child.role then .whole { scope with decorated := false }
      else .skip := by
    rcases kind_of_definition defines with kind | kind <;> simp only [visitChild, kind, named]
  have fit : ((child.role = .name ∧ child.kind = .identifier) ∨
      (child.role = .body ∧ child.kind = .block)) ∨ signatureRoles.contains child.role = true ∨
      (child.kind = .comment ∧ child.role = .plain) := by
    have fit := fits_of_wellMade made hc
    rcases kind_of_definition defines with kind | kind <;>
      simpa [fits, kind, isRemark, or_assoc] using fit
  rw [visit]
  rcases fit with (⟨role, kind⟩ | ⟨role, kind⟩) | signature | ⟨kind, role⟩
  · rw [role]
    exact .hidden (by simp [kind, Kind.isNamePart]) (.inr (.inr ⟨kind, .inr ⟨defines, role⟩⟩))
  · rw [role]
    exact .body defines role kind name named
  · have body : (child.role == Role.body) = false := by
      cases role : child.role <;> simp [role, signatureRoles] at signature ⊢
    rw [body, signature]
    rcases kind_of_definition defines with kind | kind <;>
      exact .part (by simp [kind, Kind.isImport]) (by simp [kind]) (by simp [kind])
        fun _ => signature
  · rw [role]
    exact .hidden (by simp [kind, Kind.isNamePart]) (.inr (.inl kind))

theorem meets_import (made : node.isWellMade = true) (hc : child ∈ node.children)
    (imports : node.kind.isImport = true) :
    Meets file scope node child (node.visitChild file scope child) := by
  have fit := fits_of_wellMade made hc
  have kinds : node.kind = .importStatement ∨ node.kind = .fromImport ∨
      node.kind = .futureImport := by
    simpa [Kind.isImport, or_assoc] using imports
  have name : child.kind.isNamePart = true := by
    rcases kinds with kind | kind | kind <;>
      grind [fits, isImportItem, isRemark, Kind.isNamePart]
  rcases kinds with kind | kind | kind <;>
    simpa only [visitChild, kind] using Meets.hidden name (.inl imports)

theorem meets_decorated (made : node.isWellMade = true) (hc : child ∈ node.children)
    (kind : node.kind = .decoratedDefinition) :
    Meets file scope node child (node.visitChild file scope child) := by
  have fit : child.kind = .decorator ∨ (child.role = .definition ∧ child.isDefinition = true) ∨
      (child.kind = .comment ∧ child.role = .plain) := by
    simpa [fits, kind, isRemark, or_assoc] using fits_of_wellMade made hc
  simp only [visitChild, kind]
  rcases fit with decorator | ⟨role, defines⟩ | ⟨comment, role⟩
  · rw [decorator]
    exact .decorator kind decorator
  · have other : (child.kind == Kind.decorator) = false := by
      rcases kind_of_definition defines with kind | kind <;> simp [kind]
    rw [other, role]
    exact .decorated kind defines
  · rw [comment, role]
    exact .hidden (by simp [comment, Kind.isNamePart]) (.inr (.inl comment))

theorem meets_attribute (made : node.isWellMade = true) (hc : child ∈ node.children)
    (kind : node.kind = .attribute) :
    Meets file scope node child (node.visitChild file scope child) := by
  have fit : child.role = .object ∨ (child.role = .attribute ∧ child.kind = .identifier) ∨
      (child.kind = .comment ∧ child.role = .plain) := by
    simpa [fits, kind, isRemark, or_assoc] using fits_of_wellMade made hc
  simp only [visitChild, kind]
  rcases fit with role | ⟨role, name⟩ | ⟨comment, role⟩
  · rw [role]
    exact .part (by simp [kind, Kind.isImport]) (by simp [kind]) (fun _ => role)
      (by simp [kind, isDefinition, Kind.isDefinition])
  · rw [role]
    exact .hidden (by simp [name, Kind.isNamePart]) (.inr (.inr ⟨name, .inl ⟨kind, role⟩⟩))
  · rw [role]
    exact .hidden (by simp [comment, Kind.isNamePart]) (.inr (.inl comment))

theorem meets_visitChild (made : node.isWellMade = true) (hc : child ∈ node.children) :
    Meets file scope node child (node.visitChild file scope child) := by
  by_cases defines : node.isDefinition = true
  · exact meets_definition made hc defines
  by_cases imports : node.kind.isImport = true
  · exact meets_import made hc imports
  by_cases decorated : node.kind = .decoratedDefinition
  · exact meets_decorated made hc decorated
  by_cases access : node.kind = .attribute
  · exact meets_attribute made hc access
  have fit := fits_of_wellMade made hc
  have visit : node.visitChild file scope child = .whole { scope with decorated := false } := by
    cases kind : node.kind <;>
      simp_all [visitChild, fits, isDefinition, Kind.isDefinition, Kind.isImport]
  rw [visit]
  exact .part (by simpa using imports) decorated (fun kind => absurd kind access)
    fun yes => absurd yes defines

theorem namePart_below (made : node.isWellMade = true) (hc : child ∈ node.children)
    (part : node.kind.isNamePart = true) : child.kind.isNamePart = true := by
  have fit := fits_of_wellMade made hc
  cases kind : node.kind <;> simp only [kind, fits, Kind.isNamePart] at fit part ⊢ <;>
    grind [isRemark]

section Walk

variable (form : tree.WellFormed) (mem : ⟨node, above⟩ ∈ tree.occurrences)
include form mem

/-- What the walk leaves out is part of a name or a remark, and what it enters without a look is a
    frame. -/
theorem kind_of_visit :
    (node.visitAt file above = .skip → node.kind.isNamePart = true) ∧
      ∀ scope, node.visitAt file above = .inside scope → node.kind.isFrame = true := by
  induction mem using occurrence_induction with
  | root => simp [visitAt, form.root, Kind.isFrame]
  | down parent above child there _ hc ih =>
    have made := form.wellMade _ there
    rw [visitAt]
    cases visit : parent.visitAt file above with
    | skip => exact ⟨fun _ => namePart_below made hc (ih.1 visit), by simp⟩
    | inside scope => simp
    | whole scope =>
      have meets : Meets file scope parent child _ := meets_visitChild made hc
      simp only
      cases met : parent.visitChild file scope child <;> rw [met] at meets <;> cases meets <;>
        simp_all [Kind.isFrame]

theorem exists_visit_whole (named : node.kind.isNamePart = false)
    (frame : node.kind.isFrame = false) : ∃ scope, node.visitAt file above = .whole scope := by
  have kinds := @kind_of_visit file node tree above form mem
  cases visit : node.visitAt file above with
  | skip => simp [kinds.1 visit] at named
  | inside scope => simp [kinds.2 scope visit] at frame
  | whole scope => exact ⟨scope, rfl⟩

end Walk

end Node
end DeadCode.Tree
