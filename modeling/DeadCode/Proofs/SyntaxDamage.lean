import DeadCode.Proofs.Occurrences
import DeadCode.SourceText

/- Damage in a tree. The search for it goes down by what the children say of themselves, always into
   the first child that has some; so it ends at the damage that comes first in the source, and never
   at a node that is sound and has none below it. -/
namespace DeadCode.Tree.Node

variable {node tree : Node} {above : List Node} {first : Occurrence}

def firstDamage? (above : List Node) (node : Node) : Option Occurrence :=
  (node.occurrencesBelow above).find? (·.node.isDamage)

structure FirstDamage (tree : Node) (first : Occurrence) : Prop where
  found : tree.occurrences.find? (·.node.isDamage) = some first
  outermost : ∀ node ∈ first.above, node.isDamage = false

inductive Searched (tree : Node) : Node → Prop
  | root : Searched tree tree
  | enter {node child : Node} (parent : Searched tree node) (sound : node.isDamage = false)
      (first : node.children.find? hasError = some child) : Searched tree child

theorem anyError_eq (children : List Node) : anyError children = children.any hasError := by
  induction children with
  | nil => rfl
  | cons child rest ih => rw [anyError, ih, List.any_cons]

theorem hasError_eq (node : Node) :
    node.hasError = (node.isDamage || node.children.any hasError) := by
  rw [← anyError_eq]
  cases node
  rfl

theorem firstErrorLineIn_eq (children : List Node) :
    firstErrorLineIn children = (children.find? hasError).map firstErrorLine := by
  induction children with
  | nil => rfl
  | cons child rest ih =>
    rw [firstErrorLineIn, ih, List.find?_cons]
    cases child.hasError <;> rfl

theorem firstErrorLine_eq (node : Node) : node.firstErrorLine =
    if node.isDamage then node.line
    else ((node.children.find? hasError).map firstErrorLine).getD node.line := by
  rw [← firstErrorLineIn_eq]
  cases node
  rfl

theorem firstDamage?_of_damage (damage : node.isDamage = true) :
    node.firstDamage? above = some ⟨node, above⟩ := by
  rw [firstDamage?, occurrencesBelow_eq]
  exact List.find?_cons_of_pos damage

theorem firstDamage?_of_sound (sound : node.isDamage = false) :
    node.firstDamage? above = node.children.findSome? (firstDamage? (node :: above)) := by
  rw [firstDamage?, occurrencesBelow_eq, List.find?_cons_of_neg (by simp [sound]),
    List.find?_flatMap]
  rfl

theorem isSome_firstDamage? (node : Node) : ∀ above : List Node,
    (node.firstDamage? above).isSome = node.hasError := by
  induction node using child_induction with
  | step node ih =>
    intro above
    rw [hasError_eq]
    cases damage : node.isDamage with
    | true => rw [firstDamage?_of_damage damage]; rfl
    | false =>
      rw [firstDamage?_of_sound damage, List.isSome_findSome?, Bool.false_or, Bool.eq_iff_iff,
        List.any_eq_true, List.any_eq_true]
      exact exists_congr fun child => and_congr_right fun hc => by
        rw [ih child hc (node :: above)]

theorem hasError_iff (node : Node) :
    node.hasError = true ↔ ∃ d ∈ node.occurrences, d.node.isDamage = true := by
  rw [← isSome_firstDamage? node [], firstDamage?, List.find?_isSome]
  rfl

theorem firstDamage?_eq_bind (sound : node.isDamage = false) :
    node.firstDamage? above =
      (node.children.find? hasError).bind (firstDamage? (node :: above)) := by
  rw [firstDamage?_of_sound sound]
  induction node.children with
  | nil => rfl
  | cons child rest ih =>
    have flagged := isSome_firstDamage? child (node :: above)
    rw [List.findSome?_cons, ih, List.find?_cons]
    cases found : child.firstDamage? (node :: above) with
    | none =>
      rw [found] at flagged
      rw [← flagged]
      rfl
    | some first =>
      rw [found] at flagged
      rw [← flagged, Option.isSome_some]
      exact found.symm

/-- The search ends at the line of the damage that comes first. -/
theorem firstErrorLine_of_firstDamage? (node : Node) : ∀ {above : List Node},
    node.firstDamage? above = some first → node.firstErrorLine = first.node.line := by
  induction node using child_induction with
  | step node ih =>
    intro above found
    rw [firstErrorLine_eq]
    cases damage : node.isDamage with
    | true =>
      rw [firstDamage?_of_damage damage] at found
      cases found
      rfl
    | false =>
      rw [firstDamage?_eq_bind damage] at found
      obtain ⟨child, chosen, below⟩ := Option.bind_eq_some_iff.mp found
      rw [chosen]
      exact ih child (List.mem_of_find?_eq_some chosen) below

-- Neither the line of the statement around the error nor that of the token missing inside it.
example :
    let lacking : Node := { kind := .missing, span.start.row := 3 }
    let broken : Node := { kind := .error, span.start.row := 2, children := [lacking] }
    let around : Node := { kind := .ifStatement, span.start.row := 1, children := [broken] }
    firstErrorLine { kind := .module, children := [{ kind := .statement }, around] } = 3 := by
  decide

theorem sound_above_of_firstDamage? (node : Node) : ∀ {above : List Node},
    node.firstDamage? above = some first → ∀ a ∈ first.above, a ∈ above ∨ a.isDamage = false := by
  induction node using child_induction with
  | step node ih =>
    intro above found a mem
    cases damage : node.isDamage with
    | true =>
      rw [firstDamage?_of_damage damage] at found
      cases found
      exact .inl mem
    | false =>
      rw [firstDamage?_eq_bind damage] at found
      obtain ⟨child, chosen, below⟩ := Option.bind_eq_some_iff.mp found
      rcases ih child (List.mem_of_find?_eq_some chosen) below a mem with around | sound
      · rcases List.mem_cons.mp around with rfl | further
        · exact .inr damage
        · exact .inl further
      · exact .inr sound

theorem firstDamage_iff : tree.FirstDamage first ↔ tree.firstDamage? [] = some first := by
  constructor
  · exact FirstDamage.found
  · intro found
    refine ⟨found, fun a mem => ?_⟩
    exact (sound_above_of_firstDamage? tree found a mem).resolve_left List.not_mem_nil

theorem hasError_of_searched (damaged : tree.hasError = true) (comes : tree.Searched node) :
    node.hasError = true := by
  cases comes with
  | root => exact damaged
  | enter _ _ chosen => exact List.find?_some chosen

theorem exists_child_of_searched (damaged : tree.hasError = true) (comes : tree.Searched node)
    (sound : node.isDamage = false) :
    ∃ child, node.children.find? hasError = some child ∧
      node.firstErrorLine = child.firstErrorLine := by
  have inside := hasError_of_searched damaged comes
  rw [hasError_eq, sound, Bool.false_or, List.any_eq_true, ← List.find?_isSome,
    Option.isSome_iff_exists] at inside
  obtain ⟨child, chosen⟩ := inside
  exact ⟨child, chosen, by rw [firstErrorLine_eq, sound, chosen]; rfl⟩

end DeadCode.Tree.Node

namespace DeadCode

open DeadCode.Tree DeadCode.Tree.Node

/-- How damage in a tree is reported: nodes tell whether there is some in them, the extraction fails
    if there is any, and then it names the line of the first; the search for it never has to stay at
    a node that is sound. -/
structure DamageReported (file : SourceFile) (tree : Node) : Prop where
  flagged : ∀ o ∈ tree.occurrences,
    (o.node.hasError = true ↔ ∃ d ∈ o.node.occurrences, d.node.isDamage = true)
  fails : (∃ problem, file.extractTree tree = .error problem) ↔
    ∃ d ∈ tree.occurrences, d.node.isDamage = true
  line : ∀ problem, file.extractTree tree = .error problem → ∃ first, tree.FirstDamage first ∧
    problem.message = "Syntax error in " ++ file.relPath ++ " near line " ++
      toString (1 + first.node.span.start.row)
  goes : ∀ problem, file.extractTree tree = .error problem → ∀ node, tree.Searched node →
    node.isDamage = false → ∃ child, node.children.find? hasError = some child ∧
      node.firstErrorLine = child.firstErrorLine

theorem extractTree_eq_error_iff {file : SourceFile} {tree : Node} {problem : SourceError} :
    file.extractTree tree = .error problem ↔
      tree.hasError = true ∧ problem = .damaged file.relPath tree.firstErrorLine := by
  unfold SourceFile.extractTree
  cases damaged : tree.hasError with
  | true => simp [eq_comm]
  | false => simp

theorem extractTree_reports_first_damage (file : SourceFile) (tree : Node) :
    DamageReported file tree where
  flagged o _ := hasError_iff o.node
  fails := by simp only [extractTree_eq_error_iff, exists_and_left, exists_eq, and_true, hasError_iff]
  line problem failed := by
    obtain ⟨damaged, named⟩ := extractTree_eq_error_iff.mp failed
    rw [← isSome_firstDamage? tree [], Option.isSome_iff_exists] at damaged
    obtain ⟨first, found⟩ := damaged
    have row : tree.firstErrorLine = 1 + first.node.span.start.row :=
      (firstErrorLine_of_firstDamage? tree found).trans (Nat.add_comm _ _)
    refine ⟨first, firstDamage_iff.mpr found, ?_⟩
    rw [named, row]
    rfl
  goes problem failed _ comes sound :=
    exists_child_of_searched (extractTree_eq_error_iff.mp failed).1 comes sound

end DeadCode
