import Mathlib.Data.List.Basic
import DeadCode.Tree.Facts

/- The nodes of a tree, each with the nodes above it. How the walk meets a node depends only on the
   way down to it, so a tree says what its nodes say one by one, in the order of the source. -/
namespace DeadCode.Tree

/-- A node where it stands. Above it are its parent, the parent of that and so on up to the root. -/
structure Occurrence where
  node : Node
  above : List Node

namespace Node

variable {file : SourceFile} {scope : Scope} {node tree : Node} {above : List Node} {o : Occurrence}

theorem child_induction {P : Node → Prop}
    (step : ∀ node, (∀ child ∈ node.children, P child) → P node) : ∀ node, P node
  | ⟨kind, role, span, text, children⟩ =>
    step ⟨kind, role, span, text, children⟩ fun child below => by
      have smaller : sizeOf child < sizeOf children := List.sizeOf_lt_of_mem below
      exact child_induction step child
termination_by node => sizeOf node
decreasing_by
  simp only [Node.mk.sizeOf_spec]
  omega

mutual

def occurrencesBelow (above : List Node) : Node → List Occurrence
  | ⟨kind, role, span, text, children⟩ =>
    ⟨⟨kind, role, span, text, children⟩, above⟩ ::
      occurrencesOf (⟨kind, role, span, text, children⟩ :: above) children

def occurrencesOf (above : List Node) : List Node → List Occurrence
  | [] => []
  | node :: rest => node.occurrencesBelow above ++ occurrencesOf above rest

end

def occurrences (tree : Node) : List Occurrence := tree.occurrencesBelow []

theorem occurrencesOf_eq (above children : List Node) :
    occurrencesOf above children = children.flatMap (occurrencesBelow above) := by
  induction children with
  | nil => rfl
  | cons child rest ih => rw [occurrencesOf, ih, List.flatMap_cons]

theorem occurrencesBelow_eq (above : List Node) (node : Node) :
    node.occurrencesBelow above =
      ⟨node, above⟩ :: node.children.flatMap (occurrencesBelow (node :: above)) := by
  rw [← occurrencesOf_eq]
  cases node
  rfl

theorem parent_of_mem_below (node : Node) : ∀ {above : List Node},
    o ∈ node.occurrencesBelow above →
      o = ⟨node, above⟩ ∨ ∃ parent rest, o.above = parent :: rest ∧ o.node ∈ parent.children ∧
        ⟨parent, rest⟩ ∈ node.occurrencesBelow above := by
  induction node using child_induction with
  | step node ih =>
    intro above mem
    rw [occurrencesBelow_eq, List.mem_cons, List.mem_flatMap] at mem
    rcases mem with self | ⟨child, hc, deeper⟩
    · exact .inl self
    · refine .inr ?_
      rcases ih child hc deeper with rfl | ⟨parent, rest, eq, below, there⟩
      · refine ⟨node, above, rfl, hc, ?_⟩
        rw [occurrencesBelow_eq]
        exact List.mem_cons_self
      · refine ⟨parent, rest, eq, below, ?_⟩
        rw [occurrencesBelow_eq]
        exact List.mem_cons_of_mem _ (List.mem_flatMap.mpr ⟨child, hc, there⟩)

theorem child_mem_below (node : Node) : ∀ {above rest : List Node} {parent child : Node},
    ⟨parent, rest⟩ ∈ node.occurrencesBelow above → child ∈ parent.children →
      ⟨child, parent :: rest⟩ ∈ node.occurrencesBelow above := by
  induction node using child_induction with
  | step node ih =>
    intro above rest parent child there hc
    rw [occurrencesBelow_eq, List.mem_cons, List.mem_flatMap] at there
    rw [occurrencesBelow_eq]
    refine List.mem_cons_of_mem _ (List.mem_flatMap.mpr ?_)
    rcases there with self | ⟨branch, hb, deeper⟩
    · cases self
      refine ⟨child, hc, ?_⟩
      rw [occurrencesBelow_eq]
      exact List.mem_cons_self
    · exact ⟨branch, hb, ih branch hb deeper hc⟩

/-- What holds at the root and passes from a node to its children holds at every node. -/
theorem occurrence_induction
    {motive : ∀ (node : Node) (above : List Node), ⟨node, above⟩ ∈ tree.occurrences → Prop}
    (root : ∀ mem, motive tree [] mem)
    (down : ∀ parent above child there mem, child ∈ parent.children →
      motive parent above there → motive child (parent :: above) mem)
    {node : Node} {above : List Node} (mem : ⟨node, above⟩ ∈ tree.occurrences) :
    motive node above mem := by
  induction above generalizing node with
  | nil =>
    rcases parent_of_mem_below tree mem with self | ⟨parent, rest, eq, _⟩
    · cases self
      exact root mem
    · cases eq
  | cons parent above ih =>
    rcases parent_of_mem_below tree mem with self | ⟨_, _, eq, below, there⟩
    · cases self
    · cases eq
      exact down parent above node there mem below (ih there)

/- The walk. -/

theorem factsOf_eq (file : SourceFile) (visit : Node → Visit) (children : List Node) :
    factsOf file visit children = children.flatMap fun child => child.facts file (visit child) := by
  induction children with
  | nil => rfl
  | cons child rest ih => rw [factsOf, ih, List.flatMap_cons]

theorem facts_skip (file : SourceFile) (node : Node) : node.facts file .skip = [] := by
  cases node
  rfl

theorem facts_inside (file : SourceFile) (scope : Scope) (node : Node) :
    node.facts file (.inside scope) =
      node.children.flatMap fun child => child.facts file (.whole scope) := by
  rw [← factsOf_eq]
  cases node
  rfl

theorem facts_whole (file : SourceFile) (scope : Scope) (node : Node) :
    node.facts file (.whole scope) = ownFacts file scope node ++
      node.children.flatMap fun child => child.facts file (visitChild file scope node child) := by
  rw [← factsOf_eq]
  cases node
  rfl

/-- How the walk from the root meets a node, given the nodes above it. -/
def visitAt (file : SourceFile) (node : Node) : List Node → Visit
  | [] => .inside {}
  | parent :: above =>
    match parent.visitAt file above with
    | .skip => .skip
    | .inside scope => .whole scope
    | .whole scope => parent.visitChild file scope node

end Node

def Occurrence.facts (file : SourceFile) (o : Occurrence) : List Fact :=
  match o.node.visitAt file o.above with
  | .whole scope => o.node.ownFacts file scope
  | .inside _ | .skip => []

theorem Occurrence.mem_facts_iff {file : SourceFile} {o : Occurrence} {fact : Fact} :
    fact ∈ o.facts file ↔
      ∃ scope, o.node.visitAt file o.above = .whole scope ∧ fact ∈ o.node.ownFacts file scope := by
  unfold Occurrence.facts
  cases o.node.visitAt file o.above <;> simp

theorem Occurrence.filterMap_facts_eq_nil {α : Type} {pick : Fact → Option α} {file : SourceFile}
    {o : Occurrence} (silent : ∀ scope, (o.node.ownFacts file scope).filterMap pick = []) :
    (o.facts file).filterMap pick = [] := by
  unfold Occurrence.facts
  cases o.node.visitAt file o.above <;> simp [silent]

namespace Node

theorem facts_visitAt (file : SourceFile) (node : Node) : ∀ above : List Node,
    node.facts file (node.visitAt file above) =
      (node.occurrencesBelow above).flatMap (Occurrence.facts file) := by
  induction node using child_induction with
  | step node ih =>
    intro above
    have below : node.children.flatMap (fun child =>
          child.facts file (child.visitAt file (node :: above))) =
        (node.children.flatMap (occurrencesBelow (node :: above))).flatMap
          (Occurrence.facts file) := by
      rw [List.flatMap_assoc]
      exact List.flatMap_congr fun child hc => ih child hc (node :: above)
    rw [occurrencesBelow_eq, List.flatMap_cons, ← below]
    cases visit : node.visitAt file above with
    | skip => simp [facts_skip, visitAt, Occurrence.facts, visit]
    | inside scope => simp [facts_inside, visitAt, Occurrence.facts, visit]
    | whole scope => simp [facts_whole, visitAt, Occurrence.facts, visit]

theorem facts_eq_flatMap (file : SourceFile) (tree : Node) :
    tree.facts file (.inside {}) = tree.occurrences.flatMap (Occurrence.facts file) :=
  facts_visitAt file tree []

end Node
end DeadCode.Tree
