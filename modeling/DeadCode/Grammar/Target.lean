import DeadCode.Tree.Node

/- Which expressions can be assigned to. -/
namespace DeadCode.Grammar
open DeadCode.Tree

def Target.isPlace (kind : Kind) : Bool :=
  kind == .identifier || kind == .attribute || kind == .subscript

mutual

def isTarget : Node → Bool
  | ⟨kind, _, _, _, children⟩ =>
    Target.isPlace kind ||
      (kind == .splat && children.all fun child => Target.isPlace child.kind) ||
      ((kind == .group || kind == .expressionList) && areTargets children)

def areTargets : List Node → Bool
  | [] => true
  | node :: rest => isTarget node && areTargets rest

end

/-- Stars an operand. A star binds closer than a call, so it goes below the calls that end the
    operand, where a place has to stand. -/
def starred : Node → Option Node
  | ⟨kind, role, span, text, children⟩ =>
    if Target.isPlace kind then
      some { kind := .splat, role, span, children := [⟨kind, .plain, span, text, children⟩] }
    else
      match kind, children with
      | .call, callee :: rest => (starred callee).map fun c => ⟨kind, role, span, text, c :: rest⟩
      | _, _ => none

end DeadCode.Grammar
