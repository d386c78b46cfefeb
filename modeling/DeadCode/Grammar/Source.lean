import DeadCode.Grammar.Compound

/- Whole sources. A source in which some statement has no reading gives a tree that marks where that
   statement begins. -/
namespace DeadCode.Grammar
open DeadCode.Tree

def step (rules : Rules) : Rule → Parser Node
  | .expression bounds conditional => Expression.whole rules bounds conditional
  | .unit bounds conditional => Expression.unit rules bounds conditional
  | .operand bounds => Expression.operand rules bounds
  | .field => Literal.field rules
  | .fieldValue => Expression.fieldValue rules
  | .typeHint bounds constrained => TypeHint.whole rules bounds constrained
  | .casePattern bounds => CasePattern.whole rules bounds
  | .assigned => Simple.assigned rules
  | .statement => Compound.statement rules

def rulesUpTo : Nat → Rules
  | 0, _ => Parser.mismatch
  | depth + 1, rule => step (rulesUpTo depth) rule

/-- Nothing nests deeper than this: every few levels read a character. -/
def depthFor (size : Nat) : Nat := 4 * size + 16

def module (size : Nat) : Parser Node := do
  let start ← get
  let items ← Parser.many (Compound.blockItem (rulesUpTo (depthFor size) .statement))
  Parser.node start .module items

def parse (source : String) : Node :=
  let start := Cursor.start source
  match (module start.size).run start with
  | .ok (tree, _) => tree
  | .error .mismatch => { kind := .module, children := [{ kind := .error }] }
  | .error (.damage row) =>
    { kind := .module, children := [{ kind := .error, span := ⟨{ row }, { row }⟩ }] }

end DeadCode.Grammar
