/- Concrete trees of source text. A node knows what it is, what it is to its parent, where it stands
   and, where a reader asks for it, the text that it covers. -/
namespace DeadCode.Tree

inductive Kind where
  | module
  | block
  | comment
  | importStatement
  | fromImport
  | futureImport
  | aliasedImport
  | dottedName
  | relativeImport
  | importDots
  | wildcard
  | decoratedDefinition
  | decorator
  | functionDefinition
  | classDefinition
  | ifStatement
  | statement
  | clause
  | call
  | attribute
  | subscript
  | splat
  | group
  | expressionList
  | identifier
  | expression
  | literal
  | parameters
  | arguments
  | pattern
  | typeHint
  | typeParameters
  | error
  | missing
  deriving DecidableEq, Repr, Inhabited

inductive Role where
  | plain
  | name
  | otherName
  | moduleName
  | definition
  | callee
  | object
  | attribute
  | condition
  | parameters
  | returnType
  | superclasses
  | typeParameters
  | body
  deriving DecidableEq, Repr, Inhabited

/-- Rows and columns count from zero. -/
structure Place where
  row : Nat := 0
  column : Nat := 0
  deriving DecidableEq, Repr, Inhabited

structure Span where
  start : Place := {}
  stop : Place := {}
  deriving DecidableEq, Repr, Inhabited

/-- How many lines a span touches. A span that ends at the start of a line does not touch it. -/
def Span.lines (span : Span) : Nat :=
  let last :=
    if span.stop.column = 0 ∧ span.start.row < span.stop.row then span.stop.row - 1
    else span.stop.row
  last - span.start.row + 1

structure Node where
  kind : Kind
  role : Role := .plain
  span : Span := {}
  text : String := ""
  children : List Node := []
  deriving Inhabited

namespace Node

def as (role : Role) (node : Node) : Node := { node with role }

def child? (role : Role) (node : Node) : Option Node :=
  node.children.find? fun child => child.role == role

def childrenIn (role : Role) (node : Node) : List Node :=
  node.children.filter fun child => child.role == role

def line (node : Node) : Nat := node.span.start.row + 1

/-- Damage is a stretch that does not parse, or a token that had to be supplied. -/
def isDamage (node : Node) : Bool := node.kind == .error || node.kind == .missing

mutual

def hasError : Node → Bool
  | ⟨kind, _, _, _, children⟩ => kind == .error || kind == .missing || anyError children

def anyError : List Node → Bool
  | [] => false
  | node :: rest => node.hasError || anyError rest

end

mutual

def firstErrorLine : Node → Nat
  | ⟨kind, _, span, _, children⟩ =>
    if kind == .error || kind == .missing then span.start.row + 1
    else (firstErrorLineIn children).getD (span.start.row + 1)

def firstErrorLineIn : List Node → Option Nat
  | [] => none
  | node :: rest => if node.hasError then some node.firstErrorLine else firstErrorLineIn rest

end

end Node
end DeadCode.Tree
