import DeadCode.NameMap
import DeadCode.SourceFile

/- What one source file contributes: the modules it imports, the names these imports bind, the
   definitions it makes and exports, the calls in it and the names it refers to. -/
namespace DeadCode

inductive SymbolKind where
  | function
  | method
  | classType
  deriving DecidableEq, Repr, Inhabited

structure Symbol where
  name : String
  file : String
  kind : SymbolKind := .function
  line : Nat := 1
  lines : Nat := 1
  decorated : Bool := false
  deriving DecidableEq, Repr, Inhabited

structure Binding where
  name : String
  line : Nat := 1
  source : String := ""
  deriving DecidableEq, Repr, Inhabited

structure Extraction where
  imports : NameSet := ∅
  bindings : List Binding := []
  exports : NameSet := ∅
  symbols : NameMap Symbol := ∅
  calls : NameMap NameSet := ∅
  moduleCalls : NameSet := ∅
  references : NameSet := ∅
  hasMainGuard : Bool := false
  deriving Inhabited

structure Diagnostic where
  file : String
  message : String
  deriving DecidableEq, Repr, Inhabited

end DeadCode
