import Mathlib.Data.List.Induction
import DeadCode.Fact
import DeadCode.Proofs.Names

/- What a list of facts adds up to, part by part. A set holds what some fact puts in, the bindings
   keep their order, and of several definitions of one name the first counts. -/
namespace DeadCode

namespace Fact

def binding? : Fact → Option Binding
  | .binds binding => some binding
  | _ => none

def definition? : Fact → Option (String × Symbol)
  | .defines qualified symbol => some (qualified, symbol)
  | _ => none

end Fact

namespace Extraction

variable {facts : List Fact} {x q : String}

theorem ofFacts_concat (facts : List Fact) (fact : Fact) :
    ofFacts (facts ++ [fact]) = (ofFacts facts).add fact := by
  simp [ofFacts]

/-- What single facts bring about, and nothing takes back, holds after some fact has done so. -/
theorem ofFacts_iff (holds : Extraction → Prop) (gives : Fact → Prop) (start : ¬holds {})
    (step : ∀ e fact, holds (e.add fact) ↔ holds e ∨ gives fact) :
    holds (ofFacts facts) ↔ ∃ fact ∈ facts, gives fact := by
  induction facts using List.reverseRecOn with
  | nil => simpa [ofFacts] using start
  | append_singleton facts fact ih =>
    rw [ofFacts_concat, step, ih]
    simp [or_and_right, exists_or]

theorem ofFacts_iff_mem (holds : Extraction → Prop) (fact : Fact) (start : ¬holds {})
    (step : ∀ e other, holds (e.add other) ↔ holds e ∨ other = fact) :
    holds (ofFacts facts) ↔ fact ∈ facts := by
  rw [ofFacts_iff holds (· = fact) start step]
  simp

theorem mem_imports_ofFacts :
    x ∈ (ofFacts facts).imports ↔
      ∃ name, .imports name ∈ facts ∧ x ∈ ModulePath.prefixes name := by
  rw [ofFacts_iff (x ∈ ·.imports) fun fact =>
    ∃ name, fact = .imports name ∧ x ∈ ModulePath.prefixes name]
  · constructor
    · intro h
      obtain ⟨_, mem, name, rfl, front⟩ := h
      exact ⟨name, mem, front⟩
    · intro h
      obtain ⟨name, mem, front⟩ := h
      exact ⟨_, mem, name, rfl, front⟩
  · exact NameSet.not_mem_empty
  · intro e fact
    rcases fact with _ | _ | _ | _ | ⟨_ | _, _⟩ | _ | _ <;> simp [add, NameSet.mem_insertAll]

theorem mem_exports_ofFacts : x ∈ (ofFacts facts).exports ↔ .exports x ∈ facts := by
  refine ofFacts_iff_mem (x ∈ ·.exports) (.exports x) NameSet.not_mem_empty ?_
  intro e fact
  rcases fact with _ | _ | _ | _ | ⟨_ | _, _⟩ | _ | _ <;> simp [add, or_comm, eq_comm]

theorem mem_moduleCalls_ofFacts : x ∈ (ofFacts facts).moduleCalls ↔ .calls none x ∈ facts := by
  refine ofFacts_iff_mem (x ∈ ·.moduleCalls) (.calls none x) NameSet.not_mem_empty ?_
  intro e fact
  rcases fact with _ | _ | _ | _ | ⟨_ | _, _⟩ | _ | _ <;> simp [add, or_comm, eq_comm]

theorem mem_references_ofFacts : x ∈ (ofFacts facts).references ↔ .refers x ∈ facts := by
  refine ofFacts_iff_mem (x ∈ ·.references) (.refers x) NameSet.not_mem_empty ?_
  intro e fact
  rcases fact with _ | _ | _ | _ | ⟨_ | _, _⟩ | _ | _ <;> simp [add, or_comm, eq_comm]

theorem mem_calls_ofFacts :
    (∃ names, (ofFacts facts).calls.get? q = some names ∧ x ∈ names) ↔
      .calls (some q) x ∈ facts := by
  refine ofFacts_iff_mem (fun e => ∃ names, e.calls.get? q = some names ∧ x ∈ names)
    (.calls (some q) x) (by simp) ?_
  intro e fact
  rcases fact with _ | _ | _ | _ | ⟨_ | owner, name⟩ | _ | _
  case calls.some =>
    simp only [add, NameMap.get?_alter, Fact.calls.injEq, Option.some.injEq]
    by_cases same : q = owner
    · subst same
      simp [or_comm, eq_comm]
    · simp [same, Ne.symm same]
  all_goals simp [add]

theorem bindings_ofFacts : (ofFacts facts).bindings = facts.filterMap Fact.binding? := by
  induction facts using List.reverseRecOn with
  | nil => rfl
  | append_singleton facts fact ih =>
    rw [ofFacts_concat, List.filterMap_append, ← ih]
    rcases fact with _ | _ | _ | _ | ⟨_ | _, _⟩ | _ | _ <;> simp [add, Fact.binding?]

theorem symbols_ofFacts :
    (ofFacts facts).symbols.get? q = NameMap.first? (facts.filterMap Fact.definition?) q := by
  induction facts using List.reverseRecOn with
  | nil => rfl
  | append_singleton facts fact ih =>
    rw [ofFacts_concat, List.filterMap_append, NameMap.first?_append, ← ih]
    rcases fact with _ | _ | _ | ⟨qualified, symbol⟩ | ⟨_ | _, _⟩ | _ | _
    case defines =>
      simp only [add, NameMap.get?_insertNew, Fact.definition?, List.filterMap_cons,
        List.filterMap_nil, NameMap.first?_cons]
      by_cases same : q = qualified
      · subst same
        cases (ofFacts facts).symbols.get? q <;> simp
      · simp [same, Ne.symm same, NameMap.first?]
    all_goals simp [add, Fact.definition?, NameMap.first?]

end Extraction
end DeadCode
