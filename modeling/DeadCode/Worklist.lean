import DeadCode.NameSet

/- Closing a set of names under a successor function, inside a finite domain. -/
namespace DeadCode.Worklist

def remaining (domain reached : NameSet) : Nat :=
  (domain.names.filter fun x => !reached.contains x).length

theorem remaining_insert_lt {domain reached : NameSet} {x : String} (inside : x ∈ domain)
    (new : ¬x ∈ reached) : remaining domain (reached.insert x) < remaining domain reached := by
  have shrink : domain.names.filter (fun y => !(reached.insert x).contains y) =
      (domain.names.filter fun y => !reached.contains y).filter fun y => !decide (y = x) := by
    rw [List.filter_filter]
    congr 1
    funext y
    simp [NameSet.contains]
  rw [remaining, remaining, shrink]
  exact List.length_filter_lt_length_iff_exists.mpr
    ⟨x, List.mem_filter.mpr ⟨inside, by simp [NameSet.contains, new]⟩, by simp⟩

/-- Takes the pending names in order; a new one inside the domain is reached, and its successors
    wait behind the names that are already pending. -/
def run (domain : NameSet) (next : String → List String) :
    List String → NameSet → NameSet
  | [], reached => reached
  | x :: pending, reached =>
    if _new : x ∈ domain ∧ ¬x ∈ reached then
      run domain next (pending ++ next x) (reached.insert x)
    else run domain next pending reached
termination_by pending reached => (remaining domain reached, pending.length)
decreasing_by
  · exact Prod.Lex.left _ _ (remaining_insert_lt _new.1 _new.2)
  · exact Prod.Lex.right _ (by simp)

def closure (domain : NameSet) (next : String → List String) (seeds : List String) : NameSet :=
  run domain next seeds ∅

end DeadCode.Worklist
