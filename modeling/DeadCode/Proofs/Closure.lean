import Mathlib.Order.Bounds.Basic
import Mathlib.Logic.Relation
import DeadCode.Worklist

/- A worklist run returns the least set that holds its seeds and is closed under its successor
   function, both taken inside the domain. Equivalently, it returns the ends of all chains of
   successors that start at a seed and never leave the domain. -/
namespace DeadCode.Worklist

variable {domain reached : NameSet} {next : String → List String} {seeds pending : List String}

structure Closed (domain : NameSet) (next : String → List String) (seeds : List String)
    (kept : Set String) : Prop where
  seed : ∀ x ∈ seeds, x ∈ domain → x ∈ kept
  step : ∀ x ∈ kept, ∀ y ∈ next x, y ∈ domain → y ∈ kept

theorem reached_subset_run {x : String} (old : x ∈ reached) : x ∈ run domain next pending reached := by
  fun_induction run domain next pending reached with
  | case1 => exact old
  | case2 first pending reached new ih => exact ih (NameSet.mem_insert.mpr (.inr old))
  | case3 first pending reached seen ih => exact ih old

theorem run_subset_domain (inside : ∀ x ∈ reached, x ∈ domain) {x : String}
    (mem : x ∈ run domain next pending reached) : x ∈ domain := by
  fun_induction run domain next pending reached with
  | case1 => exact inside x mem
  | case2 first pending reached new ih =>
    refine ih ?_ mem
    intro y hy
    rcases NameSet.mem_insert.mp hy with same | old
    · exact same ▸ new.1
    · exact inside y old
  | case3 first pending reached seen ih => exact ih inside mem

theorem run_subset_closed {kept : Set String} (closed : Closed domain next pending kept)
    (start : ∀ x ∈ reached, x ∈ kept) {x : String} (mem : x ∈ run domain next pending reached) :
    x ∈ kept := by
  fun_induction run domain next pending reached with
  | case1 => exact start x mem
  | case2 first pending reached new ih =>
    have head : first ∈ kept := closed.seed first List.mem_cons_self new.1
    refine ih ⟨?_, closed.step⟩ ?_ mem
    · intro y hy inside
      rcases List.mem_append.mp hy with waiting | successor
      · exact closed.seed y (List.mem_cons_of_mem _ waiting) inside
      · exact closed.step first head y successor inside
    · intro y hy
      rcases NameSet.mem_insert.mp hy with same | old
      · exact same ▸ head
      · exact start y old
  | case3 first pending reached seen ih =>
    exact ih ⟨fun y hy => closed.seed y (List.mem_cons_of_mem _ hy), closed.step⟩ start mem

/-- The loop invariant: a successor of a reached name has been reached or is waiting. -/
def Frontier (domain : NameSet) (next : String → List String) (pending : List String)
    (reached : NameSet) : Prop :=
  ∀ x ∈ reached, ∀ y ∈ next x, y ∈ domain → y ∈ reached ∨ y ∈ pending

theorem frontier_step {first : String}
    (frontier : Frontier domain next (first :: pending) reached) :
    Frontier domain next (pending ++ next first) (reached.insert first) := by
  intro x hx y hy inside
  rcases NameSet.mem_insert.mp hx with same | old
  · subst same
    exact .inr (List.mem_append_right _ hy)
  · rcases frontier x old y hy inside with done | waiting
    · exact .inl (NameSet.mem_insert.mpr (.inr done))
    · rcases List.mem_cons.mp waiting with same | later
      · exact .inl (NameSet.mem_insert.mpr (.inl same))
      · exact .inr (List.mem_append_left _ later)

theorem frontier_skip {first : String}
    (frontier : Frontier domain next (first :: pending) reached)
    (seen : ¬(first ∈ domain ∧ ¬first ∈ reached)) : Frontier domain next pending reached := by
  intro x hx y hy inside
  rcases frontier x hx y hy inside with done | waiting
  · exact .inl done
  · rcases List.mem_cons.mp waiting with same | later
    · subst same
      exact .inl (Decidable.byContradiction fun new => seen ⟨inside, new⟩)
    · exact .inr later

theorem run_closed (frontier : Frontier domain next pending reached) :
    Closed domain next pending {x | x ∈ run domain next pending reached} := by
  fun_induction run domain next pending reached with
  | case1 reached =>
    refine ⟨fun x hx => absurd hx List.not_mem_nil, ?_⟩
    intro x hx y hy inside
    exact (frontier x hx y hy inside).resolve_right List.not_mem_nil
  | case2 first pending reached new ih =>
    have rest := ih (frontier_step frontier)
    refine ⟨?_, rest.step⟩
    intro x hx inside
    rcases List.mem_cons.mp hx with same | later
    · subst same
      exact reached_subset_run (NameSet.mem_insert.mpr (.inl rfl))
    · exact rest.seed x (List.mem_append_left _ later) inside
  | case3 first pending reached seen ih =>
    have rest := ih (frontier_skip frontier seen)
    refine ⟨?_, rest.step⟩
    intro x hx inside
    rcases List.mem_cons.mp hx with same | later
    · subst same
      exact reached_subset_run (Decidable.byContradiction fun new => seen ⟨inside, new⟩)
    · exact rest.seed x later inside

theorem closure_closed : Closed domain next seeds {x | x ∈ closure domain next seeds} :=
  run_closed fun _ hx => absurd hx NameSet.not_mem_empty

theorem closure_subset {kept : Set String} (closed : Closed domain next seeds kept) {x : String}
    (mem : x ∈ closure domain next seeds) : x ∈ kept :=
  run_subset_closed closed (fun _ hy => absurd hy NameSet.not_mem_empty) mem

theorem closure_subset_domain {x : String} (mem : x ∈ closure domain next seeds) : x ∈ domain :=
  run_subset_domain (fun _ hy => absurd hy NameSet.not_mem_empty) mem

theorem closure_isLeast :
    IsLeast {kept | Closed domain next seeds kept} {x | x ∈ closure domain next seeds} :=
  ⟨closure_closed, fun _ closed _ mem => closure_subset closed mem⟩

theorem closure_mono {more : String → List String} {first : List String}
    (steps : ∀ x, ∀ y ∈ next x, y ∈ more x) (start : ∀ x ∈ seeds, x ∈ first) {x : String}
    (mem : x ∈ closure domain next seeds) : x ∈ closure domain more first := by
  have closed : Closed domain more first {x | x ∈ closure domain more first} := closure_closed
  refine closure_subset ⟨?_, ?_⟩ mem
  · intro seed hs inside
    exact closed.seed seed (start seed hs) inside
  · intro reached hr y hy inside
    exact closed.step reached hr y (steps reached y hy) inside

def Step (domain : NameSet) (next : String → List String) (x y : String) : Prop :=
  y ∈ next x ∧ y ∈ domain

theorem mem_closure_iff_chain {x : String} :
    x ∈ closure domain next seeds ↔
      ∃ seed ∈ seeds, seed ∈ domain ∧ Relation.ReflTransGen (Step domain next) seed x := by
  constructor
  · have chains : Closed domain next seeds {y | ∃ seed ∈ seeds, seed ∈ domain ∧
        Relation.ReflTransGen (Step domain next) seed y} := by
      constructor
      · intro seed hs inside
        exact ⟨seed, hs, inside, .refl⟩
      · intro y h z hz target
        obtain ⟨seed, hs, inside, chain⟩ := h
        exact ⟨seed, hs, inside, chain.tail ⟨hz, target⟩⟩
    exact closure_subset chains
  · intro h
    obtain ⟨seed, hs, inside, chain⟩ := h
    induction chain with
    | refl => exact closure_closed.seed seed hs inside
    | tail _ step ih => exact closure_closed.step _ ih _ step.1 step.2

end DeadCode.Worklist
