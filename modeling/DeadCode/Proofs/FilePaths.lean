import Mathlib.Data.List.Induction
import DeadCode.FileSystem
import DeadCode.Proofs.Names
import DeadCode.Proofs.Texts

/- Where paths lead. A path that is followed to its end goes from directory to directory, up and down
   and over links; `Leads` says so step by step. In a tree whose entries lie in directories a
   location that has an entry leads to itself, unless a link stands there. -/
namespace DeadCode

/-- A name that goes down, neither staying nor going up. -/
def IsStep (name : String) : Prop := name ≠ "" ∧ name ≠ "." ∧ name ≠ ".."

instance (name : String) : Decidable (IsStep name) := inferInstanceAs (Decidable (_ ∧ _))

/-- Names as they come out of a path, without slashes. -/
def PlainNames (names : List String) : Prop := ∀ name ∈ names, '/' ∉ name.toList

instance (names : List String) : Decidable (PlainNames names) :=
  inferInstanceAs (Decidable (∀ name ∈ names, '/' ∉ name.toList))

theorem plainNames_segments (path : String) : PlainNames (Text.segments '/' path) :=
  fun _ => Text.sep_not_mem_segments

theorem plainNames_nil : PlainNames [] := fun _ mem => absurd mem List.not_mem_nil

theorem PlainNames.append {xs ys : List String} (left : PlainNames xs) (right : PlainNames ys) :
    PlainNames (xs ++ ys) := by
  intro name mem
  rcases List.mem_append.mp mem with first | second
  · exact left name first
  · exact right name second

theorem PlainNames.of_subset {xs ys : List String} (plain : PlainNames ys) (subset : xs ⊆ ys) :
    PlainNames xs := fun name mem => plain name (subset mem)

theorem PlainNames.tail {name : String} {rest : List String} (plain : PlainNames (name :: rest)) :
    PlainNames rest := plain.of_subset (List.subset_cons_self _ _)

theorem PlainNames.step {here rest : List String} {name : String} (plainHere : PlainNames here)
    (plain : PlainNames (name :: rest)) : PlainNames (here ++ [name]) :=
  plainHere.append (plain.of_subset (by simp))

def Entry.isLink : Entry → Bool
  | .link _ => true
  | _ => false

namespace FileTree

variable {tree : FileTree} {location here xs ys : Location} {entry : Entry} {name : String}

structure WellFormed (tree : FileTree) : Prop where
  steps : ∀ entry ∈ tree.entries.toList, ∀ name ∈ Text.segments '/' entry.1, IsStep name
  parents : ∀ entry ∈ tree.entries.toList,
    tree.isDirectory (Text.segments '/' entry.1).dropLast = true

instance (tree : FileTree) : Decidable tree.WellFormed :=
  decidable_of_iff
    ((∀ entry ∈ tree.entries.toList, ∀ name ∈ Text.segments '/' entry.1, IsStep name) ∧
      ∀ entry ∈ tree.entries.toList, tree.isDirectory (Text.segments '/' entry.1).dropLast = true)
    ⟨fun h => ⟨h.1, h.2⟩, fun h => ⟨h.steps, h.parents⟩⟩

theorem segments_key (nonempty : location ≠ []) (plain : PlainNames location) :
    Text.segments '/' (key location) = location :=
  Text.segments_join nonempty plain

theorem find?_of_ne_nil (nonempty : location ≠ []) :
    tree.find? location = tree.entries.get? (key location) := by
  rw [find?, if_neg (by simpa using nonempty)]

theorem isDirectory_iff :
    tree.isDirectory location = true ↔ tree.find? location = some .directory := by
  rw [isDirectory]
  cases tree.find? location with
  | none => simp
  | some entry => cases entry <;> simp [Entry.isDirectory]

theorem mem_entries_of_find? (nonempty : location ≠ []) (found : tree.find? location = some entry) :
    (key location, entry) ∈ tree.entries.toList := by
  rw [find?_of_ne_nil nonempty] at found
  exact NameMap.get?_eq_some_iff.mp found

theorem find?_ne_link (noLinks : tree.entries.toList.all (!·.2.isLink) = true) (location : Location)
    (path : String) : tree.find? location ≠ some (.link path) := by
  intro found
  by_cases top : location = []
  · rw [top] at found
    cases found
  · have other := List.all_eq_true.mp noLinks _ (mem_entries_of_find? top found)
    cases other

theorem WellFormed.isStep (form : tree.WellFormed) (plain : PlainNames location)
    (found : tree.find? location = some entry) : ∀ name ∈ location, IsStep name := by
  intro name mem
  have nonempty := List.ne_nil_of_mem mem
  have steps := form.steps _ (mem_entries_of_find? nonempty found)
  rw [segments_key nonempty plain] at steps
  exact steps name mem

theorem WellFormed.parent (form : tree.WellFormed) (plain : PlainNames (here ++ [name]))
    (found : tree.find? (here ++ [name]) = some entry) : tree.isDirectory here = true := by
  have nonempty : here ++ [name] ≠ [] := by simp
  have parent := form.parents _ (mem_entries_of_find? nonempty found)
  rwa [segments_key nonempty plain, List.dropLast_concat] at parent

theorem WellFormed.dropLast (form : tree.WellFormed) (plain : PlainNames here)
    (directory : tree.isDirectory here = true) : tree.isDirectory here.dropLast = true := by
  rcases List.eq_nil_or_concat here with rfl | ⟨front, last, rfl⟩
  · rfl
  · rw [List.concat_eq_append] at plain directory ⊢
    rw [List.dropLast_concat]
    exact form.parent plain (isDirectory_iff.mp directory)

theorem WellFormed.front (form : tree.WellFormed) (plain : PlainNames (xs ++ ys)) (below : ys ≠ [])
    (found : tree.find? (xs ++ ys) = some entry) : tree.isDirectory xs = true := by
  induction ys using List.reverseRecOn generalizing entry with
  | nil => contradiction
  | append_singleton ys last ih =>
    rw [← List.append_assoc] at plain found
    have parent := form.parent plain found
    by_cases empty : ys = []
    · rwa [empty, List.append_nil] at parent
    · exact ih (plain.of_subset (List.subset_append_left _ _)) empty (isDirectory_iff.mp parent)

end FileTree

namespace FileSystem

variable {fs : FileSystem} {links more : Nat} {here start location target r mid : Location}
variable {names rest xs ys : List String} {entry : Entry}

/-- Following names leads from one location to another, over at most so many links. -/
inductive Leads (fs : FileSystem) : Nat → Location → List String → Location → Prop
  | done {links : Nat} {here : Location} : Leads fs links here [] here
  | stay {links : Nat} {here r : Location} {name : String} {rest : List String}
      (directory : fs.tree.isDirectory here = true) (same : name = "" ∨ name = ".")
      (later : Leads fs links here rest r) : Leads fs links here (name :: rest) r
  | up {links : Nat} {here r : Location} {rest : List String}
      (directory : fs.tree.isDirectory here = true) (later : Leads fs links here.dropLast rest r) :
      Leads fs links here (".." :: rest) r
  | enter {links : Nat} {here r : Location} {name : String} {rest : List String} {entry : Entry}
      (directory : fs.tree.isDirectory here = true) (step : IsStep name)
      (found : fs.tree.find? (here ++ [name]) = some entry) (noLink : ∀ path, entry ≠ .link path)
      (later : Leads fs links (here ++ [name]) rest r) : Leads fs links here (name :: rest) r
  | link {links : Nat} {here start r : Location} {name path : String} {names rest : List String}
      (directory : fs.tree.isDirectory here = true) (step : IsStep name)
      (found : fs.tree.find? (here ++ [name]) = some (.link path))
      (located : fs.locate here path = some (start, names))
      (later : Leads fs links start (names ++ rest) r) : Leads fs (links + 1) here (name :: rest) r

theorem isStep_of_tests {name : String} (moves : ¬(name == "" || name == ".") = true)
    (down : ¬(name == "..") = true) : IsStep name := by
  simp only [Bool.or_eq_true, beq_iff_eq, not_or] at moves down
  exact ⟨moves.1, moves.2, down⟩

theorem leads_of_follow (ends : fs.follow false links here names = .ok r) :
    Leads fs links here names r := by
  fun_induction follow fs false links here names with
  | case1 here =>
    cases ends
    exact .done
  | case3 links here name rest directory same ih =>
    exact .stay (by simpa using directory) (by simpa using same) (ih ends)
  | case4 links here name rest directory _ up ih =>
    obtain rfl : name = ".." := by simpa using up
    exact .up (by simpa using directory) (ih ends)
  | case5 _ _ _ _ _ _ _ _ creates => cases creates
  | case8 here name rest directory moves down path found links start names located ih =>
    exact .link (by simpa using directory) (isStep_of_tests moves down) found located (ih ends)
  | case10 links here name rest directory moves down entry noLink found ih =>
    exact .enter (by simpa using directory) (isStep_of_tests moves down) found noLink (ih ends)
  | case2 | case6 | case7 | case9 => cases ends

theorem follow_of_leads (leads : Leads fs links here names r) :
    fs.follow false links here names = .ok r := by
  induction leads with
  | done => rw [follow]
  | stay directory same _ ih =>
    rw [follow]
    rcases same with rfl | rfl <;> simpa [directory] using ih
  | up directory _ ih =>
    rw [follow]
    simpa [directory] using ih
  | @enter links here r name rest entry directory step found noLink _ ih =>
    obtain ⟨nonempty, here, up⟩ := step
    rw [follow]
    cases entry with
    | link path => exact absurd rfl (noLink path)
    | file _ | directory => simpa [directory, nonempty, here, up, found] using ih
  | link directory step found located _ ih =>
    obtain ⟨nonempty, here, up⟩ := step
    rw [follow]
    simpa [directory, nonempty, here, up, found, located] using ih

theorem start_of_locate {path : String} (located : fs.locate here path = some (start, names)) :
    (start = [] ∨ start = here) ∧ PlainNames names := by
  unfold locate at located
  split at located
  · cases located
  · split at located
    · cases located
      exact ⟨.inl rfl, plainNames_nil⟩
    · split at located
      · cases located
        exact ⟨.inl rfl, plainNames_segments _⟩
      · split at located
        · cases located
        · cases located
          exact ⟨.inr rfl, plainNames_segments _⟩

theorem plain_of_locate {path : String} (located : fs.locate here path = some (start, names))
    (plainHere : PlainNames here) : PlainNames start := by
  rcases (start_of_locate located).1 with rfl | rfl
  · exact plainNames_nil
  · exact plainHere

theorem Leads.plain (leads : Leads fs links here names r) (plainHere : PlainNames here)
    (plain : PlainNames names) : PlainNames r := by
  induction leads with
  | done => exact plainHere
  | stay _ _ _ ih => exact ih plainHere plain.tail
  | up _ _ ih => exact ih (plainHere.of_subset (List.dropLast_subset _)) plain.tail
  | enter _ _ _ _ _ ih => exact ih (plainHere.step plain) plain.tail
  | link _ _ _ located _ ih =>
    exact ih (plain_of_locate located plainHere) ((start_of_locate located).2.append plain.tail)

/-- Names lead to one place, however many links may be used. -/
theorem Leads.unique (first : Leads fs links here names r) (second : Leads fs more here names mid) :
    r = mid := by
  induction first generalizing more with
  | done =>
    cases second
    rfl
  | stay _ same _ ih =>
    cases second with
    | stay _ _ later => exact ih later
    | up => simp at same
    | enter _ step | link _ step => rcases same with rfl | rfl <;> simp [IsStep] at step
  | up _ _ ih =>
    cases second with
    | stay _ same => simp at same
    | up _ later => exact ih later
    | enter _ step | link _ step => simp [IsStep] at step
  | enter _ step found noLink _ ih =>
    cases second with
    | stay _ same => rcases same with rfl | rfl <;> simp [IsStep] at step
    | up => simp [IsStep] at step
    | enter _ _ _ _ later => exact ih later
    | link _ _ other =>
      rw [found] at other
      cases other
      exact absurd rfl (noLink _)
  | link _ step found located _ ih =>
    cases second with
    | stay _ same => rcases same with rfl | rfl <;> simp [IsStep] at step
    | up => simp [IsStep] at step
    | enter _ _ other noLink =>
      rw [found] at other
      cases other
      exact absurd rfl (noLink _)
    | link _ _ other again later =>
      rw [found] at other
      cases other
      rw [located] at again
      cases again
      exact ih later

theorem Leads.split (leads : Leads fs links here (xs ++ ys) r) :
    ∃ mid rest, Leads fs links here xs mid ∧ Leads fs rest mid ys r := by
  generalize whole : xs ++ ys = names at leads
  induction leads generalizing xs with
  | done =>
    obtain ⟨rfl, rfl⟩ := List.append_eq_nil_iff.mp whole
    exact ⟨_, 0, .done, .done⟩
  | stay directory same later ih =>
    rcases List.append_eq_cons_iff.mp whole with ⟨rfl, rfl⟩ | ⟨tail, rfl, rfl⟩
    · exact ⟨_, _, .done, .stay directory same later⟩
    · obtain ⟨mid, rest, first, second⟩ := ih rfl
      exact ⟨mid, rest, .stay directory same first, second⟩
  | up directory later ih =>
    rcases List.append_eq_cons_iff.mp whole with ⟨rfl, rfl⟩ | ⟨tail, rfl, rfl⟩
    · exact ⟨_, _, .done, .up directory later⟩
    · obtain ⟨mid, rest, first, second⟩ := ih rfl
      exact ⟨mid, rest, .up directory first, second⟩
  | enter directory step found noLink later ih =>
    rcases List.append_eq_cons_iff.mp whole with ⟨rfl, rfl⟩ | ⟨tail, rfl, rfl⟩
    · exact ⟨_, _, .done, .enter directory step found noLink later⟩
    · obtain ⟨mid, rest, first, second⟩ := ih rfl
      exact ⟨mid, rest, .enter directory step found noLink first, second⟩
  | link directory step found located later ih =>
    rcases List.append_eq_cons_iff.mp whole with ⟨rfl, rfl⟩ | ⟨tail, rfl, rfl⟩
    · exact ⟨_, _, .done, .link directory step found located later⟩
    · obtain ⟨mid, rest, first, second⟩ := ih (List.append_assoc _ _ _)
      exact ⟨mid, rest, .link directory step found located first, second⟩

theorem Leads.eq_of_not_directory (leads : Leads fs links here names r)
    (leaf : fs.tree.isDirectory here = false) : names = [] ∧ r = here := by
  cases leads with
  | done => exact ⟨rfl, rfl⟩
  | stay directory | up directory | enter directory | link directory =>
    rw [leaf] at directory
    cases directory

theorem Leads.eq_append (noLinks : ∀ location path, fs.tree.find? location ≠ some (.link path))
    (leads : Leads fs links here names r) (steps : ∀ name ∈ names, IsStep name) :
    r = here ++ names := by
  induction leads with
  | done => simp
  | stay _ same => rcases same with rfl | rfl <;> simp [IsStep] at steps
  | up => simp [IsStep] at steps
  | enter _ _ _ _ _ ih =>
    rw [ih fun name mem => steps name (List.mem_cons_of_mem _ mem)]
    simp
  | link _ _ found => exact absurd found (noLinks _ _)

section WellFormed

variable (form : fs.tree.WellFormed)
include form

theorem Leads.exists_entry (leads : Leads fs links here names r) (plainHere : PlainNames here)
    (plain : PlainNames names)
    (start : ∃ entry, fs.tree.find? here = some entry ∧ ∀ path, entry ≠ .link path) :
    ∃ entry, fs.tree.find? r = some entry ∧ ∀ path, entry ≠ .link path := by
  have atDirectory : ∀ {location : Location}, fs.tree.isDirectory location = true →
      ∃ entry, fs.tree.find? location = some entry ∧ ∀ path, entry ≠ .link path := by
    intro location directory
    exact ⟨_, FileTree.isDirectory_iff.mp directory, fun _ same => by cases same⟩
  induction leads with
  | done => exact start
  | stay _ _ _ ih => exact ih plainHere plain.tail start
  | up directory _ ih =>
    exact ih (plainHere.of_subset (List.dropLast_subset _)) plain.tail
      (atDirectory (form.dropLast plainHere directory))
  | enter _ _ found noLink _ ih => exact ih (plainHere.step plain) plain.tail ⟨_, found, noLink⟩
  | link directory _ _ located _ ih =>
    obtain ⟨origin, plainNames⟩ := start_of_locate located
    have later := plainNames.append plain.tail
    rcases origin with rfl | rfl
    · exact ih plainNames_nil later (atDirectory rfl)
    · exact ih plainHere later (atDirectory directory)

theorem leads_down (plain : PlainNames (here ++ xs))
    (directory : fs.tree.isDirectory (here ++ xs) = true)
    (later : Leads fs links (here ++ xs) ys r) : Leads fs links here (xs ++ ys) r := by
  induction xs generalizing here with
  | nil => simpa using later
  | cons x xs ih =>
    have found := FileTree.isDirectory_iff.mp directory
    have step : IsStep x := form.isStep plain found x (by simp)
    have top : fs.tree.isDirectory here = true := form.front plain (List.cons_ne_nil _ _) found
    have assoc : here ++ x :: xs = here ++ [x] ++ xs := by simp
    rw [assoc] at plain directory later
    have next : fs.tree.isDirectory (here ++ [x]) = true := by
      by_cases empty : xs = []
      · rwa [empty, List.append_nil] at directory
      · exact form.front plain empty (FileTree.isDirectory_iff.mp directory)
    exact .enter top step (FileTree.isDirectory_iff.mp next) (fun _ same => by cases same)
      (ih plain directory later)

theorem leads_to_entry (plain : PlainNames location) (found : fs.tree.find? location = some entry)
    (noLink : ∀ path, entry ≠ .link path) : Leads fs links [] location location := by
  rcases List.eq_nil_or_concat location with rfl | ⟨front, last, rfl⟩
  · exact .done
  · rw [List.concat_eq_append] at plain found ⊢
    have directory : fs.tree.isDirectory front = true := form.parent plain found
    have way : Leads fs links ([] ++ front) [last] (front ++ [last]) :=
      .enter directory (form.isStep plain found last (by simp)) found noLink .done
    exact leads_down form (plain.of_subset (List.subset_append_left _ _)) directory way

end WellFormed

end FileSystem
end DeadCode
