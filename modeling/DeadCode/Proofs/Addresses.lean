import DeadCode.ModuleIndex
import DeadCode.Proofs.Texts

/- The place of a source file in a project, as its list of components. The list gives both the path
   and the module name, and either of them gives the list back. -/
namespace DeadCode

def IsComponent (s : String) : Prop := s ≠ "" ∧ '.' ∉ s.toList ∧ '/' ∉ s.toList

instance (s : String) : Decidable (IsComponent s) :=
  inferInstanceAs (Decidable (s ≠ "" ∧ '.' ∉ s.toList ∧ '/' ∉ s.toList))

structure Address where
  parts : List String
  nonempty : parts ≠ []
  proper : ∀ part ∈ parts, IsComponent part

namespace Address

variable {a b : Address}

def name (a : Address) : String := Text.join '.' a.parts

/-- The path `s1/…/sk.py`. -/
def path (a : Address) : String := Text.join '/' a.parts ++ ".py"

/-- Where the marker file lies when the address is taken for a directory. -/
def marker (a : Address) : Address where
  parts := a.parts ++ ["__init__"]
  nonempty := by simp
  proper := by
    intro part hp
    rcases List.mem_append.mp hp with old | new
    · exact a.proper part old
    · rw [List.mem_singleton.mp new]
      decide

def Plain (a : Address) : Prop := "__init__" ∉ a.parts.dropLast

/-- Taken for a directory, the first address holds the second. -/
def Above (a b : Address) : Prop := ∃ rest, rest ≠ [] ∧ b.parts = a.parts ++ rest

instance (a : Address) : Decidable a.Plain :=
  inferInstanceAs (Decidable ("__init__" ∉ a.parts.dropLast))

theorem above_iff_prefix : a.Above b ↔ a.parts <+: b.parts ∧ a.parts ≠ b.parts := by
  constructor
  · intro h
    obtain ⟨rest, nonempty, extended⟩ := h
    refine ⟨⟨rest, extended.symm⟩, fun same => nonempty ?_⟩
    rw [same] at extended
    exact List.self_eq_append_right.mp extended
  · intro h
    obtain ⟨⟨rest, extended⟩, differ⟩ := h
    refine ⟨rest, fun empty => differ ?_, extended.symm⟩
    rw [← extended, empty, List.append_nil]

instance (a b : Address) : Decidable (a.Above b) := decidable_of_iff' _ above_iff_prefix

theorem not_plain_marker_marker (a : Address) : ¬a.marker.marker.Plain := by
  simp [Plain, marker]

theorem eq_of_parts (same : a.parts = b.parts) : a = b := by
  cases a
  cases b
  cases same
  rfl

theorem dot_free (a : Address) : ∀ part ∈ a.parts, '.' ∉ part.toList := fun part hp =>
  (a.proper part hp).2.1

theorem slash_free (a : Address) : ∀ part ∈ a.parts, '/' ∉ part.toList := fun part hp =>
  (a.proper part hp).2.2

theorem name_injective (same : a.name = b.name) : a = b :=
  eq_of_parts (Text.join_injective a.nonempty b.nonempty a.dot_free b.dot_free same)

theorem path_injective (same : a.path = b.path) : a = b := by
  have joined : Text.join '/' a.parts = Text.join '/' b.parts := by
    have chars := congrArg String.toList same
    rw [path, path, String.toList_append, String.toList_append] at chars
    exact String.ext (List.append_cancel_right chars)
  exact eq_of_parts (Text.join_injective a.nonempty b.nonempty a.slash_free b.slash_free joined)

theorem segments_name (a : Address) : Text.segments '.' a.name = a.parts :=
  Text.segments_join a.nonempty a.dot_free

theorem ofPath_path (a : Address) : ModulePath.ofPath a.path = a.name := by
  have stem : Text.dropEnding? a.path ("." ++ Naming.sourceExtension) =
      some (Text.join '/' a.parts) := Text.dropEnding?_eq_some_iff.mpr rfl
  rw [ModulePath.ofPath, stem]
  exact Text.replaceChar_join a.slash_free

theorem exists_name {m : String} (proper : ∀ part ∈ Text.segments '.' m, IsComponent part) :
    ∃ a : Address, a.parts = Text.segments '.' m ∧ a.name = m :=
  ⟨⟨_, Text.segments_ne_nil '.' m, proper⟩, rfl, Text.join_segments '.' m⟩

theorem name_ne_empty (a : Address) : a.name ≠ "" := by
  intro empty
  have parts := a.segments_name
  rw [empty] at parts
  have blank : "" ∈ a.parts := parts ▸ by decide
  exact (a.proper "" blank).1 rfl

theorem eq_marker_of_name {m : String} (named : b.name = m ++ "." ++ Naming.markerModule) :
    ∃ a : Address, a.name = m ∧ b = a.marker := by
  have parts : b.parts = Text.segments '.' m ++ ["__init__"] := by
    rw [← b.segments_name, named]
    exact Text.segments_append '.' m Naming.markerModule
  obtain ⟨a, pieces, rfl⟩ := @exists_name m fun part hp =>
    b.proper part (parts ▸ List.mem_append_left _ hp)
  refine ⟨a, rfl, eq_of_parts ?_⟩
  rw [parts, ← pieces]
  rfl

theorem above_marker (a : Address) : a.Above a.marker := ⟨["__init__"], by simp, rfl⟩

theorem name_extends_iff : Text.startsWith b.name (a.name ++ ".") = true ↔ a.Above b := by
  rw [Text.startsWith, List.isPrefixOf_iff_prefix, String.toList_append]
  exact Text.join_extends_iff a.nonempty b.nonempty a.dot_free b.dot_free

/-- A file comes before everything in the directory beside it that has its name, because the dot
    of the extension is below the slash. -/
theorem path_lt_of_above (above : a.Above b) : a.path < b.path := by
  obtain ⟨rest, nonempty, extended⟩ := above
  change a.path.toList < b.path.toList
  rw [path, path, String.toList_append, String.toList_append, extended,
    Text.toList_join_append a.nonempty nonempty, List.append_assoc]
  apply List.append_left_lt
  exact List.cons_lt_cons_iff.mpr (.inl (by decide))

theorem join_append_ending (sep : Char) (fronts : List String) (last ending : String) :
    Text.join sep (fronts ++ [last ++ ending]) = Text.join sep (fronts ++ [last]) ++ ending := by
  apply String.ext
  rw [String.toList_append]
  by_cases empty : fronts = []
  · subst empty
    simp
  · rw [Text.toList_join_append empty (List.cons_ne_nil _ _),
      Text.toList_join_append empty (List.cons_ne_nil _ _)]
    simp

theorem marker_path (a : Address) : a.marker.path = Text.join '/' (a.parts ++ [Naming.markerFile]) :=
  (join_append_ending '/' a.parts "__init__" ".py").symm

theorem mem_parentMarkers {claim : String × String} :
    claim ∈ ModuleIndex.parentMarkers b.name ↔
      ∃ a : Address, a.Above b ∧ claim = (a.name, a.marker.path) := by
  rw [ModuleIndex.parentMarkers, b.segments_name, Text.fronts_dropLast, List.mem_map]
  constructor
  · intro h
    obtain ⟨front, member, rfl⟩ := h
    obtain ⟨nonempty, rest, extended⟩ := Text.mem_fronts.mp member
    have whole : b.parts = front ++ (rest ++ [b.parts.getLast b.nonempty]) := by
      rw [← List.append_assoc, extended, List.dropLast_concat_getLast]
    have proper : ∀ part ∈ front, IsComponent part := fun part hp =>
      b.proper part (whole ▸ List.mem_append_left _ hp)
    refine ⟨⟨front, nonempty, proper⟩, ⟨_, by simp, whole⟩, ?_⟩
    rw [marker_path]
    rfl
  · intro h
    obtain ⟨a, ⟨rest, nonempty, extended⟩, rfl⟩ := h
    refine ⟨a.parts, Text.mem_fronts.mpr ⟨a.nonempty, ?_⟩, ?_⟩
    · rw [extended, List.dropLast_append_of_ne_nil nonempty]
      exact List.prefix_append _ _
    · rw [marker_path]
      rfl

end Address
end DeadCode
