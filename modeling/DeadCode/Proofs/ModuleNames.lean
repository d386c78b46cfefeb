import Mathlib.Data.List.DropRight
import DeadCode.Proofs.Addresses

/- Module names as lists of words. The package of a module, the prefixes of a name and the meaning
   of leading dots are then operations on lists: taking a front, dropping last words, appending. -/
namespace DeadCode

def IsWord (s : String) : Prop := s ≠ "" ∧ '.' ∉ s.toList

theorem IsComponent.isWord {s : String} (component : IsComponent s) : IsWord s :=
  ⟨component.1, component.2.1⟩

namespace ModulePath

variable {name x front back : String} {directories words rest : List String} {dots : Nat}

def ofWords? (words : List String) : Option String :=
  if words = [] then none else some (Text.join '.' words)

/-- The words of the module that `rest` means after some dots in a file in the directories. One dot
    stays in the last directory and every other dot leaves one; dots that lead out of the root do
    not count. -/
def baseWords (directories : List String) (dots : Nat) (rest : List String) : List String :=
  if 1 ≤ dots ∧ dots ≤ directories.length + 1 then directories.rdrop (dots - 1) ++ rest else rest

theorem mem_prefixes :
    front ∈ prefixes name ↔
      ∃ words, words ≠ [] ∧ words <+: parts name ∧ front = Text.join '.' words := by
  simp only [prefixes, List.mem_map, Text.mem_fronts, and_assoc, eq_comm]

theorem dot_not_mem_parts {part : String} (mem : part ∈ parts name) : '.' ∉ part.toList :=
  Text.sep_not_mem_segments (List.mem_filter.mp mem).1

theorem parts_join (plain : ∀ word ∈ words, IsWord word) : parts (Text.join '.' words) = words := by
  by_cases empty : words = []
  · subst empty
    decide
  · rw [parts, Text.segments_join empty fun word hw => (plain word hw).2]
    apply List.filter_eq_self.mpr
    intro word hw
    simpa using (plain word hw).1

theorem parts_name (a : Address) : parts a.name = a.parts :=
  parts_join fun part hp => (a.proper part hp).isWord

theorem join_eq_empty_iff (plain : ∀ word ∈ words, IsWord word) :
    Text.join '.' words = "" ↔ words = [] := by
  constructor
  · intro empty
    rw [← parts_join plain, empty]
    decide
  · intro empty
    rw [empty]
    decide

theorem join_eq_word_iff {word : String} (plain : ∀ word ∈ words, IsWord word)
    (single : IsWord word) : Text.join '.' words = word ↔ words = [word] := by
  constructor
  · intro joined
    calc words = parts (Text.join '.' words) := (parts_join plain).symm
      _ = parts (Text.join '.' [word]) := by rw [joined, Text.join_singleton]
      _ = [word] := parts_join (by simpa using single)
  · intro same
    rw [same, Text.join_singleton]

theorem package_name (a : Address) : package a.name = Text.join '.' a.parts.dropLast := by
  have last := List.dropLast_concat_getLast a.nonempty
  have free := a.dot_free _ (List.getLast_mem a.nonempty)
  rw [package, Address.name]
  by_cases root : a.parts.dropLast = []
  · rw [root, List.nil_append] at last
    rw [← last, Text.join_singleton, Text.splitLast?_of_free free]
    rfl
  · rw [← last, Text.join_append root (List.cons_ne_nil _ _), Text.join_singleton,
      Text.splitLast?_append _ free, List.dropLast_concat]

theorem isWord_baseWords (above : ∀ word ∈ directories, IsWord word)
    (plain : ∀ word ∈ rest, IsWord word) :
    ∀ word ∈ baseWords directories dots rest, IsWord word := by
  unfold baseWords
  split
  · intro word hw
    rcases List.mem_append.mp hw with high | low
    · exact above word (List.mem_of_mem_take high)
    · exact plain word low
  · exact plain

theorem join_concat_join (base : List String) (nonempty : words ≠ []) :
    Text.join '.' (base ++ [Text.join '.' words]) = Text.join '.' (base ++ words) := by
  by_cases root : base = []
  · rw [root, List.nil_append, List.nil_append, Text.join_singleton]
  · rw [Text.join_append root (List.cons_ne_nil _ _), Text.join_append root nonempty,
      Text.join_singleton]

theorem absolutize_join (above : ∀ word ∈ directories, IsWord word)
    (plain : ∀ word ∈ rest, IsWord word) :
    absolutize (Text.join '.' directories) dots (Text.join '.' rest) =
      ofWords? (baseWords directories dots rest) := by
  have bare := join_eq_empty_iff plain
  cases dots with
  | zero => simp [absolutize, baseWords, ofWords?, bare]
  | succ climb =>
    have base : (if directories.length < climb then []
        else directories.take (directories.length - climb)) ++ rest =
          baseWords directories (climb + 1) rest := by
      unfold baseWords
      by_cases out : directories.length < climb
      · rw [if_pos out, if_neg (by omega), List.nil_append]
      · rw [if_neg out, if_pos (by omega)]
        rfl
    simp only [absolutize, parts_join above, beq_iff_eq, bare, ← base]
    generalize (if directories.length < climb then []
      else directories.take (directories.length - climb)) = start
    by_cases empty : rest = []
    · simp [empty, ofWords?]
    · simp [empty, ofWords?, join_concat_join start empty]

theorem mem_prefixes_iff_segments : x ∈ prefixes name ↔ Text.segments '.' x <+: parts name := by
  rw [mem_prefixes]
  constructor
  · intro h
    obtain ⟨words, nonempty, ext, rfl⟩ := h
    rwa [Text.segments_join nonempty fun word hw => dot_not_mem_parts (ext.subset hw)]
  · intro ext
    exact ⟨_, Text.segments_ne_nil '.' x, ext, (Text.join_segments '.' x).symm⟩

theorem blank_not_mem_segments (mem : x ∈ prefixes name) : "" ∉ Text.segments '.' x := by
  intro blank
  have kept := (mem_prefixes_iff_segments.mp mem).subset blank
  simp [parts] at kept

theorem front_mem_prefixes (mem : front ++ "." ++ back ∈ prefixes name) :
    front ∈ prefixes name := by
  rw [mem_prefixes_iff_segments] at mem ⊢
  have cut : Text.segments '.' (front ++ "." ++ back) =
      Text.segments '.' front ++ Text.segments '.' back := Text.segments_append '.' front back
  rw [cut] at mem
  exact (List.prefix_append _ _).trans mem

theorem empty_not_mem_prefixes : "" ∉ prefixes name := fun mem =>
  blank_not_mem_segments mem (by decide)

end ModulePath
end DeadCode
