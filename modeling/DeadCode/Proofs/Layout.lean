import Mathlib.Data.List.Nodup
import Mathlib.Data.List.Pairwise
import DeadCode.Analysis
import DeadCode.Proofs.ImportReach
import DeadCode.Proofs.IndexKeys

/- Items whose files lie at distinct addresses, named after their paths. Each path then has one
   item, and the index of the merged graph knows exactly what the items' paths say. -/
namespace DeadCode.ProjectGraph

variable {items : Items} {item other : SourceFile × Extraction} {path x : String}

def HasPath (items : Items) (path : String) : Prop := ∃ item ∈ items, item.1.relPath = path

/-- Every file has its own path, lies at an address and is named after it, and no directory is
    called like a marker. -/
structure Layout (items : Items) : Prop where
  distinct : items.Pairwise fun first second => first.1.relPath ≠ second.1.relPath
  plain : ∀ item ∈ items, ∃ a : Address, item.1.At a ∧ a.Plain

def ownIndex (items : Items) : ModuleIndex := ModuleIndex.build (ofExtractions items).files

theorem mem_of_latest? (found : latest? items path = some item) :
    item ∈ items ∧ item.1.relPath = path :=
  ⟨List.mem_reverse.mp (List.mem_of_find?_eq_some found), by simpa using List.find?_some found⟩

theorem exists_latest? (has : HasPath items path) : ∃ item, latest? items path = some item := by
  obtain ⟨item, hi, at_path⟩ := has
  refine Option.isSome_iff_exists.mp (List.find?_isSome.mpr ?_)
  exact ⟨item, List.mem_reverse.mpr hi, by simpa using at_path⟩

theorem latest?_of_distinct (distinct : (items.map fun item => item.1.relPath).Nodup)
    (hi : item ∈ items) : latest? items item.1.relPath = some item := by
  obtain ⟨other, latest⟩ := exists_latest? ⟨item, hi, rfl⟩
  obtain ⟨ho, same⟩ := mem_of_latest? latest
  rw [latest, List.inj_on_of_nodup_map distinct ho hi same]

theorem containsFile_ofExtractions :
    (ofExtractions items).containsFile path = true ↔ HasPath items path := by
  rw [containsFile_iff, file?_ofExtractions]
  constructor
  · intro h
    obtain ⟨file, found⟩ := h
    obtain ⟨item, latest, _⟩ := Option.map_eq_some_iff.mp found
    exact ⟨item, mem_of_latest? latest⟩
  · intro has
    obtain ⟨item, latest⟩ := exists_latest? has
    exact ⟨item.1, by rw [latest]; rfl⟩

theorem listed_files : ModuleIndex.Listed (ofExtractions items).files path ↔ HasPath items path := by
  rw [← containsFile_ofExtractions, containsFile_iff]
  constructor
  · intro h
    obtain ⟨file, hf, rfl⟩ := h
    exact ⟨file, mem_files_ofExtractions.mp hf⟩
  · intro h
    obtain ⟨file, found⟩ := h
    have same := relPath_of_file? found
    subst same
    exact ⟨file, mem_files_ofExtractions.mpr found, rfl⟩

theorem item_of_mem_files {file : SourceFile} (hf : file ∈ (ofExtractions items).files) :
    ∃ item ∈ items, item.1 = file := by
  have found := mem_files_ofExtractions.mp hf
  rw [file?_ofExtractions] at found
  obtain ⟨item, latest, same⟩ := Option.map_eq_some_iff.mp found
  exact ⟨item, (mem_of_latest? latest).1, same⟩

namespace Layout

theorem files_plain (layout : Layout items) :
    ∀ file ∈ (ofExtractions items).files, ∃ a : Address, file.At a ∧ a.Plain := by
  intro file hf
  obtain ⟨item, hi, rfl⟩ := item_of_mem_files hf
  exact layout.plain item hi

theorem files_addressed (layout : Layout items) :
    ∀ file ∈ (ofExtractions items).files, ∃ a : Address, file.At a :=
  ModuleIndex.addressed_of_plain layout.files_plain

theorem resolveDirect_eq (layout : Layout items) (m : String) :
    (ownIndex items).resolveDirect m = (ownIndex items).modules.get? m :=
  ModuleIndex.resolveDirect_eq (files_increasing items) layout.files_plain m

theorem target?_of_known (layout : Layout items) {imports : List String} {m : String}
    (known : (ownIndex items).modules.get? m = some path) :
    (ownIndex items).target? imports m = some path :=
  ModuleIndex.target?_of_known (files_increasing items) layout.files_plain known

theorem target?_of_unknown (layout : Layout items) {imports : List String} {m : String}
    (unknown : (ownIndex items).modules.get? m = none) :
    (ownIndex items).target? imports m =
      if imports.any ((ownIndex items).covers m) || m == "" then none
      else (ownIndex items).nested? m :=
  ModuleIndex.target?_of_unknown (files_increasing items) layout.files_plain unknown

theorem hasPath_of_get? (layout : Layout items) {m : String}
    (known : (ownIndex items).modules.get? m = some path) : HasPath items path := by
  obtain ⟨_, _, _, listed⟩ := ModuleIndex.address_of_get? layout.files_addressed known
  exact listed_files.mp listed

theorem hasPath_of_target? (layout : Layout items) {imports : List String} {m : String}
    (found : (ownIndex items).target? imports m = some path) : HasPath items path := by
  cases known : (ownIndex items).modules.get? m with
  | some target =>
    rw [layout.target?_of_known known] at found
    cases found
    exact layout.hasPath_of_get? known
  | none =>
    rw [layout.target?_of_unknown known] at found
    split at found
    · cases found
    · obtain ⟨key, below, _⟩ := ModuleIndex.nested?_eq_some_iff.mp found
      exact layout.hasPath_of_get? below

theorem item_unique (layout : Layout items) (hi : item ∈ items) (ho : other ∈ items)
    (same : item.1.relPath = other.1.relPath) : item = other := by
  by_contra differ
  have symmetric : Std.Symm fun first second : SourceFile × Extraction =>
      first.1.relPath ≠ second.1.relPath := ⟨fun _ _ => Ne.symm⟩
  exact layout.distinct.forall hi ho differ same

theorem importsOf_eq (layout : Layout items) (hi : item ∈ items) :
    (ofExtractions items).importsOf item.1.relPath = item.2.imports := by
  apply NameSet.eq_of_members
  intro x
  rw [mem_importsOf_ofExtractions]
  constructor
  · intro h
    obtain ⟨other, ho, same, mem⟩ := h
    exact layout.item_unique hi ho same ▸ mem
  · intro mem
    exact ⟨item, hi, rfl, mem⟩

end Layout
end DeadCode.ProjectGraph
