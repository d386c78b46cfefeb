import Mathlib.Data.List.Nodup
import DeadCode.Check
import DeadCode.Proofs.ImportBindings
import DeadCode.Proofs.Layout
import DeadCode.Proofs.Rankings

/- Unused imports, from the trees of a project to the findings about it. A binding of a reached file
   is reported, once for each time it is made, exactly when no identifier of its file uses it. -/
namespace DeadCode

namespace ProjectGraph

variable {items : Items} {item : SourceFile × Extraction} {files : NameSet}

section Distinct

variable (distinct : (items.map fun item => item.1.relPath).Nodup)
include distinct

theorem paths_perm (inside : ∀ path ∈ files, HasPath items path) :
    files.toList.Perm
      ((items.filter fun item => files.contains item.1.relPath).map fun item => item.1.relPath) := by
  have once : files.toList.Nodup := by
    refine files.sorted.imp ?_
    intro a b lt same
    exact String.lt_irrefl b (same ▸ lt)
  have apart : ((items.filter fun item => files.contains item.1.relPath).map
      fun item => item.1.relPath).Nodup := distinct.sublist (List.filter_sublist.map _)
  refine (List.perm_ext_iff_of_nodup once apart).mpr fun path => ?_
  simp only [NameSet.mem_toList, List.mem_map, List.mem_filter, NameSet.contains_iff]
  constructor
  · intro listed
    obtain ⟨item, hi, rfl⟩ := inside path listed
    exact ⟨item, ⟨hi, listed⟩, rfl⟩
  · intro h
    obtain ⟨item, ⟨_, listed⟩, rfl⟩ := h
    exact listed

theorem unusedImports_perm {reach : Reach} (inside : ∀ path ∈ reach.files, HasPath items path) :
    (Classify.unusedImports (ofExtractions items) reach).Perm
      ((items.filter fun item => reach.files.contains item.1.relPath).flatMap fun item =>
        Classify.unusedInFile item.1 (localsOf item.2)) := by
  rw [Classify.unusedImports, Ranking.sort]
  refine (List.mergeSort_perm _ _).trans ?_
  refine ((paths_perm distinct inside).flatMap_right _).trans ?_
  rw [List.flatMap_map]
  refine List.Perm.of_eq (List.flatMap_congr fun item hi => ?_)
  have latest := latest?_of_distinct distinct (List.mem_filter.mp hi).1
  simp [file?_ofExtractions, locals?_ofExtractions, latest]

end Distinct

theorem hasPath_of_reached {path : String} (reached : path ∈ (ofExtractions items).ownReach.files) :
    HasPath items path :=
  containsFile_ofExtractions.mp (reachableFiles_inside reached)

end ProjectGraph

namespace Tree.Node

variable {file : SourceFile} {tree : Node} {binding : Binding}

/-- The bindings that no identifier uses; the name `_` stands for a value that nobody uses. -/
def unusedBindings (tree : Node) : List Binding :=
  tree.importBindings.filter fun binding => binding.name != "_" && !decide (tree.Uses binding.name)

theorem mem_unusedBindings :
    binding ∈ tree.unusedBindings ↔
      binding ∈ tree.importBindings ∧ binding.name ≠ "_" ∧ ¬tree.Uses binding.name := by
  simp [unusedBindings]

theorem unusedInFile_extraction (form : tree.WellFormed) :
    Classify.unusedInFile file (ProjectGraph.localsOf (tree.extraction file)) =
      tree.unusedBindings.map (Classify.unusedImportFinding file) := by
  have unused : ∀ binding : Binding,
      (!(tree.extraction file).references.contains binding.name) =
        !decide (tree.Uses binding.name) := by
    intro binding
    rw [NameSet.contains, decide_eq_decide.mpr (mem_references_iff form)]
  simp only [Classify.unusedInFile, ProjectGraph.localsOf, bindings_extraction form,
    List.filter_filter, unused, unusedBindings, Bool.and_comm]

end Tree.Node

namespace Check

variable {sources : List (SourceFile × Tree.Node)}

def readTrees (sources : List (SourceFile × Tree.Node)) : Readings :=
  sources.map fun source => (source.1, source.1.extractTree source.2)

def treeItems (sources : List (SourceFile × Tree.Node)) : Items :=
  sources.map fun source => (source.1, source.2.extraction source.1)

theorem distinct_treeItems (distinct : (sources.map fun source => source.1.relPath).Nodup) :
    ((treeItems sources).map fun item => item.1.relPath).Nodup := by
  simpa [treeItems, Function.comp_def] using distinct

theorem parsed_readTrees (whole : ∀ source ∈ sources, source.2.hasError = false) :
    parsed (readTrees sources) = treeItems sources := by
  rw [parsed, readTrees, treeItems, List.filterMap_map, ← List.filterMap_eq_map]
  refine List.filterMap_congr fun source hs => ?_
  simp [SourceFile.extractTree, whole source hs]

/-- For every project of trees without damage at paths of their own, the unused imports that are
    reported are the bindings of the reached trees that no identifier uses, each as often as it is
    made. So a binding is reported at its line exactly when nothing uses its name, and no finding is
    about a file that is not reached. -/
theorem unusedImports_exact (sources : List (SourceFile × Tree.Node)) (minLines : Nat)
    (timestamp : String) (distinct : (sources.map fun source => source.1.relPath).Nodup)
    (whole : ∀ source ∈ sources, source.2.hasError = false)
    (form : ∀ source ∈ sources, source.2.WellFormed) :
    let reached := (graphOf (readTrees sources)).ownReach.files
    let found := (analyzeReadings (readTrees sources) minLines timestamp).unusedImports
    found.Perm ((sources.filter fun source => reached.contains source.1.relPath).flatMap
        fun source => source.2.unusedBindings.map (Classify.unusedImportFinding source.1)) ∧
      (∀ file tree, (file, tree) ∈ sources → file.relPath ∈ reached →
        ∀ binding ∈ tree.importBindings, binding.name ≠ "_" →
          ((∃ finding ∈ found, finding.file = file.relPath ∧ finding.line = some binding.line ∧
              finding.name = some binding.name) ↔ ¬tree.Uses binding.name)) ∧
      ∀ finding ∈ found, finding.file ∈ reached := by
  intro reached found
  have graph : graphOf (readTrees sources) = ProjectGraph.ofExtractions (treeItems sources) := by
    rw [graphOf, parsed_readTrees whole]
  have apart := distinct_treeItems distinct
  have exact : found.Perm ((sources.filter fun source => reached.contains source.1.relPath).flatMap
      fun source => source.2.unusedBindings.map (Classify.unusedImportFinding source.1)) := by
    have perm := ProjectGraph.unusedImports_perm apart fun _ => ProjectGraph.hasPath_of_reached
    rw [← graph, treeItems, List.filter_map, List.flatMap_map] at perm
    refine perm.trans (List.Perm.of_eq (List.flatMap_congr fun source hs => ?_))
    exact Tree.Node.unusedInFile_extraction (form source (List.mem_filter.mp hs).1)
  have told : ∀ finding, finding ∈ found ↔ ∃ source ∈ sources, source.1.relPath ∈ reached ∧
      ∃ binding ∈ source.2.unusedBindings,
        Classify.unusedImportFinding source.1 binding = finding := by
    intro finding
    simp [exact.mem_iff, and_assoc]
  refine ⟨exact, ?_, ?_⟩
  · intro file tree hs live binding hb named
    constructor
    · intro h
      obtain ⟨finding, mem, place, _, name⟩ := h
      obtain ⟨other, ho, _, bound, unused, rfl⟩ := (told finding).mp mem
      have same : other = (file, tree) := List.inj_on_of_nodup_map distinct ho hs place
      subst same
      have label : bound.name = binding.name := Option.some.inj name
      exact label ▸ (Tree.Node.mem_unusedBindings.mp unused).2.2
    · intro unused
      have listed := Tree.Node.mem_unusedBindings.mpr ⟨hb, named, unused⟩
      exact ⟨_, (told _).mpr ⟨(file, tree), hs, live, binding, listed, rfl⟩, rfl, rfl, rfl⟩
  · intro finding mem
    obtain ⟨source, _, live, _, _, rfl⟩ := (told finding).mp mem
    exact live

/- A default value and a base class use their names; an attribute, a comment and a text do not. -/

def pageSource : String :=
  "import os.path, json as j\nfrom lib import thing, other as spare, _\nimport typing\n" ++
    "def show(x=j): return x.os  # thing\nclass Page(typing.Base): 'spare'\n"

def pageSources : List (SourceFile × Tree.Node) :=
  [(SourceFile.ofPath "page.py", Grammar.parse pageSource),
   (SourceFile.ofPath "lib/thing.py", Grammar.parse "import sys\n")]

theorem page_unusedImports_exact :
    let found := (analyzeReadings (readTrees pageSources) 1 "").unusedImports
    let Reported := fun binding : Binding =>
      ∃ finding ∈ found, finding.file = "page.py" ∧ finding.line = some binding.line ∧
        finding.name = some binding.name
    ((pageSources.map fun source => source.1.relPath).Nodup ∧
        (∀ source ∈ pageSources, source.2.hasError = false) ∧
        (∀ source ∈ pageSources, source.2.WellFormed) ∧
        "page.py" ∈ (graphOf (readTrees pageSources)).ownReach.files) ∧
      (∀ binding ∈ [⟨"os", 1, "os.path"⟩, ⟨"thing", 2, "lib"⟩, ⟨"spare", 2, "lib"⟩],
        Reported binding) ∧
      ∀ binding ∈ [⟨"j", 1, "json"⟩, ⟨"typing", 3, "typing"⟩], ¬Reported binding := by
  intro found Reported
  have evaluated : ((pageSources.map fun source => source.1.relPath).Nodup ∧
        (∀ source ∈ pageSources, source.2.hasError = false) ∧
        ∀ source ∈ pageSources, source.2.WellFormed) ∧
      (∀ binding ∈ [⟨"os", 1, "os.path"⟩, ⟨"thing", 2, "lib"⟩, ⟨"spare", 2, "lib"⟩],
        binding ∈ (Grammar.parse pageSource).importBindings ∧ binding.name ≠ "_" ∧
          ¬(Grammar.parse pageSource).Uses binding.name) ∧
      ∀ binding ∈ [⟨"j", 1, "json"⟩, ⟨"typing", 3, "typing"⟩],
        binding ∈ (Grammar.parse pageSource).importBindings ∧ binding.name ≠ "_" ∧
          (Grammar.parse pageSource).Uses binding.name := by decide +kernel
  obtain ⟨⟨distinct, whole, form⟩, unusedHere, usedHere⟩ := evaluated
  have page : (SourceFile.ofPath "page.py", Grammar.parse pageSource) ∈ pageSources :=
    List.mem_cons_self
  have present : ProjectGraph.HasPath (parsed (readTrees pageSources)) "page.py" := by
    rw [parsed_readTrees whole]
    exact ⟨_, List.mem_map_of_mem page, rfl⟩
  have reached : "page.py" ∈ (graphOf (readTrees pageSources)).ownReach.files :=
    ProjectGraph.reachableFiles_isLeast.1.entry "page.py"
      ⟨ProjectGraph.containsFile_ofExtractions.mpr present, .inl (by decide)⟩
  obtain ⟨_, exact, _⟩ := unusedImports_exact pageSources 1 "" distinct whole form
  have reported : ∀ binding ∈ (Grammar.parse pageSource).importBindings, binding.name ≠ "_" →
      (Reported binding ↔ ¬(Grammar.parse pageSource).Uses binding.name) :=
    exact _ _ page reached
  refine ⟨⟨distinct, whole, form, reached⟩, ?_, ?_⟩
  · intro binding hb
    obtain ⟨made, named, unused⟩ := unusedHere binding hb
    exact (reported binding made named).mpr unused
  · intro binding hb told
    obtain ⟨made, named, used⟩ := usedHere binding hb
    exact (reported binding made named).mp told used

end Check
end DeadCode
