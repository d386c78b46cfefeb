import DeadCode.Reach
import DeadCode.Proofs.Closure
import DeadCode.Proofs.Merge

/- File reach against its meaning: the least set of paths that holds the entry files and follows
   every import edge, or all ends of chains of import edges that start at an entry file. The index
   that resolves the imports may have been built from any files. -/
namespace DeadCode.ProjectGraph

variable {items : Items} {index : ModuleIndex} {path : String}

def EntryPath (graph : ProjectGraph) (path : String) : Prop :=
  graph.containsFile path ∧ ('/' ∉ path.toList ∨ Naming.isTestPath path = true)

/-- Some import of the source leads to the target, which is a file of the graph. -/
def ImportEdge (graph : ProjectGraph) (index : ModuleIndex) (source target : String) : Prop :=
  graph.containsFile target ∧
    ∃ name, (name, target) ∈ index.resolveImports (graph.importsOf source).toList

structure ImportClosed (graph : ProjectGraph) (index : ModuleIndex) (kept : Set String) : Prop where
  entry : ∀ path, EntryPath graph path → path ∈ kept
  edge : ∀ source ∈ kept, ∀ target, ImportEdge graph index source target → target ∈ kept

theorem mem_fileMap_keys {graph : ProjectGraph} :
    path ∈ graph.fileMap.keys ↔ graph.containsFile path = true := by
  rw [NameMap.mem_keys, containsFile_iff, file?]

theorem mem_entryFiles :
    path ∈ (ofExtractions items).entryFiles ↔ EntryPath (ofExtractions items) path := by
  simp only [entryFiles, List.mem_map, List.mem_filter, EntryPath, containsFile_iff,
    mem_files_ofExtractions]
  constructor
  · intro h
    obtain ⟨file, ⟨found, entry⟩, rfl⟩ := h
    exact ⟨⟨file, found⟩, by simpa [SourceFile.isEntry, SourceFile.isAtRoot] using entry⟩
  · intro h
    obtain ⟨⟨file, found⟩, entry⟩ := h
    have same := relPath_of_file? found
    subst same
    exact ⟨file, ⟨found, by simpa [SourceFile.isEntry, SourceFile.isAtRoot] using entry⟩, rfl⟩

theorem mem_importTargets {graph : ProjectGraph} {source target : String} :
    target ∈ graph.importTargets index source ∧ graph.containsFile target = true ↔
      ImportEdge graph index source target := by
  simp [importTargets, ImportEdge, and_comm]

theorem closed_iff_importClosed {kept : Set String} :
    Worklist.Closed (ofExtractions items).fileMap.keys ((ofExtractions items).importTargets index)
        (ofExtractions items).entryFiles kept ↔
      ImportClosed (ofExtractions items) index kept := by
  constructor
  · intro closed
    constructor
    · intro path entry
      exact closed.seed path (mem_entryFiles.mpr entry) (mem_fileMap_keys.mpr entry.1)
    · intro source hs target edge
      have next := mem_importTargets.mpr edge
      exact closed.step source hs target next.1 (mem_fileMap_keys.mpr next.2)
  · intro closed
    constructor
    · intro path entry _
      exact closed.entry path (mem_entryFiles.mp entry)
    · intro source hs target next inside
      exact closed.edge source hs target (mem_importTargets.mp ⟨next, mem_fileMap_keys.mp inside⟩)

theorem reachableFiles_isLeast :
    IsLeast {kept | ImportClosed (ofExtractions items) index kept}
      {path | path ∈ (ofExtractions items).reachableFiles index} := by
  have least := @Worklist.closure_isLeast (ofExtractions items).fileMap.keys
    ((ofExtractions items).importTargets index) (ofExtractions items).entryFiles
  simp only [closed_iff_importClosed] at least
  exact least

theorem reachableFiles_inside (mem : path ∈ (ofExtractions items).reachableFiles index) :
    (ofExtractions items).containsFile path = true :=
  mem_fileMap_keys.mp (Worklist.closure_subset_domain mem)

theorem step_eq_importEdge :
    Worklist.Step (ofExtractions items).fileMap.keys ((ofExtractions items).importTargets index) =
      ImportEdge (ofExtractions items) index := by
  funext source target
  rw [← mem_importTargets, Worklist.Step, mem_fileMap_keys]

theorem mem_reachableFiles_iff_chain :
    path ∈ (ofExtractions items).reachableFiles index ↔
      ∃ entry, EntryPath (ofExtractions items) entry ∧
        Relation.ReflTransGen (ImportEdge (ofExtractions items) index) entry path := by
  rw [reachableFiles, Worklist.mem_closure_iff_chain, step_eq_importEdge]
  constructor
  · intro h
    obtain ⟨entry, listed, _, chain⟩ := h
    exact ⟨entry, mem_entryFiles.mp listed, chain⟩
  · intro h
    obtain ⟨entry, start, chain⟩ := h
    exact ⟨entry, mem_entryFiles.mpr start, mem_fileMap_keys.mpr start.1, chain⟩

/-- For every merged project and every index, file reach is the least set of files that is closed
    under imports; a path is in it exactly when a chain of imports leads to it from an entry file. -/
theorem reachableFiles_exact (items : Items) (index : ModuleIndex) :
    IsLeast {kept | ImportClosed (ofExtractions items) index kept}
        {path | path ∈ (ofExtractions items).reachableFiles index} ∧
      (∀ path, path ∈ (ofExtractions items).reachableFiles index ↔
        ∃ entry, EntryPath (ofExtractions items) entry ∧
          Relation.ReflTransGen (ImportEdge (ofExtractions items) index) entry path) ∧
      ∀ path ∈ (ofExtractions items).reachableFiles index,
        (ofExtractions items).containsFile path = true :=
  ⟨reachableFiles_isLeast, fun _ => mem_reachableFiles_iff_chain, fun _ => reachableFiles_inside⟩

end DeadCode.ProjectGraph
