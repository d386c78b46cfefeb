import Mathlib.Algebra.GroupWithZero.Nat
import Mathlib.Data.List.Nodup
import DeadCode.Proofs.Layout
import DeadCode.Proofs.Rankings
import DeadCode.Proofs.SymbolTables

/- The result of an analysis as a whole. Its files are parted into those that are reached, those
   that are reported once and those that are exempt; its dead functions are exactly the unreached
   symbols that qualify, each named once; its counts and sums are those of its lists, and the lists
   are in the order of their keys. -/
namespace DeadCode.ProjectGraph

variable {items : Items} {graph : ProjectGraph} {reach : Reach} {file : SourceFile}

def ExemptFile (file : SourceFile) : Prop := file.isMarker = true ∨ file.baseName = "conftest.py"

instance (file : SourceFile) : Decidable (ExemptFile file) :=
  inferInstanceAs (Decidable (_ ∨ _))

def unreachedFiles (graph : ProjectGraph) (reach : Reach) : List SourceFile :=
  graph.files.filter fun file => !reach.files.contains file.relPath

def deadAmong (files : List SourceFile) : List SourceFile :=
  files.filter fun file => !decide (ExemptFile file)

def exemptAmong (files : List SourceFile) : List SourceFile :=
  files.filter fun file => decide (ExemptFile file)

def timesDead (result : AnalysisResult) (path : String) : Nat :=
  (result.deadFiles.map (·.file)).count path

/-- A symbol of a reached file that is worth reporting: no class, long enough, neither exempt by its
    name nor reached. -/
structure DeadSymbol (graph : ProjectGraph) (reach : Reach) (minLines : Nat) (q : String)
    (symbol : Symbol) : Prop where
  owned : ∃ path ∈ reach.files, (q, symbol) ∈ graph.symbolsIn path
  kind : symbol.kind ≠ .classType
  long : minLines ≤ symbol.lines
  plain : Classify.isExemptFunction symbol.name = false
  unreached : q ∉ reach.functions

def BeforeFile (a b : Finding) : Prop := b.lines < a.lines ∨ a.lines = b.lines ∧ a.file < b.file

def BeforeFunction (a b : Finding) : Prop :=
  b.lines < a.lines ∨ a.lines = b.lines ∧
    (a.file < b.file ∨ a.file = b.file ∧ a.line.getD 0 ≤ b.line.getD 0)

def BeforeImport (a b : Finding) : Prop :=
  a.file < b.file ∨ a.file = b.file ∧
    (a.line.getD 0 < b.line.getD 0 ∨ a.line.getD 0 = b.line.getD 0 ∧
      a.name.getD "" ≤ b.name.getD "")

/-- What a result says about its graph, taken as a whole. The first field parts the files: each is
    reached, or reported exactly once, or exempt, and only one of these. -/
structure Consistent (graph : ProjectGraph) (minLines : Nat) (diagnostics : List Diagnostic)
    (result : AnalysisResult) : Prop where
  parted : ∀ file ∈ graph.files,
    (file.relPath ∈ graph.ownReach.files ∧ timesDead result file.relPath = 0) ∨
    (file.relPath ∉ graph.ownReach.files ∧ ¬ExemptFile file ∧ timesDead result file.relPath = 1) ∨
    (file.relPath ∉ graph.ownReach.files ∧ ExemptFile file ∧ timesDead result file.relPath = 0)
  deadFiles : ∀ finding ∈ result.deadFiles, ∃ file ∈ graph.files,
    finding = Classify.deadFileFinding graph file
  analyzed : result.stats.filesAnalyzed = graph.files.length
  reachable : result.stats.filesReachable ≤ result.stats.filesAnalyzed
  unreachable : result.stats.filesReachable + result.stats.filesUnreachable =
    result.stats.filesAnalyzed
  spared : result.stats.filesUnreachable =
    result.deadFiles.length + (exemptAmong (graph.unreachedFiles graph.ownReach)).length
  named : (result.deadFunctions.map (·.name)).Nodup
  deadFunctions : ∀ finding, finding ∈ result.deadFunctions ↔
    ∃ q symbol, DeadSymbol graph graph.ownReach minLines q symbol ∧
      finding = Classify.deadFunctionFinding q symbol
  counts : result.stats.deadFiles = result.deadFiles.length ∧
    result.stats.deadFunctions = result.deadFunctions.length ∧
    result.stats.unusedImports = result.unusedImports.length ∧
    result.stats.filesSkipped = result.diagnostics.length ∧ result.diagnostics = diagnostics
  bytes : result.stats.reclaimableBytes =
    ((deadAmong (graph.unreachedFiles graph.ownReach)).map (·.bytes)).sum
  lines : result.stats.reclaimableLines =
    (result.deadFiles.map (·.lines)).sum + (result.deadFunctions.map (·.lines)).sum
  filesInOrder : result.deadFiles.Pairwise BeforeFile
  functionsInOrder : result.deadFunctions.Pairwise BeforeFunction
  importsInOrder : result.unusedImports.Pairwise BeforeImport

/- Files. -/

theorem isExemptFile_eq (file : SourceFile) :
    Classify.isExemptFile file = decide (ExemptFile file) := by
  rw [Bool.eq_iff_iff, decide_eq_true_iff]
  simp [Classify.isExemptFile, Classify.isTestConfig, Naming.testConfigFiles, ExemptFile]

theorem deadFiles_perm (graph : ProjectGraph) (reach : Reach) :
    (Classify.deadFiles graph reach).Perm
      ((deadAmong (graph.unreachedFiles reach)).map (Classify.deadFileFinding graph)) := by
  have same : deadAmong (graph.unreachedFiles reach) = graph.files.filter fun file =>
      !reach.files.contains file.relPath && !Classify.isExemptFile file := by
    rw [deadAmong, unreachedFiles, List.filter_filter]
    simp only [isExemptFile_eq, Bool.and_comm]
  rw [same]
  exact List.mergeSort_perm _ _

theorem deadPaths_perm (graph : ProjectGraph) (reach : Reach) :
    ((Classify.deadFiles graph reach).map (·.file)).Perm
      ((deadAmong (graph.unreachedFiles reach)).map (·.relPath)) := by
  have paths := (deadFiles_perm graph reach).map (·.file)
  rwa [List.map_map] at paths

theorem paths_nodup (items : Items) : ((ofExtractions items).files.map (·.relPath)).Nodup :=
  nodup_of_increasing _ (files_increasing items)

theorem mem_deadAmong : file ∈ deadAmong (graph.unreachedFiles reach) ↔
    file ∈ graph.files ∧ file.relPath ∉ reach.files ∧ ¬ExemptFile file := by
  rw [deadAmong, unreachedFiles, List.filter_filter]
  simp [NameSet.contains, and_comm]

theorem deadAmong_nodup (items : Items) (reach : Reach) :
    ((deadAmong ((ofExtractions items).unreachedFiles reach)).map (·.relPath)).Nodup :=
  (paths_nodup items).sublist ((List.filter_sublist.trans List.filter_sublist).map _)

/-- Paths of dead files are distinct, so a dead file is reported once, and no other file is. -/
theorem count_deadFiles (hf : file ∈ (ofExtractions items).files) :
    ((Classify.deadFiles (ofExtractions items) reach).map (·.file)).count file.relPath =
      if file.relPath ∉ reach.files ∧ ¬ExemptFile file then 1 else 0 := by
  rw [(deadPaths_perm _ _).count_eq]
  have member : file.relPath ∈ (deadAmong ((ofExtractions items).unreachedFiles reach)).map
      (·.relPath) ↔ file.relPath ∉ reach.files ∧ ¬ExemptFile file := by
    constructor
    · intro mem
      obtain ⟨other, dead, same⟩ := List.mem_map.mp mem
      obtain ⟨ho, rest⟩ := mem_deadAmong.mp dead
      have unique : other = file := List.inj_on_of_nodup_map (paths_nodup items) ho hf same
      exact unique ▸ rest
    · intro dead
      exact List.mem_map_of_mem (mem_deadAmong.mpr ⟨hf, dead⟩)
  split
  · next dead => exact List.count_eq_one_of_mem (deadAmong_nodup items reach) (member.mpr dead)
  · next spared => exact List.count_eq_zero.mpr fun mem => spared (member.mp mem)

theorem size_eq_length {files : NameSet}
    (inside : ∀ path ∈ files, (ofExtractions items).containsFile path = true) :
    files.size =
      ((ofExtractions items).files.filter fun file => files.contains file.relPath).length := by
  have listed : files.names =
      ((ofExtractions items).files.filter fun file => files.contains file.relPath).map (·.relPath) := by
    apply eq_of_increasing id files.sorted
    · exact List.pairwise_map.mpr ((files_increasing items).filter _)
    · intro path
      constructor
      · intro mem
        obtain ⟨file, found⟩ := containsFile_iff.mp (inside path mem)
        have same := relPath_of_file? found
        subst same
        apply List.mem_map_of_mem
        exact List.mem_filter.mpr ⟨mem_files_ofExtractions.mpr found, NameSet.contains_iff.mpr mem⟩
      · intro mem
        obtain ⟨file, kept, rfl⟩ := List.mem_map.mp mem
        exact NameSet.contains_iff.mp (List.mem_filter.mp kept).2
  rw [NameSet.size, listed, List.length_map]

theorem length_parted (files : List SourceFile) :
    files.length = (deadAmong files).length + (exemptAmong files).length := by
  rw [List.length_eq_length_filter_add fun file => decide (ExemptFile file), Nat.add_comm]
  rfl

/- Functions. -/

theorem mem_deadFunctions {minLines : Nat} {finding : Finding} :
    finding ∈ Classify.deadFunctions graph reach minLines ↔
      ∃ q symbol, DeadSymbol graph reach minLines q symbol ∧
        finding = Classify.deadFunctionFinding q symbol := by
  simp only [Classify.deadFunctions, Ranking.mem_sort, List.mem_map, List.mem_filter,
    List.mem_flatMap, NameSet.mem_toList, Classify.isDeadFunction, Bool.and_eq_true, bne_iff_ne,
    decide_eq_true_eq, Bool.not_eq_true', Prod.exists]
  constructor
  · intro h
    obtain ⟨q, symbol, ⟨owned, ⟨⟨kind, long⟩, dead⟩, plain⟩, rfl⟩ := h
    have unreached : q ∉ reach.functions := by simpa [NameSet.contains] using dead
    exact ⟨q, symbol, ⟨owned, kind, long, plain, unreached⟩, rfl⟩
  · intro h
    obtain ⟨q, symbol, ⟨owned, kind, long, plain, unreached⟩, rfl⟩ := h
    have dead : reach.functions.contains q = false := by simpa [NameSet.contains] using unreached
    exact ⟨q, symbol, ⟨owned, ⟨⟨kind, long⟩, dead⟩, plain⟩, rfl⟩

theorem owner_unique {path other q : String} {symbol twin : Symbol}
    (here : (q, symbol) ∈ (ofExtractions items).symbolsIn path)
    (there : (q, twin) ∈ (ofExtractions items).symbolsIn other) : path = other := by
  obtain ⟨item, provided, rfl, _⟩ := mem_symbolsIn_ofExtractions.mp here
  obtain ⟨same, again, rfl, _⟩ := mem_symbolsIn_ofExtractions.mp there
  rw [provided] at again
  cases again
  rfl

theorem owned_nodup (items : Items) (files : NameSet) :
    ((files.toList.flatMap (ofExtractions items).symbolsIn).map (·.1)).Nodup := by
  rw [List.map_flatMap]
  apply List.nodup_flatMap.mpr
  constructor
  · intro path _
    rw [symbolsIn_eq_filter]
    apply List.pairwise_map.mpr
    apply ((ofExtractions items).symbolMap.sorted.filter _).imp
    intro a b lt same
    exact String.lt_irrefl _ (same ▸ lt)
  · apply files.sorted.imp
    intro path other lt q here there
    obtain ⟨⟨_, symbol⟩, owned, rfl⟩ := List.mem_map.mp here
    obtain ⟨⟨_, twin⟩, again, same⟩ := List.mem_map.mp there
    cases same
    exact String.lt_irrefl _ (owner_unique owned again ▸ lt)

theorem deadFunctions_perm (graph : ProjectGraph) (reach : Reach) (minLines : Nat) :
    (Classify.deadFunctions graph reach minLines).Perm
      (((reach.files.toList.flatMap graph.symbolsIn).filter fun entry =>
        Classify.isDeadFunction reach minLines entry.1 entry.2).map fun entry =>
          Classify.deadFunctionFinding entry.1 entry.2) :=
  List.mergeSort_perm _ _

theorem deadFunctions_nodup (items : Items) (reach : Reach) (minLines : Nat) :
    ((Classify.deadFunctions (ofExtractions items) reach minLines).map (·.name)).Nodup := by
  rw [((deadFunctions_perm _ _ _).map _).nodup_iff, List.map_map]
  have names : Finding.name ∘ (fun entry : String × Symbol =>
      Classify.deadFunctionFinding entry.1 entry.2) = some ∘ Prod.fst := rfl
  rw [names, ← List.map_map]
  apply List.Nodup.map (Option.some_injective _)
  exact (owned_nodup items reach.files).sublist (List.filter_sublist.map _)

/- Sums. -/

theorem total_eq_sum (counts : List Nat) : total counts = counts.sum := by
  induction counts with
  | nil => rfl
  | cons count rest ih => rw [List.sum_cons, ← ih]; rfl

theorem reclaimableBytes_eq (items : Items) (reach : Reach) :
    (ofExtractions items).reclaimableBytes (Classify.deadFiles (ofExtractions items) reach) =
      ((deadAmong ((ofExtractions items).unreachedFiles reach)).map (·.bytes)).sum := by
  rw [reclaimableBytes, total_eq_sum]
  have perm := (deadFiles_perm (ofExtractions items) reach).filterMap fun finding =>
    (ofExtractions items).file? finding.file
  have back : ((deadAmong ((ofExtractions items).unreachedFiles reach)).map
      (Classify.deadFileFinding (ofExtractions items))).filterMap
        (fun finding => (ofExtractions items).file? finding.file) =
      deadAmong ((ofExtractions items).unreachedFiles reach) := by
    rw [List.filterMap_map]
    conv_rhs => rw [← List.filterMap_some (l := deadAmong _)]
    apply List.filterMap_congr
    intro file mem
    exact mem_files_ofExtractions.mp (mem_deadAmong.mp mem).1
  rw [back] at perm
  exact (perm.map _).sum_nat

theorem reclaimableLines_append (xs ys : List Finding) :
    reclaimableLines (xs ++ ys) = (xs.map (·.lines)).sum + (ys.map (·.lines)).sum := by
  rw [reclaimableLines, total_eq_sum, List.map_append, List.sum_append]

/- Orders. -/

theorem byLinesDown_eq_lt_iff {a b : Finding} : Classify.byLinesDown a b = .lt ↔ b.lines < a.lines :=
  Nat.compare_eq_lt

theorem byLinesDown_eq_eq_iff {a b : Finding} :
    Classify.byLinesDown a b = .eq ↔ a.lines = b.lines := by
  rw [Classify.byLinesDown, Nat.compare_eq_eq, eq_comm]

theorem byFile_eq_lt_iff {a b : Finding} : Classify.byFile a b = .lt ↔ a.file < b.file :=
  Ranking.text_eq_lt_iff

theorem byFile_eq_eq_iff {a b : Finding} : Classify.byFile a b = .eq ↔ a.file = b.file :=
  Ranking.text_eq_eq_iff

theorem deadFiles_ordered (items : Items) (reach : Reach) :
    (Classify.deadFiles (ofExtractions items) reach).Pairwise BeforeFile := by
  have sorted := Ranking.sort_ordered Classify.lawful_deadFiles
    (((ofExtractions items).files.filter fun file => !reach.files.contains file.relPath &&
      !Classify.isExemptFile file).map (Classify.deadFileFinding (ofExtractions items)))
  have apart : ((Classify.deadFiles (ofExtractions items) reach).map (·.file)).Nodup :=
    (deadPaths_perm _ _).nodup_iff.mpr (deadAmong_nodup items reach)
  apply (sorted.and (List.pairwise_map.mp apart)).imp
  intro a b h
  obtain ⟨inOrder, differ⟩ := h
  rcases Ranking.firstOf_cons_ne_gt.mp inOrder with more | ⟨equal, later⟩
  · exact .inl (byLinesDown_eq_lt_iff.mp more)
  · rcases Ranking.firstOf_cons_ne_gt.mp later with first | ⟨same, _⟩
    · exact .inr ⟨byLinesDown_eq_eq_iff.mp equal, byFile_eq_lt_iff.mp first⟩
    · exact absurd (byFile_eq_eq_iff.mp same) differ

theorem deadFunctions_ordered (graph : ProjectGraph) (reach : Reach) (minLines : Nat) :
    (Classify.deadFunctions graph reach minLines).Pairwise BeforeFunction := by
  have sorted := Ranking.sort_ordered Classify.lawful_deadFunctions
    (((reach.files.toList.flatMap graph.symbolsIn).filter fun entry =>
      Classify.isDeadFunction reach minLines entry.1 entry.2).map fun entry =>
        Classify.deadFunctionFinding entry.1 entry.2)
  apply sorted.imp_of_mem
  intro a b ha hb inOrder
  obtain ⟨_, symbol, _, rfl⟩ := mem_deadFunctions.mp ha
  obtain ⟨_, twin, _, rfl⟩ := mem_deadFunctions.mp hb
  rcases Ranking.firstOf_cons_ne_gt.mp inOrder with more | ⟨equal, later⟩
  · exact .inl (byLinesDown_eq_lt_iff.mp more)
  · refine .inr ⟨byLinesDown_eq_eq_iff.mp equal, ?_⟩
    rcases Ranking.firstOf_cons_ne_gt.mp later with first | ⟨same, last⟩
    · exact .inl (byFile_eq_lt_iff.mp first)
    · refine .inr ⟨byFile_eq_eq_iff.mp same, ?_⟩
      change symbol.line ≤ twin.line
      rcases Ranking.firstOf_cons_ne_gt.mp last with below | ⟨level, _⟩
      · exact Nat.le_of_lt (Nat.compare_eq_lt.mp below)
      · exact Nat.le_of_eq (Nat.compare_eq_eq.mp level)

theorem import_of_mem_unusedImports {finding : Finding}
    (mem : finding ∈ Classify.unusedImports graph reach) :
    ∃ file binding, finding = Classify.unusedImportFinding file binding := by
  simp only [Classify.unusedImports, Ranking.mem_sort, List.mem_flatMap] at mem
  obtain ⟨path, _, mem⟩ := mem
  split at mem
  · next file locals _ _ =>
    obtain ⟨binding, _, rfl⟩ := List.mem_map.mp mem
    exact ⟨file, binding, rfl⟩
  · cases mem

theorem unusedImports_ordered (graph : ProjectGraph) (reach : Reach) :
    (Classify.unusedImports graph reach).Pairwise BeforeImport := by
  unfold Classify.unusedImports
  apply (Ranking.sort_ordered Classify.lawful_unusedImports _).imp_of_mem
  intro a b ha hb inOrder
  obtain ⟨_, binding, rfl⟩ := import_of_mem_unusedImports ha
  obtain ⟨_, twin, rfl⟩ := import_of_mem_unusedImports hb
  rcases Ranking.firstOf_cons_ne_gt.mp inOrder with first | ⟨same, later⟩
  · exact .inl (byFile_eq_lt_iff.mp first)
  · refine .inr ⟨byFile_eq_eq_iff.mp same, ?_⟩
    change binding.line < twin.line ∨ binding.line = twin.line ∧ binding.name ≤ twin.name
    rcases Ranking.firstOf_cons_ne_gt.mp later with below | ⟨level, last⟩
    · exact .inl (Nat.compare_eq_lt.mp below)
    · refine .inr ⟨Nat.compare_eq_eq.mp level, ?_⟩
      rcases Ranking.firstOf_cons_ne_gt.mp last with lower | ⟨alike, _⟩
      · exact String.not_lt.mp (String.lt_asymm (Ranking.text_eq_lt_iff.mp lower))
      · exact Ranking.text_eq_eq_iff.mp alike ▸ String.le_refl _

/- The whole result. -/

theorem reached_parted (items : Items) :
    (ofExtractions items).files.length = (ofExtractions items).ownReach.files.size +
      ((ofExtractions items).unreachedFiles (ofExtractions items).ownReach).length := by
  have inside : ∀ path ∈ (ofExtractions items).ownReach.files,
      (ofExtractions items).containsFile path = true := fun path => reachableFiles_inside
  rw [size_eq_length inside]
  exact List.length_eq_length_filter_add _

/-- Whatever was merged, an analysis gives a consistent result. -/
theorem analyze_consistent (items : Items) (minLines : Nat) (diagnostics : List Diagnostic)
    (timestamp : String) :
    Consistent (ofExtractions items) minLines diagnostics
      ((ofExtractions items).analyze minLines diagnostics timestamp) := by
  have parts := reached_parted items
  have counted : (ofExtractions items).fileCount = (ofExtractions items).files.length := by
    rw [fileCount, files, NameMap.size, NameMap.values, List.length_map]
  have dead := (deadFiles_perm (ofExtractions items) (ofExtractions items).ownReach).length_eq
  have split := length_parted ((ofExtractions items).unreachedFiles (ofExtractions items).ownReach)
  rw [List.length_map] at dead
  constructor
  case parted =>
    intro file hf
    have times := @count_deadFiles items (ofExtractions items).ownReach file hf
    by_cases reached : file.relPath ∈ (ofExtractions items).ownReach.files
    · exact .inl ⟨reached, times.trans (if_neg fun dead => dead.1 reached)⟩
    · by_cases exempt : ExemptFile file
      · exact .inr (.inr ⟨reached, exempt, times.trans (if_neg fun dead => dead.2 exempt)⟩)
      · exact .inr (.inl ⟨reached, exempt, times.trans (if_pos ⟨reached, exempt⟩)⟩)
  case deadFiles =>
    intro finding mem
    obtain ⟨file, listed, rfl⟩ := List.mem_map.mp ((deadFiles_perm _ _).mem_iff.mp mem)
    exact ⟨file, (mem_deadAmong.mp listed).1, rfl⟩
  case analyzed => exact counted
  case reachable =>
    change (ofExtractions items).ownReach.files.size ≤ (ofExtractions items).fileCount
    omega
  case unreachable =>
    change (ofExtractions items).ownReach.files.size + ((ofExtractions items).fileCount -
      (ofExtractions items).ownReach.files.size) = (ofExtractions items).fileCount
    omega
  case spared =>
    change (ofExtractions items).fileCount - (ofExtractions items).ownReach.files.size = _
    rw [counted, parts, Nat.add_sub_cancel_left, split, ← dead]
    rfl
  case named => exact deadFunctions_nodup items _ minLines
  case deadFunctions => exact fun finding => mem_deadFunctions
  case counts => exact ⟨rfl, rfl, rfl, rfl, rfl⟩
  case bytes => exact reclaimableBytes_eq items _
  case lines => exact reclaimableLines_append _ _
  case filesInOrder => exact deadFiles_ordered items _
  case functionsInOrder => exact deadFunctions_ordered _ _ minLines
  case importsInOrder => exact unusedImports_ordered _ _

end DeadCode.ProjectGraph
