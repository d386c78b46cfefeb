import DeadCode.Proofs.FileRemoval
import DeadCode.Proofs.ImportNames
import DeadCode.Proofs.UnusedImports

/- Code that live code names is not reported. What a reached file imports by name from a file is
   live together with that file, and a bare call keeps every function of that name. -/
namespace DeadCode

namespace ProjectGraph

variable {items : Items} {file : SourceFile} {symbol : Symbol} {base n q bare importer path : String}

/-- Items as they come from sources: every file has its own path, functions and classes go by their
    qualified names, and a module is imported together with its packages. -/
structure Extracted (items : Items) : Prop where
  distinct : (items.map fun item => item.1.relPath).Nodup
  qualified : ∀ item ∈ items, ∀ q symbol, item.2.symbols.get? q = some symbol →
    symbol.kind ≠ .method → q = item.1.module ++ "." ++ symbol.name
  closed : ∀ item ∈ items, FrontClosed item.2.imports

/-- The names under which others find what a file defines: its module, and the package whose marker
    it is. -/
def Offers (file : SourceFile) (base : String) : Prop :=
  base = file.module ∨ file.module = base ++ ".__init__"

theorem frontClosed_importsOf (extracted : Extracted items) :
    FrontClosed ((ofExtractions items).importsOf path) := by
  intro front back mem
  obtain ⟨item, hi, same, imported⟩ := mem_importsOf_ofExtractions.mp mem
  obtain ⟨nonempty, higher⟩ := extracted.closed item hi front back imported
  exact ⟨nonempty, mem_importsOf_ofExtractions.mpr ⟨item, hi, same, higher⟩⟩

theorem reached_of_import (extracted : Extracted items)
    (live : importer ∈ (ofExtractions items).ownReach.files)
    (hf : file ∈ (ofExtractions items).files)
    (key : (ownIndex items).modules.get? base = some file.relPath)
    (imported : base ++ "." ++ n ∈ (ofExtractions items).importsOf importer) :
    file.relPath ∈ (ofExtractions items).ownReach.files := by
  obtain ⟨nonempty, module⟩ := frontClosed_importsOf extracted base n imported
  refine (@reachableFiles_isLeast items (ownIndex items)).1.edge importer live file.relPath ?_
  refine ⟨containsFile_iff.mpr ⟨file, mem_files_ofExtractions.mp hf⟩, base, ?_⟩
  refine List.mem_filterMap.mpr ⟨base, module, ?_⟩
  rw [ModuleIndex.target?_of_key nonempty key]
  rfl

theorem name_of_qualified (extracted : Extracted items) (hf : file ∈ (ofExtractions items).files)
    (owned : (file.module ++ "." ++ n, symbol) ∈ (ofExtractions items).symbolsIn file.relPath)
    (kind : symbol.kind ≠ .method) : symbol.name = n := by
  obtain ⟨item, provided, same, defines⟩ := mem_symbolsIn_ofExtractions.mp owned
  obtain ⟨own, ho, rfl⟩ := item_of_mem_files hf
  have hi := (mem_of_provider? provided).1
  have unique : own = item := List.inj_on_of_nodup_map extracted.distinct ho hi same
  subst unique
  have names := extracted.qualified own ho _ symbol defines kind
  exact (String.append_right_inj _).mp names.symm

theorem symbol_reached_of_import (extracted : Extracted items)
    (live : importer ∈ (ofExtractions items).ownReach.files)
    (hf : file ∈ (ofExtractions items).files) (offers : Offers file base)
    (key : (ownIndex items).modules.get? base = some file.relPath)
    (imported : base ++ "." ++ n ∈ (ofExtractions items).importsOf importer)
    (owned : (file.module ++ "." ++ n, symbol) ∈ (ofExtractions items).symbolsIn file.relPath)
    (kind : symbol.kind ≠ .method) (exported : n ∈ (ofExtractions items).exportsOf file.relPath) :
    file.module ++ "." ++ n ∈ (ofExtractions items).ownReach.functions := by
  have label := name_of_qualified extracted hf owned kind
  have reached := reached_of_import extracted live hf key imported
  have listed : ListedSymbol (ofExtractions items) (ofExtractions items).ownReach.files file
      (file.module ++ "." ++ n) symbol := ⟨reached, mem_files_ofExtractions.mp hf, owned⟩
  refine reachableFunctions_isLeast.1.alone file _ symbol listed ?_
  cases sort : symbol.kind with
  | method => contradiction
  | classType => exact .inl ⟨sort, label ▸ exported⟩
  | function =>
    refine .inr (.inr ⟨sort, label ▸ exported, importer, live, ?_⟩)
    rcases offers with rfl | marker
    · exact .inl imported
    · exact .inr ⟨base, marker, label ▸ imported⟩

theorem symbol_reached_of_call
    (called : (∃ path ∈ (ofExtractions items).ownReach.files,
        bare ∈ (ofExtractions items).moduleCallsOf path) ∨
      ∃ caller ∈ (ofExtractions items).ownReach.functions,
        bare ∈ (ofExtractions items).callsOf caller)
    (known : (ofExtractions items).symbol? q = some symbol) (named : symbol.name = bare) :
    q ∈ (ofExtractions items).ownReach.functions := by
  have closed := (@reachableFunctions_isLeast items (ofExtractions items).ownReach.files).1
  have means : q ∈ (ofExtractions items).matchCallee bare :=
    mem_matchCallee_ofExtractions.mpr ⟨symbol, known, named⟩
  rcases called with ⟨path, live, calls⟩ | ⟨caller, live, calls⟩
  · exact closed.body path live (reachableFiles_inside live) bare calls q means
  · exact closed.call caller live bare calls q means

theorem symbol_of_deadFunction {graph : ProjectGraph} {reach : Reach} {minLines : Nat}
    {finding : Finding} (mem : finding ∈ Classify.deadFunctions graph reach minLines) :
    ∃ q symbol, finding.name = some q ∧ graph.symbol? q = some symbol ∧ q ∉ reach.functions := by
  simp only [Classify.deadFunctions, Ranking.mem_sort, List.mem_map, List.mem_filter,
    List.mem_flatMap] at mem
  obtain ⟨⟨q, symbol⟩, ⟨⟨path, _, owned⟩, dead⟩, rfl⟩ := mem
  simp only [Classify.isDeadFunction, Bool.and_eq_true, Bool.not_eq_true'] at dead
  exact ⟨q, symbol, rfl, known_of_owned owned, by simpa [NameSet.contains] using dead.1.2⟩

end ProjectGraph

/- Extractions of trees are such items. -/

theorem qualified_extraction {file : SourceFile} {tree : Tree.Node} {q : String} {symbol : Symbol}
    (found : (tree.extraction file).symbols.get? q = some symbol) (kind : symbol.kind ≠ .method) :
    q = file.module ++ "." ++ symbol.name := by
  rw [Tree.Node.extraction, Extraction.symbols_ofFacts] at found
  obtain ⟨fact, told, defines⟩ := List.mem_filterMap.mp (NameMap.mem_of_first? found)
  have sort : fact = .defines q symbol := by
    cases fact with
    | defines qualified other => simpa [Fact.definition?] using defines
    | _ => cases defines
  subst sort
  rw [Tree.Node.facts_eq_flatMap, List.mem_flatMap] at told
  obtain ⟨o, _, told⟩ := told
  obtain ⟨scope, _, own⟩ := Tree.Occurrence.mem_facts_iff.mp told
  obtain ⟨_, name, _, sort, tracked, rfl⟩ := Tree.Node.defines_mem_ownFacts.mp own
  unfold Tree.Node.tracked? at tracked
  split at tracked
  · cases tracked
    rfl
  · split at tracked
    · cases tracked
    · obtain ⟨_, _, same⟩ := Option.map_eq_some_iff.mp tracked
      cases same
      contradiction

namespace Check

variable {sources : List (SourceFile × Tree.Node)}

theorem extracted_treeItems (distinct : (sources.map fun source => source.1.relPath).Nodup) :
    ProjectGraph.Extracted (treeItems sources) where
  distinct := distinct_treeItems distinct
  qualified := by
    intro item hi q symbol found kind
    obtain ⟨source, _, rfl⟩ := List.mem_map.mp hi
    exact qualified_extraction found kind
  closed := by
    intro item hi
    obtain ⟨source, _, rfl⟩ := List.mem_map.mp hi
    exact Tree.Node.frontClosed_extraction source.1 source.2

end Check

namespace ProjectGraph

/-- Nothing is reported that live code names. A function or class that a reached file imports from
    its module, or from the package whose marker defines it, is reached with its file; and when live
    code calls a bare name, no function of that name is reported. -/
theorem analyze_spares_named (items : Items) (extracted : Extracted items) (minLines : Nat)
    (diagnostics : List Diagnostic) (timestamp : String) :
    let graph := ofExtractions items
    let reach := graph.ownReach
    let result := graph.analyze minLines diagnostics timestamp
    (∀ importer ∈ reach.files, ∀ file ∈ graph.files, ∀ base n symbol, Offers file base →
      (ModuleIndex.build graph.files).modules.get? base = some file.relPath →
      base ++ "." ++ n ∈ graph.importsOf importer →
      (file.module ++ "." ++ n, symbol) ∈ graph.symbolsIn file.relPath →
      symbol.kind ≠ .method → n ∈ graph.exportsOf file.relPath →
        file.relPath ∈ reach.files ∧ file.module ++ "." ++ n ∈ reach.functions ∧
          (∀ finding ∈ result.deadFiles, finding.file ≠ file.relPath) ∧
          ∀ finding ∈ result.deadFunctions, finding.name ≠ some (file.module ++ "." ++ n)) ∧
      ∀ bare, ((∃ path ∈ reach.files, bare ∈ graph.moduleCallsOf path) ∨
          ∃ caller ∈ reach.functions, bare ∈ graph.callsOf caller) →
        ∀ finding ∈ result.deadFunctions, ∃ q symbol, finding.name = some q ∧
          graph.symbol? q = some symbol ∧ symbol.name ≠ bare := by
  intro graph reach result
  constructor
  · intro importer live file hf base n symbol offers key imported owned kind exported
    have reached := reached_of_import extracted live hf key imported
    have called :=
      symbol_reached_of_import extracted live hf offers key imported owned kind exported
    refine ⟨reached, called, ?_, ?_⟩
    · intro finding mem same
      exact deadFiles_unreached mem (same ▸ reached)
    · intro finding mem same
      obtain ⟨q, _, named, _, dead⟩ := symbol_of_deadFunction mem
      rw [named] at same
      cases same
      exact dead called
  · intro bare called finding mem
    obtain ⟨q, symbol, named, known, dead⟩ := symbol_of_deadFunction mem
    exact ⟨q, symbol, named, known, fun same => dead (symbol_reached_of_call called known same)⟩

/- A package whose marker defines a function that is imported from the package, and another one that
   only the first one calls. -/

def packageSources : List (SourceFile × Tree.Node) :=
  [(SourceFile.ofPath "start.py", Grammar.parse "from pkg import helper\n"),
   (SourceFile.ofPath "pkg/__init__.py",
    Grammar.parse "def helper():\n  inner()\n\ndef inner():\n  pass\n")]

theorem package_spares_named :
    let items := Check.treeItems packageSources
    let reach := (ofExtractions items).ownReach
    let result := (ofExtractions items).analyze 1 [] ""
    (Extracted items ∧ "start.py" ∈ reach.files) ∧
      ("pkg/__init__.py" ∈ reach.files ∧ "pkg.__init__.helper" ∈ reach.functions ∧
        (∀ finding ∈ result.deadFiles, finding.file ≠ "pkg/__init__.py") ∧
        ∀ finding ∈ result.deadFunctions, finding.name ≠ some "pkg.__init__.helper") ∧
      ∀ finding ∈ result.deadFunctions, ∃ q symbol, finding.name = some q ∧
        (ofExtractions items).symbol? q = some symbol ∧ symbol.name ≠ "inner" := by
  intro items reach result
  have extracted : Extracted items := Check.extracted_treeItems (by decide)
  have evaluated : (ofExtractions items).containsFile "start.py" = true ∧
      SourceFile.ofPath "pkg/__init__.py" ∈ (ofExtractions items).files ∧
      (ModuleIndex.build (ofExtractions items).files).modules.get? "pkg" =
        some "pkg/__init__.py" ∧
      "pkg.helper" ∈ (ofExtractions items).importsOf "start.py" ∧
      ("pkg.__init__.helper", { name := "helper", file := "pkg/__init__.py", lines := 2 }) ∈
        (ofExtractions items).symbolsIn "pkg/__init__.py" ∧
      "helper" ∈ (ofExtractions items).exportsOf "pkg/__init__.py" ∧
      "inner" ∈ (ofExtractions items).callsOf "pkg.__init__.helper" := by decide +kernel
  obtain ⟨present, file, key, imported, owned, exported, calls⟩ := evaluated
  have live : "start.py" ∈ reach.files :=
    reachableFiles_isLeast.1.entry "start.py" ⟨present, .inl (by decide)⟩
  obtain ⟨byName, byCall⟩ := analyze_spares_named items extracted 1 [] ""
  have spared := byName "start.py" live _ file "pkg" "helper" _ (.inr (by decide)) key imported
    owned (by decide) exported
  exact ⟨⟨extracted, live⟩, spared, byCall "inner" (.inr ⟨_, spared.2.1, calls⟩)⟩

end ProjectGraph
end DeadCode
