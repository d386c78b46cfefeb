import DeadCode.Reach
import DeadCode.Proofs.Closure
import DeadCode.Proofs.Merge
import DeadCode.Proofs.Texts

/- Function reach against its meaning: the least set of qualified names that holds what the listed
   files make live by themselves, what their bodies call, and what its own members call. A bare call
   stands for every symbol of that short name, wherever it is defined. -/
namespace DeadCode.ProjectGraph

variable {items : Items} {graph : ProjectGraph} {files : NameSet} {q : String}

structure ListedSymbol (graph : ProjectGraph) (files : NameSet) (file : SourceFile) (q : String)
    (symbol : Symbol) : Prop where
  listed : file.relPath ∈ files
  present : graph.file? file.relPath = some file
  owned : (q, symbol) ∈ graph.symbolsIn file.relPath

/-- Some listed file imports the symbol, by its qualified name or through the package whose marker
    file defines it. -/
def ImportedByName (graph : ProjectGraph) (files : NameSet) (file : SourceFile) (q : String)
    (symbol : Symbol) : Prop :=
  ∃ importer ∈ files, q ∈ graph.importsOf importer ∨
    ∃ package, file.module = package ++ ".__init__" ∧
      package ++ "." ++ symbol.name ∈ graph.importsOf importer

/-- Live without a call: an exported class, an entry point or dunder that is no class, or an
    exported function that is imported by name. -/
def LiveAlone (graph : ProjectGraph) (files : NameSet) (file : SourceFile) (q : String)
    (symbol : Symbol) : Prop :=
  (symbol.kind = .classType ∧ symbol.name ∈ graph.exportsOf file.relPath) ∨
    (symbol.kind ≠ .classType ∧
      (symbol.name ∈ ["main", "run", "start", "cli"] ∨ Naming.isDunder symbol.name = true)) ∨
    (symbol.kind = .function ∧ symbol.name ∈ graph.exportsOf file.relPath ∧
      ImportedByName graph files file q symbol)

structure CallClosed (graph : ProjectGraph) (files : NameSet) (kept : Set String) : Prop where
  alone : ∀ file q symbol, ListedSymbol graph files file q symbol →
    LiveAlone graph files file q symbol → q ∈ kept
  body : ∀ path ∈ files, graph.containsFile path = true →
    ∀ bare ∈ graph.moduleCallsOf path, ∀ q ∈ graph.matchCallee bare, q ∈ kept
  call : ∀ caller ∈ kept, ∀ bare ∈ graph.callsOf caller, ∀ q ∈ graph.matchCallee bare, q ∈ kept

theorem packageName?_eq_some_iff {module package : String} :
    packageName? module = some package ↔ module = package ++ ".__init__" := by
  have dotted : ".__init__" = "." ++ Naming.markerModule := by decide
  simp only [packageName?, Option.bind_eq_some_iff, Text.dropEnding?_eq_some_iff, dotted,
    ← String.append_assoc]
  constructor
  · intro h
    obtain ⟨front, rfl, rfl⟩ := h
    rfl
  · intro h
    subst h
    exact ⟨_, rfl, rfl⟩

theorem mem_importedBy {x : String} :
    x ∈ graph.importedBy files ↔ ∃ path ∈ files, x ∈ graph.importsOf path := by
  have fold : ∀ (paths : List String) (names : NameSet),
      x ∈ paths.foldl (fun names path => names ∪ graph.importsOf path) names ↔
        x ∈ names ∨ ∃ path ∈ paths, x ∈ graph.importsOf path := by
    intro paths
    induction paths with
    | nil => simp
    | cons path rest ih =>
      intro names
      rw [List.foldl_cons, ih, NameSet.mem_union, or_assoc]
      simp
  rw [importedBy, fold]
  simp

theorem isSeed_iff {file : SourceFile} {symbol : Symbol} :
    isSeed (graph.exportsOf file.relPath) (graph.importedBy files) (packageName? file.module) q
        symbol = true ↔ LiveAlone graph files file q symbol := by
  have byName : ((graph.importedBy files).contains q ||
      (packageName? file.module).any fun package =>
        (graph.importedBy files).contains (package ++ "." ++ symbol.name)) = true ↔
      ImportedByName graph files file q symbol := by
    simp only [Bool.or_eq_true, NameSet.contains_iff, Option.any_eq_true, mem_importedBy,
      packageName?_eq_some_iff, ImportedByName]
    constructor
    · intro h
      rcases h with ⟨path, hp, imported⟩ | ⟨package, marker, path, hp, imported⟩
      · exact ⟨path, hp, .inl imported⟩
      · exact ⟨path, hp, .inr ⟨package, marker, imported⟩⟩
    · intro h
      rcases h with ⟨path, hp, imported | ⟨package, marker, imported⟩⟩
      · exact .inl ⟨path, hp, imported⟩
      · exact .inr ⟨package, marker, path, hp, imported⟩
  cases kind : symbol.kind with
  | classType => simp [isSeed, LiveAlone, kind]
  | method => simp [isSeed, LiveAlone, kind, Naming.entryPointNames]
  | function =>
    simp [isSeed, LiveAlone, kind, Naming.entryPointNames, ← byName, or_assoc]

theorem mem_callTargets {bares : NameSet} :
    q ∈ graph.callTargets bares ↔ ∃ bare ∈ bares, q ∈ graph.matchCallee bare := by
  simp [callTargets]

theorem mem_functionSeeds :
    q ∈ (ofExtractions items).functionSeeds files ↔
      (∃ file symbol, ListedSymbol (ofExtractions items) files file q symbol ∧
        LiveAlone (ofExtractions items) files file q symbol) ∨
      ∃ path ∈ files, (ofExtractions items).containsFile path = true ∧
        ∃ bare ∈ (ofExtractions items).moduleCallsOf path,
          q ∈ (ofExtractions items).matchCallee bare := by
  simp only [functionSeeds, fileSeeds, List.mem_flatMap, List.mem_filterMap, NameSet.mem_toList,
    List.mem_append, List.mem_map, List.mem_filter, isSeed_iff, mem_callTargets, containsFile_iff]
  constructor
  · intro h
    rcases h with ⟨file, ⟨path, hp, found⟩, ⟨⟨name, symbol⟩, ⟨owned, live⟩, rfl⟩ | calls⟩
    · have same := relPath_of_file? found
      subst same
      exact .inl ⟨file, symbol, ⟨hp, found, owned⟩, live⟩
    · have same := relPath_of_file? found
      subst same
      exact .inr ⟨_, hp, ⟨file, found⟩, calls⟩
  · intro h
    rcases h with ⟨file, symbol, ⟨hp, found, owned⟩, live⟩ | ⟨path, hp, ⟨file, found⟩, calls⟩
    · exact ⟨file, ⟨_, hp, found⟩, .inl ⟨(q, symbol), ⟨owned, live⟩, rfl⟩⟩
    · have same := relPath_of_file? found
      subst same
      exact ⟨file, ⟨_, hp, found⟩, .inr calls⟩

theorem mem_symbolMap_keys :
    q ∈ graph.symbolMap.keys ↔ ∃ symbol, graph.symbol? q = some symbol :=
  NameMap.mem_keys

theorem known_of_matchCallee {bare : String} (mem : q ∈ (ofExtractions items).matchCallee bare) :
    ∃ symbol, (ofExtractions items).symbol? q = some symbol := by
  obtain ⟨symbol, found, _⟩ := mem_matchCallee_ofExtractions.mp mem
  exact ⟨symbol, found⟩

theorem known_of_owned {path : String} {symbol : Symbol}
    (mem : (q, symbol) ∈ graph.symbolsIn path) : graph.symbol? q = some symbol := by
  obtain ⟨name, _, found⟩ := List.mem_filterMap.mp mem
  obtain ⟨value, found, same⟩ := Option.map_eq_some_iff.mp found
  cases same
  exact found

/-- The closure that the worklist computes is closure under calls. Its domain excludes nothing,
    because every seed and every call target is a known name. -/
theorem closed_iff_callClosed {kept : Set String} :
    Worklist.Closed (ofExtractions items).symbolMap.keys
        (fun q => (ofExtractions items).callTargets ((ofExtractions items).callsOf q))
        ((ofExtractions items).functionSeeds files) kept ↔
      CallClosed (ofExtractions items) files kept := by
  constructor
  · intro closed
    constructor
    · intro file q symbol listed live
      apply closed.seed q (mem_functionSeeds.mpr (.inl ⟨file, symbol, listed, live⟩))
      exact mem_symbolMap_keys.mpr ⟨symbol, known_of_owned listed.owned⟩
    · intro path hp present bare hb q hq
      apply closed.seed q (mem_functionSeeds.mpr (.inr ⟨path, hp, present, bare, hb, hq⟩))
      exact mem_symbolMap_keys.mpr (known_of_matchCallee hq)
    · intro caller hc bare hb q hq
      apply closed.step caller hc q (mem_callTargets.mpr ⟨bare, hb, hq⟩)
      exact mem_symbolMap_keys.mpr (known_of_matchCallee hq)
  · intro closed
    constructor
    · intro q seed _
      rcases mem_functionSeeds.mp seed with
        ⟨file, symbol, listed, live⟩ | ⟨path, hp, present, bare, hb, hq⟩
      · exact closed.alone file q symbol listed live
      · exact closed.body path hp present bare hb q hq
    · intro caller hc q target _
      obtain ⟨bare, hb, hq⟩ := mem_callTargets.mp target
      exact closed.call caller hc bare hb q hq

theorem reachableFunctions_isLeast :
    IsLeast {kept | CallClosed (ofExtractions items) files kept}
      {q | q ∈ (ofExtractions items).reachableFunctions files} := by
  have least := @Worklist.closure_isLeast (ofExtractions items).symbolMap.keys
    (fun q => (ofExtractions items).callTargets ((ofExtractions items).callsOf q))
    ((ofExtractions items).functionSeeds files)
  simp only [closed_iff_callClosed] at least
  exact least

/-- For every merged project and every set of paths, function reach is the least set of names that
    is closed under calls, and it holds only names of known symbols. -/
theorem reachableFunctions_exact (items : Items) (files : NameSet) :
    IsLeast {kept | CallClosed (ofExtractions items) files kept}
        {q | q ∈ (ofExtractions items).reachableFunctions files} ∧
      ∀ q ∈ (ofExtractions items).reachableFunctions files,
        ∃ symbol, (ofExtractions items).symbol? q = some symbol :=
  ⟨reachableFunctions_isLeast, fun _ mem =>
    mem_symbolMap_keys.mp (Worklist.closure_subset_domain mem)⟩

end DeadCode.ProjectGraph
