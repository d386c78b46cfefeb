import Mathlib.Data.List.Induction
import DeadCode.ProjectGraph
import DeadCode.Proofs.Names

/- What a merged graph answers, in terms of the files and extractions that were merged. Sets are
   united over all items of a path, the last item of a path gives its file and its locals, and the
   first item that defines a qualified name provides the symbol. -/
namespace DeadCode

abbrev Items := List (SourceFile × Extraction)

namespace ProjectGraph

def latest? (items : Items) (path : String) : Option (SourceFile × Extraction) :=
  items.reverse.find? fun item => item.1.relPath = path

def provider? (items : Items) (qualified : String) : Option (SourceFile × Extraction) :=
  items.find? fun item => item.2.symbols.contains qualified

def localsOf (extraction : Extraction) : FileLocals where
  bindings := extraction.bindings
  references := extraction.references
  hasMainGuard := extraction.hasMainGuard

variable {graph : ProjectGraph} {items : Items} {item : SourceFile × Extraction}
variable {path x q bare : String} {symbol : Symbol}

/- One merge, table by table. -/

theorem mem_alter_extend {m : NameMap NameSet} {names : NameSet} {key k : String} :
    x ∈ ((m.alter key (extend names)).get? k).getD ∅ ↔
      x ∈ (m.get? k).getD ∅ ∨ k = key ∧ x ∈ names := by
  rw [NameMap.get?_alter]
  by_cases same : k = key
  · subst same
    simp [extend]
  · simp [same]

theorem mem_fold_extend {m : NameMap NameSet} {entries : List (String × NameSet)} {k : String} :
    x ∈ ((entries.foldl (fun calls (caller, callees) => calls.alter caller (extend callees)) m).get?
        k).getD ∅ ↔
      x ∈ (m.get? k).getD ∅ ∨ ∃ names, (k, names) ∈ entries ∧ x ∈ names := by
  induction entries generalizing m with
  | nil => simp
  | cons e rest ih =>
    obtain ⟨caller, callees⟩ := e
    rw [List.foldl_cons, ih, mem_alter_extend, or_assoc]
    apply or_congr_right
    constructor
    · intro h
      rcases h with ⟨rfl, mem⟩ | ⟨names, later, mem⟩
      · exact ⟨callees, List.mem_cons_self, mem⟩
      · exact ⟨names, List.mem_cons_of_mem _ later, mem⟩
    · intro h
      obtain ⟨names, entry, mem⟩ := h
      rcases List.mem_cons.mp entry with same | later
      · cases same
        exact .inl ⟨rfl, mem⟩
      · exact .inr ⟨names, later, mem⟩

theorem addSymbols_frame (entries : List (String × Symbol)) (graph : ProjectGraph) :
    let merged := entries.foldl (addSymbol path) graph
    merged = { graph with
      symbolMap := merged.symbolMap, owned := merged.owned, byName := merged.byName } := by
  induction entries generalizing graph with
  | nil => rfl
  | cons e rest ih =>
    have tail := ih (addSymbol path graph e)
    simp only [List.foldl_cons] at tail ⊢
    rw [tail]
    unfold addSymbol
    split <;> rfl

def ownedBy (graph : ProjectGraph) (path : String) : NameSet := (graph.owned.get? path).getD ∅

theorem mem_alter_insert {m : NameMap NameSet} {key k name : String} :
    x ∈ ((m.alter key fun old => (old.getD ∅).insert name).get? k).getD ∅ ↔
      x ∈ (m.get? k).getD ∅ ∨ k = key ∧ x = name := by
  rw [NameMap.get?_alter]
  by_cases same : k = key
  · subst same
    simp [NameSet.mem_insert, or_comm]
  · simp [same]

theorem addSymbol_known {old : Symbol} {entry : String × Symbol}
    (known : graph.symbol? entry.1 = some old) : addSymbol path graph entry = graph :=
  if_pos (NameMap.contains_iff.mpr ⟨old, known⟩)

theorem addSymbol_unknown {entry : String × Symbol} (unknown : graph.symbol? entry.1 = none) :
    addSymbol path graph entry = { graph with
      symbolMap := graph.symbolMap.insert entry.1 entry.2
      owned := graph.owned.alter path fun old => (old.getD ∅).insert entry.1
      byName := graph.byName.alter entry.2.name fun old => (old.getD ∅).insert entry.1 } := by
  apply if_neg
  intro known
  obtain ⟨old, found⟩ := NameMap.contains_iff.mp known
  rw [symbol?, found] at unknown
  cases unknown

theorem symbol?_addSymbol (entry : String × Symbol) :
    (addSymbol path graph entry).symbol? q =
      (graph.symbol? q).or (if entry.1 = q then some entry.2 else none) := by
  by_cases same : entry.1 = q
  · subst same
    cases found : graph.symbol? entry.1 with
    | none => simp [addSymbol_unknown found, symbol?, NameMap.get?_insert]
    | some old => simp [addSymbol_known found, found]
  · cases found : graph.symbol? entry.1 with
    | none => simp [addSymbol_unknown found, symbol?, NameMap.get?_insert, same, Ne.symm same]
    | some old => simp [addSymbol_known found, same]

theorem mem_ownedBy_addSymbol {owner : String} (entry : String × Symbol) :
    q ∈ (addSymbol path graph entry).ownedBy owner ↔
      q ∈ graph.ownedBy owner ∨ graph.symbol? entry.1 = none ∧ owner = path ∧ q = entry.1 := by
  cases found : graph.symbol? entry.1 with
  | none =>
    rw [addSymbol_unknown found, ownedBy, mem_alter_insert]
    simp [ownedBy]
  | some old => simp [addSymbol_known found]

theorem mem_matchCallee_addSymbol (entry : String × Symbol) :
    q ∈ (addSymbol path graph entry).matchCallee bare ↔
      q ∈ graph.matchCallee bare ∨
        graph.symbol? entry.1 = none ∧ bare = entry.2.name ∧ q = entry.1 := by
  cases found : graph.symbol? entry.1 with
  | none =>
    rw [addSymbol_unknown found, matchCallee, mem_alter_insert]
    simp [matchCallee]
  | some old => simp [addSymbol_known found]

theorem symbol?_addSymbols (entries : List (String × Symbol)) (graph : ProjectGraph) :
    (entries.foldl (addSymbol path) graph).symbol? q =
      (graph.symbol? q).or (NameMap.first? entries q) := by
  induction entries generalizing graph with
  | nil => simp [NameMap.first?]
  | cons e rest ih =>
    rw [List.foldl_cons, ih, symbol?_addSymbol, NameMap.first?_cons, Option.or_assoc]
    by_cases same : e.1 = q <;> simp [same]

theorem mem_ownedBy_addSymbols (entries : List (String × Symbol)) (graph : ProjectGraph)
    {owner : String} :
    q ∈ (entries.foldl (addSymbol path) graph).ownedBy owner ↔
      q ∈ graph.ownedBy owner ∨
        owner = path ∧ graph.symbol? q = none ∧ (NameMap.first? entries q).isSome := by
  induction entries generalizing graph with
  | nil => simp [NameMap.first?]
  | cons e rest ih =>
    rw [List.foldl_cons, ih, mem_ownedBy_addSymbol, symbol?_addSymbol, NameMap.first?_cons, or_assoc]
    by_cases same : e.1 = q
    · subst same
      simp [and_comm]
    · simp [same, Ne.symm same]

theorem mem_matchCallee_addSymbols (entries : List (String × Symbol)) (graph : ProjectGraph) :
    q ∈ (entries.foldl (addSymbol path) graph).matchCallee bare ↔
      q ∈ graph.matchCallee bare ∨
        graph.symbol? q = none ∧
          ∃ symbol, NameMap.first? entries q = some symbol ∧ symbol.name = bare := by
  induction entries generalizing graph with
  | nil => simp [NameMap.first?]
  | cons e rest ih =>
    rw [List.foldl_cons, ih, mem_matchCallee_addSymbol, symbol?_addSymbol, NameMap.first?_cons,
      or_assoc]
    by_cases same : e.1 = q
    · subst same
      simp [eq_comm]
    · simp [same, Ne.symm same]

theorem addFile_frame (graph : ProjectGraph) (file : SourceFile) (extraction : Extraction) :
    let merged := graph.addFile file extraction
    let path := file.relPath
    merged = {
      fileMap := graph.fileMap.insert path file
      imports := graph.imports.alter path (extend extraction.imports)
      exports := graph.exports.alter path (extend extraction.exports)
      calls := extraction.calls.toList.foldl
        (fun calls (caller, callees) => calls.alter caller (extend callees)) graph.calls
      moduleCalls := graph.moduleCalls.alter path (extend extraction.moduleCalls)
      symbolMap := merged.symbolMap
      owned := merged.owned
      byName := merged.byName
      localMap := graph.localMap.insert path (localsOf extraction) } := by
  simp only [addFile]
  rw [addSymbols_frame]
  rfl

theorem mem_callsOf_addFile (graph : ProjectGraph) (file : SourceFile) (extraction : Extraction) :
    x ∈ (graph.addFile file extraction).callsOf q ↔
      x ∈ graph.callsOf q ∨ ∃ callees, extraction.calls.get? q = some callees ∧ x ∈ callees := by
  simp only [NameMap.get?_eq_some_iff]
  rw [addFile_frame]
  exact mem_fold_extend

theorem symbol?_addFile (graph : ProjectGraph) (file : SourceFile) (extraction : Extraction) :
    (graph.addFile file extraction).symbol? q = (graph.symbol? q).or (extraction.symbols.get? q) :=
  symbol?_addSymbols extraction.symbols.entries _

theorem mem_ownedBy_addFile (graph : ProjectGraph) (file : SourceFile) (extraction : Extraction) :
    q ∈ (graph.addFile file extraction).ownedBy path ↔
      q ∈ graph.ownedBy path ∨
        path = file.relPath ∧ graph.symbol? q = none ∧ (extraction.symbols.get? q).isSome := by
  have opened : q ∈ ((graph.owned.alter file.relPath (·.getD ∅)).get? path).getD ∅ ↔
      q ∈ graph.ownedBy path := by
    rw [NameMap.get?_alter, ownedBy]
    by_cases same : path = file.relPath <;> simp [same]
  exact (mem_ownedBy_addSymbols extraction.symbols.entries _).trans (or_congr_left opened)

theorem mem_matchCallee_addFile (graph : ProjectGraph) (file : SourceFile) (extraction : Extraction) :
    q ∈ (graph.addFile file extraction).matchCallee bare ↔
      q ∈ graph.matchCallee bare ∨
        graph.symbol? q = none ∧
          ∃ symbol, extraction.symbols.get? q = some symbol ∧ symbol.name = bare :=
  mem_matchCallee_addSymbols extraction.symbols.entries _

/- All merges together. -/

theorem ofExtractions_concat (items : Items) (item : SourceFile × Extraction) :
    ofExtractions (items ++ [item]) = (ofExtractions items).addFile item.1 item.2 := by
  simp [ofExtractions]

theorem latest?_concat (items : Items) (item : SourceFile × Extraction) :
    latest? (items ++ [item]) path =
      if path = item.1.relPath then some item else latest? items path := by
  by_cases same : path = item.1.relPath
  · simp [latest?, same]
  · simp [latest?, same, Ne.symm same]

theorem provider?_concat (items : Items) (item : SourceFile × Extraction) :
    provider? (items ++ [item]) q =
      (provider? items q).or (if item.2.symbols.contains q then some item else none) := by
  by_cases here : item.2.symbols.contains q <;>
    simp [provider?, List.find?_append, here]

theorem mem_of_provider? (found : provider? items q = some item) :
    item ∈ items ∧ item.2.symbols.contains q = true :=
  ⟨List.mem_of_find?_eq_some found, by simpa using List.find?_some found⟩

/-- A table that each merge overwrites at the path of its file holds the latest items. -/
theorem get?_of_overwritten {α : Type} (table : ProjectGraph → NameMap α)
    (part : SourceFile → Extraction → α) (start : table {} = ∅)
    (step : ∀ graph file extraction, table (graph.addFile file extraction) =
      (table graph).insert file.relPath (part file extraction)) :
    (table (ofExtractions items)).get? path =
      (latest? items path).map fun item => part item.1 item.2 := by
  induction items using List.reverseRecOn with
  | nil =>
    change (table {}).get? path = none
    rw [start, NameMap.get?_empty]
  | append_singleton items item ih =>
    rw [ofExtractions_concat, step, NameMap.get?_insert, latest?_concat, ih]
    split <;> rfl

theorem file?_ofExtractions (items : Items) (path : String) :
    (ofExtractions items).file? path = (latest? items path).map (·.1) := by
  apply get?_of_overwritten ProjectGraph.fileMap fun file _ => file
  · rfl
  · intro graph file extraction
    rw [addFile_frame]

theorem locals?_ofExtractions (items : Items) (path : String) :
    (ofExtractions items).locals? path = (latest? items path).map (localsOf ·.2) := by
  apply get?_of_overwritten ProjectGraph.localMap fun _ extraction => localsOf extraction
  · rfl
  · intro graph file extraction
    rw [addFile_frame]

theorem exists_mem_concat {P : SourceFile × Extraction → Prop} :
    (∃ i ∈ items ++ [item], P i) ↔ (∃ i ∈ items, P i) ∨ P item := by
  simp [or_and_right, exists_or]

theorem ofExtractions_iff (holds : ProjectGraph → Prop) (gives : SourceFile × Extraction → Prop)
    (start : ¬holds {})
    (step : ∀ graph file extraction, holds (graph.addFile file extraction) ↔
      holds graph ∨ gives (file, extraction)) :
    holds (ofExtractions items) ↔ ∃ item ∈ items, gives item := by
  induction items using List.reverseRecOn with
  | nil => simpa [ofExtractions] using start
  | append_singleton items item ih => rw [ofExtractions_concat, step, ih, exists_mem_concat]

/-- A table that each merge extends at the path of its file holds what all items brought. -/
theorem mem_of_united (table : ProjectGraph → NameMap NameSet) (part : Extraction → NameSet)
    (start : table {} = ∅)
    (step : ∀ graph file extraction, table (graph.addFile file extraction) =
      (table graph).alter file.relPath (extend (part extraction))) :
    x ∈ ((table (ofExtractions items)).get? path).getD ∅ ↔
      ∃ item ∈ items, path = item.1.relPath ∧ x ∈ part item.2 := by
  apply ofExtractions_iff fun graph => x ∈ ((table graph).get? path).getD ∅
  · simp [start]
  · intro graph file extraction
    rw [step, mem_alter_extend]

theorem mem_importsOf_ofExtractions :
    x ∈ (ofExtractions items).importsOf path ↔
      ∃ item ∈ items, path = item.1.relPath ∧ x ∈ item.2.imports := by
  apply mem_of_united ProjectGraph.imports Extraction.imports
  · rfl
  · intro graph file extraction
    rw [addFile_frame]

theorem mem_exportsOf_ofExtractions :
    x ∈ (ofExtractions items).exportsOf path ↔
      ∃ item ∈ items, path = item.1.relPath ∧ x ∈ item.2.exports := by
  apply mem_of_united ProjectGraph.exports Extraction.exports
  · rfl
  · intro graph file extraction
    rw [addFile_frame]

theorem mem_moduleCallsOf_ofExtractions :
    x ∈ (ofExtractions items).moduleCallsOf path ↔
      ∃ item ∈ items, path = item.1.relPath ∧ x ∈ item.2.moduleCalls := by
  apply mem_of_united ProjectGraph.moduleCalls Extraction.moduleCalls
  · rfl
  · intro graph file extraction
    rw [addFile_frame]

theorem mem_callsOf_ofExtractions :
    x ∈ (ofExtractions items).callsOf q ↔
      ∃ item ∈ items, ∃ callees, item.2.calls.get? q = some callees ∧ x ∈ callees := by
  apply ofExtractions_iff (x ∈ ·.callsOf q)
  · simp [callsOf]
  · exact mem_callsOf_addFile

theorem symbol?_ofExtractions (items : Items) (q : String) :
    (ofExtractions items).symbol? q = (provider? items q).bind (·.2.symbols.get? q) := by
  induction items using List.reverseRecOn with
  | nil => rfl
  | append_singleton items item ih =>
    rw [ofExtractions_concat, symbol?_addFile, provider?_concat, ih]
    cases found : provider? items q with
    | none =>
      by_cases here : item.2.symbols.contains q
      · simp [here]
      · have none : item.2.symbols.get? q = none := by simpa [NameMap.contains] using here
        simp [here, none]
    | some first =>
      obtain ⟨symbol, has⟩ := NameMap.contains_iff.mp (mem_of_provider? found).2
      simp [has]

theorem mem_ownedBy_ofExtractions :
    q ∈ (ofExtractions items).ownedBy path ↔
      ∃ item, provider? items q = some item ∧ path = item.1.relPath := by
  induction items using List.reverseRecOn with
  | nil => simp [ofExtractions, ownedBy, provider?]
  | append_singleton items item ih =>
    rw [ofExtractions_concat, mem_ownedBy_addFile, ih, provider?_concat, symbol?_ofExtractions]
    cases found : provider? items q with
    | none =>
      by_cases here : (item.2.symbols.get? q).isSome <;> simp [NameMap.contains, here]
    | some first =>
      obtain ⟨symbol, has⟩ := NameMap.contains_iff.mp (mem_of_provider? found).2
      simp [has]

theorem mem_matchCallee_ofExtractions :
    q ∈ (ofExtractions items).matchCallee bare ↔
      ∃ symbol, (ofExtractions items).symbol? q = some symbol ∧ symbol.name = bare := by
  induction items using List.reverseRecOn with
  | nil => simp [ofExtractions, matchCallee, symbol?]
  | append_singleton items item ih =>
    rw [ofExtractions_concat, mem_matchCallee_addFile, ih, symbol?_addFile]
    cases (ofExtractions items).symbol? q <;> simp

theorem mem_symbolsIn_ofExtractions :
    (q, symbol) ∈ (ofExtractions items).symbolsIn path ↔
      ∃ item, provider? items q = some item ∧ path = item.1.relPath ∧
        item.2.symbols.get? q = some symbol := by
  have owned : (q, symbol) ∈ (ofExtractions items).symbolsIn path ↔
      q ∈ (ofExtractions items).ownedBy path ∧ (ofExtractions items).symbol? q = some symbol := by
    simp [symbolsIn, ownedBy]
  rw [owned, mem_ownedBy_ofExtractions, symbol?_ofExtractions]
  constructor
  · intro h
    obtain ⟨⟨item, found, at_path⟩, value⟩ := h
    exact ⟨item, found, at_path, by simpa [found] using value⟩
  · intro h
    obtain ⟨item, found, at_path, value⟩ := h
    exact ⟨⟨item, found, at_path⟩, by simpa [found] using value⟩

/- The files of a merged graph. -/

theorem relPath_of_file? {file : SourceFile} (found : (ofExtractions items).file? path = some file) :
    file.relPath = path := by
  rw [file?_ofExtractions] at found
  obtain ⟨item, latest, rfl⟩ := Option.map_eq_some_iff.mp found
  simpa using List.find?_some latest

theorem mem_files_ofExtractions {file : SourceFile} :
    file ∈ (ofExtractions items).files ↔ (ofExtractions items).file? file.relPath = some file := by
  rw [files, NameMap.mem_values]
  constructor
  · intro h
    obtain ⟨path, found⟩ := h
    exact (relPath_of_file? found).symm ▸ found
  · intro found
    exact ⟨_, found⟩

theorem files_increasing (items : Items) :
    (ofExtractions items).files.Pairwise (·.relPath < ·.relPath) := by
  refine List.pairwise_map.mpr ((ofExtractions items).fileMap.sorted.imp_of_mem ?_)
  intro a b ha hb lt
  have pathA : a.2.relPath = a.1 := relPath_of_file? (NameMap.get?_eq_some_iff.mpr ha)
  have pathB : b.2.relPath = b.1 := relPath_of_file? (NameMap.get?_eq_some_iff.mpr hb)
  rw [pathA, pathB]
  exact lt

theorem containsFile_iff {graph : ProjectGraph} :
    graph.containsFile path = true ↔ ∃ file, graph.file? path = some file :=
  NameMap.contains_iff

end ProjectGraph
end DeadCode
