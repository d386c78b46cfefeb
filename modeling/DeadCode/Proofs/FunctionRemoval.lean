import DeadCode.Proofs.Findings
import DeadCode.Proofs.ReachGrowth

/- Deleting functions that are not reached. Every call is matched against fewer names afterwards, but
   the names that went away were no match of a live call, for these are all reached. So the least
   closed set is the same, and the findings are the old ones without those about deleted names. -/
namespace DeadCode

/-- An extraction without the symbols of some qualified names and without what these call. -/
def Extraction.forget (gone : NameSet) (extraction : Extraction) : Extraction :=
  { extraction with
    symbols := extraction.symbols.filterKeys fun q => !gone.contains q
    calls := extraction.calls.filterKeys fun q => !gone.contains q }

namespace ProjectGraph

variable {items : Items} {gone files : NameSet} {path q bare : String} {symbol : Symbol}

def forget (gone : NameSet) (items : Items) : Items :=
  items.map fun item => (item.1, item.2.forget gone)

/- The tables after the deletion. -/

theorem latest?_forget (gone : NameSet) (items : Items) (path : String) :
    latest? (forget gone items) path =
      (latest? items path).map fun item => (item.1, item.2.forget gone) := by
  rw [latest?, latest?, forget, ← List.map_reverse, List.find?_map]
  rfl

theorem contains_forget (extraction : Extraction) :
    (extraction.forget gone).symbols.contains q =
      (!gone.contains q && extraction.symbols.contains q) := by
  rw [NameMap.contains, NameMap.contains, Extraction.forget, NameMap.get?_filterKeys]
  cases gone.contains q <;> rfl

theorem provider?_forget (kept : q ∉ gone) :
    provider? (forget gone items) q =
      (provider? items q).map fun item => (item.1, item.2.forget gone) := by
  have stays : gone.contains q = false := by simpa [NameSet.contains] using kept
  have same : ∀ item : SourceFile × Extraction,
      (item.2.forget gone).symbols.contains q = item.2.symbols.contains q := by
    intro item
    rw [contains_forget, stays]
    rfl
  rw [provider?, provider?, forget, List.find?_map]
  exact congrArg (Option.map _) (congrArg (List.find? · items) (funext same))

theorem provider?_forget_gone (deleted : q ∈ gone) : provider? (forget gone items) q = none := by
  apply List.find?_eq_none.mpr
  intro item hi
  obtain ⟨_, _, rfl⟩ := List.mem_map.mp hi
  simp [contains_forget, NameSet.contains_iff.mpr deleted]

theorem symbol?_forget (items : Items) (q : String) :
    (ofExtractions (forget gone items)).symbol? q =
      if q ∈ gone then none else (ofExtractions items).symbol? q := by
  rw [symbol?_ofExtractions, symbol?_ofExtractions]
  split
  · next deleted => rw [provider?_forget_gone deleted]; rfl
  · next kept =>
    rw [provider?_forget kept, Option.bind_map]
    apply Option.bind_congr
    intro item _
    simp [Extraction.forget, NameMap.get?_filterKeys, NameSet.contains, kept]

theorem mem_ownedBy_forget :
    q ∈ (ofExtractions (forget gone items)).ownedBy path ↔
      q ∈ (ofExtractions items).ownedBy path ∧ q ∉ gone := by
  rw [mem_ownedBy_ofExtractions, mem_ownedBy_ofExtractions]
  by_cases deleted : q ∈ gone
  · simp [provider?_forget_gone deleted, deleted]
  · simp [provider?_forget deleted, deleted]

theorem symbolsIn_forget (items : Items) (path : String) :
    (ofExtractions (forget gone items)).symbolsIn path =
      ((ofExtractions items).symbolsIn path).filter fun entry => !gone.contains entry.1 := by
  rw [symbolsIn_eq_filter, symbolsIn_eq_filter]
  apply eq_of_increasing (·.1)
  · exact (ofExtractions (forget gone items)).symbolMap.sorted.filter _
  · exact ((ofExtractions items).symbolMap.sorted.filter _).filter _
  · intro entry
    have known : ∀ graph : ProjectGraph,
        entry ∈ graph.symbols ↔ graph.symbol? entry.1 = some entry.2 :=
      fun graph => NameMap.get?_eq_some_iff.symm
    simp only [List.mem_filter, NameSet.contains_iff, known, symbol?_forget, mem_ownedBy_forget]
    by_cases deleted : entry.1 ∈ gone <;> simp [deleted, NameSet.contains]

theorem mem_matchCallee_forget :
    q ∈ (ofExtractions (forget gone items)).matchCallee bare ↔
      q ∈ (ofExtractions items).matchCallee bare ∧ q ∉ gone := by
  rw [mem_matchCallee_ofExtractions, mem_matchCallee_ofExtractions, symbol?_forget]
  by_cases deleted : q ∈ gone <;> simp [deleted]

theorem mem_callsOf_forget :
    bare ∈ (ofExtractions (forget gone items)).callsOf q ↔
      bare ∈ (ofExtractions items).callsOf q ∧ q ∉ gone := by
  rw [mem_callsOf_ofExtractions, mem_callsOf_ofExtractions]
  by_cases deleted : q ∈ gone
  · simp [forget, Extraction.forget, NameMap.get?_filterKeys, NameSet.contains, deleted]
  · simp [forget, Extraction.forget, NameMap.get?_filterKeys, NameSet.contains, deleted]

theorem exists_item_forget {P : SourceFile → Extraction → Prop}
    (same : ∀ file extraction, P file (extraction.forget gone) ↔ P file extraction) :
    (∃ item ∈ forget gone items, P item.1 item.2) ↔ ∃ item ∈ items, P item.1 item.2 := by
  simp [forget, same]

theorem importsOf_forget (gone : NameSet) (items : Items) (path : String) :
    (ofExtractions (forget gone items)).importsOf path = (ofExtractions items).importsOf path := by
  apply NameSet.eq_of_members
  intro x
  rw [mem_importsOf_ofExtractions, mem_importsOf_ofExtractions]
  exact exists_item_forget (P := fun file extraction => path = file.relPath ∧ x ∈ extraction.imports)
    fun _ _ => Iff.rfl

theorem exportsOf_forget (gone : NameSet) (items : Items) (path : String) :
    (ofExtractions (forget gone items)).exportsOf path = (ofExtractions items).exportsOf path := by
  apply NameSet.eq_of_members
  intro x
  rw [mem_exportsOf_ofExtractions, mem_exportsOf_ofExtractions]
  exact exists_item_forget (P := fun file extraction => path = file.relPath ∧ x ∈ extraction.exports)
    fun _ _ => Iff.rfl

theorem moduleCallsOf_forget (gone : NameSet) (items : Items) (path : String) :
    (ofExtractions (forget gone items)).moduleCallsOf path =
      (ofExtractions items).moduleCallsOf path := by
  apply NameSet.eq_of_members
  intro x
  rw [mem_moduleCallsOf_ofExtractions, mem_moduleCallsOf_ofExtractions]
  exact exists_item_forget
    (P := fun file extraction => path = file.relPath ∧ x ∈ extraction.moduleCalls) fun _ _ => Iff.rfl

theorem file?_forget (gone : NameSet) (items : Items) (path : String) :
    (ofExtractions (forget gone items)).file? path = (ofExtractions items).file? path := by
  rw [file?_ofExtractions, file?_ofExtractions, latest?_forget, Option.map_map]
  rfl

theorem locals?_forget (gone : NameSet) (items : Items) (path : String) :
    (ofExtractions (forget gone items)).locals? path = (ofExtractions items).locals? path := by
  rw [locals?_ofExtractions, locals?_ofExtractions, latest?_forget, Option.map_map]
  rfl

theorem fileMap_forget (gone : NameSet) (items : Items) :
    (ofExtractions (forget gone items)).fileMap = (ofExtractions items).fileMap :=
  NameMap.eq_of_get? (file?_forget gone items)

theorem files_forget (gone : NameSet) (items : Items) :
    (ofExtractions (forget gone items)).files = (ofExtractions items).files := by
  rw [files, files, fileMap_forget]

/- The reach after the deletion. -/

theorem reachedFiles_forget (gone : NameSet) (items : Items) :
    (ofExtractions (forget gone items)).ownReach.files = (ofExtractions items).ownReach.files := by
  have targets : ∀ index, (ofExtractions (forget gone items)).importTargets index =
      (ofExtractions items).importTargets index := by
    intro index
    funext path
    rw [importTargets, importTargets, importsOf_forget]
  change (ofExtractions (forget gone items)).reachableFiles _ = (ofExtractions items).reachableFiles _
  rw [reachableFiles, reachableFiles, targets, entryFiles, entryFiles, files_forget, fileMap_forget]

theorem liveAlone_forget {file : SourceFile} :
    LiveAlone (ofExtractions (forget gone items)) files file q symbol ↔
      LiveAlone (ofExtractions items) files file q symbol := by
  simp only [LiveAlone, ImportedByName, exportsOf_forget, importsOf_forget]

theorem listedSymbol_forget {file : SourceFile} :
    ListedSymbol (ofExtractions (forget gone items)) files file q symbol ↔
      ListedSymbol (ofExtractions items) files file q symbol ∧ q ∉ gone := by
  constructor
  · intro h
    obtain ⟨listed, present, owned⟩ := h
    rw [symbolsIn_forget, List.mem_filter] at owned
    rw [file?_forget] at present
    exact ⟨⟨listed, present, owned.1⟩, by simpa [NameSet.contains] using owned.2⟩
  · intro h
    obtain ⟨⟨listed, present, owned⟩, kept⟩ := h
    refine ⟨listed, (file?_forget gone items _).trans present, ?_⟩
    rw [symbolsIn_forget, List.mem_filter]
    exact ⟨owned, by simpa [NameSet.contains] using kept⟩

theorem functions_closed_forget :
    CallClosed (ofExtractions (forget gone items)) files
      {q | q ∈ (ofExtractions items).reachableFunctions files} := by
  have old := (@reachableFunctions_isLeast items files).1
  constructor
  · intro file q symbol listed live
    exact old.alone file q symbol (listedSymbol_forget.mp listed).1 (liveAlone_forget.mp live)
  · intro path hp present bare hb q hq
    rw [moduleCallsOf_forget] at hb
    rw [containsFile, fileMap_forget] at present
    exact old.body path hp present bare hb q (mem_matchCallee_forget.mp hq).1
  · intro caller hc bare hb q hq
    exact old.call caller hc bare (mem_callsOf_forget.mp hb).1 q (mem_matchCallee_forget.mp hq).1

/-- What both reach is closed under all calls: a live call matches live names only, and none of them
    was deleted. -/
theorem common_functions_closed
    (unreached : ∀ q ∈ gone, q ∉ (ofExtractions items).reachableFunctions files) :
    CallClosed (ofExtractions items) files
      {q | q ∈ (ofExtractions (forget gone items)).reachableFunctions files ∧
        q ∈ (ofExtractions items).reachableFunctions files} := by
  have old := (@reachableFunctions_isLeast items files).1
  have new := (@reachableFunctions_isLeast (forget gone items) files).1
  have stays : ∀ q ∈ (ofExtractions items).reachableFunctions files, q ∉ gone :=
    fun q reached deleted => unreached q deleted reached
  constructor
  · intro file q symbol listed live
    have reached := old.alone file q symbol listed live
    have still := listedSymbol_forget.mpr ⟨listed, stays q reached⟩
    exact ⟨new.alone file q symbol still (liveAlone_forget.mpr live), reached⟩
  · intro path hp present bare hb q hq
    have reached := old.body path hp present bare hb q hq
    refine ⟨new.body path hp ?_ bare ?_ q (mem_matchCallee_forget.mpr ⟨hq, stays q reached⟩), reached⟩
    · rwa [containsFile, fileMap_forget]
    · rwa [moduleCallsOf_forget]
  · intro caller hc bare hb q hq
    have reached := old.call caller hc.2 bare hb q hq
    have calls := mem_callsOf_forget.mpr ⟨hb, stays caller hc.2⟩
    exact ⟨new.call caller hc.1 bare calls q (mem_matchCallee_forget.mpr ⟨hq, stays q reached⟩),
      reached⟩

theorem reachableFunctions_forget
    (unreached : ∀ q ∈ gone, q ∉ (ofExtractions items).reachableFunctions files) :
    (ofExtractions (forget gone items)).reachableFunctions files =
      (ofExtractions items).reachableFunctions files := by
  apply NameSet.eq_of_members
  intro q
  constructor
  · exact fun mem => reachableFunctions_isLeast.2 functions_closed_forget mem
  · exact fun mem => (reachableFunctions_isLeast.2 (common_functions_closed unreached) mem).1

section Findings

variable (unreached : ∀ q ∈ gone, q ∉ (ofExtractions items).ownReach.functions)
include unreached

theorem ownReach_forget :
    (ofExtractions (forget gone items)).ownReach = (ofExtractions items).ownReach := by
  have files := reachedFiles_forget gone items
  have functions : (ofExtractions (forget gone items)).ownReach.functions =
      (ofExtractions items).ownReach.functions := by
    change (ofExtractions (forget gone items)).reachableFunctions
      (ofExtractions (forget gone items)).ownReach.files = _
    rw [files]
    exact reachableFunctions_forget unreached
  cases before : (ofExtractions items).ownReach
  cases after : (ofExtractions (forget gone items)).ownReach
  simp_all

theorem deadFiles_forget :
    Classify.deadFiles (ofExtractions (forget gone items))
        (ofExtractions (forget gone items)).ownReach =
      Classify.deadFiles (ofExtractions items) (ofExtractions items).ownReach := by
  have findings : Classify.deadFileFinding (ofExtractions (forget gone items)) =
      Classify.deadFileFinding (ofExtractions items) := by
    funext file
    rw [Classify.deadFileFinding, Classify.deadFileFinding, locals?_forget]
  rw [Classify.deadFiles, Classify.deadFiles, ownReach_forget unreached, files_forget, findings]

theorem unusedImports_forget :
    Classify.unusedImports (ofExtractions (forget gone items))
        (ofExtractions (forget gone items)).ownReach =
      Classify.unusedImports (ofExtractions items) (ofExtractions items).ownReach := by
  simp only [Classify.unusedImports, ownReach_forget unreached, file?_forget, locals?_forget]

theorem deadFunctions_forget (minLines : Nat) :
    Classify.deadFunctions (ofExtractions (forget gone items))
        (ofExtractions (forget gone items)).ownReach minLines =
      (Classify.deadFunctions (ofExtractions items) (ofExtractions items).ownReach minLines).filter
        fun finding => finding.name.all fun q => !gone.contains q := by
  have symbols : (ofExtractions (forget gone items)).symbolsIn = fun path =>
      ((ofExtractions items).symbolsIn path).filter fun entry => !gone.contains entry.1 := by
    funext path
    exact symbolsIn_forget items path
  rw [Classify.deadFunctions, Classify.deadFunctions,
    ← Ranking.sort_filter Classify.lawful_deadFunctions, ownReach_forget unreached, symbols,
    ← List.filter_flatMap, List.filter_map, List.filter_comm]
  rfl

end Findings

/-- Deleting functions that are not reached, such as those reported as dead, changes neither what is
    reached nor the dead files and unused imports, and of the dead functions it takes away just the
    deleted ones. -/
theorem analyze_forget_unreached (items : Items) (gone : NameSet) (minLines : Nat)
    (diagnostics : List Diagnostic) (timestamp : String)
    (unreached : ∀ q ∈ gone, q ∉ (ofExtractions items).ownReach.functions) :
    let old := ofExtractions items
    let new := ofExtractions (forget gone items)
    let before := old.analyze minLines diagnostics timestamp
    let after := new.analyze minLines diagnostics timestamp
    new.ownReach = old.ownReach ∧
      after.deadFiles = before.deadFiles ∧
      after.unusedImports = before.unusedImports ∧
      after.deadFunctions = before.deadFunctions.filter (fun finding =>
        finding.name.all fun q => !gone.contains q) ∧
      ∀ finding ∈ before.deadFunctions, ∃ q, finding.name = some q ∧ q ∉ old.ownReach.functions := by
  intro old new before after
  refine ⟨ownReach_forget unreached, deadFiles_forget unreached, unusedImports_forget unreached,
    deadFunctions_forget unreached minLines, ?_⟩
  intro finding mem
  obtain ⟨q, symbol, dead, rfl⟩ := mem_deadFunctions.mp mem
  exact ⟨q, rfl, dead.unreached⟩

theorem ownFunctions_within {kept : List String}
    (seeds : ∀ x ∈ (ofExtractions items).functionSeeds (ofExtractions items).fileMap.keys, x ∈ kept)
    (calls : ∀ x ∈ kept, ∀ y ∈ (ofExtractions items).callTargets ((ofExtractions items).callsOf x),
      y ∈ kept) : ∀ q ∈ (ofExtractions items).ownReach.functions, q ∈ kept := by
  intro q mem
  have closed : Worklist.Closed (ofExtractions items).symbolMap.keys
      (fun q => (ofExtractions items).callTargets ((ofExtractions items).callsOf q))
      ((ofExtractions items).functionSeeds (ofExtractions items).fileMap.keys) {x | x ∈ kept} :=
    ⟨fun x hx _ => seeds x hx, fun x hx y hy _ => calls x hx y hy⟩
  have fromAll : q ∈ (ofExtractions items).reachableFunctions (ofExtractions items).fileMap.keys :=
    reachableFunctions_of_more (.refl _) (.refl _) (.refl _)
      (fun path reached => mem_fileMap_keys.mpr (reachableFiles_inside reached)) mem
  exact Worklist.closure_subset closed fromAll

/- A function that nothing calls goes away with one of another file that only it calls; what both
   call stays live. -/

def tidyItems : Items :=
  [(SourceFile.ofPath "start.py",
    { moduleCalls := .ofList ["load"]
      symbols := .ofList [("start.load", { name := "load", file := "start.py" }),
        ("start.old", { name := "old", file := "start.py" })]
      calls := .ofList [("start.load", .ofList ["parse"]), ("start.old", .ofList ["parse", "stale"])] }),
   (SourceFile.ofPath "lib/text.py",
    { symbols := .ofList [("lib.text.parse", { name := "parse", file := "lib/text.py" }),
        ("lib.text.stale", { name := "stale", file := "lib/text.py" })]
      calls := .ofList [("lib.text.stale", .ofList ["load"])] })]

theorem tidy_reached : ∀ q ∈ (ofExtractions tidyItems).ownReach.functions,
    q ∈ ["start.load", "lib.text.parse"] :=
  ownFunctions_within (by decide +kernel) (by decide +kernel)

theorem tidy_forget_unreached :
    let gone := NameSet.ofList ["lib.text.stale", "start.old"]
    let old := ofExtractions tidyItems
    let new := ofExtractions (forget gone tidyItems)
    (∀ q ∈ gone, q ∉ old.ownReach.functions) ∧
      new.ownReach.functions = old.ownReach.functions ∧
      (new.analyze 1 [] "").deadFunctions = (old.analyze 1 [] "").deadFunctions.filter (fun finding =>
        finding.name.all fun q => !gone.contains q) := by
  intro gone old new
  have unreached : ∀ q ∈ gone, q ∉ old.ownReach.functions := by
    intro q deleted reached
    have live := tidy_reached q reached
    simp only [gone, NameSet.mem_ofList, List.mem_cons, List.not_mem_nil, or_false] at deleted live
    rcases deleted with rfl | rfl <;> simp at live
  obtain ⟨reach, _, _, dead, _⟩ := analyze_forget_unreached tidyItems gone 1 [] "" unreached
  exact ⟨unreached, congrArg Reach.functions reach, dead⟩

end ProjectGraph
end DeadCode
