import Mathlib.Data.List.Basic
import DeadCode.Proofs.CallReach
import DeadCode.Proofs.PackageImports
import DeadCode.Proofs.Rankings

/- Deleting files that are not reached. A name of the index changes its meaning only when the file
   it leads to is deleted, and every file that an import of a reached file leads to is reached. So
   the imports of reached files resolve as before, and the second analysis repeats the first. -/
namespace DeadCode.ProjectGraph

open ModuleIndex

variable {items : Items} {gone : NameSet} {path m q : String}

def without (gone : NameSet) (items : Items) : Items :=
  items.filter fun item => !gone.contains item.1.relPath

theorem mem_without {item : SourceFile × Extraction} :
    item ∈ without gone items ↔ item ∈ items ∧ item.1.relPath ∉ gone := by
  simp [without, NameSet.contains]

theorem hasPath_without : HasPath (without gone items) path ↔ HasPath items path ∧ path ∉ gone := by
  constructor
  · intro h
    obtain ⟨item, hi, rfl⟩ := h
    obtain ⟨old, kept⟩ := mem_without.mp hi
    exact ⟨⟨item, old, rfl⟩, kept⟩
  · intro h
    obtain ⟨⟨item, hi, rfl⟩, kept⟩ := h
    exact ⟨item, mem_without.mpr ⟨hi, kept⟩, rfl⟩

theorem latest?_without (kept : path ∉ gone) :
    latest? (without gone items) path = latest? items path := by
  rw [latest?, latest?, without, ← List.filter_reverse, List.find?_filter]
  congr 1
  funext item
  by_cases same : item.1.relPath = path
  · simp [same, NameSet.contains, kept]
  · simp [same]

theorem Layout.remaining (layout : Layout items) : Layout (without gone items) where
  distinct := layout.distinct.filter _
  plain := fun item hi => layout.plain item (mem_without.mp hi).1

theorem exists_item_without {P : SourceFile × Extraction → Prop} (kept : path ∉ gone) :
    (∃ item ∈ without gone items, path = item.1.relPath ∧ P item) ↔
      ∃ item ∈ items, path = item.1.relPath ∧ P item := by
  constructor
  · intro h
    obtain ⟨item, hi, same, holds⟩ := h
    exact ⟨item, (mem_without.mp hi).1, same, holds⟩
  · intro h
    obtain ⟨item, hi, rfl, holds⟩ := h
    exact ⟨item, mem_without.mpr ⟨hi, kept⟩, rfl, holds⟩

theorem importsOf_without (kept : path ∉ gone) :
    (ofExtractions (without gone items)).importsOf path = (ofExtractions items).importsOf path := by
  apply NameSet.eq_of_members
  intro x
  rw [mem_importsOf_ofExtractions, mem_importsOf_ofExtractions, exists_item_without kept]

/- The index after the deletion. -/

section Index

variable (layout : Layout items)
include layout

theorem get?_without_of_kept (found : (ownIndex items).modules.get? m = some path)
    (kept : path ∉ gone) : (ownIndex (without gone items)).modules.get? m = some path := by
  obtain ⟨a, rfl, which, listed⟩ := address_of_get? layout.files_addressed found
  have rest : Layout (without gone items) := layout.remaining
  have addressed := rest.files_addressed
  have stays : Listed (ofExtractions (without gone items)).files path :=
    listed_files.mpr (hasPath_without.mpr ⟨listed_files.mp listed, kept⟩)
  by_cases own : Listed (ofExtractions items).files a.path
  · have same := found.symm.trans (get?_of_file layout.files_addressed (files_increasing items) own)
    cases same
    exact get?_of_file addressed (files_increasing _) stays
  · rcases which with rfl | rfl
    · exact absurd listed own
    · refine get?_of_marker addressed (fun now => own ?_) stays
      exact listed_files.mpr (hasPath_without.mp (listed_files.mp now)).1

theorem get?_without_of_unknown (unknown : (ownIndex items).modules.get? m = none) :
    (ownIndex (without gone items)).modules.get? m = none := by
  apply Option.eq_none_iff_forall_ne_some.mpr
  intro path found
  obtain ⟨a, rfl, which, listed⟩ := address_of_get? layout.remaining.files_addressed found
  have before := listed_files.mpr (hasPath_without.mp (listed_files.mp listed)).1
  have absent := (get?_eq_none_iff layout.files_addressed (files_increasing items)).mp unknown
  rcases which with rfl | rfl
  · exact absent.1 before
  · exact absent.2 before

theorem nested?_without
    (reached : ∀ path, (ownIndex items).nested? m = some path → path ∉ gone) :
    (ownIndex (without gone items)).nested? m = (ownIndex items).nested? m := by
  have fewer : ∀ key ∈ (ownIndex (without gone items)).modules.keys,
      key ∈ (ownIndex items).modules.keys := by
    intro key hk
    obtain ⟨path, known⟩ := NameMap.mem_keys.mp hk
    refine NameMap.mem_keys.mpr (Option.ne_none_iff_exists'.mp fun unknown => ?_)
    rw [get?_without_of_unknown layout unknown] at known
    cases known
  cases found : (ownIndex items).nested? m with
  | none =>
    have none := nested?_eq_none_iff.mp found
    exact nested?_eq_none_iff.mpr fun key hk => none key (fewer key hk)
  | some path =>
    obtain ⟨key, known, shared, least⟩ := nested?_eq_some_iff.mp found
    refine nested?_eq_some_iff.mpr ⟨key, ?_, shared, fun other ho => least other (fewer other ho)⟩
    exact get?_without_of_kept layout known (reached path found)

theorem resolveImports_without {imports : List String}
    (reached : ∀ pair ∈ (ownIndex items).resolveImports imports, pair.2 ∉ gone) :
    (ownIndex (without gone items)).resolveImports imports =
      (ownIndex items).resolveImports imports := by
  have rest : Layout (without gone items) := layout.remaining
  have hit : ∀ m ∈ imports, ∀ path, (ownIndex items).target? imports m = some path → path ∉ gone := by
    intro m hm path found
    exact reached (m, path) (List.mem_filterMap.mpr ⟨m, hm, by rw [found]; rfl⟩)
  have same : ∀ m ∈ imports, (ownIndex (without gone items)).modules.get? m =
      (ownIndex items).modules.get? m := by
    intro m hm
    cases found : (ownIndex items).modules.get? m with
    | none => exact get?_without_of_unknown layout found
    | some path =>
      exact get?_without_of_kept layout found (hit m hm path (layout.target?_of_known found))
  have covered : ∀ m, imports.any ((ownIndex (without gone items)).covers m) =
      imports.any ((ownIndex items).covers m) := by
    intro m
    rw [Bool.eq_iff_iff, List.any_eq_true, List.any_eq_true]
    apply exists_congr
    intro longer
    apply and_congr_right
    intro hl
    rw [covers, covers, rest.resolveDirect_eq, layout.resolveDirect_eq, same longer hl]
  apply List.filterMap_congr
  intro m hm
  cases found : (ownIndex items).modules.get? m with
  | some path =>
    rw [layout.target?_of_known found, rest.target?_of_known ((same m hm).trans found)]
  | none =>
    have target := hit m hm
    rw [rest.target?_of_unknown ((same m hm).trans found), covered]
    rw [layout.target?_of_unknown found] at target ⊢
    by_cases skipped : (imports.any ((ownIndex items).covers m) || m == "") = true
    · rw [if_pos skipped, if_pos skipped]
    · rw [if_neg skipped, if_neg skipped]
      rw [if_neg skipped] at target
      rw [nested?_without layout target]

end Index

/- The reach after the deletion. -/

section Reach

variable (layout : Layout items)
  (unreached : ∀ path ∈ gone, path ∉ (ofExtractions items).ownReach.files)
include layout unreached

/-- A reached file stays, with its imports, and they lead where they led. -/
theorem importEdge_without {source target : String}
    (reached : source ∈ (ofExtractions items).ownReach.files) :
    ImportEdge (ofExtractions (without gone items)) (ownIndex (without gone items)) source target ↔
      ImportEdge (ofExtractions items) (ownIndex items) source target := by
  have closed := (@reachableFiles_isLeast items (ownIndex items)).1
  have stays : ∀ target, ImportEdge (ofExtractions items) (ownIndex items) source target →
      target ∉ gone := fun target edge deleted =>
    unreached target deleted (closed.edge source reached target edge)
  have inside : ∀ pair ∈ (ownIndex items).resolveImports
      ((ofExtractions items).importsOf source).toList, pair.2 ∉ gone := by
    intro h found
    obtain ⟨name, target⟩ := h
    obtain ⟨m, _, resolved⟩ := List.mem_filterMap.mp found
    obtain ⟨path, resolved, same⟩ := Option.map_eq_some_iff.mp resolved
    cases same
    have has := containsFile_ofExtractions.mpr (layout.hasPath_of_target? resolved)
    exact stays target ⟨has, name, found⟩
  have kept : source ∉ gone := fun deleted => unreached source deleted reached
  rw [ImportEdge, ImportEdge, importsOf_without kept, resolveImports_without layout inside,
    containsFile_ofExtractions, containsFile_ofExtractions, hasPath_without]
  constructor
  · intro h
    obtain ⟨⟨has, _⟩, leads⟩ := h
    exact ⟨has, leads⟩
  · intro h
    obtain ⟨has, leads⟩ := h
    exact ⟨⟨has, stays target ⟨containsFile_ofExtractions.mpr has, leads⟩⟩, leads⟩

theorem reach_closed_without :
    ImportClosed (ofExtractions (without gone items)) (ownIndex (without gone items))
      {path | path ∈ (ofExtractions items).ownReach.files} := by
  have old := (@reachableFiles_isLeast items (ownIndex items)).1
  constructor
  · intro path h
    obtain ⟨present, entry⟩ := h
    have has := (hasPath_without.mp (containsFile_ofExtractions.mp present)).1
    exact old.entry path ⟨containsFile_ofExtractions.mpr has, entry⟩
  · intro source hs target step
    exact old.edge source hs target ((importEdge_without layout unreached hs).mp step)

/-- What both analyses reach is closed under the imports of all files. -/
theorem common_reach_closed :
    ImportClosed (ofExtractions items) (ownIndex items)
      {path | path ∈ (ofExtractions (without gone items)).ownReach.files ∧
        path ∈ (ofExtractions items).ownReach.files} := by
  have old := (@reachableFiles_isLeast items (ownIndex items)).1
  have new := (@reachableFiles_isLeast (without gone items) (ownIndex (without gone items))).1
  constructor
  · intro path h
    obtain ⟨present, entry⟩ := h
    have reached := old.entry path ⟨present, entry⟩
    have has := hasPath_without.mpr
      ⟨containsFile_ofExtractions.mp present, fun deleted => unreached path deleted reached⟩
    exact ⟨new.entry path ⟨containsFile_ofExtractions.mpr has, entry⟩, reached⟩
  · intro source h target step
    obtain ⟨now, before⟩ := h
    refine ⟨new.edge source now target ?_, old.edge source before target step⟩
    exact (importEdge_without layout unreached before).mpr step

theorem reachedFiles_without :
    (ofExtractions (without gone items)).ownReach.files = (ofExtractions items).ownReach.files := by
  refine NameSet.eq_of_members fun path => ⟨fun mem => ?_, fun mem => ?_⟩
  · exact reachableFiles_isLeast.2 (reach_closed_without layout unreached) mem
  · exact (reachableFiles_isLeast.2 (common_reach_closed layout unreached) mem).1

end Reach

/- The findings after the deletion. -/

theorem file?_without (kept : path ∉ gone) :
    (ofExtractions (without gone items)).file? path = (ofExtractions items).file? path := by
  rw [file?_ofExtractions, file?_ofExtractions, latest?_without kept]

theorem locals?_without (kept : path ∉ gone) :
    (ofExtractions (without gone items)).locals? path = (ofExtractions items).locals? path := by
  rw [locals?_ofExtractions, locals?_ofExtractions, latest?_without kept]

theorem files_without (gone : NameSet) (items : Items) :
    (ofExtractions (without gone items)).files =
      (ofExtractions items).files.filter fun file => !gone.contains file.relPath := by
  apply eq_of_increasing (·.relPath) (files_increasing _) ((files_increasing items).filter _)
  intro file
  rw [List.mem_filter, mem_files_ofExtractions, mem_files_ofExtractions]
  by_cases kept : file.relPath ∈ gone
  · have absent : (ofExtractions (without gone items)).file? file.relPath = none := by
      apply Option.eq_none_iff_forall_ne_some.mpr
      intro other found
      have has := containsFile_ofExtractions.mp (containsFile_iff.mpr ⟨other, found⟩)
      exact (hasPath_without.mp has).2 kept
    simp [absent, NameSet.contains, kept]
  · simp [file?_without kept, NameSet.contains, kept]

section Findings

variable (layout : Layout items)
  (unreached : ∀ path ∈ gone, path ∉ (ofExtractions items).ownReach.files)
include layout unreached

theorem unusedImports_without :
    Classify.unusedImports (ofExtractions (without gone items))
        (ofExtractions (without gone items)).ownReach =
      Classify.unusedImports (ofExtractions items) (ofExtractions items).ownReach := by
  rw [Classify.unusedImports, Classify.unusedImports, reachedFiles_without layout unreached]
  refine congrArg _ (List.flatMap_congr fun path reached => ?_)
  have kept : path ∉ gone := fun deleted => unreached path deleted reached
  rw [file?_without kept, locals?_without kept]

theorem deadFiles_without :
    Classify.deadFiles (ofExtractions (without gone items))
        (ofExtractions (without gone items)).ownReach =
      (Classify.deadFiles (ofExtractions items) (ofExtractions items).ownReach).filter
        fun finding => !gone.contains finding.file := by
  rw [Classify.deadFiles, Classify.deadFiles, ← Ranking.sort_filter Classify.lawful_deadFiles,
    List.filter_map, files_without, reachedFiles_without layout unreached, List.filter_comm,
    List.filter_filter, List.filter_filter]
  refine congrArg _ (List.map_congr_left fun file mem => ?_)
  have kept : file.relPath ∉ gone := by
    have stays := (Bool.and_eq_true_iff.mp (List.mem_filter.mp mem).2).1
    simpa [NameSet.contains] using stays
  rw [Classify.deadFileFinding, Classify.deadFileFinding, locals?_without kept]

end Findings

/- Function reach after the deletion, when no name is defined by two items. -/

def SymbolsApart (items : Items) : Prop :=
  items.Pairwise fun first second =>
    ∀ q, ¬(first.2.symbols.contains q = true ∧ second.2.symbols.contains q = true)

theorem SymbolsApart.provider?_iff (apart : SymbolsApart items) {item : SourceFile × Extraction} :
    provider? items q = some item ↔ item ∈ items ∧ item.2.symbols.contains q = true := by
  constructor
  · exact mem_of_provider?
  · intro h
    obtain ⟨hi, defines⟩ := h
    cases found : provider? items q with
    | none => exact absurd defines (List.find?_eq_none.mp found item hi)
    | some other =>
      refine congrArg some (by_contra fun differ => ?_)
      have symmetric : Std.Symm fun first second : SourceFile × Extraction =>
          ∀ q, ¬(first.2.symbols.contains q = true ∧ second.2.symbols.contains q = true) :=
        ⟨fun _ _ clash q both => clash q both.symm⟩
      obtain ⟨ho, also⟩ := mem_of_provider? found
      exact apart.forall ho hi differ q ⟨also, defines⟩

theorem SymbolsApart.remaining (apart : SymbolsApart items) : SymbolsApart (without gone items) :=
  apart.filter _

section Functions

variable (apart : SymbolsApart items)
include apart

theorem provider?_without {item : SourceFile × Extraction} :
    provider? (without gone items) q = some item ↔
      provider? items q = some item ∧ item.1.relPath ∉ gone := by
  have rest : SymbolsApart (without gone items) := apart.remaining
  rw [rest.provider?_iff, apart.provider?_iff, mem_without]
  exact and_right_comm

theorem mem_symbolsIn_without {symbol : Symbol} (kept : path ∉ gone) :
    (q, symbol) ∈ (ofExtractions (without gone items)).symbolsIn path ↔
      (q, symbol) ∈ (ofExtractions items).symbolsIn path := by
  simp only [mem_symbolsIn_ofExtractions, provider?_without apart]
  constructor
  · intro h
    obtain ⟨item, ⟨found, _⟩, same, defines⟩ := h
    exact ⟨item, found, same, defines⟩
  · intro h
    obtain ⟨item, found, rfl, defines⟩ := h
    exact ⟨item, ⟨found, kept⟩, rfl, defines⟩

theorem symbol?_of_without {symbol : Symbol}
    (found : (ofExtractions (without gone items)).symbol? q = some symbol) :
    (ofExtractions items).symbol? q = some symbol := by
  rw [symbol?_ofExtractions] at found ⊢
  obtain ⟨item, provided, defines⟩ := Option.bind_eq_some_iff.mp found
  exact Option.bind_eq_some_iff.mpr ⟨item, ((provider?_without apart).mp provided).1, defines⟩

theorem matchCallee_of_without {bare : String}
    (mem : q ∈ (ofExtractions (without gone items)).matchCallee bare) :
    q ∈ (ofExtractions items).matchCallee bare := by
  obtain ⟨symbol, found, named⟩ := mem_matchCallee_ofExtractions.mp mem
  exact mem_matchCallee_ofExtractions.mpr ⟨symbol, symbol?_of_without apart found, named⟩

omit apart in
theorem callsOf_of_without {bare : String}
    (mem : bare ∈ (ofExtractions (without gone items)).callsOf q) :
    bare ∈ (ofExtractions items).callsOf q := by
  obtain ⟨item, hi, calls⟩ := mem_callsOf_ofExtractions.mp mem
  exact mem_callsOf_ofExtractions.mpr ⟨item, (mem_without.mp hi).1, calls⟩

omit apart in
theorem liveAlone_without {files : NameSet} (stay : ∀ path ∈ files, path ∉ gone) {file : SourceFile}
    {symbol : Symbol} (listed : file.relPath ∈ files) :
    LiveAlone (ofExtractions (without gone items)) files file q symbol ↔
      LiveAlone (ofExtractions items) files file q symbol := by
  have exports : (ofExtractions (without gone items)).exportsOf file.relPath =
      (ofExtractions items).exportsOf file.relPath := by
    apply NameSet.eq_of_members
    intro x
    rw [mem_exportsOf_ofExtractions, mem_exportsOf_ofExtractions,
      exists_item_without (stay file.relPath listed)]
  have imported : ImportedByName (ofExtractions (without gone items)) files file q symbol ↔
      ImportedByName (ofExtractions items) files file q symbol := by
    apply exists_congr
    intro importer
    apply and_congr_right
    intro hi
    rw [importsOf_without (stay importer hi)]
  rw [LiveAlone, LiveAlone, exports, imported]

theorem functions_closed_without {files : NameSet} (stay : ∀ path ∈ files, path ∉ gone) :
    CallClosed (ofExtractions (without gone items)) files
      {q | q ∈ (ofExtractions items).reachableFunctions files} := by
  have old := (@reachableFunctions_isLeast items files).1
  constructor
  · intro file q symbol h live
    obtain ⟨listed, present, owned⟩ := h
    have kept := stay file.relPath listed
    refine old.alone file q symbol ⟨listed, ?_, ?_⟩ ((liveAlone_without stay listed).mp live)
    · exact (file?_without kept).symm.trans present
    · exact (mem_symbolsIn_without apart kept).mp owned
  · intro path hp present bare hb q hq
    have has := (hasPath_without.mp (containsFile_ofExtractions.mp present)).1
    refine old.body path hp (containsFile_ofExtractions.mpr has) bare ?_ q
      (matchCallee_of_without apart hq)
    rw [mem_moduleCallsOf_ofExtractions] at hb ⊢
    exact (exists_item_without (stay path hp)).mp hb
  · intro caller hc bare hb q hq
    exact old.call caller hc bare (callsOf_of_without hb) q (matchCallee_of_without apart hq)

variable (layout : Layout items)
  (unreached : ∀ path ∈ gone, path ∉ (ofExtractions items).ownReach.files)
include layout unreached

theorem reachedFunctions_without (mem : q ∈ (ofExtractions (without gone items)).ownReach.functions) :
    q ∈ (ofExtractions items).ownReach.functions := by
  have same := reachedFiles_without layout unreached
  change q ∈ (ofExtractions (without gone items)).reachableFunctions
    (ofExtractions (without gone items)).ownReach.files at mem
  rw [same] at mem
  refine reachableFunctions_isLeast.2 (functions_closed_without apart ?_) mem
  exact fun path reached deleted => unreached path deleted reached

theorem deadFunctions_without {minLines : Nat} {finding : Finding}
    (mem : finding ∈ Classify.deadFunctions (ofExtractions items) (ofExtractions items).ownReach
      minLines) :
    finding ∈ Classify.deadFunctions (ofExtractions (without gone items))
      (ofExtractions (without gone items)).ownReach minLines := by
  simp only [Classify.deadFunctions, Ranking.mem_sort, List.mem_map, List.mem_filter,
    List.mem_flatMap, NameSet.mem_toList, reachedFiles_without layout unreached] at mem ⊢
  obtain ⟨⟨q, symbol⟩, ⟨⟨path, reached, owned⟩, dead⟩, rfl⟩ := mem
  have kept : path ∉ gone := fun deleted => unreached path deleted reached
  refine ⟨(q, symbol), ⟨⟨path, reached, (mem_symbolsIn_without apart kept).mpr owned⟩, ?_⟩, rfl⟩
  simp only [Classify.isDeadFunction, Bool.and_eq_true, Bool.not_eq_true'] at dead ⊢
  refine ⟨⟨dead.1.1, ?_⟩, dead.2⟩
  have unlive : q ∉ (ofExtractions items).ownReach.functions := by
    simpa [NameSet.contains] using dead.1.2
  have unlive' : q ∉ (ofExtractions (without gone items)).ownReach.functions := fun live =>
    unlive (reachedFunctions_without apart layout unreached live)
  simpa [NameSet.contains] using unlive'

end Functions

theorem deadFiles_unreached {graph : ProjectGraph} {reach : Reach} {finding : Finding}
    (mem : finding ∈ Classify.deadFiles graph reach) : finding.file ∉ reach.files := by
  simp only [Classify.deadFiles, Ranking.mem_sort, List.mem_map, List.mem_filter,
    Bool.and_eq_true] at mem
  obtain ⟨file, ⟨_, unreached, _⟩, rfl⟩ := mem
  change file.relPath ∉ reach.files
  simpa [NameSet.contains] using unreached

/-- Deleting files that are not reached, such as those reported as dead, changes neither the
    reached files nor the unused imports, and of the dead files it takes away just the deleted ones.
    Unless two items define one name, no function comes to life and every dead one is reported
    again. -/
theorem analyze_without_unreached (items : Items) (gone : NameSet) (minLines : Nat)
    (diagnostics : List Diagnostic) (timestamp : String) (layout : Layout items)
    (unreached : ∀ path ∈ gone, path ∉ (ofExtractions items).ownReach.files) :
    let old := ofExtractions items
    let new := ofExtractions (without gone items)
    let before := old.analyze minLines diagnostics timestamp
    let after := new.analyze minLines diagnostics timestamp
    new.ownReach.files = old.ownReach.files ∧
      after.unusedImports = before.unusedImports ∧
      after.deadFiles = before.deadFiles.filter (fun finding => !gone.contains finding.file) ∧
      (∀ finding ∈ before.deadFiles, finding.file ∉ old.ownReach.files) ∧
      (SymbolsApart items →
        (∀ q ∈ new.ownReach.functions, q ∈ old.ownReach.functions) ∧
          ∀ finding ∈ before.deadFunctions, finding ∈ after.deadFunctions) :=
  ⟨reachedFiles_without layout unreached, unusedImports_without layout unreached,
    deadFiles_without layout unreached, fun _ => deadFiles_unreached, fun apart =>
      ⟨fun _ => reachedFunctions_without apart layout unreached,
        fun _ => deadFunctions_without apart layout unreached⟩⟩

/- The module beside the imported one can go. -/

theorem sample_symbolsApart : SymbolsApart sampleItems := by
  have names : sampleAddresses.Pairwise fun a b => a.name ++ ".step" ≠ b.name ++ ".step" := by decide
  refine List.pairwise_map.mpr (names.imp fun {a b} differ q both => ?_)
  have only : ∀ (c : Address) (symbol : Symbol),
      (NameMap.empty.insert (c.name ++ ".step") symbol).contains q = true → q = c.name ++ ".step" := by
    intro c symbol defined
    obtain ⟨_, found⟩ := NameMap.contains_iff.mp defined
    rw [NameMap.get?_insert] at found
    by_contra other
    rw [if_neg other] at found
    cases found
  exact differ ((only a _ both.1).symm.trans (only b _ both.2))

theorem sample_beside_unreached : "app/lib/alpha.py" ∉ (ofExtractions sampleItems).ownReach.files :=
  fun reached => reachableFiles_isLeast.2
    ((importClosed_iff_loadClosed sample_project).mpr sample_beside_closed) reached rfl

theorem analyze_without_beside :
    let gone := NameSet.ofList ["app/lib/alpha.py"]
    let old := ofExtractions sampleItems
    let new := ofExtractions (without gone sampleItems)
    (Layout sampleItems ∧ SymbolsApart sampleItems ∧ ∀ path ∈ gone, path ∉ old.ownReach.files) ∧
      new.ownReach.files = old.ownReach.files ∧
      (new.analyze 1 [] "").deadFiles =
        (old.analyze 1 [] "").deadFiles.filter (fun finding => !gone.contains finding.file) ∧
      ∀ finding ∈ (old.analyze 1 [] "").deadFunctions,
        finding ∈ (new.analyze 1 [] "").deadFunctions := by
  intro gone old new
  have layout := sample_project.toLayout
  have unreached : ∀ path ∈ gone, path ∉ old.ownReach.files := by
    intro path deleted
    have beside : path = "app/lib/alpha.py" := by simpa [gone] using deleted
    exact beside ▸ sample_beside_unreached
  have kept := analyze_without_unreached sampleItems gone 1 [] "" layout unreached
  exact ⟨⟨layout, sample_symbolsApart, unreached⟩, kept.1, kept.2.2.1,
    (kept.2.2.2.2 sample_symbolsApart).2⟩

end DeadCode.ProjectGraph
