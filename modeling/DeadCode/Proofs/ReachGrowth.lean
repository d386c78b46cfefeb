import DeadCode.Analysis
import DeadCode.Proofs.CallReach
import DeadCode.Proofs.ImportReach
import DeadCode.Proofs.IndexKeys
import DeadCode.Proofs.Rankings

/- More calls, more files and more imports reach more. For calls and files this holds without a
   condition. An import that resolves directly stands for the shorter names before it, and these then
   lose the module that a search below them would find; so new imports may only extend names that
   are keys of the index, for which there is no search. -/
namespace DeadCode

namespace ModuleIndex

variable {index : ModuleIndex} {imports more : List String} {m path : String}

/-- An import leads where it led, unless a new import stands for it and it is no key. -/
theorem target?_of_more (fewer : ∀ x ∈ imports, x ∈ more)
    (keys : ∀ x ∈ more, x ∉ imports → index.covers m x = true →
      ∃ file, index.modules.get? m = some file)
    (found : index.target? imports m = some path) : index.target? more m = some path := by
  by_cases covered : imports.any (index.covers m) = true
  · have still : more.any (index.covers m) = true := by
      obtain ⟨longer, hl, covers⟩ := List.any_eq_true.mp covered
      exact List.any_eq_true.mpr ⟨longer, fewer longer hl, covers⟩
    rw [target?, if_pos covered] at found
    rw [target?, if_pos still, found]
  · rw [target?, if_neg covered] at found
    by_cases now : more.any (index.covers m) = true
    · obtain ⟨longer, hl, covers⟩ := List.any_eq_true.mp now
      have new : longer ∉ imports := fun old => covered (List.any_eq_true.mpr ⟨longer, old, covers⟩)
      obtain ⟨file, key⟩ := keys longer hl new covers
      have nonempty : m ≠ "" := by
        intro empty
        simp [resolve, empty] at found
      have same : file = path := by simpa [resolve, nonempty, key] using found
      exact same ▸ target?_of_key nonempty key
    · rw [target?, if_neg now, found]

end ModuleIndex

namespace ProjectGraph

variable {graph : ProjectGraph} {imports calls moduleCalls : NameMap NameSet}
variable {files more : NameSet} {path q : String}

def Extends (table more : NameMap NameSet) : Prop :=
  ∀ key, ∀ x ∈ (table.get? key).getD ∅, x ∈ (more.get? key).getD ∅

theorem Extends.refl (table : NameMap NameSet) : Extends table table := fun _ _ mem => mem

theorem extends_alter (table : NameMap NameSet) (key : String) (names : NameSet) :
    Extends table (table.alter key (extend names)) := fun _ _ mem =>
  mem_alter_extend.mpr (.inl mem)

/- Functions. -/

section Functions

variable (moreImports : Extends graph.imports imports) (moreCalls : Extends graph.calls calls)
  (moreBodies : Extends graph.moduleCalls moduleCalls)
include moreImports

theorem liveAlone_of_more (listed : ∀ path ∈ files, path ∈ more) {file : SourceFile}
    {symbol : Symbol} (live : LiveAlone graph files file q symbol) :
    LiveAlone { graph with imports, calls, moduleCalls } more file q symbol := by
  rcases live with exported | entry | ⟨kind, exported, importer, hi, imported⟩
  · exact .inl exported
  · exact .inr (.inl entry)
  · refine .inr (.inr ⟨kind, exported, importer, listed importer hi, ?_⟩)
    rcases imported with byName | ⟨package, marker, byPackage⟩
    · exact .inl (moreImports importer q byName)
    · exact .inr ⟨package, marker, moreImports importer _ byPackage⟩

include moreBodies

theorem fileSeeds_of_more (listed : ∀ path ∈ files, path ∈ more) {file : SourceFile}
    (seed : q ∈ graph.fileSeeds (graph.importedBy files) file) :
    q ∈ ({ graph with imports, calls, moduleCalls } : ProjectGraph).fileSeeds
      (({ graph with imports, calls, moduleCalls } : ProjectGraph).importedBy more) file := by
  simp only [fileSeeds, List.mem_append, List.mem_map, List.mem_filter, isSeed_iff,
    mem_callTargets] at seed ⊢
  rcases seed with ⟨entry, ⟨owned, live⟩, rfl⟩ | ⟨bare, called, means⟩
  · exact .inl ⟨entry, ⟨owned, liveAlone_of_more moreImports listed live⟩, rfl⟩
  · exact .inr ⟨bare, moreBodies file.relPath bare called, means⟩

include moreCalls

theorem reachableFunctions_of_more (listed : ∀ path ∈ files, path ∈ more)
    (mem : q ∈ graph.reachableFunctions files) :
    q ∈ ({ graph with imports, calls, moduleCalls } : ProjectGraph).reachableFunctions more := by
  refine Worklist.closure_mono ?_ ?_ mem
  · intro caller target called
    obtain ⟨bare, hb, means⟩ := mem_callTargets.mp called
    exact mem_callTargets.mpr ⟨bare, moreCalls caller bare hb, means⟩
  · intro seed hs
    obtain ⟨file, hf, alone⟩ := List.mem_flatMap.mp hs
    obtain ⟨path, hp, found⟩ := List.mem_filterMap.mp hf
    refine List.mem_flatMap.mpr ⟨file, List.mem_filterMap.mpr ⟨path, listed path hp, found⟩, ?_⟩
    exact fileSeeds_of_more moreImports moreBodies listed alone

end Functions

theorem deadFunctions_of_more {reach other : Reach} (sameFiles : other.files = reach.files)
    (functions : ∀ q ∈ reach.functions, q ∈ other.functions) (minLines : Nat) :
    Classify.deadFunctions graph other minLines =
      (Classify.deadFunctions graph reach minLines).filter fun finding =>
        finding.name.all fun q => !other.functions.contains q := by
  rw [Classify.deadFunctions, Classify.deadFunctions,
    ← Ranking.sort_filter Classify.lawful_deadFunctions, List.filter_map, List.filter_filter, sameFiles]
  refine congrArg _ (congrArg _ (List.filter_congr fun entry _ => ?_))
  have grown : other.functions.contains entry.1 = false → reach.functions.contains entry.1 = false := by
    intro dead
    simp only [NameSet.contains, decide_eq_false_iff_not] at dead ⊢
    exact fun live => dead (functions _ live)
  cases dead : other.functions.contains entry.1 with
  | true => simp [Classify.isDeadFunction, Classify.deadFunctionFinding, dead]
  | false => simp [Classify.isDeadFunction, Classify.deadFunctionFinding, dead, grown dead]

/- Files. -/

def addImports (graph : ProjectGraph) (path : String) (names : NameSet) : ProjectGraph :=
  { graph with imports := graph.imports.alter path (extend names) }

/-- Where a new import resolves directly, the shorter names before it that the file imports already
    are keys of the index. -/
def ExtendsKeys (graph : ProjectGraph) (index : ModuleIndex) (path : String) (names : NameSet) : Prop :=
  ∀ x ∈ names.names, (index.resolveDirect x).isSome = true →
    ∀ m ∈ (graph.importsOf path).names, Text.startsWith x (m ++ ".") = true →
      index.modules.contains m = true

instance (graph : ProjectGraph) (index : ModuleIndex) (path : String) (names : NameSet) :
    Decidable (ExtendsKeys graph index path names) :=
  inferInstanceAs (Decidable (∀ x ∈ names.names, _ → ∀ m ∈ (graph.importsOf path).names, _))

theorem mem_importsOf_addImports {names : NameSet} {importer x : String} :
    x ∈ (graph.addImports path names).importsOf importer ↔
      x ∈ graph.importsOf importer ∨ importer = path ∧ x ∈ names :=
  mem_alter_extend

theorem importTargets_of_more {index : ModuleIndex} {names : NameSet}
    (keys : ExtendsKeys graph index path names) {importer target : String}
    (leads : target ∈ graph.importTargets index importer) :
    target ∈ (graph.addImports path names).importTargets index importer := by
  simp only [importTargets, ModuleIndex.resolveImports, List.mem_map, List.mem_filterMap,
    NameSet.mem_toList] at leads ⊢
  obtain ⟨_, ⟨m, hm, resolved⟩, rfl⟩ := leads
  obtain ⟨file, found, rfl⟩ := Option.map_eq_some_iff.mp resolved
  refine ⟨_, ⟨m, mem_importsOf_addImports.mpr (.inl hm), ?_⟩, rfl⟩
  refine Option.map_eq_some_iff.mpr ⟨file, ?_, rfl⟩
  refine ModuleIndex.target?_of_more ?_ ?_ found
  · exact fun x hx => mem_importsOf_addImports.mpr (.inl hx)
  · intro x hx new covers
    obtain ⟨rfl, added⟩ := (mem_importsOf_addImports.mp hx).resolve_left new
    obtain ⟨longer, direct⟩ := Bool.and_eq_true_iff.mp covers
    exact NameMap.contains_iff.mp (keys x added direct m hm longer)

theorem reachedFiles_of_more {index : ModuleIndex} {names : NameSet}
    (keys : ExtendsKeys graph index path names) {reached : String}
    (mem : reached ∈ graph.reachableFiles index) :
    reached ∈ (graph.addImports path names).reachableFiles index :=
  Worklist.closure_mono (fun _ _ => importTargets_of_more keys) (fun _ entry => entry) mem

/- A file that imports a package with a marker and a directory without one. Below the directory the
   search finds the first module, until the second one is imported. -/

def growthItems : Items :=
  [(SourceFile.ofPath "lib/__init__.py", {}),
   (SourceFile.ofPath "lib/core.py", {}),
   (SourceFile.ofPath "pkg/alpha.py", {}),
   (SourceFile.ofPath "pkg/beta.py", {}),
   (SourceFile.ofPath "start.py",
    { imports := .ofList ["lib", "pkg"], moduleCalls := .ofList ["go"]
      symbols := .ofList [("start.go", { name := "go", file := "start.py" })] })]

def growthGraph : ProjectGraph := ofExtractions growthItems

theorem growth_start_reached : "start.py" ∈ growthGraph.ownReach.files :=
  reachableFiles_isLeast.1.entry "start.py" ⟨by decide +kernel, .inl (by decide)⟩

theorem growth_alpha_reached : "pkg/alpha.py" ∈ growthGraph.ownReach.files := by
  refine reachableFiles_isLeast.1.edge "start.py" growth_start_reached "pkg/alpha.py" ?_
  refine ⟨by decide +kernel, "pkg", ?_⟩
  decide +kernel

theorem growth_go_reached : "start.go" ∈ growthGraph.ownReach.functions := by
  refine reachableFunctions_isLeast.1.body "start.py" growth_start_reached (by decide +kernel) "go" ?_
    "start.go" ?_
  · decide +kernel
  · decide +kernel

theorem growth_alpha_lost :
    "pkg/alpha.py" ∉ (growthGraph.addImports "start.py" (.ofList ["pkg.beta"])).ownReach.files := by
  let more := growthGraph.addImports "start.py" (.ofList ["pkg.beta"])
  let kept := ["lib/__init__.py", "pkg/beta.py", "start.py"]
  have entries : ∀ x ∈ more.entryFiles, x ∈ kept := by decide +kernel
  have edges : ∀ x ∈ kept, ∀ y ∈ more.importTargets (ModuleIndex.build more.files) x, y ∈ kept := by
    decide +kernel
  have closed : Worklist.Closed more.fileMap.keys
      (more.importTargets (ModuleIndex.build more.files)) more.entryFiles {x | x ∈ kept} :=
    ⟨fun x hx _ => entries x hx, fun x hx y hy _ => edges x hx y hy⟩
  intro reached
  exact absurd (Worklist.closure_subset closed reached) (by decide : "pkg/alpha.py" ∉ kept)

/-- Liveness is monotone. More calls, of whatever files and functions, leave the reached files and
    all other findings alone, keep every reached function and report no further function as dead.
    More files keep every reached function. More imports of a file keep every reached file and
    function, provided that those which resolve directly extend only keys of the index; otherwise a
    file can be lost. -/
theorem liveness_grows (graph : ProjectGraph) (minLines : Nat) (diagnostics : List Diagnostic)
    (timestamp : String) :
    (∀ calls moduleCalls, Extends graph.calls calls → Extends graph.moduleCalls moduleCalls →
      let more := { graph with calls, moduleCalls }
      let before := graph.analyze minLines diagnostics timestamp
      let after := more.analyze minLines diagnostics timestamp
      more.ownReach.files = graph.ownReach.files ∧
        (∀ q ∈ graph.ownReach.functions, q ∈ more.ownReach.functions) ∧
        after.deadFunctions.Sublist before.deadFunctions ∧
        after.deadFiles = before.deadFiles ∧ after.unusedImports = before.unusedImports ∧
        after.diagnostics = before.diagnostics) ∧
      (∀ files more : NameSet, (∀ path ∈ files, path ∈ more) →
        ∀ q ∈ graph.reachableFunctions files, q ∈ graph.reachableFunctions more) ∧
      (∀ path names, ExtendsKeys graph (ModuleIndex.build graph.files) path names →
        (∀ reached ∈ graph.ownReach.files, reached ∈ (graph.addImports path names).ownReach.files) ∧
          ∀ q ∈ graph.ownReach.functions, q ∈ (graph.addImports path names).ownReach.functions) ∧
      ∃ (other : ProjectGraph) (path : String) (names : NameSet), ∃ reached ∈ other.ownReach.files,
        reached ∉ (other.addImports path names).ownReach.files := by
  refine ⟨?_, ?_, ?_, ?_⟩
  · intro calls moduleCalls moreCalls moreBodies more before after
    have functions : ∀ q ∈ graph.ownReach.functions, q ∈ more.ownReach.functions := fun q mem =>
      reachableFunctions_of_more (.refl _) moreCalls moreBodies (fun _ listed => listed) mem
    refine ⟨rfl, functions, ?_, rfl, rfl, rfl⟩
    have fewer := @deadFunctions_of_more graph graph.ownReach more.ownReach rfl functions minLines
    change (Classify.deadFunctions graph more.ownReach minLines).Sublist _
    rw [fewer]
    exact List.filter_sublist
  · intro files more listed q mem
    exact reachableFunctions_of_more (.refl _) (.refl _) (.refl _) listed mem
  · intro path names keys
    have reached := @reachedFiles_of_more graph path (ModuleIndex.build graph.files) names keys
    refine ⟨fun _ => reached, fun q mem => ?_⟩
    exact reachableFunctions_of_more (extends_alter _ path names) (.refl _) (.refl _)
      (fun _ => reached) mem
  · exact ⟨growthGraph, "start.py", .ofList ["pkg.beta"], "pkg/alpha.py", growth_alpha_reached,
      growth_alpha_lost⟩

theorem growth_liveness_grows :
    let names := NameSet.ofList ["lib.core"]
    let calls := growthGraph.calls.alter "start.go" (extend (.ofList ["load"]))
    ExtendsKeys growthGraph (ModuleIndex.build growthGraph.files) "start.py" names ∧
      "pkg/alpha.py" ∈ (growthGraph.addImports "start.py" names).ownReach.files ∧
      Extends growthGraph.calls calls ∧
      "start.go" ∈ ({ growthGraph with calls } : ProjectGraph).ownReach.functions := by
  intro names calls
  have keys : ExtendsKeys growthGraph (ModuleIndex.build growthGraph.files) "start.py" names := by
    decide +kernel
  have longer : Extends growthGraph.calls calls := extends_alter _ _ _
  obtain ⟨more, _, imports, _⟩ := liveness_grows growthGraph 1 [] ""
  exact ⟨keys, (imports "start.py" names keys).1 _ growth_alpha_reached, longer,
    (more calls growthGraph.moduleCalls longer (.refl _)).2.1 _ growth_go_reached⟩

end ProjectGraph
end DeadCode
