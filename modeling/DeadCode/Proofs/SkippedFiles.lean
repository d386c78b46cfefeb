import Mathlib.Data.List.Dedup
import Mathlib.Data.List.Nodup
import DeadCode.Proofs.CheckedRoot
import DeadCode.Proofs.Layout

/- Sources that cannot be read. Each of them is reported once, in the order of the paths, and nothing
   else comes of it: the analysis is the one of a project without the file. Those that can be read are
   counted by their paths, which are apart where all names are text. -/
namespace DeadCode

variable {fs : FileSystem} {globals : List IgnoreRule} {o : Options}

namespace Source

variable {source twin : Source}

def isUnreadable (source : Source) : Bool :=
  match source.extract with
  | .ok _ => false
  | .error _ => true

def reading? (source : Source) : Option (SourceFile × Extraction) :=
  match source.extract with
  | .ok extraction => some (source.file, extraction)
  | .error _ => none

theorem reading?_eq_none_iff : source.reading? = none ↔ source.isUnreadable = true := by
  unfold reading? isUnreadable
  cases source.extract <;> simp

/-- The content alone decides whether a source can be read. -/
theorem isUnreadable_eq (source : Source) :
    source.isUnreadable =
      (String.fromUTF8? source.content).all fun text => (Grammar.parse text).hasError := by
  unfold isUnreadable extract text?
  cases String.fromUTF8? source.content with
  | none => rfl
  | some text =>
    simp only [SourceFile.extract, SourceFile.extractTree, Option.all_some]
    cases (Grammar.parse text).hasError <;> rfl

end Source

namespace ProjectGraph

variable {items : Items}

theorem fileCount_ofExtractions (items : Items) :
    (ofExtractions items).fileCount = (items.map (·.1.relPath)).dedup.length := by
  have once := nodup_of_increasing SourceFile.relPath (files_increasing items)
  have same : ∀ path, path ∈ (ofExtractions items).files.map (·.relPath) ↔
      path ∈ (items.map (·.1.relPath)).dedup := by
    intro path
    rw [List.mem_dedup, List.mem_map, List.mem_map]
    exact listed_files
  calc (ofExtractions items).fileCount = ((ofExtractions items).files.map (·.relPath)).length := by
        simp [fileCount, ProjectGraph.files, NameMap.size, NameMap.values]
    _ = (items.map (·.1.relPath)).dedup.length :=
        ((List.perm_ext_iff_of_nodup once (List.nodup_dedup _)).mpr same).length_eq

end ProjectGraph

namespace Check

variable {sources : List Source} {result : AnalysisResult}

structure Reports (diagnostic : Diagnostic) (source : Source) : Prop where
  file : diagnostic.file = source.file.relPath
  cause : ∃ problem, source.extract = .error problem ∧ diagnostic.message = problem.message

def readablePaths (sources : List Source) : List String :=
  (sources.filter (!·.isUnreadable)).map (·.file.relPath)

/-- What a check says of the sources that it was given. All of them are counted exactly when no two
    that can be read have one path. -/
structure Accounts (result : AnalysisResult) (sources : List Source) : Prop where
  reports : List.Forall₂ Reports result.diagnostics (sources.filter (·.isUnreadable))
  ordered : result.diagnostics.Pairwise (·.file ≤ ·.file)
  skipped : result.stats.filesSkipped = (sources.filter (·.isUnreadable)).length
  analyzed : result.stats.filesAnalyzed = (readablePaths sources).dedup.length
  all : result.stats.filesAnalyzed + result.stats.filesSkipped = sources.length ↔
    (readablePaths sources).Nodup

/-- Two results agree but for the sources that were left out and the time. -/
structure SameFindings (result after : AnalysisResult) : Prop where
  deadFiles : after.deadFiles = result.deadFiles
  deadFunctions : after.deadFunctions = result.deadFunctions
  unusedImports : after.unusedImports = result.unusedImports
  stats : after.stats = { result.stats with
    filesSkipped := after.stats.filesSkipped, timestamp := after.stats.timestamp }

@[simp] theorem parsed_ok (file : SourceFile) (extraction : Extraction) (rest : Readings) :
    parsed ((file, .ok extraction) :: rest) = (file, extraction) :: parsed rest := rfl

@[simp] theorem parsed_error (file : SourceFile) (problem : SourceError) (rest : Readings) :
    parsed ((file, .error problem) :: rest) = parsed rest := rfl

@[simp] theorem skipped_ok (file : SourceFile) (extraction : Extraction) (rest : Readings) :
    skipped ((file, .ok extraction) :: rest) = skipped rest := rfl

@[simp] theorem skipped_error (file : SourceFile) (problem : SourceError) (rest : Readings) :
    skipped ((file, .error problem) :: rest) =
      { file := file.relPath, message := problem.message } :: skipped rest := rfl

theorem readAll_cons (source : Source) (rest : List Source) :
    readAll (source :: rest) = (source.file, source.extract) :: readAll rest := rfl

theorem parsed_readAll (sources : List Source) :
    parsed (readAll sources) = sources.filterMap Source.reading? := by
  rw [parsed, readAll, List.filterMap_map]
  rfl

theorem skipped_readAll (sources : List Source) :
    List.Forall₂ Reports (skipped (readAll sources)) (sources.filter (·.isUnreadable)) := by
  induction sources with
  | nil => exact .nil
  | cons source rest ih =>
    rw [readAll_cons]
    cases outcome : source.extract with
    | ok extraction =>
      rw [skipped_ok, List.filter_cons_of_neg (by simp [Source.isUnreadable, outcome])]
      exact ih
    | error problem =>
      rw [skipped_error, List.filter_cons_of_pos (by simp [Source.isUnreadable, outcome])]
      exact .cons ⟨rfl, problem, outcome, rfl⟩ ih

theorem skipped_pairwise {R : String → String → Prop}
    (related : sources.Pairwise fun a b => R a.file.relPath b.file.relPath) :
    (skipped (readAll sources)).Pairwise fun a b => R a.file b.file := by
  rw [skipped, readAll, List.filterMap_map]
  refine related.filterMap _ ?_
  intro a b holds first made second made'
  simp only [Function.comp] at made made'
  split at made <;> cases made
  split at made' <;> cases made'
  exact holds

theorem paths_parsed (sources : List Source) :
    (parsed (readAll sources)).map (·.1.relPath) = readablePaths sources := by
  induction sources with
  | nil => rfl
  | cons source rest ih =>
    rw [readAll_cons, readablePaths]
    cases outcome : source.extract with
    | ok extraction =>
      rw [parsed_ok, List.filter_cons_of_pos (by simp [Source.isUnreadable, outcome]),
        List.map_cons, List.map_cons, ih, readablePaths]
    | error problem =>
      rw [parsed_error, List.filter_cons_of_neg (by simp [Source.isUnreadable, outcome]), ih,
        readablePaths]

theorem dedup_length_iff {paths : List String} :
    paths.dedup.length = paths.length ↔ paths.Nodup := by
  constructor
  · intro full
    exact List.dedup_eq_self.mp ((List.dedup_sublist paths).eq_of_length full)
  · intro once
    rw [once.dedup]

theorem accounts_of_ordered (ordered : sources.Pairwise (·.file.relPath ≤ ·.file.relPath))
    (minLines : Nat) (timestamp : String) :
    Accounts (analyzeReadings (readAll sources) minLines timestamp) sources := by
  have reports := skipped_readAll sources
  have analyzed : (graphOf (readAll sources)).fileCount = (readablePaths sources).dedup.length := by
    rw [graphOf, ProjectGraph.fileCount_ofExtractions, paths_parsed]
  have parts : sources.length = (readablePaths sources).length +
      (sources.filter (·.isUnreadable)).length := by
    rw [readablePaths, List.length_map, Nat.add_comm]
    exact List.length_eq_length_filter_add _
  refine ⟨reports, skipped_pairwise ordered, reports.length_eq, analyzed, ?_⟩
  rw [← dedup_length_iff, ← analyzed]
  show (graphOf (readAll sources)).fileCount + (skipped (readAll sources)).length = _ ↔ _
  rw [reports.length_eq, parts, Nat.add_right_cancel_iff]

theorem sameFindings_of_parsed {readings later : Readings} (same : parsed later = parsed readings)
    (minLines : Nat) (timestamp time : String) :
    SameFindings (analyzeReadings readings minLines timestamp)
      (analyzeReadings later minLines time) := by
  have graph : graphOf later = graphOf readings := by rw [graphOf, same, graphOf]
  constructor <;> simp only [analyzeReadings, graph, ProjectGraph.analyze]

section Deletion

variable {root location goal : Location} {bytes : ByteArray}
variable (form : fs.WellFormed) (plain : PlainNames root)
variable (directory : fs.tree.isDirectory root = true)
include form plain directory

theorem exists_fileAt_of_mem {exclude : List String} {source : Source}
    (mem : source ∈ Collect.Walk.sources { fs, globals, root, exclude } (fs.pathOf root)) :
    ∃ location goal, fs.FileAt location goal source.content ∧
      fs.delete source.path = fs.remove location := by
  obtain ⟨entry, listed, made⟩ := List.mem_filterMap.mp (Collect.Walk.mem_sources.mp mem)
  obtain ⟨names, below, content, _, _, path⟩ := Collect.Walk.source?_eq_some_iff.mp made
  have nonempty := (Collect.Walk.namesBelow?_eq_some_iff.mp below).1
  have apart : root ++ names ≠ [] := by simp [nonempty]
  have plainNames : PlainNames (root ++ names) := Collect.Walk.plain_of_namesBelow? below
  have found : fs.tree.find? (root ++ names) = some entry.2 :=
    Collect.Walk.find?_of_namesBelow? listed below
  obtain ⟨goal, lies⟩ := FileSystem.exists_fileAt plainNames content
  refine ⟨root ++ names, goal, lies, ?_⟩
  rw [path, Collect.Walk.pathBelow_pathOf form plain directory nonempty]
  exact FileSystem.delete_pathOf form.tree plainNames apart found

/-- Without a file that cannot be read the same walk goes over the same root, and what it reads is
    the same. -/
theorem collected_remove (settled : o.rootPath fs = .ok (fs.pathOf root))
    (lies : fs.FileAt location goal bytes) (same : IgnoreRules.SameSteering fs (fs.remove location))
    (unreadable : ∀ source : Source, source.content = bytes → source.isUnreadable = true) :
    ∃ sources, collected (fs.remove location) globals o = .ok sources ∧
      parsed (readAll sources) = parsed (readAll (Collect.Walk.sources
        { fs, globals, root, exclude := o.exclude } (fs.pathOf root))) := by
  have kept := FileSystem.isDirectory_kept form.tree lies plain directory
  have found := FileSystem.resolve_kept form.tree lies form.plain
    (FileSystem.resolve_pathOf form.tree plain directory) directory
  refine ⟨_, collected_of_root (Options.rootPath_kept form lies same settled) found kept, ?_⟩
  rw [parsed_readAll, parsed_readAll]
  let walk : Collect.Walk := { fs, globals, root, exclude := o.exclude }
  have same' : IgnoreRules.SameSteering walk.fs (walk.fs.remove location) := same
  exact Collect.Walk.filterMap_sources_without same' form.tree lies _ _
    fun source content => Source.reading?_eq_none_iff.mpr (unreadable source content)

end Deletion

/-- A source that cannot be read leads to one diagnostic and to nothing else. The diagnostics name the
    sources that are skipped, in the order of their paths, and the other sources are counted by their
    paths. If the file of a source that is skipped is deleted, and no ignore file and no mark of a
    repository was a link to it, the check finds the same. The user's own rules are those of the first
    run. -/
theorem run_unreadable (form : fs.WellFormed) {timestamp : String}
    (done : run fs globals o timestamp = .ok result) :
    ∃ sources, collected fs globals o = .ok sources ∧ Accounts result sources ∧
      (fs.tree.TextBelow [] → result.diagnostics.Pairwise (·.file < ·.file) ∧
        result.stats.filesAnalyzed + result.stats.filesSkipped = sources.length) ∧
      ∀ source ∈ sources, source.isUnreadable = true →
        IgnoreRules.SameSteering fs (fs.delete source.path) → ∀ time : String,
          ∃ after, run (fs.delete source.path) globals o time = .ok after ∧
            SameFindings result after := by
  rw [run_eq] at done
  cases collection : collected fs globals o with
  | error problem =>
    rw [collection] at done
    cases done
  | ok sources =>
    rw [collection] at done
    cases done
    obtain ⟨root, plain, directory, settled, walked⟩ := exists_walk form collection
    have accounts := accounts_of_ordered (walked ▸ Collect.Walk.sources_ordered _ _) o.minLines
      timestamp
    refine ⟨sources, rfl, accounts, ?_, ?_⟩
    · intro text
      have increasing : sources.Pairwise (·.file.relPath < ·.file.relPath) :=
        walked ▸ Collect.Walk.sources_increasing (FileTree.textBelow_of_top text root) _
      exact ⟨skipped_pairwise increasing,
        accounts.all.mpr (nodup_of_increasing _ (increasing.filter _))⟩
    · intro source mem unreadable same time
      obtain ⟨location, goal, lies, gone⟩ := exists_fileAt_of_mem form plain directory (walked ▸ mem)
      rw [gone] at same ⊢
      have twins : ∀ twin : Source, twin.content = source.content → twin.isUnreadable = true := by
        intro twin content
        rw [Source.isUnreadable_eq, content, ← Source.isUnreadable_eq]
        exact unreadable
      obtain ⟨left, recollected, parsing⟩ :=
        collected_remove form plain directory settled lies same twins
      refine ⟨_, by rw [run_eq, recollected]; rfl, ?_⟩
      exact sameFindings_of_parsed (walked ▸ parsing) _ _ _

def packageFiles : FileSystem where
  base := "/work"
  tree := ⟨.ofList [("pkg", .directory), ("pkg/__init__.py", .file ⟨#[255]⟩),
    ("pkg/core.py", .file ByteArray.empty)]⟩

theorem packageFiles_form : packageFiles.WellFormed where
  tree := by decide
  base := by decide
  plain := plainNames_nil
  working := rfl

theorem packageFiles_noLinks :
    ∀ location path, packageFiles.tree.find? location ≠ some (.link path) :=
  FileTree.find?_ne_link rfl

def packageMarker : Source where
  file := Collect.Walk.sourceFile ["pkg", "__init__.py"] ⟨#[255]⟩
  path := "/work/pkg/__init__.py"
  content := ⟨#[255]⟩

theorem packageMarker_collected :
    packageMarker ∈ Collect.Walk.sources { fs := packageFiles, root := [] } "/work" := by
  let walk : Collect.Walk := { fs := packageFiles, root := [] }
  have bare : IgnoreRules.Unsteered packageFiles :=
    IgnoreRules.unsteered_of_noLinks packageFiles_noLinks (by decide)
  have path : packageMarker.path =
      Collect.Walk.pathBelow "/work" (Text.join '/' ["pkg", "__init__.py"]) := by decide
  have collected := walk.mem_sources_of_unsteered packageFiles_form.tree bare "/work"
    ["pkg", "__init__.py"] ⟨#[255]⟩ (by decide) (by decide) rfl (by decide) (by decide)
  rwa [← path] at collected

theorem run_unreadable_marker : packageFiles.WellFormed ∧ packageMarker.isUnreadable = true ∧
    ∃ result after, run packageFiles [] { root := some "." } "" = .ok result ∧
      result.diagnostics.Pairwise (·.file < ·.file) ∧
      run (packageFiles.delete "/work/pkg/__init__.py") [] { root := some "." } "" = .ok after ∧
      SameFindings result after := by
  have noText : String.fromUTF8? packageMarker.content = none := by decide
  have unreadable : packageMarker.isUnreadable = true := by
    rw [Source.isUnreadable_eq, noText]
    rfl
  have collection : collected packageFiles [] { root := some "." } = .ok _ :=
    collected_here packageFiles_form rfl rfl
  obtain ⟨result, done⟩ : ∃ result, run packageFiles [] { root := some "." } "" = .ok result :=
    ⟨_, by rw [run_eq, collection]; rfl⟩
  obtain ⟨sources, again, _, text, deletion⟩ := run_unreadable packageFiles_form done
  rw [collection, Except.ok.injEq] at again
  have plain : PlainNames ["pkg", "__init__.py"] := by decide
  have same := IgnoreRules.sameSteering_of_noLinks packageFiles_form.tree packageFiles_noLinks plain
    rfl (by decide)
  have gone : packageFiles.delete packageMarker.path = packageFiles.remove ["pkg", "__init__.py"] :=
    FileSystem.delete_pathOf packageFiles_form.tree plain (by decide) rfl
  obtain ⟨after, rerun, findings⟩ :=
    deletion packageMarker (again ▸ packageMarker_collected) unreadable (gone ▸ same) ""
  exact ⟨packageFiles_form, unreadable, result, after, done, (text (by decide)).1, rerun, findings⟩

/-- A repository whose mark is a link to a source that is no text. -/
def linkedFiles : FileSystem where
  base := "/work"
  tree := ⟨.ofList [(".git", .link "broken.py"), ("broken.py", .file ⟨#[255]⟩)]⟩

theorem linkedFiles_form : linkedFiles.WellFormed where
  tree := by decide
  base := by decide
  plain := plainNames_nil
  working := rfl

def linkedSource : Source where
  file := Collect.Walk.sourceFile ["broken.py"] ⟨#[255]⟩
  path := "/work/broken.py"
  content := ⟨#[255]⟩

theorem linkedFiles_leads :
    FileSystem.Leads linkedFiles FileSystem.linkLimit [] [".git"] ["broken.py"] :=
  .link rfl (by decide) rfl (show _ = some ([], ["broken.py"]) by decide)
    (.enter rfl (by decide) rfl (fun _ same => by cases same) .done)

theorem linkedFiles_found : Options.repositoryRoot linkedFiles = .ok (linkedFiles.pathOf []) := by
  have mark : linkedFiles.exists? [".git"] = true := by
    rw [FileSystem.exists?, FileSystem.target?_eq_some_iff.mpr ⟨_, linkedFiles_leads, rfl⟩]
    rfl
  exact Options.repositoryRoot_of_mark mark

theorem linkedFiles_lost :
    Options.repositoryRoot (linkedFiles.remove ["broken.py"]) = .error .noRepository := by
  have onto : (linkedFiles.remove ["broken.py"]).follow false FileSystem.linkLimit [] [".git"] =
      (linkedFiles.remove ["broken.py"]).follow false 39 [] ["broken.py"] := by
    rw [FileSystem.follow]
    rfl
  have gone : (linkedFiles.remove ["broken.py"]).follow false 39 [] ["broken.py"] =
      .error .notFound := by
    rw [FileSystem.follow]
    rfl
  apply Options.repositoryRoot_of_no_mark rfl
  rw [FileSystem.exists?, FileSystem.target?, onto, gone]
  rfl

theorem linkedFiles_kept : IgnoreRules.isIgnored linkedFiles [] ["broken.py"] false = false := by
  have missing : ∀ name ∈ [".ignore", ".gitignore"], linkedFiles.content? [name] = none := by
    intro name mem
    rw [FileSystem.content?, FileSystem.target?, FileSystem.follow]
    rcases List.mem_pair.mp mem with rfl | rfl <;> rfl
  have inside : linkedFiles.content? [".git", "info", "exclude"] = none := by
    rw [Option.eq_none_iff_forall_ne_some]
    intro bytes found
    obtain ⟨goal, lies⟩ := FileSystem.exists_fileAt (by decide) found
    have ends : FileSystem.Leads linkedFiles FileSystem.linkLimit [] ([".git"] ++ ["info", "exclude"])
        goal := lies.ends
    obtain ⟨mid, links, mark, rest⟩ := ends.split
    cases mark.unique linkedFiles_leads
    cases (rest.eq_of_not_directory rfl).1
  have above : IgnoreRules.above ["broken.py"] = [[]] := rfl
  have within : IgnoreRules.insideRepository linkedFiles [[]] ⊆ [[]] :=
    IgnoreRules.insideRepository_subset _ _
  have silent : ∀ names, linkedFiles.content? names = none → ∀ directories ⊆ [[]],
      IgnoreRules.verdictAmong linkedFiles names directories ["broken.py"] false = none := by
    intro names none directories only
    refine IgnoreRules.verdictAmong_eq_none _ _ fun directory mem => ?_
    rw [List.mem_singleton.mp (only mem)]
    exact none
  have globally : IgnoreRules.globalVerdict linkedFiles [] ["broken.py"] false = none := by
    simp [IgnoreRules.globalVerdict, IgnoreRules.verdict?]
  simp only [IgnoreRules.isIgnored, above, globally,
    silent [".ignore"] (missing _ (by simp)) [[]] (List.Subset.refl _),
    silent [".gitignore"] (missing _ (by simp)) _ within, silent _ inside _ within]
  split <;> rfl

theorem linkedSource_collected :
    linkedSource ∈ Collect.Walk.sources { fs := linkedFiles, root := [] } (linkedFiles.pathOf []) := by
  let walk : Collect.Walk := { fs := linkedFiles, root := [] }
  have plain : PlainNames ["broken.py"] := by decide
  have lies := FileSystem.fileAt_of_find? linkedFiles_form.tree plain rfl
  have admitted : walk.admits ["broken.py"] = true := by
    show (_ && _ && !IgnoreRules.isIgnored linkedFiles [] ["broken.py"] false) = true
    rw [linkedFiles_kept]
    decide
  have path : linkedSource.path = Collect.Walk.pathBelow (linkedFiles.pathOf [])
      (Text.join '/' ["broken.py"]) := by decide
  refine Collect.Walk.mem_sources.mpr (List.mem_filterMap.mpr
    ⟨("broken.py", .file ⟨#[255]⟩), List.mem_of_getElem? (i := 1) rfl, ?_⟩)
  exact Collect.Walk.source?_eq_some_iff.mpr
    ⟨["broken.py"], rfl, lies.content?, admitted, rfl, path⟩

theorem lookAlikes_collected : collected Collect.lookAlikes [] { root := some "." } =
    .ok (Collect.Walk.sources { fs := Collect.lookAlikes, root := [] } "/work") :=
  collected_here Collect.lookAlikes_form rfl rfl

theorem readablePaths_lookAlikes : ¬(readablePaths
    (Collect.Walk.sources { fs := Collect.lookAlikes, root := [] } "/work")).Nodup := by
  intro once
  obtain ⟨first, second, isFirst, isSecond, content, content', apart, same⟩ :=
    Collect.exists_lookAlikes
  have readable : ∀ source : Source, source.content = ByteArray.empty →
      source.isUnreadable = false := by
    intro source empty
    rw [Source.isUnreadable_eq, empty]
    rfl
  refine apart (congrArg _ (List.inj_on_of_nodup_map once ?_ ?_ same))
  · exact List.mem_filter.mpr ⟨isFirst, by rw [readable _ content]; rfl⟩
  · exact List.mem_filter.mpr ⟨isSecond, by rw [readable _ content']; rfl⟩

/-- Two files that look alike are both collected and counted once. Without the source that a mark
    leads to there is no repository to check. -/
theorem unreadable_is_noticed :
    (∃ result sources, Collect.lookAlikes.WellFormed ∧
      run Collect.lookAlikes [] { root := some "." } "" = .ok result ∧
      collected Collect.lookAlikes [] { root := some "." } = .ok sources ∧
      result.stats.filesAnalyzed + result.stats.filesSkipped ≠ sources.length) ∧
    ∃ result sources, linkedFiles.WellFormed ∧ run linkedFiles [] {} "" = .ok result ∧
      collected linkedFiles [] {} = .ok sources ∧ linkedSource ∈ sources ∧
      linkedSource.isUnreadable = true ∧ ∀ time,
        run (linkedFiles.delete linkedSource.path) [] {} time = .error .noRepository := by
  constructor
  · have accounts := accounts_of_ordered (Collect.Walk.sources_ordered
      { fs := Collect.lookAlikes, root := [] } "/work") 10 ""
    refine ⟨_, _, Collect.lookAlikes_form, by rw [run_eq, lookAlikes_collected]; rfl,
      lookAlikes_collected, ?_⟩
    exact fun all => readablePaths_lookAlikes (accounts.all.mp all)
  · have noText : String.fromUTF8? linkedSource.content = none := by decide
    have unreadable : linkedSource.isUnreadable = true := by
      rw [Source.isUnreadable_eq, noText]
      rfl
    have collection : collected linkedFiles [] {} = .ok _ := collected_of_root linkedFiles_found
      (FileSystem.resolve_pathOf linkedFiles_form.tree plainNames_nil rfl) rfl
    have plain : PlainNames ["broken.py"] := by decide
    have path : linkedSource.path = linkedFiles.pathOf ["broken.py"] := by decide
    have gone : linkedFiles.delete linkedSource.path = linkedFiles.remove ["broken.py"] :=
      path ▸ FileSystem.delete_pathOf linkedFiles_form.tree plain (by decide) rfl
    refine ⟨_, _, linkedFiles_form, by rw [run_eq, collection]; rfl, collection,
      linkedSource_collected, unreadable, fun time => ?_⟩
    have lost : collected (linkedFiles.remove ["broken.py"]) [] {} = .error .noRepository := by
      rw [collected, Options.rootPath, linkedFiles_lost]
      rfl
    rw [gone, run_eq, lost]
    rfl

end Check
end DeadCode
