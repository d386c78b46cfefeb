import Mathlib.Data.List.Induction
import Mathlib.Data.List.Nodup
import DeadCode.Proofs.CheckedRoot

/- Leaving directories out. A walk goes down from the root and does not look into a directory that is
   ignored or left out, while a collection judges each file by all directories above it. Both come to
   the same files, so a name that is left out takes away the files below directories of that name and
   nothing else. -/
namespace DeadCode

structure SourceFile.Collectible (exclude : List String) (file : SourceFile) : Prop where
  extension : Collect.extension? file.baseName = some "py"
  module : file.module = ModulePath.ofPath file.relPath
  marker : file.isMarker = true ↔ file.baseName = "__init__.py"
  directories : ∀ name ∈ file.directories, name ∉ Naming.excludedDirectories ∧ name ∉ exclude

namespace Collect

variable {exclude more : List String} {name gone : String}

theorem isExcluded_eq_false_iff : isExcluded exclude name = false ↔
    FileName.shown name ∉ Naming.excludedDirectories ∧ FileName.shown name ∉ exclude := by
  simp [isExcluded]

/-- One more name to leave out: `more` has it besides the members of `exclude`. -/
def Widens (exclude : List String) (gone : String) (more : List String) : Prop :=
  ∀ name, name ∈ more ↔ name ∈ exclude ∨ name = gone

theorem isExcluded_of_widens (wider : Widens exclude gone more) :
    isExcluded more name = false ↔ isExcluded exclude name = false ∧ FileName.shown name ≠ gone := by
  rw [isExcluded_eq_false_iff, isExcluded_eq_false_iff, wider (FileName.shown name), not_or,
    and_assoc]

namespace Walk

variable {walk : Walk} {front names : List String} {entry : Entry} {source : Source}
variable {content : ByteArray} {rootPath : String} {isDirectory : Bool}

def Lists (walk : Walk) (names : List String) (entry : Entry) : Prop :=
  ∃ key, (key, entry) ∈ walk.fs.tree.entries.toList ∧ walk.namesBelow? key = some names

/-- What a walk asks of an entry before it looks at it or into it. Names to be left out count for
    directories only, and a link to a directory is none. -/
def passes (walk : Walk) (names : List String) (isDirectory : Bool) : Bool :=
  !(isDirectory && names.getLast?.any (isExcluded walk.exclude)) &&
    !IgnoreRules.isIgnored walk.fs walk.globals (walk.root ++ names) isDirectory

/-- The directories that a walk goes through: the root, and below such a directory those that pass. -/
inductive Entered (walk : Walk) : List String → Prop
  | root : Entered walk []
  | down {front : List String} {name : String} (above : Entered walk front)
      (listed : walk.Lists (front ++ [name]) .directory)
      (passed : walk.passes (front ++ [name]) true = true) : Entered walk (front ++ [name])

structure Reached (walk : Walk) (names : List String) (entry : Entry) : Prop where
  above : walk.Entered names.dropLast
  listed : walk.Lists names entry
  passed : walk.passes names entry.isDirectory = true

structure Keeps (walk : Walk) (rootPath : String) (source : Source) (names : List String)
    (entry : Entry) : Prop where
  reached : walk.Reached names entry
  named : names.getLast?.any isSourceName = true
  content : walk.fs.content? (walk.root ++ names) = some source.content
  file : source.file = sourceFile names source.content
  path : source.path = pathBelow rootPath (Text.join '/' names)

theorem enters_eq_passes (walk : Walk) (names : List String) :
    walk.enters names = walk.passes names true := rfl

theorem passes_false (walk : Walk) (names : List String) : walk.passes names false =
    !IgnoreRules.isIgnored walk.fs walk.globals (walk.root ++ names) false := rfl

theorem Lists.nonempty (listed : walk.Lists names entry) : names ≠ [] := by
  obtain ⟨_, _, below⟩ := listed
  exact (namesBelow?_eq_some_iff.mp below).1

theorem Lists.plain (listed : walk.Lists names entry) : PlainNames (walk.root ++ names) := by
  obtain ⟨_, _, below⟩ := listed
  exact plain_of_namesBelow? below

theorem Lists.plainNames (listed : walk.Lists names entry) : PlainNames names :=
  listed.plain.of_subset (List.subset_append_right _ _)

theorem lists_of_find? (nonempty : names ≠ []) (plain : PlainNames (walk.root ++ names))
    (found : walk.fs.tree.find? (walk.root ++ names) = some entry) : walk.Lists names entry := by
  have apart : walk.root ++ names ≠ [] := by simp [nonempty]
  exact ⟨_, FileTree.mem_entries_of_find? apart found,
    namesBelow?_eq_some_iff.mpr ⟨nonempty, FileTree.segments_key apart plain⟩⟩

theorem Lists.find? (listed : walk.Lists names entry) :
    walk.fs.tree.find? (walk.root ++ names) = some entry := by
  obtain ⟨_, mem, below⟩ := listed
  exact find?_of_namesBelow? mem below

theorem Entered.enters (entered : walk.Entered names) :
    ∀ front ∈ Text.fronts names, walk.enters front = true := by
  induction entered with
  | root => simp [Text.fronts]
  | @down front name _ _ passed ih =>
    intro inner mem
    obtain ⟨nonempty, inside⟩ := Text.mem_fronts.mp mem
    rcases List.prefix_concat_iff.mp inside with whole | earlier
    · rw [whole, enters_eq_passes]
      exact passed
    · exact ih inner (Text.mem_fronts.mpr ⟨nonempty, earlier⟩)

section Pruning

variable (form : walk.fs.tree.WellFormed)
include form

theorem Lists.above (listed : walk.Lists (front ++ names) entry) (apart : front ≠ [])
    (below : names ≠ []) : walk.Lists front .directory := by
  have plain := listed.plain
  have found := listed.find?
  rw [← List.append_assoc] at plain found
  have directory := form.front plain below found
  exact lists_of_find? apart (plain.of_subset (List.subset_append_left _ _))
    (FileTree.isDirectory_iff.mp directory)

theorem entered_of_enters (listed : walk.Lists (front ++ names) entry) (below : names ≠ [])
    (enters : ∀ inner ∈ Text.fronts front, walk.enters inner = true) : walk.Entered front := by
  induction front using List.reverseRecOn generalizing names entry with
  | nil => exact .root
  | append_singleton front name ih =>
    have inner := listed.above form (by simp) below
    have above : walk.Entered front := by
      refine ih inner (List.cons_ne_nil _ _) fun other mem => enters other ?_
      obtain ⟨nonempty, inside⟩ := Text.mem_fronts.mp mem
      exact Text.mem_fronts.mpr ⟨nonempty, inside.trans (List.prefix_append _ _)⟩
    have last := enters _ (Text.mem_fronts.mpr ⟨by simp, List.prefix_rfl⟩)
    exact .down above inner (enters_eq_passes walk _ ▸ last)

theorem entered_dropLast_iff (listed : walk.Lists names entry) : walk.Entered names.dropLast ↔
    (Text.fronts names.dropLast).all walk.enters = true := by
  rw [List.all_eq_true]
  constructor
  · exact Entered.enters
  · intro enters
    have whole := List.dropLast_concat_getLast listed.nonempty
    exact entered_of_enters form (whole.symm ▸ listed) (List.cons_ne_nil _ _) enters

theorem isDirectory_of_content (listed : walk.Lists names entry)
    (found : walk.fs.content? (walk.root ++ names) = some content) : entry.isDirectory = false := by
  cases entry with
  | file _ | link _ => rfl
  | directory =>
    have leads : FileSystem.Leads walk.fs FileSystem.linkLimit [] (walk.root ++ names)
        (walk.root ++ names) :=
      FileSystem.leads_to_entry form listed.plain listed.find? fun _ same => by cases same
    have target := FileSystem.target?_eq_some_iff.mpr ⟨_, leads, listed.find?⟩
    rw [FileSystem.content?_eq_some_iff, target] at found
    cases found

theorem mem_found_iff :
    source ∈ walk.found rootPath ↔ ∃ names entry, walk.Keeps rootPath source names entry := by
  rw [found, List.mem_filterMap]
  constructor
  · intro h
    obtain ⟨⟨key, entry⟩, mem, made⟩ := h
    obtain ⟨names, below, content, admitted, file, path⟩ := source?_eq_some_iff.mp made
    have listed : walk.Lists names entry := ⟨key, mem, below⟩
    have leaf := isDirectory_of_content form listed content
    rw [admits, Bool.and_eq_true, Bool.and_eq_true] at admitted
    obtain ⟨⟨entered, named⟩, kept⟩ := admitted
    have above := (entered_dropLast_iff form listed).mpr entered
    exact ⟨names, entry, ⟨above, listed, by rwa [leaf, passes_false]⟩, named, content, file, path⟩
  · intro h
    obtain ⟨names, entry, ⟨above, listed, passed⟩, named, content, file, path⟩ := h
    have leaf := isDirectory_of_content form listed content
    have entered := (entered_dropLast_iff form listed).mp above
    rw [leaf, passes_false] at passed
    obtain ⟨key, mem, below⟩ := listed
    refine ⟨(key, entry), mem, source?_eq_some_iff.mpr ⟨names, below, content, ?_, file, path⟩⟩
    rw [admits, entered, named, passed]
    rfl

end Pruning

def leaving (walk : Walk) (more : List String) : Walk := { walk with exclude := more }

theorem passes_leaving_file (walk : Walk) (more names : List String) :
    (walk.leaving more).passes names false = walk.passes names false := rfl

section Widens

variable (wider : Widens walk.exclude gone more)
include wider

theorem passes_leaving_directory (front : List String) (name : String) :
    (walk.leaving more).passes (front ++ [name]) true = true ↔
      walk.passes (front ++ [name]) true = true ∧ FileName.shown name ≠ gone := by
  simp only [passes, leaving, Bool.and_eq_true, Bool.not_eq_true', Bool.true_and,
    List.getLast?_concat, Option.any_some, isExcluded_of_widens wider]
  exact and_right_comm

/-- The wider walk goes through the same directories but for those below the name left out. -/
theorem entered_leaving_iff :
    (walk.leaving more).Entered names ↔ walk.Entered names ∧ gone ∉ names.map FileName.shown := by
  constructor
  · intro entered
    induction entered with
    | root => exact ⟨.root, List.not_mem_nil⟩
    | down _ listed passed ih =>
      obtain ⟨above, clear⟩ := ih
      obtain ⟨kept, differs⟩ := (passes_leaving_directory wider _ _).mp passed
      exact ⟨.down above listed kept, by simp [clear, Ne.symm differs]⟩
  · intro h
    obtain ⟨entered, clear⟩ := h
    induction entered with
    | root => exact .root
    | down _ listed passed ih =>
      simp only [List.map_append, List.map_cons, List.map_nil, List.mem_append, List.mem_singleton,
        not_or] at clear
      have passed := (passes_leaving_directory wider _ _).mpr ⟨passed, Ne.symm clear.2⟩
      exact .down (ih clear.1) listed passed

theorem reached_leaving_iff (leaf : entry.isDirectory = false) :
    (walk.leaving more).Reached names entry ↔
      walk.Reached names entry ∧ gone ∉ names.dropLast.map FileName.shown := by
  constructor
  · intro h
    obtain ⟨above, listed, passed⟩ := h
    obtain ⟨above, clear⟩ := (entered_leaving_iff wider).mp above
    rw [leaf, passes_leaving_file, ← leaf] at passed
    exact ⟨⟨above, listed, passed⟩, clear⟩
  · intro h
    obtain ⟨⟨above, listed, passed⟩, clear⟩ := h
    rw [leaf, ← passes_leaving_file walk more, ← leaf] at passed
    exact ⟨(entered_leaving_iff wider).mpr ⟨above, clear⟩, listed, passed⟩

end Widens

theorem segments_sourceFile (nonempty : names ≠ []) (plain : PlainNames names) :
    Text.segments '/' (sourceFile names content).relPath = names.map FileName.shown :=
  Text.segments_join (by simpa using nonempty) (plainNames_shown plain)

theorem directories_sourceFile (nonempty : names ≠ []) (plain : PlainNames names) :
    (sourceFile names content).directories = names.dropLast.map FileName.shown := by
  rw [SourceFile.directories, segments_sourceFile nonempty plain, List.map_dropLast]

theorem baseName_sourceFile (content : ByteArray) (plain : PlainNames (front ++ [name])) :
    (sourceFile (front ++ [name]) content).baseName = FileName.shown name := by
  rw [SourceFile.baseName, segments_sourceFile (by simp) plain, List.map_append, List.map_singleton,
    List.getLastD_concat]

theorem Entered.not_excluded (entered : walk.Entered names) (mem : name ∈ names) :
    isExcluded walk.exclude name = false := by
  induction entered with
  | root => cases mem
  | down _ _ passed ih =>
    rcases List.mem_append.mp mem with above | last
    · exact ih above
    · rw [List.mem_singleton.mp last]
      simp only [passes, Bool.and_eq_true, Bool.not_eq_true', Bool.true_and,
        List.getLast?_concat, Option.any_some] at passed
      exact passed.1

theorem Keeps.directories (keeps : walk.Keeps rootPath source names entry) :
    source.file.directories = names.dropLast.map FileName.shown := by
  rw [keeps.file]
  exact directories_sourceFile keeps.reached.listed.nonempty keeps.reached.listed.plainNames

theorem Keeps.collectible (keeps : walk.Keeps rootPath source names entry) :
    source.file.Collectible walk.exclude := by
  have listed := keeps.reached.listed
  have plain := listed.plainNames
  have named := keeps.named
  have clear : ∀ name ∈ source.file.directories,
      name ∉ Naming.excludedDirectories ∧ name ∉ walk.exclude := by
    intro shown mem
    rw [keeps.directories] at mem
    obtain ⟨name, above, rfl⟩ := List.mem_map.mp mem
    exact isExcluded_eq_false_iff.mp (keeps.reached.above.not_excluded above)
  rw [keeps.file] at clear ⊢
  rcases List.eq_nil_or_concat names with rfl | ⟨front, last, rfl⟩
  · exact absurd rfl listed.nonempty
  · rw [List.concat_eq_append] at plain named clear ⊢
    have base := baseName_sourceFile source.content plain
    refine ⟨?_, rfl, ?_, clear⟩
    · rw [base]
      rw [List.getLast?_concat, Option.any_some, isSourceName, beq_iff_eq] at named
      exact extension?_shown named
    · rw [base]
      simp [sourceFile, Naming.markerFile]

theorem found_leaving (form : walk.fs.tree.WellFormed) (wider : Widens walk.exclude gone more)
    (rootPath : String) : (walk.leaving more).found rootPath =
      (walk.found rootPath).filter fun source => gone ∉ source.file.directories := by
  have before := found_increasing walk rootPath
  have after := found_increasing (walk.leaving more) rootPath
  have form' : (walk.leaving more).fs.tree.WellFormed := form
  refine eq_of_increasing (fun source : Source => source.path) after (before.filter _) ?_
  intro source
  rw [List.mem_filter, decide_eq_true_eq, mem_found_iff form', mem_found_iff form]
  constructor
  · intro h
    obtain ⟨names, entry, keeps⟩ := h
    have directories := keeps.directories
    obtain ⟨reached, named, content, file, path⟩ := keeps
    have leaf := isDirectory_of_content form' reached.listed content
    obtain ⟨reached, clear⟩ := (reached_leaving_iff wider leaf).mp reached
    exact ⟨⟨names, entry, reached, named, content, file, path⟩, by rwa [directories]⟩
  · intro h
    obtain ⟨⟨names, entry, keeps⟩, clear⟩ := h
    rw [keeps.directories] at clear
    obtain ⟨reached, named, content, file, path⟩ := keeps
    have leaf := isDirectory_of_content form reached.listed content
    have reached := (reached_leaving_iff wider leaf).mpr ⟨reached, clear⟩
    exact ⟨names, entry, reached, named, content, file, path⟩

/-- Leaving out one more name takes the files below directories of that name away. -/
theorem sources_leaving (form : walk.fs.tree.WellFormed) (wider : Widens walk.exclude gone more)
    (rootPath : String) : (walk.leaving more).sources rootPath =
      (walk.sources rootPath).filter fun source => gone ∉ source.file.directories := by
  rw [sources, found_leaving form wider, Ranking.sort_filter lawful_byRelPath, sources]

theorem sources_leaving_same (form : walk.fs.tree.WellFormed)
    (same : ∀ name, name ∈ more ↔ name ∈ walk.exclude) (rootPath : String) :
    (walk.leaving more).sources rootPath = walk.sources rootPath := by
  cases given : walk.exclude with
  | nil =>
    have none : more = walk.exclude := by
      rw [given, List.eq_nil_iff_forall_not_mem]
      intro name mem
      simpa [given] using (same name).mp mem
    rw [none]
    rfl
  | cons gone rest =>
    have left : gone ∈ walk.exclude := given ▸ List.mem_cons_self
    have wider : Widens walk.exclude gone more := by
      intro name
      rw [same name]
      exact ⟨.inl, fun h => h.elim id fun eq => eq ▸ left⟩
    rw [sources_leaving form wider, List.filter_eq_self]
    intro source mem
    obtain ⟨names, entry, keeps⟩ := (mem_found_iff form).mp (mem_sources.mp mem)
    have clear : gone ∉ source.file.directories :=
      fun above => (keeps.collectible.directories gone above).2 left
    exact decide_eq_true clear

end Walk

/-- What collecting below a root comes to: the files that the walk comes to, none of them twice and in
    the order of their paths, and fewer of them with every name that is left out besides. Paths can be
    equal only where names are no text. -/
structure Collects (fs : FileSystem) (globals : List IgnoreRule) (rootPath : String)
    (root : Location) (exclude : List String) (found : List Source) : Prop where
  result : sources fs globals rootPath exclude = .ok found
  once : found.Pairwise (·.path ≠ ·.path)
  ordered : found.Pairwise (·.file.relPath ≤ ·.file.relPath)
  increasing : fs.tree.TextBelow root → found.Pairwise (·.file.relPath < ·.file.relPath)
  collectible : ∀ source ∈ found, source.file.Collectible exclude
  walked : ∀ source, source ∈ found ↔ ∃ names entry,
    Walk.Keeps { fs, globals, root, exclude } rootPath source names entry
  wider : ∀ gone more, Widens exclude gone more → sources fs globals rootPath more =
    .ok (found.filter fun source => gone ∉ source.file.directories)
  same : ∀ more, (∀ name, name ∈ more ↔ name ∈ exclude) →
    sources fs globals rootPath more = .ok found

variable {fs : FileSystem} {root : Location} {rootPath : String}

/-- Collecting below a directory goes down and looks only into directories that are not left out.
    This comes to what filtering by the directories of each file comes to, so another name that is
    left out takes the files below directories of that name and no others. -/
theorem exists_collects (form : fs.tree.WellFormed) (located : fs.resolve rootPath = .ok root)
    (directory : fs.tree.isDirectory root = true) (globals : List IgnoreRule)
    (exclude : List String) : ∃ found, Collects fs globals rootPath root exclude found := by
  have gathered := sources_of_root located directory globals
  let walk : Walk := { fs, globals, root, exclude }
  have mem : ∀ source, source ∈ walk.sources rootPath ↔
      ∃ names entry, walk.Keeps rootPath source names entry :=
    fun _ => Walk.mem_sources.trans (Walk.mem_found_iff form)
  have increasing : fs.tree.TextBelow root →
      (walk.sources rootPath).Pairwise (·.file.relPath < ·.file.relPath) :=
    fun text => Walk.sources_increasing text rootPath
  refine ⟨walk.sources rootPath, gathered exclude, Walk.sources_once _ _, Walk.sources_ordered _ _,
    increasing, ?_, mem, ?_, ?_⟩
  · intro source collected
    obtain ⟨names, entry, keeps⟩ := (mem source).mp collected
    exact keeps.collectible
  · intro gone more wider
    rw [gathered more]
    exact congrArg _ (walk.sources_leaving form wider rootPath)
  · intro more same
    rw [gathered more]
    exact congrArg _ (walk.sources_leaving_same form same rootPath)

/-- A directory with a name that is always left out, and in it a file and a directory of one name. -/
def twinFiles : FileSystem where
  base := "/work"
  tree := ⟨.ofList [("venv", .directory), ("venv/keep", .directory),
    ("venv/keep/old.py", .file ByteArray.empty), ("venv/old.py", .directory),
    ("venv/old.py/a.py", .file ByteArray.empty)]⟩

theorem twinFiles_form : twinFiles.WellFormed where
  tree := by decide
  base := by decide
  plain := plainNames_nil
  working := rfl

theorem twinFiles_unsteered : IgnoreRules.Unsteered twinFiles :=
  IgnoreRules.unsteered_of_noLinks (FileTree.find?_ne_link rfl) (by decide)

theorem twinFiles_text : twinFiles.tree.TextBelow ["venv"] := by decide

/-- The root is collected in spite of its name. The name left out takes away what is below the
    directory and not the file. -/
theorem exists_collects_twins : twinFiles.tree.WellFormed ∧
    twinFiles.resolve "/work/venv" = .ok ["venv"] ∧
    twinFiles.tree.isDirectory ["venv"] = true ∧
    ∃ found kept taken, Collects twinFiles [] "/work/venv" ["venv"] [] found ∧
      found.Pairwise (·.file.relPath < ·.file.relPath) ∧
      kept ∈ found ∧ kept.file.relPath = "keep/old.py" ∧
      taken ∈ found ∧ taken.file.relPath = "old.py/a.py" ∧
      ∃ rest, sources twinFiles [] "/work/venv" ["old.py"] = .ok rest ∧
        kept ∈ rest ∧ taken ∉ rest := by
  have plain : PlainNames ["venv"] := by decide
  have path : twinFiles.pathOf ["venv"] = "/work/venv" := by decide
  have located := path ▸ FileSystem.resolve_pathOf twinFiles_form.tree plain rfl
  obtain ⟨found, collects⟩ := exists_collects twinFiles_form.tree located rfl [] []
  let walk : Walk := { fs := twinFiles, globals := [], root := ["venv"], exclude := [] }
  have gathered : walk.sources "/work/venv" = found := by
    have result := collects.result
    rw [sources_of_root located rfl] at result
    exact Except.ok.inj result
  have isKept := walk.mem_sources_of_unsteered twinFiles_form.tree twinFiles_unsteered "/work/venv"
    ["keep", "old.py"] ByteArray.empty (by decide) (by decide) rfl (by decide) (by decide)
  have isTaken := walk.mem_sources_of_unsteered twinFiles_form.tree twinFiles_unsteered "/work/venv"
    ["old.py", "a.py"] ByteArray.empty (by decide) (by decide) rfl (by decide) (by decide)
  have wider : Widens [] "old.py" ["old.py"] := by simp [Widens]
  rw [gathered] at isKept isTaken
  refine ⟨twinFiles_form.tree, located, rfl, found, _, _, collects,
    collects.increasing twinFiles_text, isKept, ?_, isTaken, ?_, _, collects.wider _ _ wider, ?_, ?_⟩
  · decide
  · decide
  · exact List.mem_filter.mpr ⟨isKept, by decide⟩
  · exact fun mem => absurd (List.mem_filter.mp mem).2 (by decide)

/-- Two files that are shown with one path are collected both, and their paths do not increase. -/
theorem lookAlikes_not_increasing : lookAlikes.tree.WellFormed ∧
    lookAlikes.resolve "/work" = .ok [] ∧ lookAlikes.tree.isDirectory [] = true ∧
    ∃ found, sources lookAlikes [] "/work" [] = .ok found ∧
      ¬found.Pairwise (·.file.relPath < ·.file.relPath) := by
  have located : lookAlikes.resolve (lookAlikes.pathOf []) = .ok [] :=
    FileSystem.resolve_pathOf lookAlikes_form.tree plainNames_nil rfl
  refine ⟨lookAlikes_form.tree, located, rfl, _, sources_of_root located rfl [] [], ?_⟩
  intro increasing
  obtain ⟨first, second, isFirst, isSecond, _, _, apart, same⟩ := exists_lookAlikes
  have once := nodup_of_increasing (fun source : Source => source.file.relPath) increasing
  exact apart (congrArg _ (List.inj_on_of_nodup_map once isFirst isSecond same))

end Collect
end DeadCode
