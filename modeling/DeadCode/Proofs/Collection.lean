import Mathlib.Data.List.Basic
import DeadCode.Collect
import DeadCode.Proofs.FileDeletion
import DeadCode.Proofs.FileNames
import DeadCode.Proofs.Rankings

/- What a walk collects, and what it depends on: the files that it lists, the ignore files and the
   marks of repositories. A file that is none of these decides only about itself. No file is
   collected twice, and where all names are text no two files are shown with the same path. -/
namespace DeadCode

namespace Text

variable {xs ys zs : List String} {sep : Char}

theorem lt_of_append_lt {front xs ys : List Char} (less : front ++ xs < front ++ ys) : xs < ys := by
  induction front with
  | nil => exact less
  | cons c front ih => exact ih (List.cons_lt_cons_self.mp less)

theorem lt_of_join_append (nonemptyY : ys ≠ []) (nonemptyZ : zs ≠ [])
    (less : join sep (xs ++ ys) < join sep (xs ++ zs)) : join sep ys < join sep zs := by
  by_cases empty : xs = []
  · rwa [empty, List.nil_append, List.nil_append] at less
  · rw [String.lt_iff, toList_join_append empty nonemptyY,
      toList_join_append empty nonemptyZ] at less
    rw [String.lt_iff]
    exact List.cons_lt_cons_self.mp (lt_of_append_lt less)

end Text

namespace FileTree

variable {tree : FileTree} {location : Location} {entry : String × Entry} {names : List String}

def TextBelow (tree : FileTree) (location : Location) : Prop :=
  ∀ entry ∈ tree.entries.toList, location <+: Text.segments '/' entry.1 →
    ∀ name ∈ (Text.segments '/' entry.1).drop location.length, FileName.IsText name

instance (tree : FileTree) (location : Location) : Decidable (tree.TextBelow location) :=
  inferInstanceAs (Decidable (∀ entry ∈ _, _ → ∀ name ∈ _, _))

theorem isText_of_textBelow (text : tree.TextBelow location) (listed : entry ∈ tree.entries.toList)
    (whole : Text.segments '/' entry.1 = location ++ names) : ∀ name ∈ names, FileName.IsText name := by
  have below := text entry listed
  rw [whole, List.drop_left] at below
  exact below (List.prefix_append _ _)

theorem textBelow_of_top (text : tree.TextBelow []) (location : Location) :
    tree.TextBelow location := by
  intro entry listed _ name mem
  exact text entry listed List.nil_prefix name (List.mem_of_mem_drop mem)

end FileTree

namespace IgnoreRules

variable {fs : FileSystem} {gone location directory : Location} {names : List String}

theorem exists_append_of_mem_above (mem : directory ∈ above location) :
    ∃ rest, location = directory ++ rest := by
  induction location generalizing directory with
  | nil => cases mem
  | cons name location ih =>
    rw [above, List.mem_append, List.mem_map, List.mem_singleton] at mem
    rcases mem with ⟨inner, mem, rfl⟩ | rfl
    · obtain ⟨rest, rfl⟩ := ih mem
      exact ⟨rest, rfl⟩
    · exact ⟨name :: location, rfl⟩

theorem plain_of_mem_above (plain : PlainNames location) (mem : directory ∈ above location) :
    PlainNames directory := by
  obtain ⟨rest, rfl⟩ := exists_append_of_mem_above mem
  exact plain.of_subset (List.subset_append_left _ _)

/-- What decides about a walk in each directory: ignore files and the marks of repositories. -/
def steering : List (List String) :=
  [[".ignore"], [".gitignore"], [".git", "info", "exclude"], [".git"], [".jj"]]

/-- In two file systems the same is found wherever something decides about a walk. -/
def SameSteering (fs after : FileSystem) : Prop :=
  ∀ directory, PlainNames directory → ∀ names ∈ steering,
    after.target? (directory ++ names) = fs.target? (directory ++ names)

theorem steering_steps : ∀ names ∈ steering, PlainNames names ∧ (∀ name ∈ names, IsStep name) ∧
    names ≠ [] ∧ names.getLast?.any Collect.isSourceName = false := by decide

theorem exists_eq_append {links : Nat} {r : Location}
    (noLinks : ∀ location path, fs.tree.find? location ≠ some (.link path))
    (mem : names ∈ steering) (leads : FileSystem.Leads fs links [] (directory ++ names) r) :
    ∃ front, r = front ++ names := by
  obtain ⟨front, _, _, last⟩ := leads.split
  exact ⟨front, last.eq_append noLinks (steering_steps names mem).2.1⟩

/-- In a tree without links no source file decides about a walk. -/
theorem sameSteering_of_noLinks {bytes : ByteArray} (form : fs.tree.WellFormed)
    (noLinks : ∀ location path, fs.tree.find? location ≠ some (.link path))
    (plain : PlainNames gone) (found : fs.tree.find? gone = some (.file bytes))
    (source : gone.getLast?.any Collect.isSourceName = true) :
    SameSteering fs (fs.remove gone) := by
  intro directory plainDirectory names mem
  obtain ⟨plainNames, _, nonempty, noSource⟩ := steering_steps names mem
  rcases FileSystem.target?_remove form (FileSystem.fileAt_of_find? form plain found)
    (plainDirectory.append plainNames) with kept | ⟨_, led⟩
  · exact kept
  · obtain ⟨front, rfl⟩ := exists_eq_append noLinks mem led.ends
    rw [List.getLast?_append_of_ne_nil _ nonempty, noSource] at source
    cases source

theorem verdictAmong_eq_none (directories : List Location) (isDirectory : Bool)
    (silent : ∀ directory ∈ directories, fs.content? (directory ++ names) = none) :
    verdictAmong fs names directories location isDirectory = none := by
  rw [verdictAmong, List.findSome?_eq_none_iff]
  intro directory mem
  simp [inFile, silent directory mem, verdict?]

def Unsteered (fs : FileSystem) : Prop :=
  ∀ directory, PlainNames directory → ∀ names ∈ steering, fs.target? (directory ++ names) = none

theorem unsteered_of_noLinks (noLinks : ∀ location path, fs.tree.find? location ≠ some (.link path))
    (other : ∀ names ∈ steering, ∀ entry ∈ fs.tree.entries.toList,
      (Text.segments '/' entry.1).getLast? ≠ names.getLast?) : Unsteered fs := by
  intro directory plain names mem
  obtain ⟨plainNames, _, nonempty, _⟩ := steering_steps names mem
  cases found : fs.target? (directory ++ names) with
  | none => rfl
  | some entry =>
    obtain ⟨r, leads, found⟩ := FileSystem.target?_eq_some_iff.mp found
    have plainR := leads.plain plainNames_nil (plain.append plainNames)
    obtain ⟨front, rfl⟩ := exists_eq_append noLinks mem leads
    have apart : front ++ names ≠ [] := by simp [nonempty]
    have last := other names mem _ (FileTree.mem_entries_of_find? apart found)
    rw [FileTree.segments_key apart plainR, List.getLast?_append_of_ne_nil _ nonempty] at last
    exact absurd rfl last

theorem Unsteered.isIgnored (bare : Unsteered fs) (globals : List IgnoreRule)
    (plain : PlainNames location) (isDirectory : Bool) :
    isIgnored fs globals location isDirectory = false := by
  have unmarked : (above location).any (isRepository fs) = false := by
    rw [List.any_eq_false]
    intro directory mem
    have plainDirectory := plain_of_mem_above plain mem
    simp [isRepository, repositoryMarks, FileSystem.exists?,
      bare directory plainDirectory [".git"] (by simp [steering]),
      bare directory plainDirectory [".jj"] (by simp [steering])]
  have silent : verdictAmong fs [".ignore"] (above location) location isDirectory = none := by
    refine verdictAmong_eq_none _ _ fun directory mem => ?_
    rw [FileSystem.content?,
      bare directory (plain_of_mem_above plain mem) [".ignore"] (by simp [steering])]
  simp [IgnoreRules.isIgnored, unmarked, silent]

section SameSteering

variable (same : SameSteering fs (fs.remove gone))
include same

theorem exists?_kept (mark : String) (mem : [mark] ∈ steering) (plain : PlainNames directory) :
    (fs.remove gone).exists? (directory ++ [mark]) = fs.exists? (directory ++ [mark]) := by
  rw [FileSystem.exists?, same directory plain _ mem, FileSystem.exists?]

theorem isRepository_kept (plain : PlainNames directory) :
    isRepository (fs.remove gone) directory = isRepository fs directory := by
  simp only [isRepository, repositoryMarks, List.any_cons, List.any_nil,
    exists?_kept same ".git" (by simp [steering]) plain,
    exists?_kept same ".jj" (by simp [steering]) plain]

theorem inFile_kept (mem : names ∈ steering) (plain : PlainNames directory) :
    inFile (fs.remove gone) directory names = inFile fs directory names := by
  rw [inFile, FileSystem.content?, same directory plain names mem, inFile, FileSystem.content?]

theorem insideRepository_kept {directories : List Location}
    (plain : ∀ directory ∈ directories, PlainNames directory) :
    insideRepository (fs.remove gone) directories = insideRepository fs directories := by
  induction directories with
  | nil => rfl
  | cons directory rest ih =>
    have tail := ih fun d mem => plain d (List.mem_cons_of_mem _ mem)
    rw [insideRepository, isRepository_kept same (plain directory List.mem_cons_self), tail,
      insideRepository]

omit same in
theorem insideRepository_subset (fs : FileSystem) (directories : List Location) :
    insideRepository fs directories ⊆ directories := by
  induction directories with
  | nil => exact List.Subset.refl _
  | cons directory rest ih =>
    rw [insideRepository]
    split
    · simp
    · exact List.cons_subset_cons _ ih

theorem verdictAmong_kept (names : List String) (mem : names ∈ steering) (isDirectory : Bool)
    {directories : List Location} (plain : ∀ directory ∈ directories, PlainNames directory) :
    verdictAmong (fs.remove gone) names directories location isDirectory =
      verdictAmong fs names directories location isDirectory := by
  induction directories with
  | nil => rfl
  | cons directory rest ih =>
    have tail := ih fun d mem => plain d (List.mem_cons_of_mem _ mem)
    rw [verdictAmong] at tail ⊢
    rw [List.findSome?_cons, inFile_kept same mem (plain directory List.mem_cons_self), tail,
      verdictAmong, verdictAmong, List.findSome?_cons]

theorem isIgnored_kept (globals : List IgnoreRule) (plain : PlainNames location)
    (isDirectory : Bool) :
    isIgnored (fs.remove gone) globals location isDirectory =
      isIgnored fs globals location isDirectory := by
  have all : ∀ directory ∈ above location, PlainNames directory := fun _ => plain_of_mem_above plain
  have inside : ∀ directory ∈ insideRepository fs (above location), PlainNames directory :=
    fun _ mem => all _ (insideRepository_subset _ _ mem)
  have marked : (above location).any (isRepository (fs.remove gone)) =
      (above location).any (isRepository fs) := by
    rw [Bool.eq_iff_iff, List.any_eq_true, List.any_eq_true]
    exact exists_congr fun d => and_congr_right fun mem => by rw [isRepository_kept same (all d mem)]
  have globally : globalVerdict (fs.remove gone) globals location isDirectory =
      globalVerdict fs globals location isDirectory := rfl
  simp only [isIgnored, marked, globally, insideRepository_kept same all,
    verdictAmong_kept same [".ignore"] (by simp [steering]) isDirectory all,
    verdictAmong_kept same [".gitignore"] (by simp [steering]) isDirectory inside,
    verdictAmong_kept same [".git", "info", "exclude"] (by simp [steering]) isDirectory inside]

end SameSteering
end IgnoreRules

namespace Collect

namespace Walk

variable {walk : Walk} {gone goal : Location} {names : List String} {key rootPath : String}
variable {entry : String × Entry} {source : Source} {bytes : ByteArray}

theorem namesBelow?_eq_some_iff : walk.namesBelow? key = some names ↔
    names ≠ [] ∧ Text.segments '/' key = walk.root ++ names := by
  unfold namesBelow?
  constructor
  · intro below
    simp only at below
    split at below
    · next h =>
      rw [Bool.and_eq_true, List.isPrefixOf_iff_prefix, decide_eq_true_eq] at h
      obtain ⟨⟨rest, whole⟩, longer⟩ := h
      rw [← whole, List.drop_left, Option.some.injEq] at below
      subst below
      refine ⟨?_, whole.symm⟩
      rintro rfl
      simp [← whole] at longer
    · cases below
  · intro h
    obtain ⟨nonempty, whole⟩ := h
    have longer : 0 < names.length := List.length_pos_iff.mpr nonempty
    simp [whole, longer]

theorem plain_of_namesBelow? (below : walk.namesBelow? key = some names) :
    PlainNames (walk.root ++ names) := by
  rw [← (namesBelow?_eq_some_iff.mp below).2]
  exact plainNames_segments key

theorem find?_of_namesBelow? (listed : entry ∈ walk.fs.tree.entries.toList)
    (below : walk.namesBelow? entry.1 = some names) :
    walk.fs.tree.find? (walk.root ++ names) = some entry.2 := by
  obtain ⟨nonempty, whole⟩ := namesBelow?_eq_some_iff.mp below
  have key : FileTree.key (walk.root ++ names) = entry.1 := by
    rw [FileTree.key, ← whole, Text.join_segments]
  rw [FileTree.find?_of_ne_nil (by simp [nonempty]), key]
  exact NameMap.get?_eq_some_iff.mpr listed

theorem source?_eq_some_iff : walk.source? rootPath entry = some source ↔
    ∃ names, walk.namesBelow? entry.1 = some names ∧
      walk.fs.content? (walk.root ++ names) = some source.content ∧ walk.admits names = true ∧
      source.file = sourceFile names source.content ∧
      source.path = pathBelow rootPath (Text.join '/' names) := by
  obtain ⟨file, path, content⟩ := source
  unfold source?
  simp only [Option.bind_eq_bind, Option.bind_eq_some_iff, Option.pure_def]
  refine exists_congr fun names => and_congr_right fun _ => ?_
  constructor
  · intro h
    obtain ⟨bytes, found, made⟩ := h
    split at made
    · next admitted =>
      cases made
      exact ⟨found, admitted, rfl, rfl⟩
    · cases made
  · intro h
    obtain ⟨found, admitted, rfl, rfl⟩ := h
    exact ⟨content, found, by rw [if_pos admitted]⟩

section Order

theorem lawful_byRelPath : ∀ order ∈ [Source.byRelPath], Std.TransCmp order := by
  intro order mem
  rw [List.mem_singleton.mp mem]
  exact Ranking.trans_of_key (fun source : Source => source.file.relPath)
    (inferInstanceAs (Std.TransCmp Ranking.text))

theorem mem_sources : source ∈ walk.sources rootPath ↔ source ∈ walk.found rootPath :=
  Ranking.mem_sort

theorem sources_ordered (walk : Walk) (rootPath : String) :
    (walk.sources rootPath).Pairwise (·.file.relPath ≤ ·.file.relPath) := by
  refine (Ranking.sort_ordered lawful_byRelPath _).imp ?_
  intro a b notAbove
  exact Ranking.text_ne_gt_iff.mp (by simpa [Ranking.firstOf, Source.byRelPath] using notAbove)

theorem pathBelow_lt {path other : String} (less : path < other) :
    pathBelow rootPath path < pathBelow rootPath other := by
  have behind : ∀ front : String, front ++ path < front ++ other := by
    intro front
    rw [String.lt_iff, String.toList_append, String.toList_append]
    exact List.append_left_lt (String.lt_iff.mp less)
  unfold pathBelow
  split
  · exact behind _
  · exact behind _

theorem found_increasing (walk : Walk) (rootPath : String) :
    (walk.found rootPath).Pairwise (·.path < ·.path) := by
  refine walk.fs.tree.entries.sorted.filterMap _ ?_
  intro a b less first made second made'
  obtain ⟨names, below, _, _, _, path⟩ := source?_eq_some_iff.mp made
  obtain ⟨names', below', _, _, _, path'⟩ := source?_eq_some_iff.mp made'
  obtain ⟨nonempty, whole⟩ := namesBelow?_eq_some_iff.mp below
  obtain ⟨nonempty', whole'⟩ := namesBelow?_eq_some_iff.mp below'
  rw [← Text.join_segments '/' a.1, ← Text.join_segments '/' b.1, whole, whole'] at less
  rw [path, path']
  exact pathBelow_lt (Text.lt_of_join_append nonempty nonempty' less)

theorem sources_once (walk : Walk) (rootPath : String) :
    (walk.sources rootPath).Pairwise (·.path ≠ ·.path) := by
  refine ((List.mergeSort_perm _ _).pairwise_iff fun {_ _} => Ne.symm).mpr ?_
  exact List.pairwise_map.mp (nodup_of_increasing _ (found_increasing walk rootPath))

theorem path_of_text (text : walk.fs.tree.TextBelow walk.root)
    (mem : source ∈ walk.sources rootPath) :
    source.path = pathBelow rootPath source.file.relPath := by
  obtain ⟨entry, listed, made⟩ := List.mem_filterMap.mp (mem_sources.mp mem)
  obtain ⟨names, below, _, _, file, path⟩ := source?_eq_some_iff.mp made
  have plain := FileTree.isText_of_textBelow text listed (namesBelow?_eq_some_iff.mp below).2
  rw [path, file, sourceFile, FileName.map_shown plain]

/-- Where all names are text the paths below the root increase strictly. -/
theorem sources_increasing (text : walk.fs.tree.TextBelow walk.root) (rootPath : String) :
    (walk.sources rootPath).Pairwise (·.file.relPath < ·.file.relPath) := by
  refine ((sources_ordered walk rootPath).and (sources_once walk rootPath)).imp_of_mem ?_
  intro a b memA memB h
  obtain ⟨ordered, apart⟩ := h
  rw [path_of_text text memA, path_of_text text memB] at apart
  exact NameSet.lt_of_not_lt_of_ne ordered fun same => apart (congrArg _ same.symm)

end Order

theorem plain_front {front : List String} (plain : PlainNames (walk.root ++ names))
    (mem : front ∈ Text.fronts names.dropLast) : PlainNames (walk.root ++ front) := by
  have inside : front ⊆ names :=
    List.Subset.trans (Text.mem_fronts.mp mem).2.subset (List.dropLast_subset _)
  exact (plain.of_subset (List.subset_append_left _ _)).append
    (plain.of_subset (List.Subset.trans inside (List.subset_append_right _ _)))

theorem admits_of_unsteered (bare : IgnoreRules.Unsteered walk.fs)
    (plain : PlainNames (walk.root ++ names)) :
    walk.admits names = ((Text.fronts names.dropLast).all
      (fun front => !front.getLast?.any (isExcluded walk.exclude)) &&
        names.getLast?.any isSourceName) := by
  have entered : (Text.fronts names.dropLast).all walk.enters =
      (Text.fronts names.dropLast).all fun front => !front.getLast?.any (isExcluded walk.exclude) := by
    rw [Bool.eq_iff_iff, List.all_eq_true, List.all_eq_true]
    apply forall₂_congr
    intro front mem
    rw [enters, bare.isIgnored _ (plain_front plain mem), Bool.not_false, Bool.and_true]
  rw [admits, entered, bare.isIgnored _ plain, Bool.not_false, Bool.and_true]

theorem mem_sources_of_unsteered (form : walk.fs.tree.WellFormed)
    (bare : IgnoreRules.Unsteered walk.fs) (rootPath : String) (names : List String)
    (content : ByteArray) (nonempty : names ≠ [])
    (plain : PlainNames (walk.root ++ names))
    (found : walk.fs.tree.find? (walk.root ++ names) = some (.file content))
    (named : names.getLast?.any isSourceName = true)
    (clear : ∀ name ∈ names.dropLast, isExcluded walk.exclude name = false) :
    ⟨sourceFile names content, pathBelow rootPath (Text.join '/' names), content⟩ ∈
      walk.sources rootPath := by
  have admitted : walk.admits names = true := by
    rw [admits_of_unsteered bare plain, named, Bool.and_true, List.all_eq_true]
    intro front mem
    obtain ⟨apart, inside⟩ := Text.mem_fronts.mp mem
    have last := inside.subset (List.getLast_mem apart)
    rw [List.getLast?_eq_getLast_of_ne_nil apart, Option.any_some, clear _ last]
    rfl
  have apart : walk.root ++ names ≠ [] := by simp [nonempty]
  have listed := FileTree.mem_entries_of_find? apart found
  have below : walk.namesBelow? (FileTree.key (walk.root ++ names)) = some names :=
    namesBelow?_eq_some_iff.mpr ⟨nonempty, FileTree.segments_key apart plain⟩
  have lies := FileSystem.fileAt_of_find? form plain found
  exact mem_sources.mpr (List.mem_filterMap.mpr
    ⟨_, listed, source?_eq_some_iff.mpr ⟨names, below, lies.content?, admitted, rfl, rfl⟩⟩)

def without (walk : Walk) (gone : Location) : Walk := { walk with fs := walk.fs.remove gone }

section Deletion

variable (same : IgnoreRules.SameSteering walk.fs (walk.fs.remove gone))
include same

theorem enters_without (plain : PlainNames (walk.root ++ names)) :
    (walk.without gone).enters names = walk.enters names := by
  rw [enters, without, IgnoreRules.isIgnored_kept same _ plain, enters]

theorem admits_without (plain : PlainNames (walk.root ++ names)) :
    (walk.without gone).admits names = walk.admits names := by
  have entered : (Text.fronts names.dropLast).all (walk.without gone).enters =
      (Text.fronts names.dropLast).all walk.enters := by
    rw [Bool.eq_iff_iff, List.all_eq_true, List.all_eq_true]
    apply forall₂_congr
    intro front mem
    rw [enters_without same (plain_front plain mem)]
  rw [admits, entered, without, IgnoreRules.isIgnored_kept same _ plain, admits]

variable (form : walk.fs.tree.WellFormed) (lies : walk.fs.FileAt gone goal bytes)
include form lies

theorem source?_without (rootPath : String) (entry : String × Entry) :
    (walk.without gone).source? rootPath entry = walk.source? rootPath entry ∨
      (walk.without gone).source? rootPath entry = none ∧
        ∀ source, walk.source? rootPath entry = some source → source.content = bytes := by
  cases below : walk.namesBelow? entry.1 with
  | none =>
    left
    have below' : (walk.without gone).namesBelow? entry.1 = none := below
    simp [source?, below, below']
  | some names =>
    have below' : (walk.without gone).namesBelow? entry.1 = some names := below
    have plainNames : PlainNames (walk.root ++ names) := plain_of_namesBelow? below
    have admitted := admits_without same plainNames
    rcases FileSystem.target?_remove form lies plainNames with kept | ⟨lost, led⟩
    · left
      have content : (walk.without gone).fs.content? ((walk.without gone).root ++ names) =
          walk.fs.content? (walk.root ++ names) := by
        simp only [FileSystem.content?, without, kept]
      simp only [source?, below, below', Option.bind_eq_bind, Option.bind_some, content, admitted]
    · right
      have content : (walk.without gone).fs.content? ((walk.without gone).root ++ names) = none := by
        simp only [FileSystem.content?, without, lost]
      refine ⟨by simp [source?, below', content], ?_⟩
      intro source made
      obtain ⟨_, again, found, _⟩ := source?_eq_some_iff.mp made
      rw [below, Option.some.injEq] at again
      subst again
      rw [led.content?, Option.some.injEq] at found
      exact found.symm

theorem filter_found_without (rootPath : String) (keep : Source → Bool)
    (blind : ∀ source, source.content = bytes → keep source = false) :
    ((walk.without gone).found rootPath).filter keep = (walk.found rootPath).filter keep := by
  have listed : (walk.without gone).fs.tree.entries.toList =
      walk.fs.tree.entries.toList.filter (fun entry => entry.1 != FileTree.key gone) := rfl
  rw [found, found, List.filter_filterMap, List.filter_filterMap, listed, List.filterMap_filter]
  apply List.filterMap_congr
  intro entry _
  split
  · rcases source?_without same form lies rootPath entry with kept | ⟨lost, content⟩
    · rw [kept]
    · rw [lost]
      cases made : walk.source? rootPath entry with
      | none => rfl
      | some source => simp [Option.filter, blind source (content source made)]
  · next at_gone =>
    have key : entry.1 = FileTree.key gone := by simpa using at_gone
    cases made : walk.source? rootPath entry with
    | none => rfl
    | some source =>
      obtain ⟨names, below, found, _⟩ := source?_eq_some_iff.mp made
      have whole := (namesBelow?_eq_some_iff.mp below).2
      rw [key, FileTree.segments_key (lies.ne_nil form) lies.plain] at whole
      rw [← whole, lies.content?, Option.some.injEq] at found
      simp [Option.filter, blind source found.symm]

/-- Whatever is drawn from sources with another content is drawn after the deletion too. -/
theorem filterMap_sources_without {β : Type} (rootPath : String) (f : Source → Option β)
    (blind : ∀ source, source.content = bytes → f source = none) :
    ((walk.without gone).sources rootPath).filterMap f = (walk.sources rootPath).filterMap f := by
  have drawn : ∀ xs : List Source, xs.filterMap f = (xs.filter (f · |>.isSome)).filterMap f := by
    intro xs
    rw [List.filterMap_filter]
    apply List.filterMap_congr
    intro source _
    cases f source <;> rfl
  have kept := filter_found_without same form lies rootPath (f · |>.isSome)
    fun source content => by rw [blind source content, Option.isSome_none]
  rw [drawn, sources, ← Ranking.sort_filter lawful_byRelPath, kept,
    Ranking.sort_filter lawful_byRelPath, ← sources, ← drawn]

end Deletion
end Walk

/-- Two files, `.py` behind the byte 0xfe and behind 0xff. These are no text and are shown alike. -/
def lookAlikes : FileSystem where
  base := "/work"
  tree := ⟨.ofList [("\x00\u00fe.py", .file ByteArray.empty),
    ("\x00\u00ff.py", .file ByteArray.empty)]⟩

theorem lookAlikes_form : lookAlikes.WellFormed where
  tree := by decide
  base := by decide
  plain := plainNames_nil
  working := rfl

theorem exists_lookAlikes : ∃ first second : Source,
    first ∈ Walk.sources { fs := lookAlikes, root := [] } "/work" ∧
      second ∈ Walk.sources { fs := lookAlikes, root := [] } "/work" ∧
      first.content = ByteArray.empty ∧ second.content = ByteArray.empty ∧
      first.path ≠ second.path ∧ first.file.relPath = second.file.relPath := by
  have bare : IgnoreRules.Unsteered lookAlikes :=
    IgnoreRules.unsteered_of_noLinks (FileTree.find?_ne_link rfl) (by decide)
  let walk : Walk := { fs := lookAlikes, root := [] }
  have collected := walk.mem_sources_of_unsteered lookAlikes_form.tree bare "/work"
  have first := collected ["\x00\u00fe.py"] ByteArray.empty (by decide) (by decide) rfl (by decide)
    (by decide)
  have second := collected ["\x00\u00ff.py"] ByteArray.empty (by decide) (by decide) rfl (by decide)
    (by decide)
  have shown : FileName.shown "\x00\u00fe.py" = FileName.shown "\x00\u00ff.py" := by decide
  refine ⟨_, _, first, second, rfl, rfl, by decide, ?_⟩
  simp only [Walk.sourceFile, List.map_cons, shown]

end Collect
end DeadCode
