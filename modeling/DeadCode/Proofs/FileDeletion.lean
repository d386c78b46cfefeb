import DeadCode.Proofs.FilePaths

/- A file is taken out of a file system. Only paths that lead to it, directly or over links, lead
   nowhere afterwards; every other path leads where it led. -/
namespace DeadCode

namespace FileTree

variable {tree : FileTree} {location other : Location} {entry : Entry}

def remove (tree : FileTree) (location : Location) : FileTree :=
  ⟨tree.entries.filterKeys (· != key location)⟩

theorem find?_of_remove (found : (tree.remove location).find? other = some entry) :
    tree.find? other = some entry := by
  by_cases top : other = []
  · rwa [top] at found ⊢
  · rw [find?_of_ne_nil top] at found ⊢
    rw [remove, NameMap.get?_filterKeys] at found
    split at found
    · exact found
    · cases found

theorem isDirectory_of_remove (directory : (tree.remove location).isDirectory other = true) :
    tree.isDirectory other = true :=
  isDirectory_iff.mpr (find?_of_remove (isDirectory_iff.mp directory))

theorem find?_remove (nonempty : location ≠ []) (plain : PlainNames location)
    (plainOther : PlainNames other) (apart : other ≠ location) :
    (tree.remove location).find? other = tree.find? other := by
  by_cases top : other = []
  · rw [top]
    rfl
  · have keys : key other ≠ key location := fun same =>
      apart (Text.join_injective top nonempty plainOther plain same)
    rw [find?_of_ne_nil top, find?_of_ne_nil top, remove, NameMap.get?_filterKeys,
      if_pos (by simpa using keys)]

theorem isDirectory_remove (nonempty : location ≠ []) (plain : PlainNames location)
    (plainOther : PlainNames other) (apart : other ≠ location)
    (directory : tree.isDirectory other = true) :
    (tree.remove location).isDirectory other = true := by
  rw [isDirectory_iff, find?_remove nonempty plain plainOther apart]
  exact isDirectory_iff.mp directory

theorem WellFormed.remove (form : tree.WellFormed) (nonempty : location ≠ [])
    (plain : PlainNames location) (leaf : tree.isDirectory location = false) :
    (tree.remove location).WellFormed where
  steps entry mem := form.steps entry ((List.mem_filter.mp mem).1)
  parents entry mem := by
    have parent := form.parents entry ((List.mem_filter.mp mem).1)
    apply isDirectory_remove nonempty plain _ _ parent
    · exact (plainNames_segments _).of_subset (List.dropLast_subset _)
    · intro same
      rw [same, leaf] at parent
      cases parent

end FileTree

namespace FileSystem

variable {fs : FileSystem} {links : Nat} {here location other goal r : Location}
variable {names : List String} {path : String} {bytes : ByteArray}

def remove (fs : FileSystem) (location : Location) : FileSystem :=
  { fs with tree := fs.tree.remove location }

/-- Takes away the entry that a path names. Of a link it is the link itself that goes. -/
def delete (fs : FileSystem) (path : String) : FileSystem :=
  match fs.locate fs.workingDirectory path with
  | none => fs
  | some (start, names) =>
    match fs.follow false linkLimit start names.dropLast, names.getLast? with
    | .ok directory, some last => fs.remove (directory ++ [last])
    | _, _ => fs

/-- A tree of directories, a base that is written without a slash at its end, and a directory to
    work in. -/
structure WellFormed (fs : FileSystem) : Prop where
  tree : fs.tree.WellFormed
  base : Text.endsWith fs.base "/" = false
  plain : PlainNames fs.workingDirectory
  working : fs.tree.isDirectory fs.workingDirectory = true

theorem leads_of_remove (leads : Leads (fs.remove location) links here names r) :
    Leads fs links here names r := by
  induction leads with
  | done => exact .done
  | stay directory same _ ih => exact .stay (FileTree.isDirectory_of_remove directory) same ih
  | up directory _ ih => exact .up (FileTree.isDirectory_of_remove directory) ih
  | enter directory step found noLink _ ih =>
    exact .enter (FileTree.isDirectory_of_remove directory) step (FileTree.find?_of_remove found)
      noLink ih
  | link directory step found located _ ih =>
    exact .link (FileTree.isDirectory_of_remove directory) step (FileTree.find?_of_remove found)
      located ih

theorem target?_eq_some_iff {entry : Entry} : fs.target? location = some entry ↔
    ∃ r, Leads fs linkLimit [] location r ∧ fs.tree.find? r = some entry := by
  constructor
  · intro found
    unfold target? at found
    split at found
    · next r ends => exact ⟨r, leads_of_follow ends, found⟩
    · cases found
  · intro h
    obtain ⟨r, leads, found⟩ := h
    rw [target?, follow_of_leads leads]
    exact found

theorem content?_eq_some_iff {content : ByteArray} :
    fs.content? location = some content ↔ fs.target? location = some (.file content) := by
  unfold content?
  split
  · next found => simp [found]
  · next other =>
    constructor
    · intro absent
      cases absent
    · intro found
      exact absurd found (other content)

structure FileAt (fs : FileSystem) (location goal : Location) (bytes : ByteArray) : Prop where
  plain : PlainNames location
  ends : Leads fs linkLimit [] location goal
  file : fs.tree.find? goal = some (.file bytes)

theorem FileAt.leaf (lies : fs.FileAt location goal bytes) : fs.tree.isDirectory goal = false := by
  rw [FileTree.isDirectory, lies.file]
  rfl

theorem exists_fileAt (plain : PlainNames location) (found : fs.content? location = some bytes) :
    ∃ goal, fs.FileAt location goal bytes := by
  obtain ⟨goal, ends, file⟩ := target?_eq_some_iff.mp (content?_eq_some_iff.mp found)
  exact ⟨goal, plain, ends, file⟩

theorem fileAt_of_find? (form : fs.tree.WellFormed) (plain : PlainNames location)
    (found : fs.tree.find? location = some (.file bytes)) : fs.FileAt location location bytes :=
  ⟨plain, leads_to_entry form plain found (fun _ same => by cases same), found⟩

theorem FileAt.content? (lies : fs.FileAt location goal bytes) : fs.content? location = some bytes :=
  content?_eq_some_iff.mpr (target?_eq_some_iff.mpr ⟨goal, lies.ends, lies.file⟩)

section Deletion

-- The entry at `location` is taken away, a file or a link that leads to one.
variable (form : fs.tree.WellFormed) (lies : fs.FileAt location goal bytes)
include form lies

theorem FileAt.not_directory : fs.tree.isDirectory location = false := by
  by_contra directory
  rw [Bool.not_eq_false, FileTree.isDirectory_iff] at directory
  have itself : Leads fs linkLimit [] location location :=
    leads_to_entry form lies.plain directory fun _ same => by cases same
  have leaf := lies.leaf
  rw [lies.ends.unique itself, FileTree.isDirectory_iff.mpr directory] at leaf
  cases leaf

theorem FileAt.ne_nil : location ≠ [] := by
  rintro rfl
  have top := lies.not_directory form
  cases top

theorem isDirectory_kept (plain : PlainNames other) (directory : fs.tree.isDirectory other = true) :
    (fs.remove location).tree.isDirectory other = true := by
  apply FileTree.isDirectory_remove (lies.ne_nil form) lies.plain plain _ directory
  rintro rfl
  rw [lies.not_directory form] at directory
  cases directory

/-- A step onto the location that is taken away ends at its goal: nothing leads on from there. -/
theorem eq_goal_of_step {name : String} {rest : List String} (plainHere : PlainNames here)
    (directory : fs.tree.isDirectory here = true) (onto : here ++ [name] = location)
    (leads : Leads fs links here ([name] ++ rest) r) : r = goal := by
  obtain ⟨mid, left, first, second⟩ := leads.split
  have way : Leads fs links [] (here ++ [name]) mid :=
    leads_down form (by simpa using plainHere) (by simpa using directory) first
  rw [onto] at way
  obtain rfl := way.unique lies.ends
  exact (second.eq_of_not_directory lies.leaf).2

theorem Leads.remove (leads : Leads fs links here names r) (plainHere : PlainNames here)
    (plainNames : PlainNames names) : Leads (fs.remove location) links here names r ∨ r = goal := by
  have nonempty := lies.ne_nil form
  induction leads with
  | done => exact .inl .done
  | stay directory same _ ih =>
    have kept := isDirectory_kept form lies plainHere directory
    exact (ih plainHere plainNames.tail).imp_left (.stay kept same)
  | up directory _ ih =>
    have kept := isDirectory_kept form lies plainHere directory
    exact (ih (plainHere.of_subset (List.dropLast_subset _)) plainNames.tail).imp_left (.up kept)
  | @enter links here r name rest entry directory step found noLink later ih =>
    have plainNext : PlainNames (here ++ [name]) := plainHere.step plainNames
    by_cases onto : here ++ [name] = location
    · exact .inr (eq_goal_of_step form lies plainHere directory onto
        (.enter directory step found noLink later))
    · have kept := isDirectory_kept form lies plainHere directory
      rw [← FileTree.find?_remove nonempty lies.plain plainNext onto] at found
      exact (ih plainNext plainNames.tail).imp_left (.enter kept step found noLink)
  | @link links here start r name path names rest directory step found located later ih =>
    have plainNext : PlainNames (here ++ [name]) := plainHere.step plainNames
    by_cases onto : here ++ [name] = location
    · exact .inr (eq_goal_of_step form lies plainHere directory onto
        (.link directory step found located later))
    · have kept := isDirectory_kept form lies plainHere directory
      rw [← FileTree.find?_remove nonempty lies.plain plainNext onto] at found
      have plainLink := (start_of_locate located).2.append plainNames.tail
      exact (ih (plain_of_locate located plainHere) plainLink).imp_left
        (.link kept step found located)

theorem resolve_kept (plainWorking : PlainNames fs.workingDirectory)
    (found : fs.resolve path = .ok r) (directory : fs.tree.isDirectory r = true) :
    (fs.remove location).resolve path = .ok r := by
  unfold resolve resolveFrom at found ⊢
  split at found
  · next start names located =>
    have located' : (fs.remove location).locate (fs.remove location).workingDirectory path =
        some (start, names) := located
    rw [located']
    rcases Leads.remove form lies (leads_of_follow found) (plain_of_locate located plainWorking)
      (start_of_locate located).2 with leads | rfl
    · exact follow_of_leads leads
    · rw [lies.leaf] at directory
      cases directory
  · cases found

/-- What a location leads to is the same, unless it led to the file that is gone. -/
theorem target?_remove (plainOther : PlainNames other) :
    (fs.remove location).target? other = fs.target? other ∨
      (fs.remove location).target? other = none ∧ fs.FileAt other goal bytes := by
  have nonempty := lies.ne_nil form
  have kept : (fs.remove location).tree.WellFormed :=
    form.remove nonempty lies.plain (lies.not_directory form)
  cases after : (fs.remove location).follow false linkLimit [] other with
  | ok r =>
    have leads := leads_of_follow after
    obtain ⟨entry, found, _⟩ := leads.exists_entry kept plainNames_nil plainOther
      ⟨.directory, rfl, fun _ same => by cases same⟩
    left
    rw [target?_eq_some_iff.mpr ⟨r, leads, found⟩,
      target?_eq_some_iff.mpr ⟨r, leads_of_remove leads, FileTree.find?_of_remove found⟩]
  | error problem =>
    have gone : (fs.remove location).target? other = none := by rw [target?, after]
    cases before : fs.follow false linkLimit [] other with
    | ok r =>
      rcases Leads.remove form lies (leads_of_follow before) plainNames_nil plainOther with
        leads | rfl
      · rw [follow_of_leads leads] at after
        cases after
      · exact .inr ⟨gone, plainOther, leads_of_follow before, lies.file⟩
    | error problem =>
      left
      rw [gone, target?, before]

end Deletion

theorem pathOf_of_ne_nil (nonempty : location ≠ []) :
    fs.pathOf location = fs.base ++ "/" ++ FileTree.key location := by
  rw [pathOf, if_neg (by simpa using nonempty)]

theorem locate_pathOf (nonempty : location ≠ []) (plain : PlainNames location) :
    fs.locate here (fs.pathOf location) = some ([], location) := by
  have written : fs.pathOf location = fs.base ++ "/" ++ FileTree.key location :=
    pathOf_of_ne_nil nonempty
  have longer : fs.pathOf location ≠ fs.base := by
    intro same
    have lengths := congrArg (fun text => text.toList.length) (written.symm.trans same)
    simp at lengths
  have nonblank : fs.pathOf location ≠ "" := by simp [written]
  have below : Text.startsWith (fs.pathOf location) (fs.base ++ "/") = true := by
    have parted : (fs.pathOf location).toList =
        (fs.base ++ "/").toList ++ (FileTree.key location).toList := by
      rw [written, String.toList_append]
    rw [Text.startsWith, List.isPrefixOf_iff_prefix, parted]
    exact List.prefix_append _ _
  have rest : String.ofList ((fs.pathOf location).toList.drop (fs.base.toList.length + 1)) =
      FileTree.key location := by
    apply String.ext
    rw [written, String.toList_ofList, String.toList_append, String.toList_append]
    exact List.drop_left' (by simp)
  rw [locate, if_neg (by simpa using nonblank), if_neg (by simpa using longer), if_pos below, rest,
    FileTree.segments_key nonempty plain]

theorem resolve_pathOf (form : fs.tree.WellFormed) (plain : PlainNames location)
    (directory : fs.tree.isDirectory location = true) :
    fs.resolve (fs.pathOf location) = .ok location := by
  by_cases top : location = []
  · subst top
    by_cases bare : fs.base = ""
    · have written : fs.pathOf [] = "/" := by simp [pathOf, bare]
      have located : fs.locate fs.workingDirectory "/" = some ([], [""]) := by
        rw [locate, bare]
        rfl
      rw [written, resolve, resolveFrom, located]
      exact follow_of_leads (.stay directory (.inl rfl) .done)
    · have written : fs.pathOf [] = fs.base := by simp [pathOf, bare]
      rw [written, resolve, resolveFrom, locate, if_neg (by simpa using bare), if_pos (by simp)]
      exact follow_of_leads .done
  · rw [resolve, resolveFrom, locate_pathOf top plain]
    exact follow_of_leads (leads_to_entry form plain (FileTree.isDirectory_iff.mp directory)
      fun _ same => by cases same)

theorem delete_pathOf {entry : Entry} (form : fs.tree.WellFormed) (plain : PlainNames location)
    (nonempty : location ≠ []) (found : fs.tree.find? location = some entry) :
    fs.delete (fs.pathOf location) = fs.remove location := by
  rcases List.eq_nil_or_concat location with rfl | ⟨front, last, rfl⟩
  · contradiction
  · rw [List.concat_eq_append] at *
    have directory := FileTree.isDirectory_iff.mp (form.parent plain found)
    have parent : fs.follow false linkLimit [] front = .ok front := by
      apply follow_of_leads
      apply leads_to_entry form (plain.of_subset (List.subset_append_left _ _)) directory
      intro _ same
      cases same
    rw [delete, locate_pathOf nonempty plain]
    simp only [List.dropLast_concat, List.getLast?_concat, parent]

end FileSystem
end DeadCode
