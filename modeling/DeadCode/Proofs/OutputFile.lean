import DeadCode.CommandLine
import DeadCode.Proofs.CheckedRoot
import DeadCode.Proofs.OptionWords

/- The file that a report goes to. It is made or emptied before the root is looked for, so a run
   that finds no root has written no report and has emptied the file all the same. Nothing else
   changes. -/
namespace DeadCode

namespace FileTree

variable {tree : FileTree} {location other : Location} {entry : Entry}

theorem find?_put_self (nonempty : location ≠ []) :
    (tree.put location entry).find? location = some entry := by
  rw [find?_of_ne_nil nonempty, put, NameMap.get?_insert, if_pos rfl]

theorem find?_put_other (apart : key other ≠ key location) :
    (tree.put location entry).find? other = tree.find? other := by
  by_cases top : other = []
  · rw [top]
    rfl
  · rw [find?_of_ne_nil top, find?_of_ne_nil top, put, NameMap.get?_insert, if_neg apart]

theorem put_eq_self (nonempty : location ≠ []) (found : tree.find? location = some entry) :
    tree.put location entry = tree := by
  rw [find?_of_ne_nil nonempty] at found
  have same : tree.entries.insert (key location) entry = tree.entries := by
    apply NameMap.eq_of_get?
    intro k
    rw [NameMap.get?_insert]
    split
    · next at_key => rw [at_key, found]
    · rfl
  rw [put, same]

end FileTree

namespace FileSystem

variable {fs : FileSystem} {location : Location} {path : String} {content : ByteArray}

theorem ne_nil_of_creation (made : fs.creation path = .ok location) : location ≠ [] := by
  unfold creation at made
  split at made
  · cases made
  · next start names _ =>
    simp only at made
    split at made
    · obtain ⟨_, _, failed⟩ := exists_of_bind_ok made
      cases failed
    · obtain ⟨found, _, made⟩ := exists_of_bind_ok made
      split at made
      · cases made
      · next leaf =>
        cases made
        rintro rfl
        exact leaf rfl

theorem writeAt_eq_self_iff (nonempty : location ≠ []) :
    fs.writeAt location content = fs ↔ fs.tree.find? location = some (.file content) := by
  constructor
  · intro same
    rw [← same]
    exact FileTree.find?_put_self nonempty
  · intro found
    rw [writeAt, FileTree.put_eq_self nonempty found]

end FileSystem

namespace CommandLine

variable {s : Surroundings} {fs : FileSystem} {words : List String} {o : Options}

/- The two kinds of failure are told apart by the first letter after the word for an error. -/

theorem begins_append {front : List Char} {text : String} (rest : String)
    (begins : front <+: text.toList) : front <+: (text ++ rest).toList := by
  rw [String.toList_append]
  exact begins.trans (List.prefix_append _ _)

theorem begins_after {front : List Char} (word : String) {text : String}
    (begins : front <+: text.toList) : word.toList ++ front <+: (word ++ text).toList := by
  rw [String.toList_append]
  exact (List.prefix_append_right_inj _).mpr begins

theorem creation_begins (path : String) (cause : PathError) :
    "Error: ".toList ++ ['F'] <+: (Failure.creation path cause).message.toList := by
  have front : "Error: ".toList ++ ['F'] <+: "Error: Failed to create ".toList := by decide
  exact begins_append _ (begins_append _ (begins_append _ (begins_append _ front)))

theorem root_begins (problem : RootError) : ∃ c, c ≠ 'F' ∧
    "Error: ".toList ++ [c] <+: (Failure.root problem).message.toList := by
  have begins : ∃ c, c ≠ 'F' ∧ [c] <+: problem.message.toList := by
    cases problem with
    | missing | notDirectory =>
      exact ⟨'R', by decide, begins_append _ (begins_append _ (by decide))⟩
    | noRepository | unsettled => exact ⟨'C', by decide, by decide⟩
  obtain ⟨c, differs, begins⟩ := begins
  exact ⟨c, differs, begins_append _ (begins_after _ begins)⟩

theorem root_message_ne_creation (problem : RootError) (path : String) (cause : PathError) :
    (Failure.creation path cause).message ≠ (Failure.root problem).message := by
  intro same
  obtain ⟨c, differs, root⟩ := root_begins problem
  have creation := creation_begins path cause
  rw [same] at creation
  have fronts := (List.prefix_of_prefix_length_le root creation (by simp)).eq_of_length (by simp)
  exact differs (List.cons.inj (List.append_cancel_left fronts)).1

theorem root_message_ne_empty (problem : RootError) : "" ≠ (Failure.root problem).message := by
  intro same
  obtain ⟨c, _, root⟩ := root_begins problem
  rw [← same] at root
  simp at root

theorem exists_check (failed : (run s fs words).stderr ≠ "") :
    ∃ rest o, words = commandName :: rest ∧ Options.ofWords rest = .ok o ∧
      run s fs words = check s fs o := by
  cases words with
  | nil => exact absurd rfl failed
  | cons word rest =>
    by_cases named : word = commandName
    · subst named
      cases read : Options.ofWords rest with
      | ok o => exact ⟨rest, o, rfl, read, by simp [run, read]⟩
      | error problem => cases problem <;> simp [run, read] at failed
    · simp [run, named] at failed

theorem exists_opened {problem : RootError}
    (ends : (check s fs o).stderr = (Failure.root problem).message) :
    ∃ opened target, openOutput fs o = .ok (opened, target) ∧ (check s fs o).exit = 1 ∧
      (check s fs o).stdout = "" ∧ (check s fs o).fs = opened := by
  cases opening : openOutput fs o with
  | error failure =>
    cases failure with
    | creation path cause =>
      have message : (check s fs o).stderr = (Failure.creation path cause).message := by
        rw [check, opening]
      exact absurd (message.symm.trans ends) (root_message_ne_creation problem path cause)
    | root problem =>
      unfold openOutput at opening
      split at opening
      · cases opening
      · split at opening <;> cases opening
  | ok result =>
    obtain ⟨opened, target⟩ := result
    cases checked : Check.run opened (IgnoreRules.globals opened) o s.timestamp with
    | error problem => exact ⟨opened, target, rfl, by simp [check, opening, checked]⟩
    | ok result =>
      have silent : (check s fs o).stderr = "" := by
        cases target <;> simp [check, opening, checked]
      exact absurd (silent.symm.trans ends) (root_message_ne_empty problem)

/-- What a run without a root leaves. Without an output nothing has changed. With one, its file is
    there and empty, and every other entry is the same; so nothing has changed only if the file was
    there and empty before. -/
structure LeftWithoutRoot (fs : FileSystem) (o : Options) (outcome : Outcome) : Prop where
  exit : outcome.exit = 1
  silent : outcome.stdout = ""
  untouched : o.output = none → outcome.fs = fs
  emptied : ∀ path, o.output = some path → ∃ location, fs.creation path = .ok location ∧
    outcome.fs.tree.find? location = some (.file ByteArray.empty) ∧
    (∀ other, FileTree.key other ≠ FileTree.key location →
      outcome.fs.tree.find? other = fs.tree.find? other) ∧
    (outcome.fs = fs ↔ fs.tree.find? location = some (.file ByteArray.empty))

theorem run_without_root (s : Surroundings) (fs : FileSystem) (words : List String)
    (problem : RootError) (ends : (run s fs words).stderr = (Failure.root problem).message) :
    ∃ rest o, words = commandName :: rest ∧ Options.ofWords rest = .ok o ∧
      LeftWithoutRoot fs o (run s fs words) := by
  have failed : (run s fs words).stderr ≠ "" := fun silent =>
    root_message_ne_empty problem (silent.symm.trans ends)
  obtain ⟨rest, o, rfl, read, checked⟩ := exists_check failed
  rw [checked] at ends ⊢
  obtain ⟨opened, target, opening, exit, silent, left⟩ := exists_opened ends
  refine ⟨rest, o, rfl, read, exit, silent, ?_, ?_⟩
  · intro noOutput
    rw [openOutput, noOutput] at opening
    cases opening
    exact left
  · intro path output
    rw [openOutput, output] at opening
    cases made : fs.creation path with
    | error cause => simp [made] at opening
    | ok location =>
      obtain ⟨rfl, -⟩ : fs.writeAt location ByteArray.empty = opened ∧ some location = target := by
        simpa [made] using opening
      have nonempty := FileSystem.ne_nil_of_creation made
      rw [left]
      exact ⟨location, rfl, FileTree.find?_put_self nonempty,
        fun other apart => FileTree.find?_put_other apart, FileSystem.writeAt_eq_self_iff nonempty⟩

/-- A run that reads its options and opens its output, and then finds no root. -/
theorem run_of_no_root {rest : List String} {opened : FileSystem} {target : Option Location}
    {problem : RootError} (read : Options.ofWords rest = .ok o)
    (opening : openOutput fs o = .ok (opened, target)) (lost : o.rootPath opened = .error problem) :
    run s fs (commandName :: rest) =
      { exit := 1, stderr := (Failure.root problem).message, fs := opened } := by
  have failed : Check.run opened (IgnoreRules.globals opened) o s.timestamp = .error problem := by
    rw [Check.run_eq, Check.collected, lost]
    rfl
  simp [run, read, check, opening, failed]

def reportFiles : FileSystem where
  base := "/work"
  tree := ⟨.ofList [("report.txt", .file "old\n".toUTF8)]⟩

def plainSurroundings : Surroundings := { timestamp := "", elapsed := "0", workers := "1" }

def missingRoot : List String := ["--root", "missing", "--output", "report.txt"]

theorem reportFiles_creation : reportFiles.creation "report.txt" = .ok ["report.txt"] := by
  have located : reportFiles.locate reportFiles.workingDirectory "report.txt" =
      some ([], ["report.txt"]) := by decide
  have found : reportFiles.follow true FileSystem.linkLimit [] ["report.txt"] =
      .ok ["report.txt"] := by
    rw [FileSystem.follow]
    show FileSystem.follow _ _ _ _ _ = _
    rw [FileSystem.follow]
    rfl
  rw [FileSystem.creation, located]
  show (reportFiles.follow true FileSystem.linkLimit [] ["report.txt"] >>= _) = _
  rw [found]
  rfl

theorem reportFiles_run : run plainSurroundings reportFiles (commandName :: missingRoot) =
    { exit := 1, stderr := (Failure.root (.missing "missing")).message,
      fs := reportFiles.writeAt ["report.txt"] ByteArray.empty } := by
  have read : Options.ofWords missingRoot =
    .ok { root := some "missing", output := some "report.txt" } := by decide
  have lost : (reportFiles.writeAt ["report.txt"] ByteArray.empty).resolve "missing" =
      .error .notFound := by
    show FileSystem.follow _ false FileSystem.linkLimit [] ["missing"] = _
    rw [FileSystem.follow]
    rfl
  apply run_of_no_root read
  · simp only [openOutput, reportFiles_creation]
    rfl
  · simp only [Options.rootPath, Options.validRoot, lost]

theorem reportFiles_without_root :
    (run plainSurroundings reportFiles (commandName :: missingRoot)).stderr =
        (Failure.root (.missing "missing")).message ∧
      ∃ rest o, commandName :: missingRoot = commandName :: rest ∧ Options.ofWords rest = .ok o ∧
        LeftWithoutRoot reportFiles o
          (run plainSurroundings reportFiles (commandName :: missingRoot)) := by
  have ends := congrArg Outcome.stderr reportFiles_run
  exact ⟨ends, run_without_root _ _ _ _ ends⟩

/-- The report of an earlier run is lost although there is no new one. -/
theorem old_report_lost : ¬∀ (s : Surroundings) (fs : FileSystem) (words : List String)
    (problem : RootError), (run s fs words).stderr = (Failure.root problem).message →
      ∀ location, (run s fs words).fs.content? location = fs.content? location := by
  intro kept
  have ends := congrArg Outcome.stderr reportFiles_run
  have same := kept plainSurroundings reportFiles (commandName :: missingRoot) _ ends ["report.txt"]
  rw [reportFiles_run] at same
  have plain : PlainNames ["report.txt"] := by decide
  have form : reportFiles.tree.WellFormed := by decide
  have form' : (reportFiles.writeAt ["report.txt"] ByteArray.empty).tree.WellFormed := by decide
  have before := (FileSystem.fileAt_of_find? form plain rfl).content?
  have after := (FileSystem.fileAt_of_find? form' plain rfl).content?
  rw [before, after] at same
  cases same

end CommandLine
end DeadCode
