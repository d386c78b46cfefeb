import Mathlib.Data.List.Find
import DeadCode.Check
import DeadCode.Proofs.Collection

/- The root that a check works on. It is a directory, written as the path of its location, and a walk
   over it gives the sources. -/
namespace DeadCode

variable {fs : FileSystem} {gone goal root : Location} {names : List String} {path : String}
variable {globals : List IgnoreRule} {o : Options} {bytes : ByteArray}

namespace FileSystem

theorem plain_of_resolve (form : fs.WellFormed) (found : fs.resolve path = .ok root) :
    PlainNames root := by
  unfold resolve resolveFrom at found
  split at found
  · next start names located =>
    have plainStart : PlainNames start := plain_of_locate located form.plain
    exact (leads_of_follow found).plain plainStart (start_of_locate located).2
  · cases found

theorem endsWith_pathOf (form : fs.tree.WellFormed) (plain : PlainNames root)
    (directory : fs.tree.isDirectory root = true) (below : root ≠ []) :
    Text.endsWith (fs.pathOf root) "/" = false := by
  by_contra slash
  rw [Bool.not_eq_false, Text.endsWith_iff] at slash
  obtain ⟨front, whole⟩ := slash
  have names : Text.segments '/' (fs.pathOf root) = Text.segments '/' fs.base ++ root := by
    rw [pathOf_of_ne_nil below]
    exact (Text.segments_append '/' _ _).trans (by rw [FileTree.segments_key below plain])
  have ending : Text.segments '/' (fs.pathOf root) = Text.segments '/' front ++ [""] := by
    rw [whole, ← String.append_empty (s := front ++ "/")]
    exact Text.segments_append '/' front ""
  have last := congrArg List.getLast? (names.symm.trans ending)
  rw [List.getLast?_append_of_ne_nil _ below, List.getLast?_concat] at last
  have step : IsStep "" :=
    form.isStep plain (FileTree.isDirectory_iff.mp directory) "" (List.mem_of_getLast? last)
  exact step.1 rfl

end FileSystem

namespace Collect.Walk

theorem pathBelow_pathOf (form : fs.WellFormed) (plain : PlainNames root)
    (directory : fs.tree.isDirectory root = true) (nonempty : names ≠ []) :
    pathBelow (fs.pathOf root) (Text.join '/' names) = fs.pathOf (root ++ names) := by
  have whole : fs.pathOf (root ++ names) = fs.base ++ "/" ++ Text.join '/' (root ++ names) :=
    FileSystem.pathOf_of_ne_nil (by simp [nonempty])
  by_cases top : root = []
  · subst top
    rw [whole, List.nil_append, pathBelow]
    by_cases bare : fs.base = ""
    · simp [FileSystem.pathOf, bare, Text.endsWith]
    · simp [FileSystem.pathOf, bare, form.base]
  · rw [whole, pathBelow, FileSystem.endsWith_pathOf form.tree plain directory top,
      Text.join_append top nonempty, FileSystem.pathOf_of_ne_nil top]
    simp [FileTree.key, String.append_assoc]

end Collect.Walk

namespace Collect

theorem sources_of_root (found : fs.resolve path = .ok root)
    (directory : fs.tree.isDirectory root = true) (globals : List IgnoreRule)
    (exclude : List String) : sources fs globals path exclude =
      .ok (Walk.sources { fs, globals, root, exclude } path) := by
  rw [sources, found]
  simp only [directory, if_true]

end Collect

namespace Options

def rootPath (fs : FileSystem) (o : Options) : Except RootError String :=
  match o.root with
  | some path => validRoot fs path
  | none => repositoryRoot fs

theorem settleRoot_of_ok (settled : o.rootPath fs = .ok path) :
    o.settleRoot fs = (.ok (), { o with root := some path }) := by
  unfold rootPath at settled
  unfold settleRoot
  cases given : o.root <;> simp only [given] at settled <;> simp only [settled]

theorem settleRoot_of_error {problem : RootError} (lost : o.rootPath fs = .error problem) :
    o.settleRoot fs = (.error problem, { o with root := none }) := by
  unfold rootPath at lost
  unfold settleRoot
  cases given : o.root <;> simp only [given] at lost <;> simp only [lost]

theorem validRoot_eq_ok_iff {written : String} : validRoot fs written = .ok path ↔
    ∃ root, fs.resolve written = .ok root ∧ fs.tree.isDirectory root = true ∧
      path = fs.pathOf root := by
  unfold validRoot
  constructor
  · intro valid
    split at valid
    · next root found =>
      split at valid
      · next directory =>
        cases valid
        exact ⟨root, found, directory, rfl⟩
      · cases valid
    · cases valid
  · intro h
    obtain ⟨root, found, directory, rfl⟩ := h
    simp [found, directory]

theorem repositoryRoot_of_mark (mark : fs.exists? (fs.workingDirectory ++ [".git"]) = true) :
    repositoryRoot fs = .ok (fs.pathOf fs.workingDirectory) := by
  have first : (fs.workingDirectory :: IgnoreRules.above fs.workingDirectory).find? (fun directory =>
      fs.exists? (directory ++ [".git"])) = some fs.workingDirectory := List.find?_cons_of_pos mark
  rw [repositoryRoot, first]

theorem repositoryRoot_of_no_mark (top : fs.workingDirectory = [])
    (unmarked : fs.exists? [".git"] = false) : repositoryRoot fs = .error .noRepository := by
  have none : (fs.workingDirectory :: IgnoreRules.above fs.workingDirectory).find? (fun directory =>
      fs.exists? (directory ++ [".git"])) = none := by
    simp [top, IgnoreRules.above, unmarked]
  rw [repositoryRoot, none]

theorem exists_of_repositoryRoot (form : fs.WellFormed) (found : repositoryRoot fs = .ok path) :
    ∃ root, PlainNames root ∧ fs.tree.isDirectory root = true ∧ path = fs.pathOf root := by
  unfold repositoryRoot at found
  split at found
  · next root first =>
    cases found
    refine ⟨root, ?_, ?_, rfl⟩
    all_goals rcases List.mem_cons.mp (List.mem_of_find?_eq_some first) with rfl | above
    · exact form.plain
    · exact IgnoreRules.plain_of_mem_above form.plain above
    · exact form.working
    · obtain ⟨rest, whole⟩ := IgnoreRules.exists_append_of_mem_above above
      by_cases same : rest = []
      · rw [same, List.append_nil] at whole
        exact whole ▸ form.working
      · have found := FileTree.isDirectory_iff.mp form.working
        rw [whole] at found
        exact form.tree.front (whole ▸ form.plain) same found
  · cases found

theorem exists_root (form : fs.WellFormed) (settled : o.rootPath fs = .ok path) :
    ∃ root, PlainNames root ∧ fs.tree.isDirectory root = true ∧ path = fs.pathOf root := by
  unfold rootPath at settled
  split at settled
  · obtain ⟨root, found, directory, rfl⟩ := validRoot_eq_ok_iff.mp settled
    exact ⟨root, FileSystem.plain_of_resolve form found, directory, rfl⟩
  · exact exists_of_repositoryRoot form settled

theorem rootPath_kept (form : fs.WellFormed) (lies : fs.FileAt gone goal bytes)
    (same : IgnoreRules.SameSteering fs (fs.remove gone)) (settled : o.rootPath fs = .ok path) :
    o.rootPath (fs.remove gone) = .ok path := by
  unfold rootPath at settled ⊢
  split at settled
  · obtain ⟨root, found, directory, rfl⟩ := validRoot_eq_ok_iff.mp settled
    have kept := FileSystem.resolve_kept form.tree lies form.plain found directory
    have plainRoot := FileSystem.plain_of_resolve form found
    exact validRoot_eq_ok_iff.mpr
      ⟨root, kept, FileSystem.isDirectory_kept form.tree lies plainRoot directory, rfl⟩
  · have marks : ∀ directory ∈ fs.workingDirectory :: IgnoreRules.above fs.workingDirectory,
        (fs.remove gone).exists? (directory ++ [".git"]) = fs.exists? (directory ++ [".git"]) := by
      intro directory mem
      apply IgnoreRules.exists?_kept same ".git" (by simp [IgnoreRules.steering])
      rcases List.mem_cons.mp mem with rfl | above
      · exact form.plain
      · exact IgnoreRules.plain_of_mem_above form.plain above
    have working : (fs.remove gone).workingDirectory = fs.workingDirectory := rfl
    unfold repositoryRoot at settled ⊢
    rw [working, List.find?_congr marks]
    exact settled

end Options

namespace Check

def collected (fs : FileSystem) (globals : List IgnoreRule) (o : Options) :
    Except RootError (List Source) := do
  let root ← o.rootPath fs
  Collect.sources fs globals root o.exclude

theorem run_eq (fs : FileSystem) (globals : List IgnoreRule) (o : Options) (timestamp : String) :
    run fs globals o timestamp = (collected fs globals o).map fun sources =>
      analyzeReadings (readAll sources) o.minLines timestamp := by
  cases settled : o.rootPath fs with
  | error problem =>
    rw [run, Options.settleRoot_of_error settled, collected, settled]
    rfl
  | ok path =>
    rw [run, Options.settleRoot_of_ok settled, collected, settled]
    cases found : Collect.sources fs globals path o.exclude <;>
      simp [Options.knownRoot, found, bind, Except.bind, Except.map, pure, Except.pure]

theorem collected_of_root (settled : o.rootPath fs = .ok path) (found : fs.resolve path = .ok root)
    (directory : fs.tree.isDirectory root = true) :
    collected fs globals o =
      .ok (Collect.Walk.sources { fs, globals, root, exclude := o.exclude } path) := by
  rw [collected, settled]
  exact Collect.sources_of_root found directory globals o.exclude

/-- A dot means the working directory, unless the whole tree is called so. -/
theorem collected_here (form : fs.WellFormed) (here : o.root = some ".")
    (located : fs.locate fs.workingDirectory "." = some (fs.workingDirectory, ["."])) :
    collected fs globals o = .ok (Collect.Walk.sources
      { fs, globals, root := fs.workingDirectory, exclude := o.exclude }
      (fs.pathOf fs.workingDirectory)) := by
  have found : fs.resolve "." = .ok fs.workingDirectory := by
    rw [FileSystem.resolve, FileSystem.resolveFrom, located]
    exact FileSystem.follow_of_leads (.stay form.working (.inr rfl) .done)
  have settled : o.rootPath fs = .ok (fs.pathOf fs.workingDirectory) := by
    rw [Options.rootPath, here]
    exact Options.validRoot_eq_ok_iff.mpr ⟨_, found, form.working, rfl⟩
  exact collected_of_root settled (FileSystem.resolve_pathOf form.tree form.plain form.working)
    form.working

/-- What is collected is collected by a walk over the root. -/
theorem exists_walk (form : fs.WellFormed) {sources : List Source}
    (done : collected fs globals o = .ok sources) :
    ∃ root, PlainNames root ∧ fs.tree.isDirectory root = true ∧
      o.rootPath fs = .ok (fs.pathOf root) ∧
      sources = Collect.Walk.sources { fs, globals, root, exclude := o.exclude } (fs.pathOf root) := by
  cases settled : o.rootPath fs with
  | error problem =>
    rw [collected, settled] at done
    cases done
  | ok path =>
    obtain ⟨root, plain, directory, rfl⟩ := Options.exists_root form settled
    have found := FileSystem.resolve_pathOf form.tree plain directory
    rw [collected_of_root settled found directory, Except.ok.injEq] at done
    exact ⟨root, plain, directory, rfl, done.symm⟩

end Check
end DeadCode
