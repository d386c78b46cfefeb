import DeadCode.Proofs.CheckedRoot

/- Settling the root of options, and settling it again. A root that is found stays, whatever was
   given. A failure leaves the options as they were when no root was given; a root that was given is
   gone after it, and the next attempt looks for a repository in its place. -/
namespace DeadCode.Options

variable {fs : FileSystem} {o : Options} {problem : RootError} {path : String}

/-- Only the root has changed. It is the path of a directory, and settling changes it no more. -/
structure Settled (fs : FileSystem) (o after : Options) : Prop where
  directory : ∃ root, fs.tree.isDirectory root = true ∧ fs.resolve (fs.pathOf root) = .ok root ∧
    after = { o with root := some (fs.pathOf root) }
  stays : after.settleRoot fs = (.ok (), after)

/-- Settling the root either succeeds for good or changes nothing, so that it fails in the same way
    again. -/
structure AllOrNothing (fs : FileSystem) (o : Options) : Prop where
  all : (o.settleRoot fs).1 = .ok () → Settled fs o (o.settleRoot fs).2
  nothing : ∀ problem, (o.settleRoot fs).1 = .error problem →
    (o.settleRoot fs).2 = o ∧ ((o.settleRoot fs).2.settleRoot fs).1 = .error problem

theorem settleRoot_eq_ok_iff : (o.settleRoot fs).1 = .ok () ↔ ∃ path, o.rootPath fs = .ok path := by
  cases settled : o.rootPath fs with
  | ok path => simp [settleRoot_of_ok settled]
  | error problem => simp [settleRoot_of_error settled]

theorem settleRoot_eq_error_iff :
    (o.settleRoot fs).1 = .error problem ↔ o.rootPath fs = .error problem := by
  cases settled : o.rootPath fs with
  | ok path => simp [settleRoot_of_ok settled]
  | error problem => simp [settleRoot_of_error settled]

theorem rootPath_pathOf {root : Location} (form : fs.WellFormed) (plain : PlainNames root)
    (directory : fs.tree.isDirectory root = true) :
    { o with root := some (fs.pathOf root) }.rootPath fs = .ok (fs.pathOf root) :=
  validRoot_eq_ok_iff.mpr
    ⟨root, FileSystem.resolve_pathOf form.tree plain directory, directory, rfl⟩

theorem settled_of_ok (form : fs.WellFormed) (settled : o.rootPath fs = .ok path) :
    Settled fs o (o.settleRoot fs).2 := by
  obtain ⟨root, plain, directory, rfl⟩ := exists_root form settled
  rw [settleRoot_of_ok settled]
  refine ⟨⟨root, directory, FileSystem.resolve_pathOf form.tree plain directory, rfl⟩, ?_⟩
  exact settleRoot_of_ok (rootPath_pathOf form plain directory)

theorem retry_of_error (lost : o.rootPath fs = .error problem) :
    (o.settleRoot fs).2 = { o with root := none } ∧
      ((o.settleRoot fs).2.settleRoot fs).1 = (repositoryRoot fs).map fun _ => () := by
  rw [settleRoot_of_error lost]
  refine ⟨rfl, ?_⟩
  cases found : repositoryRoot fs with
  | ok path => rw [settleRoot_of_ok (o := { o with root := none }) found]; rfl
  | error other => rw [settleRoot_of_error (o := { o with root := none }) found]; rfl

/-- A success is for good, and a failure keeps every option but the root. All or nothing is kept to
    unless a root was given and is none: then it is lost, and the next attempt goes to the repository
    around, if there is one. -/
theorem settleRoot_all_or_nothing_iff (form : fs.WellFormed) (o : Options) :
    (∀ path, o.rootPath fs = .ok path → Settled fs o (o.settleRoot fs).2) ∧
      (∀ problem, o.rootPath fs = .error problem → (o.settleRoot fs).2 = { o with root := none } ∧
        ((o.settleRoot fs).2.settleRoot fs).1 = (repositoryRoot fs).map fun _ => ()) ∧
      (AllOrNothing fs o ↔ o.root = none ∨ ∃ path, o.rootPath fs = .ok path) := by
  refine ⟨fun _ => settled_of_ok form, fun _ => retry_of_error, ?_, ?_⟩
  · intro whole
    cases settled : o.rootPath fs with
    | ok path => exact .inr ⟨path, rfl⟩
    | error problem =>
      have kept := (whole.nothing problem (settleRoot_eq_error_iff.mpr settled)).1
      rw [settleRoot_of_error settled] at kept
      exact .inl (congrArg Options.root kept).symm
  · intro h
    constructor
    · intro done
      obtain ⟨path, settled⟩ := settleRoot_eq_ok_iff.mp done
      exact settled_of_ok form settled
    · intro problem failed
      have lost := settleRoot_eq_error_iff.mp failed
      rcases h with none | ⟨path, settled⟩
      · have kept : (o.settleRoot fs).2 = o := by
          rw [settleRoot_of_error lost, ← none]
        exact ⟨kept, by rw [kept, failed]⟩
      · rw [settled] at lost
        cases lost

-- The empty path is no directory, not even the one that the program works in.
example (fs : FileSystem) : settleRoot fs { root := some "" } = (.error (.missing ""), {}) := rfl

def repositoryFiles : FileSystem where
  base := "/work"
  tree := ⟨.ofList [(".git", .directory), ("app.py", .file ByteArray.empty)]⟩

theorem repositoryFiles_form : repositoryFiles.WellFormed where
  tree := by decide
  base := by decide
  plain := plainNames_nil
  working := rfl

theorem repositoryFiles_lost :
    rootPath repositoryFiles { root := some "missing" } = .error (.missing "missing") := by
  have lost : repositoryFiles.resolve "missing" = .error .notFound := by
    show FileSystem.follow _ false FileSystem.linkLimit [] ["missing"] = _
    rw [FileSystem.follow]
    rfl
  simp only [rootPath, validRoot, lost]

theorem repositoryFiles_found : repositoryRoot repositoryFiles = .ok "/work" := by
  have mark : repositoryFiles.exists? [".git"] = true := by
    have leads : FileSystem.Leads repositoryFiles FileSystem.linkLimit [] [".git"] [".git"] :=
      FileSystem.leads_to_entry repositoryFiles_form.tree (by decide) rfl fun _ same => by cases same
    rw [FileSystem.exists?, FileSystem.target?_eq_some_iff.mpr ⟨_, leads, rfl⟩]
    rfl
  exact repositoryRoot_of_mark mark

theorem repositoryFiles_retried :
    repositoryFiles.WellFormed ∧ AllOrNothing repositoryFiles {} ∧
      ¬AllOrNothing repositoryFiles { root := some "missing" } := by
  have given := (settleRoot_all_or_nothing_iff repositoryFiles_form { root := some "missing" }).2.2
  have bare := (settleRoot_all_or_nothing_iff repositoryFiles_form {}).2.2
  refine ⟨repositoryFiles_form, bare.mpr (.inl rfl), fun whole => ?_⟩
  rcases given.mp whole with none | ⟨path, settled⟩
  · cases none
  · rw [repositoryFiles_lost] at settled
    cases settled

/-- A root that is missing is forgotten, and the next attempt settles on the repository. -/
theorem missing_root_forgotten :
    ¬(∀ fs : FileSystem, fs.WellFormed → ∀ o : Options, AllOrNothing fs o) ∧
    settleRoot repositoryFiles { root := some "missing" } = (.error (.missing "missing"), {}) ∧
    settleRoot repositoryFiles {} = (.ok (), { root := some "/work" }) := by
  have first := settleRoot_of_error repositoryFiles_lost
  refine ⟨fun whole => ?_, first, settleRoot_of_ok repositoryFiles_found⟩
  have kept := ((whole repositoryFiles repositoryFiles_form { root := some "missing" }).nothing
    (.missing "missing") (congrArg Prod.fst first)).1
  rw [first] at kept
  cases kept

end DeadCode.Options
