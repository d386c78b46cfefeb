import DeadCode.Proofs.FileCreation
import DeadCode.Proofs.Rankings

/- Where a report goes does not change it. A file that is made for the report, at a place that nothing
   in the check asks for, leaves the root, the rules and the sources as they were; so the run ends
   with the same exit code, and what it would have printed is in the file. -/
namespace DeadCode

variable {fs : FileSystem} {location : Location} {path : String} {bytes : ByteArray} {o : Options}

namespace FileSystem

def place (fs : FileSystem) (path : String) : Except PathError Location :=
  match fs.locate fs.workingDirectory path with
  | some (start, names) => fs.follow true linkLimit start names
  | none => .error .notFound

end FileSystem

/-- A path where a file can be made that is new to a check: no link leads to it, it is no source, and
    it is not what the check asks for in a directory or at home. -/
structure NewFile (asked : List (List String)) (fs : FileSystem) (path : String)
    (location : Location) : Prop where
  made : fs.creation path = .ok location
  absent : fs.tree.find? location = none
  noSource : location.getLast?.any Collect.isSourceName = false
  unlinked : ∀ here target, PlainNames here → fs.tree.find? here = some (.link target) →
    fs.follow true FileSystem.linkLimit [] here ≠ .ok location
  unasked : ∀ directory, PlainNames directory → ∀ names ∈ asked,
    fs.follow true FileSystem.linkLimit [] (directory ++ names) ≠ .ok location
  unset : ∀ home, fs.home = some home →
    (∀ names ∈ [[".gitconfig"], [".config", "git", "config"]],
      fs.follow true FileSystem.linkLimit [] (home ++ names) ≠ .ok location) ∧
    fs.place (IgnoreRules.excludesPath fs home) ≠ .ok location

theorem Collect.Walk.source?_of_other (walk : Walk) (rootPath : String) {entry : String × Entry}
    (other : (Text.segments '/' entry.1).getLast?.any isSourceName = false) :
    walk.source? rootPath entry = none := by
  cases made : walk.source? rootPath entry with
  | none => rfl
  | some source =>
    obtain ⟨names, below, _, admitted, _⟩ := source?_eq_some_iff.mp made
    obtain ⟨nonempty, whole⟩ := namesBelow?_eq_some_iff.mp below
    rw [whole, List.getLast?_append_of_ne_nil _ nonempty] at other
    simp [admits, other] at admitted

namespace NewFile

variable {globals : List IgnoreRule} (form : fs.WellFormed)
variable (new : NewFile IgnoreRules.steering fs path location)
include form new

theorem vacant : fs.Vacant location := FileSystem.vacant_of_creation form new.made new.absent

theorem target?_writeAt {other : Location} (plain : PlainNames other)
    (apart : fs.follow true FileSystem.linkLimit [] other ≠ .ok location) :
    (fs.writeAt location bytes).target? other = fs.target? other := by
  have vacant := new.vacant form
  rcases FileSystem.target?_remove (vacant.wellFormed form).tree (vacant.fileAt form) plain with
    kept | ⟨_, led⟩
  · rw [vacant.remove_writeAt] at kept
    exact kept.symm
  · exact absurd (vacant.follow_of_leads led.ends) apart

theorem target?_of_entry {other : Location} {entry : Entry} (plain : PlainNames other)
    (found : fs.tree.find? other = some entry) :
    (fs.writeAt location bytes).target? other = fs.target? other := by
  refine new.target?_writeAt form plain fun onto => ?_
  cases entry with
  | link target => exact new.unlinked other target plain found onto
  | file _ | directory =>
    have itself : fs.follow true FileSystem.linkLimit [] other = .ok other :=
      (new.vacant form).follow_of_leads_before
        (FileSystem.leads_to_entry form.tree plain found fun _ same => by cases same)
    rw [itself, Except.ok.injEq] at onto
    rw [onto, new.absent] at found
    cases found

theorem sameSteering : IgnoreRules.SameSteering (fs.writeAt location bytes) fs := by
  intro directory plain names mem
  have plainNames := (IgnoreRules.steering_steps names mem).1
  have apart := new.unasked directory plain names mem
  exact (new.target?_writeAt form (plain.append plainNames) apart).symm

variable {root : Location} {exclude : List String}

theorem source?_old {entry : String × Entry} (rootPath : String)
    (old : entry ∈ fs.tree.entries.toList) :
    Collect.Walk.source? { fs := fs.writeAt location bytes, globals, root, exclude } rootPath entry =
      Collect.Walk.source? { fs, globals, root, exclude } rootPath entry := by
  have removed : (fs.writeAt location bytes).remove location = fs :=
    (new.vacant form).remove_writeAt
  let walk : Collect.Walk := { fs := fs.writeAt location bytes, globals, root, exclude }
  have gone : walk.without location = { fs, globals, root, exclude } := by
    simp only [walk, Collect.Walk.without, removed]
  have same : IgnoreRules.SameSteering walk.fs (walk.fs.remove location) := by
    simp only [walk, removed]
    exact new.sameSteering form
  show walk.source? rootPath entry = _
  rw [← gone]
  cases below : walk.namesBelow? entry.1 with
  | none =>
    have below' : (walk.without location).namesBelow? entry.1 = none := below
    simp [Collect.Walk.source?, below, below']
  | some names =>
    have below' : (walk.without location).namesBelow? entry.1 = some names := below
    have plain : PlainNames (walk.root ++ names) := Collect.Walk.plain_of_namesBelow? below
    have before : Collect.Walk.namesBelow? { fs, globals, root, exclude } entry.1 = some names :=
      below
    have found : fs.tree.find? (walk.root ++ names) = some entry.2 :=
      Collect.Walk.find?_of_namesBelow? old before
    have content : (walk.without location).fs.content? ((walk.without location).root ++ names) =
        walk.fs.content? (walk.root ++ names) := by
      rw [gone]
      simp only [FileSystem.content?, walk, new.target?_of_entry form plain found]
    simp only [Collect.Walk.source?, below, below', Option.bind_eq_bind, Option.bind_some, content,
      Collect.Walk.admits_without same plain]

theorem found_writeAt (rootPath : String) :
    Collect.Walk.found { fs := fs.writeAt location bytes, globals, root, exclude } rootPath =
      Collect.Walk.found { fs, globals, root, exclude } rootPath := by
  have listed : fs.tree.entries.toList = (fs.writeAt location bytes).tree.entries.toList.filter
      (fun entry => entry.1 != FileTree.key location) := by
    rw [← congrArg FileSystem.tree (new.vacant form).remove_writeAt]
    rfl
  rw [Collect.Walk.found, Collect.Walk.found, listed, List.filterMap_filter]
  apply List.filterMap_congr
  intro entry mem
  by_cases onto : entry.1 = FileTree.key location
  · have vacant := new.vacant form
    have other : (Text.segments '/' entry.1).getLast?.any Collect.isSourceName = false := by
      rw [onto, FileTree.segments_key vacant.ne_nil vacant.plain]
      exact new.noSource
    rw [Collect.Walk.source?_of_other _ rootPath other, if_neg (by simp [onto])]
  · have old : entry ∈ fs.tree.entries.toList := by
      rw [listed, List.mem_filter]
      exact ⟨mem, by simpa using onto⟩
    rw [new.source?_old form rootPath old, if_pos (by simpa using onto)]

theorem sources_writeAt (rootPath : String) :
    Collect.Walk.sources { fs := fs.writeAt location bytes, globals, root, exclude } rootPath =
      Collect.Walk.sources { fs, globals, root, exclude } rootPath := by
  rw [Collect.Walk.sources, new.found_writeAt form, Collect.Walk.sources]

theorem repositoryRoot_writeAt :
    Options.repositoryRoot (fs.writeAt location bytes) = Options.repositoryRoot fs := by
  have marks : ∀ directory ∈ fs.workingDirectory :: IgnoreRules.above fs.workingDirectory,
      (fs.writeAt location bytes).exists? (directory ++ [".git"]) =
        fs.exists? (directory ++ [".git"]) := by
    intro directory mem
    have plain : PlainNames directory := by
      rcases List.mem_cons.mp mem with rfl | above
      · exact form.plain
      · exact IgnoreRules.plain_of_mem_above form.plain above
    have same : IgnoreRules.SameSteering (fs.writeAt location bytes) fs := new.sameSteering form
    rw [FileSystem.exists?, FileSystem.exists?,
      same directory plain [".git"] (by simp [IgnoreRules.steering])]
  have working : (fs.writeAt location bytes).workingDirectory = fs.workingDirectory := rfl
  unfold Options.repositoryRoot
  rw [working, List.find?_congr marks]
  rfl

/-- The root of a check is the same. A path that leads to the new file is no root, and was none. -/
theorem rootPath_writeAt {rootPath : String} :
    o.rootPath (fs.writeAt location bytes) = .ok rootPath ↔ o.rootPath fs = .ok rootPath := by
  have vacant := new.vacant form
  have removed : (fs.writeAt location bytes).remove location = fs := vacant.remove_writeAt
  unfold Options.rootPath
  cases o.root with
  | none => rw [new.repositoryRoot_writeAt form]
  | some written =>
    simp only [Options.validRoot_eq_ok_iff]
    refine exists_congr fun root => ⟨fun h => ?_, fun h => ?_⟩
    · obtain ⟨found, directory, rfl⟩ := h
      have kept := FileSystem.resolve_kept (vacant.wellFormed form).tree (vacant.fileAt form)
        form.plain found directory
      rw [removed] at kept
      exact ⟨kept, FileTree.isDirectory_of_put directory, rfl⟩
    · obtain ⟨found, directory, rfl⟩ := h
      rw [← removed] at found
      exact ⟨FileSystem.resolve_of_remove found,
        FileTree.isDirectory_put vacant.ne_nil vacant.absent directory, rfl⟩

theorem collected_writeAt {sources : List Source} :
    Check.collected (fs.writeAt location bytes) globals o = .ok sources ↔
      Check.collected fs globals o = .ok sources := by
  have vacant := new.vacant form
  constructor
  · intro done
    obtain ⟨root, plain, directory, settled, rfl⟩ := Check.exists_walk (vacant.wellFormed form) done
    have before := FileTree.isDirectory_of_put directory
    rw [Check.collected_of_root ((new.rootPath_writeAt form).mp settled)
      (FileSystem.resolve_pathOf form.tree plain before) before, new.sources_writeAt form]
  · intro done
    obtain ⟨root, plain, directory, settled, rfl⟩ := Check.exists_walk form done
    have after : (fs.writeAt location bytes).tree.isDirectory root = true :=
      FileTree.isDirectory_put vacant.ne_nil vacant.absent directory
    rw [Check.collected_of_root ((new.rootPath_writeAt form).mpr settled)
      (FileSystem.resolve_pathOf (vacant.wellFormed form).tree plain after) after,
      new.sources_writeAt form]

variable (plainHome : ∀ home, fs.home = some home → PlainNames home)
include plainHome

theorem excludesPath_writeAt {home : Location} (known : fs.home = some home) :
    IgnoreRules.excludesPath (fs.writeAt location bytes) home = IgnoreRules.excludesPath fs home := by
  have settings : ∀ names ∈ [[".gitconfig"], [".config", "git", "config"]],
      (fs.writeAt location bytes).content? (home ++ names) = fs.content? (home ++ names) := by
    intro names mem
    have plain : PlainNames (home ++ names) := by
      refine (plainHome home known).append ?_
      simp only [List.mem_cons, List.not_mem_nil, or_false] at mem
      rcases mem with rfl | rfl <;> decide
    have apart := (new.unset home known).1 names mem
    simp only [FileSystem.content?, new.target?_writeAt form plain apart]
  unfold IgnoreRules.excludesPath
  simp only [settings [".gitconfig"] (by simp), settings [".config", "git", "config"] (by simp)]
  rfl

omit plainHome in
theorem resolve_writeAt {other : String} {found : Location}
    (apart : fs.place other ≠ .ok location) :
    (fs.writeAt location bytes).resolve other = .ok found ↔ fs.resolve other = .ok found := by
  have vacant := new.vacant form
  have removed : (fs.writeAt location bytes).remove location = fs := vacant.remove_writeAt
  constructor
  · intro resolved
    unfold FileSystem.resolve FileSystem.resolveFrom at resolved ⊢
    split at resolved
    · next start names located =>
      have located' : fs.locate fs.workingDirectory other = some (start, names) := located
      have leads := FileSystem.leads_of_follow resolved
      rcases FileSystem.Leads.remove (vacant.wellFormed form).tree (vacant.fileAt form) leads
        (FileSystem.plain_of_locate located' form.plain) (FileSystem.start_of_locate located').2 with
        kept | rfl
      · rw [removed] at kept
        rw [located']
        exact FileSystem.follow_of_leads kept
      · refine absurd ?_ apart
        rw [FileSystem.place, located']
        exact vacant.follow_of_leads leads
    · cases resolved
  · intro resolved
    rw [← removed] at resolved
    exact FileSystem.resolve_of_remove resolved

theorem globals_writeAt :
    IgnoreRules.globals (fs.writeAt location bytes) = IgnoreRules.globals fs := by
  have sameHome : (fs.writeAt location bytes).home = fs.home := rfl
  unfold IgnoreRules.globals
  rw [sameHome]
  cases known : fs.home with
  | none => rfl
  | some home =>
    have apart := (new.unset home known).2
    simp only [new.excludesPath_writeAt form plainHome known]
    cases resolved : fs.resolve (IgnoreRules.excludesPath fs home) with
    | ok found =>
      rw [(new.resolve_writeAt form apart).mpr resolved]
      obtain ⟨entry, there⟩ := FileSystem.exists_entry_of_resolve form resolved
      have plain := FileSystem.plain_of_resolve form resolved
      simp only [IgnoreRules.inFile, List.append_nil, FileSystem.content?,
        new.target?_of_entry form plain there]
    | error problem =>
      cases after : (fs.writeAt location bytes).resolve (IgnoreRules.excludesPath fs home) with
      | ok found =>
        rw [(new.resolve_writeAt form apart).mp after] at resolved
        cases resolved
      | error _ => rfl

end NewFile

theorem IgnoreRules.isIgnored_of_silent (globals : List IgnoreRule) (isDirectory : Bool)
    (unmarked : ∀ directory ∈ above location, isRepository fs directory = false)
    (silent : ∀ directory ∈ above location, fs.content? (directory ++ [".ignore"]) = none) :
    isIgnored fs globals location isDirectory = false := by
  have marked : (above location).any (isRepository fs) = false :=
    List.any_eq_false.mpr fun directory mem => by simp [unmarked directory mem]
  have own : verdictAmong fs [".ignore"] (above location) location isDirectory = none :=
    verdictAmong_eq_none _ _ silent
  simp [isIgnored, marked, own]

namespace CommandLine

variable {s t : Surroundings} {words : List String}

def checked (s : Surroundings) (fs : FileSystem) (o : Options) : Except Failure AnalysisResult :=
  match openOutput fs o with
  | .error failure => .error failure
  | .ok (opened, _) =>
    match Check.run opened (IgnoreRules.globals opened) o s.timestamp with
    | .error problem => .error (.root problem)
    | .ok result => .ok result

theorem message_ne_empty (failure : Failure) : failure.message ≠ "" := by
  intro silent
  cases failure with
  | creation path cause =>
    have begins := creation_begins path cause
    rw [silent] at begins
    simp at begins
  | root problem => exact root_message_ne_empty problem silent.symm

theorem check_of_error {failure : Failure} (failed : checked s fs o = .error failure) :
    (check s fs o).exit = 1 ∧ (check s fs o).stdout = "" ∧
      (check s fs o).stderr = failure.message := by
  unfold checked at failed
  split at failed
  · next opening =>
    cases failed
    simp [check, opening]
  · next opening =>
    split at failed
    · next problem ran =>
      cases failed
      simp [check, opening, ran]
    · cases failed

theorem check_of_ok {result : AnalysisResult} (done : checked s fs o = .ok result) :
    (check s fs o).exit = (if result.hasFindings then 1 else 0) ∧ (check s fs o).stderr = "" := by
  unfold checked at done
  split at done
  · cases done
  · next opened target opening =>
    split at done
    · cases done
    · next ran =>
      cases done
      cases target <;> simp [check, opening, ran]

theorem run_of_options (read : Options.ofWords words = .ok o) :
    run s fs (commandName :: words) = check s fs o := by
  simp [run, read]

structure ExitTells (fs : FileSystem) (words : List String) (o : Options) : Prop where
  clean : ∀ s, (run s fs (commandName :: words)).exit = 0 ↔
    ∃ result, checked s fs o = .ok result ∧ result.findingCount = 0
  failing : ∀ s, (run s fs (commandName :: words)).exit = 1 ↔
    (∃ result, checked s fs o = .ok result ∧ 0 < result.findingCount) ∨
      ∃ failure, checked s fs o = .error failure

/-- This holds of every run, wherever its report goes. -/
theorem exitTells (fs : FileSystem) (read : Options.ofWords words = .ok o) :
    ExitTells fs words o := by
  have ends : ∀ s, (∃ result, checked s fs o = .ok result ∧
      (run s fs (commandName :: words)).exit = if 0 < result.findingCount then 1 else 0) ∨
      ∃ failure, checked s fs o = .error failure ∧ (run s fs (commandName :: words)).exit = 1 := by
    intro s
    rw [run_of_options read]
    cases done : checked s fs o with
    | ok result =>
      refine .inl ⟨result, rfl, (check_of_ok done).1.trans ?_⟩
      simp [AnalysisResult.hasFindings]
    | error failure => exact .inr ⟨failure, rfl, (check_of_error done).1⟩
  refine ⟨fun s => ?_, fun s => ?_⟩
  all_goals rcases ends s with ⟨result, done, exit⟩ | ⟨failure, failed, exit⟩
  · simp only [exit, done, Except.ok.injEq, exists_eq_left']
    split <;> omega
  · simp [exit, failed]
  · simp only [exit, done, Except.ok.injEq, exists_eq_left', reduceCtorEq, exists_false, or_false]
    split <;> omega
  · simp [exit, failed]

/-- How a check exits, from what it collects: neither the time nor the form of the report matters. -/
def exitOf (collection : Except RootError (List Source)) (minLines : Nat) : Nat :=
  match collection with
  | .ok sources =>
    if (Check.analyzeReadings (Check.readAll sources) minLines "").hasFindings then 1 else 0
  | .error _ => 1

theorem exit_of_opened {opened : FileSystem} {target : Option Location}
    (opening : openOutput fs o = .ok (opened, target)) :
    (check s fs o).exit =
      exitOf (Check.collected opened (IgnoreRules.globals opened) o) o.minLines := by
  have ran := Check.run_eq opened (IgnoreRules.globals opened) o s.timestamp
  cases collection : Check.collected opened (IgnoreRules.globals opened) o with
  | error problem =>
    rw [collection] at ran
    have failed : checked s fs o = .error (.root problem) := by
      simp [checked, opening, ran, Except.map]
    exact (check_of_error failed).1
  | ok sources =>
    rw [collection] at ran
    have done : checked s fs o =
        .ok (Check.analyzeReadings (Check.readAll sources) o.minLines s.timestamp) := by
      simp [checked, opening, ran, Except.map]
    exact (check_of_ok done).1

theorem exitOf_congr {before after : Except RootError (List Source)} (minLines : Nat)
    (same : ∀ sources, after = .ok sources ↔ before = .ok sources) :
    exitOf after minLines = exitOf before minLines := by
  cases before with
  | ok sources => rw [(same sources).mpr rfl]
  | error problem =>
    cases after with
    | ok sources => cases (same sources).mp rfl
    | error _ => rfl

theorem exit_of_format (form : Format) :
    (check s fs { o with format := form }).exit = (check t fs o).exit := by
  cases opening : openOutput fs o with
  | error failure =>
    have opening' : openOutput fs { o with format := form } = .error failure := opening
    simp [check, opening, opening']
  | ok opened =>
    have opening' : openOutput fs { o with format := form } = .ok opened := opening
    rw [exit_of_opened opening, exit_of_opened opening']
    rfl

/-- The format of a report does not decide how a run exits. -/
theorem exit_format_free {base text json : List String} {inText inJson : Options}
    (asText : Options.Adds .format "text" base text) (asJson : Options.Adds .format "json" base json)
    (readText : Options.ofWords text = .ok inText) (readJson : Options.ofWords json = .ok inJson)
    (s t : Surroundings) :
    (run s fs (commandName :: text)).exit = (run t fs (commandName :: json)).exit := by
  obtain ⟨o, read, assigned⟩ := Options.exists_of_adds (by decide) asText readText
  obtain ⟨_, again, assigned'⟩ := Options.exists_of_adds (by decide) asJson readJson
  rw [read] at again
  cases again
  cases assigned
  cases assigned'
  rw [run_of_options readText, run_of_options readJson, exit_of_format .text (t := t),
    exit_of_format .json (t := t)]

/-- A run whose report goes to a file, beside the run that prints it. They may take place at other
    times and on other machines; the texts are compared for the same time, without colours. -/
structure FiledReport (fs : FileSystem) (words filed : List String) (location : Location) : Prop where
  exit : ∀ s t, (run s fs (commandName :: filed)).exit = (run t fs (commandName :: words)).exit
  silent : ∀ s, (run s fs (commandName :: filed)).stdout = ""
  fatal : ∀ s, (run s fs (commandName :: filed)).stderr = "" ↔
    (run s fs (commandName :: words)).stderr = ""
  report : ∀ s, (run s fs (commandName :: words)).stderr = "" →
    (run s fs (commandName :: filed)).fs.content? location =
      some (run { s with coloured := false } fs (commandName :: words)).stdout.toUTF8

theorem checked_eq_ok_iff {opened : FileSystem} {target : Option Location} {result : AnalysisResult}
    (opening : openOutput fs o = .ok (opened, target)) : checked s fs o = .ok result ↔
      ∃ sources, Check.collected opened (IgnoreRules.globals opened) o = .ok sources ∧
        Check.analyzeReadings (Check.readAll sources) o.minLines s.timestamp = result := by
  simp only [checked, opening, Check.run_eq]
  cases Check.collected opened (IgnoreRules.globals opened) o <;> simp [Except.map]

theorem stdout_of_unfiled {result : AnalysisResult} (unfiled : o.output = none)
    (done : checked s fs o = .ok result) : (check s fs o).stdout = report s o result := by
  have opening : openOutput fs o = .ok (fs, none) := by simp [openOutput, unfiled]
  simp only [checked, opening] at done
  split at done
  · cases done
  · next ran =>
    cases done
    simp [check, opening, ran]

theorem check_of_filed {result : AnalysisResult} (made : fs.creation path = .ok location)
    (filed : o.output = some path) (done : checked s fs o = .ok result) :
    (check s fs o).stdout = "" ∧
      (check s fs o).fs = (fs.writeAt location ByteArray.empty).writeAt location
        (report s o result).toUTF8 := by
  have opening : openOutput fs o = .ok (fs.writeAt location ByteArray.empty, some location) := by
    simp [openOutput, filed, made]
  simp only [checked, opening] at done
  split at done
  · cases done
  · next ran =>
    cases done
    simp [check, opening, ran]

section Filing

variable (form : fs.WellFormed) (plainHome : ∀ home, fs.home = some home → PlainNames home)
variable (new : NewFile IgnoreRules.steering fs path location)
include form plainHome new

theorem collected_filed {sources : List Source} :
    Check.collected (fs.writeAt location ByteArray.empty)
        (IgnoreRules.globals (fs.writeAt location ByteArray.empty)) { o with output := some path } =
      .ok sources ↔ Check.collected fs (IgnoreRules.globals fs) o = .ok sources := by
  rw [new.globals_writeAt form plainHome]
  exact new.collected_writeAt form (o := { o with output := some path })

theorem filedReport {filed : List String} (unfiled : o.output = none)
    (read : Options.ofWords words = .ok o)
    (still : Options.ofWords filed = .ok { o with output := some path }) :
    FiledReport fs words filed location := by
  have printing : openOutput fs o = .ok (fs, none) := by simp [openOutput, unfiled]
  have filing : openOutput fs { o with output := some path } =
      .ok (fs.writeAt location ByteArray.empty, some location) := by simp [openOutput, new.made]
  have same : ∀ s result, checked s fs { o with output := some path } = .ok result ↔
      checked s fs o = .ok result := by
    intro s result
    rw [checked_eq_ok_iff filing, checked_eq_ok_iff printing]
    exact exists_congr fun sources => and_congr_left fun _ => collected_filed form plainHome new
  have ended : ∀ s (o : Options),
      (check s fs o).stderr = "" ↔ ∃ result, checked s fs o = .ok result := by
    intro s o
    cases done : checked s fs o with
    | ok result => simp [(check_of_ok done).2]
    | error failure => simp [(check_of_error done).2.2, message_ne_empty]
  refine ⟨fun s t => ?_, fun s => ?_, fun s => ?_, fun s fine => ?_⟩
  all_goals rw [run_of_options still]
  · rw [run_of_options read, exit_of_opened filing, exit_of_opened printing]
    exact exitOf_congr _ fun sources => collected_filed form plainHome new
  · cases done : checked s fs { o with output := some path } with
    | ok result => exact (check_of_filed new.made rfl done).1
    | error failure => exact (check_of_error done).2.1
  · rw [run_of_options read, ended, ended]
    exact exists_congr (same s)
  · rw [run_of_options read, ended] at fine
    obtain ⟨result, done⟩ := fine
    have plainly : checked { s with coloured := false } fs o = .ok result := done
    have alike : report s { o with output := some path } result =
        report { s with coloured := false } o result := by simp [report, finishedLine]
    rw [run_of_options read, stdout_of_unfiled unfiled plainly,
      (check_of_filed new.made rfl ((same s result).mpr done)).2, alike, FileSystem.writeAt,
      FileSystem.writeAt, FileTree.put_put]
    exact ((new.vacant form).fileAt form).content?

end Filing

/-- A run that writes its report to a new file, which the check does not ask for, ends as the run that
    prints it, and the file holds what is printed. -/
theorem filedReport_of_adds {words filed : List String} {after : Options} (form : fs.WellFormed)
    (plainHome : ∀ home, fs.home = some home → PlainNames home)
    (read : Options.ofWords words = .ok o) (unfiled : o.output = none)
    (adds : Options.Adds .output path words filed) (still : Options.ofWords filed = .ok after)
    (new : NewFile IgnoreRules.steering fs path location) :
    FiledReport fs words filed location := by
  obtain ⟨less, again, assigned⟩ := Options.exists_of_adds (by decide) adds still
  rw [read] at again
  cases again
  have set : after = { o with output := some path } := by
    obtain ⟨named, valid, made⟩ := exists_of_bind_ok assigned
    rw [Options.path?] at valid
    split at valid <;> cases valid
    cases made
    rfl
  subst set
  exact filedReport form plainHome new unfiled read still

/-- Where a report goes and how it is written changes nothing about a run: a new file, which the check
    does not ask for, gets what would have been printed. The exit code of any run tells whether it
    succeeded with nothing found, in either format. -/
theorem output_changes_nothing (fs : FileSystem) :
    (∀ (words filed : List String) (o after : Options) (path : String) (location : Location),
      fs.WellFormed → (∀ home, fs.home = some home → PlainNames home) →
      Options.ofWords words = .ok o → o.output = none →
      Options.Adds .output path words filed → Options.ofWords filed = .ok after →
      NewFile IgnoreRules.steering fs path location → FiledReport fs words filed location) ∧
      (∀ (given : List String) (parsed : Options),
        Options.ofWords given = .ok parsed → ExitTells fs given parsed) ∧
      ∀ (base text json : List String) (inText inJson : Options),
        Options.Adds .format "text" base text → Options.Adds .format "json" base json →
        Options.ofWords text = .ok inText → Options.ofWords json = .ok inJson →
        ∀ s t, (run s fs (commandName :: text)).exit = (run t fs (commandName :: json)).exit :=
  ⟨fun _ _ _ _ _ _ form plainHome read unfiled adds still new =>
      filedReport_of_adds form plainHome read unfiled adds still new,
    fun _ _ parsed => exitTells fs parsed,
    fun _ _ _ _ _ asText asJson readText readJson s t =>
      exit_format_free asText asJson readText readJson s t⟩

def ruledFiles : FileSystem where
  base := "/work"
  tree := ⟨.ofList [(".gitignore", .file "lib\n".toUTF8), ("lib", .directory),
    ("lib/dead.py", .file ByteArray.empty)]⟩
  home := some []

theorem ruledFiles_form : ruledFiles.WellFormed where
  tree := by decide
  base := by decide
  plain := plainNames_nil
  working := rfl

theorem ruledFiles_noLinks : ∀ location path, ruledFiles.tree.find? location ≠ some (.link path) :=
  FileTree.find?_ne_link rfl

def markedFiles : FileSystem := ruledFiles.writeAt [".jj"] ByteArray.empty

theorem markedFiles_form : markedFiles.WellFormed where
  tree := by decide
  base := by decide
  plain := plainNames_nil
  working := rfl

theorem markedFiles_noLinks : ∀ location path, markedFiles.tree.find? location ≠ some (.link path) :=
  FileTree.find?_ne_link rfl

def deadSource : Source where
  file := Collect.Walk.sourceFile ["lib", "dead.py"] ByteArray.empty
  path := "/work/lib/dead.py"
  content := ByteArray.empty

theorem ruledFiles_kept (globals : List IgnoreRule) (isDirectory : Bool) (location : Location)
    (inside : location = ["lib"] ∨ location = ["lib", "dead.py"]) :
    IgnoreRules.isIgnored ruledFiles globals location isDirectory = false := by
  have leads : ∀ {location : Location}, PlainNames location → (∀ name ∈ location, IsStep name) →
      ruledFiles.target? location = ruledFiles.tree.find? location :=
    FileSystem.target?_of_noLinks ruledFiles_noLinks ruledFiles_form.tree
  have above : ∀ directory ∈ IgnoreRules.above location, directory = [] ∨ directory = ["lib"] := by
    rcases inside with rfl | rfl <;> simp [IgnoreRules.above]
  apply IgnoreRules.isIgnored_of_silent
  all_goals
    intro directory mem
    rcases above directory mem with rfl | rfl <;>
    simp (disch := decide) [IgnoreRules.isRepository, IgnoreRules.repositoryMarks,
      FileSystem.exists?, FileSystem.content?, leads] <;> decide

theorem ruledFiles_sources (globals : List IgnoreRule) :
    Collect.Walk.sources { fs := ruledFiles, globals, root := [] } "/work" = [deadSource] := by
  have entries : ruledFiles.tree.entries.toList = [(".gitignore", .file "lib\n".toUTF8),
    ("lib", .directory), ("lib/dead.py", .file ByteArray.empty)] := rfl
  have content : ruledFiles.content? ["lib", "dead.py"] = some ByteArray.empty :=
    (FileSystem.fileAt_of_find? ruledFiles_form.tree (by decide) rfl).content?
  have fronts : Text.fronts ["lib"] = [["lib"]] := by decide
  have admitted : Collect.Walk.admits { fs := ruledFiles, globals, root := [] } ["lib", "dead.py"] =
      true := by
    simp [Collect.Walk.admits, Collect.Walk.enters, fronts, ruledFiles_kept]
    decide
  have collected : Collect.Walk.source? { fs := ruledFiles, globals, root := [] } "/work"
      ("lib/dead.py", .file ByteArray.empty) = some deadSource :=
    Collect.Walk.source?_eq_some_iff.mpr ⟨["lib", "dead.py"], rfl, content, admitted, rfl, by decide⟩
  rw [Collect.Walk.sources, Collect.Walk.found, entries,
    List.filterMap_cons_none (Collect.Walk.source?_of_other _ _ (by decide)),
    List.filterMap_cons_none (Collect.Walk.source?_of_other _ _ (by decide)),
    List.filterMap_cons_some collected]
  exact List.mergeSort_singleton _

theorem markedFiles_ignored (globals : List IgnoreRule) :
    IgnoreRules.isIgnored markedFiles globals ["lib"] true = true := by
  have leads : ∀ {location : Location}, PlainNames location → (∀ name ∈ location, IsStep name) →
      markedFiles.target? location = markedFiles.tree.find? location :=
    FileSystem.target?_of_noLinks markedFiles_noLinks markedFiles_form.tree
  have unruled : markedFiles.content? [".ignore"] = none := by
    rw [FileSystem.content?, leads (by decide) (by decide)]
    rfl
  have ruled : markedFiles.content? [".gitignore"] = some "lib\n".toUTF8 := by
    rw [FileSystem.content?, leads (by decide) (by decide)]
    rfl
  have marked : IgnoreRules.isRepository markedFiles [] = true := by
    have mark : markedFiles.exists? [".jj"] = true := by
      rw [FileSystem.exists?, leads (by decide) (by decide)]
      rfl
    simp [IgnoreRules.isRepository, IgnoreRules.repositoryMarks, mark]
  have rules : IgnoreRules.inFile markedFiles [] [".gitignore"] =
      IgnoreRules.ofContent "lib\n".toUTF8 := by
    rw [IgnoreRules.inFile, List.nil_append, ruled]
    rfl
  have verdict : IgnoreRules.verdict? (IgnoreRules.ofContent "lib\n".toUTF8) "lib" true =
      some .ignore := by decide +kernel
  have key : FileTree.key ["lib"] = "lib" := by decide
  have own : IgnoreRules.verdictAmong markedFiles [".ignore"] [[]] ["lib"] true = none := by
    simp [IgnoreRules.verdictAmong, IgnoreRules.inFile, unruled, IgnoreRules.verdict?]
  have repository : IgnoreRules.verdictAmong markedFiles [".gitignore"] [[]] ["lib"] true =
      some .ignore := by
    simp only [IgnoreRules.verdictAmong, List.findSome?_cons, List.length_nil, List.drop_zero, rules,
      key, verdict]
  simp [IgnoreRules.isIgnored, IgnoreRules.above, IgnoreRules.insideRepository, marked, own,
    repository]

theorem markedFiles_sources (globals : List IgnoreRule) :
    Collect.Walk.sources { fs := markedFiles, globals, root := [] } "/work" = [] := by
  have entries : markedFiles.tree.entries.toList = [(".gitignore", .file "lib\n".toUTF8),
    (".jj", .file ByteArray.empty), ("lib", .directory),
    ("lib/dead.py", .file ByteArray.empty)] := rfl
  have fronts : Text.fronts ["lib"] = [["lib"]] := by decide
  have refused : Collect.Walk.admits { fs := markedFiles, globals, root := [] } ["lib", "dead.py"] =
      false := by
    simp [Collect.Walk.admits, Collect.Walk.enters, fronts, markedFiles_ignored]
  have below : Collect.Walk.namesBelow? { fs := markedFiles, globals, root := [] } "lib/dead.py" =
      some ["lib", "dead.py"] := rfl
  have missed : Collect.Walk.source? { fs := markedFiles, globals, root := [] } "/work"
      ("lib/dead.py", .file ByteArray.empty) = none := by
    simp [Collect.Walk.source?, below, refused]
  rw [Collect.Walk.sources, Collect.Walk.found, entries,
    List.filterMap_cons_none (Collect.Walk.source?_of_other _ _ (by decide)),
    List.filterMap_cons_none (Collect.Walk.source?_of_other _ _ (by decide)),
    List.filterMap_cons_none (Collect.Walk.source?_of_other _ _ (by decide)),
    List.filterMap_cons_none missed]
  exact List.mergeSort_nil

theorem ownReach_of_noEntry {graph : ProjectGraph} (noEntry : graph.entryFiles = []) :
    graph.ownReach.files = ∅ := by
  show Worklist.closure _ _ graph.entryFiles = ∅
  rw [noEntry, Worklist.closure, Worklist.run]

theorem hasFindings_nil (minLines : Nat) (timestamp : String) :
    (Check.analyzeReadings [] minLines timestamp).hasFindings = false := by
  let graph := Check.graphOf []
  have unreached : graph.ownReach.files = ∅ := ownReach_of_noEntry rfl
  have empty : (∅ : NameSet).toList = [] := rfl
  have files : Classify.deadFiles graph graph.ownReach = [] := List.mergeSort_nil
  have functions : Classify.deadFunctions graph graph.ownReach minLines = [] := by
    rw [Classify.deadFunctions, unreached, empty]
    exact List.mergeSort_nil
  have imports : Classify.unusedImports graph graph.ownReach = [] := by
    rw [Classify.unusedImports, unreached, empty]
    exact List.mergeSort_nil
  show decide (0 < (Classify.deadFiles graph graph.ownReach).length +
    (Classify.deadFunctions graph graph.ownReach minLines).length +
    (Classify.unusedImports graph graph.ownReach).length) = false
  rw [files, functions, imports]
  rfl

theorem deadSource_found :
    (Check.analyzeReadings (Check.readAll [deadSource]) 10 "").hasFindings = true := by
  have read : deadSource.extract = .ok {} := by rfl
  have readings : Check.readAll [deadSource] = [(deadSource.file, .ok {})] := by
    rw [Check.readAll, List.map_cons, read, List.map_nil]
  let graph := Check.graphOf [(deadSource.file, .ok {})]
  have files : graph.files = [deadSource.file] := by rfl
  have unreached : graph.ownReach.files = ∅ := ownReach_of_noEntry (by decide)
  have dead : Classify.deadFileFinding graph deadSource.file ∈
      Classify.deadFiles graph graph.ownReach := by
    rw [Classify.deadFiles, Ranking.mem_sort, files]
    apply List.mem_map_of_mem
    rw [List.mem_filter]
    exact ⟨List.mem_singleton_self _, by rw [unreached]; decide⟩
  have counted : 0 < (Classify.deadFiles graph graph.ownReach).length :=
    List.length_pos_of_mem dead
  rw [readings]
  show decide (0 < (Classify.deadFiles graph graph.ownReach).length + _ + _) = true
  simp only [decide_eq_true_eq]
  omega

theorem ruledFiles_excludesPath :
    IgnoreRules.excludesPath ruledFiles [] = "/work/.config/git/ignore" := by
  have unset : ∀ names ∈ [[".gitconfig"], [".config", "git", "config"]],
      ruledFiles.content? names = none := by
    intro names mem
    have inside : PlainNames names ∧ (∀ name ∈ names, IsStep name) ∧
        (ruledFiles.tree.find? names).isNone = true := by
      simp only [List.mem_cons, List.not_mem_nil, or_false] at mem
      rcases mem with rfl | rfl <;> decide
    rw [FileSystem.content?, FileSystem.target?_of_noLinks ruledFiles_noLinks ruledFiles_form.tree
      inside.1 inside.2.1, Option.isNone_iff_eq_none.mp inside.2.2]
  simp [IgnoreRules.excludesPath, unset]
  decide

theorem ruledFiles_new {asked : List (List String)} {name : String} (step : IsStep name)
    (located : ruledFiles.locate [] name = some ([], [name]))
    (absent : (ruledFiles.tree.find? [name]).isNone = true)
    (noSource : Collect.isSourceName name = false)
    (other : ∀ names ∈ [".gitconfig"] :: [".config", "git", "config"] :: [".config", "git", "ignore"] ::
      asked, ∃ last, names.getLast? = some last ∧ IsStep last ∧ last ≠ name) :
    NewFile asked ruledFiles name [name] := by
  have vacant : ruledFiles.tree.find? [name] = none := Option.isNone_iff_eq_none.mp absent
  -- What is asked for is looked for by another name.
  have apart : ∀ directory, ∀ names ∈ [".gitconfig"] :: [".config", "git", "config"] ::
      [".config", "git", "ignore"] :: asked,
      ruledFiles.follow true FileSystem.linkLimit [] (directory ++ names) ≠ .ok [name] := by
    intro directory names mem ends
    obtain ⟨last, ending, step, differs⟩ := other names mem
    have nonempty : names ≠ [] := by
      rintro rfl
      cases ending
    have same := FileSystem.getLast?_of_follow ruledFiles_noLinks step
      ((List.getLast?_append_of_ne_nil _ nonempty).trans ending) ends
    simp only [List.getLast?_singleton, Option.some.injEq] at same
    exact differs same.symm
  refine ⟨?_, vacant, ?_, fun here target _ found => absurd found (ruledFiles_noLinks _ _),
    fun directory _ names mem => apart directory names (by simp [mem]), fun home known => ?_⟩
  · obtain ⟨named, stays, up⟩ := step
    have made : ruledFiles.follow true FileSystem.linkLimit [] [name] = .ok [name] := by
      have top : ruledFiles.tree.isDirectory [] = true := rfl
      rw [FileSystem.follow]
      simp [top, named, stays, up, vacant]
    have located' : ruledFiles.locate ruledFiles.workingDirectory name = some ([], [name]) := located
    have leaf : ruledFiles.tree.isDirectory [name] = false := by simp [FileTree.isDirectory, vacant]
    rw [FileSystem.creation, located']
    simp [named, made, leaf, bind, Except.bind]
  · simpa using noSource
  · cases known
    refine ⟨fun names mem => apart [] names ?_, ?_⟩
    · simp only [List.mem_cons, List.not_mem_nil, or_false] at mem
      rcases mem with rfl | rfl <;> simp
    · rw [ruledFiles_excludesPath]
      exact apart [] [".config", "git", "ignore"] (by simp)

theorem ruledFiles_exit (s : Surroundings) :
    (run s ruledFiles (commandName :: ["--root", "."])).exit = 1 := by
  have read : Options.ofWords ["--root", "."] = .ok { root := some "." } := by decide
  have collection : ∀ globals, Check.collected ruledFiles globals { root := some "." } =
      .ok [deadSource] := by
    intro globals
    rw [← ruledFiles_sources globals]
    exact Check.collected_here ruledFiles_form rfl rfl
  have opening : openOutput ruledFiles { root := some "." } = .ok (ruledFiles, none) := rfl
  rw [run_of_options read, exit_of_opened opening, collection, exitOf, if_pos deadSource_found]

theorem markedFiles_exit (s : Surroundings) (made : ruledFiles.creation ".jj" = .ok [".jj"]) :
    (run s ruledFiles (commandName :: ["--root", ".", "--output", ".jj"])).exit = 0 := by
  have read : Options.ofWords ["--root", ".", "--output", ".jj"] =
    .ok { root := some ".", output := some ".jj" } := by decide
  have collection : ∀ globals, Check.collected markedFiles globals
      { root := some ".", output := some ".jj" } = .ok [] := by
    intro globals
    rw [← markedFiles_sources globals]
    exact Check.collected_here markedFiles_form rfl rfl
  have opening : openOutput ruledFiles { root := some ".", output := some ".jj" } =
      .ok (markedFiles, some [".jj"]) := by simp [openOutput, made, markedFiles]
  have silent : (Check.analyzeReadings (Check.readAll []) 10 "").hasFindings = false :=
    hasFindings_nil 10 ""
  rw [run_of_options read, exit_of_opened opening, collection, exitOf, silent]
  rfl

theorem ruledFiles_plainHome (home : Location) (known : ruledFiles.home = some home) :
    PlainNames home := by
  cases known
  exact plainNames_nil

/-- A report beside the sources, the rules and the user's settings. -/
theorem report_changes_nothing : ruledFiles.WellFormed ∧
    NewFile IgnoreRules.steering ruledFiles "report.txt" ["report.txt"] ∧
      FiledReport ruledFiles ["--root", "."] ["--root", ".", "--output", "report.txt"]
        ["report.txt"] := by
  have read : Options.ofWords ["--root", "."] = .ok { root := some "." } := by decide
  have still : Options.ofWords ["--root", ".", "--output", "report.txt"] =
    .ok { root := some ".", output := some "report.txt" } := by decide
  have new : NewFile IgnoreRules.steering ruledFiles "report.txt" ["report.txt"] :=
    ruledFiles_new (by decide) (by decide) (by decide) (by decide) (by decide)
  exact ⟨ruledFiles_form, new, (output_changes_nothing ruledFiles).1 _ _ _ _ _ _ ruledFiles_form
    ruledFiles_plainHome read rfl (.apart ["--root", "."] []) still new⟩

/-- What is asked for in a directory, apart from the mark of another kind of repository. -/
def configuration : List (List String) := IgnoreRules.steering.erase [".jj"]

/-- That mark is asked for as well: a report that is written to it brings a rule into force, and the
    run ends in another way. -/
theorem report_as_mark_changes_exit : ¬∀ (fs : FileSystem) (words filed : List String)
    (o after : Options) (path : String) (location : Location), fs.WellFormed →
      (∀ home, fs.home = some home → PlainNames home) →
      Options.ofWords words = .ok o → o.output = none →
      Options.Adds .output path words filed → Options.ofWords filed = .ok after →
      NewFile configuration fs path location →
      ∀ s t, (run s fs (commandName :: filed)).exit = (run t fs (commandName :: words)).exit := by
  intro unchanged
  have read : Options.ofWords ["--root", "."] = .ok { root := some "." } := by decide
  have still : Options.ofWords ["--root", ".", "--output", ".jj"] =
    .ok { root := some ".", output := some ".jj" } := by decide
  have new : NewFile configuration ruledFiles ".jj" [".jj"] :=
    ruledFiles_new (by decide) (by decide) (by decide) (by decide) (by decide)
  have same := unchanged ruledFiles _ _ _ _ ".jj" [".jj"] ruledFiles_form ruledFiles_plainHome read rfl
    (.apart ["--root", "."] []) still new plainSurroundings plainSurroundings
  have marked := markedFiles_exit plainSurroundings new.made
  exact absurd (marked.symm.trans (same.trans (ruledFiles_exit plainSurroundings))) (by decide)

end CommandLine

end DeadCode
