import DeadCode.Proofs.OutputFile

/- A file is made where nothing was. Taking it away again gives back the file system, so what a
   deletion leaves as it was, the making has left as it was. Whatever leads to the new file led to
   its place before, when the last name need not exist. -/
namespace DeadCode

namespace FileTree

variable {tree : FileTree} {location other here : Location} {entry : Entry} {name : String}
variable {bytes : ByteArray}

theorem remove_put (nonempty : location ≠ []) (absent : tree.find? location = none) :
    (tree.put location entry).remove location = tree := by
  rw [find?_of_ne_nil nonempty] at absent
  have same : (tree.entries.insert (key location) entry).filterKeys (· != key location) =
      tree.entries := by
    apply NameMap.eq_of_get?
    intro k
    rw [NameMap.get?_filterKeys]
    by_cases onto : k = key location
    · simp [onto, absent]
    · rw [if_pos (by simpa using onto), NameMap.get?_insert, if_neg onto]
  rw [remove, put, same]

theorem put_put (first second : Entry) :
    (tree.put location first).put location second = tree.put location second := by
  have same : (tree.entries.insert (key location) first).insert (key location) second =
      tree.entries.insert (key location) second := by
    apply NameMap.eq_of_get?
    intro k
    simp only [NameMap.get?_insert]
    split <;> rfl
  rw [put, put, put, same]

theorem key_ne_of_isDirectory (nonempty : location ≠ []) (absent : tree.find? location = none)
    (below : other ≠ []) (directory : tree.isDirectory other = true) : key other ≠ key location := by
  intro same
  have found := isDirectory_iff.mp directory
  rw [find?_of_ne_nil below, same, ← find?_of_ne_nil nonempty, absent] at found
  cases found

theorem isDirectory_put (nonempty : location ≠ []) (absent : tree.find? location = none)
    (directory : tree.isDirectory other = true) :
    (tree.put location entry).isDirectory other = true := by
  by_cases top : other = []
  · rw [top]
    rfl
  · rw [isDirectory_iff, find?_put_other (key_ne_of_isDirectory nonempty absent top directory)]
    exact isDirectory_iff.mp directory

theorem isDirectory_of_put (directory : (tree.put location (.file bytes)).isDirectory other = true) :
    tree.isDirectory other = true := by
  by_cases top : other = []
  · rw [top]
    rfl
  · rw [isDirectory_iff] at directory ⊢
    by_cases same : key other = key location
    · rw [find?_of_ne_nil top, put, NameMap.get?_insert, if_pos same] at directory
      cases directory
    · rwa [find?_put_other same] at directory

theorem WellFormed.put (form : tree.WellFormed) (plain : PlainNames (here ++ [name]))
    (absent : tree.find? (here ++ [name]) = none) (parent : tree.isDirectory here = true)
    (step : IsStep name) : (tree.put (here ++ [name]) entry).WellFormed := by
  have nonempty : here ++ [name] ≠ [] := by simp
  have members : ∀ item ∈ (tree.put (here ++ [name]) entry).entries.toList,
      item.1 = key (here ++ [name]) ∨ item ∈ tree.entries.toList := by
    intro item mem
    have found := NameMap.get?_eq_some_iff.mpr mem
    rw [FileTree.put, NameMap.get?_insert] at found
    split at found
    · next same => exact .inl same
    · exact .inr (NameMap.get?_eq_some_iff.mp found)
  refine ⟨fun item mem => ?_, fun item mem => ?_⟩
  all_goals rcases members item mem with same | old
  · rw [same, segments_key nonempty plain]
    intro other inside
    rcases List.mem_append.mp inside with above | last
    · exact form.isStep (plain.of_subset (List.subset_append_left _ _))
        (isDirectory_iff.mp parent) other above
    · rw [List.mem_singleton.mp last]
      exact step
  · exact form.steps item old
  · rw [same, segments_key nonempty plain, List.dropLast_concat]
    exact isDirectory_put nonempty absent parent
  · exact isDirectory_put nonempty absent (form.parents item old)

end FileTree

namespace FileSystem

variable {fs : FileSystem} {links : Nat} {here location r : Location} {names : List String}
variable {path : String} {bytes : ByteArray}

structure Vacant (fs : FileSystem) (location : Location) : Prop where
  plain : PlainNames location
  absent : fs.tree.find? location = none
  step : ∃ here name, location = here ++ [name] ∧ fs.tree.isDirectory here = true ∧ IsStep name

theorem vacant_of_follow (form : fs.tree.WellFormed) (ends : fs.follow true links here names = .ok r)
    (absent : fs.tree.find? r = none) (plainHere : PlainNames here) (plain : PlainNames names)
    (start : ∃ entry, fs.tree.find? here = some entry) : fs.Vacant r := by
  fun_induction follow fs true links here names with
  | case1 links here =>
    cases ends
    obtain ⟨entry, found⟩ := start
    rw [absent] at found
    cases found
  | case3 links here name rest directory same ih => exact ih ends plainHere plain.tail start
  | case4 links here name rest directory _ up ih =>
    have above := form.dropLast plainHere (by simpa using directory)
    exact ih ends (plainHere.of_subset (List.dropLast_subset _)) plain.tail
      ⟨_, FileTree.isDirectory_iff.mp above⟩
  | case5 links here name rest directory moves down _ creates =>
    cases ends
    exact ⟨plainHere.step plain, absent, here, name, rfl, by simpa using directory,
      isStep_of_tests moves down⟩
  | case8 here name rest directory moves down path found links start names located ih =>
    obtain ⟨origin, plainNames⟩ := start_of_locate located
    apply ih ends (plain_of_locate located plainHere) (plainNames.append plain.tail)
    rcases origin with rfl | rfl
    · exact ⟨_, rfl⟩
    · exact start
  | case10 links here name rest directory moves down entry noLink found ih =>
    exact ih ends (plainHere.step plain) plain.tail ⟨entry, found⟩
  | case2 | case6 | case7 | case9 => cases ends

theorem vacant_of_creation (form : fs.WellFormed) (made : fs.creation path = .ok location)
    (absent : fs.tree.find? location = none) : fs.Vacant location := by
  unfold creation at made
  split at made
  · cases made
  · next start names located =>
    simp only at made
    split at made
    · obtain ⟨_, _, failed⟩ := exists_of_bind_ok made
      cases failed
    · obtain ⟨found, ends, made⟩ := exists_of_bind_ok made
      split at made
      · cases made
      · cases made
        obtain ⟨origin, plain⟩ := start_of_locate located
        apply vacant_of_follow form.tree ends absent (plain_of_locate located form.plain) plain
        rcases origin with rfl | rfl
        · exact ⟨_, rfl⟩
        · exact ⟨_, FileTree.isDirectory_iff.mp form.working⟩

theorem exists_entry_of_resolve (form : fs.WellFormed) (found : fs.resolve path = .ok r) :
    ∃ entry, fs.tree.find? r = some entry := by
  unfold resolve resolveFrom at found
  split at found
  · next start names located =>
    obtain ⟨origin, plain⟩ := start_of_locate located
    have directory : fs.tree.isDirectory start = true := by
      rcases origin with rfl | rfl
      · rfl
      · exact form.working
    obtain ⟨entry, there, _⟩ := (leads_of_follow found).exists_entry form.tree
      (plain_of_locate located form.plain) plain
      ⟨_, FileTree.isDirectory_iff.mp directory, fun _ same => by cases same⟩
    exact ⟨entry, there⟩
  · cases found

theorem resolve_of_remove (found : (fs.remove location).resolve path = .ok r) :
    fs.resolve path = .ok r := by
  unfold resolve resolveFrom at found ⊢
  split at found
  · next start names located =>
    have located' : fs.locate fs.workingDirectory path = some (start, names) := located
    rw [located']
    exact follow_of_leads (leads_of_remove (leads_of_follow found))
  · cases found

section Creation

variable (vacant : fs.Vacant location)
include vacant

theorem Vacant.ne_nil : location ≠ [] := by
  obtain ⟨_, _, rfl, _⟩ := vacant.step
  simp

theorem Vacant.remove_writeAt : (fs.writeAt location bytes).remove location = fs := by
  rw [remove, writeAt, FileTree.remove_put vacant.ne_nil vacant.absent]

theorem Vacant.wellFormed (form : fs.WellFormed) : (fs.writeAt location bytes).WellFormed where
  tree := by
    obtain ⟨here, name, rfl, parent, step⟩ := vacant.step
    exact form.tree.put vacant.plain vacant.absent parent step
  base := form.base
  plain := form.plain
  working := FileTree.isDirectory_put vacant.ne_nil vacant.absent form.working

theorem Vacant.fileAt (form : fs.WellFormed) :
    (fs.writeAt location bytes).FileAt location location bytes :=
  fileAt_of_find? (vacant.wellFormed form).tree vacant.plain (FileTree.find?_put_self vacant.ne_nil)

/-- Whatever leads anywhere beside the new file led there before, if only to where nothing was. -/
theorem Vacant.follow_of_leads (leads : Leads (fs.writeAt location bytes) links here names r) :
    fs.follow true links here names = .ok r := by
  induction leads with
  | done => rw [follow]
  | stay directory same _ ih =>
    have before := FileTree.isDirectory_of_put directory
    rw [follow]
    rcases same with rfl | rfl <;> simpa [before] using ih
  | up directory _ ih =>
    have before := FileTree.isDirectory_of_put directory
    rw [follow]
    simpa [before] using ih
  | @enter links here r name rest entry directory step found noLink later ih =>
    have before := FileTree.isDirectory_of_put directory
    obtain ⟨nonempty, stays, up⟩ := step
    rw [follow]
    by_cases onto : FileTree.key (here ++ [name]) = FileTree.key location
    · -- The step goes to the new file, from where nothing leads on.
      have absent : fs.tree.find? (here ++ [name]) = none := by
        rw [FileTree.find?_of_ne_nil (by simp), onto, ← FileTree.find?_of_ne_nil vacant.ne_nil,
          vacant.absent]
      have leaf : (fs.writeAt location bytes).tree.isDirectory (here ++ [name]) = false := by
        rw [FileTree.isDirectory, FileTree.find?_of_ne_nil (by simp), writeAt, FileTree.put,
          NameMap.get?_insert, if_pos onto]
        rfl
      obtain ⟨rfl, rfl⟩ := later.eq_of_not_directory leaf
      simp [before, nonempty, stays, up, absent]
    · rw [writeAt, FileTree.find?_put_other onto] at found
      cases entry with
      | link path => exact absurd rfl (noLink path)
      | file _ | directory => simpa [before, nonempty, stays, up, found] using ih
  | @link links here start r name path names rest directory step found located later ih =>
    have before := FileTree.isDirectory_of_put directory
    obtain ⟨nonempty, stays, up⟩ := step
    rw [follow]
    have apart : FileTree.key (here ++ [name]) ≠ FileTree.key location := by
      intro onto
      rw [FileTree.find?_of_ne_nil (by simp), writeAt, FileTree.put, NameMap.get?_insert,
        if_pos onto] at found
      cases found
    rw [writeAt, FileTree.find?_put_other apart] at found
    have located' : fs.locate here path = some (start, names) := located
    simpa [before, nonempty, stays, up, found, located'] using ih

theorem Vacant.follow_of_leads_before (leads : Leads fs links here names r) :
    fs.follow true links here names = .ok r := by
  have removed : (fs.writeAt location ByteArray.empty).remove location = fs := vacant.remove_writeAt
  rw [← removed] at leads
  exact vacant.follow_of_leads (leads_of_remove leads)

end Creation

section NoLinks

variable (noLinks : ∀ location path, fs.tree.find? location ≠ some (.link path))
include noLinks

theorem getLast?_of_follow {name : String} (step : IsStep name) (last : names.getLast? = some name)
    (ends : fs.follow true links here names = .ok r) : r.getLast? = some name := by
  have tail : ∀ {first : String} {rest : List String}, (first :: rest).getLast? = some name →
      rest = [] ∧ first = name ∨ rest.getLast? = some name := by
    intro first rest last
    cases rest with
    | nil => exact .inl ⟨rfl, by simpa using last⟩
    | cons second rest => exact .inr (by simpa [List.getLast?_cons_cons] using last)
  fun_induction follow fs true links here names with
  | case1 => cases last
  | case3 links here first rest directory same ih =>
    rcases tail last with ⟨rfl, rfl⟩ | later
    · simp only [Bool.or_eq_true, beq_iff_eq] at same
      exact absurd same (by simp [step.1, step.2.1])
    · exact ih later ends
  | case4 links here first rest directory _ up ih =>
    rcases tail last with ⟨rfl, rfl⟩ | later
    · exact absurd (by simpa using up) step.2.2
    · exact ih later ends
  | case5 links here first rest directory moves down _ creates =>
    cases ends
    obtain rfl : rest = [] := by simpa using creates
    simpa using last
  | case8 here first rest directory moves down path found => exact absurd found (noLinks _ _)
  | case10 links here first rest directory moves down entry noLink found ih =>
    rcases tail last with ⟨rfl, rfl⟩ | later
    · rw [follow] at ends
      cases ends
      simp
    · exact ih later ends
  | case2 | case6 | case7 | case9 => cases ends

theorem target?_of_noLinks (form : fs.tree.WellFormed) (plain : PlainNames location)
    (steps : ∀ name ∈ location, IsStep name) : fs.target? location = fs.tree.find? location := by
  apply Option.ext
  intro entry
  constructor
  · intro found
    obtain ⟨r, leads, found⟩ := target?_eq_some_iff.mp found
    rwa [leads.eq_append noLinks steps, List.nil_append] at found
  · intro found
    exact target?_eq_some_iff.mpr ⟨location, leads_to_entry form plain found
      (fun path same => noLinks location path (same ▸ found)), found⟩

end NoLinks

end FileSystem
end DeadCode
