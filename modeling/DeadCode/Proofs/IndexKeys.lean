import DeadCode.Proofs.Addresses
import DeadCode.Proofs.Names

/- Which names a module index knows and where they lead. The index of an ordered list of files maps
   a name to the file at its address, or else to the marker file of the directory there. Below a
   name that it does not know, an index takes the least name of all. -/
namespace DeadCode

def SourceFile.At (file : SourceFile) (a : Address) : Prop :=
  file.relPath = a.path ∧ file.module = ModulePath.ofPath file.relPath

theorem SourceFile.At.module_eq {file : SourceFile} {a : Address} (lies : file.At a) :
    file.module = a.name := by
  rw [lies.2, lies.1, a.ofPath_path]

namespace ModuleIndex

variable {files : List SourceFile} {index : ModuleIndex} {a b : Address} {k path m : String}

/-- The names that a file claims, with the files it claims them for. -/
def claims (known : NameSet) (file : SourceFile) : List (String × String) :=
  (file.module, file.relPath) :: (parentMarkers file.module).filter fun claim => known.contains claim.2

theorem modules_addFile (known : NameSet) (index : ModuleIndex) (file : SourceFile) :
    (addFile known index file).modules =
      (claims known file).foldl (fun m e => m.insertNew e.1 e.2) index.modules := by
  rw [addFile, claims, List.foldl_cons, List.foldl_filter]

def Listed (files : List SourceFile) (path : String) : Prop := ∃ file ∈ files, file.relPath = path

theorem known_iff : path ∈ NameSet.ofList (files.map (·.relPath)) ↔ Listed files path := by
  simp [Listed]

theorem get?_build (files : List SourceFile) (k : String) :
    (build files).modules.get? k =
      NameMap.first? (files.flatMap (claims (NameSet.ofList (files.map (·.relPath))))) k := by
  have fold : ∀ (known : NameSet) (files : List SourceFile) (index : ModuleIndex),
      (files.foldl (addFile known) index).modules.get? k =
        (index.modules.get? k).or (NameMap.first? (files.flatMap (claims known)) k) := by
    intro known files
    induction files with
    | nil => simp [NameMap.first?]
    | cons file rest ih =>
      intro index
      rw [List.foldl_cons, ih, modules_addFile, NameMap.get?_foldl_insertNew, List.flatMap_cons,
        NameMap.first?_append, Option.or_assoc]
  rw [build, fold]
  rfl

theorem mem_claims {known : NameSet} {file : SourceFile} (lies : file.At b) :
    (k, path) ∈ claims known file ↔
      (k = b.name ∧ path = b.path) ∨
        ∃ a : Address, a.Above b ∧ k = a.name ∧ path = a.marker.path ∧ path ∈ known := by
  rw [claims, List.mem_cons, List.mem_filter, lies.module_eq, lies.1, Address.mem_parentMarkers]
  simp only [Prod.mk.injEq, NameSet.contains_iff]
  apply or_congr_right
  constructor
  · intro h
    obtain ⟨⟨a, above, rfl, rfl⟩, inside⟩ := h
    exact ⟨a, above, rfl, rfl, inside⟩
  · intro h
    obtain ⟨a, above, rfl, rfl, inside⟩ := h
    exact ⟨⟨a, above, rfl, rfl⟩, inside⟩

section Addressed

variable (addressed : ∀ file ∈ files, ∃ a : Address, file.At a)
include addressed

theorem address_of_get? (found : (build files).modules.get? k = some path) :
    ∃ a : Address, k = a.name ∧ (path = a.path ∨ path = a.marker.path) ∧ Listed files path := by
  rw [get?_build] at found
  have claimed := NameMap.mem_of_first? found
  obtain ⟨file, hf, claimed⟩ := List.mem_flatMap.mp claimed
  obtain ⟨b, lies⟩ := addressed file hf
  rcases (mem_claims lies).mp claimed with ⟨rfl, rfl⟩ | ⟨a, _, rfl, rfl, inside⟩
  · exact ⟨b, rfl, .inl rfl, file, hf, lies.1⟩
  · exact ⟨a, rfl, .inr rfl, known_iff.mp inside⟩

theorem get?_of_file (increasing : files.Pairwise (·.relPath < ·.relPath))
    (listed : Listed files a.path) : (build files).modules.get? a.name = some a.path := by
  obtain ⟨file, hf, at_path⟩ := listed
  obtain ⟨b, lies⟩ := addressed file hf
  have same : b = a := Address.path_injective (lies.1.symm.trans at_path)
  subst same
  obtain ⟨before, after, split⟩ := List.append_of_mem hf
  have earlier : ∀ other ∈ before, other.relPath < file.relPath := fun other ho =>
    (List.pairwise_append.mp (split ▸ increasing)).2.2 other ho file List.mem_cons_self
  rw [get?_build]
  generalize NameSet.ofList (files.map (·.relPath)) = known
  have unclaimed : NameMap.first? (before.flatMap (claims known)) b.name = none := by
    refine NameMap.first?_eq_none_iff.mpr ?_
    intro target claimed
    obtain ⟨other, ho, claimed⟩ := List.mem_flatMap.mp claimed
    obtain ⟨c, otherLies⟩ := addressed other (split ▸ List.mem_append_left _ ho)
    have lt : c.path < b.path := by
      have := earlier other ho
      rwa [otherLies.1, lies.1] at this
    rcases (mem_claims otherLies).mp claimed with ⟨named, _⟩ | ⟨d, above, named, _⟩
    · exact String.lt_irrefl _ (Address.name_injective named ▸ lt)
    · cases Address.name_injective named
      exact String.lt_irrefl _ (String.lt_trans lt (Address.path_lt_of_above above))
  rw [split, List.flatMap_append, NameMap.first?_append, unclaimed, List.flatMap_cons,
    NameMap.first?_append, claims, NameMap.first?_cons, if_pos lies.module_eq, lies.1]
  rfl

theorem get?_of_marker (absent : ¬Listed files a.path) (listed : Listed files a.marker.path) :
    (build files).modules.get? a.name = some a.marker.path := by
  have claimed : (a.name, a.marker.path) ∈
      files.flatMap (claims (NameSet.ofList (files.map (·.relPath)))) := by
    obtain ⟨file, hf, at_path⟩ := listed
    obtain ⟨b, lies⟩ := addressed file hf
    have same : b = a.marker := Address.path_injective (lies.1.symm.trans at_path)
    subst same
    refine List.mem_flatMap.mpr ⟨file, hf, (mem_claims lies).mpr (.inr ?_)⟩
    exact ⟨a, a.above_marker, rfl, rfl, known_iff.mpr ⟨file, hf, at_path⟩⟩
  cases found : (build files).modules.get? a.name with
  | none =>
    rw [get?_build, NameMap.first?_eq_none_iff] at found
    exact absurd claimed (found _)
  | some path =>
    obtain ⟨b, named, which, inside⟩ := address_of_get? addressed found
    cases Address.name_injective named
    rcases which with rfl | rfl
    · exact absurd inside absent
    · rfl

theorem get?_eq_none_iff (increasing : files.Pairwise (·.relPath < ·.relPath)) :
    (build files).modules.get? a.name = none ↔
      ¬Listed files a.path ∧ ¬Listed files a.marker.path := by
  constructor
  · intro unknown
    refine ⟨fun listed => ?_, fun listed => ?_⟩
    · rw [get?_of_file addressed increasing listed] at unknown
      cases unknown
    · by_cases own : Listed files a.path
      · rw [get?_of_file addressed increasing own] at unknown
        cases unknown
      · rw [get?_of_marker addressed own listed] at unknown
        cases unknown
  · intro h
    obtain ⟨noFile, noMarker⟩ := h
    cases found : (build files).modules.get? a.name with
    | none => rfl
    | some path =>
      obtain ⟨b, named, rfl | rfl, inside⟩ := address_of_get? addressed found
      · exact absurd (Address.name_injective named ▸ inside) noFile
      · exact absurd (Address.name_injective named ▸ inside) noMarker

end Addressed

theorem target?_of_key {imports : List String} (nonempty : m ≠ "")
    (key : index.modules.get? m = some path) : index.target? imports m = some path := by
  have direct : index.resolveDirect m = some path := by rw [resolveDirect, key]; rfl
  have plain : index.resolve m = some path := by simp [resolve, nonempty, key]
  rw [target?, direct, plain, ite_self]

/-- The search below a name finds the least of all keys that extend it, because keys with a common
    front are neighbours in the order of the keys. -/
theorem nested?_eq_some_iff :
    index.nested? m = some path ↔
      ∃ key, index.modules.get? key = some path ∧ Text.startsWith key (m ++ ".") = true ∧
        ∀ other ∈ index.modules.keys, Text.startsWith other (m ++ ".") = true → ¬other < key := by
  constructor
  · intro found
    unfold nested? at found
    split at found
    · next key target first =>
      obtain ⟨entry, _, least⟩ := NameMap.firstFrom?_eq_some_iff.mp first
      split at found
      · next extends_ =>
        cases found
        exact ⟨key, entry, extends_, fun other ho shared =>
          least other ho (Text.not_lt_of_startsWith shared)⟩
      · cases found
    · cases found
  · intro h
    obtain ⟨key, entry, extends_, least⟩ := h
    have first : index.modules.firstFrom? (m ++ ".") = some (key, path) := by
      refine NameMap.firstFrom?_eq_some_iff.mpr ⟨entry, Text.not_lt_of_startsWith extends_, ?_⟩
      intro other ho above below
      -- A key between the bound and `key` would extend the name too.
      have between : ¬key < other := fun lt => String.lt_irrefl _ (String.lt_trans lt below)
      exact least other ho (Text.startsWith_of_between above between extends_) below
    simp [nested?, first, extends_]

theorem nested?_eq_none_iff :
    index.nested? m = none ↔
      ∀ key ∈ index.modules.keys, ¬Text.startsWith key (m ++ ".") = true := by
  constructor
  · intro absent key hk shared
    have above := Text.not_lt_of_startsWith shared
    cases first : index.modules.firstFrom? (m ++ ".") with
    | none => exact above (NameMap.firstFrom?_eq_none_iff.mp first key hk)
    | some entry =>
      obtain ⟨low, target⟩ := entry
      obtain ⟨_, bounded, least⟩ := NameMap.firstFrom?_eq_some_iff.mp first
      have extends_ := Text.startsWith_of_between bounded (least key hk above) shared
      simp [nested?, first, extends_] at absent
  · intro none
    apply Option.eq_none_iff_forall_ne_some.mpr
    intro target found
    obtain ⟨key, known, shared, _⟩ := nested?_eq_some_iff.mp found
    exact none key (NameMap.mem_keys.mpr ⟨target, known⟩) shared

/- Projects in which no directory is called like a marker. There a name and its marker's name are
   known together, so looking for the marker never adds an answer. -/

theorem addressed_of_plain (plain : ∀ file ∈ files, ∃ a : Address, file.At a ∧ a.Plain) :
    ∀ file ∈ files, ∃ a : Address, file.At a := by
  intro file hf
  obtain ⟨a, lies, _⟩ := plain file hf
  exact ⟨a, lies⟩

section Plain

variable (increasing : files.Pairwise (·.relPath < ·.relPath))
  (plain : ∀ file ∈ files, ∃ a : Address, file.At a ∧ a.Plain)
include increasing plain

theorem markerOf?_of_unknown (unknown : (build files).modules.get? m = none) :
    (build files).markerOf? m = none := by
  have addressed := addressed_of_plain plain
  cases found : (build files).markerOf? m with
  | none => rfl
  | some path =>
    obtain ⟨b, named, which, listed⟩ := address_of_get? addressed found
    obtain ⟨a, rfl, rfl⟩ := Address.eq_marker_of_name named.symm
    rcases which with rfl | rfl
    · exact absurd listed ((get?_eq_none_iff addressed increasing).mp unknown).2
    · obtain ⟨file, hf, at_path⟩ := listed
      obtain ⟨c, lies, proper⟩ := plain file hf
      cases Address.path_injective (lies.1.symm.trans at_path)
      exact absurd proper a.not_plain_marker_marker

theorem resolveDirect_eq (m : String) :
    (build files).resolveDirect m = (build files).modules.get? m := by
  rw [resolveDirect]
  cases found : (build files).modules.get? m with
  | none => rw [markerOf?_of_unknown increasing plain found]; rfl
  | some path => rfl

theorem target?_of_known {imports : List String}
    (known : (build files).modules.get? m = some path) :
    (build files).target? imports m = some path := by
  have addressed := addressed_of_plain plain
  obtain ⟨a, rfl, _⟩ := address_of_get? addressed known
  have nonempty : (a.name == "") = false := by simp [a.name_ne_empty]
  rw [target?, resolveDirect_eq increasing plain, resolve, nonempty, known]
  split <;> rfl

theorem target?_of_unknown {imports : List String}
    (unknown : (build files).modules.get? m = none) :
    (build files).target? imports m =
      if imports.any ((build files).covers m) || m == "" then none else (build files).nested? m := by
  rw [target?, resolveDirect_eq increasing plain, resolve, unknown,
    markerOf?_of_unknown increasing plain unknown]
  by_cases covered : imports.any ((build files).covers m) <;> simp [covered]

end Plain

end ModuleIndex
end DeadCode
