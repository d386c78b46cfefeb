import DeadCode.Proofs.IndexKeys

/- Which file answers for a module name. Among files in the order of their paths a name belongs to
   the file at its address, or else to the marker of the directory there. So no file hides another:
   each is found again under its own name. -/
namespace DeadCode.ModuleIndex

variable {files : List SourceFile} {index : ModuleIndex} {file : SourceFile} {path : String}
variable {a : Address}

instance (files : List SourceFile) (path : String) : Decidable (Listed files path) :=
  inferInstanceAs (Decidable (∃ file ∈ files, file.relPath = path))

theorem listed_cons {rest : List SourceFile} :
    Listed (file :: rest) path ↔ file.relPath = path ∨ Listed rest path := by
  simp [Listed]

theorem moduleOf?_build (named : ∀ file ∈ files, file.module = ModulePath.ofPath file.relPath) :
    (build files).moduleOf? path =
      if Listed files path then some (ModulePath.ofPath path) else none := by
  have fold : ∀ (known : NameSet) (files : List SourceFile) (index : ModuleIndex),
      (∀ file ∈ files, file.module = ModulePath.ofPath file.relPath) →
      (files.foldl (addFile known) index).moduleOf? path =
        if Listed files path then some (ModulePath.ofPath path) else index.moduleOf? path := by
    intro known files
    induction files with
    | nil => simp [Listed]
    | cons file rest ih =>
      intro index named
      have own : (addFile known index file).moduleOf? path =
          if path = file.relPath then some file.module else index.moduleOf? path :=
        NameMap.get?_insert index.files file.relPath path file.module
      rw [List.foldl_cons, ih _ fun other ho => named other (List.mem_cons_of_mem _ ho), own,
        named file List.mem_cons_self]
      by_cases same : path = file.relPath
      · subst same
        simp [listed_cons]
      · simp [listed_cons, same, Ne.symm same]
  exact fold _ files {} named

theorem resolve_of_known (known : index.modules.get? a.name = some path) :
    index.resolve a.name = some path := by
  have nonempty : (a.name == "") = false := by simp [a.name_ne_empty]
  rw [resolve, nonempty, known]
  rfl

section Addressed

variable (increasing : files.Pairwise (·.relPath < ·.relPath))
  (addressed : ∀ file ∈ files, ∃ a : Address, file.At a)
include increasing addressed

theorem get?_build_name (a : Address) :
    (build files).modules.get? a.name =
      if Listed files a.path then some a.path
      else if Listed files a.marker.path then some a.marker.path
      else none := by
  by_cases own : Listed files a.path
  · rw [if_pos own]
    exact get?_of_file addressed increasing own
  · rw [if_neg own]
    by_cases marker : Listed files a.marker.path
    · rw [if_pos marker]
      exact get?_of_marker addressed own marker
    · rw [if_neg marker]
      exact (get?_eq_none_iff addressed increasing).mpr ⟨own, marker⟩

theorem resolve_own_name (hf : file ∈ files) :
    (build files).moduleOf? file.relPath = some file.module ∧
      (build files).resolve file.module = some file.relPath := by
  obtain ⟨a, lies⟩ := addressed file hf
  have listed : Listed files file.relPath := ⟨file, hf, rfl⟩
  have named : ∀ other ∈ files, other.module = ModulePath.ofPath other.relPath := by
    intro other ho
    obtain ⟨b, otherLies⟩ := addressed other ho
    exact otherLies.2
  constructor
  · rw [moduleOf?_build named, if_pos listed, lies.2]
  · rw [lies.1] at listed
    rw [lies.module_eq, lies.1]
    exact resolve_of_known (get?_of_file addressed increasing listed)

end Addressed

/-- Among files in the order of their paths, the name of an address is known exactly when a file or
    a marker lies there, and the file goes before the marker. A name that is no address is unknown.
    Hence every file is resolved by its own name, and a package that has no file of its name beside
    it by its marker. -/
theorem build_knows_exactly (files : List SourceFile)
    (increasing : files.Pairwise (·.relPath < ·.relPath))
    (addressed : ∀ file ∈ files, ∃ a : Address, file.At a) :
    (∀ a : Address, (build files).modules.get? a.name =
        if Listed files a.path then some a.path
        else if Listed files a.marker.path then some a.marker.path
        else none) ∧
      (∀ m, (∀ a : Address, m ≠ a.name) → (build files).modules.get? m = none) ∧
      (∀ file ∈ files, (build files).moduleOf? file.relPath = some file.module ∧
        (build files).resolve file.module = some file.relPath) ∧
      ∀ a : Address, ¬Listed files a.path → Listed files a.marker.path →
        (build files).resolve a.name = some a.marker.path := by
  refine ⟨get?_build_name increasing addressed, ?_, ?_, ?_⟩
  · intro m nameless
    apply Option.eq_none_iff_forall_ne_some.mpr
    intro path found
    obtain ⟨a, named, _⟩ := address_of_get? addressed found
    exact nameless a named
  · exact fun file hf => resolve_own_name increasing addressed hf
  · intro a absent marker
    exact resolve_of_known (get?_of_marker addressed absent marker)

/- A module file beside a package of the same name, and a package without such a file. -/

def shelfAddresses : List Address :=
  [⟨["lib"], by decide, by decide⟩, ⟨["lib", "__init__"], by decide, by decide⟩,
   ⟨["lib", "shelf"], by decide, by decide⟩, ⟨["pkg", "__init__"], by decide, by decide⟩,
   ⟨["pkg", "lib", "shelf"], by decide, by decide⟩]

def shelfFiles : List SourceFile := shelfAddresses.map fun a => SourceFile.ofPath a.path

theorem shelf_knows_exactly :
    (shelfFiles.Pairwise (·.relPath < ·.relPath) ∧
        ∀ file ∈ shelfFiles, ∃ a : Address, file.At a) ∧
      (build shelfFiles).modules.get? "lib" = some "lib.py" ∧
      (build shelfFiles).modules.get? "pkg.lib" = none ∧
      (build shelfFiles).resolve "lib.__init__" = some "lib/__init__.py" ∧
      (build shelfFiles).resolve "pkg" = some "pkg/__init__.py" := by
  have increasing : shelfFiles.Pairwise (·.relPath < ·.relPath) := by decide
  have addressed : ∀ file ∈ shelfFiles, ∃ a : Address, file.At a := by
    intro file hf
    obtain ⟨a, _, rfl⟩ := List.mem_map.mp hf
    exact ⟨a, rfl, rfl⟩
  obtain ⟨known, _, own, package⟩ := build_knows_exactly shelfFiles increasing addressed
  refine ⟨⟨increasing, addressed⟩, ?_, ?_, ?_, ?_⟩
  · exact known ⟨["lib"], by decide, by decide⟩
  · exact known ⟨["pkg", "lib"], by decide, by decide⟩
  · exact (own (SourceFile.ofPath "lib/__init__.py") (by decide)).2
  · exact package ⟨["pkg"], by decide, by decide⟩ (by decide) (by decide)

end DeadCode.ModuleIndex
