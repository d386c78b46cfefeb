import DeadCode.Proofs.Layout
import DeadCode.Proofs.ModuleNames

/- File reach against the meaning of imports in a tree of packages. Importing `s1.….sk` loads the
   module there and the marker files of the packages on the way, and nothing else: a package
   without a marker never brings in one of the modules that it happens to hold. -/
namespace DeadCode.ProjectGraph

open ModuleIndex

variable {items : Items} {names : String → Set String} {a b : Address}
variable {source target name x : String}

def ProjectModule (items : Items) (a : Address) : Prop :=
  HasPath items a.path ∨ HasPath items a.marker.path

/-- No path of the project begins with the first segment of the name. -/
def ForeignName (items : Items) (name : String) : Prop :=
  ∀ first, (ModulePath.parts name).head? = some first →
    ∀ b : Address, HasPath items b.path → b.parts.head? ≠ some first

/-- Closed under what import statements load, where `names` tells the names that each file imports:
    the module's own file and the markers of the packages above it. -/
structure LoadClosed (items : Items) (names : String → Set String) (kept : Set String) : Prop where
  entry : ∀ path, HasPath items path → '/' ∉ path.toList ∨ Naming.isTestPath path = true → path ∈ kept
  module : ∀ source ∈ kept, HasPath items source → ∀ a : Address, a.name ∈ names source →
    ∀ target, target = a.path ∨ target = a.marker.path → HasPath items target → target ∈ kept
  packages : ∀ source ∈ kept, HasPath items source → ∀ a : Address, a.name ∈ names source →
    ProjectModule items a → ∀ p : Address, p.Above a → HasPath items p.marker.path →
      p.marker.path ∈ kept

/-- The files of a project whose imports are the prefixes of names, each a module of the project or
    foreign, and in which no module file lies beside a directory of the same name. -/
structure PackageProject (items : Items) (names : String → Set String) : Prop
    extends Layout items where
  apart : ∀ a b : Address, HasPath items a.path → HasPath items b.path → ¬a.Above b
  imports : ∀ item ∈ items, ∀ x, x ∈ item.2.imports ↔
    ∃ name ∈ names item.1.relPath, x ∈ ModulePath.prefixes name
  named : ∀ item ∈ items, ∀ name ∈ names item.1.relPath,
    (∃ a : Address, name = a.name ∧ ProjectModule items a) ∨ ForeignName items name

theorem mem_prefixes_name : x ∈ ModulePath.prefixes a.name ↔
    x = a.name ∨ ∃ p : Address, p.Above a ∧ x = p.name := by
  rw [ModulePath.mem_prefixes, ModulePath.parts_name]
  constructor
  · intro h
    obtain ⟨parts, nonempty, ⟨rest, extended⟩, rfl⟩ := h
    by_cases whole : rest = []
    · subst whole
      rw [List.append_nil] at extended
      exact .inl (by rw [extended, Address.name])
    · have proper : ∀ part ∈ parts, IsComponent part := fun part hp =>
        a.proper part (extended ▸ List.mem_append_left _ hp)
      exact .inr ⟨⟨parts, nonempty, proper⟩, ⟨rest, whole, extended.symm⟩, rfl⟩
  · intro h
    rcases h with rfl | ⟨p, ⟨rest, _, extended⟩, rfl⟩
    · exact ⟨a.parts, a.nonempty, List.prefix_refl _, rfl⟩
    · exact ⟨p.parts, p.nonempty, ⟨rest, extended.symm⟩, rfl⟩

theorem foreign_front_unused (layout : Layout items) (foreign : ForeignName items name)
    {front rest : List String} (nonempty : front ≠ []) (whole : front <+: ModulePath.parts name)
    (known : ∃ path, (ownIndex items).modules.get? b.name = some path) : b.parts ≠ front ++ rest := by
  intro extended
  obtain ⟨path, known⟩ := known
  obtain ⟨c, same, which, listed⟩ := address_of_get? layout.files_addressed known
  cases Address.name_injective same
  obtain ⟨first, tail, rfl⟩ := List.exists_cons_of_ne_nil nonempty
  obtain ⟨more, parts⟩ := whole
  have starts : (ModulePath.parts name).head? = some first := by rw [← parts]; rfl
  have head : b.parts.head? = some first := by rw [extended]; rfl
  rcases which with rfl | rfl
  · exact foreign first starts b (listed_files.mp listed) head
  · apply foreign first starts b.marker (listed_files.mp listed)
    change (b.parts ++ ["__init__"]).head? = some first
    rw [extended]
    rfl

theorem foreign_unresolved (layout : Layout items) (foreign : ForeignName items name)
    (mem : x ∈ ModulePath.prefixes name) (imports : List String) :
    (ownIndex items).target? imports x = none := by
  obtain ⟨front, nonempty, whole, rfl⟩ := ModulePath.mem_prefixes.mp mem
  have free : ∀ part ∈ front, '.' ∉ part.toList := fun part hp =>
    ModulePath.dot_not_mem_parts (whole.subset hp)
  have unknown : (ownIndex items).modules.get? (Text.join '.' front) = none := by
    apply Option.eq_none_iff_forall_ne_some.mpr
    intro path known
    obtain ⟨b, same, _⟩ := address_of_get? layout.files_addressed known
    have parts : b.parts = front ++ [] := by
      rw [List.append_nil, Text.join_injective nonempty b.nonempty free b.dot_free same]
    rw [same] at known
    exact foreign_front_unused layout foreign nonempty whole ⟨path, known⟩ parts
  have nothing : (ownIndex items).nested? (Text.join '.' front) = none := by
    apply Option.eq_none_iff_forall_ne_some.mpr
    intro path found
    obtain ⟨key, known, below, _⟩ := nested?_eq_some_iff.mp found
    obtain ⟨b, rfl, _⟩ := address_of_get? layout.files_addressed known
    rw [Text.startsWith, List.isPrefixOf_iff_prefix, String.toList_append] at below
    obtain ⟨rest, _, parts⟩ := (Text.join_extends_iff nonempty b.nonempty free b.dot_free).mp below
    exact foreign_front_unused layout foreign nonempty whole ⟨path, known⟩ parts
  rw [layout.target?_of_unknown unknown, nothing, ite_self]

theorem projectModule_known (layout : Layout items) (project : ProjectModule items a) :
    ∃ path, (ownIndex items).modules.get? a.name = some path := by
  apply Option.ne_none_iff_exists'.mp
  intro unknown
  have absent := (get?_eq_none_iff layout.files_addressed (files_increasing items)).mp unknown
  rw [listed_files, listed_files] at absent
  exact project.elim absent.1 absent.2

theorem package_target (layout : Layout items) (project : ProjectModule items a) {p : Address}
    (above : p.Above a) {imports : List String} (mem : a.name ∈ imports) :
    (ownIndex items).target? imports p.name = (ownIndex items).modules.get? p.name := by
  obtain ⟨path, known⟩ := projectModule_known layout project
  have covered : imports.any ((ownIndex items).covers p.name) = true := by
    refine List.any_eq_true.mpr ⟨a.name, mem, ?_⟩
    rw [covers, Address.name_extends_iff.mpr above, layout.resolveDirect_eq, known]
    rfl
  rw [target?, if_pos covered, layout.resolveDirect_eq]

section

variable (project : PackageProject items names)
include project

theorem known_name_iff :
    (ownIndex items).modules.get? a.name = some target ↔
      (target = a.path ∨ target = a.marker.path) ∧ HasPath items target := by
  have addressed := project.files_addressed
  constructor
  · intro known
    obtain ⟨b, same, which, listed⟩ := address_of_get? addressed known
    cases Address.name_injective same
    exact ⟨which, listed_files.mp listed⟩
  · intro h
    rcases h with ⟨rfl | rfl, has⟩
    · exact get?_of_file addressed (files_increasing items) (listed_files.mpr has)
    · refine get?_of_marker addressed (fun listed => ?_) (listed_files.mpr has)
      exact project.apart a a.marker (listed_files.mp listed) has a.above_marker

/-- A package has no module file beside it, so its name leads to its marker. -/
theorem package_name_iff {p : Address} (module : ProjectModule items a) (above : p.Above a) :
    (ownIndex items).modules.get? p.name = some target ↔
      target = p.marker.path ∧ HasPath items target := by
  have noFile : ¬HasPath items p.path := by
    intro has
    rcases module with file | marker
    · exact project.apart p a has file above
    · obtain ⟨rest, _, extended⟩ := above
      refine project.apart p a.marker has marker ⟨rest ++ ["__init__"], by simp, ?_⟩
      rw [← List.append_assoc, ← extended]
      rfl
  rw [known_name_iff project]
  constructor
  · intro h
    rcases h with ⟨rfl | rfl, has⟩
    · exact absurd has noFile
    · exact ⟨rfl, has⟩
  · intro h
    obtain ⟨rfl, has⟩ := h
    exact ⟨.inr rfl, has⟩

theorem importEdge_iff_loads :
    ImportEdge (ofExtractions items) (ownIndex items) source target ↔
      HasPath items source ∧ HasPath items target ∧
        ∃ a : Address, a.name ∈ names source ∧ ProjectModule items a ∧
          (target = a.path ∨ target = a.marker.path ∨
            ∃ p : Address, p.Above a ∧ target = p.marker.path) := by
  have layout := project.toLayout
  rw [ImportEdge, containsFile_ofExtractions]
  simp only [resolveImports, List.mem_filterMap, NameSet.mem_toList, Option.map_eq_some_iff,
    Prod.mk.injEq]
  constructor
  · intro h
    obtain ⟨has, _, x, imported, _, found, rfl, rfl⟩ := h
    obtain ⟨item, hi, rfl, _⟩ := mem_importsOf_ofExtractions.mp imported
    rw [layout.importsOf_eq hi] at imported found
    obtain ⟨name, hn, front⟩ := (project.imports item hi x).mp imported
    rcases project.named item hi name hn with ⟨a, rfl, module⟩ | foreign
    · refine ⟨⟨item, hi, rfl⟩, has, a, hn, module, ?_⟩
      rcases mem_prefixes_name.mp front with rfl | ⟨p, above, rfl⟩
      · obtain ⟨path, resolved⟩ := projectModule_known layout module
        have which := ((known_name_iff project).mp resolved).1
        rw [layout.target?_of_known resolved] at found
        cases found
        exact which.imp_right .inl
      · have whole : a.name ∈ item.2.imports :=
          (project.imports item hi _).mpr ⟨_, hn, mem_prefixes_name.mpr (.inl rfl)⟩
        rw [package_target layout module above (NameSet.mem_toList.mpr whole)] at found
        exact .inr (.inr ⟨p, above, ((package_name_iff project module above).mp found).1⟩)
    · rw [foreign_unresolved layout foreign front] at found
      cases found
  · intro h
    obtain ⟨⟨item, hi, rfl⟩, has, a, hn, module, loads⟩ := h
    have expanded : ∀ x ∈ ModulePath.prefixes a.name, x ∈ item.2.imports := fun x hx =>
      (project.imports item hi x).mpr ⟨_, hn, hx⟩
    have whole := expanded a.name (mem_prefixes_name.mpr (.inl rfl))
    rw [layout.importsOf_eq hi]
    refine ⟨has, ?_⟩
    have own : target = a.path ∨ target = a.marker.path →
        (ownIndex items).target? item.2.imports.toList a.name = some target := fun which =>
      layout.target?_of_known ((known_name_iff project).mpr ⟨which, has⟩)
    rcases loads with file | marker | ⟨p, above, rfl⟩
    · exact ⟨_, a.name, whole, _, own (.inl file), rfl, rfl⟩
    · exact ⟨_, a.name, whole, _, own (.inr marker), rfl, rfl⟩
    · refine ⟨_, p.name, expanded _ (mem_prefixes_name.mpr (.inr ⟨p, above, rfl⟩)), _, ?_, rfl, rfl⟩
      rw [package_target layout module above (NameSet.mem_toList.mpr whole)]
      exact (package_name_iff project module above).mpr ⟨rfl, has⟩

theorem importClosed_iff_loadClosed {kept : Set String} :
    ImportClosed (ofExtractions items) (ownIndex items) kept ↔ LoadClosed items names kept := by
  constructor
  · intro closed
    constructor
    · intro path has entry
      exact closed.entry path ⟨containsFile_ofExtractions.mpr has, entry⟩
    · intro source hs from_ a hn target which has
      refine closed.edge source hs target
        ((importEdge_iff_loads project).mpr ⟨from_, has, a, hn, ?_, ?_⟩)
      · rcases which with rfl | rfl
        · exact .inl has
        · exact .inr has
      · exact which.imp_right .inl
    · intro source hs from_ a hn module p above has
      exact closed.edge source hs _
        ((importEdge_iff_loads project).mpr ⟨from_, has, a, hn, module, .inr (.inr ⟨p, above, rfl⟩)⟩)
  · intro closed
    constructor
    · intro path h
      obtain ⟨present, entry⟩ := h
      exact closed.entry path (containsFile_ofExtractions.mp present) entry
    · intro source hs target edge
      obtain ⟨from_, has, a, hn, module, loads⟩ := (importEdge_iff_loads project).mp edge
      rcases loads with file | marker | ⟨p, above, rfl⟩
      · exact closed.module source hs from_ a hn target (.inl file) has
      · exact closed.module source hs from_ a hn target (.inr marker) has
      · exact closed.packages source hs from_ a hn module p above has

end

/-- File reach is the least set of files that holds the entry files and whatever the names imported
    by its own files load. -/
theorem reachableFiles_load_exactly (items : Items) (names : String → Set String)
    (project : PackageProject items names) :
    IsLeast {kept | LoadClosed items names kept}
      {path | path ∈ (ofExtractions items).ownReach.files} := by
  have least := @reachableFiles_isLeast items (ownIndex items)
  simp only [importClosed_iff_loadClosed project] at least
  exact least

/- A package with a marker, and inside it one without: the module that is imported is reached
   through both, the module beside it is not reached. -/

def sampleAddresses : List Address :=
  [⟨["main"], by decide, by decide⟩, ⟨["app", "__init__"], by decide, by decide⟩,
   ⟨["app", "lib", "alpha"], by decide, by decide⟩, ⟨["app", "lib", "zeta"], by decide, by decide⟩]

def sampleNames (path : String) : List String :=
  if path = "main.py" then ["app.lib.zeta", "os.path"] else []

def sampleItems : Items :=
  sampleAddresses.map fun a => (SourceFile.ofPath a.path,
    { imports := NameSet.ofList ((sampleNames a.path).flatMap ModulePath.prefixes)
      symbols := NameMap.empty.insert (a.name ++ ".step") { name := "step", file := a.path } })

theorem sample_hasPath : HasPath sampleItems a.path ↔ a ∈ sampleAddresses := by
  constructor
  · intro h
    obtain ⟨item, hi, at_path⟩ := h
    obtain ⟨b, hb, rfl⟩ := List.mem_map.mp hi
    exact Address.path_injective at_path ▸ hb
  · intro ha
    exact ⟨_, List.mem_map.mpr ⟨a, ha, rfl⟩, rfl⟩

theorem sample_names (mem : name ∈ sampleNames source) : name = "app.lib.zeta" ∨ name = "os.path" := by
  unfold sampleNames at mem
  split at mem
  · simpa using mem
  · cases mem

theorem sample_project :
    PackageProject sampleItems fun path => {name | name ∈ sampleNames path} where
  distinct := by decide
  plain := by
    intro item hi
    obtain ⟨a, ha, rfl⟩ := List.mem_map.mp hi
    have all : ∀ a ∈ sampleAddresses, a.Plain := by decide
    exact ⟨a, ⟨rfl, rfl⟩, all a ha⟩
  apart := by
    intro a b ha hb
    have all : ∀ a ∈ sampleAddresses, ∀ b ∈ sampleAddresses, ¬a.Above b := by decide
    exact all a (sample_hasPath.mp ha) b (sample_hasPath.mp hb)
  imports := by
    intro item hi x
    obtain ⟨a, _, rfl⟩ := List.mem_map.mp hi
    simp [SourceFile.ofPath]
  named := by
    intro item hi name hn
    rcases sample_names hn with rfl | rfl
    · exact .inl ⟨⟨["app", "lib", "zeta"], by decide, by decide⟩, by decide,
        .inl (sample_hasPath.mpr (by simp [sampleAddresses]))⟩
    · apply Or.inr
      intro first starts b hb
      have os : first = "os" := by
        have head : (ModulePath.parts "os.path").head? = some "os" := by decide
        exact (Option.some.inj (head.symm.trans starts)).symm
      have all : ∀ b ∈ sampleAddresses, b.parts.head? ≠ some "os" := by decide
      exact os ▸ all b (sample_hasPath.mp hb)

/-- Leaving out the module beside the imported one breaks no rule. -/
theorem sample_beside_closed :
    LoadClosed sampleItems (fun path => {name | name ∈ sampleNames path})
      {path | path ≠ "app/lib/alpha.py"} := by
  let alpha : Address := ⟨["app", "lib", "alpha"], by decide, by decide⟩
  have no_marker : ∀ p : Address, p.marker.path ≠ alpha.path := by
    intro p same
    have parts : p.parts ++ ["__init__"] = ["app", "lib", "alpha"] :=
      congrArg Address.parts (Address.path_injective same)
    have last := congrArg List.getLast? parts
    simp at last
  constructor
  · intro path _ entry h
    subst h
    revert entry
    decide
  · intro source _ _ a hn target h _ same
    rcases h with rfl | rfl
    · have here : a = alpha := Address.path_injective same
      subst here
      rcases sample_names hn with other | other
      · exact absurd other (by decide)
      · exact absurd other (by decide)
    · exact no_marker a same
  · intro source _ _ a _ _ p _ _ same
    exact no_marker p same

theorem sample_reach_loads_exactly :
    PackageProject sampleItems (fun path => {name | name ∈ sampleNames path}) ∧
      "app/__init__.py" ∈ (ofExtractions sampleItems).ownReach.files ∧
      "app/lib/zeta.py" ∈ (ofExtractions sampleItems).ownReach.files ∧
      "app/lib/alpha.py" ∉ (ofExtractions sampleItems).ownReach.files := by
  obtain ⟨closed, minimal⟩ := reachableFiles_load_exactly sampleItems _ sample_project
  let main : Address := ⟨["main"], by decide, by decide⟩
  let zeta : Address := ⟨["app", "lib", "zeta"], by decide, by decide⟩
  let app : Address := ⟨["app"], by decide, by decide⟩
  have has_main : HasPath sampleItems main.path :=
    sample_hasPath.mpr (by simp [sampleAddresses, main])
  have has_zeta : HasPath sampleItems zeta.path :=
    sample_hasPath.mpr (by simp [sampleAddresses, zeta])
  have has_marker : HasPath sampleItems app.marker.path :=
    sample_hasPath.mpr (by simp [sampleAddresses, app, Address.marker])
  have start := closed.entry main.path has_main (.inl (by decide))
  refine ⟨sample_project, ?_, ?_, fun reached => minimal sample_beside_closed reached rfl⟩
  · exact closed.packages main.path start has_main zeta (by decide) (.inl has_zeta) app (by decide)
      has_marker
  · exact closed.module main.path start has_main zeta (by decide) zeta.path (.inl rfl) has_zeta

end DeadCode.ProjectGraph
