import DeadCode.SourceText
import DeadCode.Proofs.ImportBindings
import DeadCode.Proofs.IndexKeys

/- The names that import statements bring in, against their meaning. A statement is read as what it
   says, apart from its layout: the dots, the path after them and the names that it lists. What that
   means depends only on the directories of the file. -/
namespace DeadCode

def FrontClosed (names : NameSet) : Prop :=
  ∀ front back, front ++ "." ++ back ∈ names → front ≠ "" ∧ front ∈ names

namespace Tree

/-- What an import statement says: that modules are imported, or that names are taken from the
    module that a path means after some dots. A wildcard lists no name. -/
inductive ImportForm where
  | modules (names : List (List String))
  | members (dots : Nat) (path : List String) (names : List (List String))
  deriving DecidableEq, Repr

namespace ImportForm

def base (directories : List String) : ImportForm → List String
  | .modules _ => []
  | .members dots path _ => ModulePath.baseWords directories dots path

/-- The words of the names that a statement brings in for a file in the directories. Taking names
    from a module brings in the module too, where there is one; language features bring in
    nothing. -/
def names (directories : List String) : ImportForm → List (List String)
  | .modules names => names
  | .members dots path names =>
    if dots = 0 ∧ path = ["__future__"] then []
    else
      let base := ModulePath.baseWords directories dots path
      (if base = [] then [] else [base]) ++ names.map (base ++ ·)

/-- The same statement without dots, where these stay inside the root. At the root itself there is
    no module to take names from, so they are imported as modules. -/
def absolute (directories : List String) : ImportForm → ImportForm
  | .modules names => .modules names
  | .members dots path names =>
    if 1 ≤ dots ∧ dots ≤ directories.length + 1 then
      let base := ModulePath.baseWords directories dots path
      if base = [] then .modules names else .members 0 base names
    else .members dots path names

/-- The second statement is the first one or its absolute spelling, and that spelling is not taken
    for an import of language features. -/
def Respelled (directories : List String) (form other : ImportForm) : Prop :=
  other = form ∨ other = form.absolute directories ∧ form.base directories ≠ ["__future__"]

instance (directories : List String) (form other : ImportForm) :
    Decidable (form.Respelled directories other) :=
  inferInstanceAs (Decidable (other = form ∨ _ ∧ _))

variable {directories path : List String} {dots : Nat} {form : ImportForm}

/-- The absolute spelling brings in the same names, unless it turns into an import of language
    features. -/
theorem names_absolute (proper : form.base directories ≠ ["__future__"]) :
    (form.absolute directories).names directories = form.names directories := by
  cases form with
  | modules names => rfl
  | members dots path names =>
    rw [base] at proper
    by_cases inside : 1 ≤ dots ∧ dots ≤ directories.length + 1
    · have relative : ¬(dots = 0 ∧ path = ["__future__"]) := fun features => by omega
      have bare : ∀ rest, ModulePath.baseWords directories 0 rest = rest := fun rest => rfl
      simp only [absolute, if_pos inside, ImportForm.names, if_neg relative]
      by_cases root : ModulePath.baseWords directories dots path = []
      · simp [root]
      · simp [root, proper, bare]
    · simp only [absolute, if_neg inside]

theorem names_respelled {forms others : List ImportForm}
    (respelled : List.Forall₂ (Respelled directories) forms others) :
    others.flatMap (·.names directories) = forms.flatMap (·.names directories) := by
  induction respelled with
  | nil => rfl
  | cons first _ ih =>
    rw [List.flatMap_cons, List.flatMap_cons, ih]
    rcases first with rfl | ⟨rfl, proper⟩
    · rfl
    · rw [names_absolute proper]

theorem isWord_members {names : List (List String)} (above : ∀ word ∈ directories, IsWord word)
    (plain : ∀ word ∈ path, IsWord word) (listed : ∀ words ∈ names, ∀ word ∈ words, IsWord word) :
    ∀ words ∈ (members dots path names).names directories, ∀ word ∈ words, IsWord word := by
  have base := @ModulePath.isWord_baseWords directories path dots above plain
  intro words hw word mem
  simp only [ImportForm.names] at hw
  split at hw
  · cases hw
  · rcases List.mem_append.mp hw with whole | member
    · split at whole
      · cases whole
      · rw [List.mem_singleton.mp whole] at mem
        exact base word mem
    · obtain ⟨words, hl, rfl⟩ := List.mem_map.mp member
      rcases List.mem_append.mp mem with high | low
      · exact base word high
      · exact listed words hl word low

end ImportForm

namespace Node

def dots (source : Node) : Nat :=
  if source.kind == .relativeImport then
    ((source.children.filter fun child => child.kind == .importDots).getLast?.map
      fun child => child.text.toList.count '.').getD 0
  else 0

def pathWords (source : Node) : List String :=
  if source.kind == .relativeImport then
    ((source.children.filter fun child => child.kind == .dottedName).getLast?.map words).getD []
  else source.words

def listed (statement : Node) : List (List String) :=
  (statement.childrenIn .name).map fun item => item.importedPath.words

def importForm? (node : Node) : Option ImportForm :=
  match node.kind with
  | .importStatement => some (.modules node.listed)
  | .futureImport => some (.members 0 ["__future__"] node.listed)
  | .fromImport =>
    (node.child? .moduleName).map fun source => .members source.dots source.pathWords node.listed
  | _ => none

def importForms (tree : Node) : List ImportForm :=
  tree.occurrences.filterMap (·.node.importForm?)

def importedNames (directories : List String) (tree : Node) : List (List String) :=
  tree.importForms.flatMap (·.names directories)

variable {file : SourceFile} {a : Address} {node tree : Node} {above : List Node} {name x : String}

theorem importSource_eq (kinds : node.kind = .dottedName ∨ node.kind = .relativeImport) :
    node.importSource = (node.dots, Text.join '.' node.pathWords) := by
  rcases kinds with kind | kind
  · simp [importSource, dots, pathWords, kind, dotted_eq kind]
  · simp only [importSource, dots, pathWords, kind, beq_self_eq_true, if_true]
    cases last : (node.children.filter fun child => child.kind == .dottedName).getLast? with
    | none => rfl
    | some path =>
      have dotted := (List.mem_filter.mp (List.mem_of_getLast? last)).2
      simp [dotted_eq (beq_iff_eq.mp dotted)]

theorem qualify_join (base : List String) {words : List String} (nonempty : words ≠ []) :
    qualify (ModulePath.ofWords? base) (Text.join '.' words) = Text.join '.' (base ++ words) := by
  unfold ModulePath.ofWords?
  split
  · next root =>
    rw [root]
    rfl
  · next below => exact (Text.join_append below nonempty).symm

theorem isWord_directories (a : Address) : ∀ word ∈ a.parts.dropLast, IsWord word := fun word hw =>
  (a.proper word (List.dropLast_subset _ hw)).isWord

section Statements

variable (form : tree.WellFormed) (mem : ⟨node, above⟩ ∈ tree.occurrences)
include form mem

theorem isWord_listed (kinds : node.kind = .importStatement ∨ node.kind = .fromImport) :
    ∀ words ∈ node.listed, words ≠ [] ∧ ∀ word ∈ words, IsWord word := by
  intro words hw
  obtain ⟨item, hi, rfl⟩ := List.mem_map.mp hw
  obtain ⟨there, isItem⟩ := item_of_mem form mem kinds hi
  obtain ⟨⟨rest, path⟩, kind, _⟩ := path_of_item form there isItem
  exact words_of_dottedName form path kind

theorem isWord_pathWords (kinds : node.kind = .dottedName ∨ node.kind = .relativeImport) :
    ∀ word ∈ node.pathWords, IsWord word := by
  rcases kinds with kind | kind
  · have path : node.pathWords = node.words := by simp [pathWords, kind]
    rw [path]
    exact (words_of_dottedName form mem kind).2
  · cases last : (node.children.filter fun child => child.kind == .dottedName).getLast? with
    | none => simp [pathWords, kind, last]
    | some path =>
      obtain ⟨hc, dotted⟩ := List.mem_filter.mp (List.mem_of_getLast? last)
      have same : node.pathWords = path.words := by simp [pathWords, kind, last]
      rw [same]
      exact (words_of_dottedName form (child_mem_below tree mem hc) (beq_iff_eq.mp dotted)).2

theorem imports_mem_items {bound full source : String → String}
    (kinds : node.kind = .importStatement ∨ node.kind = .fromImport) :
    .imports name ∈ (node.childrenIn .name).flatMap (itemFacts bound full source) ↔
      ∃ words ∈ node.listed, name = full (Text.join '.' words) := by
  have told : ∀ item ∈ node.childrenIn .name,
      (.imports name ∈ itemFacts bound full source item ↔
        name = full (Text.join '.' item.importedPath.words)) := by
    intro item hi
    obtain ⟨there, isItem⟩ := item_of_mem form mem kinds hi
    have silent : ∀ bound line source, Fact.imports name ∉ bindingFacts bound line source := by
      intro bound line source
      unfold bindingFacts
      split <;> simp
    rw [itemFacts_item form there isItem]
    simp [silent]
  rw [List.mem_flatMap]
  constructor
  · intro h
    obtain ⟨item, hi, fact⟩ := h
    exact ⟨_, List.mem_map_of_mem hi, (told item hi).mp fact⟩
  · intro h
    obtain ⟨words, hw, eq⟩ := h
    obtain ⟨item, hi, rfl⟩ := List.mem_map.mp hw
    exact ⟨item, hi, (told item hi).mpr eq⟩

theorem imports_mem_importFacts (kind : node.kind = .importStatement) :
    .imports name ∈ node.importFacts ↔
      ∃ form ∈ node.importForm?, ∃ words ∈ form.names a.parts.dropLast,
        name = Text.join '.' words := by
  rw [importFacts_eq, imports_mem_items form mem (.inl kind)]
  simp [importForm?, kind, ImportForm.names]

theorem imports_mem_fromImportFacts (lies : file.At a) (kind : node.kind = .fromImport) :
    .imports name ∈ node.fromImportFacts file ↔
      ∃ form ∈ node.importForm?, ∃ words ∈ form.names a.parts.dropLast,
        name = Text.join '.' words := by
  obtain ⟨source, found, there, kinds⟩ := exists_source form mem kind
  have plain := isWord_pathWords form there kinds
  have features : (source.dots == 0 && Text.join '.' source.pathWords == featureModule) = true ↔
      source.dots = 0 ∧ source.pathWords = ["__future__"] := by
    rw [Bool.and_eq_true_iff, beq_iff_eq, beq_iff_eq]
    exact and_congr_right fun _ => ModulePath.join_eq_word_iff plain ⟨by decide, by decide⟩
  have package : file.package = Text.join '.' a.parts.dropLast := by
    rw [SourceFile.package, lies.module_eq, ModulePath.package_name]
  rw [fromImportFacts_eq found, importSource_eq kinds]
  simp only [importForm?, kind, found, Option.map_some, Option.mem_some_iff, exists_eq_left',
    ImportForm.names, features, package, ModulePath.absolutize_join (isWord_directories a) plain]
  split
  · simp
  · generalize ModulePath.baseWords a.parts.dropLast source.dots source.pathWords = base
    have whole : .imports name ∈ (ModulePath.ofWords? base).toList.map Fact.imports ↔
        ∃ words ∈ if base = [] then [] else [base], name = Text.join '.' words := by
      unfold ModulePath.ofWords?
      split <;> simp [eq_comm]
    have members : (∃ words ∈ node.listed,
          name = qualify (ModulePath.ofWords? base) (Text.join '.' words)) ↔
        ∃ words ∈ node.listed.map (base ++ ·), name = Text.join '.' words := by
      simp only [List.mem_map, exists_exists_and_eq_and]
      refine exists_congr fun words => and_congr_right fun hw => ?_
      rw [qualify_join base (isWord_listed form mem (.inr kind) words hw).1]
    rw [List.mem_append, imports_mem_items form mem (.inr kind), whole, members]
    simp only [List.mem_append, or_and_right, exists_or]

end Statements

section Whole

variable (form : tree.WellFormed) {o : Occurrence} (mem : o ∈ tree.occurrences)
include form mem

theorem imports_mem_facts (lies : file.At a) :
    .imports name ∈ o.facts file ↔
      ∃ form ∈ o.node.importForm?, ∃ words ∈ form.names a.parts.dropLast,
        name = Text.join '.' words := by
  by_cases statement : o.node.kind = .importStatement ∨ o.node.kind = .fromImport
  · obtain ⟨scope, told⟩ := @facts_statement file tree form o mem statement
    rw [told]
    rcases statement with kind | kind
    · simp only [ownFacts, kind]
      exact imports_mem_importFacts form mem kind
    · simp only [ownFacts, kind]
      exact imports_mem_fromImportFacts form mem lies kind
  · obtain ⟨module, names⟩ := not_or.mp statement
    have silent : .imports name ∉ o.facts file := by
      rw [Occurrence.mem_facts_iff]
      intro h
      obtain ⟨scope, _, told⟩ := h
      cases isImporting_ownFacts_other module names told
    -- The only other statement is the import of language features.
    have nameless : ∀ form ∈ o.node.importForm?, form.names a.parts.dropLast = [] := by
      intro form hf
      unfold importForm? at hf
      split at hf
      · contradiction
      · cases hf
        simp [ImportForm.names]
      · contradiction
      · cases hf
    constructor
    · intro told
      exact absurd told silent
    · intro h
      obtain ⟨form, hf, words, hw, _⟩ := h
      simp [nameless form hf] at hw

theorem isWord_names {statement : ImportForm} (hs : statement ∈ o.node.importForm?) :
    ∀ words ∈ statement.names a.parts.dropLast, ∀ word ∈ words, IsWord word := by
  unfold importForm? at hs
  split at hs
  · next kind =>
    cases hs
    intro words hw
    exact (isWord_listed form mem (.inl kind) words hw).2
  · cases hs
    simp [ImportForm.names]
  · next kind =>
    obtain ⟨source, found, there, kinds⟩ := exists_source form mem kind
    rw [found] at hs
    cases hs
    exact ImportForm.isWord_members (isWord_directories a) (isWord_pathWords form there kinds)
      fun words hw => (isWord_listed form mem (.inr kind) words hw).2
  · cases hs

end Whole

theorem mem_imports_iff (form : tree.WellFormed) (lies : file.At a) :
    x ∈ (tree.extraction file).imports ↔
      ∃ words ∈ tree.importedNames a.parts.dropLast,
        ∃ front, front ≠ [] ∧ front <+: words ∧ x = Text.join '.' front := by
  rw [extraction, Extraction.mem_imports_ofFacts, facts_eq_flatMap]
  simp only [ModulePath.mem_prefixes, importedNames, importForms, List.mem_flatMap,
    List.mem_filterMap]
  constructor
  · intro h
    obtain ⟨name, ⟨o, mem, told⟩, front⟩ := h
    obtain ⟨statement, hs, words, hw, rfl⟩ := (imports_mem_facts form mem lies).mp told
    rw [ModulePath.parts_join (isWord_names form mem hs words hw)] at front
    exact ⟨words, ⟨statement, ⟨o, mem, hs⟩, hw⟩, front⟩
  · intro h
    obtain ⟨words, ⟨statement, ⟨o, mem, hs⟩, hw⟩, front⟩ := h
    rw [← ModulePath.parts_join (isWord_names form mem hs words hw)] at front
    have told := (imports_mem_facts form mem lies).mpr ⟨statement, hs, words, hw, rfl⟩
    exact ⟨_, ⟨o, mem, told⟩, front⟩

theorem frontClosed_extraction (file : SourceFile) (tree : Node) :
    FrontClosed (tree.extraction file).imports := by
  intro front back mem
  rw [extraction, Extraction.mem_imports_ofFacts] at mem ⊢
  obtain ⟨name, told, longer⟩ := mem
  have shorter := ModulePath.front_mem_prefixes longer
  refine ⟨?_, name, told, shorter⟩
  intro empty
  exact ModulePath.empty_not_mem_prefixes (empty ▸ shorter)

end Node

/-- The extraction of a tree without damage imports the names that its import statements bring in
    for the directories of the file, each with all its prefixes. No name has an empty segment, and a
    statement may be replaced by its absolute spelling unless that is an import of language
    features. -/
theorem extractTree_reads_imports (file : SourceFile) (a : Address) (tree : Node)
    (lies : file.At a) (whole : tree.hasError = false) (form : tree.WellFormed) :
    ∃ e, file.extractTree tree = .ok e ∧
      (∀ x, x ∈ e.imports ↔
        ∃ words ∈ tree.importedNames a.parts.dropLast,
          ∃ front, front ≠ [] ∧ front <+: words ∧ x = Text.join '.' front) ∧
      FrontClosed e.imports ∧
      (∀ x ∈ e.imports, "" ∉ Text.segments '.' x) ∧
      ∀ other : Node, other.hasError = false → other.WellFormed →
        List.Forall₂ (ImportForm.Respelled a.parts.dropLast) tree.importForms other.importForms →
        ∃ e', file.extractTree other = .ok e' ∧ e'.imports = e.imports := by
  refine ⟨tree.extraction file, by simp [SourceFile.extractTree, whole], fun x => ?_, ?_, ?_, ?_⟩
  · exact Node.mem_imports_iff form lies
  · exact Node.frontClosed_extraction file tree
  · intro x mem
    rw [Node.extraction, Extraction.mem_imports_ofFacts] at mem
    obtain ⟨_, _, front⟩ := mem
    exact ModulePath.blank_not_mem_segments front
  · intro other sound otherForm respelled
    refine ⟨other.extraction file, by simp [SourceFile.extractTree, sound], ?_⟩
    apply NameSet.eq_of_members
    intro x
    rw [Node.mem_imports_iff otherForm lies, Node.mem_imports_iff form lies, Node.importedNames,
      ImportForm.names_respelled respelled, Node.importedNames]

/- The marker of a package two levels down: dots that stay in the package, that climb, that lead to
   the root and that leave it. -/

def markerSource : String :=
  "import os.path as p\ndef f(): from ..b import c, d as e\nfrom . import *\n" ++
    "from ... import top\nfrom .... import far\n"

def markerRespelled : String :=
  "import os.path as p\ndef f(): from pkg.b import c, d as e\nfrom pkg.sub import *\n" ++
    "import top\nfrom .... import far\n"

theorem marker_reads_imports :
    let file := SourceFile.ofPath "pkg/sub/__init__.py"
    let a : Address := ⟨["pkg", "sub", "__init__"], by decide, by decide⟩
    let tree := Grammar.parse markerSource
    let other := Grammar.parse markerRespelled
    (file.At a ∧ (tree.hasError = false ∧ tree.WellFormed) ∧
        (other.hasError = false ∧ other.WellFormed) ∧
        List.Forall₂ (ImportForm.Respelled ["pkg", "sub"]) tree.importForms other.importForms) ∧
      ∃ e e', file.extractTree tree = .ok e ∧ file.extractTree other = .ok e' ∧
        e'.imports = e.imports ∧
        (∀ x ∈ ["os", "os.path", "pkg", "pkg.b", "pkg.b.c", "pkg.b.d", "pkg.sub", "top", "far"],
          x ∈ e.imports) ∧
        ∀ x ∈ ["", "b", "pkg.b.e", "pkg.top", "pkg.far"], x ∉ e.imports := by
  intro file a tree other
  have read : (tree.hasError = false ∧ tree.WellFormed) ∧
      tree.importForms =
        [.modules [["os", "path"]], .members 2 ["b"] [["c"], ["d"]], .members 1 [] [],
         .members 3 [] [["top"]], .members 4 [] [["far"]]] := by decide +kernel
  have otherRead : (other.hasError = false ∧ other.WellFormed) ∧
      other.importForms =
        [.modules [["os", "path"]], .members 0 ["pkg", "b"] [["c"], ["d"]],
         .members 0 ["pkg", "sub"] [], .modules [["top"]], .members 4 [] [["far"]]] := by
    decide +kernel
  have lies : file.At a := ⟨by decide, rfl⟩
  have spelled :
      List.Forall₂ (ImportForm.Respelled ["pkg", "sub"]) tree.importForms other.importForms := by
    rw [read.2, otherRead.2]
    decide
  obtain ⟨e, ok, imports, _, _, respell⟩ :=
    extractTree_reads_imports file a tree lies read.1.1 read.1.2
  obtain ⟨e', ok', same⟩ := respell other otherRead.1.1 otherRead.1.2 spelled
  have told : ∀ x, x ∈ e.imports ↔
      ∃ words ∈ tree.importForms.flatMap (·.names ["pkg", "sub"]),
        ∃ front ∈ Text.fronts words, x = Text.join '.' front := by
    intro x
    simp only [Text.mem_fronts, and_assoc]
    exact imports x
  rw [read.2] at told
  refine ⟨⟨lies, read.1, otherRead.1, spelled⟩, e, e', ok, ok', same, ?_⟩
  simp only [told]
  decide

/-- At the root, names taken from a module beside the file that is called like that of the language
    features are recorded, and without the dot they are not. -/
theorem features_spelled_relatively :
    let file := SourceFile.ofPath "a.py"
    let relative := Grammar.parse "from .__future__ import division\n"
    let absolute := Grammar.parse "from __future__ import division\n"
    file.At ⟨["a"], by decide, by decide⟩ ∧
      (relative.hasError = false ∧ relative.WellFormed) ∧
      (absolute.hasError = false ∧ absolute.WellFormed) ∧
      relative.importForms = [.members 1 ["__future__"] [["division"]]] ∧
      absolute.importForms = relative.importForms.map (ImportForm.absolute []) ∧
      ∃ e e', file.extractTree relative = .ok e ∧ file.extractTree absolute = .ok e' ∧
        e.imports.toList = ["__future__", "__future__.division"] ∧ e'.imports.toList = [] := by
  intro file relative absolute
  have read : ((relative.hasError = false ∧ relative.WellFormed) ∧
      (absolute.hasError = false ∧ absolute.WellFormed)) ∧
      (relative.importForms = [.members 1 ["__future__"] [["division"]]] ∧
        absolute.importForms = relative.importForms.map (ImportForm.absolute [])) ∧
      (relative.extraction file).imports.toList = ["__future__", "__future__.division"] ∧
      (absolute.extraction file).imports.toList = [] := by decide +kernel
  obtain ⟨⟨relativeForm, absoluteForm⟩, forms, told⟩ := read
  refine ⟨⟨by decide, rfl⟩, relativeForm, absoluteForm, forms.1, forms.2, _, _, ?_, ?_, told⟩
  · simp [SourceFile.extractTree, relativeForm.1]
  · simp [SourceFile.extractTree, absoluteForm.1]

end Tree
end DeadCode
