import DeadCode.Proofs.ModuleNames
import DeadCode.Proofs.NodeFacts

/- The names that import statements bind and the names that a source uses, against their meaning. A
   use is an identifier that stands in no import statement and is neither the name of an attribute
   nor that of a definition. -/
namespace DeadCode.Tree

namespace Node

def words (path : Node) : List String :=
  (path.children.filter fun child => child.kind == .identifier).map (·.text)

def importedPath (item : Node) : Node :=
  if item.kind == .aliasedImport then (item.child? .name).getD item else item

def alias? (item : Node) : Option String :=
  if item.kind == .aliasedImport then (item.child? .otherName).map (·.text) else none

/-- The import of language features, which brings in no name. -/
def namesFeatures (source : Node) : Bool :=
  source.kind == .dottedName && source.words == ["__future__"]

def boundBy (own shown : List String → String) (item : Node) : Binding where
  name := item.alias?.getD (own item.importedPath.words)
  line := item.importedPath.line
  source := shown item.importedPath.words

/-- The names that an import statement binds. A module without an alias is known by its first word;
    a name taken from a module is known as it is. -/
def boundNames (statement : Node) : List Binding :=
  match statement.kind with
  | .importStatement =>
    (statement.childrenIn .name).map (boundBy (·.headD "") (Text.join '.'))
  | .fromImport =>
    match statement.child? .moduleName with
    | some source =>
      if source.namesFeatures then []
      else (statement.childrenIn .name).map (boundBy (Text.join '.') fun _ => source.text)
    | none => []
  | _ => []

def importBindings (tree : Node) : List Binding := tree.occurrences.flatMap (·.node.boundNames)

end Node

namespace Occurrence

/-- The name of an attribute or of a definition, which is no use of that name. -/
def isLabel (o : Occurrence) : Bool :=
  o.above.head?.any fun parent =>
    (parent.kind == .attribute && o.node.role == .attribute) ||
      (parent.isDefinition && o.node.role == .name)

def isInImport (o : Occurrence) : Bool := o.above.any (·.kind.isImport)

end Occurrence

def Node.Uses (tree : Node) (name : String) : Prop :=
  ∃ o ∈ tree.occurrences, o.node.kind = .identifier ∧ o.node.text = name ∧
    o.isInImport = false ∧ o.isLabel = false

instance (tree : Node) (name : String) : Decidable (tree.Uses name) :=
  inferInstanceAs (Decidable (∃ o ∈ tree.occurrences, _))

namespace Node

variable {file : SourceFile} {node tree : Node} {above : List Node} {x : String}

/- Uses. -/

theorem isInImport_cons {parent : Node} :
    Occurrence.isInImport ⟨node, parent :: above⟩ = true ↔
      parent.kind.isImport = true ∨ Occurrence.isInImport ⟨parent, above⟩ = true := by
  simp [Occurrence.isInImport]

theorem isLabel_cons {parent : Node} :
    Occurrence.isLabel ⟨node, parent :: above⟩ = true ↔
      parent.kind = .attribute ∧ node.role = .attribute ∨
        parent.isDefinition = true ∧ node.role = .name := by
  simp [Occurrence.isLabel]

section Walk

variable (form : tree.WellFormed)
include form

theorem skip_of_isInImport (mem : ⟨node, above⟩ ∈ tree.occurrences)
    (inside : Occurrence.isInImport ⟨node, above⟩ = true) : node.visitAt file above = .skip := by
  induction mem using occurrence_induction with
  | root => cases inside
  | down parent above child there _ hc ih =>
    rw [isInImport_cons] at inside
    rw [visitAt]
    cases visit : parent.visitAt file above with
    | skip => rfl
    | inside scope =>
      have frame := (kind_of_visit form there).2 scope visit
      rcases inside with statement | higher
      · cases kind : parent.kind <;> simp_all [Kind.isFrame, Kind.isImport]
      · simp [ih higher] at visit
    | whole scope =>
      rcases inside with statement | higher
      · cases kind : parent.kind <;> simp_all [visitChild, Kind.isImport]
      · simp [ih higher] at visit

theorem skip_of_isLabel (mem : ⟨node, above⟩ ∈ tree.occurrences)
    (label : Occurrence.isLabel ⟨node, above⟩ = true) : node.visitAt file above = .skip := by
  induction mem using occurrence_induction with
  | root => cases label
  | down parent above child there _ hc _ =>
    rw [isLabel_cons] at label
    rw [visitAt]
    cases visit : parent.visitAt file above with
    | skip => rfl
    | inside scope =>
      have frame := (kind_of_visit form there).2 scope visit
      rcases label with ⟨kind, _⟩ | ⟨defines, _⟩
      · simp [kind, Kind.isFrame] at frame
      · rcases kind_of_definition defines with kind | kind <;> simp [kind, Kind.isFrame] at frame
    | whole scope =>
      have meets : Meets file scope parent child _ := meets_visitChild (form.wellMade _ there) hc
      simp only
      generalize parent.visitChild file scope child = step at meets
      cases meets with
      | hidden => rfl
      | decorator kind => simp [kind, isDefinition, Kind.isDefinition] at label
      | decorated kind => simp [kind, isDefinition, Kind.isDefinition] at label
      | body defines role => rcases label with ⟨_, other⟩ | ⟨_, other⟩ <;> simp [role] at other
      | part _ _ object signature =>
        rcases label with ⟨kind, role⟩ | ⟨defines, role⟩
        · simp [object kind] at role
        · simpa [role, signatureRoles] using signature defines

/-- What the walk leaves out stands in an import statement, is a comment or is a label. -/
theorem place_of_skip (mem : ⟨node, above⟩ ∈ tree.occurrences)
    (skipped : node.visitAt file above = .skip) :
    Occurrence.isInImport ⟨node, above⟩ = true ∨ node.kind = .comment ∨
      node.kind = .identifier ∧ Occurrence.isLabel ⟨node, above⟩ = true := by
  induction mem using occurrence_induction with
  | root => cases skipped
  | down parent above child there _ hc ih =>
    have made := form.wellMade _ there
    rw [isInImport_cons, isLabel_cons]
    rw [visitAt] at skipped
    cases visit : parent.visitAt file above with
    | skip =>
      -- Nothing stands below a comment or an identifier.
      have fit := fits_of_wellMade made hc
      rcases ih visit with higher | kind | ⟨kind, _⟩
      · exact .inl (.inr higher)
      · simp [fits, kind] at fit
      · simp [fits, kind] at fit
    | inside scope => simp [visit] at skipped
    | whole scope =>
      have meets : Meets file scope parent child _ := meets_visitChild made hc
      simp only [visit] at skipped
      rw [skipped] at meets
      cases meets with
      | hidden _ place =>
        rcases place with statement | comment | label
        · exact .inl (.inl statement)
        · exact .inr (.inl comment)
        · exact .inr (.inr label)

/-- The walk comes to an identifier exactly where it is a use of a name. -/
theorem exists_visit_identifier_iff (mem : ⟨node, above⟩ ∈ tree.occurrences)
    (identifier : node.kind = .identifier) :
    (∃ scope, node.visitAt file above = .whole scope) ↔
      Occurrence.isInImport ⟨node, above⟩ = false ∧ Occurrence.isLabel ⟨node, above⟩ = false := by
  constructor
  · intro h
    obtain ⟨scope, visit⟩ := h
    constructor
    · by_contra inside
      simp [skip_of_isInImport form mem (by simpa using inside)] at visit
    · by_contra label
      simp [skip_of_isLabel form mem (by simpa using label)] at visit
  · intro h
    obtain ⟨outside, unlabelled⟩ := h
    cases visit : node.visitAt file above with
    | skip =>
      have place := place_of_skip form mem visit
      simp [outside, unlabelled, identifier] at place
    | inside scope =>
      have frame := (kind_of_visit form mem).2 scope visit
      simp [identifier, Kind.isFrame] at frame
    | whole scope => exact ⟨scope, rfl⟩

end Walk

theorem refers_mem_facts (form : tree.WellFormed) {o : Occurrence} (mem : o ∈ tree.occurrences) :
    .refers x ∈ o.facts file ↔
      o.node.kind = .identifier ∧ o.node.text = x ∧ o.isInImport = false ∧ o.isLabel = false := by
  rw [Occurrence.mem_facts_iff]
  constructor
  · intro h
    obtain ⟨scope, visit, told⟩ := h
    obtain ⟨identifier, text⟩ := refers_mem_ownFacts.mp told
    exact ⟨identifier, text, (exists_visit_identifier_iff form mem identifier).mp ⟨scope, visit⟩⟩
  · intro h
    obtain ⟨identifier, text, place⟩ := h
    obtain ⟨scope, visit⟩ := (exists_visit_identifier_iff form mem identifier).mpr place
    exact ⟨scope, visit, refers_mem_ownFacts.mpr ⟨identifier, text⟩⟩

theorem mem_references_iff (form : tree.WellFormed) :
    x ∈ (tree.extraction file).references ↔ tree.Uses x := by
  rw [extraction, Extraction.mem_references_ofFacts, facts_eq_flatMap, List.mem_flatMap]
  exact exists_congr fun o => and_congr_right fun mem => refers_mem_facts form mem

/- Bindings. -/

theorem child_of_child? {role : Role} {child : Node} (found : node.child? role = some child) :
    child ∈ node.children ∧ child.role = role :=
  ⟨List.mem_of_find?_eq_some found, by simpa using List.find?_some found⟩

theorem mem_words :
    x ∈ node.words ↔ ∃ child ∈ node.children, child.kind = .identifier ∧ child.text = x := by
  simp [words, and_assoc]

theorem dotted_eq (kind : node.kind = .dottedName) : node.dotted = Text.join '.' node.words := by
  simp [dotted, kind, words]

theorem binding?_bindingFacts (name : String) (line : Nat) (source : String) :
    (bindingFacts name line source).filterMap Fact.binding? =
      [{ name, line, source }].filter fun binding => binding.name != "_" := by
  by_cases blank : name = "_" <;> simp [bindingFacts, blank, Fact.binding?]

section Items

variable (form : tree.WellFormed) (mem : ⟨node, above⟩ ∈ tree.occurrences)
include form mem

theorem words_of_dottedName (kind : node.kind = .dottedName) :
    node.words ≠ [] ∧ ∀ word ∈ node.words, word ≠ "" ∧ '.' ∉ word.toList := by
  constructor
  · have complete := complete_of_wellMade (form.wellMade _ mem)
    simp only [isComplete, kind, List.any_eq_true, beq_iff_eq] at complete
    obtain ⟨child, hc, identifier⟩ := complete
    exact List.ne_nil_of_mem (mem_words.mpr ⟨child, hc, identifier, rfl⟩)
  · intro word hw
    obtain ⟨child, hc, identifier, rfl⟩ := mem_words.mp hw
    have complete := complete_of_wellMade (form.wellMade _ (child_mem_below tree mem hc))
    simpa [isComplete, identifier] using complete

theorem segments_words (kind : node.kind = .dottedName) :
    Text.segments '.' (Text.join '.' node.words) = node.words := by
  obtain ⟨nonempty, plain⟩ := words_of_dottedName form mem kind
  exact Text.segments_join nonempty fun word hw => (plain word hw).2

theorem join_words_ne_empty (kind : node.kind = .dottedName) : Text.join '.' node.words ≠ "" := by
  obtain ⟨nonempty, plain⟩ := words_of_dottedName form mem kind
  exact fun empty => nonempty ((ModulePath.join_eq_empty_iff plain).mp empty)

theorem path_of_item (item : node.isImportItem = true) :
    (∃ rest, ⟨node.importedPath, rest⟩ ∈ tree.occurrences) ∧
      node.importedPath.kind = .dottedName ∧ node.importedPath.line = node.line ∧
      ∀ bound, node.importedName? bound =
        some (node.importedPath.dotted, node.alias?.getD (bound node.importedPath.dotted)) := by
  have kinds : node.kind = .dottedName ∨ node.kind = .aliasedImport := by
    simp only [isImportItem, Bool.and_eq_true, Bool.or_eq_true, beq_iff_eq] at item
    exact item.2
  rcases kinds with kind | kind
  · have path : node.importedPath = node := by simp [importedPath, kind]
    rw [path]
    exact ⟨⟨above, mem⟩, kind, rfl, by simp [importedName?, alias?, kind]⟩
  · have made := form.wellMade _ mem
    have complete := complete_of_wellMade made
    simp only [isComplete, kind, Bool.and_eq_true, Option.any_eq_true, beq_iff_eq] at complete
    obtain ⟨⟨path, named, line⟩, other⟩ := complete
    obtain ⟨label, called⟩ := Option.isSome_iff_exists.mp other
    have same : node.importedPath = path := by simp [importedPath, kind, named]
    obtain ⟨hc, role⟩ := child_of_child? named
    have dotted : path.kind = .dottedName := by
      simpa [fits, kind, role, isRemark] using fits_of_wellMade made hc
    rw [same]
    refine ⟨⟨_, child_mem_below tree mem hc⟩, dotted, line, ?_⟩
    simp [importedName?, alias?, kind, named, called]

theorem itemFacts_item {bound full source : String → String} (item : node.isImportItem = true) :
    let path := Text.join '.' node.importedPath.words
    itemFacts bound full source node =
      .imports (full path) ::
        bindingFacts (node.alias?.getD (bound path)) node.line (source path) := by
  obtain ⟨⟨rest, there⟩, kind, _, read⟩ := path_of_item form mem item
  simp [itemFacts, read, dotted_eq kind, join_words_ne_empty form there kind]

/-- An item binds its name, unless that is the name for a value that nobody uses. -/
theorem binding?_itemFacts {bound full source : String → String}
    {own shown : List String → String} (item : node.isImportItem = true)
    (named : ∀ words, Text.segments '.' (Text.join '.' words) = words →
      bound (Text.join '.' words) = own words ∧ source (Text.join '.' words) = shown words) :
    (itemFacts bound full source node).filterMap Fact.binding? =
      [node.boundBy own shown].filter fun binding => binding.name != "_" := by
  obtain ⟨⟨rest, there⟩, kind, line, _⟩ := path_of_item form mem item
  obtain ⟨name, text⟩ := named _ (segments_words form there kind)
  rw [itemFacts_item form mem item, name, text, List.filterMap_cons_none rfl,
    binding?_bindingFacts, ← line]
  rfl

theorem level_of_relativeImport (kind : node.kind = .relativeImport) :
    node.importSource.1 ≠ 0 := by
  have complete := complete_of_wellMade (form.wellMade _ mem)
  simp only [isComplete, kind, List.any_eq_true] at complete
  obtain ⟨child, hc, isDots⟩ := complete
  have found : (node.children.filter fun child => child.kind == .importDots) ≠ [] :=
    List.ne_nil_of_mem (List.mem_filter.mpr ⟨hc, isDots⟩)
  obtain ⟨dots, last⟩ := Option.isSome_iff_exists.mp (List.getLast?_isSome.mpr found)
  obtain ⟨below, dotsKind⟩ := List.mem_filter.mp (List.mem_of_getLast? last)
  have dotsComplete := complete_of_wellMade (form.wellMade _ (child_mem_below tree mem below))
  have level : node.importSource.1 = dots.text.toList.count '.' := by
    simp [importSource, kind, last]
  have dotted : '.' ∈ dots.text.toList := by
    simpa [isComplete, beq_iff_eq.mp dotsKind] using dotsComplete
  rw [level]
  exact Nat.ne_of_gt (List.count_pos_iff.mpr dotted)

theorem features_eq_namesFeatures (kinds : node.kind = .dottedName ∨ node.kind = .relativeImport) :
    (node.importSource.1 == 0 && node.importSource.2 == featureModule) = node.namesFeatures := by
  rcases kinds with kind | kind
  · have words : Text.join '.' node.words = featureModule ↔ node.words = ["__future__"] :=
      ModulePath.join_eq_word_iff (words_of_dottedName form mem kind).2 ⟨by decide, by decide⟩
    rw [Bool.eq_iff_iff]
    simp [importSource, namesFeatures, kind, dotted_eq kind, words]
  · have level : (node.importSource.1 == 0) = false := by
      simpa using level_of_relativeImport form mem kind
    simp only [level, namesFeatures, kind]
    rfl

theorem item_of_mem {item : Node} (kinds : node.kind = .importStatement ∨ node.kind = .fromImport)
    (hi : item ∈ node.childrenIn .name) :
    ⟨item, node :: above⟩ ∈ tree.occurrences ∧ item.isImportItem = true := by
  obtain ⟨hc, role⟩ := List.mem_filter.mp hi
  have fit := fits_of_wellMade (form.wellMade _ mem) hc
  refine ⟨child_mem_below tree mem hc, ?_⟩
  rcases kinds with kind | kind <;> simpa [fits, kind, isRemark, beq_iff_eq.mp role] using fit

theorem exists_source (kind : node.kind = .fromImport) :
    ∃ source, node.child? .moduleName = some source ∧
      ⟨source, node :: above⟩ ∈ tree.occurrences ∧
      (source.kind = .dottedName ∨ source.kind = .relativeImport) := by
  have made := form.wellMade _ mem
  have complete := complete_of_wellMade made
  simp only [isComplete, kind] at complete
  obtain ⟨source, found⟩ := Option.isSome_iff_exists.mp complete
  obtain ⟨hc, role⟩ := child_of_child? found
  refine ⟨source, found, child_mem_below tree mem hc, ?_⟩
  simpa [fits, kind, role, isImportItem, isRemark] using fits_of_wellMade made hc

theorem binding?_items {bound full source : String → String} {own shown : List String → String}
    (kinds : node.kind = .importStatement ∨ node.kind = .fromImport)
    (named : ∀ words, Text.segments '.' (Text.join '.' words) = words →
      bound (Text.join '.' words) = own words ∧ source (Text.join '.' words) = shown words) :
    ((node.childrenIn .name).flatMap (itemFacts bound full source)).filterMap Fact.binding? =
      ((node.childrenIn .name).map (boundBy own shown)).filter
        fun binding => binding.name != "_" := by
  rw [List.filterMap_flatMap, List.map_eq_flatMap, List.filter_flatMap]
  refine List.flatMap_congr fun item hi => ?_
  obtain ⟨there, isItem⟩ := item_of_mem form mem kinds hi
  exact binding?_itemFacts form there isItem named

theorem binding?_importFacts (kind : node.kind = .importStatement) :
    node.importFacts.filterMap Fact.binding? =
      node.boundNames.filter fun binding => binding.name != "_" := by
  simp only [boundNames, kind]
  rw [importFacts_eq]
  refine binding?_items form mem (.inl kind) fun words cut => ?_
  exact ⟨by rw [firstSegment, cut], rfl⟩

theorem binding?_fromImportFacts (kind : node.kind = .fromImport) :
    (node.fromImportFacts file).filterMap Fact.binding? =
      node.boundNames.filter fun binding => binding.name != "_" := by
  obtain ⟨source, found, there, sourceKind⟩ := exists_source form mem kind
  have features := features_eq_namesFeatures form there sourceKind
  simp only [boundNames, kind, found]
  rw [fromImportFacts_eq found, features]
  cases source.namesFeatures with
  | true => rfl
  | false =>
    have unbound : ∀ base : Option String,
        (base.toList.map Fact.imports).filterMap Fact.binding? = [] := by
      intro base
      cases base <;> rfl
    simp only [Bool.false_eq_true, if_false, List.filterMap_append, unbound, List.nil_append]
    exact binding?_items form mem (.inr kind) fun words _ => ⟨rfl, rfl⟩

end Items

theorem facts_statement (form : tree.WellFormed) {o : Occurrence} (mem : o ∈ tree.occurrences)
    (kinds : o.node.kind = .importStatement ∨ o.node.kind = .fromImport) :
    ∃ scope, o.facts file = o.node.ownFacts file scope := by
  have named : o.node.kind.isNamePart = false := by
    rcases kinds with kind | kind <;> simp [kind, Kind.isNamePart]
  have frame : o.node.kind.isFrame = false := by
    rcases kinds with kind | kind <;> simp [kind, Kind.isFrame]
  obtain ⟨scope, visit⟩ := @exists_visit_whole file o.node tree o.above form mem named frame
  exact ⟨scope, by rw [Occurrence.facts, visit]⟩

theorem binding?_facts (form : tree.WellFormed) {o : Occurrence} (mem : o ∈ tree.occurrences) :
    (o.facts file).filterMap Fact.binding? =
      o.node.boundNames.filter fun binding => binding.name != "_" := by
  by_cases statement : o.node.kind = .importStatement ∨ o.node.kind = .fromImport
  · obtain ⟨scope, told⟩ := @facts_statement file tree form o mem statement
    rw [told]
    rcases statement with kind | kind
    · simp only [ownFacts, kind]
      exact binding?_importFacts form mem kind
    · simp only [ownFacts, kind]
      exact binding?_fromImportFacts form mem kind
  · obtain ⟨module, names⟩ := not_or.mp statement
    have bound : o.node.boundNames = [] := by
      unfold boundNames
      split
      · contradiction
      · contradiction
      · rfl
    rw [bound]
    exact Occurrence.filterMap_facts_eq_nil fun _ => binding?_ownFacts_other module names

theorem bindings_extraction (form : tree.WellFormed) :
    (tree.extraction file).bindings =
      tree.importBindings.filter fun binding => binding.name != "_" := by
  rw [extraction, Extraction.bindings_ofFacts, facts_eq_flatMap, List.filterMap_flatMap,
    importBindings, List.filter_flatMap]
  exact List.flatMap_congr fun o mem => binding?_facts form mem

end Node
end DeadCode.Tree
