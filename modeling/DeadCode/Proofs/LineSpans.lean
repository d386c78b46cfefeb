import Mathlib.Algebra.Order.BigOperators.Group.List
import Mathlib.Algebra.Order.Group.Nat
import DeadCode.Proofs.Definitions
import DeadCode.Proofs.Findings
import DeadCode.Proofs.UnusedImports

/- Lines that could go away. Functions that are tracked do not hold each other, so where definitions
   that do not hold each other share no row, no line of a file is counted for two of its functions.
   Dead functions lie in reached files and dead files are not reached, so no line is counted twice. -/
namespace DeadCode

def Symbol.Covers (symbol : Symbol) (n : Nat) : Prop :=
  symbol.line ≤ n ∧ n ≤ symbol.line + symbol.lines - 1

namespace Tree

/-- A span touches the row that it starts on and every later row up to its end, but not a row at
    whose first column it ends. -/
def Span.Touches (span : Span) (row : Nat) : Prop :=
  row = span.start.row ∨ span.start.row < row ∧
    (row < span.stop.row ∨ row = span.stop.row ∧ span.stop.column ≠ 0)

def Span.Apart (a b : Span) : Prop := ∀ row, a.Touches row → ¬b.Touches row

namespace Span

variable {a b span : Span} {row n : Nat}

theorem lines_pos (span : Span) : 1 ≤ span.lines := Nat.le_add_left _ _

theorem touches_iff : span.Touches row ↔
    span.start.row ≤ row ∧ row < span.start.row + span.lines := by
  simp only [Touches, lines]
  split <;> omega

theorem apart_iff : a.Apart b ↔
    a.start.row + a.lines ≤ b.start.row ∨ b.start.row + b.lines ≤ a.start.row := by
  have first := lines_pos a
  have second := lines_pos b
  simp only [Apart, touches_iff]
  constructor
  · intro apart
    by_contra common
    exact apart (max a.start.row b.start.row) (by omega) (by omega)
  · intro _ row _ _
    omega

theorem inside_iff : (∀ row, span.Touches row → row < n) ↔ span.start.row + span.lines ≤ n := by
  have positive := lines_pos span
  simp only [touches_iff]
  constructor
  · intro inside
    have last := inside (span.start.row + span.lines - 1) (by omega)
    omega
  · intro _ row _
    omega

instance (a b : Span) : Decidable (a.Apart b) := decidable_of_iff _ apart_iff.symm

end Span

namespace Occurrence

/-- The node of one occurrence is among those above the other. -/
def Holds (d e : Occurrence) : Prop := d.node :: d.above <:+ e.above

def inBodiesOf : Node → List Node → Bool
  | _, [] => true
  | node, parent :: above => (!parent.isDefinition || node.role == .body) && inBodiesOf parent above

/-- Every definition above the node holds it in its body, and not in its signature. -/
def inBodies (o : Occurrence) : Bool := inBodiesOf o.node o.above

theorem mem_enclosingOf_of_holds {d : Occurrence} (defines : d.node.isDefinition = true) :
    ∀ {node : Node} {above : List Node}, d.node :: d.above <:+ above →
      inBodiesOf node above = true → d ∈ enclosingOf node above
  | _, [], holds, _ => absurd (List.suffix_nil.mp holds) (List.cons_ne_nil _ _)
  | node, parent :: above, holds, bodies => by
    obtain ⟨entered, later⟩ := Bool.and_eq_true_iff.mp bodies
    rcases List.suffix_cons_iff.mp holds with same | deeper
    · obtain ⟨rfl, rfl⟩ := List.cons.inj same
      have role : node.role = .body := by simpa [defines] using entered
      rw [enclosingOf_body defines role]
      exact List.mem_cons_self
    · have inner := mem_enclosingOf_of_holds defines deeper later
      rw [enclosingOf]
      split
      · exact List.mem_cons_of_mem _ inner
      · exact inner

end Occurrence

namespace Node

open Occurrence

variable {file : SourceFile} {tree node : Node} {above : List Node} {d e : Occurrence}

/-- Definitions stand in bodies only, two of them share a row only if one holds the other, and all
    rows of definitions are among the lines. -/
structure RowsParted (tree : Node) (lines : Nat) : Prop where
  statements : ∀ d ∈ tree.definitions, d.inBodies = true
  apart : ∀ d ∈ tree.definitions, ∀ e ∈ tree.definitions, d ≠ e → ¬d.Holds e → ¬e.Holds d →
    d.node.span.Apart e.node.span
  inside : ∀ d ∈ tree.definitions, ∀ row, d.node.span.Touches row → row < lines

/- Rows can be compared child by child: two nodes of which none holds the other lie below different
   children of some node. -/

theorem exists_twin (tree : Node) : ∀ {above other : List Node}, d ∈ tree.occurrencesBelow above →
    ∃ twin ∈ tree.occurrencesBelow other, twin.node = d.node := by
  induction tree using child_induction with
  | step tree ih =>
    intro above other mem
    rw [occurrencesBelow_eq, List.mem_cons, List.mem_flatMap] at mem
    rw [occurrencesBelow_eq]
    rcases mem with rfl | ⟨child, hc, deeper⟩
    · exact ⟨⟨tree, other⟩, List.mem_cons_self, rfl⟩
    · obtain ⟨twin, there, same⟩ := ih child hc deeper
      exact ⟨twin, List.mem_cons_of_mem _ (List.mem_flatMap.mpr ⟨child, hc, there⟩), same⟩

theorem suffix_of_mem_below (tree : Node) : ∀ {above : List Node},
    d ∈ tree.occurrencesBelow above → above <:+ d.above := by
  induction tree using child_induction with
  | step tree ih =>
    intro above mem
    rw [occurrencesBelow_eq, List.mem_cons, List.mem_flatMap] at mem
    rcases mem with rfl | ⟨child, hc, deeper⟩
    · exact List.suffix_refl _
    · exact (List.suffix_cons _ _).trans (ih child hc deeper)

def ChildrenApart (node : Node) : Prop :=
  node.children.Pairwise fun a b =>
    ∀ d ∈ a.definitions, ∀ e ∈ b.definitions, d.node.span.Apart e.node.span

instance (node : Node) : Decidable node.ChildrenApart :=
  inferInstanceAs (Decidable (List.Pairwise _ _))

theorem apart_below_children (apart : node.ChildrenApart) {a b : Node} (ha : a ∈ node.children)
    (hb : b ∈ node.children) (differ : a ≠ b) :
    ∀ d ∈ a.definitions, ∀ e ∈ b.definitions, d.node.span.Apart e.node.span := by
  have symmetric : Std.Symm fun a b : Node =>
      ∀ d ∈ a.definitions, ∀ e ∈ b.definitions, d.node.span.Apart e.node.span :=
    ⟨fun _ _ apart e he d hd row touches touches' => apart d hd e he row touches' touches⟩
  exact List.Pairwise.forall apart ha hb differ

theorem holds_or_apart (node : Node) : ∀ {above : List Node},
    (∀ o ∈ node.occurrencesBelow above, o.node.ChildrenApart) →
    d ∈ node.occurrencesBelow above → e ∈ node.occurrencesBelow above →
    d.node.isDefinition = true → e.node.isDefinition = true →
      d = e ∨ d.Holds e ∨ e.Holds d ∨ d.node.span.Apart e.node.span := by
  induction node using child_induction with
  | step node ih =>
    intro above apart hd he defines defines'
    have here : node.ChildrenApart := by
      refine apart ⟨node, above⟩ ?_
      rw [occurrencesBelow_eq]
      exact List.mem_cons_self
    have deeper : ∀ {child : Node} {o : Occurrence}, child ∈ node.children →
        o ∈ child.occurrencesBelow (node :: above) → o ∈ node.occurrencesBelow above := by
      intro child o hc mem
      rw [occurrencesBelow_eq]
      exact List.mem_cons_of_mem _ (List.mem_flatMap.mpr ⟨child, hc, mem⟩)
    rw [occurrencesBelow_eq, List.mem_cons, List.mem_flatMap] at hd he
    rcases hd with rfl | ⟨a, ha, inA⟩
    · rcases he with rfl | ⟨b, hb, inB⟩
      · exact .inl rfl
      · exact .inr (.inl (suffix_of_mem_below b inB))
    · rcases he with rfl | ⟨b, hb, inB⟩
      · exact .inr (.inr (.inl (suffix_of_mem_below a inA)))
      · by_cases same : a = b
        · subst same
          exact ih a ha (fun o mem => apart o (deeper ha mem)) inA inB defines defines'
        · obtain ⟨d', twinD, sameD⟩ := exists_twin a inA
          obtain ⟨e', twinE, sameE⟩ := exists_twin b inB
          rw [← sameD, ← sameE]
          exact .inr (.inr (.inr (apart_below_children here ha hb same
            d' (mem_definitions.mpr ⟨twinD, sameD ▸ defines⟩)
            e' (mem_definitions.mpr ⟨twinE, sameE ▸ defines'⟩))))

theorem rowsParted_of_children {lines : Nat}
    (statements : ∀ d ∈ tree.definitions, d.inBodies = true)
    (apart : ∀ o ∈ tree.occurrences, o.node.ChildrenApart)
    (inside : ∀ d ∈ tree.definitions, d.node.span.start.row + d.node.span.lines ≤ lines) :
    tree.RowsParted lines where
  statements := statements
  apart d hd e he differ notHolds notHeld := by
    obtain ⟨memD, definesD⟩ := mem_definitions.mp hd
    obtain ⟨memE, definesE⟩ := mem_definitions.mp he
    rcases holds_or_apart tree apart memD memE definesD definesE with same | holds | held | apart
    · exact absurd same differ
    · exact absurd holds notHolds
    · exact absurd held notHeld
    · exact apart
  inside d hd := Span.inside_iff.mpr (inside d hd)

/- What the tree says about its symbols. -/

theorem tracksFunction_of_record {q : String} {symbol : Symbol}
    (defines : d.node.isDefinition = true) (recorded : d.record? file = some (q, symbol))
    (function : symbol.kind ≠ .classType) : d.TracksFunction file q := by
  obtain ⟨⟨name, kind⟩, tracked, made⟩ := Option.map_eq_some_iff.mp recorded
  cases made
  refine ⟨?_, by rw [tracked]; rfl⟩
  rcases kind_of_definition defines with isFunction | isClass
  · exact isFunction
  · -- A class is tracked outside all bodies only, and as a class.
    have class_ : d.node.isClass = true := by simp [Node.isClass, isClass]
    unfold trackedAs? at tracked
    split at tracked <;> simp_all

theorem not_holds_of_records {q r : String} {symbol twin : Symbol}
    (bodies : e.inBodies = true) (defines : d.node.isDefinition = true)
    (recorded : d.record? file = some (q, symbol)) (also : e.record? file = some (r, twin))
    (function : symbol.kind ≠ .classType) : ¬d.Holds e := by
  intro holds
  have tracked : (e.trackedAs? file).isSome = true := by
    obtain ⟨entry, tracked, _⟩ := Option.map_eq_some_iff.mp also
    rw [tracked]
    rfl
  exact not_tracksFunction_around tracked (mem_enclosingOf_of_holds defines holds bodies)
    (tracksFunction_of_record defines recorded function)

theorem exists_definition {q : String} {symbol : Symbol} (form : tree.WellFormed)
    (found : (tree.extraction file).symbols.get? q = some symbol) :
    ∃ d ∈ tree.definitions, d.record? file = some (q, symbol) := by
  rw [extraction, Extraction.symbols_ofFacts, definition?_tree form] at found
  exact List.mem_filterMap.mp (NameMap.mem_of_first? found)

end Node
end Tree

/-- Every symbol has a line, and the functions among them have lines of their own, all of them among
    those of the file. -/
structure LinesParted (symbols : NameMap Symbol) (lines : Nat) : Prop where
  positive : ∀ q symbol, symbols.get? q = some symbol → 1 ≤ symbol.lines
  apart : ∀ q r symbol twin, symbols.get? q = some symbol → symbols.get? r = some twin → q ≠ r →
    symbol.kind ≠ .classType → twin.kind ≠ .classType →
      ∀ n, symbol.Covers n → ¬twin.Covers n
  inside : ∀ q symbol, symbols.get? q = some symbol → symbol.kind ≠ .classType →
    ∀ n, symbol.Covers n → 1 ≤ n ∧ n ≤ lines

namespace Tree.Node

open Occurrence

variable {file : SourceFile} {tree : Node} {d : Occurrence} {q : String} {symbol : Symbol} {n : Nat}

theorem covers_iff (recorded : d.record? file = some (q, symbol)) :
    symbol.Covers n ↔ 1 ≤ n ∧ d.node.span.Touches (n - 1) := by
  obtain ⟨_, _, made⟩ := Option.map_eq_some_iff.mp recorded
  cases made
  have positive := d.node.span.lines_pos
  simp only [Symbol.Covers, Span.touches_iff, Node.line]
  omega

theorem linesParted (form : tree.WellFormed) (parted : tree.RowsParted file.lines) :
    LinesParted (tree.extraction file).symbols file.lines where
  positive q symbol found := by
    obtain ⟨d, _, recorded⟩ := exists_definition form found
    obtain ⟨_, _, made⟩ := Option.map_eq_some_iff.mp recorded
    cases made
    exact d.node.span.lines_pos
  apart q r symbol twin found found' differ function function' n covers covers' := by
    obtain ⟨d, hd, recorded⟩ := exists_definition form found
    obtain ⟨e, he, also⟩ := exists_definition form found'
    have other : d ≠ e := by
      rintro rfl
      rw [recorded] at also
      cases also
      exact differ rfl
    have definesD := (mem_definitions.mp hd).2
    have definesE := (mem_definitions.mp he).2
    have rows := parted.apart d hd e he other
      (not_holds_of_records (parted.statements e he) definesD recorded also function)
      (not_holds_of_records (parted.statements d hd) definesE also recorded function')
    exact rows _ ((covers_iff recorded).mp covers).2 ((covers_iff also).mp covers').2
  inside q symbol found function n covers := by
    obtain ⟨d, hd, recorded⟩ := exists_definition form found
    obtain ⟨positive, touches⟩ := (covers_iff recorded).mp covers
    have below := parted.inside d hd _ touches
    omega

end Tree.Node

theorem sum_lines_le {entries : List (String × Symbol)} {lines : Nat}
    (apart : entries.Pairwise fun a b => ∀ n, a.2.Covers n → ¬b.2.Covers n)
    (inside : ∀ entry ∈ entries, ∀ n, entry.2.Covers n → 1 ≤ n ∧ n ≤ lines) :
    (entries.map (·.2.lines)).sum ≤ lines := by
  have covers : ∀ {symbol : Symbol} {n : Nat}, n ∈ List.range' symbol.line symbol.lines →
      symbol.Covers n := by
    intro symbol n mem
    rw [List.mem_range'_1] at mem
    exact ⟨mem.1, by omega⟩
  have once : (entries.flatMap fun entry => List.range' entry.2.line entry.2.lines).Nodup := by
    refine List.nodup_flatMap.mpr ⟨fun _ _ => List.nodup_range', apart.imp ?_⟩
    intro a b apart n here there
    exact apart n (covers here) (covers there)
  have among : (entries.flatMap fun entry => List.range' entry.2.line entry.2.lines) ⊆
      List.range' 1 lines := by
    intro n mem
    obtain ⟨entry, he, mem⟩ := List.mem_flatMap.mp mem
    have bounds := inside entry he n (covers mem)
    rw [List.mem_range'_1]
    omega
  have count := once.length_le_of_subset among
  simpa [List.length_flatMap] using count

namespace ProjectGraph

variable {items : Items} {item : SourceFile × Extraction}

section Distinct

variable (distinct : (items.map fun item => item.1.relPath).Nodup)
include distinct

theorem files_perm : (ofExtractions items).files.Perm (items.map (·.1)) := by
  have apart : (items.map (·.1)).Nodup := by
    refine List.Nodup.of_map (·.relPath) ?_
    rwa [List.map_map]
  refine (List.perm_ext_iff_of_nodup (List.Nodup.of_map _ (paths_nodup items)) apart).mpr ?_
  intro file
  rw [mem_files_ofExtractions, file?_ofExtractions, Option.map_eq_some_iff, List.mem_map]
  constructor
  · intro h
    obtain ⟨item, latest, rfl⟩ := h
    exact ⟨item, (mem_of_latest? latest).1, rfl⟩
  · intro h
    obtain ⟨item, hi, rfl⟩ := h
    exact ⟨item, latest?_of_distinct distinct hi, rfl⟩

theorem get?_of_mem_symbolsIn {q : String} {symbol : Symbol} (hi : item ∈ items)
    (owned : (q, symbol) ∈ (ofExtractions items).symbolsIn item.1.relPath) :
    item.2.symbols.get? q = some symbol := by
  obtain ⟨other, provided, same, found⟩ := mem_symbolsIn_ofExtractions.mp owned
  obtain rfl : item = other := List.inj_on_of_nodup_map distinct hi (mem_of_provider? provided).1 same
  exact found

variable (parted : ∀ item ∈ items, LinesParted item.2.symbols item.1.lines)
include parted

theorem owned_lines_le {pick : String × Symbol → Bool} (hi : item ∈ items)
    (functions : ∀ entry, pick entry = true → entry.2.kind ≠ .classType) :
    ((((ofExtractions items).symbolsIn item.1.relPath).filter pick).map (·.2.lines)).sum ≤
      item.1.lines := by
  have lines := parted item hi
  have own : ∀ entry ∈ ((ofExtractions items).symbolsIn item.1.relPath).filter pick,
      item.2.symbols.get? entry.1 = some entry.2 ∧ entry.2.kind ≠ .classType := by
    intro entry mem
    obtain ⟨owned, picked⟩ := List.mem_filter.mp mem
    exact ⟨get?_of_mem_symbolsIn distinct hi owned, functions entry picked⟩
  have increasing : (((ofExtractions items).symbolsIn item.1.relPath).filter pick).Pairwise
      (·.1 < ·.1) := by
    rw [symbolsIn_eq_filter]
    exact ((ofExtractions items).symbolMap.sorted.filter _).filter _
  apply sum_lines_le
  · apply increasing.imp_of_mem
    intro a b ha hb less n
    have differ : a.1 ≠ b.1 := fun same => String.lt_irrefl _ (same ▸ less)
    exact lines.apart _ _ _ _ (own a ha).1 (own b hb).1 differ (own a ha).2 (own b hb).2 n
  · intro entry he
    exact lines.inside _ _ (own entry he).1 (own entry he).2

theorem deadFunctions_lines_le {reach : Reach} (minLines : Nat)
    (inside : ∀ path ∈ reach.files, HasPath items path) :
    ((Classify.deadFunctions (ofExtractions items) reach minLines).map (·.lines)).sum ≤
      ((items.filter fun item => reach.files.contains item.1.relPath).map (·.1.lines)).sum := by
  let dead : String × Symbol → Bool := fun entry =>
    Classify.isDeadFunction reach minLines entry.1 entry.2
  have functions : ∀ entry, dead entry = true → entry.2.kind ≠ .classType := by
    intro entry isDead
    simp only [dead, Classify.isDeadFunction, Bool.and_eq_true, bne_iff_ne] at isDead
    exact isDead.1.1.1
  have perm : ((Classify.deadFunctions (ofExtractions items) reach minLines).map (·.lines)).Perm
      ((items.filter fun item => reach.files.contains item.1.relPath).flatMap fun item =>
        (((ofExtractions items).symbolsIn item.1.relPath).filter dead).map (·.2.lines)) := by
    refine ((deadFunctions_perm _ _ _).map _).trans ?_
    rw [List.map_map, List.filter_flatMap, List.map_flatMap]
    refine ((paths_perm distinct inside).flatMap_right _).trans ?_
    rw [List.flatMap_map]
    rfl
  rw [perm.sum_nat, List.flatMap_def, List.sum_flatten, List.map_map]
  exact List.sum_le_sum fun item hi =>
    owned_lines_le distinct parted (List.mem_filter.mp hi).1 functions

omit parted in
theorem deadFiles_lines_le (reach : Reach) :
    ((Classify.deadFiles (ofExtractions items) reach).map (·.lines)).sum ≤
      ((items.filter fun item => !reach.files.contains item.1.relPath).map (·.1.lines)).sum := by
  have perm : ((unreachedFiles (ofExtractions items) reach).map (·.lines)).Perm
      ((items.filter fun item => !reach.files.contains item.1.relPath).map (·.1.lines)) := by
    have files := ((files_perm distinct).filter fun file =>
      !reach.files.contains file.relPath).map (·.lines)
    rwa [List.filter_map, List.map_map] at files
  have dead := (deadFiles_perm (ofExtractions items) reach).map (·.lines)
  rw [List.map_map] at dead
  have among : ((deadAmong ((ofExtractions items).unreachedFiles reach)).map (·.lines)).Sublist
      ((unreachedFiles (ofExtractions items) reach).map (·.lines)) := List.filter_sublist.map _
  calc ((Classify.deadFiles (ofExtractions items) reach).map (·.lines)).sum
      = ((deadAmong ((ofExtractions items).unreachedFiles reach)).map (·.lines)).sum := dead.sum_nat
    _ ≤ ((unreachedFiles (ofExtractions items) reach).map (·.lines)).sum :=
        among.sum_le_sum fun _ _ => Nat.zero_le _
    _ = _ := perm.sum_nat

/-- A line is counted for a dead file or for one dead function, and never twice. -/
theorem reclaimable_le_lines (minLines : Nat) (diagnostics : List Diagnostic) (timestamp : String) :
    ((ofExtractions items).analyze minLines diagnostics timestamp).stats.reclaimableLines ≤
      (items.map (·.1.lines)).sum := by
  let reach := (ofExtractions items).ownReach
  have files := deadFiles_lines_le distinct reach
  have functions := deadFunctions_lines_le distinct parted minLines
    fun path (reached : path ∈ reach.files) => hasPath_of_reached reached
  have whole := ((List.filter_append_perm (fun item : SourceFile × Extraction =>
    reach.files.contains item.1.relPath) items).map (·.1.lines)).sum_nat
  rw [List.map_append, List.sum_append] at whole
  calc ((ofExtractions items).analyze minLines diagnostics timestamp).stats.reclaimableLines
      = ((Classify.deadFiles (ofExtractions items) reach).map (·.lines)).sum +
          ((Classify.deadFunctions (ofExtractions items) reach minLines).map (·.lines)).sum :=
        reclaimableLines_append _ _
    _ ≤ (items.map (·.1.lines)).sum := by omega

end Distinct

end ProjectGraph

namespace Check

open DeadCode.Tree

/-- In every project of trees without damage at paths of their own, whose definitions share rows only
    where one holds the other, no tracked function lies in another one, every symbol has a line, the
    functions of a file have lines of their own among those of the file, and so no line is counted
    twice among those that could go away. -/
theorem reclaimable_lines_once (sources : List (SourceFile × Node))
    (distinct : (sources.map fun source => source.1.relPath).Nodup)
    (whole : ∀ source ∈ sources, source.2.hasError = false)
    (form : ∀ source ∈ sources, source.2.WellFormed)
    (parted : ∀ source ∈ sources, source.2.RowsParted source.1.lines) :
    (∀ file tree, (file, tree) ∈ sources →
      (∀ d ∈ tree.definitions, ∀ e ∈ tree.definitions, ∀ q r symbol twin,
        d.record? file = some (q, symbol) → e.record? file = some (r, twin) →
        symbol.kind ≠ .classType → twin.kind ≠ .classType → ¬d.Holds e) ∧
      ∃ extraction, file.extractTree tree = .ok extraction ∧
        LinesParted extraction.symbols file.lines) ∧
    ∀ minLines diagnostics timestamp,
      ((graphOf (readTrees sources)).analyze minLines diagnostics timestamp).stats.reclaimableLines ≤
        (sources.map (·.1.lines)).sum := by
  constructor
  · intro file tree hs
    have rows := parted _ hs
    refine ⟨?_, tree.extraction file, ?_, Node.linesParted (form _ hs) rows⟩
    · intro d hd e he q r symbol twin recorded also function _
      exact Node.not_holds_of_records (rows.statements e he) (mem_definitions.mp hd).2 recorded also
        function
    · simp [SourceFile.extractTree, whole _ hs]
  · intro minLines diagnostics timestamp
    have lines : ∀ item ∈ treeItems sources, LinesParted item.2.symbols item.1.lines := by
      intro item hi
      obtain ⟨source, hs, rfl⟩ := List.mem_map.mp hi
      exact Node.linesParted (form source hs) (parted source hs)
    have bound := ProjectGraph.reclaimable_le_lines (distinct_treeItems distinct) lines minLines
      diagnostics timestamp
    rw [treeItems, List.map_map] at bound
    rw [graphOf, parsed_readTrees whole]
    exact bound

/- A function in a function, and a class with a method that ends the file, beside a file that nothing
   imports. -/

def spanSource : String :=
  "def outer():\n  def inner(): pass\n  return inner\nclass Box:\n  def put(self):\n    pass\n"

def spanSources : List (SourceFile × Node) :=
  [({ SourceFile.ofPath "app.py" with lines := 6 }, Grammar.parse spanSource),
   ({ SourceFile.ofPath "lib/old.py" with lines := 1 }, Grammar.parse "def idle(): pass\n")]

theorem span_lines_once :
    ((spanSources.map fun source => source.1.relPath).Nodup ∧
        (∀ source ∈ spanSources, source.2.hasError = false) ∧
        (∀ source ∈ spanSources, source.2.WellFormed) ∧
        ∀ source ∈ spanSources, source.2.RowsParted source.1.lines) ∧
      ((graphOf (readTrees spanSources)).analyze 1 [] "").stats.reclaimableLines ≤ 7 := by
  have evaluated : ((spanSources.map fun source => source.1.relPath).Nodup ∧
        (∀ source ∈ spanSources, source.2.hasError = false) ∧
        ∀ source ∈ spanSources, source.2.WellFormed) ∧
      ∀ source ∈ spanSources, (∀ d ∈ source.2.definitions, d.inBodies = true) ∧
        (∀ o ∈ source.2.occurrences, o.node.ChildrenApart) ∧
        ∀ d ∈ source.2.definitions, d.node.span.start.row + d.node.span.lines ≤ source.1.lines := by
    decide +kernel
  obtain ⟨⟨distinct, whole, form⟩, rows⟩ := evaluated
  have parted : ∀ source ∈ spanSources, source.2.RowsParted source.1.lines := by
    intro source hs
    obtain ⟨statements, apart, inside⟩ := rows source hs
    exact Node.rowsParted_of_children statements apart inside
  refine ⟨⟨distinct, whole, form, parted⟩, ?_⟩
  exact (reclaimable_lines_once spanSources distinct whole form parted).2 1 [] ""

end Check
end DeadCode
