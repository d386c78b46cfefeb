import Mathlib.Data.List.Basic
import DeadCode.Analysis
import DeadCode.Proofs.Merge

/- The merge forgets the order of its items. Where each path and each qualified name has one item,
   every table of the graph is given by which items there are: sets are unions over the items, and
   first and last insertions have nothing to choose from. So items that come in another order, or
   more than once, give the same graph. -/
namespace DeadCode.ProjectGraph

attribute [ext] ProjectGraph

variable {items xs ys : Items} {item : SourceFile × Extraction} {path q bare : String}

/-- Different items have different paths, and no qualified name is defined by two of them. An item
    may be listed more than once. -/
structure Compatible (items : Items) : Prop where
  paths : ∀ a ∈ items, ∀ b ∈ items, a.1.relPath = b.1.relPath → a = b
  symbols : ∀ a ∈ items, ∀ b ∈ items, ∀ q ∈ a.2.symbols.keys, q ∈ b.2.symbols.keys → a = b

theorem Compatible.congr (compatible : Compatible xs) (same : ∀ item, item ∈ xs ↔ item ∈ ys) :
    Compatible ys where
  paths := fun a ha b hb => compatible.paths a ((same a).mpr ha) b ((same b).mpr hb)
  symbols := fun a ha b hb => compatible.symbols a ((same a).mpr ha) b ((same b).mpr hb)

theorem find?_eq_some_iff_of_unique {α : Type} {p : α → Bool} {list : List α} {x : α}
    (unique : ∀ a ∈ list, ∀ b ∈ list, p a = true → p b = true → a = b) :
    list.find? p = some x ↔ x ∈ list ∧ p x = true := by
  constructor
  · intro found
    exact ⟨List.mem_of_find?_eq_some found, List.find?_some found⟩
  · intro h
    obtain ⟨mem, holds⟩ := h
    cases found : list.find? p with
    | none => exact absurd holds (List.find?_eq_none.mp found x mem)
    | some first =>
      rw [unique first (List.mem_of_find?_eq_some found) x mem (List.find?_some found) holds]

theorem Compatible.latest?_iff (compatible : Compatible items) :
    latest? items path = some item ↔ item ∈ items ∧ item.1.relPath = path := by
  rw [latest?, find?_eq_some_iff_of_unique]
  · simp
  · intro a ha b hb atA atB
    have same : a.1.relPath = b.1.relPath := by simp_all
    exact compatible.paths a (List.mem_reverse.mp ha) b (List.mem_reverse.mp hb) same

theorem Compatible.provider?_iff (compatible : Compatible items) :
    provider? items q = some item ↔ item ∈ items ∧ q ∈ item.2.symbols.keys := by
  have defines : ∀ a : SourceFile × Extraction,
      a.2.symbols.contains q = true ↔ q ∈ a.2.symbols.keys := by
    intro a
    rw [NameMap.contains_iff, NameMap.mem_keys]
  rw [provider?, find?_eq_some_iff_of_unique, defines]
  intro a ha b hb inA inB
  exact compatible.symbols a ha b hb q ((defines a).mp inA) ((defines b).mp inB)

/- The keys of the tables of sets. -/

theorem contains_of_altered (table : ProjectGraph → NameMap NameSet)
    (part : Extraction → Option NameSet → NameSet) (start : table {} = ∅)
    (step : ∀ graph file extraction, table (graph.addFile file extraction) =
      (table graph).alter file.relPath (part extraction)) :
    (table (ofExtractions items)).contains path = true ↔ ∃ item ∈ items, path = item.1.relPath := by
  apply ofExtractions_iff fun graph => (table graph).contains path = true
  · simp [start, NameMap.contains]
  · intro graph file extraction
    rw [step, NameMap.contains_alter]

theorem contains_fold_extend {m : NameMap NameSet} {entries : List (String × NameSet)} :
    (entries.foldl (fun calls (caller, callees) => calls.alter caller (extend callees)) m).contains
        q = true ↔
      m.contains q = true ∨ ∃ names, (q, names) ∈ entries := by
  induction entries generalizing m with
  | nil => simp
  | cons e rest ih =>
    obtain ⟨caller, callees⟩ := e
    rw [List.foldl_cons, ih, NameMap.contains_alter, or_assoc]
    apply or_congr_right
    constructor
    · intro h
      rcases h with rfl | ⟨names, later⟩
      · exact ⟨callees, List.mem_cons_self⟩
      · exact ⟨names, List.mem_cons_of_mem _ later⟩
    · intro h
      obtain ⟨names, entry⟩ := h
      rcases List.mem_cons.mp entry with same | later
      · cases same
        exact .inl rfl
      · exact .inr ⟨names, later⟩

theorem contains_calls_ofExtractions :
    (ofExtractions items).calls.contains q = true ↔ ∃ item ∈ items, q ∈ item.2.calls.keys := by
  apply ofExtractions_iff fun graph => graph.calls.contains q = true
  · simp [NameMap.contains]
  · intro graph file extraction
    rw [addFile_frame, NameMap.mem_keys]
    simp only [NameMap.get?_eq_some_iff]
    exact contains_fold_extend

theorem contains_owned_addSymbols (entries : List (String × Symbol)) (graph : ProjectGraph)
    {owner : String} (opened : graph.owned.contains owner = true) :
    (entries.foldl (addSymbol owner) graph).owned.contains path = graph.owned.contains path := by
  induction entries generalizing graph with
  | nil => rfl
  | cons e rest ih =>
    have step : ∀ k, (addSymbol owner graph e).owned.contains k = graph.owned.contains k := by
      intro k
      unfold addSymbol
      split
      · rfl
      · rw [Bool.eq_iff_iff, NameMap.contains_alter]
        constructor
        · rintro (old | rfl)
          · exact old
          · exact opened
        · exact .inl
    rw [List.foldl_cons, ih _ ((step owner).trans opened), step]

theorem contains_owned_ofExtractions :
    (ofExtractions items).owned.contains path = true ↔ ∃ item ∈ items, path = item.1.relPath := by
  apply ofExtractions_iff fun graph => graph.owned.contains path = true
  · simp [NameMap.contains]
  · intro graph file extraction
    have opened : ∀ k, (graph.owned.alter file.relPath (·.getD ∅)).contains k = true ↔
        graph.owned.contains k = true ∨ k = file.relPath := fun k =>
      NameMap.contains_alter graph.owned file.relPath k _
    rw [← opened path]
    exact Bool.eq_iff_iff.mp
      (contains_owned_addSymbols extraction.symbols.entries _ ((opened file.relPath).mpr (.inr rfl)))

/-- A short name is entered with a qualified name, so no entry is empty. -/
theorem contains_byName_addSymbols (entries : List (String × Symbol)) (graph : ProjectGraph)
    (filled : graph.byName.contains bare = true → ∃ q, q ∈ graph.matchCallee bare)
    (entered : (entries.foldl (addSymbol path) graph).byName.contains bare = true) :
    ∃ q, q ∈ (entries.foldl (addSymbol path) graph).matchCallee bare := by
  induction entries generalizing graph with
  | nil => exact filled entered
  | cons e rest ih =>
    refine ih (addSymbol path graph e) ?_ entered
    cases found : graph.symbol? e.1 with
    | some old => rwa [addSymbol_known found]
    | none =>
      intro now
      rw [addSymbol_unknown found, NameMap.contains_alter] at now
      rcases now with before | rfl
      · obtain ⟨q, mem⟩ := filled before
        exact ⟨q, (mem_matchCallee_addSymbol e).mpr (.inl mem)⟩
      · exact ⟨e.1, (mem_matchCallee_addSymbol e).mpr (.inr ⟨found, rfl, rfl⟩)⟩

theorem contains_byName_ofExtractions :
    (ofExtractions items).byName.contains bare = true ↔
      ∃ q, q ∈ (ofExtractions items).matchCallee bare := by
  constructor
  · induction items using List.reverseRecOn with
    | nil =>
      intro entered
      cases entered
    | append_singleton items item ih =>
      rw [ofExtractions_concat]
      exact contains_byName_addSymbols item.2.symbols.entries _ ih
  · intro h
    obtain ⟨q, mem⟩ := h
    obtain ⟨names, found, _⟩ := NameSet.mem_getD.mp mem
    exact NameMap.contains_iff.mpr ⟨names, found⟩

/- All tables. -/

section Same

variable (same : ∀ item, item ∈ xs ↔ item ∈ ys)
include same

theorem exists_item_congr {P : SourceFile × Extraction → Prop} :
    (∃ item ∈ xs, P item) ↔ ∃ item ∈ ys, P item :=
  exists_congr fun item => and_congr_left fun _ => same item

theorem united_congr (table : ProjectGraph → NameMap NameSet) (part : Extraction → NameSet)
    (start : table {} = ∅)
    (step : ∀ graph file extraction, table (graph.addFile file extraction) =
      (table graph).alter file.relPath (extend (part extraction))) :
    table (ofExtractions xs) = table (ofExtractions ys) := by
  apply NameMap.eq_of_members
  · intro path
    rw [contains_of_altered table (fun extraction => extend (part extraction)) start step,
      contains_of_altered table (fun extraction => extend (part extraction)) start step,
      exists_item_congr same]
  · intro path x
    rw [mem_of_united table part start step, mem_of_united table part start step,
      exists_item_congr same]

theorem calls_congr : (ofExtractions xs).calls = (ofExtractions ys).calls := by
  apply NameMap.eq_of_members
  · intro caller
    rw [contains_calls_ofExtractions, contains_calls_ofExtractions, exists_item_congr same]
  · intro caller x
    have members := @mem_callsOf_ofExtractions
    unfold callsOf at members
    rw [members, members, exists_item_congr same]

variable (compatible : Compatible xs)
include compatible

theorem latest?_congr (path : String) : latest? xs path = latest? ys path := by
  apply Option.ext
  intro item
  rw [compatible.latest?_iff, (compatible.congr same).latest?_iff, same]

theorem provider?_congr (q : String) : provider? xs q = provider? ys q := by
  apply Option.ext
  intro item
  rw [compatible.provider?_iff, (compatible.congr same).provider?_iff, same]

theorem symbolMap_congr : (ofExtractions xs).symbolMap = (ofExtractions ys).symbolMap := by
  apply NameMap.eq_of_get?
  intro q
  have symbols := fun items => symbol?_ofExtractions items q
  unfold symbol? at symbols
  rw [symbols, symbols, provider?_congr same compatible]

theorem owned_congr : (ofExtractions xs).owned = (ofExtractions ys).owned := by
  apply NameMap.eq_of_members
  · intro path
    rw [contains_owned_ofExtractions, contains_owned_ofExtractions, exists_item_congr same]
  · intro path q
    have members := @mem_ownedBy_ofExtractions
    unfold ownedBy at members
    rw [members, members, provider?_congr same compatible]

theorem byName_congr : (ofExtractions xs).byName = (ofExtractions ys).byName := by
  have callees : ∀ bare q, q ∈ (ofExtractions xs).matchCallee bare ↔
      q ∈ (ofExtractions ys).matchCallee bare := by
    intro bare q
    rw [mem_matchCallee_ofExtractions, mem_matchCallee_ofExtractions, symbol?, symbol?,
      symbolMap_congr same compatible]
  apply NameMap.eq_of_members
  · intro bare
    rw [contains_byName_ofExtractions, contains_byName_ofExtractions]
    exact exists_congr (callees bare)
  · exact callees

theorem ofExtractions_congr : ofExtractions xs = ofExtractions ys := by
  apply ProjectGraph.ext
  · apply NameMap.eq_of_get?
    intro path
    have files := fun items => file?_ofExtractions items path
    unfold file? at files
    rw [files, files, latest?_congr same compatible]
  · apply united_congr same ProjectGraph.imports Extraction.imports rfl
    intro graph file extraction
    rw [addFile_frame]
  · apply united_congr same ProjectGraph.exports Extraction.exports rfl
    intro graph file extraction
    rw [addFile_frame]
  · exact calls_congr same
  · apply united_congr same ProjectGraph.moduleCalls Extraction.moduleCalls rfl
    intro graph file extraction
    rw [addFile_frame]
  · exact symbolMap_congr same compatible
  · exact owned_congr same compatible
  · exact byName_congr same compatible
  · apply NameMap.eq_of_get?
    intro path
    have locals := fun items => locals?_ofExtractions items path
    unfold locals? at locals
    rw [locals, locals, latest?_congr same compatible]

end Same

/-- Two lists of the same compatible items, in any order and with repetitions, merge to one graph.
    So every query has one answer, and reach and analysis come out the same. -/
theorem merge_forgets_order (xs ys : Items) (compatible : Compatible xs)
    (same : ∀ item, item ∈ xs ↔ item ∈ ys) :
    ofExtractions xs = ofExtractions ys ∧
      (∀ index, (ofExtractions xs).reach index = (ofExtractions ys).reach index) ∧
      ∀ minLines diagnostics timestamp,
        (ofExtractions xs).analyze minLines diagnostics timestamp =
          (ofExtractions ys).analyze minLines diagnostics timestamp := by
  have graphs := ofExtractions_congr same compatible
  exact ⟨graphs, fun index => by rw [graphs], fun minLines diagnostics timestamp => by rw [graphs]⟩

/- Two files that both add to the calls of one function. -/

def runItem : SourceFile × Extraction :=
  (SourceFile.ofPath "a.py",
    { symbols := .ofList [("a.run", { name := "run", file := "a.py" })]
      calls := .ofList [("a.run", .ofList ["load"])] })

def loadItem : SourceFile × Extraction :=
  (SourceFile.ofPath "b.py",
    { symbols := .ofList [("b.load", { name := "load", file := "b.py" })]
      calls := .ofList [("a.run", .ofList ["store"])] })

theorem run_load_forget_order :
    (Compatible [runItem, loadItem] ∧
        ∀ item, item ∈ [runItem, loadItem] ↔ item ∈ [loadItem, runItem, loadItem]) ∧
      ofExtractions [runItem, loadItem] = ofExtractions [loadItem, runItem, loadItem] ∧
      (ofExtractions [runItem, loadItem]).callsOf "a.run" = .ofList ["load", "store"] := by
  have compatible : Compatible [runItem, loadItem] := by
    constructor
    · intro a ha b hb same
      rcases List.mem_pair.mp ha with rfl | rfl <;> rcases List.mem_pair.mp hb with rfl | rfl
      · rfl
      · exact absurd same (by decide)
      · exact absurd same (by decide)
      · rfl
    · intro a ha b hb q hq
      rcases List.mem_pair.mp ha with rfl | rfl <;> rcases List.mem_pair.mp hb with rfl | rfl
      · exact fun _ => rfl
      · have apart : ∀ q ∈ runItem.2.symbols.keys.names, q ∉ loadItem.2.symbols.keys := by decide
        exact fun both => absurd both (apart q hq)
      · have apart : ∀ q ∈ loadItem.2.symbols.keys.names, q ∉ runItem.2.symbols.keys := by decide
        exact fun both => absurd both (apart q hq)
      · exact fun _ => rfl
  have same : ∀ item, item ∈ [runItem, loadItem] ↔ item ∈ [loadItem, runItem, loadItem] := by
    intro item
    grind
  obtain ⟨graphs, _⟩ := merge_forgets_order _ _ compatible same
  exact ⟨⟨compatible, same⟩, graphs, by decide⟩

end DeadCode.ProjectGraph
