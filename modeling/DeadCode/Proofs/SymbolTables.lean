import DeadCode.Proofs.Merge
import DeadCode.Proofs.Texts

/- The three tables of symbols in a merged graph. A qualified name belongs to one path, that of the
   first item that brings it, and keeps the symbol of that item; the tables by path and by short name
   say the same as the table of symbols. Looking a bare call up by short name then gives what a scan
   of all qualified names for that ending would give. -/
namespace DeadCode.ProjectGraph

variable {items : Items} {item : SourceFile × Extraction} {graph : ProjectGraph} {symbol : Symbol}
variable {q bare path : String}

/-- No earlier item defines the name, and this one defines it as the symbol. -/
def BroughtBy (items : Items) (q : String) (item : SourceFile × Extraction) (symbol : Symbol) :
    Prop :=
  ∃ earlier later, items = earlier ++ item :: later ∧
    (∀ other ∈ earlier, other.2.symbols.get? q = none) ∧ item.2.symbols.get? q = some symbol

structure SymbolTables (items : Items) (graph : ProjectGraph) : Prop where
  stored : ∀ q symbol, graph.symbol? q = some symbol ↔ ∃ item, BroughtBy items q item symbol
  known : ∀ path, ∀ q ∈ graph.ownedBy path, ∃ symbol, graph.symbol? q = some symbol
  owner : ∀ q item symbol, BroughtBy items q item symbol →
    ∀ path, q ∈ graph.ownedBy path ↔ path = item.1.relPath
  listed : ∀ path, graph.symbolsIn path =
    graph.symbols.filter fun entry => (graph.ownedBy path).contains entry.1
  named : ∀ bare q, q ∈ graph.matchCallee bare ↔
    ∃ symbol, graph.symbol? q = some symbol ∧ symbol.name = bare

def lastSegment (q : String) : String :=
  (Text.segments '.' q).getLast (Text.segments_ne_nil '.' q)

def ShortNamed (items : Items) : Prop :=
  ∀ item ∈ items, ∀ entry ∈ item.2.symbols.toList, entry.2.name = lastSegment entry.1

instance (items : Items) : Decidable (ShortNamed items) :=
  inferInstanceAs (Decidable (∀ item ∈ items, ∀ entry ∈ item.2.symbols.toList, _))

def suffixMatches (graph : ProjectGraph) (bare : String) : NameSet :=
  graph.symbolMap.keys.filter fun q => q == bare || Text.endsWith q ("." ++ bare)

/- Owners. -/

theorem broughtBy_iff :
    BroughtBy items q item symbol ↔
      provider? items q = some item ∧ item.2.symbols.get? q = some symbol := by
  have unseen : ∀ other : SourceFile × Extraction,
      (!other.2.symbols.contains q) = true ↔ other.2.symbols.get? q = none := by
    intro other
    simp [NameMap.contains]
  constructor
  · intro h
    obtain ⟨earlier, later, split, absent, defines⟩ := h
    refine ⟨List.find?_eq_some_iff_append.mpr ⟨?_, earlier, later, split, ?_⟩, defines⟩
    · exact NameMap.contains_iff.mpr ⟨symbol, defines⟩
    · exact fun other ho => (unseen other).mpr (absent other ho)
  · intro h
    obtain ⟨first, defines⟩ := h
    obtain ⟨_, earlier, later, split, absent⟩ := List.find?_eq_some_iff_append.mp first
    exact ⟨earlier, later, split, fun other ho => (unseen other).mp (absent other ho), defines⟩

theorem symbol?_iff_broughtBy :
    (ofExtractions items).symbol? q = some symbol ↔ ∃ item, BroughtBy items q item symbol := by
  simp only [symbol?_ofExtractions, Option.bind_eq_some_iff, broughtBy_iff]

theorem mem_ownedBy_iff_of_broughtBy (brought : BroughtBy items q item symbol) :
    q ∈ (ofExtractions items).ownedBy path ↔ path = item.1.relPath := by
  rw [mem_ownedBy_ofExtractions, (broughtBy_iff.mp brought).1]
  constructor
  · intro h
    obtain ⟨_, same, at_path⟩ := h
    cases same
    exact at_path
  · intro at_path
    exact ⟨item, rfl, at_path⟩

theorem known_of_mem_ownedBy (owned : q ∈ (ofExtractions items).ownedBy path) :
    ∃ symbol, (ofExtractions items).symbol? q = some symbol := by
  obtain ⟨item, provided, _⟩ := mem_ownedBy_ofExtractions.mp owned
  obtain ⟨symbol, defines⟩ := NameMap.contains_iff.mp (mem_of_provider? provided).2
  exact ⟨symbol, symbol?_iff_broughtBy.mpr ⟨item, broughtBy_iff.mpr ⟨provided, defines⟩⟩⟩

theorem symbolsIn_eq_filter (graph : ProjectGraph) (path : String) :
    graph.symbolsIn path =
      graph.symbols.filter fun entry => (graph.ownedBy path).contains entry.1 := by
  apply eq_of_increasing (·.1)
  · refine List.pairwise_filterMap.mpr ((graph.ownedBy path).sorted.imp ?_)
    intro a b lt first hf second hs
    obtain ⟨_, _, rfl⟩ := Option.map_eq_some_iff.mp hf
    obtain ⟨_, _, rfl⟩ := Option.map_eq_some_iff.mp hs
    exact lt
  · exact graph.symbolMap.sorted.filter _
  · intro entry
    obtain ⟨q, symbol⟩ := entry
    rw [List.mem_filter, NameSet.contains_iff, symbols, NameMap.toList, ← NameMap.get?_eq_some_iff]
    simp [symbolsIn, ownedBy, symbol?, and_comm]

theorem symbolTables_ofExtractions (items : Items) : SymbolTables items (ofExtractions items) where
  stored := fun _ _ => symbol?_iff_broughtBy
  known := fun _ _ => known_of_mem_ownedBy
  owner := fun _ _ _ brought _ => mem_ownedBy_iff_of_broughtBy brought
  listed := symbolsIn_eq_filter _
  named := fun _ _ => mem_matchCallee_ofExtractions

/- Short names. -/

theorem lastSegment_of_dotFree (free : '.' ∉ bare.toList) : lastSegment bare = bare := by
  have whole : Text.segments '.' bare = [bare] := by
    have cut := Text.segments_join (List.cons_ne_nil bare []) (by simpa using free)
    rwa [Text.join_singleton] at cut
  simp [lastSegment, whole]

theorem lastSegment_append (front : String) (free : '.' ∉ bare.toList) :
    lastSegment (front ++ "." ++ bare) = bare := by
  have cut : Text.segments '.' (front ++ "." ++ bare) =
      Text.segments '.' front ++ Text.segments '.' bare := Text.segments_append '.' front bare
  simp only [lastSegment, cut]
  rw [List.getLast_append_right (Text.segments_ne_nil '.' bare)]
  exact lastSegment_of_dotFree free

theorem eq_lastSegment_or (q : String) :
    q = lastSegment q ∨ ∃ front, q = front ++ "." ++ lastSegment q := by
  have split : (Text.segments '.' q).dropLast ++ [lastSegment q] = Text.segments '.' q :=
    List.dropLast_concat_getLast _
  have whole : q = Text.join '.' ((Text.segments '.' q).dropLast ++ [lastSegment q]) := by
    rw [split, Text.join_segments]
  by_cases empty : (Text.segments '.' q).dropLast = []
  · rw [empty, List.nil_append, Text.join_singleton] at whole
    exact .inl whole
  · refine .inr ⟨Text.join '.' (Text.segments '.' q).dropLast, ?_⟩
    conv_lhs => rw [whole]
    apply String.ext
    rw [Text.toList_join_append empty (List.cons_ne_nil _ _)]
    simp

theorem lastSegment_eq_iff (free : '.' ∉ bare.toList) :
    lastSegment q = bare ↔ q = bare ∨ Text.endsWith q ("." ++ bare) = true := by
  rw [Text.endsWith_iff]
  constructor
  · intro last
    rcases eq_lastSegment_or q with whole | ⟨front, whole⟩
    · exact .inl (whole.trans last)
    · exact .inr ⟨front, by rw [← String.append_assoc, ← last]; exact whole⟩
  · intro h
    rcases h with rfl | ⟨front, rfl⟩
    · exact lastSegment_of_dotFree free
    · rw [← String.append_assoc]
      exact lastSegment_append front free

theorem ShortNamed.name_eq (short : ShortNamed items)
    (known : (ofExtractions items).symbol? q = some symbol) : symbol.name = lastSegment q := by
  obtain ⟨item, brought⟩ := symbol?_iff_broughtBy.mp known
  obtain ⟨provided, defines⟩ := broughtBy_iff.mp brought
  exact short item (mem_of_provider? provided).1 (q, symbol) (NameMap.get?_eq_some_iff.mp defines)

theorem matchCallee_eq_suffixMatches (short : ShortNamed items) (free : '.' ∉ bare.toList) :
    (ofExtractions items).matchCallee bare = (ofExtractions items).suffixMatches bare := by
  apply NameSet.eq_of_members
  intro q
  have scanned : q ∈ (ofExtractions items).suffixMatches bare ↔
      q ∈ (ofExtractions items).symbolMap.keys ∧
        (q = bare ∨ Text.endsWith q ("." ++ bare) = true) := by
    rw [suffixMatches, NameSet.mem_filter, Bool.or_eq_true, beq_iff_eq]
  rw [scanned, ← lastSegment_eq_iff free, mem_matchCallee_ofExtractions, NameMap.mem_keys]
  constructor
  · intro h
    obtain ⟨symbol, known, named⟩ := h
    exact ⟨⟨symbol, known⟩, (short.name_eq known).symm.trans named⟩
  · intro h
    obtain ⟨⟨symbol, known⟩, last⟩ := h
    exact ⟨symbol, known, (short.name_eq known).trans last⟩

/-- After any merges, every known name belongs to exactly one path, that of the first item that
    brought it, with the symbol of that item, and the tables by path and by short name agree with the
    table of symbols. Where short names are last segments, the lookup of a bare name is the scan of
    all known names for that ending. -/
theorem symbolTables_exact (items : Items) :
    SymbolTables items (ofExtractions items) ∧
      (∀ q symbol, (ofExtractions items).symbol? q = some symbol →
        ∃! path, q ∈ (ofExtractions items).ownedBy path) ∧
      (ShortNamed items → ∀ bare, '.' ∉ bare.toList →
        (ofExtractions items).matchCallee bare = (ofExtractions items).suffixMatches bare) := by
  refine ⟨symbolTables_ofExtractions items, ?_, fun short _ => matchCallee_eq_suffixMatches short⟩
  intro q symbol known
  obtain ⟨item, brought⟩ := symbol?_iff_broughtBy.mp known
  refine ⟨item.1.relPath, (mem_ownedBy_iff_of_broughtBy brought).mpr rfl, ?_⟩
  exact fun path owned => (mem_ownedBy_iff_of_broughtBy brought).mp owned

/- Two files that both define a name, the first of them merged again with one more symbol. -/

def sharedItems : Items :=
  [(SourceFile.ofPath "a.py", { symbols := .ofList [("dup.f", { name := "f", file := "a.py" })] }),
   (SourceFile.ofPath "b.py",
    { symbols := .ofList [("dup.f", { name := "f", file := "b.py" }),
        ("b.f_two", { name := "f_two", file := "b.py" })] }),
   (SourceFile.ofPath "a.py", { symbols := .ofList [("f", { name := "f", file := "a.py" })] })]

theorem shared_symbolTables :
    ShortNamed sharedItems ∧
      (ofExtractions sharedItems).symbol? "dup.f" = some { name := "f", file := "a.py" } ∧
      (∀ path, "dup.f" ∈ (ofExtractions sharedItems).ownedBy path ↔ path = "a.py") ∧
      (ofExtractions sharedItems).matchCallee "f" =
        (ofExtractions sharedItems).suffixMatches "f" := by
  have short : ShortNamed sharedItems := by decide
  have first : BroughtBy sharedItems "dup.f" (SourceFile.ofPath "a.py", _)
      { name := "f", file := "a.py" } := ⟨[], _, rfl, by simp, by decide⟩
  obtain ⟨tables, _, scan⟩ := symbolTables_exact sharedItems
  exact ⟨short, (tables.stored _ _).mpr ⟨_, first⟩, tables.owner _ _ _ first,
    scan short "f" (by decide)⟩

end DeadCode.ProjectGraph
