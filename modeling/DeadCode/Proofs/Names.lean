import DeadCode.NameMap

/- Membership in sets of names and lookup in maps from names, operation by operation. Membership
   determines a set, because there is one strictly increasing list for each. -/
namespace DeadCode

theorem nodup_of_increasing {α : Type} (key : α → String) {xs : List α}
    (sorted : xs.Pairwise (key · < key ·)) : (xs.map key).Nodup := by
  refine List.pairwise_map.mpr (sorted.imp ?_)
  intro a b less same
  exact String.lt_irrefl _ (same ▸ less)

/-- Lists that increase strictly along a key are equal when they have the same members. -/
theorem eq_of_increasing {α : Type} (key : α → String) {xs ys : List α}
    (sortedX : xs.Pairwise (key · < key ·)) (sortedY : ys.Pairwise (key · < key ·))
    (same : ∀ x, x ∈ xs ↔ x ∈ ys) : xs = ys := by
  have once : ∀ {zs : List α}, zs.Pairwise (key · < key ·) → zs.Nodup :=
    fun sorted => (List.pairwise_map.mp (nodup_of_increasing key sorted)).imp fun apart same =>
      apart (congrArg key same)
  have perm : xs.Perm ys := (List.perm_ext_iff_of_nodup (once sortedX) (once sortedY)).mpr same
  exact perm.eq_of_pairwise
    (fun _ _ _ _ ab ba => absurd (String.lt_trans ab ba) (String.lt_irrefl _)) sortedX sortedY

namespace NameSet

theorem mem_insertAll {x : String} {s : NameSet} {xs : List String} :
    x ∈ s.insertAll xs ↔ x ∈ s ∨ x ∈ xs := by
  induction xs generalizing s with
  | nil => simp [insertAll]
  | cons y rest ih =>
    change x ∈ (s.insert y).insertAll rest ↔ _
    rw [ih, mem_insert, List.mem_cons]
    constructor
    · intro h
      rcases h with (same | old) | new
      · exact .inr (.inl same)
      · exact .inl old
      · exact .inr (.inr new)
    · intro h
      rcases h with old | same | new
      · exact .inl (.inr old)
      · exact .inl (.inl same)
      · exact .inr new

@[simp] theorem mem_ofList {x : String} {xs : List String} : x ∈ ofList xs ↔ x ∈ xs := by
  have start : ¬x ∈ NameSet.empty := not_mem_empty
  rw [ofList, mem_insertAll]
  simp [start]

@[simp] theorem mem_union {x : String} {s t : NameSet} : x ∈ s ∪ t ↔ x ∈ s ∨ x ∈ t :=
  mem_insertAll

@[simp] theorem mem_getD {x : String} {old : Option NameSet} :
    x ∈ old.getD ∅ ↔ ∃ s, old = some s ∧ x ∈ s := by
  cases old <;> simp

theorem mem_filter {x : String} {p : String → Bool} {s : NameSet} :
    x ∈ s.filter p ↔ x ∈ s ∧ p x = true :=
  List.mem_filter

theorem eq_of_members {s t : NameSet} (same : ∀ x, x ∈ s ↔ x ∈ t) : s = t := by
  have names : s.names = t.names := eq_of_increasing id s.sorted t.sorted same
  cases s
  cases t
  cases names
  rfl

end NameSet

namespace NameMap

variable {α : Type} {m n : NameMap α} {key k : String}

theorem find_of_mem {entries : List (String × α)} {e : String × α}
    (sorted : entries.Pairwise (·.1 < ·.1)) (mem : e ∈ entries) :
    entries.find? (·.1 = e.1) = some e := by
  induction entries with
  | nil => cases mem
  | cons first rest ih =>
    obtain ⟨below, tail⟩ := List.pairwise_cons.mp sorted
    rcases List.mem_cons.mp mem with same | later
    · subst same
      simp
    · have differs : first.1 ≠ e.1 := fun eq => String.lt_irrefl _ (eq ▸ below e later)
      rw [List.find?_cons_of_neg (by simpa using differs)]
      exact ih tail later

def first? (entries : List (String × α)) (k : String) : Option α :=
  (entries.find? (·.1 = k)).map (·.2)

theorem first?_cons {e : String × α} {rest : List (String × α)} :
    first? (e :: rest) k = if e.1 = k then some e.2 else first? rest k := by
  by_cases same : e.1 = k <;> simp [first?, same]

theorem first?_append (xs ys : List (String × α)) :
    first? (xs ++ ys) k = (first? xs k).or (first? ys k) := by
  cases found : xs.find? (·.1 = k) <;> simp [first?, List.find?_append, found]

theorem mem_of_first? {entries : List (String × α)} {v : α} (found : first? entries k = some v) :
    (k, v) ∈ entries := by
  obtain ⟨e, first, rfl⟩ := Option.map_eq_some_iff.mp found
  have key : e.1 = k := by simpa using List.find?_some first
  exact key ▸ List.mem_of_find?_eq_some first

theorem first?_eq_none_iff {entries : List (String × α)} :
    first? entries k = none ↔ ∀ v, (k, v) ∉ entries := by
  simp only [first?, Option.map_eq_none_iff, List.find?_eq_none]
  constructor
  · intro absent v mem
    exact absent (k, v) mem (by simp)
  · intro absent h mem same
    obtain ⟨key, v⟩ := h
    have same : key = k := by simpa using same
    exact absent v (same ▸ mem)

theorem get?_eq_some_iff {v : α} : m.get? k = some v ↔ (k, v) ∈ m.entries := by
  constructor
  · exact mem_of_first?
  · intro mem
    exact Option.map_eq_some_iff.mpr ⟨_, find_of_mem m.sorted mem, rfl⟩

@[simp] theorem get?_empty : (∅ : NameMap α).get? k = none := rfl

theorem mem_placeWith {key z : String} {f : Option α → α} {v : α} {entries : List (String × α)}
    (sorted : entries.Pairwise (·.1 < ·.1)) :
    (z, v) ∈ placeWith key f entries ↔
      if z = key then v = f ((entries.find? (·.1 = key)).map (·.2)) else (z, v) ∈ entries := by
  induction entries with
  | nil => by_cases same : z = key <;> simp [placeWith, same]
  | cons e rest ih =>
    obtain ⟨below, tail⟩ := List.pairwise_cons.mp sorted
    obtain ⟨name, old⟩ := e
    have clash : ∀ value, ¬(name, value) ∈ rest := fun value mem =>
      String.lt_irrefl name (below (name, value) mem)
    simp only [placeWith]
    split
    · next lt =>
      -- The key lies below all entries, so it is not among them.
      have ne : name ≠ key := fun eq => String.lt_irrefl _ (eq ▸ lt)
      have absent : ∀ value, ¬(key, value) ∈ rest := fun value mem =>
        String.lt_irrefl _ (String.lt_trans lt (below _ mem))
      have none : rest.find? (·.1 = key) = none := by
        refine List.find?_eq_none.mpr fun entry mem => ?_
        simpa using fun eq : entry.1 = key => absent entry.2 (eq ▸ mem)
      by_cases same : z = key
      · subst same
        simp [ne, none, ne.symm, absent]
      · simp [same]
    · split
      · next eq =>
        change key = name at eq
        subst eq
        by_cases same : z = key
        · subst same
          simp [clash]
        · simp [same]
      · next ne =>
        change key ≠ name at ne
        rw [List.mem_cons, ih tail]
        by_cases same : z = key
        · subst same
          simp [ne, ne.symm]
        · simp [same]

theorem get?_alter (m : NameMap α) (key k : String) (f : Option α → α) :
    (m.alter key f).get? k = if k = key then some (f (m.get? key)) else m.get? k := by
  apply Option.ext
  intro v
  rw [get?_eq_some_iff, alter, mem_placeWith m.sorted, ← get?]
  by_cases same : k = key
  · simp [same, eq_comm]
  · simp [same, get?_eq_some_iff]

theorem get?_insert (m : NameMap α) (key k : String) (value : α) :
    (m.insert key value).get? k = if k = key then some value else m.get? k :=
  get?_alter m key k _

theorem get?_insertNew (m : NameMap α) (key k : String) (value : α) :
    (m.insertNew key value).get? k =
      if k = key then some ((m.get? key).getD value) else m.get? k :=
  get?_alter m key k _

theorem get?_foldl_insertNew (entries : List (String × α)) (m : NameMap α) (k : String) :
    (entries.foldl (fun m e => m.insertNew e.1 e.2) m).get? k = (m.get? k).or (first? entries k) := by
  induction entries generalizing m with
  | nil => simp [first?]
  | cons e rest ih =>
    rw [List.foldl_cons, ih, get?_insertNew, first?_cons]
    by_cases same : e.1 = k
    · subst same
      cases m.get? e.1 <;> simp
    · simp [same, Ne.symm same]

theorem contains_iff : m.contains k = true ↔ ∃ v, m.get? k = some v := by
  rw [contains, Option.isSome_iff_exists]

@[simp] theorem mem_keys : k ∈ m.keys ↔ ∃ v, m.get? k = some v := by
  change k ∈ m.entries.map (·.1) ↔ _
  simp [get?_eq_some_iff]

theorem mem_values {v : α} : v ∈ m.values ↔ ∃ k, m.get? k = some v := by
  simp [values, get?_eq_some_iff]

theorem contains_alter (m : NameMap α) (key k : String) (f : Option α → α) :
    (m.alter key f).contains k = true ↔ m.contains k = true ∨ k = key := by
  rw [contains, contains, get?_alter]
  by_cases same : k = key <;> simp [same]

theorem eq_of_get? (same : ∀ k, m.get? k = n.get? k) : m = n := by
  have entries : m.entries = n.entries := by
    apply eq_of_increasing (·.1) m.sorted n.sorted
    intro e
    rw [← get?_eq_some_iff, ← get?_eq_some_iff, same]
  cases m
  cases n
  cases entries
  rfl

theorem eq_of_members {m n : NameMap NameSet} (keys : ∀ k, m.contains k = true ↔ n.contains k = true)
    (members : ∀ k x, x ∈ (m.get? k).getD ∅ ↔ x ∈ (n.get? k).getD ∅) : m = n := by
  apply eq_of_get?
  intro k
  have both := keys k
  have sets : (m.get? k).getD ∅ = (n.get? k).getD ∅ := NameSet.eq_of_members (members k)
  cases left : m.get? k <;> cases right : n.get? k <;> simp_all [contains]

def filterKeys (p : String → Bool) (m : NameMap α) : NameMap α :=
  ⟨m.entries.filter fun e => p e.1, m.sorted.filter _⟩

theorem get?_filterKeys (p : String → Bool) (m : NameMap α) (k : String) :
    (m.filterKeys p).get? k = if p k then m.get? k else none := by
  apply Option.ext
  intro v
  rw [get?_eq_some_iff, filterKeys, List.mem_filter, ← get?_eq_some_iff, and_comm]
  split <;> simp [*]

/-- The first entry from a bound on has the least of the keys that are not below the bound. -/
theorem firstFrom?_eq_some_iff {bound : String} {v : α} :
    m.firstFrom? bound = some (k, v) ↔
      m.get? k = some v ∧ ¬k < bound ∧ ∀ key ∈ m.keys, ¬key < bound → ¬key < k := by
  have least : ∀ {k v}, m.firstFrom? bound = some (k, v) →
      m.get? k = some v ∧ ¬k < bound ∧ ∀ key ∈ m.keys, ¬key < bound → ¬key < k := by
    intro k v found
    obtain ⟨holds, before, after, split, skipped⟩ := List.find?_eq_some_iff_append.mp found
    have sorted := m.sorted
    rw [split] at sorted
    obtain ⟨_, ordered, _⟩ := List.pairwise_append.mp sorted
    obtain ⟨later, _⟩ := List.pairwise_cons.mp ordered
    refine ⟨get?_eq_some_iff.mpr (split ▸ by simp), by simpa using holds, ?_⟩
    intro key hk above below
    obtain ⟨value, entry⟩ := mem_keys.mp hk
    rw [get?_eq_some_iff, split, List.mem_append, List.mem_cons] at entry
    rcases entry with early | same | late
    · exact above (by simpa using skipped _ early)
    · cases same
      exact String.lt_irrefl _ below
    · exact String.lt_irrefl _ (String.lt_trans below (later _ late))
  constructor
  · exact least
  · intro h
    obtain ⟨value, above, minimal⟩ := h
    cases found : m.firstFrom? bound with
    | none =>
      have all := List.find?_eq_none.mp found (k, v) (get?_eq_some_iff.mp value)
      exact absurd (by simpa using all) above
    | some e =>
      obtain ⟨key, other⟩ := e
      obtain ⟨entry, from_bound, first⟩ := least found
      have up : ¬key < k := minimal key (mem_keys.mpr ⟨other, entry⟩) from_bound
      have down : ¬k < key := first k (mem_keys.mpr ⟨v, value⟩) above
      have same : key = k := String.le_antisymm (String.not_lt.mp down) (String.not_lt.mp up)
      subst same
      rw [value] at entry
      cases entry
      rfl

theorem firstFrom?_eq_none_iff {bound : String} :
    m.firstFrom? bound = none ↔ ∀ key ∈ m.keys, key < bound := by
  constructor
  · intro absent key hk
    obtain ⟨value, entry⟩ := mem_keys.mp hk
    simpa using List.find?_eq_none.mp absent _ (get?_eq_some_iff.mp entry)
  · intro below
    refine List.find?_eq_none.mpr ?_
    intro h entry
    obtain ⟨key, value⟩ := h
    simpa using below key (mem_keys.mpr ⟨value, get?_eq_some_iff.mpr entry⟩)

end NameMap
end DeadCode
