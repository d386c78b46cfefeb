/- Finite sets of names, kept strictly increasing. A set has one representation, so sets with the
   same members are equal, and listing a set gives its names in code point order. -/
namespace DeadCode

structure NameSet where
  names : List String
  sorted : names.Pairwise (· < ·)
  deriving DecidableEq

namespace NameSet

def empty : NameSet := ⟨[], .nil⟩

instance : EmptyCollection NameSet := ⟨empty⟩
instance : Inhabited NameSet := ⟨empty⟩
instance : Membership String NameSet := ⟨fun s x => x ∈ s.names⟩
instance (x : String) (s : NameSet) : Decidable (x ∈ s) := inferInstanceAs (Decidable (x ∈ s.names))

def place (x : String) : List String → List String
  | [] => [x]
  | y :: rest => if x < y then x :: y :: rest else if x = y then y :: rest else y :: place x rest

theorem mem_place {x z : String} {names : List String} :
    z ∈ place x names ↔ z = x ∨ z ∈ names := by
  induction names with
  | nil => simp [place]
  | cons y rest ih =>
    simp only [place]
    split
    · simp
    · split
      · next h => subst h; simp
      · simp only [List.mem_cons, ih]
        constructor
        · rintro (h | h | h) <;> simp [h]
        · rintro (h | h | h) <;> simp [h]

theorem lt_of_not_lt_of_ne {x y : String} (lt : ¬x < y) (ne : x ≠ y) : y < x := by
  refine Decidable.byContradiction fun h => ne ?_
  exact String.le_antisymm (String.not_lt.mp h) (String.not_lt.mp lt)

theorem place_sorted {x : String} {names : List String} (h : names.Pairwise (· < ·)) :
    (place x names).Pairwise (· < ·) := by
  induction names with
  | nil => simp [place]
  | cons y rest ih =>
    have ⟨below, tail⟩ := List.pairwise_cons.mp h
    simp only [place]
    split
    · next lt =>
      refine List.pairwise_cons.mpr ⟨?_, h⟩
      intro z hz
      rcases List.mem_cons.mp hz with rfl | hz
      · exact lt
      · exact String.lt_trans lt (below z hz)
    · next lt =>
      split
      · exact h
      · next ne =>
        refine List.pairwise_cons.mpr ⟨?_, ih tail⟩
        intro z hz
        rcases mem_place.mp hz with rfl | hz
        · exact lt_of_not_lt_of_ne lt ne
        · exact below z hz

def insert (s : NameSet) (x : String) : NameSet := ⟨place x s.names, place_sorted s.sorted⟩

def insertAll (s : NameSet) (xs : List String) : NameSet := xs.foldl insert s

def ofList (xs : List String) : NameSet := empty.insertAll xs

def union (s t : NameSet) : NameSet := s.insertAll t.names

instance : Union NameSet := ⟨union⟩

def toList (s : NameSet) : List String := s.names

def contains (s : NameSet) (x : String) : Bool := decide (x ∈ s)

def size (s : NameSet) : Nat := s.names.length

def filter (p : String → Bool) (s : NameSet) : NameSet :=
  ⟨s.names.filter p, s.sorted.filter p⟩

@[simp] theorem mem_names {x : String} {s : NameSet} : x ∈ s.names ↔ x ∈ s := Iff.rfl

@[simp] theorem mem_toList {x : String} {s : NameSet} : x ∈ s.toList ↔ x ∈ s := Iff.rfl

@[simp] theorem not_mem_empty {x : String} : ¬x ∈ (∅ : NameSet) := List.not_mem_nil

@[simp] theorem mem_insert {x y : String} {s : NameSet} : x ∈ s.insert y ↔ x = y ∨ x ∈ s := mem_place

@[simp] theorem contains_iff {x : String} {s : NameSet} : s.contains x = true ↔ x ∈ s := by
  simp [contains]

end NameSet
end DeadCode
