import DeadCode.NameSet

/- Finite maps from names, kept strictly increasing in the key. As for sets of names there is one
   representation per map, and the entries are listed in code point order of the keys. -/
namespace DeadCode

structure NameMap (α : Type) where
  entries : List (String × α)
  sorted : entries.Pairwise (·.1 < ·.1)

namespace NameMap

variable {α β : Type}

def empty : NameMap α := ⟨[], .nil⟩

instance : EmptyCollection (NameMap α) := ⟨empty⟩
instance : Inhabited (NameMap α) := ⟨empty⟩

def placeWith (key : String) (f : Option α → α) : List (String × α) → List (String × α)
  | [] => [(key, f none)]
  | e :: rest =>
    if key < e.1 then (key, f none) :: e :: rest
    else if key = e.1 then (key, f (some e.2)) :: rest
    else e :: placeWith key f rest

theorem key_mem_placeWith {key z : String} {f : Option α → α} {v : α} {entries : List (String × α)}
    (h : (z, v) ∈ placeWith key f entries) : z = key ∨ (z, v) ∈ entries := by
  induction entries with
  | nil => simp_all [placeWith]
  | cons e rest ih =>
    simp only [placeWith] at h
    split at h
    · rcases List.mem_cons.mp h with h | h
      · exact .inl (Prod.mk.inj h).1
      · exact .inr h
    · split at h
      · rcases List.mem_cons.mp h with h | h
        · exact .inl (Prod.mk.inj h).1
        · exact .inr (List.mem_cons_of_mem _ h)
      · rcases List.mem_cons.mp h with h | h
        · exact .inr (h ▸ List.mem_cons_self)
        · exact (ih h).imp_right (List.mem_cons_of_mem _)

theorem placeWith_sorted {key : String} {f : Option α → α} {entries : List (String × α)}
    (h : entries.Pairwise (·.1 < ·.1)) : (placeWith key f entries).Pairwise (·.1 < ·.1) := by
  induction entries with
  | nil => simp [placeWith]
  | cons e rest ih =>
    have ⟨below, tail⟩ := List.pairwise_cons.mp h
    simp only [placeWith]
    split
    · next lt =>
      refine List.pairwise_cons.mpr ⟨?_, h⟩
      intro z hz
      rcases List.mem_cons.mp hz with rfl | hz
      · exact lt
      · exact String.lt_trans lt (below z hz)
    · next lt =>
      split
      · next eq => exact List.pairwise_cons.mpr ⟨fun z hz => eq ▸ below z hz, tail⟩
      · next ne =>
        refine List.pairwise_cons.mpr ⟨?_, ih tail⟩
        rintro ⟨z, v⟩ hz
        rcases key_mem_placeWith hz with rfl | hz
        · exact NameSet.lt_of_not_lt_of_ne lt ne
        · exact below _ hz

def alter (m : NameMap α) (key : String) (f : Option α → α) : NameMap α :=
  ⟨placeWith key f m.entries, placeWith_sorted m.sorted⟩

def insert (m : NameMap α) (key : String) (value : α) : NameMap α := m.alter key fun _ => value

/-- The first insertion wins. -/
def insertNew (m : NameMap α) (key : String) (value : α) : NameMap α := m.alter key (·.getD value)

def ofList (entries : List (String × α)) : NameMap α :=
  entries.foldl (fun m e => m.insert e.1 e.2) empty

def get? (m : NameMap α) (key : String) : Option α :=
  (m.entries.find? (·.1 = key)).map (·.2)

def contains (m : NameMap α) (key : String) : Bool := (m.get? key).isSome

def toList (m : NameMap α) : List (String × α) := m.entries

def keyList (m : NameMap α) : List String := m.entries.map (·.1)

def values (m : NameMap α) : List α := m.entries.map (·.2)

def size (m : NameMap α) : Nat := m.entries.length

def keys (m : NameMap α) : NameSet := ⟨m.keyList, List.pairwise_map.mpr m.sorted⟩

def firstFrom? (m : NameMap α) (bound : String) : Option (String × α) :=
  m.entries.find? fun e => ¬e.1 < bound

end NameMap
end DeadCode
