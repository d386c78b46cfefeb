import DeadCode.Text

/- Laws of cutting and joining texts. Cutting undoes joining when no part holds the separator, so
   joined texts extend each other exactly as their lists of parts do. -/
namespace DeadCode.Text

variable {s t front back : String} {sep : Char} {parts xs ys : List String}

theorem dropEnding?_eq_some_iff : dropEnding? s back = some front ↔ s = front ++ back := by
  have ending : endsWith s back = true ↔ back.toList <:+ s.toList := List.isSuffixOf_iff_suffix
  unfold dropEnding?
  constructor
  · intro found
    split at found
    · next holds =>
      obtain ⟨rest, eq⟩ := ending.mp holds
      cases found
      apply String.ext
      rw [← eq]
      simp
    · cases found
  · intro h
    subst h
    have holds : endsWith (front ++ back) back = true :=
      ending.mpr ⟨front.toList, String.toList_append.symm⟩
    simp [holds]

theorem endsWith_iff : endsWith s back = true ↔ ∃ front, s = front ++ back := by
  rw [endsWith, List.isSuffixOf_iff_suffix]
  constructor
  · intro h
    obtain ⟨front, eq⟩ := h
    exact ⟨String.ofList front, String.ext (by simp [← eq])⟩
  · intro h
    obtain ⟨front, rfl⟩ := h
    exact ⟨front.toList, String.toList_append.symm⟩

theorem toList_join (sep : Char) (parts : List String) :
    (join sep parts).toList = [sep].intercalate (parts.map String.toList) := by
  rw [join, String.toList_ofList]

@[simp] theorem join_singleton (sep : Char) (part : String) : join sep [part] = part := by
  apply String.ext
  rw [toList_join]
  simp

theorem segments_join (nonempty : parts ≠ []) (free : ∀ part ∈ parts, sep ∉ part.toList) :
    segments sep (join sep parts) = parts := by
  rw [segments, toList_join, List.splitOn_intercalate]
  · simp
  · intro chars hc
    obtain ⟨part, hp, rfl⟩ := List.mem_map.mp hc
    exact free part hp
  · simpa using nonempty

theorem segments_ne_nil (sep : Char) (s : String) : segments sep s ≠ [] := by
  simp [segments]

@[simp] theorem join_segments (sep : Char) (s : String) : join sep (segments sep s) = s := by
  apply String.ext
  rw [toList_join, segments, List.map_map]
  have back : String.toList ∘ String.ofList = id := by
    funext chars
    exact String.toList_ofList
  rw [back, List.map_id, List.intercalate_splitOn]

theorem sep_not_mem_splitOn {chars piece : List Char} (mem : piece ∈ chars.splitOn sep) :
    sep ∉ piece := by
  induction chars generalizing piece with
  | nil =>
    simp only [List.splitOn_nil, List.mem_singleton] at mem
    subst mem
    exact List.not_mem_nil
  | cons c rest ih =>
    rw [List.splitOn_cons_eq_if_modifyHead] at mem
    split at mem
    · rcases List.mem_cons.mp mem with empty | later
      · subst empty
        exact List.not_mem_nil
      · exact ih later
    · next differs =>
      obtain ⟨first, others, cut⟩ := List.exists_cons_of_ne_nil (List.splitOn_ne_nil sep rest)
      rw [cut] at mem ih
      rcases List.mem_cons.mp mem with grown | later
      · subst grown
        have other : ¬sep = c := fun eq => differs (by simp [eq])
        have old := ih List.mem_cons_self
        simp [other, old]
      · exact ih (List.mem_cons_of_mem _ later)

theorem sep_not_mem_segments {part : String} (mem : part ∈ segments sep s) : sep ∉ part.toList := by
  obtain ⟨chars, hc, rfl⟩ := List.mem_map.mp mem
  rw [String.toList_ofList]
  exact sep_not_mem_splitOn hc

theorem segments_append (sep : Char) (s t : String) :
    segments sep (s ++ String.singleton sep ++ t) = segments sep s ++ segments sep t := by
  simp only [segments, String.toList_append, String.toList_singleton, List.append_assoc,
    List.singleton_append, List.splitOn_append_cons_self, List.map_append]

theorem join_injective (nonemptyX : xs ≠ []) (nonemptyY : ys ≠ [])
    (freeX : ∀ part ∈ xs, sep ∉ part.toList) (freeY : ∀ part ∈ ys, sep ∉ part.toList)
    (same : join sep xs = join sep ys) : xs = ys := by
  rw [← segments_join nonemptyX freeX, same, segments_join nonemptyY freeY]

theorem toList_join_append (nonemptyX : xs ≠ []) (nonemptyY : ys ≠ []) :
    (join sep (xs ++ ys)).toList = (join sep xs).toList ++ sep :: (join sep ys).toList := by
  induction xs with
  | nil => contradiction
  | cons x rest ih =>
    simp only [toList_join] at ih ⊢
    cases rest with
    | nil => simp [List.intercalate_cons_of_ne_nil, nonemptyY]
    | cons y rest =>
      have tail := ih (List.cons_ne_nil _ _)
      simp only [List.cons_append, List.map_cons, List.intercalate_cons_cons,
        List.append_assoc] at tail ⊢
      rw [tail]

theorem join_append (nonemptyX : xs ≠ []) (nonemptyY : ys ≠ []) :
    join sep (xs ++ ys) = join sep xs ++ String.singleton sep ++ join sep ys := by
  apply String.ext
  rw [toList_join_append nonemptyX nonemptyY]
  simp

theorem other_of_free {chars : List Char} (free : sep ∉ chars) :
    ∀ c ∈ chars.reverse, (c != sep) = true := by
  intro c hc
  have other : c ≠ sep := fun same => free (same ▸ List.mem_reverse.mp hc)
  simpa using other

theorem splitLast?_of_free (free : sep ∉ s.toList) : splitLast? sep s = none := by
  have passed : (s.toList.reverse ++ []).dropWhile (· != sep) = [] :=
    List.dropWhile_append_of_pos (other_of_free free)
  rw [List.append_nil] at passed
  rw [splitLast?, passed]

theorem splitLast?_append (front : String) (free : sep ∉ back.toList) :
    splitLast? sep (front ++ String.singleton sep ++ back) = some (front, back) := by
  have reversed : (front ++ String.singleton sep ++ back).toList.reverse =
      back.toList.reverse ++ sep :: front.toList.reverse := by simp
  rw [splitLast?, reversed, List.dropWhile_append_of_pos (other_of_free free),
    List.takeWhile_append_of_pos (other_of_free free)]
  simp

theorem eq_of_splitLast? (parted : splitLast? sep s = some (front, back)) :
    s = front ++ String.singleton sep ++ back ∧ sep ∉ back.toList := by
  by_cases mem : sep ∈ s.toList
  · obtain ⟨after, before, reversed, free⟩ :=
      List.eq_append_cons_of_mem (List.mem_reverse.mpr mem)
    have whole : s = String.ofList before.reverse ++ String.singleton sep ++
        String.ofList after.reverse := by
      apply String.ext
      rw [← List.reverse_reverse s.toList, reversed]
      simp
    have free : sep ∉ (String.ofList after.reverse).toList := by simpa using free
    have again := splitLast?_append (String.ofList before.reverse) free
    rw [← whole, parted] at again
    cases again
    exact ⟨whole, free⟩
  · rw [splitLast?_of_free mem] at parted
    cases parted

theorem join_extends_iff (nonemptyX : xs ≠ []) (nonemptyY : ys ≠ [])
    (freeX : ∀ part ∈ xs, sep ∉ part.toList) (freeY : ∀ part ∈ ys, sep ∉ part.toList) :
    (join sep xs).toList ++ [sep] <+: (join sep ys).toList ↔ ∃ rest, rest ≠ [] ∧ ys = xs ++ rest := by
  constructor
  · intro h
    obtain ⟨chars, eq⟩ := h
    refine ⟨segments sep (String.ofList chars), segments_ne_nil _ _, ?_⟩
    calc ys = segments sep (join sep ys) := (segments_join nonemptyY freeY).symm
      _ = segments sep (join sep xs) ++ segments sep (String.ofList chars) := by
        rw [segments, ← eq, List.append_assoc, List.singleton_append,
          List.splitOn_append_cons_self, List.map_append, segments, segments, String.toList_ofList]
      _ = xs ++ segments sep (String.ofList chars) := by rw [segments_join nonemptyX freeX]
  · intro h
    obtain ⟨rest, nonempty, rfl⟩ := h
    refine ⟨(join sep rest).toList, ?_⟩
    rw [toList_join_append nonemptyX nonempty]
    simp

theorem replaceChar_join {new : Char} (free : ∀ part ∈ parts, sep ∉ part.toList) :
    replaceChar sep new (join sep parts) = join new parts := by
  apply String.ext
  rw [replaceChar, String.toList_ofList]
  induction parts with
  | nil => rfl
  | cons part rest ih =>
    have kept : (part.toList.map fun c => if c = sep then new else c) = part.toList := by
      refine (List.map_congr_left fun c hc => ?_).trans (List.map_id _)
      exact if_neg fun eq : c = sep => free part List.mem_cons_self (eq ▸ hc)
    cases rest with
    | nil => simp [kept]
    | cons next rest =>
      have tail := ih fun other ho => free other (List.mem_cons_of_mem _ ho)
      simp only [toList_join, List.map_cons, List.intercalate_cons_cons, List.map_append,
        List.map_nil, if_pos] at tail ⊢
      rw [kept, tail]

theorem mem_fronts {α : Type} {xs front : List α} :
    front ∈ fronts xs ↔ front ≠ [] ∧ front <+: xs := by
  induction xs generalizing front with
  | nil => simp [fronts]
  | cons x rest ih =>
    cases front with
    | nil => simp [fronts]
    | cons y tail =>
      simp only [fronts, List.mem_cons, List.mem_map, ih, List.cons.injEq, List.cons_prefix_cons]
      constructor
      · intro h
        rcases h with ⟨rfl, rfl⟩ | ⟨inner, ⟨_, ext⟩, rfl, rfl⟩
        · simp
        · exact ⟨List.cons_ne_nil _ _, rfl, ext⟩
      · intro h
        obtain ⟨_, rfl, ext⟩ := h
        by_cases empty : tail = []
        · exact .inl ⟨rfl, empty⟩
        · exact .inr ⟨tail, ⟨empty, ext⟩, rfl, rfl⟩

theorem fronts_dropLast {α : Type} (xs : List α) : (fronts xs).dropLast = fronts xs.dropLast := by
  induction xs with
  | nil => rfl
  | cons x rest ih =>
    cases rest with
    | nil => rfl
    | cons y rest =>
      have tail : fronts (y :: rest) ≠ [] := List.cons_ne_nil _ _
      rw [fronts, List.dropLast_cons_of_ne_nil (by simpa using tail), ← List.map_dropLast, ih]
      rfl

theorem prefix_of_between {front low high : List Char} (above : ¬low < front) (below : ¬high < low)
    (shared : front <+: high) : front <+: low := by
  induction front generalizing low high with
  | nil => exact List.nil_prefix
  | cons c front ih =>
    obtain ⟨rest, rfl⟩ := shared
    cases low with
    | nil => exact absurd (List.nil_lt_cons c front) above
    | cons d low =>
      simp only [List.cons_append, List.cons_lt_cons_iff, not_or, not_and] at above below
      have same : c = d := Char.le_antisymm (Char.not_lt.mp above.1) (Char.not_lt.mp below.1)
      subst same
      exact List.cons_prefix_cons.mpr
        ⟨rfl, ih (above.2 rfl) (below.2 rfl) (List.prefix_append front rest)⟩

theorem not_lt_of_startsWith (shared : startsWith s front = true) : ¬s < front :=
  (List.isPrefixOf_iff_prefix.mp shared).le

/-- Texts that share a front are neighbours: what lies between such a text and the front itself
    has that front too. -/
theorem startsWith_of_between (above : ¬s < front) (below : ¬t < s)
    (shared : startsWith t front = true) : startsWith s front = true :=
  List.isPrefixOf_iff_prefix.mpr
    (prefix_of_between above below (List.isPrefixOf_iff_prefix.mp shared))

end DeadCode.Text
