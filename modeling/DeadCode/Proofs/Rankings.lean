import DeadCode.Classify

/- Stable sorting by several keys. Orders that are consistent one by one stay so when they are used
   in turn, and leaving values out before or after sorting gives the same list. -/
namespace DeadCode

namespace Ranking

variable {α : Type} {orders : List (α → α → Ordering)}

instance : Std.TransCmp text :=
  Std.TransOrd.compareOfLessAndEq_of_antisymm_of_trans_of_total_of_not_le
    String.le_antisymm String.le_trans String.le_total String.not_le

theorem trans_of_key {β : Type} (key : β → α) {order : α → α → Ordering}
    (lawful : Std.TransCmp order) : Std.TransCmp fun a b => order (key a) (key b) where
  eq_swap := lawful.eq_swap
  isLE_trans := lawful.isLE_trans

theorem optional_trans {order : α → α → Ordering} (lawful : Std.TransCmp order) :
    Std.TransCmp (optional order) where
  eq_swap := by
    intro a b
    cases a <;> cases b
    · rfl
    · rfl
    · rfl
    · exact lawful.eq_swap
  isLE_trans := by
    intro a b c ab bc
    match a, b, c with
    | none, _, none => rfl
    | none, _, some _ => rfl
    | some _, none, _ => cases ab
    | some _, some _, none => cases bc
    | some _, some _, some _ => exact lawful.isLE_trans ab bc

theorem firstOf_trans (lawful : ∀ order ∈ orders, Std.TransCmp order) :
    Std.TransCmp (firstOf orders) := by
  induction orders with
  | nil => exact { eq_swap := rfl, isLE_trans := fun _ _ => rfl }
  | cons order rest ih =>
    have first : Std.TransCmp order := lawful order List.mem_cons_self
    have others : Std.TransCmp (firstOf rest) := ih fun o ho => lawful o (List.mem_cons_of_mem _ ho)
    exact inferInstanceAs (Std.TransCmp (compareLex order (firstOf rest)))

theorem firstOf_cons_ne_gt {order : α → α → Ordering} {a b : α} :
    firstOf (order :: orders) a b ≠ .gt ↔
      order a b = .lt ∨ order a b = .eq ∧ firstOf orders a b ≠ .gt := by
  cases first : order a b <;> simp [firstOf, first]

theorem text_eq_lt_iff {a b : String} : text a b = .lt ↔ a < b := by
  unfold text
  split
  · next below => simp [below]
  · next notBelow => split <;> simp [notBelow]

theorem text_eq_eq_iff {a b : String} : text a b = .eq ↔ a = b := by
  unfold text
  split
  · next below =>
    have differ : a ≠ b := fun same => String.lt_irrefl b (same ▸ below)
    simp [differ]
  · split <;> simp [*]

theorem text_ne_gt_iff {a b : String} : text a b ≠ .gt ↔ a ≤ b := by
  rw [← String.not_lt, ← text_eq_lt_iff, ne_eq, Std.OrientedCmp.gt_iff_lt]

@[simp] theorem mem_sort {x : α} {xs : List α} : x ∈ sort orders xs ↔ x ∈ xs := List.mem_mergeSort

section Lawful

variable (lawful : ∀ order ∈ orders, Std.TransCmp order)
include lawful

theorem notAbove_trans (a b c : α) (ab : (firstOf orders a b != .gt) = true)
    (bc : (firstOf orders b c != .gt) = true) : (firstOf orders a c != .gt) = true := by
  have cmp := firstOf_trans lawful
  have isLE : ∀ a b, (firstOf orders a b != .gt) = (firstOf orders a b).isLE := by
    intro a b
    cases firstOf orders a b <;> rfl
  rw [isLE] at ab bc ⊢
  exact Std.TransCmp.isLE_trans ab bc

theorem notAbove_total (a b : α) :
    (firstOf orders a b != .gt || firstOf orders b a != .gt) = true := by
  have cmp := firstOf_trans lawful
  have swap : firstOf orders a b = (firstOf orders b a).swap := cmp.eq_swap
  cases other : firstOf orders b a <;> simp [swap, other]

theorem sort_ordered (xs : List α) :
    (sort orders xs).Pairwise fun a b => firstOf orders a b ≠ .gt := by
  have sorted := List.pairwise_mergeSort (notAbove_trans lawful) (notAbove_total lawful) xs
  apply sorted.imp
  intro a b notAbove
  simpa using notAbove

/-- A value is sorted in behind the values that it exceeds and before all others. -/
theorem exists_sort_cons (x : α) (xs : List α) :
    ∃ left right, sort orders (x :: xs) = left ++ x :: right ∧ sort orders xs = left ++ right ∧
      (∀ y ∈ left, firstOf orders x y = .gt) ∧ ∀ y ∈ right, firstOf orders x y ≠ .gt := by
  obtain ⟨left, right, whole, rest, low⟩ :=
    List.mergeSort_cons (notAbove_trans lawful) (notAbove_total lawful) x xs
  have sorted := sort_ordered lawful (x :: xs)
  rw [sort, whole] at sorted
  have later := (List.pairwise_cons.mp (List.pairwise_append.mp sorted).2.1).1
  exact ⟨left, right, whole, rest, by simpa using low, later⟩

end Lawful

theorem split_unique {P : α → Prop} {left right left' right' : List α}
    (same : left ++ right = left' ++ right') (low : ∀ y ∈ left, P y) (high : ∀ y ∈ right, ¬P y)
    (low' : ∀ y ∈ left', P y) (high' : ∀ y ∈ right', ¬P y) : left = left' ∧ right = right' := by
  rcases List.append_eq_append_iff.mp same with ⟨middle, rfl, rfl⟩ | ⟨middle, rfl, rfl⟩
  · have empty : middle = [] := List.eq_nil_iff_forall_not_mem.mpr fun y hy =>
      high y (List.mem_append_left _ hy) (low' y (List.mem_append_right _ hy))
    simp [empty]
  · have empty : middle = [] := List.eq_nil_iff_forall_not_mem.mpr fun y hy =>
      high' y (List.mem_append_left _ hy) (low y (List.mem_append_right _ hy))
    simp [empty]

theorem sort_filter (lawful : ∀ order ∈ orders, Std.TransCmp order) (p : α → Bool) (xs : List α) :
    sort orders (xs.filter p) = (sort orders xs).filter p := by
  induction xs with
  | nil => simp [sort]
  | cons x xs ih =>
    obtain ⟨left, right, whole, rest, low, high⟩ := exists_sort_cons lawful x xs
    have kept : sort orders (xs.filter p) = left.filter p ++ right.filter p := by
      rw [ih, rest, List.filter_append]
    rw [whole, List.filter_append]
    by_cases keep : p x = true
    · -- The value goes to the same place among the values that are kept.
      obtain ⟨left', right', whole', rest', low', high'⟩ := exists_sort_cons lawful x (xs.filter p)
      obtain ⟨rfl, rfl⟩ := split_unique (rest'.symm.trans kept) low' high'
        (fun y hy => low y (List.mem_filter.mp hy).1) (fun y hy => high y (List.mem_filter.mp hy).1)
      rw [List.filter_cons_of_pos keep, List.filter_cons_of_pos keep, whole']
    · rw [List.filter_cons_of_neg keep, List.filter_cons_of_neg keep, kept]

end Ranking

namespace Classify

instance : Std.TransCmp byLinesDown where
  eq_swap := by
    intro a b
    exact Nat.compare_swap a.lines b.lines |>.symm
  isLE_trans := by
    intro a b c ab bc
    simp only [byLinesDown, Nat.isLE_compare] at ab bc ⊢
    omega

instance : Std.TransCmp byFile :=
  Ranking.trans_of_key Finding.file (inferInstanceAs (Std.TransCmp Ranking.text))

instance : Std.TransCmp byLine :=
  Ranking.trans_of_key Finding.line (Ranking.optional_trans inferInstance)

instance : Std.TransCmp byName :=
  Ranking.trans_of_key Finding.name (Ranking.optional_trans inferInstance)

theorem lawful_deadFiles : ∀ order ∈ [byLinesDown, byFile], Std.TransCmp order := by
  intro order mem
  simp only [List.mem_cons, List.not_mem_nil, or_false] at mem
  rcases mem with rfl | rfl <;> infer_instance

theorem lawful_deadFunctions : ∀ order ∈ [byLinesDown, byFile, byLine], Std.TransCmp order := by
  intro order mem
  simp only [List.mem_cons, List.not_mem_nil, or_false] at mem
  rcases mem with rfl | rfl | rfl <;> infer_instance

theorem lawful_unusedImports : ∀ order ∈ [byFile, byLine, byName], Std.TransCmp order := by
  intro order mem
  simp only [List.mem_cons, List.not_mem_nil, or_false] at mem
  rcases mem with rfl | rfl | rfl <;> infer_instance

end Classify
end DeadCode
