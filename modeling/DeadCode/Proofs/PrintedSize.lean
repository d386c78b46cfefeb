import Mathlib.Algebra.Order.Field.Rat
import Mathlib.Tactic.FieldSimp
import Mathlib.Tactic.Linarith
import Mathlib.Tactic.Positivity
import Mathlib.Tactic.Ring
import DeadCode.Proofs.ReportDocument
import DeadCode.Proofs.Texts
import DeadCode.Report.ByteSize

/- Sizes as readers see them. A size from a kibibyte on is the nearest tenth of its unit, and of two
   that are equally near the one with an even digit. Read back as bytes, sizes keep their order, also
   where the unit changes. -/
namespace DeadCode.Report.ByteSize

variable {n m t u k whole tenth unit : Nat} {x y : Rat} {text : String}

/-- So many tenths are as near to a number as any others are, and if others are as near they are an
    even number. -/
structure NearestTenths (t : Nat) (x : Rat) : Prop where
  nearest : ∀ k : Nat, |x - t / 10| ≤ |x - k / 10|
  even : ∀ k : Nat, k ≠ t → |x - k / 10| = |x - t / 10| → t % 2 = 0

inductive InTenths (n unit : Nat) (name : String) : String → Prop
  | mk {whole tenth : Nat} (digit : tenth < 10)
      (nearest : NearestTenths (10 * whole + tenth) (n / unit)) :
      InTenths n unit name (toString whole ++ "." ++ toString tenth ++ " " ++ name)

inductive Printed (n : Nat) : String → Prop
  | bytes (small : n < 1024) : Printed n (toString n ++ " B")
  | kibi {text : String} (medium : 1024 ≤ n ∧ n < 1048576) (tenths : InTenths n 1024 "KiB" text) :
      Printed n text
  | mebi {text : String} (large : 1048576 ≤ n) (tenths : InTenths n 1048576 "MiB" text) :
      Printed n text

def unit? : String → Option Nat
  | "B" => some 1
  | "KiB" => some 1024
  | "MiB" => some 1048576
  | _ => none

def read? (text : String) : Option Rat :=
  match DeadCode.Text.splitLast? ' ' text with
  | some (number, name) => do
    let q ← Value.decimal? number.toList
    let unit ← unit? name
    return q * unit
  | none => none

section Rounding

theorem middle_le_of_nearer (less : u < t) (near : |x - t / 10| ≤ |x - u / 10|) :
    ((t : Rat) + u) / 20 ≤ x := by
  have apart : (u : Rat) < t := Nat.cast_lt.mpr less
  rcases abs_cases (x - t / 10) with ⟨first, _⟩ | ⟨first, _⟩ <;>
    rcases abs_cases (x - u / 10) with ⟨second, _⟩ | ⟨second, _⟩ <;>
    rw [first, second] at near <;> linarith

theorem le_middle_of_nearer (less : u < t) (near : |x - u / 10| ≤ |x - t / 10|) :
    x ≤ ((t : Rat) + u) / 20 := by
  have apart : (u : Rat) < t := Nat.cast_lt.mpr less
  rcases abs_cases (x - t / 10) with ⟨first, _⟩ | ⟨first, _⟩ <;>
    rcases abs_cases (x - u / 10) with ⟨second, _⟩ | ⟨second, _⟩ <;>
    rw [first, second] at near <;> linarith

theorem equally_near_of_middle (middle : x = ((t : Rat) + u) / 20) :
    |x - t / 10| = |x - u / 10| := by
  have sides : x - t / 10 = -(x - u / 10) := by rw [middle]; ring
  rw [sides, abs_neg]

theorem NearestTenths.le (first : NearestTenths t x) (second : NearestTenths u y) (le : x ≤ y) :
    t ≤ u := by
  by_contra more
  have less : u < t := Nat.lt_of_not_le more
  have low := middle_le_of_nearer less (first.nearest u)
  have high := le_middle_of_nearer less (second.nearest t)
  -- Both are in the middle between even numbers, and the number after the lesser is nearer.
  have middle : x = ((t : Rat) + u) / 20 := by linarith
  have same : y = x := by linarith
  have tie := equally_near_of_middle middle
  have evenT := first.even u less.ne tie.symm
  have evenU := second.even t less.ne' (same ▸ tie)
  have between : u + 1 < t := by omega
  have nearer := middle_le_of_nearer between (first.nearest (u + 1))
  rw [middle] at nearer
  push_cast at nearer
  linarith

theorem NearestTenths.unique (first : NearestTenths t x) (second : NearestTenths u x) : t = u :=
  Nat.le_antisymm (first.le second le_rfl) (second.le first le_rfl)

theorem nearestTenths_of_half (half : |10 * x - t| ≤ 1 / 2)
    (even : |10 * x - t| = 1 / 2 → t % 2 = 0) : NearestTenths t x := by
  have scaled : ∀ k : Nat, |x - k / 10| = |10 * x - k| / 10 := by
    intro k
    have factored : x - k / 10 = (10 * x - k) / 10 := by ring
    rw [factored, abs_div, abs_of_pos (by norm_num : (0 : Rat) < 10)]
  have further : ∀ k : Nat, k ≠ t → 1 / 2 ≤ |10 * x - k| := by
    intro k other
    have apart : (1 : Rat) ≤ |(t : Rat) - k| := by
      rcases Nat.lt_or_gt_of_ne other with less | more
      · have step : (k : Rat) + 1 ≤ t := by exact_mod_cast less
        exact le_trans (by linarith) (le_abs_self _)
      · have step : (t : Rat) + 1 ≤ k := by exact_mod_cast more
        exact le_trans (by linarith) (neg_le_abs _)
    have way := abs_sub_le (t : Rat) (10 * x) k
    rw [abs_sub_comm (t : Rat) (10 * x)] at way
    linarith
  constructor
  · intro k
    rw [scaled, scaled]
    by_cases same : k = t
    · rw [same]
    · have := further k same
      linarith
  · intro k other tie
    rw [scaled, scaled] at tie
    exact even (le_antisymm half (by have := further k other; linarith))

theorem nearestTenths_self (k : Nat) : NearestTenths (10 * k) k := by
  have zero : 10 * (k : Rat) - (10 * k : Nat) = 0 := by push_cast; ring
  apply nearestTenths_of_half <;> rw [zero, abs_zero] <;> norm_num

theorem nearestTenths_down {q : Nat} {f : Rat} (value : 10 * x = q + f) (nonneg : 0 ≤ f)
    (low : f < 1 / 2 ∨ f = 1 / 2 ∧ q % 2 = 0) : NearestTenths q x := by
  have distance : |10 * x - q| = f := by rw [value, add_sub_cancel_left, abs_of_nonneg nonneg]
  apply nearestTenths_of_half <;> rw [distance]
  · rcases low with less | ⟨half, _⟩
    · exact less.le
    · exact half.le
  · intro tie
    rcases low with less | ⟨_, even⟩
    · exact absurd tie less.ne
    · exact even

theorem nearestTenths_up {q : Nat} {f : Rat} (value : 10 * x = q + f) (less : f < 1)
    (high : 1 / 2 < f ∨ f = 1 / 2 ∧ q % 2 = 1) : NearestTenths (q + 1) x := by
  have distance : |10 * x - (q + 1 : Nat)| = 1 - f := by
    have signed : 10 * x - (q + 1 : Nat) = -(1 - f) := by rw [value]; push_cast; ring
    rw [signed, abs_neg, abs_of_pos (by linarith)]
  apply nearestTenths_of_half <;> rw [distance]
  · rcases high with more | ⟨half, _⟩ <;> linarith
  · intro tie
    rcases high with more | ⟨_, odd⟩
    · linarith
    · omega

theorem nearestTenths_roundDiv (positive : 0 < unit) :
    NearestTenths (roundDiv (10 * n) unit) (n / unit) := by
  have denom : (0 : Rat) < unit := Nat.cast_pos.mpr positive
  obtain ⟨q, r, small, whole, quotient, rest⟩ : ∃ q r, r < unit ∧ 10 * n = unit * q + r ∧
      10 * n / unit = q ∧ 10 * n % unit = r :=
    ⟨10 * n / unit, 10 * n % unit, Nat.mod_lt _ positive, (Nat.div_add_mod _ _).symm, rfl, rfl⟩
  have value : 10 * ((n : Rat) / unit) = q + r / unit := by
    have cast : 10 * (n : Rat) = unit * q + r := by exact_mod_cast whole
    field_simp
    linarith
  have nonneg : (0 : Rat) ≤ r / unit := div_nonneg (Nat.cast_nonneg r) denom.le
  have less : (r : Rat) / unit < 1 := (div_lt_one denom).mpr (Nat.cast_lt.mpr small)
  rw [roundDiv]
  simp only [quotient, rest]
  split
  · next low =>
    refine nearestTenths_down value nonneg (.inl ?_)
    have cast : 2 * (r : Rat) < unit := by exact_mod_cast low
    rw [div_lt_iff₀ denom]
    linarith
  · split
    · next high =>
      refine nearestTenths_up value less (.inl ?_)
      have cast : (unit : Rat) < 2 * r := by exact_mod_cast high
      rw [lt_div_iff₀ denom]
      linarith
    · have middle : 2 * r = unit := by omega
      have half : (r : Rat) / unit = 1 / 2 := by
        have cast : 2 * (r : Rat) = unit := by exact_mod_cast middle
        rw [div_eq_iff denom.ne']
        linarith
      split
      · next even => exact nearestTenths_down value nonneg (.inr ⟨half, even⟩)
      · next odd => exact nearestTenths_up value less (.inr ⟨half, by omega⟩)

end Rounding

section Writing

theorem toPrecision_of_lt (small : n < 2 ^ 53) : toPrecision 53 n = n := if_pos small

theorem inTenths_inUnit (small : n < 2 ^ 53) (positive : 0 < unit) (name : String) :
    InTenths n unit name (inUnit n unit name) := by
  have nearest : NearestTenths (tenths n unit) (n / unit) := by
    rw [tenths, toPrecision_of_lt small]
    exact nearestTenths_roundDiv positive
  rw [← Nat.div_add_mod (tenths n unit) 10] at nearest
  exact .mk (Nat.mod_lt _ (by decide)) nearest

theorem printed_render (small : n < 2 ^ 53) : Printed n (render n) := by
  rw [render, kibi, mebi]
  split
  · next less => exact .bytes less
  · next notLess =>
    split
    · next less => exact .kibi ⟨by omega, less⟩ (inTenths_inUnit small (by decide) _)
    · next more => exact .mebi (by omega) (inTenths_inUnit small (by decide) _)

theorem InTenths.unique {name other : String} (first : InTenths n unit name text)
    (second : InTenths n unit name other) : text = other := by
  cases first with
  | @mk whole tenth digit nearest =>
    cases second with
    | @mk whole' tenth' digit' nearest' =>
      have same := nearest.unique nearest'
      obtain rfl : whole = whole' := by omega
      obtain rfl : tenth = tenth' := by omega
      rfl

theorem Printed.unique {other : String} (first : Printed n text) (second : Printed n other) :
    text = other := by
  cases first with
  | bytes small =>
    cases second with
    | bytes => rfl
    | kibi medium => omega
    | mebi large => omega
  | kibi medium tenths =>
    cases second with
    | bytes small => omega
    | kibi _ others => exact tenths.unique others
    | mebi large => omega
  | mebi large tenths =>
    cases second with
    | bytes small => omega
    | kibi medium => omega
    | mebi _ others => exact tenths.unique others

end Writing

section Reading

theorem decimal?_tenths (whole : Nat) (digit : tenth < 10) :
    Value.decimal? (toString whole ++ "." ++ toString tenth).toList =
      some ((whole : Rat) + tenth / 10) := by
  have written : (toString whole ++ "." ++ toString tenth).toList =
      Nat.toDigits 10 whole ++ '.' :: Nat.toDigits 10 tenth := by simp
  have front : ∀ c ∈ Nat.toDigits 10 whole, decide (c ≠ '.') = true := fun c mem =>
    Json.isNoPoint_of_isDigit (Json.isDigit_toDigits whole c mem)
  have places : Value.digits? (Nat.toDigits 10 tenth) = some tenth :=
    Value.digits?_of_whole? (Json.whole?_toDigits tenth)
  have one : (Nat.toDigits 10 tenth).length = 1 := by rw [Nat.toDigits_of_lt_base digit]; rfl
  have stop : decide (('.' : Char) ≠ '.') = false := by decide
  rw [written, Value.decimal?, List.dropWhile_append_of_pos front, List.takeWhile_append_of_pos front,
    List.dropWhile_cons, List.takeWhile_cons, stop]
  simp only [Bool.false_eq_true, if_false, List.append_nil, Json.whole?_toDigits, places, one, pow_one]
  rfl

theorem read?_append {number name : String} (one : ' ' ∉ name.toList) :
    read? (number ++ " " ++ name) = (do
      let q ← Value.decimal? number.toList
      let unit ← unit? name
      return q * unit) := by
  have split : DeadCode.Text.splitLast? ' ' (number ++ " " ++ name) = some (number, name) :=
    DeadCode.Text.splitLast?_append number one
  rw [read?, split]

theorem read?_bytes (n : Nat) : read? (toString n ++ " B") = some (n : Rat) := by
  have parted : toString n ++ " B" = toString n ++ " " ++ "B" := by
    rw [String.append_assoc]
    rfl
  rw [parted, read?_append (by decide), Nat.toString_eq_repr, Nat.toList_repr,
    Json.decimal?_toDigits]
  simp [unit?]

theorem InTenths.exists_read? {name : String} (tenths : InTenths n unit name text)
    (named : unit? name = some unit) (one : ' ' ∉ name.toList) :
    ∃ t, NearestTenths t (n / unit) ∧ read? text = some ((t : Rat) / 10 * unit) := by
  cases tenths with
  | @mk whole tenth digit nearest =>
    refine ⟨_, nearest, ?_⟩
    rw [read?_append one, decimal?_tenths whole digit, named]
    have value : (whole : Rat) + tenth / 10 = ((10 * whole + tenth : Nat) : Rat) / 10 := by
      push_cast
      ring
    rw [← value]
    rfl

end Reading

section Order

theorem NearestTenths.le_whole (tenths : NearestTenths t (n / unit)) (positive : 0 < unit)
    (le : n ≤ k * unit) : t ≤ 10 * k := by
  refine tenths.le (nearestTenths_self k) ?_
  rw [div_le_iff₀ (Nat.cast_pos.mpr positive)]
  exact_mod_cast le

theorem NearestTenths.whole_le (tenths : NearestTenths t (n / unit)) (positive : 0 < unit)
    (le : k * unit ≤ n) : 10 * k ≤ t := by
  refine (nearestTenths_self k).le tenths ?_
  rw [le_div_iff₀ (Nat.cast_pos.mpr positive)]
  exact_mod_cast le

inductive Stands (n : Nat) : Rat → Prop
  | bytes (small : n < 1024) : Stands n n
  | kibi {t : Nat} (medium : 1024 ≤ n ∧ n < 1048576) (tenths : NearestTenths t (n / (1024 : Nat))) :
      Stands n (t / 10 * (1024 : Nat))
  | mebi {t : Nat} (large : 1048576 ≤ n) (tenths : NearestTenths t (n / (1048576 : Nat))) :
      Stands n (t / 10 * (1048576 : Nat))

theorem Printed.exists_read? (printed : Printed n text) :
    ∃ q, read? text = some q ∧ Stands n q := by
  cases printed with
  | bytes small => exact ⟨n, read?_bytes n, .bytes small⟩
  | kibi medium tenths =>
    obtain ⟨t, nearest, read⟩ := tenths.exists_read? rfl (by decide)
    exact ⟨_, read, .kibi medium nearest⟩
  | mebi large tenths =>
    obtain ⟨t, nearest, read⟩ := tenths.exists_read? rfl (by decide)
    exact ⟨_, read, .mebi large nearest⟩

theorem le_in_unit (positive : 0 < unit) (first : NearestTenths t (n / unit))
    (second : NearestTenths u (m / unit)) (le : n ≤ m) :
    (t : Rat) / 10 * unit ≤ u / 10 * unit := by
  have denom : (0 : Rat) < unit := Nat.cast_pos.mpr positive
  have ordered : (n : Rat) / unit ≤ m / unit :=
    div_le_div_of_nonneg_right (Nat.cast_le.mpr le) denom.le
  have tenths : (t : Rat) ≤ u := Nat.cast_le.mpr (first.le second ordered)
  exact mul_le_mul_of_nonneg_right (by linarith) denom.le

/-- Sizes keep their order when they are read back. Where the unit changes, one whole of the greater
    unit lies between them. -/
theorem Stands.le {p q : Rat} (first : Stands n p) (second : Stands m q) (le : n ≤ m) : p ≤ q := by
  cases first with
  | bytes small =>
    have low : (n : Rat) ≤ 1024 := by exact_mod_cast small.le
    cases second with
    | bytes => exact Nat.cast_le.mpr le
    | @kibi u medium tenths =>
      have one : (10 : Rat) ≤ u := by exact_mod_cast tenths.whole_le (k := 1) (by decide) (by omega)
      push_cast
      linarith
    | @mebi u large tenths =>
      have one : (10 : Rat) ≤ u := by exact_mod_cast tenths.whole_le (k := 1) (by decide) (by omega)
      push_cast
      linarith
  | @kibi t medium tenths =>
    cases second with
    | bytes small => omega
    | kibi _ others => exact le_in_unit (by decide) tenths others le
    | @mebi u large others =>
      have high : (t : Rat) ≤ 10240 := by
        exact_mod_cast tenths.le_whole (k := 1024) (by decide) (by omega)
      have one : (10 : Rat) ≤ u := by exact_mod_cast others.whole_le (k := 1) (by decide) (by omega)
      push_cast
      linarith
  | mebi large tenths =>
    cases second with
    | bytes small => omega
    | kibi medium => omega
    | mebi _ others => exact le_in_unit (by decide) tenths others le

end Order

/-- Of sizes that 53 binary digits hold each has one look, the nearest tenth of its unit; and read
    back they are in order. -/
theorem render_nearest_tenth_in_order (n m : Nat) (small : m < 2 ^ 53) (le : n ≤ m) :
    (∀ text, Printed n text ↔ text = render n) ∧
      ∃ p q, read? (render n) = some p ∧ read? (render m) = some q ∧ p ≤ q := by
  have first : Printed n (render n) := printed_render (by omega)
  have second : Printed m (render m) := printed_render small
  constructor
  · intro text
    constructor
    · intro printed
      exact printed.unique first
    · intro same
      exact same ▸ first
  · obtain ⟨p, read, stands⟩ := first.exists_read?
    obtain ⟨q, readOther, standsOther⟩ := second.exists_read?
    exact ⟨p, q, read, readOther, stands.le standsOther le⟩

/-- The size before a mebibyte is carried to a whole number of kibibytes. -/
theorem order_at_mebibyte : (1048576 < 2 ^ 53 ∧ 1048575 ≤ 1048576) ∧ Printed 1048575 "1024.0 KiB" ∧
    ∃ p q, read? "1024.0 KiB" = some p ∧ read? "1.0 MiB" = some q ∧ p ≤ q := by
  have looks : render 1048575 = "1024.0 KiB" := by decide
  have next : render 1048576 = "1.0 MiB" := by decide
  have small : 1048576 < 2 ^ 53 := by decide
  obtain ⟨printed, order⟩ := render_nearest_tenth_in_order 1048575 1048576 small (by decide)
  rw [looks, next] at order
  exact ⟨⟨small, by decide⟩, (printed _).mpr looks.symm, order⟩

end DeadCode.Report.ByteSize
