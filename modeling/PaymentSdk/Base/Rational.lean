import Mathlib.Algebra.Order.Field.Rat
import Mathlib.Algebra.Order.Ring.Cast
import Mathlib.Data.Rat.Cast.Order
import Mathlib.Order.Compare
import Mathlib.Tactic.FieldSimp
import Mathlib.Tactic.Linarith
import Mathlib.Tactic.Ring
import PaymentSdk.Base.Decimal

/-!
# Decimals as rational numbers

A decimal stands for one rational, and each such rational has one normal form. The order of
decimals, with its digit-count shortcut, is the order of these rationals.
-/

namespace PaymentSdk.Decimal

/-- The number that a decimal stands for. -/
def value (d : Decimal) : ℚ := d.coefficient / 10 ^ d.scale

/-! ## Normal forms -/

theorem stripZeros_spec (c : Int) (scale : Nat) :
    (stripZeros c scale).2 ≤ scale ∧
      (stripZeros c scale).1 * 10 ^ (scale - (stripZeros c scale).2) = c := by
  induction scale generalizing c with
  | zero => simp [stripZeros]
  | succ scale ih =>
    rw [stripZeros]
    split
    · rename_i h
      obtain ⟨hle, heq⟩ := ih (c / 10)
      refine ⟨by omega, ?_⟩
      rw [Nat.succ_sub hle, pow_succ, ← mul_assoc, heq]
      omega
    · simp

theorem value_normalize (c : Int) (scale : Nat) (h : scale < 2 ^ 32) :
    (normalize c scale h).value = c / 10 ^ scale := by
  unfold normalize
  split
  · rename_i hc
    simp [value, hc]
  · obtain ⟨hle, heq⟩ := stripZeros_spec c scale
    have hpow : (10 : ℚ) ^ scale =
        10 ^ (scale - (stripZeros c scale).2) * 10 ^ (stripZeros c scale).2 := by
      rw [← pow_add, Nat.sub_add_cancel hle]
    have hc : (c : ℚ) = (stripZeros c scale).1 * 10 ^ (scale - (stripZeros c scale).2) := by
      exact_mod_cast heq.symm
    simp only [value]
    rw [hc, hpow]
    field_simp

theorem scale_le_of_eq {a b : Decimal}
    (h : a.coefficient * 10 ^ b.scale = b.coefficient * 10 ^ a.scale) : a.scale ≤ b.scale := by
  by_contra hlt
  obtain ⟨k, hk⟩ : ∃ k, a.scale = b.scale + (k + 1) := ⟨a.scale - b.scale - 1, by omega⟩
  have hpow : (10 : Int) ^ b.scale ≠ 0 := pow_ne_zero _ (by decide)
  have hc : a.coefficient = b.coefficient * 10 ^ k * 10 := by
    apply mul_right_cancel₀ hpow
    rw [h, hk]
    ring
  exact a.normal.last_digit (by omega) (by rw [hc, Int.mul_emod_left])

theorem value_eq_iff {a b : Decimal} :
    a.value = b.value ↔ a.coefficient * 10 ^ b.scale = b.coefficient * 10 ^ a.scale := by
  rw [value, value, div_eq_div_iff (pow_ne_zero _ (by norm_num)) (pow_ne_zero _ (by norm_num))]
  exact_mod_cast Iff.rfl

theorem value_injective {a b : Decimal} (h : a.value = b.value) : a = b := by
  rw [value_eq_iff] at h
  have hscale : a.scale = b.scale :=
    le_antisymm (scale_le_of_eq h) (scale_le_of_eq h.symm)
  have hc : a.coefficient = b.coefficient := by
    rw [hscale] at h
    exact mul_right_cancel₀ (pow_ne_zero _ (by decide)) h
  cases a
  cases b
  simp_all

theorem value_inj {a b : Decimal} : a.value = b.value ↔ a = b :=
  ⟨value_injective, congrArg value⟩

theorem value_neg_iff {d : Decimal} : d.value < 0 ↔ d.coefficient < 0 := by
  have hpow : (0 : ℚ) < 10 ^ d.scale := pow_pos (by norm_num) _
  rw [value, div_lt_iff₀ hpow, zero_mul]
  exact_mod_cast Iff.rfl

/-! ## Order -/

/-- The three signs, in their order. -/
inductive Sign where
  | minus
  | noSign
  | plus
  deriving DecidableEq

/-- The sign of a big integer. -/
def signOf (n : Int) : Sign :=
  if n < 0 then .minus else if n = 0 then .noSign else .plus

/-- The length of the magnitude's decimal text. -/
def digitCount (d : Decimal) : Nat := (Nat.toDigits 10 d.coefficient.natAbs).length

/-- The position of the first digit, counted from the point. -/
def exponent (d : Decimal) : Int := d.digitCount - d.scale

/-- Exponents first, then coefficients at the larger of the two scales. -/
def compareMagnitude (a b : Decimal) : Ordering :=
  if a.coefficient = 0 ∨ b.coefficient = 0 then
    compare a.coefficient.natAbs b.coefficient.natAbs
  else
    match compare a.exponent b.exponent with
    | .eq =>
      match compare a.scale b.scale with
      | .eq => compare a.coefficient.natAbs b.coefficient.natAbs
      | .lt => compare (a.coefficient.natAbs * 10 ^ (b.scale - a.scale)) b.coefficient.natAbs
      | .gt => compare a.coefficient.natAbs (b.coefficient.natAbs * 10 ^ (a.scale - b.scale))
    | ordering => ordering

def cmp (a b : Decimal) : Ordering :=
  match signOf a.coefficient, signOf b.coefficient with
  | .minus, .minus => compareMagnitude b a
  | .minus, _ => .lt
  | _, .minus => .gt
  | _, _ => compareMagnitude a b

/-- What the derived `Hash` and `Eq` look at. -/
def fields (d : Decimal) : Int × Nat := (d.coefficient, d.scale)

/-! ## The shortcut -/

theorem digitCount_pos (d : Decimal) : 0 < d.digitCount := Nat.length_toDigits_pos

theorem natAbs_lt_pow (d : Decimal) : d.coefficient.natAbs < 10 ^ d.digitCount :=
  (Nat.length_toDigits_le_iff (by decide) d.digitCount_pos).mp le_rfl

theorem pow_le_natAbs {d : Decimal} (h : d.coefficient ≠ 0) :
    10 ^ (d.digitCount - 1) ≤ d.coefficient.natAbs := by
  by_cases hone : d.digitCount = 1
  · rw [hone]
    simp
    omega
  · have hpos := d.digitCount_pos
    rw [← not_lt, ← Nat.length_toDigits_le_iff (by decide) (by omega)]
    unfold digitCount at *
    omega

theorem lt_of_exponent_lt {a b : Decimal} (hb : b.coefficient ≠ 0) (h : a.exponent < b.exponent) :
    a.coefficient.natAbs * 10 ^ b.scale < b.coefficient.natAbs * 10 ^ a.scale := by
  have hpos := b.digitCount_pos
  have hle : a.digitCount + b.scale ≤ b.digitCount - 1 + a.scale := by
    unfold exponent at h
    omega
  calc a.coefficient.natAbs * 10 ^ b.scale
      < 10 ^ a.digitCount * 10 ^ b.scale :=
        Nat.mul_lt_mul_of_pos_right a.natAbs_lt_pow (Nat.pow_pos (by decide))
    _ = 10 ^ (a.digitCount + b.scale) := (pow_add _ _ _).symm
    _ ≤ 10 ^ (b.digitCount - 1 + a.scale) := Nat.pow_le_pow_right (by decide) hle
    _ = 10 ^ (b.digitCount - 1) * 10 ^ a.scale := pow_add _ _ _
    _ ≤ b.coefficient.natAbs * 10 ^ a.scale := Nat.mul_le_mul_right _ (pow_le_natAbs hb)

theorem compare_mul_pow (m n k : Nat) : compare (m * 10 ^ k) (n * 10 ^ k) = compare m n := by
  have hpos : 0 < 10 ^ k := Nat.pow_pos (by decide)
  rw [← cmp_eq_compare, ← cmp_eq_compare]
  exact (strictMono_mul_right_of_pos hpos).cmp_map_eq m n

theorem compareMagnitude_eq (a b : Decimal) :
    compareMagnitude a b =
      compare (a.coefficient.natAbs * 10 ^ b.scale) (b.coefficient.natAbs * 10 ^ a.scale) := by
  unfold compareMagnitude
  split
  · rename_i hzero
    rcases hzero with h | h
    · have hs := a.normal.zero h
      rw [h, hs]
      simp
    · have hs := b.normal.zero h
      rw [h, hs]
      simp
  · rename_i hzero
    obtain ⟨ha, hb⟩ := not_or.mp hzero
    split
    · -- Equal exponents: scale the side with the fewer fractional digits.
      split
      · rename_i hs
        rw [compare_eq_iff_eq] at hs
        rw [hs, compare_mul_pow]
      · rename_i hs
        rw [compare_lt_iff_lt] at hs
        rw [← compare_mul_pow _ b.coefficient.natAbs a.scale, mul_assoc, ← pow_add,
          Nat.sub_add_cancel hs.le]
      · rename_i hs
        rw [compare_gt_iff_gt] at hs
        rw [← compare_mul_pow a.coefficient.natAbs _ b.scale, mul_assoc, ← pow_add,
          Nat.sub_add_cancel hs.le]
    · rename_i hne
      rcases lt_trichotomy a.exponent b.exponent with h | h | h
      · rw [compare_lt_iff_lt.mpr h, compare_lt_iff_lt.mpr (lt_of_exponent_lt hb h)]
      · exact absurd (compare_eq_iff_eq.mpr h) hne
      · rw [compare_gt_iff_gt.mpr h, compare_gt_iff_gt.mpr (lt_of_exponent_lt ha h)]

/-! ## Signs -/

theorem compare_value (a b : Decimal) :
    compare a.value b.value =
      compare (a.coefficient * 10 ^ b.scale) (b.coefficient * 10 ^ a.scale) := by
  have ha : (0 : ℚ) < 10 ^ a.scale := pow_pos (by norm_num) _
  have hb : (0 : ℚ) < 10 ^ b.scale := pow_pos (by norm_num) _
  have hmono : StrictMono fun q : ℚ => q * (10 ^ a.scale * 10 ^ b.scale) :=
    strictMono_mul_right_of_pos (mul_pos ha hb)
  have hcast : StrictMono fun n : Int => (n : ℚ) := Int.cast_strictMono
  rw [← cmp_eq_compare, ← cmp_eq_compare, ← hmono.cmp_map_eq, ← hcast.cmp_map_eq]
  congr 1
  · simp only [value]
    push_cast
    field_simp
  · simp only [value]
    push_cast
    field_simp

theorem compare_natCast (m n : Nat) : compare (m : Int) (n : Int) = compare m n := by
  have hcast : StrictMono fun n : Nat => (n : Int) := Nat.strictMono_cast
  rw [← cmp_eq_compare, ← cmp_eq_compare]
  exact hcast.cmp_map_eq m n

/-- Comparing decimals is comparing what they stand for. -/
theorem cmp_eq (a b : Decimal) : cmp a b = compare a.value b.value := by
  have hpa : (0 : Int) < 10 ^ a.scale := pow_pos (by decide) _
  have hpb : (0 : Int) < 10 ^ b.scale := pow_pos (by decide) _
  rw [compare_value]
  unfold cmp signOf
  by_cases ha : a.coefficient < 0
  · by_cases hb : b.coefficient < 0
    · -- Both negative: the magnitudes compare the other way round.
      have hna : a.coefficient = -(a.coefficient.natAbs : Int) := by omega
      have hnb : b.coefficient = -(b.coefficient.natAbs : Int) := by omega
      simp only [ha, hb, if_true]
      rw [compareMagnitude_eq, ← compare_natCast]
      conv_rhs => rw [hna, hnb]
      push_cast
      rw [neg_mul, neg_mul, ← cmp_eq_compare, ← cmp_eq_compare]
      have hanti : StrictAnti fun n : Int => -n := fun _ _ h => neg_lt_neg h
      exact (hanti.cmp_map_eq _ _).symm
    · have hlt : a.coefficient * 10 ^ b.scale < b.coefficient * 10 ^ a.scale :=
        lt_of_lt_of_le (mul_neg_of_neg_of_pos ha hpb) (mul_nonneg (by omega) hpa.le)
      rw [compare_lt_iff_lt.mpr hlt]
      simp only [ha, hb, if_true, if_false]
      split_ifs <;> rfl
  · by_cases hb : b.coefficient < 0
    · have hlt : b.coefficient * 10 ^ a.scale < a.coefficient * 10 ^ b.scale :=
        lt_of_lt_of_le (mul_neg_of_neg_of_pos hb hpa) (mul_nonneg (by omega) hpb.le)
      rw [compare_gt_iff_gt.mpr hlt]
      simp only [ha, hb, if_true, if_false]
      split_ifs <;> rfl
    · have hna : (a.coefficient.natAbs : Int) = a.coefficient := by omega
      have hnb : (b.coefficient.natAbs : Int) = b.coefficient := by omega
      have hmag : compareMagnitude a b =
          compare (a.coefficient * 10 ^ b.scale) (b.coefficient * 10 ^ a.scale) := by
        rw [compareMagnitude_eq, ← compare_natCast]
        push_cast
        rw [← Int.natCast_natAbs, ← Int.natCast_natAbs, hna, hnb]
      simp only [ha, hb, if_false]
      split_ifs <;> exact hmag

theorem cmp_eq_eq_iff {a b : Decimal} : cmp a b = .eq ↔ a = b := by
  rw [cmp_eq, compare_eq_iff_eq, value_inj]

instance : Std.TransCmp cmp where
  eq_swap := by
    intro a b
    rw [cmp_eq, cmp_eq]
    exact Std.OrientedCmp.eq_swap
  isLE_trans := by
    intro a b c hab hbc
    rw [cmp_eq] at *
    exact Std.TransCmp.isLE_trans hab hbc

theorem fields_inj {a b : Decimal} : a.fields = b.fields ↔ a = b := by
  cases a
  cases b
  simp [fields]

/-! ## The integers of a comparison -/

/-- The exponents of a comparison are 128-bit integers, and the digits that one side is scaled
by are counted in 32 bits. -/
structure Comparable (a b : Decimal) : Prop where
  left : -2 ^ 127 ≤ a.exponent ∧ a.exponent < 2 ^ 127
  right : -2 ^ 127 ≤ b.exponent ∧ b.exponent < 2 ^ 127
  less : a.scale < b.scale → 0 < b.scale - a.scale ∧ b.scale - a.scale < 2 ^ 32
  greater : b.scale < a.scale → 0 < a.scale - b.scale ∧ a.scale - b.scale < 2 ^ 32

theorem exponent_fits {d : Decimal} (h : d.digitCount < 2 ^ 64) :
    -2 ^ 127 ≤ d.exponent ∧ d.exponent < 2 ^ 127 := by
  have := d.normal.scale_lt
  unfold exponent
  omega

theorem comparable {a b : Decimal} (ha : a.digitCount < 2 ^ 64) (hb : b.digitCount < 2 ^ 64) :
    Comparable a b := by
  have hsa := a.normal.scale_lt
  have hsb := b.normal.scale_lt
  exact ⟨exponent_fits ha, exponent_fits hb, fun _ => by omega, fun _ => by omega⟩

/-- **Order.** The order is the order of the rationals, equality and hashing see the rational
only, and the comparison stays within its integers. -/
theorem cmp_rational :
    (∀ a b : Decimal, cmp a b = compare a.value b.value) ∧
      Std.TransCmp cmp ∧ (∀ a b : Decimal, cmp a b = .eq ↔ a = b) ∧
      (∀ a b : Decimal, a = b ↔ a.value = b.value) ∧
      (∀ a b : Decimal, a.fields = b.fields ↔ a.value = b.value) ∧
      ∀ a b : Decimal, a.digitCount < 2 ^ 64 → b.digitCount < 2 ^ 64 → Comparable a b := by
  refine ⟨cmp_eq, inferInstance, fun a b => cmp_eq_eq_iff, fun a b => value_inj.symm, ?_, ?_⟩
  · intro a b
    rw [fields_inj, value_inj]
  · intro a b ha hb
    exact comparable ha hb

theorem cmp_rational_sample :
    Comparable (normalize 150 2 (by decide)) (normalize (-7) 0 (by decide)) :=
  cmp_rational.2.2.2.2.2 _ _ (by decide) (by decide +kernel)

end PaymentSdk.Decimal
