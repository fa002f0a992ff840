import PaymentSdk.Base.Rational
import PaymentSdk.Lib.BigEndian
import PaymentSdk.Lib.Checked

/-!
# Exact arithmetic and atomic units

Sums, differences and conversions between decimals, atomic units and stored components.
All of them are exact: a number that does not fit is an error, never another number.
-/

open BigEndian Checked

namespace PaymentSdk

/-- The sign of the parts of a decimal. -/
inductive DecimalSign where
  | positive
  | negative
  deriving DecidableEq

/-- Components for persistence. The magnitude is a big-endian integer. -/
structure DecimalParts where
  sign : DecimalSign
  magnitude : List UInt8
  scale : UInt32
  deriving DecidableEq

/-- The integer of the sign and the magnitude. -/
def DecimalParts.coefficient (p : DecimalParts) : Int :=
  match p.sign with
  | .positive => number p.magnitude
  | .negative => -number p.magnitude

namespace Decimal

/-- The bytes of a big integer, where zero is one zero byte. -/
def toBytesBe (n : Nat) : List UInt8 := if n = 0 then [0] else minimal n

def fromAtomic (units : Nat) (decimals : UInt32) : Decimal :=
  normalize units decimals.toNat decimals.toNat_lt

def parts (d : Decimal) : DecimalParts where
  sign := if d.coefficient < 0 then .negative else .positive
  magnitude := if d.coefficient = 0 then [] else toBytesBe d.coefficient.natAbs
  scale := UInt32.ofNatLT d.scale d.normal.scale_lt

def fromParts (p : DecimalParts) : Except DecimalError Decimal :=
  if p.magnitude.head? = some 0 then
    .error ⟨.invalid, "decimal magnitude must use minimal-width big-endian encoding"⟩
  else if p.magnitude = [] ∧ p.sign = .negative then
    .error ⟨.invalid, "zero decimal must not use a negative sign"⟩
  else .ok (normalize p.coefficient p.scale.toNat p.scale.toNat_lt)

/-- The coefficient at a larger scale. -/
def scaledCoefficient (d : Decimal) (scale : Nat) : Except DecimalError Int :=
  if scale < d.scale then
    .error ⟨.invalid, "target scale must not be smaller than the decimal scale"⟩
  else .ok (d.coefficient * 10 ^ (scale - d.scale))

def checkedAdd (a b : Decimal) : Except DecimalError Decimal := do
  let scale := max a.scale b.scale
  let left ← a.scaledCoefficient scale
  let right ← b.scaledCoefficient scale
  return normalize (left + right) scale (max_lt a.normal.scale_lt b.normal.scale_lt)

def checkedSub (a b : Decimal) : Except DecimalError Decimal := do
  let scale := max a.scale b.scale
  let left ← a.scaledCoefficient scale
  let right ← b.scaledCoefficient scale
  return normalize (left - right) scale (max_lt a.normal.scale_lt b.normal.scale_lt)

/-- The bytes of a big integer at the end of a zeroed array. -/
def narrow (width : Nat) (message : String) (units : Nat) : Except DecimalError (List UInt8) :=
  let bytes := toBytesBe units
  if width < bytes.length then .error ⟨.overflow, message⟩
  else .ok (List.replicate (width - bytes.length) 0 ++ bytes)

/-- The amount in atomic units, where it fits a machine word. -/
def toAtomicU64 (d : Decimal) (decimals : Nat) : Except DecimalError UInt64 := do
  let units ← d.toAtomic decimals
  let value ← narrow 8 "atomic amount exceeds the u64 range" units
  return UInt64.ofNat (number value)

/-- The amount in atomic units, as big-endian bytes of the given width. -/
def toAtomicBeBytes (width : Nat) (d : Decimal) (decimals : Nat) :
    Except DecimalError (List UInt8) := do
  let units ← d.toAtomic decimals
  narrow width s!"atomic amount exceeds {width} bytes" units

/-! ## Sums and differences -/

theorem scaledCoefficient_ok {d : Decimal} {scale : Nat} (h : d.scale ≤ scale) :
    ∃ c : Int, d.scaledCoefficient scale = .ok c ∧ (c : ℚ) = d.value * 10 ^ scale := by
  refine ⟨d.coefficient * 10 ^ (scale - d.scale), ?_, ?_⟩
  · rw [scaledCoefficient, if_neg (by omega)]
  · have hpow : (10 : ℚ) ^ scale = 10 ^ (scale - d.scale) * 10 ^ d.scale := by
      rw [← pow_add, Nat.sub_add_cancel h]
    rw [value, hpow]
    push_cast
    field_simp

theorem checkedAdd_exact (a b : Decimal) :
    ∃ s, checkedAdd a b = .ok s ∧ s.value = a.value + b.value := by
  obtain ⟨left, hleft, hl⟩ := scaledCoefficient_ok (le_max_left a.scale b.scale)
  obtain ⟨right, hright, hr⟩ := scaledCoefficient_ok (le_max_right a.scale b.scale)
  refine ⟨_, by rw [checkedAdd, hleft, hright]; rfl, ?_⟩
  rw [value_normalize]
  push_cast
  rw [hl, hr]
  field_simp

theorem checkedSub_exact (a b : Decimal) :
    ∃ s, checkedSub a b = .ok s ∧ s.value = a.value - b.value := by
  obtain ⟨left, hleft, hl⟩ := scaledCoefficient_ok (le_max_left a.scale b.scale)
  obtain ⟨right, hright, hr⟩ := scaledCoefficient_ok (le_max_right a.scale b.scale)
  refine ⟨_, by rw [checkedSub, hleft, hright]; rfl, ?_⟩
  rw [value_normalize]
  push_cast
  rw [hl, hr]
  field_simp

/-! ## Atomic units -/

theorem toAtomic_negative {d : Decimal} (h : d.value < 0) (decimals : Nat) :
    d.toAtomic decimals = .error ⟨.negativeAmount, "currency amount must not be negative"⟩ := by
  rw [toAtomic, validateAmount, if_pos (value_neg_iff.mp h)]
  rfl

theorem value_mul_pow {d : Decimal} (h : 0 ≤ d.value) (decimals : Nat) :
    d.value * 10 ^ decimals = d.coefficient.natAbs * 10 ^ decimals / 10 ^ d.scale := by
  have hc : 0 ≤ d.coefficient := by
    rw [← not_lt] at h ⊢
    exact fun hneg => h (value_neg_iff.mpr hneg)
  have hcast : (d.coefficient : ℚ) = (d.coefficient.natAbs : ℚ) := by
    rw [← Int.cast_natCast, Int.natAbs_of_nonneg hc]
  rw [value, hcast]
  field_simp

theorem toAtomic_nonneg {d : Decimal} (h : 0 ≤ d.value) (decimals : Nat) :
    (∃ u, d.toAtomic decimals = .ok u ∧ d.value * 10 ^ decimals = u) ∨
      (d.toAtomic decimals =
          .error ⟨.excessPrecision, s!"amount has more than {decimals} fractional digits"⟩ ∧
        ¬ ∃ z : Int, d.value * 10 ^ decimals = z) := by
  have hc : ¬ d.coefficient < 0 := fun hneg => absurd (value_neg_iff.mpr hneg) (not_lt.mpr h)
  have hvalid : d.validateAmount = .ok () := by rw [validateAmount, if_neg hc]
  rw [toAtomic, hvalid, value_mul_pow h]
  simp only [bind, Except.bind, pure, Except.pure, throw, throwThe, MonadExceptOf.throw]
  split
  · rename_i hle
    refine .inl ⟨_, rfl, ?_⟩
    have hpow : (10 : ℚ) ^ decimals = 10 ^ (decimals - d.scale) * 10 ^ d.scale := by
      rw [← pow_add, Nat.sub_add_cancel hle]
    rw [hpow]
    push_cast
    field_simp
  · -- Fewer decimals than the scale: the missing digits have to be zeros.
    rename_i hle
    have hpow : (10 : ℚ) ^ d.scale = 10 ^ (d.scale - decimals) * 10 ^ decimals := by
      rw [← pow_add, Nat.sub_add_cancel (by omega)]
    have hvalue : (d.coefficient.natAbs : ℚ) * 10 ^ decimals / 10 ^ d.scale =
        d.coefficient.natAbs / ((10 ^ (d.scale - decimals) : Nat) : ℚ) := by
      rw [hpow]
      push_cast
      field_simp
    rw [hvalue]
    have hdiv : ((10 ^ (d.scale - decimals) : Nat) : ℚ) ≠ 0 := by positivity
    split
    · rename_i hmod
      refine .inr ⟨rfl, ?_⟩
      rintro ⟨z, hz⟩
      apply hmod
      rw [div_eq_iff hdiv] at hz
      generalize d.coefficient.natAbs = m at hz ⊢
      have hint : (m : Int) = z * (10 ^ (d.scale - decimals) : Nat) := by exact_mod_cast hz
      have hdvd : ((10 ^ (d.scale - decimals) : Nat) : Int) ∣ m := ⟨z, by rw [hint, mul_comm]⟩
      exact Nat.mod_eq_zero_of_dvd (Int.natCast_dvd_natCast.mp hdvd)
    · rename_i hmod
      refine .inl ⟨_, rfl, ?_⟩
      obtain ⟨q, hq⟩ := Nat.dvd_of_mod_eq_zero (not_not.mp hmod)
      rw [hq, Nat.mul_div_cancel_left q (Nat.pow_pos (by decide)), Nat.cast_mul]
      field_simp

theorem toAtomic_ok_iff {d : Decimal} {decimals u : Nat} :
    d.toAtomic decimals = .ok u ↔ 0 ≤ d.value ∧ d.value * 10 ^ decimals = u := by
  rcases lt_or_ge d.value 0 with hneg | hnonneg
  · rw [toAtomic_negative hneg]
    simp [not_le.mpr hneg]
  · rcases toAtomic_nonneg hnonneg decimals with ⟨v, hok, hv⟩ | ⟨herr, hz⟩
    · rw [hok, hv]
      simp [hnonneg]
    · rw [herr]
      constructor
      · rintro ⟨⟩
      · rintro ⟨-, hu⟩
        exact absurd ⟨(u : Int), by exact_mod_cast hu⟩ hz

theorem toAtomic_fromAtomic (units : Nat) (decimals : UInt32) :
    (fromAtomic units decimals).toAtomic decimals.toNat = .ok units := by
  have hvalue : (fromAtomic units decimals).value = units / 10 ^ decimals.toNat := by
    rw [fromAtomic, value_normalize]
    push_cast
    rfl
  rw [toAtomic_ok_iff, hvalue]
  exact ⟨div_nonneg (Nat.cast_nonneg _) (by positivity), by field_simp⟩

/-! ## Fixed widths -/

theorem number_toBytesBe (n : Nat) : number (toBytesBe n) = n := by
  unfold toBytesBe
  split
  · rename_i h
    rw [h]
    rfl
  · exact number_minimal n

theorem length_toBytesBe_le_iff {n width : Nat} (h : 0 < width) :
    (toBytesBe n).length ≤ width ↔ n < 256 ^ width := by
  unfold toBytesBe
  split
  · rename_i hn
    have : 0 < 256 ^ width := Nat.pow_pos (by decide)
    simp [hn]
    omega
  · exact length_minimal_le_iff

theorem narrow_spec {width : Nat} (h : 0 < width) (message : String) (units : Nat) :
    (units < 256 ^ width ∧ ∃ bytes, narrow width message units = .ok bytes ∧
        bytes.length = width ∧ number bytes = units) ∨
      (256 ^ width ≤ units ∧ narrow width message units = .error ⟨.overflow, message⟩) := by
  unfold narrow
  dsimp only
  by_cases hlt : units < 256 ^ width
  · have hle := (length_toBytesBe_le_iff h).mpr hlt
    refine .inl ⟨hlt, _, by rw [if_neg (by omega)], ?_, ?_⟩
    · simp
      omega
    · rw [number_zeros, number_toBytesBe]
  · have hle := mt (length_toBytesBe_le_iff h).mp hlt
    exact .inr ⟨by omega, by rw [if_pos (by omega)]⟩

theorem toAtomicBeBytes_exact {width : Nat} (h : 0 < width) (d : Decimal) (decimals : Nat) :
    ((∃ bytes, toAtomicBeBytes width d decimals = .ok bytes) ↔
        ∃ u, d.toAtomic decimals = .ok u ∧ u < 256 ^ width) ∧
      ∀ bytes, toAtomicBeBytes width d decimals = .ok bytes →
        bytes.length = width ∧ d.toAtomic decimals = .ok (number bytes) := by
  unfold toAtomicBeBytes
  cases hd : d.toAtomic decimals with
  | error e => simp [bind, Except.bind]
  | ok u =>
    simp only [bind, Except.bind, Except.ok.injEq]
    rcases narrow_spec h s!"atomic amount exceeds {width} bytes" u with
      ⟨hlt, bytes, hok, hlen, hnum⟩ | ⟨hge, herr⟩
    · rw [hok]
      refine ⟨⟨fun _ => ⟨u, rfl, hlt⟩, fun _ => ⟨bytes, rfl⟩⟩, ?_⟩
      intro bytes' h'
      cases h'
      exact ⟨hlen, hnum.symm⟩
    · rw [herr]
      refine ⟨⟨by simp, ?_⟩, by simp⟩
      rintro ⟨v, rfl, hlt⟩
      omega

theorem toAtomicU64_exact (d : Decimal) (decimals : Nat) :
    ((∃ v, d.toAtomicU64 decimals = .ok v) ↔ ∃ u, d.toAtomic decimals = .ok u ∧ u < 2 ^ 64) ∧
      ∀ v, d.toAtomicU64 decimals = .ok v → d.toAtomic decimals = .ok v.toNat := by
  unfold toAtomicU64
  have hpow : 256 ^ 8 = 2 ^ 64 := by decide
  cases hd : d.toAtomic decimals with
  | error e => simp [bind, Except.bind]
  | ok u =>
    simp only [bind, Except.bind, Except.ok.injEq]
    rcases narrow_spec (by decide : 0 < 8) "atomic amount exceeds the u64 range" u with
      ⟨hlt, bytes, hok, -, hnum⟩ | ⟨hge, herr⟩
    · rw [hok]
      rw [hpow] at hlt
      refine ⟨⟨fun _ => ⟨u, rfl, hlt⟩, fun _ => ⟨_, rfl⟩⟩, ?_⟩
      intro v hv
      cases hv
      rw [hnum, UInt64.toNat_ofNat_of_lt' hlt]
    · rw [herr]
      rw [hpow] at hge
      refine ⟨⟨by simp, ?_⟩, by simp⟩
      rintro ⟨v, rfl, hlt⟩
      omega

/-! ## Components -/

theorem fromParts_ok_iff {p : DecimalParts} {d : Decimal} :
    fromParts p = .ok d ↔ p.magnitude.head? ≠ some 0 ∧ ¬(p.magnitude = [] ∧ p.sign = .negative) ∧
      d = normalize p.coefficient p.scale.toNat p.scale.toNat_lt := by
  unfold fromParts
  split_ifs with hzero hneg
  · simp [hzero]
  · simp [hneg]
  · rw [Except.ok.injEq, eq_comm]
    simp only [ne_eq, hzero, hneg, not_false_eq_true, true_and]

theorem coefficient_parts (d : Decimal) : d.parts.coefficient = d.coefficient := by
  have hmagnitude : number d.parts.magnitude = d.coefficient.natAbs := by
    unfold parts
    dsimp only
    split
    · rename_i h
      rw [h]
      rfl
    · exact number_toBytesBe _
  unfold DecimalParts.coefficient
  rw [hmagnitude]
  unfold parts
  dsimp only
  split <;> rename_i h <;> split_ifs at h <;> omega

theorem fromParts_parts (d : Decimal) : fromParts d.parts = .ok d := by
  rw [fromParts_ok_iff]
  refine ⟨?_, ?_, ?_⟩
  · unfold parts toBytesBe
    dsimp only
    split_ifs with h hn
    · simp
    · omega
    · exact head_minimal _
  · rintro ⟨hmag, hsign⟩
    unfold parts at hmag hsign
    dsimp only at hmag hsign
    split_ifs at hmag hsign with h hn
    · omega
    · unfold toBytesBe at hmag
      split_ifs at hmag with hz
      exact hz (minimal_eq_nil_iff.mp hmag)
  · conv_lhs => rw [← normalize_eq d]
    congr 1
    exact (coefficient_parts d).symm

theorem parts_fromParts {p : DecimalParts} {d : Decimal} (h : fromParts p = .ok d) :
    d.parts = p ↔ Normal p.coefficient p.scale.toNat := by
  obtain ⟨hhead, hsign, rfl⟩ := fromParts_ok_iff.mp h
  constructor
  · intro hp
    rw [← hp, coefficient_parts]
    simpa [parts] using (normalize p.coefficient p.scale.toNat p.scale.toNat_lt).normal
  · intro hn
    have hd := normalize_eq ⟨p.coefficient, p.scale.toNat, hn⟩
    simp only at hd
    rw [hd]
    obtain ⟨sign, magnitude, scale⟩ := p
    simp only [DecimalParts.coefficient] at *
    have hnum : number magnitude = 0 ↔ magnitude = [] := by
      rw [← minimal_eq_nil_iff, minimal_number hhead]
    cases sign with
    | positive =>
      by_cases hm : magnitude = []
      · have hz := hnum.mpr hm
        subst hm
        simp [parts, hz]
      · have hne := mt hnum.mp hm
        simp [parts, toBytesBe, hne, minimal_number hhead, not_lt.mpr (Int.natCast_nonneg _)]
    | negative =>
      have hm : magnitude ≠ [] := fun hm => hsign ⟨hm, rfl⟩
      have hne := mt hnum.mp hm
      have hpos : 0 < number magnitude := Nat.pos_of_ne_zero hne
      simp [parts, toBytesBe, hne, minimal_number hhead, hpos]

/-! ## Exactness -/

theorem toAtomic_exists_iff {d : Decimal} {decimals : Nat} :
    (∃ u, d.toAtomic decimals = .ok u) ↔ 0 ≤ d.value ∧ ∃ z : Int, d.value * 10 ^ decimals = z := by
  constructor
  · rintro ⟨u, hu⟩
    obtain ⟨hnonneg, hvalue⟩ := toAtomic_ok_iff.mp hu
    exact ⟨hnonneg, u, by exact_mod_cast hvalue⟩
  · rintro ⟨hnonneg, hz⟩
    rcases toAtomic_nonneg hnonneg decimals with ⟨u, hok, -⟩ | ⟨-, hnone⟩
    · exact ⟨u, hok⟩
    · exact absurd hz hnone

theorem toAtomic_excess {d : Decimal} {decimals : Nat} (h : 0 ≤ d.value)
    (hz : ¬ ∃ z : Int, d.value * 10 ^ decimals = z) :
    d.toAtomic decimals =
      .error ⟨.excessPrecision, s!"amount has more than {decimals} fractional digits"⟩ := by
  rcases toAtomic_nonneg h decimals with ⟨u, -, hvalue⟩ | ⟨herr, -⟩
  · exact absurd ⟨(u : Int), by exact_mod_cast hvalue⟩ hz
  · exact herr

/-- **Exactness.** Sums, differences, atomic units and components are those of the rational,
and each conversion fails on exactly the numbers that it cannot hold. -/
theorem arithmetic_exact :
    (∀ a b : Decimal, ∃ s, checkedAdd a b = .ok s ∧ s.value = a.value + b.value) ∧
      (∀ a b : Decimal, ∃ s, checkedSub a b = .ok s ∧ s.value = a.value - b.value) ∧
      (∀ (a : Decimal) (k : Nat),
        ((∃ u, a.toAtomic k = .ok u) ↔ 0 ≤ a.value ∧ ∃ z : Int, a.value * 10 ^ k = z) ∧
          (∀ u, a.toAtomic k = .ok u → a.value * 10 ^ k = u) ∧
          (a.value < 0 → ∃ message, a.toAtomic k = .error ⟨.negativeAmount, message⟩) ∧
          (0 ≤ a.value → (¬ ∃ z : Int, a.value * 10 ^ k = z) →
            ∃ message, a.toAtomic k = .error ⟨.excessPrecision, message⟩)) ∧
      (∀ (u : Nat) (k : UInt32), (fromAtomic u k).toAtomic k.toNat = .ok u) ∧
      (∀ (a : Decimal) (k : Nat),
        ((∃ v, a.toAtomicU64 k = .ok v) ↔ ∃ u, a.toAtomic k = .ok u ∧ u < 2 ^ 64) ∧
          ∀ v, a.toAtomicU64 k = .ok v → a.toAtomic k = .ok v.toNat) ∧
      (∀ (n : Nat) (a : Decimal) (k : Nat), 0 < n →
        ((∃ bytes, toAtomicBeBytes n a k = .ok bytes) ↔ ∃ u, a.toAtomic k = .ok u ∧ u < 256 ^ n) ∧
          ∀ bytes, toAtomicBeBytes n a k = .ok bytes →
            bytes.length = n ∧ a.toAtomic k = .ok (number bytes)) ∧
      (∀ a : Decimal, fromParts a.parts = .ok a) ∧
      ∀ (p : DecimalParts) (d : Decimal), fromParts p = .ok d →
        (d.parts = p ↔ Normal p.coefficient p.scale.toNat) := by
  refine ⟨checkedAdd_exact, checkedSub_exact, ?_, toAtomic_fromAtomic, toAtomicU64_exact, ?_,
    fromParts_parts, ?_⟩
  · intro a k
    refine ⟨toAtomic_exists_iff, ?_, ?_, ?_⟩
    · intro u hu
      exact (toAtomic_ok_iff.mp hu).2
    · intro hneg
      exact ⟨_, toAtomic_negative hneg k⟩
    · intro hnonneg hz
      exact ⟨_, toAtomic_excess hnonneg hz⟩
  · intro n a k hn
    exact toAtomicBeBytes_exact hn a k
  · intro p d h
    exact parts_fromParts h

theorem arithmetic_exact_sample :
    (∃ message, (normalize (-15) 1 (by decide)).toAtomic 3 = .error ⟨.negativeAmount, message⟩) ∧
      (∃ bytes, toAtomicBeBytes 2 (normalize 15 1 (by decide)) 3 = .ok bytes) ∧
      ((normalize 15 1 (by decide)).parts = ⟨.positive, [15], 1⟩ ↔ Normal 15 1) := by
  have hneg : (normalize (-15) 1 (by decide)).value < 0 := by
    rw [value_normalize]
    norm_num
  have hbytes := (arithmetic_exact.2.2.2.2.2.1 2 (normalize 15 1 (by decide)) 3 (by decide)).1
  exact ⟨(arithmetic_exact.2.2.1 _ 3).2.2.1 hneg, hbytes.mpr ⟨1500, by decide, by decide⟩,
    arithmetic_exact.2.2.2.2.2.2.2 ⟨.positive, [15], 1⟩ _ (by decide)⟩

end Decimal

end PaymentSdk
