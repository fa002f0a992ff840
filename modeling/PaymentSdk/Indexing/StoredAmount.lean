import PaymentSdk.Base.Atomic
import PaymentSdk.Base.Numeral
import PaymentSdk.Postgres.Rows
import PaymentSdk.Redb.Record

/-!
# Stored amounts

Both repositories store the text of a decimal, and accept a stored text only if it is the text of
the decimal that it denotes. So an amount has one stored text.
-/

namespace PaymentSdk

open Decimal

theorem toAtomic_own_scale {d : Decimal} :
    (∃ u, d.toAtomic d.scale = .ok u) ↔ 0 ≤ d.value := by
  rw [toAtomic_exists_iff]
  refine ⟨And.left, fun h => ⟨h, d.coefficient, ?_⟩⟩
  rw [Decimal.value]
  field_simp

theorem fromText_of_toText {text : String} {d : Decimal} (h : d.toText = text) :
    fromText text = .ok d := by
  rw [← h, fromText_toText]

theorem redb_decodeAmount_ok_iff {text : String} {d : Decimal} :
    Redb.decodeAmount text = .ok d ↔ 0 ≤ d.value ∧ d.toText = text := by
  constructor
  · intro h
    unfold Redb.decodeAmount at h
    split at h
    · cases h
    · split_ifs at h with hcanonical
      split at h
      · cases h
      · rename_i value _ units hunits
        cases h
        exact ⟨toAtomic_own_scale.mp ⟨units, hunits⟩, not_not.mp hcanonical⟩
  · rintro ⟨hnonneg, htext⟩
    obtain ⟨units, hunits⟩ := toAtomic_own_scale.mpr hnonneg
    simp [Redb.decodeAmount, fromText_of_toText htext, htext, hunits]

theorem postgres_decimal_ok_iff {text : String} {d : Decimal} :
    Postgres.decimal text = .ok d ↔ d.toText = text := by
  constructor
  · intro h
    unfold Postgres.decimal at h
    split at h
    · cases h
    · split_ifs at h with hcanonical
      cases h
      exact not_not.mp hcanonical
  · intro htext
    simp [Postgres.decimal, fromText_of_toText htext, htext]

theorem fromText_ok_iff {text : String} {d : Decimal} :
    fromText text = .ok d ↔
      ∃ n : Numeral, n.chars = text.toList ∧ n.places < 2 ^ 32 ∧ d.value = n.value :=
  fromChars_ok_iff

theorem toText_toList (d : Decimal) : d.toText.toList = d.chars := String.toList_ofList

theorem fromText_canonical {text : String} {d : Decimal} {n : Numeral} (h : fromText text = .ok d)
    (hn : n.chars = text.toList) :
    (∃ m : Numeral, m.chars = d.toText.toList ∧ m.value = n.value) ∧
      (∀ m : Numeral, m.value = n.value → d.toText.toList.length ≤ m.chars.length) ∧
      ('.' ∈ d.toText.toList → d.toText.toList.getLast? ≠ some '0') ∧
      (n.value = 0 → d.toText = "0") := by
  have hplaces : n.places < 2 ^ 32 := by
    by_contra hplaces
    rw [fromText, ← hn, fromChars_numeral, dif_neg hplaces] at h
    cases h
  have hvalue : d.value = n.value := by
    rw [fromText, ← hn, fromChars_numeral, dif_pos hplaces] at h
    cases h
    exact value_normalize ..
  rw [toText_toList, ← hvalue]
  refine ⟨?_, fun m hm => chars_shortest hm, chars_getLast, ?_⟩
  · obtain ⟨m, hm, -, hmvalue⟩ := fromText_ok_iff.mp (fromText_toText d)
    exact ⟨m, hm.trans (toText_toList d), hmvalue.symm⟩
  · intro hzero
    rw [toText, chars_of_value_zero hzero]

/-- **Texts.** The parser accepts the grammar with a 32-bit count of fractional digits, what it
accepts is written back canonically, and a stored amount has one text. -/
theorem text_codec :
    (∀ d : Decimal, fromText d.toText = .ok d) ∧
      (∀ text : String, (∃ d, fromText text = .ok d) ↔
        ∃ n : Numeral, n.chars = text.toList ∧ n.places < 2 ^ 32) ∧
      (∀ (text : String) (d : Decimal) (n : Numeral), fromText text = .ok d → n.chars = text.toList →
        (∃ m : Numeral, m.chars = d.toText.toList ∧ m.value = n.value) ∧
          (∀ m : Numeral, m.value = n.value → d.toText.toList.length ≤ m.chars.length) ∧
          ('.' ∈ d.toText.toList → d.toText.toList.getLast? ≠ some '0') ∧
          (n.value = 0 → d.toText = "0")) ∧
      (∀ (text : String) (d : Decimal),
        Redb.decodeAmount text = .ok d ↔ 0 ≤ d.value ∧ d.toText = text) ∧
      ∀ (text : String) (d : Decimal), Postgres.decimal text = .ok d ↔ d.toText = text := by
  refine ⟨fromText_toText, ?_, ?_, fun _ _ => redb_decodeAmount_ok_iff,
    fun _ _ => postgres_decimal_ok_iff⟩
  · intro text
    constructor
    · rintro ⟨d, h⟩
      obtain ⟨n, hn, hplaces, -⟩ := fromText_ok_iff.mp h
      exact ⟨n, hn, hplaces⟩
    · rintro ⟨n, hn, hplaces⟩
      exact ⟨normalize n.coefficient n.places hplaces,
        fromText_ok_iff.mpr ⟨n, hn, hplaces, value_normalize ..⟩⟩
  · intro text d n h hn
    exact fromText_canonical h hn

/-- The text `1.50`. -/
def onePointFive : Numeral :=
  ⟨[], ['1'], some ['5', '0'], by decide, by decide, by decide, by decide, by decide⟩

theorem text_codec_sample :
    onePointFive.chars = "1.50".toList ∧ (fromText "1.50").toOption.map toText = some "1.5" ∧
      "1.5".toList.length ≤ onePointFive.chars.length := by
  have htext : (normalize 15 1 (by decide)).toText = "1.5" := by decide
  have h := (text_codec.2.2.1 "1.50" (normalize 15 1 (by decide)) onePointFive (by decide)
    (by decide)).2.1 onePointFive rfl
  rw [htext] at h
  exact ⟨by decide, by decide, h⟩

/-! ## Where the grammar is larger -/

/-- A zero with a fraction of `k + 1` zeros. -/
def zeros (k : Nat) : Numeral where
  sign := []
  whole := ['0']
  fraction := some (List.replicate (k + 1) '0')
  sign_mem := by decide
  whole_ne := by decide
  whole_digits := by decide
  fraction_ne := by simp
  fraction_digits := replicate_isDigit _

theorem fromText_zeros {k : Nat} (h : 2 ^ 32 ≤ k + 1) (d : Decimal) :
    fromText (String.ofList (zeros k).chars) ≠ .ok d := by
  have hplaces : ¬ (zeros k).places < 2 ^ 32 := by
    simp only [Numeral.places, zeros, Option.getD_some, List.length_replicate]
    omega
  rw [fromText, String.toList_ofList, fromChars_numeral, dif_neg hplaces]
  rintro ⟨⟩

/-- A zero with 2 ^ 32 + 1 fractional digits is in the grammar and refused, and PostgreSQL's decoder
accepts a negative amount. -/
theorem text_codec_fails :
    ¬ ((∀ text : String, (∃ n : Numeral, n.chars = text.toList) → ∃ d, fromText text = .ok d) ∨
      ∀ (text : String) (d : Decimal), Postgres.decimal text = .ok d → 0 ≤ d.value) := by
  rintro (h | h)
  · obtain ⟨d, hd⟩ := h (String.ofList (zeros (2 ^ 32)).chars) ⟨zeros (2 ^ 32), String.toList_ofList.symm⟩
    exact fromText_zeros (Nat.le_succ _) d hd
  · have hneg := h "-1" (normalize (-1) 0 (by decide)) (by decide)
    rw [value_normalize] at hneg
    norm_num at hneg

end PaymentSdk
