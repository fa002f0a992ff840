import Mathlib.Data.List.DropRight
import PaymentSdk.Base.JsonNumber
import PaymentSdk.Bitcoin.Fee
import PaymentSdk.Wallets.Sender

/-!
# Amounts in the JSON of nodes

Nodes write bitcoins as decimals. Blocks and calls are read by two parsers, which accept the same
numbers and find the same satoshis, and a fee rate is written so that it is read back.
-/

namespace PaymentSdk.Bitcoin

open Indexer (fromJson fromBlockJson parseU64 digitsValue fractionalSatoshis satoshisPerBitcoin orElse_ok)
open Json (Literal)

/-! ## Calls -/

def sourceError (message : String) : SourceError := ⟨message, true⟩

def fromRpcJson (value : Json) (context : String) : Except SourceError UInt64 :=
  fromJson sourceError value context

def bitcoinCoreMaxFeeRateSatoshisPerKvb : UInt64 := satoshisPerBitcoin

/-- Digits with zeros in front, up to a width. -/
def padded (width n : Nat) : List Char :=
  List.replicate (width - (Nat.toDigits 10 n).length) '0' ++ Nat.toDigits 10 n

def FeeRate.coreMaximumJson (r : FeeRate) : Except SourceError Literal :=
  let satoshis := r.satoshisPerKvb
  if satoshis = 0 then .error ⟨"Bitcoin maximum fee rate must be greater than zero", false⟩
  else if satoshis > bitcoinCoreMaxFeeRateSatoshisPerKvb then
    .error ⟨"Bitcoin maximum fee rate exceeds Bitcoin Core's 1 BTC/kvB limit", false⟩
  else
    let whole := satoshis / satoshisPerBitcoin
    let remainder := satoshis % satoshisPerBitcoin
    let lexical :=
      if remainder = 0 then Nat.toDigits 10 whole.toNat
      else (Nat.toDigits 10 whole.toNat ++ '.' :: padded 8 remainder.toNat).rdropWhile (· == '0')
    match Literal.fromStr lexical with
    | none => .error ⟨"Bitcoin maximum fee rate could not be encoded", false⟩
    | some number => .ok number

/-! ## Reading -/

/-- The numbers of bitcoins that are exact in satoshis, and fit. -/
structure IsAmount (n : Literal) : Prop where
  unsigned : n.negative = false
  fixed : n.exponent = none
  places : n.places ≤ 8
  fits : n.value * 10 ^ 8 < 2 ^ 64

theorem digitsValue_eq (digits : List Char) : digitsValue digits = Nat.ofDigitChars 10 digits 0 := by
  rw [Nat.ofDigitChars_eq_foldl]
  rfl

theorem parseU64_some {digits : List Char} {value : UInt64} :
    parseU64 digits = some value ↔ value.toNat = Nat.ofDigitChars 10 digits 0 := by
  have hv := value.toNat_lt
  rw [parseU64, digitsValue_eq, Option.ite_none_right_eq_some, Option.some.injEq, ← UInt64.toNat_inj]
  constructor
  · rintro ⟨hlt, h⟩
    rw [← h, Word.toNat_ofNat hlt]
  · intro h
    exact ⟨h ▸ hv, by rw [← h, Word.toNat_ofNat hv]⟩

theorem toNat_ten_pow {k : Nat} (h : k ≤ 8) : ((10 : UInt64) ^ k).toNat = 10 ^ k := by
  have hall : ∀ k : Fin 9, ((10 : UInt64) ^ (k : Nat)).toNat = 10 ^ (k : Nat) := by decide
  exact hall ⟨k, Nat.lt_succ_of_le h⟩

theorem fractionalSatoshis_ok {ε : Type} (fail : String → ε) {fraction : List Char} (context : String)
    {value : UInt64} (hall : fraction.all Char.isDigit = true) (hlen : fraction.length ≤ 8) :
    fractionalSatoshis fail fraction context = .ok value ↔
      value.toNat = Nat.ofDigitChars 10 fraction 0 * 10 ^ (8 - fraction.length) := by
  have hdigits := Decimal.ofDigitChars_lt hall
  have hwidth : 10 ^ fraction.length ≤ 10 ^ 8 := Nat.pow_le_pow_right (by decide) hlen
  have hpadding : ¬ 2 ^ 32 ≤ 8 - fraction.length := by omega
  unfold fractionalSatoshis
  split_ifs with hnil
  · subst hnil
    rw [Except.ok.injEq, ← UInt64.toNat_inj, Nat.ofDigitChars_nil, Nat.zero_mul, eq_comm]
    rfl
  · simp only [Checked.bind_ok, orElse_ok, parseU64_some, if_neg hpadding, Word.checkedMul_some,
      toNat_ten_pow (Nat.sub_le 8 _)]
    constructor
    · rintro ⟨digits, hvalue, hmul⟩
      rw [hmul, hvalue]
    · intro h
      obtain ⟨digits, hvalue⟩ := Word.exists_toNat (lt_trans (lt_of_lt_of_le hdigits hwidth) (by decide))
      exact ⟨digits, hvalue, by rw [h, hvalue]⟩

theorem exists_fractional {fraction : List Char} (hall : fraction.all Char.isDigit = true)
    (hlen : fraction.length ≤ 8) :
    ∃ value : UInt64, value.toNat = Nat.ofDigitChars 10 fraction 0 * 10 ^ (8 - fraction.length) := by
  apply Word.exists_toNat
  calc Nat.ofDigitChars 10 fraction 0 * 10 ^ (8 - fraction.length)
      < 10 ^ fraction.length * 10 ^ (8 - fraction.length) :=
        Nat.mul_lt_mul_of_pos_right (Decimal.ofDigitChars_lt hall) (Nat.pow_pos (by decide))
    _ = 10 ^ 8 := by rw [← Nat.pow_add, Nat.add_sub_cancel' hlen]
    _ < 2 ^ 64 := by decide

theorem chars_of_fixed {n : Literal} (hunsigned : n.negative = false) (hfixed : n.exponent = none) :
    n.chars = n.whole ++ Literal.fractionChars n.fraction := by
  simp [Literal.chars, hunsigned, hfixed, Literal.exponentChars]

theorem fixed_mem {n : Literal} {c : Char} (h : c ∈ n.whole ++ Literal.fractionChars n.fraction) :
    c.isDigit = true ∨ c = '.' := by
  have hwhole := List.all_eq_true.mp n.whole_valid.all
  have hfraction := List.all_eq_true.mp n.fraction_all
  rcases List.mem_append.mp h with h | h
  · exact .inl (hwhole c h)
  · cases hf : n.fraction with
    | none => simp [hf, Literal.fractionChars] at h
    | some digits =>
      rw [hf] at h hfraction
      rcases List.mem_cons.mp h with h | h
      · exact .inr h
      · exact .inl (hfraction c h)

theorem marked_iff (n : Literal) :
    (n.chars.head? = some '-' ∨ n.chars.any (· ∈ ['e', 'E', '+']) = true) ↔
      ¬ (n.negative = false ∧ n.exponent = none) := by
  constructor
  · rintro h ⟨hunsigned, hfixed⟩
    rw [chars_of_fixed hunsigned hfixed] at h
    have hmem : ∃ c ∈ n.whole ++ Literal.fractionChars n.fraction, c ∈ ['-', 'e', 'E', '+'] := by
      rcases h with h | h
      · exact ⟨'-', List.mem_of_mem_head? h, by simp⟩
      · obtain ⟨c, hc, hin⟩ := List.any_eq_true.mp h
        exact ⟨c, hc, List.mem_cons_of_mem _ (by simpa using hin)⟩
    obtain ⟨c, hc, hin⟩ := hmem
    simp only [List.mem_cons, List.not_mem_nil, or_false] at hin
    rcases fixed_mem hc with hd | rfl
    · rcases hin with rfl | rfl | rfl | rfl <;> cases hd
    · rcases hin with h | h | h | h <;> cases h
  · intro h
    rw [not_and_or, Bool.not_eq_false] at h
    rcases h with h | h
    · exact .inl (by simp [Literal.chars, h])
    · obtain ⟨e, he⟩ := Option.ne_none_iff_exists'.mp h
      right
      rw [List.any_eq_true]
      refine ⟨if e.capital then 'E' else 'e', ?_, ?_⟩
      · simp [Literal.chars, he, Literal.exponentChars, Json.Exponent.chars]
      · cases e.capital <;> rfl

theorem splitOn_fixed (n : Literal) :
    (n.whole ++ Literal.fractionChars n.fraction).splitOn '.' = n.whole :: n.fraction.toList := by
  have hfraction := n.fraction_all
  cases hf : n.fraction with
  | none =>
    rw [Literal.fractionChars, List.append_nil]
    exact Decimal.splitOn_digits n.whole_valid.all
  | some digits =>
    rw [hf] at hfraction
    exact Decimal.splitOn_point n.whole_valid.all hfraction

theorem value_satoshis {n : Literal} (hunsigned : n.negative = false) (hfixed : n.exponent = none)
    (hplaces : n.places ≤ 8) :
    n.value * 10 ^ 8 = (Nat.ofDigitChars 10 n.whole 0 * 100000000 +
      Nat.ofDigitChars 10 (n.fraction.getD []) 0 * 10 ^ (8 - n.places) : ℕ) := by
  have hmagnitude : n.magnitude = Nat.ofDigitChars 10 n.whole 0 * 10 ^ n.places +
      Nat.ofDigitChars 10 (n.fraction.getD []) 0 := by
    rw [Literal.magnitude, Nat.ofDigitChars_append, Nat.ofDigitChars_eq_ofDigitChars_zero,
      Literal.places, Nat.mul_comm]
  have hpow : (10 : ℚ) ^ n.places ≠ 0 := pow_ne_zero _ (by norm_num)
  have hsplit : (10 : ℚ) ^ 8 = 10 ^ n.places * 10 ^ (8 - n.places) := by
    rw [← pow_add, Nat.add_sub_cancel' hplaces]
  rw [Literal.value, hunsigned, hfixed, hmagnitude]
  push_cast
  rw [show (100000000 : ℚ) = 10 ^ 8 by norm_num]
  simp only [Option.elim_none, zpow_zero, mul_one, one_mul]
  rw [hsplit]
  field_simp

theorem toNat_satoshisPerBitcoin : satoshisPerBitcoin.toNat = 100000000 := rfl

/-- A number without sign and exponent is read unless it has too many decimals, or does not fit. -/
theorem fromJson_fixed {ε : Type} (fail : String → ε) {n : Literal} (u : Option UInt64) (context : String)
    (satoshis : UInt64) (hunsigned : n.negative = false) (hfixed : n.exponent = none) :
    fromJson fail (.number n.text u) context = .ok satoshis ↔ n.places ≤ 8 ∧
      satoshis.toNat = Nat.ofDigitChars 10 n.whole 0 * 100000000 +
        Nat.ofDigitChars 10 (n.fraction.getD []) 0 * 10 ^ (8 - n.places) := by
  have hlength : ¬ 2 < (n.whole :: n.fraction.toList).length := by cases n.fraction <;> simp
  have hfraction : n.fraction.toList.headD [] = n.fraction.getD [] := by cases n.fraction <;> rfl
  have hplaces : n.places = (n.fraction.getD []).length := rfl
  unfold fromJson
  simp only [Literal.text, String.toList_ofList]
  rw [if_neg (mt (marked_iff n).mp (not_not.mpr ⟨hunsigned, hfixed⟩)), chars_of_fixed hunsigned hfixed,
    splitOn_fixed, hplaces]
  simp only [List.headD_cons, List.tail_cons, hfraction, hlength, n.whole_valid.ne, n.whole_valid.all,
    n.fraction_all, false_or, not_true_eq_false]
  by_cases hlen : (n.fraction.getD []).length ≤ 8
  · rw [if_neg (Nat.not_lt.mpr hlen), and_iff_right hlen]
    simp only [Checked.bind_ok, orElse_ok, parseU64_some, fractionalSatoshis_ok fail context n.fraction_all hlen,
      Option.bind_eq_some_iff, Word.checkedMul_some, Word.checkedAdd_some, toNat_satoshisPerBitcoin]
    constructor
    · rintro ⟨whole, hwhole, fractional, hfractional, product, hproduct, hsum⟩
      rw [hsum, hproduct, hwhole, hfractional]
    · intro h
      have hs := satoshis.toNat_lt
      obtain ⟨fractional, hfractional⟩ := exists_fractional n.fraction_all hlen
      obtain ⟨product, hproduct⟩ := Word.exists_toNat
        (lt_of_le_of_lt (Nat.le_add_right _ _) (h ▸ hs))
      obtain ⟨whole, hwhole⟩ := Word.exists_toNat
        (lt_of_le_of_lt (Nat.le_mul_of_pos_right _ (by decide)) (hproduct ▸ product.toNat_lt))
      exact ⟨whole, hwhole, fractional, hfractional, product, by rw [hproduct, hwhole],
        by rw [h, hproduct, hfractional]⟩
  · rw [if_pos (Nat.lt_of_not_le hlen)]
    simp [hlen]

/-- **A number is read as satoshis** exactly when it is an exact amount, and as those satoshis. -/
theorem fromJson_ok_iff {ε : Type} (fail : String → ε) (n : Literal) (u : Option UInt64)
    (context : String) (satoshis : UInt64) :
    fromJson fail (.number n.text u) context = .ok satoshis ↔
      (n.negative = false ∧ n.exponent = none ∧ n.places ≤ 8) ∧
        (satoshis.toNat : ℚ) = n.value * 10 ^ 8 := by
  by_cases hfixed : n.negative = false ∧ n.exponent = none
  · rw [fromJson_fixed fail u context satoshis hfixed.1 hfixed.2]
    constructor
    · rintro ⟨hplaces, hvalue⟩
      exact ⟨⟨hfixed.1, hfixed.2, hplaces⟩, by rw [value_satoshis hfixed.1 hfixed.2 hplaces, hvalue]⟩
    · rintro ⟨⟨-, -, hplaces⟩, hvalue⟩
      rw [value_satoshis hfixed.1 hfixed.2 hplaces] at hvalue
      exact ⟨hplaces, Nat.cast_injective hvalue⟩
  · unfold fromJson
    simp only [Literal.text, String.toList_ofList]
    rw [if_pos ((marked_iff n).mpr hfixed)]
    constructor
    · intro h
      cases h
    · rintro ⟨⟨hunsigned, hexponent, -⟩, -⟩
      exact absurd ⟨hunsigned, hexponent⟩ hfixed

theorem fromJson_accepts_iff {ε : Type} (fail : String → ε) (n : Literal) (u : Option UInt64)
    (context : String) :
    (∃ satoshis, fromJson fail (.number n.text u) context = .ok satoshis) ↔ IsAmount n := by
  simp only [fromJson_ok_iff]
  constructor
  · rintro ⟨satoshis, ⟨hunsigned, hfixed, hplaces⟩, hvalue⟩
    refine ⟨hunsigned, hfixed, hplaces, ?_⟩
    rw [← hvalue]
    exact_mod_cast satoshis.toNat_lt
  · intro h
    have hexact := value_satoshis h.unsigned h.fixed h.places
    have hfits := h.fits
    rw [hexact] at hfits ⊢
    obtain ⟨satoshis, hsatoshis⟩ := Word.exists_toNat (by exact_mod_cast hfits)
    exact ⟨satoshis, ⟨h.unsigned, h.fixed, h.places⟩, by rw [hsatoshis]⟩

/-! ## Writing -/

theorem exists_zeros (l : List Char) : ∃ k, l = l.rdropWhile (· == '0') ++ List.replicate k '0' := by
  refine ⟨(l.rtakeWhile (· == '0')).length, ?_⟩
  conv_lhs => rw [← List.rdropWhile_append_rtakeWhile (p := (· == '0')) (l := l)]
  congr 1
  exact List.eq_replicate_of_mem fun c hc => by simpa using List.mem_rtakeWhile_imp hc

theorem rdropWhile_append {p : Char → Bool} {a b : List Char} (h : b.rdropWhile p ≠ []) :
    (a ++ b).rdropWhile p = a ++ b.rdropWhile p := by
  have hdrop : b.reverse.dropWhile p ≠ [] := by simpa [List.rdropWhile] using h
  rw [List.rdropWhile, List.reverse_append, List.dropWhile_append, if_neg (by simpa using hdrop),
    List.reverse_append, List.reverse_reverse]
  rfl

theorem padded_spec {width n : Nat} (hpos : 0 < width) (h : n < 10 ^ width) :
    (padded width n).length = width ∧ (padded width n).all Char.isDigit = true ∧
      Nat.ofDigitChars 10 (padded width n) 0 = n := by
  have hlen : (Nat.toDigits 10 n).length ≤ width := (Nat.length_toDigits_le_iff (by decide) hpos).mpr h
  refine ⟨?_, ?_, ?_⟩
  · simp [padded, hlen]
  · rw [padded, List.all_append, Decimal.replicate_isDigit, Decimal.toDigits_isDigit]
    rfl
  · rw [padded, Nat.ofDigitChars_append, Nat.ofDigitChars_replicate_zero, Nat.mul_zero,
      Nat.ofDigitChars_ten_toDigits]

theorem trimmed_spec {n : Nat} (hpos : 0 < n) (h : n < 10 ^ 8) :
    let fraction := (padded 8 n).rdropWhile (· == '0')
    fraction ≠ [] ∧ fraction.all Char.isDigit = true ∧ fraction.length ≤ 8 ∧
      Nat.ofDigitChars 10 fraction 0 * 10 ^ (8 - fraction.length) = n := by
  intro fraction
  obtain ⟨hlen, hall, hvalue⟩ := padded_spec (by decide) h
  obtain ⟨k, hk⟩ := exists_zeros (padded 8 n)
  have hsum : fraction.length + k = 8 := by
    rw [hk, List.length_append, List.length_replicate] at hlen
    exact hlen
  have hscaled : Nat.ofDigitChars 10 fraction 0 * 10 ^ k = n := by
    rw [hk, Nat.ofDigitChars_append, Nat.ofDigitChars_replicate_zero] at hvalue
    rw [Nat.mul_comm]
    exact hvalue
  refine ⟨?_, ?_, by omega, ?_⟩
  · intro hnil
    rw [hnil, Nat.ofDigitChars_nil, Nat.zero_mul] at hscaled
    omega
  · rw [hk, List.all_append, Bool.and_eq_true] at hall
    exact hall.1
  · rw [show 8 - fraction.length = k by omega]
    exact hscaled

/-- Less than a bitcoin is written with a zero in front of the point. -/
theorem coreMaximumJson_fraction {r : FeeRate} (hpos : 0 < r.satoshisPerKvb.toNat)
    (hlt : r.satoshisPerKvb.toNat < 10 ^ 8) :
    ∃ n : Literal, r.coreMaximumJson = .ok n ∧ (n.negative = false ∧ n.exponent = none ∧ n.places ≤ 8) ∧
      (r.satoshisPerKvb.toNat : ℚ) = n.value * 10 ^ 8 := by
  obtain ⟨hne, hall, hlen, hvalue⟩ := trimmed_spec hpos hlt
  set fraction := (padded 8 r.satoshisPerKvb.toNat).rdropWhile (· == '0') with hfraction
  have hper : satoshisPerBitcoin.toNat = 10 ^ 8 := rfl
  have hwhole : (r.satoshisPerKvb / satoshisPerBitcoin).toNat = 0 := by
    rw [UInt64.toNat_div, hper, Nat.div_eq_of_lt hlt]
  have hremainder : (r.satoshisPerKvb % satoshisPerBitcoin).toNat = r.satoshisPerKvb.toNat := by
    rw [UInt64.toNat_mod, hper, Nat.mod_eq_of_lt hlt]
  have hremainder_ne : r.satoshisPerKvb % satoshisPerBitcoin ≠ 0 := by
    intro h
    rw [h] at hremainder
    exact absurd hremainder.symm (Nat.pos_iff_ne_zero.mp hpos)
  have hne_zero : r.satoshisPerKvb ≠ 0 := by
    intro h
    rw [h] at hpos
    exact absurd hpos (Nat.lt_irrefl 0)
  have hlimit : ¬ r.satoshisPerKvb > bitcoinCoreMaxFeeRateSatoshisPerKvb := by
    rw [gt_iff_lt, UInt64.lt_iff_toNat_lt]
    exact Nat.not_lt.mpr hlt.le
  let n : Literal := ⟨false, ['0'], some fraction, none, ⟨by simp, rfl, fun _ => rfl⟩, by simpa using hne, hall⟩
  have hlexical : (Nat.toDigits 10 0 ++ '.' :: padded 8 r.satoshisPerKvb.toNat).rdropWhile (· == '0') =
      n.chars := by
    rw [List.append_cons, rdropWhile_append hne]
    simp [Literal.chars, n, Literal.fractionChars, Literal.exponentChars, hfraction]
  refine ⟨n, ?_, ⟨rfl, rfl, hlen⟩, ?_⟩
  · unfold FeeRate.coreMaximumJson
    simp only [if_neg hne_zero, if_neg hlimit, if_neg hremainder_ne, hwhole, hremainder, hlexical,
      Literal.fromStr_chars]
  · rw [value_satoshis (n := n) rfl rfl hlen]
    congr 1
    have hn : n.places = fraction.length := rfl
    rw [hn, show n.fraction.getD [] = fraction from rfl, hvalue,
      show Nat.ofDigitChars 10 n.whole 0 = 0 from rfl, Nat.zero_mul, Nat.zero_add]

theorem coreMaximumJson_ok {r : FeeRate} (hpos : 1 ≤ r.satoshisPerKvb)
    (hle : r.satoshisPerKvb ≤ bitcoinCoreMaxFeeRateSatoshisPerKvb) :
    ∃ n : Literal, r.coreMaximumJson = .ok n ∧ (n.negative = false ∧ n.exponent = none ∧ n.places ≤ 8) ∧
      (r.satoshisPerKvb.toNat : ℚ) = n.value * 10 ^ 8 := by
  rw [UInt64.le_iff_toNat_le] at hpos hle
  have hle' : r.satoshisPerKvb.toNat ≤ 10 ^ 8 := hle
  rcases Nat.lt_or_eq_of_le hle' with hlt | heq
  · exact coreMaximumJson_fraction hpos hlt
  · obtain ⟨rate⟩ := r
    obtain rfl : rate = 100000000 := UInt64.toNat_inj.mp heq
    let n : Literal := ⟨false, ['1'], none, none, ⟨by simp, rfl, fun h => by simp at h⟩, by simp, rfl⟩
    have hread : Literal.fromStr ['1'] = some n := Literal.fromStr_chars n
    refine ⟨n, ?_, ⟨rfl, rfl, by simp [n, Literal.places]⟩, ?_⟩
    · have hone : Nat.toDigits 10 (100000000 / satoshisPerBitcoin).toNat = ['1'] := by decide
      have hremainder : (100000000 : UInt64) % satoshisPerBitcoin = 0 := by decide
      have hlimit : ¬ (100000000 : UInt64) > bitcoinCoreMaxFeeRateSatoshisPerKvb := by decide
      simp only [FeeRate.coreMaximumJson, hremainder, hlimit, hone, hread, if_true, if_false]
      rw [if_neg (by decide)]
    · rw [value_satoshis (n := n) rfl rfl (by simp [n, Literal.places])]
      have hwhole : Nat.ofDigitChars 10 n.whole 0 = 1 := rfl
      have hnone : Nat.ofDigitChars 10 (n.fraction.getD []) 0 = 0 := rfl
      rw [hwhole, hnone, Nat.zero_mul, Nat.one_mul, Nat.add_zero]
      rfl

/-- **Amounts are read exactly.** Both parsers accept the numbers that are exact amounts, with
exactly those satoshis, and a fee rate that is written is read back. -/
theorem amounts_read_exactly :
    (∀ (n : Literal) (u : Option UInt64) (context : String),
      ((∃ satoshis, fromBlockJson (.number n.text u) context = .ok satoshis) ↔ IsAmount n) ∧
      ((∃ satoshis, fromRpcJson (.number n.text u) context = .ok satoshis) ↔ IsAmount n) ∧
      (∀ satoshis, fromBlockJson (.number n.text u) context = .ok satoshis →
        (satoshis.toNat : ℚ) = n.value * 10 ^ 8) ∧
      ∀ satoshis, fromRpcJson (.number n.text u) context = .ok satoshis →
        (satoshis.toNat : ℚ) = n.value * 10 ^ 8) ∧
    ∀ r : FeeRate, 1 ≤ r.satoshisPerKvb → r.satoshisPerKvb ≤ bitcoinCoreMaxFeeRateSatoshisPerKvb →
      ∃ n : Literal, r.coreMaximumJson = .ok n ∧
        ∀ u context, fromRpcJson (.number n.text u) context = .ok r.satoshisPerKvb := by
  constructor
  · intro n u context
    refine ⟨fromJson_accepts_iff _ n u context, fromJson_accepts_iff _ n u context, ?_, ?_⟩
    · intro satoshis h
      exact ((fromJson_ok_iff _ n u context satoshis).mp h).2
    · intro satoshis h
      exact ((fromJson_ok_iff _ n u context satoshis).mp h).2
  · intro r hpos hle
    obtain ⟨n, hok, hexact⟩ := coreMaximumJson_ok hpos hle
    exact ⟨n, hok, fun u context => (fromJson_ok_iff _ n u context _).mpr hexact⟩

theorem amounts_read_exactly_one : ∃ n : Literal, FeeRate.coreMaximumJson ⟨1⟩ = .ok n ∧
    ∀ u context, fromRpcJson (.number n.text u) context = .ok 1 :=
  amounts_read_exactly.2 ⟨1⟩ (by decide) (by decide)

end PaymentSdk.Bitcoin
