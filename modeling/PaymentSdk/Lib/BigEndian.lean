import Mathlib.Data.Nat.Digits.Lemmas
import PaymentSdk.Lib.Framing

/-!
# Numbers as big-endian bytes

A number has one byte string without a leading zero byte, and it is the shortest one. A fixed
width has room for the numbers below its power of 256.
-/

namespace BigEndian

def number (bytes : List UInt8) : Nat := Nat.ofDigits 256 (bytes.map (·.toNat)).reverse

/-- The bytes of a number, without leading zeros. -/
def minimal (n : Nat) : List UInt8 := (Nat.digits 256 n).reverse.map UInt8.ofNat

/-! ## Digits -/

theorem head_digits (b n : Nat) : (Nat.digits b n).reverse.head? ≠ some 0 := by
  rw [List.head?_reverse]
  by_cases hn : n = 0
  · simp [hn]
  · rw [List.getLast?_eq_some_getLast (Nat.digits_ne_nil_iff_ne_zero.mpr hn)]
    intro h
    exact Nat.getLast_digit_ne_zero b hn (Option.some.inj h)

theorem digits_number {b : Nat} (hb : 1 < b) {l : List Nat} (hl : ∀ d ∈ l, d < b)
    (hhead : l.head? ≠ some 0) : (Nat.digits b (Nat.ofDigits b l.reverse)).reverse = l := by
  rw [Nat.digits_ofDigits b hb, List.reverse_reverse]
  · intro d hd
    exact hl d (List.mem_reverse.mp hd)
  · intro hne hlast
    apply hhead
    rw [← List.getLast?_reverse, List.getLast?_eq_some_getLast hne, hlast]

/-! ## Bytes -/

theorem map_toNat_minimal (n : Nat) : (minimal n).map (·.toNat) = (Nat.digits 256 n).reverse := by
  rw [minimal, List.map_map]
  conv_rhs => rw [← List.map_id (Nat.digits 256 n).reverse]
  apply List.map_congr_left
  intro d hd
  have hlt : d < 256 := Nat.digits_lt_base (by decide) (List.mem_reverse.mp hd)
  simpa using hlt

theorem number_minimal (n : Nat) : number (minimal n) = n := by
  rw [number, map_toNat_minimal, List.reverse_reverse, Nat.ofDigits_digits]

theorem head_minimal (n : Nat) : (minimal n).head? ≠ some 0 := by
  intro h
  apply head_digits 256 n
  rw [← map_toNat_minimal, List.head?_map, h]
  rfl

theorem minimal_number {bytes : List UInt8} (h : bytes.head? ≠ some 0) :
    minimal (number bytes) = bytes := by
  have hhead : (bytes.map (·.toNat)).head? ≠ some 0 := by
    rw [List.head?_map]
    intro hzero
    obtain ⟨byte, hbyte, hnat⟩ := Option.map_eq_some_iff.mp hzero
    obtain rfl : byte = 0 := UInt8.toNat_inj.mp hnat
    exact h hbyte
  have hlt : ∀ d ∈ bytes.map (·.toNat), d < 256 := by
    intro d hd
    obtain ⟨byte, -, rfl⟩ := List.mem_map.mp hd
    exact byte.toNat_lt
  rw [minimal, number, digits_number (by decide) hlt hhead, List.map_map]
  exact List.map_id'' (fun byte => UInt8.ofNat_toNat) bytes

theorem number_zeros (k : Nat) (bytes : List UInt8) :
    number (List.replicate k 0 ++ bytes) = number bytes := by
  rw [number, List.map_append, List.reverse_append, List.map_replicate, List.reverse_replicate]
  exact Nat.ofDigits_append_replicate_zero _

theorem length_minimal_le_iff {n k : Nat} : (minimal n).length ≤ k ↔ n < 256 ^ k := by
  rw [minimal, List.length_map, List.length_reverse]
  exact Nat.digits_length_le_iff (by decide) n

theorem minimal_eq_nil_iff {n : Nat} : minimal n = [] ↔ n = 0 := by
  simp [minimal, Nat.digits_eq_nil_iff_eq_zero]

/-! ## Fixed widths -/

theorem number_append (bytes : List UInt8) (b : UInt8) :
    number (bytes ++ [b]) = 256 * number bytes + b.toNat := by
  simp [number, Nat.ofDigits_cons]
  omega

theorem number_bigEndian {width n : Nat} (h : n < 256 ^ width) :
    number (Framing.bigEndian width n) = n := by
  induction width generalizing n with
  | zero =>
    simp at h
    simp [Framing.bigEndian, number, h]
  | succ width ih =>
    have hdiv : n / 256 < 256 ^ width := Nat.div_lt_of_lt_mul (by rw [pow_succ] at h; omega)
    rw [Framing.bigEndian, number_append, ih hdiv]
    simp
    omega

theorem number_lt (bytes : List UInt8) : number bytes < 256 ^ bytes.length := by
  have hlt : ∀ d ∈ (bytes.map (·.toNat)).reverse, d < 256 := by
    intro d hd
    obtain ⟨byte, -, rfl⟩ := List.mem_map.mp (List.mem_reverse.mp hd)
    exact byte.toNat_lt
  have h := Nat.ofDigits_lt_base_pow_length (by decide) hlt
  rwa [List.length_reverse, List.length_map] at h

theorem bigEndian_number (bytes : List UInt8) : Framing.bigEndian bytes.length (number bytes) = bytes := by
  induction bytes using List.reverseRecOn with
  | nil => rfl
  | append_singleton bytes b ih =>
    have hb := b.toNat_lt
    have hdiv : (256 * number bytes + b.toNat) / 256 = number bytes := by omega
    have hmod : (256 * number bytes + b.toNat) % 256 = b.toNat := by omega
    rw [List.length_append, List.length_singleton, number_append, Framing.bigEndian, hdiv, hmod, ih,
      UInt8.ofNat_toNat]

end BigEndian
