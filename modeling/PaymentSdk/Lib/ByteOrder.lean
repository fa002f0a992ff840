import PaymentSdk.Lib.Framing

/-!
# The order of byte strings

Byte strings are compared byte by byte. Where the fronts are equally long, the order of the fronts
comes first. Numbers of one width, most significant byte first, have the order of the numbers.
-/

open Std

namespace Framing

theorem compare_append_append {a b x y : List UInt8} (h : a.length = b.length) :
    compare (a ++ x) (b ++ y) = (compare a b).then (compare x y) := by
  induction a generalizing b with
  | nil =>
    obtain rfl := List.length_eq_zero_iff.mp h.symm
    rfl
  | cons c a ih =>
    cases b with
    | nil => cases h
    | cons d b =>
      rw [List.cons_append, List.cons_append, List.compare_cons_cons, ih (Nat.succ.inj h),
        List.compare_cons_cons, Ordering.then_assoc]

theorem compare_append (front a b : List UInt8) : compare (front ++ a) (front ++ b) = compare a b := by
  have hself : compare front front = .eq := ReflCmp.compare_self
  rw [compare_append_append rfl, hself, Ordering.eq_then]

theorem compare_digits (m n : Nat) :
    compare m n = (compare (m / 256) (n / 256)).then (compare (m % 256) (n % 256)) := by
  rcases Nat.lt_trichotomy (m / 256) (n / 256) with h | h | h
  · have hlt : m < n := by omega
    rw [Nat.compare_eq_lt.mpr h, Nat.compare_eq_lt.mpr hlt]
    rfl
  · rw [Nat.compare_eq_eq.mpr h, Ordering.eq_then]
    rcases Nat.lt_trichotomy (m % 256) (n % 256) with hd | hd | hd
    · rw [Nat.compare_eq_lt.mpr hd, Nat.compare_eq_lt.mpr (by omega)]
    · rw [Nat.compare_eq_eq.mpr hd, Nat.compare_eq_eq.mpr (by omega)]
    · rw [Nat.compare_eq_gt.mpr hd, Nat.compare_eq_gt.mpr (by omega)]
  · have hlt : n < m := by omega
    rw [Nat.compare_eq_gt.mpr h, Nat.compare_eq_gt.mpr hlt]
    rfl

theorem compare_byte {m n : Nat} (hm : m < 256) (hn : n < 256) :
    compare (UInt8.ofNat m) (UInt8.ofNat n) = compare m n := by
  have hbyte : ∀ k < 256, (UInt8.ofNat k).toNat = k := fun k hk => UInt8.toNat_ofNat_of_lt' hk
  simp only [compare, compareOfLessAndEq, UInt8.lt_iff_toNat_lt, ← UInt8.toNat_inj, hbyte m hm, hbyte n hn]

theorem compare_bigEndian {width m n : Nat} (hm : m < 256 ^ width) (hn : n < 256 ^ width) :
    compare (bigEndian width m) (bigEndian width n) = compare m n := by
  induction width generalizing m n with
  | zero =>
    obtain rfl : m = 0 := by simpa using hm
    obtain rfl : n = 0 := by simpa using hn
    rfl
  | succ width ih =>
    rw [Nat.pow_succ] at hm hn
    have hinit := ih (Nat.div_lt_of_lt_mul (by omega) : m / 256 < 256 ^ width)
      (Nat.div_lt_of_lt_mul (by omega) : n / 256 < 256 ^ width)
    have hlast := compare_byte (Nat.mod_lt m (by omega)) (Nat.mod_lt n (by omega))
    rw [bigEndian, bigEndian, compare_append_append (by simp), hinit, List.compare_cons_cons, hlast,
      List.compare_nil_nil, Ordering.then_eq, ← compare_digits]

end Framing
