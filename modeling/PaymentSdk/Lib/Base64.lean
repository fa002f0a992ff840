import Mathlib.Data.List.Basic
import Mathlib.Tactic.Common

/-!
# Bytes as texts of 64 digits

The alphabet of addresses, without padding. Three bytes are four digits, and the last digit of a
shorter group has no bits to spare.
-/

namespace Base64

/-- `A` to `Z`, `a` to `z`, `0` to `9`, `-` and `_`. -/
def digit (n : Nat) : Char :=
  Char.ofNat (if n < 26 then 65 + n else if n < 52 then 71 + n else if n < 62 then n - 4 else if n = 62 then 45 else 95)

def value (c : Char) : Option Nat :=
  if 65 ≤ c.toNat ∧ c.toNat ≤ 90 then some (c.toNat - 65)
  else if 97 ≤ c.toNat ∧ c.toNat ≤ 122 then some (c.toNat - 71)
  else if 48 ≤ c.toNat ∧ c.toNat ≤ 57 then some (c.toNat + 4)
  else if c.toNat = 45 then some 62
  else if c.toNat = 95 then some 63
  else none

def encode : List UInt8 → List Char
  | [] => []
  | [a] => [digit (a.toNat / 4), digit (a.toNat % 4 * 16)]
  | [a, b] => [digit (a.toNat / 4), digit (a.toNat % 4 * 16 + b.toNat / 16), digit (b.toNat % 16 * 4)]
  | a :: b :: c :: rest =>
    digit (a.toNat / 4) :: digit (a.toNat % 4 * 16 + b.toNat / 16) :: digit (b.toNat % 16 * 4 + c.toNat / 64) ::
      digit (c.toNat % 64) :: encode rest

def decode : List Char → Option (List UInt8)
  | [] => some []
  | [_] => none
  | [w, x] => do
    let w ← value w
    let x ← value x
    if x % 16 = 0 then some [.ofNat (w * 4 + x / 16)] else none
  | [w, x, y] => do
    let w ← value w
    let x ← value x
    let y ← value y
    if y % 4 = 0 then some [.ofNat (w * 4 + x / 16), .ofNat (x % 16 * 16 + y / 4)] else none
  | w :: x :: y :: z :: rest => do
    let w ← value w
    let x ← value x
    let y ← value y
    let z ← value z
    let bytes ← decode rest
    return .ofNat (w * 4 + x / 16) :: .ofNat (x % 16 * 16 + y / 4) :: .ofNat (y % 4 * 64 + z) :: bytes

theorem value_digit {n : Nat} (h : n < 64) : value (digit n) = some n := by
  have hall : ∀ n < 64, value (digit n) = some n := by decide
  exact hall n h

theorem ofNat_eq {n : Nat} {b : UInt8} (h : n = b.toNat) : UInt8.ofNat n = b := by
  rw [h, UInt8.ofNat_toNat]

theorem decode_encode (bytes : List UInt8) : decode (encode bytes) = some bytes := by
  induction bytes using encode.induct with
  | case1 => rfl
  | case2 a =>
    have ha := a.toNat_lt
    rw [encode, decode, value_digit (by omega), value_digit (by omega)]
    simp only [Option.bind_eq_bind, Option.bind_some]
    rw [if_pos (by omega), ofNat_eq (b := a) (by omega)]
  | case3 a b =>
    have ha := a.toNat_lt
    have hb := b.toNat_lt
    rw [encode, decode, value_digit (by omega), value_digit (by omega), value_digit (by omega)]
    simp only [Option.bind_eq_bind, Option.bind_some]
    rw [if_pos (by omega), ofNat_eq (b := a) (by omega), ofNat_eq (b := b) (by omega)]
  | case4 a b c rest ih =>
    have ha := a.toNat_lt
    have hb := b.toNat_lt
    have hc := c.toNat_lt
    rw [encode, decode, value_digit (by omega), value_digit (by omega), value_digit (by omega), value_digit (by omega), ih]
    simp only [Option.bind_eq_bind, Option.bind_some, Option.pure_def]
    rw [ofNat_eq (b := a) (by omega), ofNat_eq (b := b) (by omega), ofNat_eq (b := c) (by omega)]

end Base64
