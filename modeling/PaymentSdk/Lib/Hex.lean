import Mathlib.Data.List.Basic
import Mathlib.Tactic.Common

/-! # Hexadecimal texts of bytes -/

namespace Hex

def digit (n : Nat) : Char := Char.ofNat (if n < 10 then 48 + n else 87 + n)

/-- Lower-case, two digits a byte. -/
def encode (bytes : List UInt8) : List Char :=
  bytes.flatMap fun byte => [digit (byte.toNat / 16), digit (byte.toNat % 16)]

theorem digit_inj {m n : Nat} (hm : m < 16) (hn : n < 16) (h : digit m = digit n) : m = n := by
  have hall : ∀ m n : Fin 16, digit m = digit n → m = n := by decide
  simpa using congrArg Fin.val (hall ⟨m, hm⟩ ⟨n, hn⟩ h)

theorem length_encode (bytes : List UInt8) : (encode bytes).length = 2 * bytes.length := by
  induction bytes with
  | nil => rfl
  | cons byte bytes ih =>
    simp only [encode, List.flatMap_cons, List.length_append, List.length_cons, List.length_nil] at ih ⊢
    omega

theorem encode_inj {a b : List UInt8} (h : encode a = encode b) : a = b := by
  induction a generalizing b with
  | nil =>
    cases b with
    | nil => rfl
    | cons _ _ => simp [encode] at h
  | cons x a ih =>
    cases b with
    | nil => simp [encode] at h
    | cons y b =>
      simp only [encode, List.flatMap_cons, List.cons_append, List.nil_append, List.cons.injEq] at h
      obtain ⟨hhigh, hlow, hrest⟩ := h
      have hx := x.toNat_lt
      have hy := y.toNat_lt
      have hdiv := digit_inj (by omega) (by omega) hhigh
      have hmod := digit_inj (by omega) (by omega) hlow
      have hxy : x = y := UInt8.toNat_inj.mp (by omega)
      rw [hxy, ih hrest]

/-! ## Reading -/

/-- The value of an ASCII digit of either case. -/
def nibble (byte : UInt8) : Option Nat :=
  if 48 ≤ byte ∧ byte ≤ 57 then some (byte.toNat - 48)
  else if 97 ≤ byte ∧ byte ≤ 102 then some (byte.toNat - 87)
  else if 65 ≤ byte ∧ byte ≤ 70 then some (byte.toNat - 55)
  else none

/-- One byte from every two digits. -/
def decodePairs : List UInt8 → Option (List UInt8)
  | [] => some []
  | [_] => none
  | a :: b :: rest => do
    let high ← nibble a
    let low ← nibble b
    let bytes ← decodePairs rest
    return .ofNat (16 * high + low) :: bytes

theorem decodePairs_length {digits bytes : List UInt8} (h : decodePairs digits = some bytes) :
    digits.length = 2 * bytes.length := by
  induction digits using decodePairs.induct generalizing bytes with
  | case1 =>
    cases h
    rfl
  | case2 => cases h
  | case3 a b rest ih =>
    simp only [decodePairs, Option.bind_eq_bind, Option.bind_eq_some_iff, Option.pure_def,
      Option.some.injEq] at h
    obtain ⟨high, -, low, -, tail, htail, rfl⟩ := h
    have := ih htail
    simp only [List.length_cons]
    omega

theorem decodePairs_isSome (digits : List UInt8) :
    (decodePairs digits).isSome = true ↔ digits.length % 2 = 0 ∧ ∀ b ∈ digits, (nibble b).isSome = true := by
  induction digits using decodePairs.induct with
  | case1 => simp [decodePairs]
  | case2 a => simp [decodePairs]
  | case3 a b rest ih =>
    have hstep : (decodePairs (a :: b :: rest)).isSome = true ↔
        (nibble a).isSome = true ∧ (nibble b).isSome = true ∧ (decodePairs rest).isSome = true := by
      rw [decodePairs]
      cases nibble a <;> cases nibble b <;> cases decodePairs rest <;> simp
    rw [hstep, ih]
    simp only [List.length_cons, List.mem_cons, forall_eq_or_imp]
    constructor
    · rintro ⟨ha, hb, heven, hrest⟩
      exact ⟨by omega, ha, hb, hrest⟩
    · rintro ⟨heven, ha, hb, hrest⟩
      exact ⟨ha, hb, by omega, hrest⟩

end Hex
