import Mathlib.Data.List.Basic
import Mathlib.Tactic.Common

/-!
# Texts made of fields

A text that puts a separator between fields which do not contain it can be cut back into
those fields.
-/

namespace Fields

variable {separator : Char}

/-- Fields with the separator between them. -/
def join (separator : Char) (fields : List (List Char)) : List Char := [separator].intercalate fields

theorem join_inj {a b : List (List Char)} (ha : ∀ field ∈ a, separator ∉ field)
    (hb : ∀ field ∈ b, separator ∉ field) (hane : a ≠ []) (hbne : b ≠ [])
    (h : join separator a = join separator b) : a = b := by
  unfold join at h
  rw [← List.splitOn_intercalate separator ha hane, h, List.splitOn_intercalate separator hb hbne]

/-! ## Numbers as fields -/

theorem toString_digits (n : Nat) : (toString n).toList = Nat.toDigits 10 n := by
  rw [Nat.toString_eq_repr, Nat.toList_repr]

theorem toString_inj {a b : Nat} (h : (toString a).toList = (toString b).toList) : a = b := by
  rw [toString_digits, toString_digits] at h
  have hparsed := congrArg (fun digits => Nat.ofDigitChars 10 digits 0) h
  simpa using hparsed

theorem not_mem_toString {c : Char} (hc : c.isDigit = false) (n : Nat) : c ∉ (toString n).toList := by
  rw [toString_digits]
  intro h
  rw [Nat.isDigit_of_mem_toDigits (by decide) (by decide) h] at hc
  cases hc

end Fields
