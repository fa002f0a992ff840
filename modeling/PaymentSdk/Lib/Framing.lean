import Mathlib.Algebra.Group.Nat.Defs
import Mathlib.Data.List.Basic
import Mathlib.Tactic.Common

/-!
# Fixed-width integers and length-framed bytes

A frame is the 8-byte big-endian length of its content, then the content. Frames
can be cut off the front of a byte string in one way only.
-/

namespace Framing

/-- The low `width` bytes of `n`, most significant first. -/
def bigEndian : (width n : Nat) → List UInt8
  | 0, _ => []
  | width + 1, n => bigEndian width (n / 256) ++ [UInt8.ofNat (n % 256)]

@[simp]
theorem bigEndian_length (width n : Nat) : (bigEndian width n).length = width := by
  induction width generalizing n with
  | zero => rfl
  | succ width ih => simp [bigEndian, ih]

theorem byte_ofNat_inj {a b : Nat} (ha : a < 256) (hb : b < 256)
    (h : UInt8.ofNat a = UInt8.ofNat b) : a = b := by
  have := congrArg UInt8.toNat h
  simpa [Nat.mod_eq_of_lt ha, Nat.mod_eq_of_lt hb] using this

theorem bigEndian_inj {width m n : Nat} (hm : m < 256 ^ width) (hn : n < 256 ^ width)
    (h : bigEndian width m = bigEndian width n) : m = n := by
  induction width generalizing m n with
  | zero => simp at hm hn; omega
  | succ width ih =>
    simp only [bigEndian] at h
    obtain ⟨hinit, hlast⟩ := List.append_inj h (by simp)
    simp only [List.cons.injEq, and_true] at hlast
    rw [Nat.pow_succ] at hm hn
    have hdiv : m / 256 = n / 256 :=
      ih (Nat.div_lt_of_lt_mul (by omega)) (Nat.div_lt_of_lt_mul (by omega)) hinit
    have hmod := byte_ofNat_inj (Nat.mod_lt _ (by omega)) (Nat.mod_lt _ (by omega)) hlast
    omega

/-- The length comes first, so that no content reads as another one's prefix. -/
def frame (content : List UInt8) : List UInt8 := bigEndian 8 content.length ++ content

theorem frame_append_inj {a b x y : List UInt8} (ha : a.length < 2 ^ 64) (hb : b.length < 2 ^ 64)
    (h : frame a ++ x = frame b ++ y) : a = b ∧ x = y := by
  simp only [frame, List.append_assoc] at h
  obtain ⟨hlen, hrest⟩ := List.append_inj h (by simp)
  have hab : a.length = b.length := bigEndian_inj (by simpa using ha) (by simpa using hb) hlen
  exact List.append_inj hrest hab

end Framing
