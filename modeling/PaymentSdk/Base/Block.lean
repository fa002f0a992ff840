import Mathlib.Algebra.Group.Nat.Defs
import Mathlib.Tactic.Common

/-!
# Block references

A block has two coordinates. The position is the native one that the node's RPC
uses, and may skip. The height counts produced blocks.
-/

namespace PaymentSdk

/-- Number of produced blocks through one canonical block. -/
structure BlockHeight where
  val : UInt64
  deriving DecidableEq

/-- Native monotonic coordinate of a chain's RPC interface. -/
structure BlockPosition where
  val : UInt64
  deriving DecidableEq

def checkedSuccessor (n : UInt64) : Option UInt64 :=
  if n.toNat + 1 < 2 ^ 64 then some (n + 1) else none

def BlockHeight.checkedSuccessor (h : BlockHeight) : Option BlockHeight :=
  (PaymentSdk.checkedSuccessor h.val).map BlockHeight.mk

def BlockPosition.checkedSuccessor (p : BlockPosition) : Option BlockPosition :=
  (PaymentSdk.checkedSuccessor p.val).map BlockPosition.mk

def BlockHeight.toNat (h : BlockHeight) : Nat := h.val.toNat

def BlockPosition.toNat (p : BlockPosition) : Nat := p.val.toNat

instance : LT BlockPosition := ⟨fun a b => a.toNat < b.toNat⟩
instance : LE BlockPosition := ⟨fun a b => a.toNat ≤ b.toNat⟩
instance : DecidableLT BlockPosition := fun a b => inferInstanceAs (Decidable (a.toNat < b.toNat))
instance : DecidableLE BlockPosition := fun a b => inferInstanceAs (Decidable (a.toNat ≤ b.toNat))

/-- Canonical block identity in the chain's native byte order. -/
structure BlockHash where
  bytes : List UInt8
  deriving DecidableEq

/-- The parent that a block names. -/
structure BlockParent where
  position : BlockPosition
  hash : BlockHash
  deriving DecidableEq

/-- A block by its position, height and hash, with the parent that it names. -/
structure BlockRef where
  position : BlockPosition
  height : BlockHeight
  hash : BlockHash
  parent : Option BlockParent
  timestamp : Option UInt64
  deriving DecidableEq

/-! ## Coordinates as numbers -/

theorem BlockPosition.lt_def {a b : BlockPosition} : a < b ↔ a.toNat < b.toNat := Iff.rfl

theorem BlockPosition.le_def {a b : BlockPosition} : a ≤ b ↔ a.toNat ≤ b.toNat := Iff.rfl

theorem BlockHeight.toNat_inj {a b : BlockHeight} (h : a.toNat = b.toNat) : a = b := by
  cases a; cases b
  simp only [BlockHeight.toNat] at h
  rw [UInt64.toNat_inj.mp h]

theorem BlockHeight.toNat_lt (h : BlockHeight) : h.toNat < 2 ^ 64 := h.val.toNat_lt

theorem checkedSuccessor_eq_some {n m : UInt64} (h : checkedSuccessor n = some m) :
    m.toNat = n.toNat + 1 := by
  unfold checkedSuccessor at h
  split at h
  · cases h
    simp only [UInt64.toNat_add, UInt64.reduceToNat]
    omega
  · cases h

theorem BlockHeight.checkedSuccessor_eq_some {h k : BlockHeight}
    (hs : h.checkedSuccessor = some k) : k.toNat = h.toNat + 1 := by
  simp only [BlockHeight.checkedSuccessor, Option.map_eq_some_iff] at hs
  obtain ⟨m, hm, rfl⟩ := hs
  exact PaymentSdk.checkedSuccessor_eq_some hm

theorem BlockPosition.checkedSuccessor_eq_some {p q : BlockPosition}
    (hs : p.checkedSuccessor = some q) : q.toNat = p.toNat + 1 := by
  simp only [BlockPosition.checkedSuccessor, Option.map_eq_some_iff] at hs
  obtain ⟨m, hm, rfl⟩ := hs
  exact PaymentSdk.checkedSuccessor_eq_some hm

end PaymentSdk
