import Mathlib.Algebra.GroupWithZero.Nat
import Mathlib.Algebra.Order.BigOperators.Group.List
import Mathlib.Algebra.Order.Group.Nat
import Mathlib.Data.List.Perm.Subperm
import Mathlib.Tactic.Common

/-!
# Checked arithmetic on 64-bit words

An operation gives `none` where the exact result is no word. A result is described by the
natural number that it stands for.
-/

namespace Word

def checkedAdd (a b : UInt64) : Option UInt64 :=
  if a.toNat + b.toNat < 2 ^ 64 then some (a + b) else none

def checkedMul (a b : UInt64) : Option UInt64 :=
  if a.toNat * b.toNat < 2 ^ 64 then some (a * b) else none

def checkedSub (a b : UInt64) : Option UInt64 :=
  if b ≤ a then some (a - b) else none

/-- A checked sum, as a fold that stops at the first overflow. -/
def checkedSum (l : List UInt64) : Option UInt64 := l.foldlM checkedAdd 0

/-- The sum in the natural numbers. -/
def total (l : List UInt64) : Nat := (l.map UInt64.toNat).sum

variable {a b c : UInt64}

theorem checkedAdd_some : checkedAdd a b = some c ↔ c.toNat = a.toNat + b.toNat := by
  have hc := c.toNat_lt
  rw [checkedAdd, Option.ite_none_right_eq_some, Option.some.injEq, ← UInt64.toNat_inj, UInt64.toNat_add]
  omega

theorem checkedAdd_none : checkedAdd a b = none ↔ 2 ^ 64 ≤ a.toNat + b.toNat := by
  rw [checkedAdd, ite_eq_right_iff]
  simp

theorem checkedMul_some : checkedMul a b = some c ↔ c.toNat = a.toNat * b.toNat := by
  have hc := c.toNat_lt
  rw [checkedMul, Option.ite_none_right_eq_some, Option.some.injEq, ← UInt64.toNat_inj, UInt64.toNat_mul]
  constructor
  · rintro ⟨hlt, hmod⟩
    rw [← hmod, Nat.mod_eq_of_lt hlt]
  · intro h
    exact ⟨h ▸ hc, by rw [← h, Nat.mod_eq_of_lt hc]⟩

theorem checkedSub_some : checkedSub a b = some c ↔ a.toNat = b.toNat + c.toNat := by
  rw [checkedSub, Option.ite_none_right_eq_some, Option.some.injEq, UInt64.le_iff_toNat_le]
  constructor
  · rintro ⟨hle, rfl⟩
    rw [UInt64.toNat_sub_of_le _ _ hle]
    omega
  · intro h
    have hle : b.toNat ≤ a.toNat := by omega
    refine ⟨hle, ?_⟩
    rw [← UInt64.toNat_inj, UInt64.toNat_sub_of_le _ _ (UInt64.le_iff_toNat_le.mpr hle)]
    omega

theorem checkedSub_none : checkedSub a b = none ↔ a.toNat < b.toNat := by
  rw [checkedSub, ite_eq_right_iff, UInt64.le_iff_toNat_le]
  simp

/-! ## Sums -/

@[simp]
theorem total_nil : total [] = 0 := rfl

@[simp]
theorem total_cons (l : List UInt64) : total (a :: l) = a.toNat + total l := by simp [total]

@[simp]
theorem total_append (l m : List UInt64) : total (l ++ m) = total l + total m := by simp [total]

theorem total_perm {l m : List UInt64} (h : l.Perm m) : total l = total m := (h.map _).sum_eq

theorem total_subperm {l m : List UInt64} (h : l.Subperm m) : total l ≤ total m := by
  obtain ⟨l', hperm, hsub⟩ := h
  rw [← total_perm hperm]
  exact (hsub.map _).sum_le_sum (by simp)

theorem foldlM_checkedAdd_some {l : List UInt64} :
    l.foldlM checkedAdd a = some c ↔ c.toNat = a.toNat + total l := by
  induction l generalizing a with
  | nil => simp [← UInt64.toNat_inj, eq_comm]
  | cons x rest ih =>
    rw [List.foldlM_cons]
    cases hadd : checkedAdd a x with
    | none =>
      have hover := checkedAdd_none.mp hadd
      have hc := c.toNat_lt
      simp only [total_cons, Option.bind_eq_bind, Option.bind_none]
      constructor
      · intro h
        cases h
      · omega
    | some middle =>
      have hmiddle := checkedAdd_some.mp hadd
      simp only [total_cons, Option.bind_eq_bind, Option.bind_some]
      rw [ih, hmiddle, Nat.add_assoc]

theorem checkedSum_some {l : List UInt64} : checkedSum l = some c ↔ c.toNat = total l := by
  simp [checkedSum, foldlM_checkedAdd_some]

theorem toNat_ofNat {n : Nat} (h : n < 2 ^ 64) : (UInt64.ofNat n).toNat = n := UInt64.toNat_ofNat_of_lt' h

theorem exists_toNat {n : Nat} (h : n < 2 ^ 64) : ∃ c : UInt64, c.toNat = n := ⟨_, toNat_ofNat h⟩

/-! ## The largest elements -/

theorem forall₂_take_of_sublist {l s : List UInt64} (hl : l.Pairwise (· ≥ ·)) (h : s.Sublist l) :
    List.Forall₂ (· ≤ ·) s (l.take s.length) := by
  induction l generalizing s with
  | nil =>
    cases h
    exact .nil
  | cons x rest ih =>
    have ⟨hx, hrest⟩ := List.pairwise_cons.mp hl
    cases s with
    | nil => exact .nil
    | cons y s =>
      have hy : y ≤ x := by
        rcases List.mem_cons.mp (h.subset List.mem_cons_self) with rfl | hmem
        · exact UInt64.le_refl _
        · exact hx y hmem
      have hs : s.Sublist rest := List.Sublist.tail h
      exact .cons hy (ih hrest hs)

/-- **No selection is worth more** than as many elements from the front of a descending list. -/
theorem total_le_take {l s : List UInt64} (hl : l.Pairwise (· ≥ ·)) (h : s.Subperm l) :
    total s ≤ total (l.take s.length) := by
  obtain ⟨s', hperm, hsub⟩ := h
  rw [← total_perm hperm, ← hperm.length_eq]
  have hall := forall₂_take_of_sublist hl hsub
  refine List.Forall₂.sum_le_sum ?_
  rw [List.forall₂_map_left_iff, List.forall₂_map_right_iff]
  exact hall.imp fun _ _ h => UInt64.le_iff_toNat_le.mp h

end Word
