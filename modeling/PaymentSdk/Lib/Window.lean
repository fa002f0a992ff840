import Mathlib.Data.List.Chain
import Mathlib.Tactic.Common

/-!
# Windows of a sorted list

A list is sorted by a key, strictly. A window is the part of it with keys from `a` up to, and
without, `b`. Neighbouring windows follow each other in the list.
-/

namespace Sorted

variable {α : Type} {key : α → Nat} {l : List α} {a b c : Nat}

/-- The elements whose key lies in the half-open interval. -/
def window (key : α → Nat) (a b : Nat) (l : List α) : List α :=
  l.filter fun x => decide (a ≤ key x) && decide (key x < b)

@[simp]
theorem mem_window {x : α} : x ∈ window key a b l ↔ x ∈ l ∧ a ≤ key x ∧ key x < b := by
  simp [window]

theorem window_append (hl : l.Pairwise fun x y => key x < key y) (hab : a ≤ b) (hbc : b ≤ c) :
    window key a c l = window key a b l ++ window key b c l := by
  induction l with
  | nil => rfl
  | cons x rest ih =>
    obtain ⟨hx, hrest⟩ := List.pairwise_cons.mp hl
    have ih := ih hrest
    simp only [window, List.filter_cons] at ih ⊢
    by_cases hlow : key x < b
    · by_cases ha : a ≤ key x
      · simp [ha, hlow, Nat.lt_of_lt_of_le hlow hbc, Nat.not_le.mpr hlow, ih]
      · have hb : ¬ b ≤ key x := Nat.not_le.mpr hlow
        simp [ha, hb, ih]
    · -- Everything from here on is above `b`.
      have hempty : rest.filter (fun y => decide (a ≤ key y) && decide (key y < b)) = [] := by
        rw [List.filter_eq_nil_iff]
        intro y hy
        have := hx y hy
        simp
        omega
      have hb : b ≤ key x := Nat.not_lt.mp hlow
      have ha : a ≤ key x := Nat.le_trans hab hb
      simp [hlow, ha, hb, ih, hempty]

theorem window_all (h : ∀ x ∈ l, key x < c) : window key 0 c l = l := by
  rw [window, List.filter_eq_self]
  intro x hx
  simp [h x hx]

theorem window_stretch (hl : l.Pairwise fun x y => key x < key y) (hab : a ≤ b) : window key a b l <:+: l := by
  obtain ⟨c, hc⟩ : ∃ c, b ≤ c ∧ ∀ x ∈ l, key x < c := by
    refine ⟨b + (l.map key).max?.getD 0 + 1, by omega, fun x hx => ?_⟩
    have := List.le_max?_getD_of_mem (k := 0) (List.mem_map_of_mem (f := key) hx)
    omega
  refine ⟨window key 0 a l, window key b c l, ?_⟩
  rw [← window_append hl (Nat.zero_le a) hab, ← window_append hl (Nat.zero_le b) hc.1, window_all hc.2]

theorem getLast_window (hl : l.Pairwise fun x y => key x < key y) (hab : a ≤ b)
    (hne : window key a b l ≠ []) : (window key 0 b l).getLast? = (window key a b l).getLast? := by
  rw [window_append hl (Nat.zero_le a) hab, List.getLast?_append]
  cases hlast : (window key a b l).getLast? with
  | none => exact absurd (List.getLast?_eq_none_iff.mp hlast) hne
  | some x => rfl

theorem eq_of_key_eq (hl : l.Pairwise fun x y => key x < key y) {x y : α} (hx : x ∈ l) (hy : y ∈ l)
    (h : key x = key y) : x = y := by
  obtain ⟨i, hi, rfl⟩ := List.mem_iff_getElem.mp hx
  obtain ⟨j, hj, rfl⟩ := List.mem_iff_getElem.mp hy
  rcases Nat.lt_trichotomy i j with hlt | rfl | hlt
  · have := List.pairwise_iff_getElem.mp hl i j hi hj hlt
    omega
  · rfl
  · have := List.pairwise_iff_getElem.mp hl j i hj hi hlt
    omega

theorem getLast_window_of_mem (hl : l.Pairwise fun x y => key x < key y) {x : α} (hx : x ∈ l)
    (ha : a ≤ key x) : (window key a (key x + 1) l).getLast? = some x := by
  have hmem : x ∈ window key (key x) (key x + 1) l := by simp [hx]
  rw [window_append hl ha (Nat.le_succ _), List.getLast?_append]
  cases hlast : (window key (key x) (key x + 1) l).getLast? with
  | none => simp [List.getLast?_eq_none_iff.mp hlast] at hmem
  | some y =>
    obtain ⟨hy, hlow, hhigh⟩ := mem_window.mp (List.mem_of_getLast? hlast)
    rw [eq_of_key_eq hl hy hx (by omega)]
    rfl

theorem key_le_getLast (hl : l.Pairwise fun x y => key x < key y) {x y : α} (hlast : l.getLast? = some y)
    (hx : x ∈ l) : key x ≤ key y := by
  obtain ⟨front, rfl⟩ := List.getLast?_eq_some_iff.mp hlast
  rcases List.mem_append.mp hx with hfront | hend
  · exact Nat.le_of_lt ((List.pairwise_append.mp hl).2.2 x hfront y List.mem_cons_self)
  · obtain rfl := List.mem_singleton.mp hend
    exact Nat.le_refl _

end Sorted
