import Mathlib.Algebra.GroupWithZero.Nat
import Mathlib.Algebra.Order.Group.Nat
import Mathlib.Data.List.Basic
import Mathlib.Tactic.Common

/-!
# Texts cut at byte offsets

A text is a list of characters, and each character takes one to four bytes. A byte offset cuts the
text only where one character ends and the next begins.
-/

namespace Utf8

/-- The length of a text in bytes. -/
def size (text : List Char) : Nat := (text.map Char.utf8Size).sum

@[simp]
theorem size_nil : size [] = 0 := rfl

@[simp]
theorem size_cons (c : Char) (text : List Char) : size (c :: text) = c.utf8Size + size text := by
  simp [size]

@[simp]
theorem size_append (a b : List Char) : size (a ++ b) = size a + size b := by simp [size]

theorem size_eq_zero {text : List Char} (h : size text = 0) : text = [] := by
  cases text with
  | nil => rfl
  | cons c text =>
    have := c.utf8Size_pos
    rw [size_cons] at h
    omega

/-- The parts before and after a byte offset, where it is a boundary. -/
def splitAt : List Char → Nat → Option (List Char × List Char)
  | text, 0 => some ([], text)
  | [], _ + 1 => none
  | c :: text, n + 1 =>
    if c.utf8Size ≤ n + 1 then (splitAt text (n + 1 - c.utf8Size)).map fun p => (c :: p.1, p.2)
    else none

/-- The text from one byte offset to another, where both are boundaries. -/
def slice (text : List Char) (start stop : Nat) : Option (List Char) := do
  let (_, rest) ← splitAt text start
  let (middle, _) ← splitAt rest (stop - start)
  return middle

theorem splitAt_some_iff {text a b : List Char} {n : Nat} :
    splitAt text n = some (a, b) ↔ text = a ++ b ∧ size a = n := by
  induction text generalizing a b n with
  | nil =>
    cases n with
    | zero =>
      simp only [splitAt, Option.some.injEq, Prod.mk.injEq]
      constructor
      · rintro ⟨rfl, rfl⟩
        simp
      · rintro ⟨h, -⟩
        obtain ⟨rfl, rfl⟩ := List.append_eq_nil_iff.mp h.symm
        simp
    | succ n =>
      simp only [splitAt, reduceCtorEq, false_iff, not_and]
      intro h hsize
      obtain ⟨rfl, rfl⟩ := List.append_eq_nil_iff.mp h.symm
      simp at hsize
  | cons c text ih =>
    have hc := c.utf8Size_pos
    cases n with
    | zero =>
      simp only [splitAt, Option.some.injEq, Prod.mk.injEq]
      constructor
      · rintro ⟨rfl, rfl⟩
        simp
      · rintro ⟨h, hsize⟩
        obtain rfl := size_eq_zero hsize
        exact ⟨rfl, h⟩
    | succ n =>
      cases a with
      | nil =>
        simp only [splitAt]
        split_ifs <;> simp
      | cons d a =>
        simp only [splitAt]
        split_ifs with hle
        · simp only [Option.map_eq_some_iff, Prod.exists, Prod.mk.injEq, List.cons.injEq, ih]
          simp only [List.cons_append, List.cons.injEq, size_cons]
          constructor
          · rintro ⟨a', b', ⟨rfl, hsize⟩, ⟨rfl, rfl⟩, rfl⟩
            exact ⟨⟨rfl, rfl⟩, by omega⟩
          · rintro ⟨⟨rfl, rfl⟩, hsize⟩
            exact ⟨a, b, ⟨rfl, by omega⟩, ⟨rfl, rfl⟩, rfl⟩
        · simp only [List.cons_append, List.cons.injEq, size_cons, false_iff, not_and]
          rintro ⟨rfl, -⟩
          omega

theorem slice_of_append {a middle b : List Char} {start stop : Nat} (ha : size a = start)
    (hm : start + size middle = stop) : slice (a ++ (middle ++ b)) start stop = some middle := by
  have h1 : splitAt (a ++ (middle ++ b)) start = some (a, middle ++ b) :=
    splitAt_some_iff.mpr ⟨rfl, ha⟩
  have h2 : splitAt (middle ++ b) (stop - start) = some (middle, b) :=
    splitAt_some_iff.mpr ⟨rfl, by omega⟩
  simp [slice, h1, h2]

theorem slice_after {a rest : List Char} {start stop : Nat} (ha : size a = start) :
    slice (a ++ rest) start stop = (splitAt rest (stop - start)).map (·.1) := by
  have h : splitAt (a ++ rest) start = some (a, rest) := splitAt_some_iff.mpr ⟨rfl, ha⟩
  simp only [slice, h, Option.bind_eq_bind, Option.bind_some]
  cases splitAt rest (stop - start) <;> rfl

end Utf8
