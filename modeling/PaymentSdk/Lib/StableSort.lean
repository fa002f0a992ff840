import Mathlib.Data.List.Sort

/-!
# A stable sort breaks ties by position

A list that is sorted by one relation, and then sorted by another that is total, comes out in
the lexicographic order of the two.
-/

namespace StableSort

variable {α : Type} {le : α → α → Bool} {lt : α → α → Prop}

/-- Equal under `le`, and then in the order of the unsorted list. -/
def Lex (le : α → α → Bool) (lt : α → α → Prop) (a b : α) : Prop :=
  le a b = true ∧ (le b a = true → lt a b)

theorem pairwise_mergeSort_lex (htrans : ∀ a b c, le a b = true → le b c = true → le a c = true)
    (htotal : ∀ a b, (le a b || le b a) = true) {l : List α} (h : l.Pairwise lt) :
    (l.mergeSort le).Pairwise (Lex le lt) := by
  induction l with
  | nil => simp
  | cons a l ih =>
    obtain ⟨ha, hl⟩ := List.pairwise_cons.mp h
    obtain ⟨before, after, hsort, hrest, hbefore⟩ := List.mergeSort_cons htrans htotal a l
    have hlex := ih hl
    have hle := List.pairwise_mergeSort htrans htotal (a :: l)
    rw [hrest] at hlex
    rw [hsort] at hle ⊢
    obtain ⟨hlexBefore, hlexAfter, hlexCross⟩ := List.pairwise_append.mp hlex
    obtain ⟨-, hleAfter, hleCross⟩ := List.pairwise_append.mp hle
    refine List.pairwise_append.mpr ⟨hlexBefore, List.pairwise_cons.mpr ⟨?_, hlexAfter⟩, ?_⟩
    · -- Whatever comes after `a` came after it in the list.
      intro b hb
      refine ⟨(List.pairwise_cons.mp hleAfter).1 b hb, fun _ => ha b ?_⟩
      have hmem : b ∈ l.mergeSort le := by
        rw [hrest]
        exact List.mem_append_right _ hb
      exact List.mem_mergeSort.mp hmem
    · -- Whatever comes before `a` is strictly less.
      intro b hb c hc
      rcases List.mem_cons.mp hc with rfl | hc
      · refine ⟨hleCross b hb c List.mem_cons_self, fun hback => ?_⟩
        have hless := hbefore b hb
        rw [hback] at hless
        cases hless
      · exact hlexCross b hb c hc

theorem mergeSort_eq (htrans : ∀ a b c, le a b = true → le b c = true → le a c = true)
    (htotal : ∀ a b, (le a b || le b a) = true) (hasymm : ∀ a b, lt a b → ¬ lt b a) {l sorted : List α}
    (h : l.Pairwise lt) (hsorted : sorted.Pairwise (Lex le lt)) (hperm : sorted.Perm l) :
    l.mergeSort le = sorted := by
  refine List.Perm.eq_of_pairwise ?_ (pairwise_mergeSort_lex htrans htotal h) hsorted
    ((List.mergeSort_perm l le).trans hperm.symm)
  intro a b _ _ hab hba
  exact absurd (hba.2 hab.1) (hasymm a b (hab.2 hba.1))

end StableSort
