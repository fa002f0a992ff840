import Mathlib.Tactic.Common

/-!
# Runs whose steps meet a condition

The condition of a step is about the state that the step is taken in. What every such step
preserves holds at the end of the run, and so in every state on the way.
-/

namespace Interaction

variable {σ ε : Type} {step : σ → ε → σ} {ok ok' : σ → ε → Prop}

/-- Every step of the run meets `ok` where it is taken. -/
def Along (step : σ → ε → σ) (ok : σ → ε → Prop) : σ → List ε → Prop
  | _, [] => True
  | s, e :: rest => ok s e ∧ Along step ok (step s e) rest

instance Along.decidable [∀ s e, Decidable (ok s e)] : (s : σ) → (es : List ε) →
    Decidable (Along step ok s es)
  | _, [] => .isTrue trivial
  | s, e :: rest => @instDecidableAnd _ _ (inferInstanceAs (Decidable (ok s e)))
      (Along.decidable (step s e) rest)

theorem along_invariant {Inv : σ → Prop} {s : σ} {es : List ε} (h : Along step ok s es)
    (hstep : ∀ s e, e ∈ es → ok s e → Inv s → Inv (step s e)) (hs : Inv s) : Inv (es.foldl step s) := by
  induction es generalizing s with
  | nil => exact hs
  | cons e rest ih =>
    obtain ⟨hok, hrest⟩ := h
    refine ih hrest (fun s' e' he' => hstep s' e' (List.mem_cons_of_mem _ he')) ?_
    exact hstep s e List.mem_cons_self hok hs

theorem along_and {s : σ} {es : List ε} (h : Along step ok s es) (h' : Along step ok' s es) :
    Along step (fun s e => ok s e ∧ ok' s e) s es := by
  induction es generalizing s with
  | nil => trivial
  | cons e rest ih => exact ⟨⟨h.1, h'.1⟩, ih h.2 h'.2⟩

theorem along_take {s : σ} {es : List ε} (h : Along step ok s es) (n : Nat) : Along step ok s (es.take n) := by
  induction es generalizing s n with
  | nil => simpa using h
  | cons e rest ih =>
    cases n with
    | zero => trivial
    | succ n => exact ⟨h.1, ih h.2 n⟩

/-- Where the condition says exactly which steps keep `P`, a run meets it if and only if `P`
holds in every state on the way. -/
theorem along_iff {I P : σ → Prop} {s : σ} (es : List ε)
    (hinv : ∀ s e, I s → I (step s e)) (hstep : ∀ s e, I s → P s → (ok s e ↔ P (step s e)))
    (hs : I s) (hP : P s) : Along step ok s es ↔ ∀ n, P ((es.take n).foldl step s) := by
  induction es generalizing s with
  | nil => simpa [Along] using hP
  | cons e rest ih =>
    rw [Along, hstep s e hs hP]
    constructor
    · rintro ⟨hnext, hrest⟩ n
      cases n with
      | zero => exact hP
      | succ n => exact (ih (hinv s e hs) hnext).mp hrest n
    · intro h
      have hnext : P (step s e) := h 1
      exact ⟨hnext, (ih (hinv s e hs) hnext).mpr fun n => h (n + 1)⟩

/-! ## Logs that grow -/

theorem split_of_append {α : Type} {log events before after : List α} {x : α}
    (h : log ++ events = before ++ x :: after) (hout : x ∉ events) :
    ∃ rest, log = before ++ x :: rest ∧ after = rest ++ events := by
  rcases List.append_eq_append_iff.mp h with ⟨front, rfl, hevents⟩ | ⟨rest, rfl, hrest⟩
  · exact absurd (by rw [hevents]; simp) hout
  · cases rest with
    | nil => exact absurd (by rw [List.nil_append] at hrest; rw [← hrest]; simp) hout
    | cons y rest =>
      obtain ⟨hx, htail⟩ := List.cons.inj hrest
      subst hx
      exact ⟨rest, rfl, htail⟩

end Interaction
