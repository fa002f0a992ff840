import Mathlib.Data.List.Forall2
import Mathlib.Tactic.Common

/-! # Computations that fail or give a value -/

namespace Checked

variable {ε α β : Type} {x : Except ε α} {f : α → Except ε β} {a : α} {b : β}

theorem bind_ok : x >>= f = .ok b ↔ ∃ a, x = .ok a ∧ f a = .ok b := by
  cases x <;> simp [bind, Except.bind]

theorem bind_error {e : ε} : x >>= f = .error e ↔ x = .error e ∨ ∃ a, x = .ok a ∧ f a = .error e := by
  cases x <;> simp [bind, Except.bind]

theorem map_ok {f : α → β} : f <$> x = .ok b ↔ ∃ a, x = .ok a ∧ f a = b := by
  cases x <;> simp [Functor.map, Except.map]

theorem pure_ok {a' : α} : (pure a : Except ε α) = .ok a' ↔ a' = a := by
  simp [pure, Except.pure, eq_comm]

theorem mapError_ok {δ : Type} {g : ε → δ} : x.mapError g = .ok a ↔ x = .ok a := by
  cases x <;> simp [Except.mapError]

/-- A condition that has to hold. -/
def require (condition : Prop) [Decidable condition] (e : ε) : Except ε Unit :=
  if condition then .ok () else .error e

@[simp]
theorem require_ok {condition : Prop} [Decidable condition] {e : ε} {u : Unit} :
    require condition e = .ok u ↔ condition := by
  by_cases h : condition <;> simp [require, h]

@[simp]
theorem require_error {condition : Prop} [Decidable condition] {e e' : ε} :
    require condition e = .error e' ↔ ¬ condition ∧ e = e' := by
  by_cases h : condition <;> simp [require, h]

/-! ## Two computations -/

/-- Both fail with one error, or both give a value, and the values are related. -/
def Agree (R : α → β → Prop) : Except ε α → Except ε β → Prop
  | .ok a, .ok b => R a b
  | .error e, .error e' => e = e'
  | .ok _, .error _ | .error _, .ok _ => False

theorem agree_self (x : Except ε α) : Agree Eq x x := by
  cases x <;> rfl

theorem agree_bind {γ δ : Type} {R : α → β → Prop} {S : γ → δ → Prop} {y : Except ε β}
    {f : α → Except ε γ} {g : β → Except ε δ} (h : Agree R x y)
    (hnext : ∀ a b, R a b → Agree S (f a) (g b)) : Agree S (x >>= f) (y >>= g) := by
  cases x <;> cases y
  case ok.ok a b => exact hnext a b h
  case error.error => exact h
  all_goals exact h.elim

/-! ## Over lists -/

theorem mapM_ok {l : List α} {r : List β} :
    l.mapM f = .ok r ↔ List.Forall₂ (fun x y => f x = .ok y) l r := by
  induction l generalizing r with
  | nil => simp [pure_ok]
  | cons x rest ih =>
    rw [List.mapM_cons, bind_ok]
    simp only [bind_ok, ih, pure_ok]
    constructor
    · rintro ⟨y, hy, ys, hys, rfl⟩
      exact .cons hy hys
    · rintro (_ | ⟨hy, hys⟩)
      exact ⟨_, hy, _, hys, rfl⟩

/-- The first element that fails decides the error. -/
theorem mapM_error {l : List α} {e : ε} :
    l.mapM f = .error e ↔ ∃ front x back, l = front ++ x :: back ∧ f x = .error e ∧
      ∀ y ∈ front, ∃ b, f y = .ok b := by
  induction l with
  | nil => simp [pure, Except.pure]
  | cons x rest ih =>
    rw [List.mapM_cons]
    cases hx : f x with
    | error e' =>
      simp only [bind, Except.bind, Except.error.injEq]
      constructor
      · rintro rfl
        exact ⟨[], x, rest, rfl, hx, by simp⟩
      · rintro ⟨front, y, back, heq, hy, hfront⟩
        cases front with
        | nil =>
          cases heq
          rw [hx] at hy
          exact Except.error.inj hy
        | cons z front =>
          obtain ⟨b, hb⟩ := hfront z List.mem_cons_self
          cases heq
          rw [hx] at hb
          cases hb
    | ok b =>
      have hbind : (do let ys ← rest.mapM f; pure (b :: ys) : Except ε (List β)) = .error e ↔
          rest.mapM f = .error e := by
        cases rest.mapM f <;> simp [bind, Except.bind, pure, Except.pure]
      simp only [bind, Except.bind] at hbind ⊢
      rw [hbind, ih]
      constructor
      · rintro ⟨front, y, back, rfl, hy, hfront⟩
        refine ⟨x :: front, y, back, rfl, hy, ?_⟩
        intro z hz
        rcases List.mem_cons.mp hz with rfl | hz
        · exact ⟨b, hx⟩
        · exact hfront z hz
      · rintro ⟨front, y, back, heq, hy, hfront⟩
        cases front with
        | nil =>
          cases heq
          rw [hx] at hy
          cases hy
        | cons z front =>
          cases heq
          exact ⟨front, y, back, rfl, hy, fun w hw => hfront w (List.mem_cons_of_mem _ hw)⟩

theorem mapM_range_error {f : Nat → Except ε β} {n : Nat} {e : ε} :
    (List.range n).mapM f = .error e ↔
      ∃ i < n, f i = .error e ∧ ∀ j < i, ∃ b, f j = .ok b := by
  rw [mapM_error]
  constructor
  · rintro ⟨front, i, back, hrange, hi, hfront⟩
    have hlen : front.length < n := by
      have := congrArg List.length hrange
      simp at this
      omega
    have hget : (List.range n)[front.length]? = some i := by rw [hrange]; simp
    rw [List.getElem?_range hlen, Option.some.injEq] at hget
    have htake : front = List.range front.length := by
      have := congrArg (List.take front.length) hrange
      rw [List.take_range, Nat.min_eq_left (Nat.le_of_lt hlen), List.take_left] at this
      exact this.symm
    rw [← hget] at hi
    refine ⟨front.length, hlen, hi, ?_⟩
    intro j hj
    apply hfront
    rw [htake]
    exact List.mem_range.mpr hj
  · rintro ⟨i, hlt, hi, hall⟩
    refine ⟨List.range i, i, (List.range n).drop (i + 1), ?_, hi, ?_⟩
    · have hdrop := List.drop_eq_getElem_cons (by simpa using hlt : i < (List.range n).length)
      rw [List.getElem_range] at hdrop
      rw [← hdrop, ← Nat.min_eq_left (Nat.le_of_lt hlt), ← List.take_range, Nat.min_eq_left (Nat.le_of_lt hlt),
        List.take_append_drop]
    · intro j hj
      exact hall j (List.mem_range.mp hj)

theorem mem_of_mapM {l : List α} {r : List β} (h : l.mapM f = .ok r) {x : α} (hx : x ∈ l) :
    ∃ y ∈ r, f x = .ok y := by
  have hall := mapM_ok.mp h
  clear h
  induction hall with
  | nil => simp at hx
  | cons hy _ ih =>
    rcases List.mem_cons.mp hx with rfl | hx
    · exact ⟨_, List.mem_cons_self, hy⟩
    · obtain ⟨y, hmem, hy⟩ := ih hx
      exact ⟨y, List.mem_cons_of_mem _ hmem, hy⟩

theorem mem_mapM {l : List α} {r : List β} (h : l.mapM f = .ok r) {y : β} (hy : y ∈ r) :
    ∃ x ∈ l, f x = .ok y := by
  have hall := mapM_ok.mp h
  clear h
  induction hall with
  | nil => simp at hy
  | cons hx _ ih =>
    rcases List.mem_cons.mp hy with rfl | hy
    · exact ⟨_, List.mem_cons_self, hx⟩
    · obtain ⟨x, hmem, hx⟩ := ih hy
      exact ⟨x, List.mem_cons_of_mem _ hmem, hx⟩

theorem exists_mapM {l : List α} (h : ∀ x ∈ l, ∃ y, f x = .ok y) : ∃ r, l.mapM f = .ok r := by
  induction l with
  | nil => exact ⟨[], rfl⟩
  | cons x rest ih =>
    obtain ⟨y, hy⟩ := h x List.mem_cons_self
    obtain ⟨ys, hys⟩ := ih fun z hz => h z (List.mem_cons_of_mem _ hz)
    exact ⟨y :: ys, mapM_ok.mpr (.cons hy (mapM_ok.mp hys))⟩

theorem forM_ok {l : List α} {f : α → Except ε Unit} :
    l.forM f = .ok () ↔ ∀ x ∈ l, f x = .ok () := by
  induction l with
  | nil => simp [pure_ok]
  | cons x rest ih =>
    have hcons : (x :: rest).forM f = (do f x; rest.forM f) := rfl
    rw [hcons, bind_ok, List.forall_mem_cons]
    constructor
    · rintro ⟨⟨⟩, hx, hrest⟩
      exact ⟨hx, ih.mp hrest⟩
    · rintro ⟨hx, hrest⟩
      exact ⟨(), hx, ih.mpr hrest⟩

theorem foldlM_keeps {σ : Type} {P : List α → σ → Prop} {step : σ → α → Except ε σ} {l : List α} {s out : σ}
    (hstart : P [] s)
    (hstep : ∀ front x rest middle after, l = front ++ x :: rest → P front middle →
      step middle x = .ok after → P (front ++ [x]) after)
    (h : l.foldlM step s = .ok out) : P l out := by
  have hfrom : ∀ (rest front : List α) (middle : σ), l = front ++ rest → P front middle →
      rest.foldlM step middle = .ok out → P l out := by
    intro rest
    induction rest with
    | nil =>
      intro front middle hl hp hout
      cases hout
      rwa [hl, List.append_nil]
    | cons x rest ih =>
      intro front middle hl hp hout
      rw [List.foldlM_cons] at hout
      obtain ⟨after, hafter, hout⟩ := bind_ok.mp hout
      exact ih (front ++ [x]) after (by rw [hl, List.append_assoc]; rfl)
        (hstep front x rest middle after hl hp hafter) hout
  exact hfrom l [] s rfl hstart h

end Checked
