import Mathlib.Logic.Function.Basic
import Mathlib.Tactic.Common

/-!
# Programs that call their environment

A program is a tree of calls. `run` answers every call from one state, alone.
`Always` is the demonic reading: any allowed answer, and the program may be
abandoned before any call, so its invariant has to hold at every call.
-/

namespace Interaction

/-- The calls a program may make, each with the type of its answer. -/
structure Calls where
  Op : Type
  Ans : Op → Type

/-- A computation that asks for one answer after another. What answers it is another matter. -/
inductive Prog (E : Calls) (α : Type) : Type where
  | done (a : α) : Prog E α
  | call (op : E.Op) (next : E.Ans op → Prog E α) : Prog E α

namespace Prog

variable {E : Calls} {α β ε σ : Type}

protected def bind : Prog E α → (α → Prog E β) → Prog E β
  | done a, f => f a
  | call op next, f => call op fun r => (next r).bind f

instance : Monad (Prog E) where
  pure := done
  bind := Prog.bind

def perform (op : E.Op) : Prog E (E.Ans op) := call op done

/-! ## Running alone -/

/-- Runs the program alone against a state that answers each call. -/
def run (handle : (op : E.Op) → σ → E.Ans op × σ) : Prog E α → σ → α × σ
  | done a, s => (a, s)
  | call op next, s => (next (handle op s).1).run handle (handle op s).2

variable (handle : (op : E.Op) → σ → E.Ans op × σ)

@[simp]
theorem run_done (a : α) (s : σ) : (done a : Prog E α).run handle s = (a, s) := rfl

@[simp]
theorem run_call (op : E.Op) (next : E.Ans op → Prog E α) (s : σ) :
    (call op next).run handle s = (next (handle op s).1).run handle (handle op s).2 := rfl

theorem run_bind (p : Prog E α) (f : α → Prog E β) (s : σ) :
    (p.bind f).run handle s = (f (p.run handle s).1).run handle (p.run handle s).2 := by
  induction p generalizing s with
  | done a => rfl
  | call op next ih => exact ih _ _

/-! ## Programs that fail -/

theorem except_bind_eq (p : ExceptT ε (Prog E) α) (f : α → ExceptT ε (Prog E) β) :
    (p >>= f : ExceptT ε (Prog E) β) =
      Prog.bind (p : Prog E (Except ε α)) fun
        | .ok a => f a
        | .error e => done (.error e) := by
  show Prog.bind _ _ = Prog.bind _ _
  congr 1
  funext r
  cases r <;> rfl

theorem run_except_bind (p : ExceptT ε (Prog E) α) (f : α → ExceptT ε (Prog E) β) (s : σ) :
    Prog.run handle (p >>= f : ExceptT ε (Prog E) β) s =
      match Prog.run handle p s with
      | (.ok a, s') => Prog.run handle (f a) s'
      | (.error e, s') => (.error e, s') := by
  rw [except_bind_eq, run_bind]
  rcases Prog.run handle p s with ⟨r, s'⟩
  cases r <;> rfl

@[simp]
theorem run_except_pure (a : α) (s : σ) :
    Prog.run handle (pure a : ExceptT ε (Prog E) α) s = (.ok a, s) := rfl

@[simp]
theorem run_except_throw (e : ε) (s : σ) :
    Prog.run handle (throw e : ExceptT ε (Prog E) α) s = (.error e, s) := rfl

theorem run_bind_ok {p : ExceptT ε (Prog E) α} {f : α → ExceptT ε (Prog E) β} {s s' : σ} {b : β} :
    Prog.run handle (p >>= f : ExceptT ε (Prog E) β) s = (.ok b, s') ↔
      ∃ a t, Prog.run handle p s = (.ok a, t) ∧ Prog.run handle (f a) t = (.ok b, s') := by
  rw [run_except_bind]
  rcases Prog.run handle p s with ⟨_ | a, t⟩ <;> simp

theorem run_bind_error {p : ExceptT ε (Prog E) α} {f : α → ExceptT ε (Prog E) β} {s s' : σ} {e : ε} :
    Prog.run handle (p >>= f : ExceptT ε (Prog E) β) s = (.error e, s') ↔
      Prog.run handle p s = (.error e, s') ∨
        ∃ a t, Prog.run handle p s = (.ok a, t) ∧ Prog.run handle (f a) t = (.error e, s') := by
  rw [run_except_bind]
  rcases Prog.run handle p s with ⟨_ | a, t⟩ <;> simp

@[simp]
theorem run_pure_ok {a b : α} {s s' : σ} :
    Prog.run handle (pure a : ExceptT ε (Prog E) α) s = (.ok b, s') ↔ a = b ∧ s = s' := by
  simp

/-- A loop whose body only looks at the state: it ends well if and only if every round does,
and then its accumulator was updated by each round in turn. -/
theorem run_foldlM_ok {f : β → α → ExceptT ε (Prog E) β} {fine : α → Prop} {update : β → α → β}
    {s : σ} (hf : ∀ b x b' s', Prog.run handle (f b x) s = (.ok b', s') ↔
      s' = s ∧ fine x ∧ b' = update b x) (xs : List α) (b b' : β) (s' : σ) :
    Prog.run handle (xs.foldlM f b : ExceptT ε (Prog E) β) s = (.ok b', s') ↔
      s' = s ∧ (∀ x ∈ xs, fine x) ∧ b' = xs.foldl update b := by
  induction xs generalizing b with
  | nil =>
    rw [List.foldlM_nil, run_pure_ok]
    simp [eq_comm, and_comm]
  | cons x xs ih =>
    rw [List.foldlM_cons, run_bind_ok]
    constructor
    · rintro ⟨a, t, hx, hrest⟩
      obtain ⟨rfl, hfine, rfl⟩ := (hf _ _ _ _).mp hx
      obtain ⟨rfl, hall, rfl⟩ := (ih _).mp hrest
      exact ⟨rfl, by simpa using ⟨hfine, hall⟩, rfl⟩
    · rintro ⟨rfl, hall, rfl⟩
      refine ⟨_, _, (hf _ _ _ _).mpr ⟨rfl, hall x List.mem_cons_self, rfl⟩, ?_⟩
      exact (ih _).mpr ⟨rfl, fun y hy => hall y (List.mem_cons_of_mem _ hy), rfl⟩

/-! ## Any answers, and a crash before any call -/

/-- `step` says which answers and next states a call may have. `inv` holds at every
call, and `post` holds where the program ends. -/
def Always (step : (op : E.Op) → σ → E.Ans op → σ → Prop) (inv : σ → Prop)
    (post : α → σ → Prop) : Prog E α → σ → Prop
  | done a, s => inv s ∧ post a s
  | call op next, s => inv s ∧ ∀ r s', step op s r s' → (next r).Always step inv post s'

/-- The states of a partial execution: any number of calls answered, then stopped. -/
inductive Reaches (step : (op : E.Op) → σ → E.Ans op → σ → Prop) :
    Prog E α → σ → Prog E α → σ → Prop where
  | here (p : Prog E α) (s : σ) : Reaches step p s p s
  | answer {op : E.Op} {next : E.Ans op → Prog E α} {q : Prog E α} {s s' t : σ} (r : E.Ans op) :
      step op s r s' → Reaches step (next r) s' q t → Reaches step (call op next) s q t

variable {step : (op : E.Op) → σ → E.Ans op → σ → Prop} {inv : σ → Prop}

theorem always_inv {post : α → σ → Prop} {p : Prog E α} {s : σ} (h : p.Always step inv post s) :
    inv s := by
  cases p with
  | done a => exact h.1
  | call op next => exact h.1

theorem always_reaches {post : α → σ → Prop} {p q : Prog E α} {s t : σ}
    (h : p.Always step inv post s) (hr : Reaches step p s q t) : q.Always step inv post t := by
  induction hr with
  | here p s => exact h
  | answer r hstep _ ih => exact ih (h.2 r _ hstep)

theorem always_mono {inv' : σ → Prop} {post post' : α → σ → Prop} {p : Prog E α} {s : σ}
    (h : p.Always step inv post s) (hi : ∀ t, inv t → inv' t)
    (hp : ∀ a t, inv t → post a t → post' a t) : p.Always step inv' post' s := by
  induction p generalizing s with
  | done a => exact ⟨hi _ h.1, hp _ _ h.1 h.2⟩
  | call op next ih => exact ⟨hi _ h.1, fun r s' hs => ih r (h.2 r s' hs)⟩

theorem always_bind {post : β → σ → Prop} {p : Prog E α} {f : α → Prog E β} {s : σ}
    (h : p.Always step inv (fun a t => (f a).Always step inv post t) s) :
    (p.bind f).Always step inv post s := by
  induction p generalizing s with
  | done a => exact h.2
  | call op next ih => exact ⟨h.1, fun r s' hs => ih r (h.2 r s' hs)⟩

theorem always_except_bind {post : Except ε β → σ → Prop} {p : ExceptT ε (Prog E) α}
    {f : α → ExceptT ε (Prog E) β} {s : σ}
    (h : Prog.Always step inv (fun r t => match r with
      | .ok a => Prog.Always step inv post (f a) t
      | .error e => post (.error e) t) p s) :
    Prog.Always step inv post (p >>= f : ExceptT ε (Prog E) β) s := by
  rw [except_bind_eq]
  apply always_bind
  apply always_mono h fun _ ht => ht
  intro r t ht hr
  cases r with
  | ok a => exact hr
  | error e => exact ⟨ht, hr⟩

/-! ## Programs that keep an invariant -/

/-- From any state with the invariant, the program has it at every call. -/
def Keeps (step : (op : E.Op) → σ → E.Ans op → σ → Prop) (inv : σ → Prop) (p : Prog E α) : Prop :=
  ∀ s, inv s → p.Always step inv (fun _ _ => True) s

theorem keeps_done (a : α) : Keeps step inv (done a : Prog E α) := fun _ hs => ⟨hs, trivial⟩

theorem keeps_except_bind {p : ExceptT ε (Prog E) α} {f : α → ExceptT ε (Prog E) β}
    (hp : Keeps step inv p) (hf : ∀ a, Keeps step inv (f a)) :
    Keeps step inv (p >>= f : ExceptT ε (Prog E) β) := by
  intro s hs
  apply always_except_bind
  apply always_mono (hp s hs) fun _ ht => ht
  intro r t ht _
  cases r with
  | ok a => exact hf a t ht
  | error e => trivial

theorem keeps_foldlM {f : β → α → ExceptT ε (Prog E) β} (hf : ∀ b x, Keeps step inv (f b x))
    (xs : List α) (b : β) : Keeps step inv (xs.foldlM f b : ExceptT ε (Prog E) β) := by
  induction xs generalizing b with
  | nil => exact keeps_done _
  | cons x xs ih =>
    rw [List.foldlM_cons]
    exact keeps_except_bind (hf b x) ih

theorem keeps_of_step (h : ∀ op s r s', step op s r s' → inv s → inv s') (p : Prog E α) :
    Keeps step inv p := by
  induction p with
  | done a => exact keeps_done a
  | call op next ih => exact fun s hs => ⟨hs, fun r s' hstep => ih r s' (h op s r s' hstep hs)⟩

theorem keeps_reaches {p q : Prog E α} {s t : σ} (h : Keeps step inv p) (hs : inv s)
    (hr : Reaches step p s q t) : inv t :=
  always_inv (always_reaches (h s hs) hr)

theorem reaches_run (hstep : ∀ op s, step op s (handle op s).1 (handle op s).2) (p : Prog E α) (s : σ) :
    Reaches step p s (done (p.run handle s).1) (p.run handle s).2 := by
  induction p generalizing s with
  | done a => exact .here _ _
  | call op next ih => exact .answer _ (hstep op s) (ih _ _)

/-! ## Programs that end at the first refusal -/

/-- The calls as the state itself answers them. -/
def Answered (op : E.Op) (s : σ) (r : E.Ans op) (s' : σ) : Prop := (r, s') = handle op s

theorem run_of_answered {p q : Prog E α} {s t : σ} (h : Reaches (Answered handle) p s q t) :
    p.run handle s = q.run handle t := by
  induction h with
  | here p s => rfl
  | answer r hstep _ ih =>
    rw [run_call, ← hstep]
    exact ih

/-- After an answer that refuses, the program ends with an error. -/
def Strict (refuses : (op : E.Op) → E.Ans op → Prop) : Prog E (Except ε α) → Prop
  | done _ => True
  | call op next => ∀ r, (refuses op r → ∃ e, next r = done (.error e)) ∧ (next r).Strict refuses

variable {refuses : (op : E.Op) → E.Ans op → Prop}

theorem strict_except_bind {p : ExceptT ε (Prog E) α} {f : α → ExceptT ε (Prog E) β}
    (hp : Strict refuses p) (hf : ∀ a, Strict refuses (f a)) :
    Strict refuses (p >>= f : ExceptT ε (Prog E) β) := by
  rw [except_bind_eq]
  induction p with
  | done r =>
    cases r with
    | ok a => exact hf a
    | error e => trivial
  | call op next ih =>
    intro r
    refine ⟨fun hr => ?_, ih r (hp r).2⟩
    obtain ⟨e, he⟩ := (hp r).1 hr
    refine ⟨e, ?_⟩
    dsimp only
    rw [he]
    rfl

theorem strict_foldlM {f : β → α → ExceptT ε (Prog E) β} (hf : ∀ b x, Strict refuses (f b x))
    (xs : List α) (b : β) : Strict refuses (xs.foldlM f b : ExceptT ε (Prog E) β) := by
  induction xs generalizing b with
  | nil => trivial
  | cons x xs ih =>
    rw [List.foldlM_cons]
    exact strict_except_bind (hf b x) ih

/-- Where calls may also be refused, a strict program stops at a state that the undisturbed run
goes through. -/
theorem reaches_along {p q : Prog E (Except ε α)} {s t : σ} (hp : Strict refuses p)
    (hstep : ∀ op s r s', step op s r s' →
      (r, s') = handle op s ∨ refuses op r ∧ (s' = s ∨ s' = (handle op s).2))
    (h : Reaches step p s q t) : ∃ q', Reaches (Answered handle) p s q' t := by
  induction h with
  | here p s => exact ⟨p, .here p s⟩
  | @answer op next q s s' t r hs hrest ih =>
    rcases hstep op s r s' hs with he | ⟨hr, hs'⟩
    · obtain ⟨q', hq'⟩ := ih (hp r).2
      exact ⟨q', .answer r he hq'⟩
    · -- The program is over: nothing more happens.
      obtain ⟨e, hdone⟩ := (hp r).1 hr
      have ht : t = s' := by
        rw [hdone] at hrest
        cases hrest
        rfl
      subst ht
      rcases hs' with rfl | rfl
      · exact ⟨_, .here _ _⟩
      · exact ⟨_, .answer (handle op s).1 rfl (.here _ _)⟩

end Prog

end Interaction
