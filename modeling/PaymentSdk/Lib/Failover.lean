import Mathlib.Algebra.GroupWithZero.Nat
import Mathlib.Algebra.Order.BigOperators.Group.List
import Mathlib.Algebra.Order.Group.Nat
import PaymentSdk.Lib.Traced

/-!
# Failing over and trying again

Two loops over calls that may fail: one goes on to the next choice after an error that may pass,
the other starts anew after a pause. Together they make a part of a planned list of calls, and
what they return is the last thing that they were told.
-/

namespace Interaction.Prog

variable {E : Calls} {ε α ι : Type}

/-- An error after which a call is made again. -/
def Passing (retryable : ε → Bool) (r : Except ε α) : Prop := ∃ e, r = .error e ∧ retryable e = true

/-- Makes the call with each choice until one settles. -/
def firstSettled (retryable : ε → Bool) (exhausted : ε) (call : ι → Prog E (Except ε α)) :
    Option ε → List ι → Prog E (Except ε α)
  | last, [] => .done (.error (last.getD exhausted))
  | _, x :: rest => (call x).bind fun
    | .error e =>
      if retryable e then firstSettled retryable exhausted call (some e) rest else .done (.error e)
    | .ok a => .done (.ok a)

/-- Makes a round up to `attempts` times, with a pause between two of them. -/
def repeated (retryable : ε → Bool) (exhausted : ε) (attempts : Nat) (round : Prog E (Except ε α))
    (pause : Nat → Prog E Unit) : (attempt left : Nat) → Option ε → Prog E (Except ε α)
  | _, 0, last => .done (.error (last.getD exhausted))
  | attempt, left + 1, _ => round.bind fun
    | .error e =>
      if retryable e then
        (if attempt < attempts then pause attempt else .done ()).bind fun _ =>
          repeated retryable exhausted attempts round pause (attempt + 1) left (some e)
      else .done (.error e)
    | .ok a => .done (.ok a)

/-! ## What they make of the answers -/

/-- The calls of the log are the first of the planned ones. All that they were told but the last
was worth another try, and the last is the result. -/
structure Settled (retryable : ε → Bool) (told : Exchange E → Option (Except ε α)) (planned : List E.Op)
    (log : List (Exchange E)) (r : Except ε α) : Prop where
  ops : log.map (·.1) <+: planned
  results : ∃ earlier, log.filterMap told = earlier ++ [r] ∧ ∀ x ∈ earlier, Passing retryable x
  exhausted : Passing retryable r → log.map (·.1) = planned

variable {retryable : ε → Bool} {exhausted : ε} {told : Exchange E → Option (Except ε α)} {planned more : List E.Op}
  {log rest : List (Exchange E)} {r : Except ε α}

theorem Settled.stop (h : Settled retryable told planned log r) (hr : ¬ Passing retryable r) :
    Settled retryable told (planned ++ more) log r :=
  ⟨h.ops.trans (List.prefix_append _ _), h.results, fun hpassing => absurd hpassing hr⟩

theorem Settled.next {s : Except ε α} (h : Settled retryable told planned log r) (hr : Passing retryable r)
    (hrest : Settled retryable told more rest s) : Settled retryable told (planned ++ more) (log ++ rest) s := by
  obtain ⟨earlier, hlog, hearlier⟩ := h.results
  obtain ⟨later, hlater, hpassing⟩ := hrest.results
  refine ⟨?_, ⟨earlier ++ [r] ++ later, ?_, ?_⟩, fun hs => ?_⟩
  · rw [List.map_append, h.exhausted hr]
    exact (List.prefix_append_right_inj _).mpr hrest.ops
  · rw [List.filterMap_append, hlog, hlater, ← List.append_assoc]
  · intro x hx
    rcases List.mem_append.mp hx with hx | hx
    · rcases List.mem_append.mp hx with hx | hx
      · exact hearlier x hx
      · rwa [List.mem_singleton.mp hx]
    · exact hpassing x hx
  · rw [List.map_append, h.exhausted hr, hrest.exhausted hs]

theorem Settled.after {op : E.Op} {answer : E.Ans op} (h : Settled retryable told planned log r)
    (hsilent : told ⟨op, answer⟩ = none) : Settled retryable told (op :: planned) (⟨op, answer⟩ :: log) r := by
  obtain ⟨earlier, hlog, hearlier⟩ := h.results
  refine ⟨?_, ⟨earlier, ?_, hearlier⟩, fun hr => ?_⟩
  · exact List.cons_prefix_cons.mpr ⟨rfl, h.ops⟩
  · rw [List.filterMap_cons_none hsilent, hlog]
  · rw [List.map_cons, h.exhausted hr]

/-- The call with each choice is one exchange, and it tells what was answered. -/
def Single (told : Exchange E → Option (Except ε α)) (call : ι → Prog E (Except ε α)) (op : ι → E.Op) : Prop :=
  ∀ x log r, Traced (call x) log r → ∃ answer, log = [⟨op x, answer⟩] ∧ told ⟨op x, answer⟩ = some r

theorem settled_of_single {call : ι → Prog E (Except ε α)} {op : ι → E.Op} (h : Single told call op) {x : ι}
    (htraced : Traced (call x) log r) : Settled retryable told [op x] log r := by
  obtain ⟨answer, rfl, htold⟩ := h x log r htraced
  exact ⟨List.prefix_refl _, ⟨[], by simp [htold], by simp⟩, fun _ => rfl⟩

theorem not_passing_ok {a : α} : ¬ Passing retryable (.ok a : Except ε α) := by
  rintro ⟨e, he, -⟩
  cases he

theorem not_passing_error {e : ε} (h : retryable e = false) : ¬ Passing retryable (.error e : Except ε α) := by
  rintro ⟨e', he, hpassing⟩
  cases he
  simp [h] at hpassing

theorem firstSettled_settled {call : ι → Prog E (Except ε α)} {op : ι → E.Op} (h : Single told call op)
    {choices : List ι} (hsome : choices ≠ []) (last : Option ε)
    (htraced : Traced (firstSettled retryable exhausted call last choices) log r) :
    Settled retryable told (choices.map op) log r := by
  induction choices generalizing last log with
  | nil => exact absurd rfl hsome
  | cons x choices ih =>
    obtain ⟨first, told', rest, rfl, hfirst, hrest⟩ := traced_bind.mp htraced
    have hsettled : Settled retryable told [op x] first told' := settled_of_single h hfirst
    rw [List.map_cons, ← List.singleton_append]
    cases told' with
    | ok a =>
      obtain ⟨rfl, rfl⟩ := traced_done.mp hrest
      rw [List.append_nil]
      exact hsettled.stop not_passing_ok
    | error e =>
      dsimp only at hrest
      split_ifs at hrest with hpassing
      · cases choices with
        | nil =>
          -- Nothing is left to try: the last error is the result.
          obtain ⟨rfl, rfl⟩ := traced_done.mp hrest
          simpa using hsettled
        | cons y choices => exact hsettled.next ⟨e, rfl, hpassing⟩ (ih (List.cons_ne_nil _ _) _ hrest)
      · obtain ⟨rfl, rfl⟩ := traced_done.mp hrest
        rw [List.append_nil]
        exact hsettled.stop (not_passing_error (by simpa using hpassing))

/-- The calls of the rounds that are left, and of the pauses between them. -/
def schedule (planned : List E.Op) (pauseOp : Nat → E.Op) : (attempt left : Nat) → List E.Op
  | _, 0 => []
  | _, 1 => planned
  | attempt, left + 2 => planned ++ pauseOp attempt :: schedule planned pauseOp (attempt + 1) (left + 1)

theorem mem_schedule {pauseOp : Nat → E.Op} {attempt left : Nat} {op : E.Op}
    (h : op ∈ schedule planned pauseOp attempt left) : op ∈ planned ∨ ∃ n, op = pauseOp n := by
  induction left generalizing attempt with
  | zero => simp [schedule] at h
  | succ left ih =>
    cases left with
    | zero => exact .inl h
    | succ left =>
      rcases List.mem_append.mp h with h | h
      · exact .inl h
      · rcases List.mem_cons.mp h with rfl | h
        · exact .inr ⟨attempt, rfl⟩
        · exact ih h

theorem sum_schedule_le (cost : E.Op → Nat) (bound : Nat) {pauseOp : Nat → E.Op} (hpause : ∀ n, cost (pauseOp n) ≤ bound)
    (attempt left : Nat) :
    ((schedule planned pauseOp attempt left).map cost).sum ≤
      left * (planned.map cost).sum + (left - 1) * bound := by
  induction left generalizing attempt with
  | zero => simp [schedule]
  | succ left ih =>
    cases left with
    | zero => simp [schedule]
    | succ left =>
      have hlater := ih (attempt + 1)
      have hslept := hpause attempt
      rw [schedule, List.map_append, List.sum_append, List.map_cons, List.sum_cons]
      rw [Nat.add_sub_cancel] at hlater ⊢
      have hcosts : (left + 1 + 1) * (planned.map cost).sum = (left + 1) * (planned.map cost).sum + (planned.map cost).sum :=
        Nat.succ_mul _ _
      have hbounds : (left + 1) * bound = left * bound + bound := Nat.succ_mul _ _
      omega

theorem sum_prefix_le {cost : E.Op → Nat} {some all : List E.Op} (h : some <+: all) :
    (some.map cost).sum ≤ (all.map cost).sum := by
  obtain ⟨rest, rfl⟩ := h
  rw [List.map_append, List.sum_append]
  omega

theorem repeated_settled {attempts : Nat} {round : Prog E (Except ε α)} {pause : Nat → Prog E Unit}
    {pauseOp : Nat → E.Op} (hround : ∀ log r, Traced round log r → Settled retryable told planned log r)
    (hpause : ∀ n log u, Traced (pause n) log u → ∃ answer, log = [⟨pauseOp n, answer⟩] ∧ told ⟨pauseOp n, answer⟩ = none)
    {attempt left : Nat} (hleft : attempt + left = attempts) (last : Option ε)
    (htraced : Traced (repeated retryable exhausted attempts round pause attempt (left + 1) last) log r) :
    Settled retryable told (schedule planned pauseOp attempt (left + 1)) log r := by
  induction left generalizing attempt last log with
  | zero =>
    obtain ⟨first, told', rest, rfl, hfirst, hrest⟩ := traced_bind.mp htraced
    have hsettled := hround _ _ hfirst
    cases told' with
    | ok a =>
      obtain ⟨rfl, rfl⟩ := traced_done.mp hrest
      rwa [List.append_nil]
    | error e =>
      dsimp only at hrest
      rw [if_neg (by omega : ¬ attempt < attempts)] at hrest
      split_ifs at hrest
      all_goals
        obtain ⟨rfl, rfl⟩ := traced_done.mp hrest
        rwa [List.append_nil]
  | succ left ih =>
    obtain ⟨first, told', rest, rfl, hfirst, hrest⟩ := traced_bind.mp htraced
    have hsettled := hround _ _ hfirst
    rw [schedule]
    cases told' with
    | ok a =>
      obtain ⟨rfl, rfl⟩ := traced_done.mp hrest
      rw [List.append_nil]
      exact hsettled.stop not_passing_ok
    | error e =>
      dsimp only at hrest
      rw [if_pos (by omega : attempt < attempts)] at hrest
      split_ifs at hrest with hpassing
      · obtain ⟨slept, u, again, rfl, hslept, hagain⟩ := traced_bind.mp hrest
        obtain ⟨answer, rfl, hsilent⟩ := hpause _ _ _ hslept
        have hlater := ih (by omega) _ hagain
        exact hsettled.next ⟨e, rfl, hpassing⟩ (hlater.after hsilent)
      · obtain ⟨rfl, rfl⟩ := traced_done.mp hrest
        rw [List.append_nil]
        exact hsettled.stop (not_passing_error (by simpa using hpassing))

end Interaction.Prog
