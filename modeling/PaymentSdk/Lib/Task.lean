import Mathlib.Tactic.Common

/-!
# Tasks that are polled until they are done

A task stands at an await. A poll goes on with what the awaited call answered, changes the
state, and leaves a trace. `Ends` says what holds at the end for every answer on the way, and
that there is an end.
-/

namespace Interaction

/-- What one poll gives. -/
structure Progress (σ ε τ α : Type) where
  state : σ
  trace : List ε
  outcome : τ ⊕ α

variable {σ ρ ε τ τ' α β : Type}

/-- After a poll, the task has `next` to go on, or it is done with `post`. -/
def Progress.Leads (p : Progress σ ε τ α) (log : List ε) (next : σ → List ε → τ → Prop)
    (post : σ → List ε → α → Prop) : Prop :=
  match p.outcome with
  | .inl t => next p.state (log ++ p.trace) t
  | .inr a => post p.state (log ++ p.trace) a

/-- Polls with one answer after another, until the task is done or the answers are used up. -/
def runTask (poll : σ → ρ → τ → Progress σ ε τ α) : List ρ → σ → τ → Progress σ ε τ α
  | [], s, t => ⟨s, [], .inl t⟩
  | r :: rest, s, t => match poll s r t with
    | ⟨s', trace, .inr a⟩ => ⟨s', trace, .inr a⟩
    | ⟨s', trace, .inl t'⟩ =>
      { runTask poll rest s' t' with trace := trace ++ (runTask poll rest s' t').trace }

/-- Whatever the answers are, the task comes to an end, and `post` holds there. -/
inductive Ends (poll : σ → ρ → τ → Progress σ ε τ α) (post : σ → List ε → α → Prop) : σ → List ε → τ → Prop
  | step {s : σ} {log : List ε} {t : τ}
    (done : ∀ r a, (poll s r t).outcome = .inr a → post (poll s r t).state (log ++ (poll s r t).trace) a)
    (next : ∀ r t', (poll s r t).outcome = .inl t' →
      Ends poll post (poll s r t).state (log ++ (poll s r t).trace) t') : Ends poll post s log t

variable {poll : σ → ρ → τ → Progress σ ε τ α} {post : σ → List ε → α → Prop} {s : σ} {log : List ε} {t : τ}

theorem Ends.of_poll (h : ∀ r, (poll s r t).Leads log (Ends poll post) post) : Ends poll post s log t := by
  refine .step (fun r a ha => ?_) fun r t' ht => ?_
  · have hr := h r
    rw [Progress.Leads, ha] at hr
    exact hr
  · have hr := h r
    rw [Progress.Leads, ht] at hr
    exact hr

theorem Ends.post_of_run (h : Ends poll post s log t) (answers : List ρ) {a : α}
    (hrun : (runTask poll answers s t).outcome = .inr a) :
    post (runTask poll answers s t).state (log ++ (runTask poll answers s t).trace) a := by
  induction h generalizing answers with
  | @step s log t hdone hnext ih =>
    cases answers with
    | nil => cases hrun
    | cons r rest =>
      have hdone := hdone r
      have ih := ih r
      rw [runTask] at hrun ⊢
      generalize poll s r t = p at hdone ih hrun
      obtain ⟨s', trace, outcome⟩ := p
      cases outcome with
      | inr b =>
        cases hrun
        exact hdone _ rfl
      | inl t' =>
        have := ih t' rfl rest hrun
        rwa [List.append_assoc] at this

theorem Ends.exists_run (h : Ends poll post s log t) (answers : Nat → ρ) :
    ∃ n a, (runTask poll ((List.range n).map answers) s t).outcome = .inr a := by
  induction h generalizing answers with
  | @step s log t hdone hnext ih =>
    have ih := ih (answers 0)
    have hfirst : ∀ n, (List.range (n + 1)).map answers =
        answers 0 :: (List.range n).map fun i => answers (i + 1) := by
      intro n
      rw [List.range_succ_eq_map, List.map_cons, List.map_map]
      rfl
    generalize hp : poll s (answers 0) t = p at ih
    obtain ⟨s', trace, outcome⟩ := p
    cases outcome with
    | inr a =>
      refine ⟨1, a, ?_⟩
      rw [hfirst, runTask, hp]
    | inl t' =>
      obtain ⟨n, a, hn⟩ := ih t' rfl fun i => answers (i + 1)
      refine ⟨n + 1, a, ?_⟩
      rw [hfirst, runTask, hp]
      exact hn

theorem Ends.embed {poll' : σ → ρ → τ' → Progress σ ε τ' β} {post' : σ → List ε → β → Prop} (inside : τ → τ')
    (cont : σ → α → σ × (τ' ⊕ β))
    (hpoll : ∀ s r t, poll' s r (inside t) = match poll s r t with
      | ⟨s', trace, .inl t'⟩ => ⟨s', trace, .inl (inside t')⟩
      | ⟨s', trace, .inr a⟩ => ⟨(cont s' a).1, trace, (cont s' a).2⟩)
    (h : Ends poll post s log t)
    (hcont : ∀ s' log' a, post s' log' a →
      (⟨(cont s' a).1, [], (cont s' a).2⟩ : Progress σ ε τ' β).Leads log' (Ends poll' post') post') :
    Ends poll' post' s log (inside t) := by
  induction h with
  | @step s log t hdone hnext ih =>
    apply Ends.of_poll
    intro r
    have hdone := hdone r
    have ih := ih r
    rw [hpoll]
    generalize poll s r t = p at hdone ih
    obtain ⟨s', trace, outcome⟩ := p
    cases outcome with
    | inl t' => exact ih t' rfl
    | inr a =>
      have hnext := hcont s' (log ++ trace) a (hdone a rfl)
      simpa only [Progress.Leads, List.append_nil] using hnext

/-- With these answers a task gets here, whatever others do to the state between its polls. -/
inductive Reaches (poll : σ → ρ → τ → Progress σ ε τ α) (start : τ) : List ρ → τ ⊕ α → Prop
  | start : Reaches poll start [] (.inl start)
  | poll {answers : List ρ} {t : τ} (s : σ) (r : ρ) (h : Reaches poll start answers (.inl t)) :
    Reaches poll start (answers ++ [r]) (poll s r t).outcome

theorem Reaches.keeps {P : List ρ → τ ⊕ α → Prop} {start : τ} {answers : List ρ} {o : τ ⊕ α}
    (h : Reaches poll start answers o) (hstart : P [] (.inl start))
    (hpoll : ∀ answers t s r, P answers (.inl t) → P (answers ++ [r]) (poll s r t).outcome) : P answers o := by
  induction h with
  | start => exact hstart
  | poll s r _ ih => exact hpoll _ _ s r ih

end Interaction
