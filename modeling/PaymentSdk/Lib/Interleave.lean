import PaymentSdk.Lib.Prog

/-!
# A program among the steps of others

Others act on the shared state between the program's calls. The trace has every state from
the program's start to its last call, so "at one instant" is a statement about the trace.
-/

namespace Interaction.Prog

variable {E : Calls} {A α β ε σ : Type}

/-- The states after each action, in order. -/
def states (act : A → σ → σ) : List A → σ → List σ
  | [], _ => []
  | a :: rest, s => act a s :: states act rest (act a s)

/-- A run among others: what it returned, the state and the schedule that are left, and the
states that it went through. -/
structure Passage (A α σ : Type) where
  result : α
  state : σ
  left : List (List A)
  trace : List σ

/-- `schedule` has the actions of others before each call. -/
def among (handle : (op : E.Op) → σ → E.Ans op × σ) (act : A → σ → σ) :
    Prog E α → List (List A) → σ → Passage A α σ
  | done a, schedule, s => ⟨a, s, schedule, []⟩
  | call op next, schedule, s =>
    let acts := schedule.headD []
    let answer := handle op (acts.foldl (fun s a => act a s) s)
    let rest := (next answer.1).among handle act schedule.tail answer.2
    ⟨rest.result, rest.state, rest.left, states act acts s ++ answer.2 :: rest.trace⟩

variable {handle : (op : E.Op) → σ → E.Ans op × σ} {act : A → σ → σ}

theorem among_bind (p : Prog E α) (f : α → Prog E β) (schedule : List (List A)) (s : σ) :
    (p.bind f).among handle act schedule s =
      let first := p.among handle act schedule s
      let second := (f first.result).among handle act first.left first.state
      ⟨second.result, second.state, second.left, first.trace ++ second.trace⟩ := by
  induction p generalizing schedule s with
  | done a => rfl
  | call op next ih =>
    simp only [Prog.bind, among, ih]
    simp

theorem among_bind_ok {p : ExceptT ε (Prog E) α} {f : α → ExceptT ε (Prog E) β}
    {schedule left : List (List A)} {s s' : σ} {b : β} {trace : List σ}
    (h : among handle act (p >>= f : ExceptT ε (Prog E) β) schedule s = ⟨.ok b, s', left, trace⟩) :
    ∃ a t mid trace₁ trace₂, among handle act p schedule s = ⟨.ok a, t, mid, trace₁⟩ ∧
      among handle act (f a) mid t = ⟨.ok b, s', left, trace₂⟩ ∧ trace = trace₁ ++ trace₂ := by
  rw [except_bind_eq, among_bind] at h
  rcases hp : among handle act p schedule s with ⟨e | a, t, mid, trace₁⟩
  · rw [hp] at h
    cases h
  · rw [hp] at h
    dsimp only at h
    rcases hf : among handle act (f a) mid t with ⟨r, t', left', trace₂⟩
    rw [hf] at h
    cases h
    exact ⟨a, t, mid, trace₁, trace₂, rfl, hf, rfl⟩

theorem getLast_trace {p : Prog E α} {schedule left : List (List A)} {s s' : σ} {a : α}
    {trace : List σ} (h : p.among handle act schedule s = ⟨a, s', left, trace⟩) :
    trace.getLastD s = s' := by
  induction p generalizing schedule s trace with
  | done b =>
    cases h
    rfl
  | call op next ih =>
    cases h
    rw [← ih _ rfl]
    simp [List.getLastD_eq_getLast?, List.getLast?_cons]

theorem foldl_of_states {acts : List A} {s : σ} (h : ∀ t ∈ states act acts s, t = s) :
    acts.foldl (fun s a => act a s) s = s := by
  induction acts with
  | nil => rfl
  | cons a rest ih =>
    have ha : act a s = s := h _ List.mem_cons_self
    rw [List.foldl_cons, ha]
    apply ih
    intro t ht
    apply h
    rw [states, ha]
    exact List.mem_cons_of_mem _ ht

theorem run_of_constant {p : Prog E α} {schedule left : List (List A)} {s s' : σ} {a : α}
    {trace : List σ} (h : p.among handle act schedule s = ⟨a, s', left, trace⟩)
    (hconstant : ∀ t ∈ trace, t = s) : p.run handle s = (a, s) := by
  induction p generalizing schedule trace with
  | done b =>
    cases h
    rfl
  | call op next ih =>
    cases h
    have hacts := foldl_of_states fun t ht => hconstant t (List.mem_append_left _ ht)
    have hanswer := hconstant _ (List.mem_append_right _ List.mem_cons_self)
    rw [hacts] at hanswer
    rw [run_call, hanswer]
    refine ih _ (by rw [hacts, hanswer]) fun t ht => ?_
    exact hconstant t (List.mem_append_right _ (List.mem_cons_of_mem _ (by rw [hacts, hanswer]; exact ht)))

theorem constant_of_noReturn {κ : Type} {key : σ → κ} {c : κ} {s : σ} {trace : List σ}
    (h : (s :: trace).IsChain fun t t' => t' = t ∨ key t' ≠ c) (hlast : key (trace.getLastD s) = c) :
    ∀ t ∈ trace, t = s := by
  induction trace generalizing s with
  | nil => simp
  | cons t rest ih =>
    obtain ⟨hstep, hrest⟩ := List.isChain_cons_cons.mp h
    rw [List.getLastD_cons] at hlast
    have hconst := ih hrest hlast
    have hend : rest.getLastD t = t := by
      cases hr : rest.getLast? with
      | none => simp [List.getLastD_eq_getLast?, hr]
      | some u =>
        rw [List.getLastD_eq_getLast?, hr]
        exact hconst u (List.mem_of_getLast? hr)
    have hkey : key t = c := by
      rw [← hend]
      exact hlast
    have hst : t = s := hstep.resolve_right fun hne => hne hkey
    intro u hu
    rcases List.mem_cons.mp hu with rfl | hu
    · exact hst
    · exact (hconst u hu).trans hst

/-! ## Readers

Others only move the state forward, and the program only reads it. If the state is at the end
what it was at the start, nobody has moved it, and the program has read that one state. -/

/-- No call of the program changes the state. -/
def ReadOnly (handle : (op : E.Op) → σ → E.Ans op × σ) : Prog E α → Prop
  | done _ => True
  | call op next => (∀ s, (handle op s).2 = s) ∧ ∀ r, (next r).ReadOnly handle

theorem readOnly_bind {p : Prog E α} {f : α → Prog E β} (hp : p.ReadOnly handle)
    (hf : ∀ a, (f a).ReadOnly handle) : (p.bind f).ReadOnly handle := by
  induction p with
  | done a => exact hf a
  | call op next ih => exact ⟨hp.1, fun r => ih r (hp.2 r)⟩

theorem readOnly_except_bind {p : ExceptT ε (Prog E) α} {f : α → ExceptT ε (Prog E) β}
    (hp : ReadOnly handle p) (hf : ∀ a, ReadOnly handle (f a)) :
    ReadOnly handle (p >>= f : ExceptT ε (Prog E) β) := by
  rw [except_bind_eq]
  apply readOnly_bind hp
  intro r
  cases r with
  | ok a => exact hf a
  | error e => trivial

/-- The others have moved the state before the call, and the call leaves it as it is. -/
def Watched (handle : (op : E.Op) → σ → E.Ans op × σ) (grows : σ → σ → Prop) (op : E.Op) (s : σ)
    (r : E.Ans op) (t : σ) : Prop :=
  grows s t ∧ (r, t) = handle op t

theorem reaches_snoc {step : (op : E.Op) → σ → E.Ans op → σ → Prop} {p q : Prog E α} {s t u : σ}
    {op : E.Op} {next : E.Ans op → Prog E α} {r : E.Ans op} (h : Reaches step p s q t)
    (hq : q = call op next) (hstep : step op t r u) : Reaches step p s (next r) u := by
  induction h with
  | here p s =>
    subst hq
    exact .answer r hstep (.here _ _)
  | answer r' hfirst _ ih => exact .answer r' hfirst (ih hq hstep)

theorem reaches_map {step : (op : E.Op) → σ → E.Ans op → σ → Prop} {g : α → β} {p : Prog E α} {q q' : Prog E β}
    {s t : σ} (h : Reaches step q s q' t) (hq : q = p.bind fun a => done (g a)) :
    ∃ p', q' = p'.bind (fun a => done (g a)) ∧ Reaches step p s p' t := by
  induction h generalizing p with
  | here q s => exact ⟨p, hq, .here p s⟩
  | @answer op next q' s s' t r hstep _ ih =>
    cases p with
    | done a => cases hq
    | call op' next' =>
      cases hq
      obtain ⟨p', hq', hreaches⟩ := ih rfl
      exact ⟨p', hq', .answer r hstep hreaches⟩

section Watched

variable {grows : σ → σ → Prop} {p q : Prog E α} {s t : σ}

theorem grows_of_watched (hrefl : ∀ s, grows s s) (htrans : ∀ s t u, grows s t → grows t u → grows s u)
    (h : Reaches (Watched handle grows) p s q t) : grows s t := by
  induction h with
  | here p s => exact hrefl s
  | answer r hstep _ ih => exact htrans _ _ _ hstep.1 ih

theorem run_of_unmoved (hrefl : ∀ s, grows s s) (htrans : ∀ s t u, grows s t → grows t u → grows s u)
    (hanti : ∀ s t, grows s t → grows t s → t = s) (h : Reaches (Watched handle grows) p s q t)
    (hend : t = s) : p.run handle s = q.run handle s := by
  induction h with
  | here p s => rfl
  | @answer op next q s s' t r hstep hrest ih =>
    subst hend
    obtain rfl : s' = t := hanti _ _ hstep.1 (grows_of_watched hrefl htrans hrest)
    rw [run_call, ← hstep.2]
    exact ih rfl

end Watched

end Interaction.Prog
