import PaymentSdk.Lib.Prog

/-!
# Triples for programs that may fail

What holds where a program returns, and which errors it may end with, for any answers of its
calls.
-/

namespace Interaction.Prog

variable {E : Calls} {α β ε σ : Type} {step : (op : E.Op) → σ → E.Ans op → σ → Prop}

def Triple (step : (op : E.Op) → σ → E.Ans op → σ → Prop) (fails : ε → Prop) (pre : σ → Prop)
    (p : ExceptT ε (Prog E) α) (post : α → σ → Prop) : Prop :=
  ∀ s, pre s → Prog.Always step (fun _ => True) (fun r t => match r with
    | .ok a => post a t
    | .error e => fails e) p s

variable {fails : ε → Prop} {pre pre' : σ → Prop} {post : α → σ → Prop}

theorem triple_pure {a : α} (h : ∀ s, pre s → post a s) :
    Triple step fails pre (pure a : ExceptT ε (Prog E) α) post := fun s hs => ⟨trivial, h s hs⟩

theorem triple_throw {e : ε} (h : fails e) : Triple step fails pre (throw e : ExceptT ε (Prog E) α) post :=
  fun _ _ => ⟨trivial, h⟩

theorem triple_bind {mid : α → σ → Prop} {p : ExceptT ε (Prog E) α} {f : α → ExceptT ε (Prog E) β}
    {post : β → σ → Prop} (hp : Triple step fails pre p mid) (hf : ∀ a, Triple step fails (mid a) (f a) post) :
    Triple step fails pre (p >>= f) post := by
  intro s hs
  apply always_except_bind
  apply always_mono (hp s hs) fun _ ht => ht
  intro r t _ hr
  cases r with
  | ok a => exact hf a t hr
  | error e => exact hr

theorem triple_before {p : ExceptT ε (Prog E) α} (h : Triple step fails pre p post) (hpre : ∀ s, pre' s → pre s) :
    Triple step fails pre' p post := fun s hs => h s (hpre s hs)

theorem triple_of_fact {fact : Prop} {p : ExceptT ε (Prog E) α} (h : fact → Triple step fails pre p post) :
    Triple step fails (fun s => fact ∧ pre s) p post := fun s hs => h hs.1 s hs.2

theorem triple_foldlM {inv : β → σ → Prop} {f : β → α → ExceptT ε (Prog E) β}
    (hf : ∀ b x, Triple step fails (inv b) (f b x) inv) (xs : List α) (b : β) :
    Triple step fails (inv b) (xs.foldlM f b) inv := by
  induction xs generalizing b with
  | nil => exact triple_pure fun _ hs => hs
  | cons x xs ih =>
    rw [List.foldlM_cons]
    exact triple_bind (hf b x) ih

/-! ## Runs -/

theorem reaches_run_of {τ : Type} {handle : (op : E.Op) → τ → E.Ans op × τ} {seen : τ → σ}
    (hstep : ∀ op t, step op (seen t) (handle op t).1 (seen (handle op t).2)) (p : Prog E α) (t : τ) :
    Reaches step p (seen t) (done (p.run handle t).1) (seen (p.run handle t).2) := by
  induction p generalizing t with
  | done a => exact .here _ _
  | call op next ih => exact .answer _ (hstep op t) (ih _ _)

theorem Triple.returns {p : ExceptT ε (Prog E) α} (h : Triple step fails pre p post) {s t : σ} {a : α} (hs : pre s)
    (hreaches : Reaches step p s (done (.ok a)) t) : post a t :=
  (always_reaches (h s hs) hreaches).2

theorem Triple.throws {p : ExceptT ε (Prog E) α} (h : Triple step fails pre p post) {s t : σ} {e : ε} (hs : pre s)
    (hreaches : Reaches step p s (done (.error e)) t) : fails e :=
  (always_reaches (h s hs) hreaches).2

end Interaction.Prog
