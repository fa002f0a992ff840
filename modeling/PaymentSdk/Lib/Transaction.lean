import Mathlib.Data.List.Basic
import PaymentSdk.Lib.Store

/-!
# Optimistic transactions under one guard key

A transaction reads the guard key first, then other keys, and commits last. Its commit
requires the guard to be as it was read, and writes the guard. Any interleaving of such
transactions then ends where the committed ones would, run one after another.
-/

open Interaction

namespace KvStore

variable {V α β ε : Type}

/-! ## Programs that only read -/

/-- What the answers so far say about the guard. `doomed`: it was missing, and yet
another key of its area was there. -/
inductive Evidence where
  | version (v : Nat)
  | fresh
  | doomed

/-- The evidence after one more read, which found its key or did not. -/
def Evidence.after : Evidence → Bool → Evidence
  | .fresh, true => .doomed
  | m, _ => m

section Static

variable (guard : Key) (area : Key → Prop)

/-- The batch carries conditions that repeat the evidence. -/
def Evidence.Shown (b : WriteBatch V) : Evidence → Prop
  | .version v => .version guard v ∈ b.conditions
  | .fresh => .missing guard ∈ b.conditions
  | .doomed => .missing guard ∈ b.conditions ∧ ∃ k v, area k ∧ .version k v ∈ b.conditions

/-- Point reads inside the area, and nothing else. `post` may depend on the evidence. -/
def Reads (post : Evidence → α → Prop) : Evidence → Prog (storeCalls V) α → Prop
  | m, .done a => post m a
  | m, .call (.get k) next => area k ∧ ∀ r, Reads post (m.after r.isSome) (next r)
  | _, .call (.scan _ _ _) _ => False
  | _, .call (.commit _) _ => False

/-- Point reads, then at most one commit as the last call. Its batch shows the evidence
and writes the guard, and the program fails if and only if the commit does. Without a
commit, only a `quiet` result is a success. -/
def Guarded (quiet : α → Prop) : Evidence → Prog (storeCalls V) (Except ε α) → Prop
  | _, .done r => ∀ a, r = .ok a → quiet a
  | m, .call (.get k) next => area k ∧ ∀ r, Guarded quiet (m.after r.isSome) (next r)
  | _, .call (.scan _ _ _) _ => False
  | m, .call (.commit b) next =>
    m.Shown guard area b ∧ (∃ op ∈ b.operations, op.key = guard) ∧
      (∀ v, ∃ a, next (.ok v) = .done (.ok a)) ∧ ∀ e, ∃ e', next (.error e) = .done (.error e')

/-- A whole transaction: it reads the guard before anything else. -/
def Optimistic (quiet : α → Prop) : Prog (storeCalls V) (Except ε α) → Prop
  | .done r => ∀ a, r = .ok a → quiet a
  | .call (.get k) next =>
    k = guard ∧ Guarded guard area quiet .fresh (next none) ∧
      ∀ e, Guarded guard area quiet (.version e.version) (next (some e))
  | .call (.scan _ _ _) _ => False
  | .call (.commit _) _ => False

variable {guard area} {quiet : α → Prop}

theorem reads_mono {post post' : Evidence → α → Prop} {m : Evidence} {p : Prog (storeCalls V) α}
    (h : Reads area post m p) (hp : ∀ m a, post m a → post' m a) : Reads area post' m p := by
  induction p generalizing m with
  | done a => exact hp m a h
  | call op next ih =>
    cases op with
    | get k => exact ⟨h.1, fun r => ih r (h.2 r)⟩
    | scan => exact h
    | commit => exact h

theorem reads_bind {post : Evidence → β → Prop} {m : Evidence} {p : Prog (storeCalls V) α}
    {f : α → Prog (storeCalls V) β} (h : Reads area (fun m a => Reads area post m (f a)) m p) :
    Reads area post m (p.bind f) := by
  induction p generalizing m with
  | done a => exact h
  | call op next ih =>
    cases op with
    | get k => exact ⟨h.1, fun r => ih r (h.2 r)⟩
    | scan => exact h.elim
    | commit => exact h.elim

theorem guarded_bind {m : Evidence} {p : Prog (storeCalls V) β}
    {f : β → Prog (storeCalls V) (Except ε α)}
    (h : Reads area (fun m a => Guarded guard area quiet m (f a)) m p) :
    Guarded guard area quiet m (p.bind f) := by
  induction p generalizing m with
  | done a => exact h
  | call op next ih =>
    cases op with
    | get k => exact ⟨h.1, fun r => ih r (h.2 r)⟩
    | scan => exact h.elim
    | commit => exact h.elim

theorem reads_except_bind {post : Evidence → Except ε β → Prop} {m : Evidence}
    {p : ExceptT ε (Prog (storeCalls V)) α} {f : α → ExceptT ε (Prog (storeCalls V)) β}
    (h : Reads area (fun m r => match r with
      | .ok a => Reads area post m (f a)
      | .error e => post m (.error e)) m p) :
    Reads area post m (p >>= f : ExceptT ε (Prog (storeCalls V)) β) := by
  rw [Prog.except_bind_eq]
  apply reads_bind
  apply reads_mono h
  rintro m (e | a) hr <;> exact hr

theorem guarded_except_bind {m : Evidence} {p : ExceptT ε (Prog (storeCalls V)) β}
    {f : β → ExceptT ε (Prog (storeCalls V)) α}
    (h : Reads area (fun m r => match r with
      | .ok a => Guarded guard area quiet m (f a)
      | .error _ => True) m p) :
    Guarded guard area quiet m (p >>= f : ExceptT ε (Prog (storeCalls V)) α) := by
  rw [Prog.except_bind_eq]
  apply guarded_bind
  apply reads_mono h
  rintro m (e | a) hr
  · rintro a ⟨⟩
  · exact hr

theorem shown_mono {m : Evidence} {b b' : WriteBatch V} (h : m.Shown guard area b)
    (hsub : b.conditions ⊆ b'.conditions) : m.Shown guard area b' := by
  cases m with
  | version v => exact hsub h
  | fresh => exact hsub h
  | doomed =>
    obtain ⟨hmissing, k, v, hk, hv⟩ := h
    exact ⟨hsub hmissing, k, v, hk, hsub hv⟩

theorem shown_found {m : Evidence} {b b' : WriteBatch V} {k : Key} {v : Nat}
    (h : m.Shown guard area b) (hsub : b.conditions ⊆ b'.conditions) (hk : area k)
    (hv : .version k v ∈ b'.conditions) : (m.after true).Shown guard area b' := by
  cases m with
  | version v => exact hsub h
  | fresh => exact ⟨hsub h, k, v, hk, hv⟩
  | doomed => exact shown_mono (m := .doomed) h hsub

theorem reads_foldlM {ι : Type} {f : β → ι → ExceptT ε (Prog (storeCalls V)) β}
    {P : Evidence → β → Prop}
    (hf : ∀ m b x, P m b → Reads area (fun m r => ∀ b', r = .ok b' → P m b') m (f b x))
    {m : Evidence} (xs : List ι) {b : β} (h : P m b) :
    Reads area (fun m r => ∀ b', r = .ok b' → P m b') m
      (xs.foldlM f b : ExceptT ε (Prog (storeCalls V)) β) := by
  induction xs generalizing m b with
  | nil =>
    rintro b' hb
    cases hb
    exact h
  | cons x xs ih =>
    rw [List.foldlM_cons]
    apply reads_except_bind
    apply reads_mono (hf m b x h)
    rintro m (e | b') hb
    · simp
    · exact ih (hb b' rfl)

theorem guarded_run_error {size : V → Bool} {m : Evidence}
    {p : Prog (storeCalls V) (Except ε α)} {s s' : Store V} {e : ε} (h : Guarded guard area quiet m p)
    (hr : p.run (serve size) s = (.error e, s')) : s' = s := by
  induction p generalizing m with
  | done a =>
    cases hr
    rfl
  | call op next ih =>
    cases op with
    | get k => exact ih _ (h.2 _) hr
    | scan => exact h.elim
    | commit b =>
      rw [run_commit] at hr
      rcases hc : s.commit size b with ⟨e' | v, t⟩
      · obtain rfl := commit_error hc
        obtain ⟨e'', he⟩ := h.2.2.2 e'
        rw [hc, he] at hr
        cases hr
        rfl
      · obtain ⟨a, ha⟩ := h.2.2.1 v
        rw [hc, ha] at hr
        cases hr

theorem optimistic_run_error {size : V → Bool} {p : Prog (storeCalls V) (Except ε α)}
    {s s' : Store V} {e : ε} (h : Optimistic guard area quiet p)
    (hr : p.run (serve size) s = (.error e, s')) : s' = s := by
  cases p with
  | done a =>
    cases hr
    rfl
  | call op next =>
    cases op with
    | get k =>
      rw [run_get] at hr
      cases hk : s.get k with
      | none =>
        rw [hk] at hr
        exact guarded_run_error h.2.1 hr
      | some x =>
        rw [hk] at hr
        exact guarded_run_error (h.2.2 x) hr
    | scan => exact h.elim
    | commit => exact h.elim

theorem guarded_map {quiet' : β → Prop} {m : Evidence} {p : ExceptT ε (Prog (storeCalls V)) β}
    (f : β → α) (hf : ∀ b, quiet' b → quiet (f b)) (h : Guarded guard area quiet' m p) :
    Guarded guard area quiet m (do let r ← p; pure (f r) : ExceptT ε (Prog (storeCalls V)) α) := by
  rw [Prog.except_bind_eq]
  induction (p : Prog (storeCalls V) (Except ε β)) generalizing m with
  | done r =>
    cases r with
    | error e => rintro a ⟨⟩
    | ok b =>
      rintro a ⟨⟩
      exact hf b (h b rfl)
  | call op next ih =>
    cases op with
    | get k => exact ⟨h.1, fun r => ih r (h.2 r)⟩
    | scan => exact h.elim
    | commit b =>
      obtain ⟨hshown, hwrites, hok, herr⟩ := h
      refine ⟨hshown, hwrites, fun v => ?_, fun e => ?_⟩
      · obtain ⟨a, ha⟩ := hok v
        exact ⟨f a, by show Prog.bind (next (.ok v)) _ = _; rw [ha]; rfl⟩
      · obtain ⟨e', he⟩ := herr e
        exact ⟨e', by show Prog.bind (next (.error e)) _ = _; rw [he]; rfl⟩

theorem optimistic_map {quiet' : β → Prop} {p : ExceptT ε (Prog (storeCalls V)) β} (f : β → α)
    (hf : ∀ b, quiet' b → quiet (f b)) (h : Optimistic guard area quiet' p) :
    Optimistic guard area quiet (do let r ← p; pure (f r) : ExceptT ε (Prog (storeCalls V)) α) := by
  cases p with
  | done r =>
    cases r with
    | error e => rintro a ⟨⟩
    | ok b =>
      rintro a ⟨⟩
      exact hf b (h b rfl)
  | call op next =>
    cases op with
    | get k => exact ⟨h.1, guarded_map f hf h.2.1, fun e => guarded_map f hf (h.2.2 e)⟩
    | scan => exact h.elim
    | commit => exact h.elim

end Static

/-! ## A pool of transactions -/

/-- One call: the program it started as, and what is left of it. -/
structure Thread (V ε α : Type) where
  whole : Prog (storeCalls V) (Except ε α)
  rest : Prog (storeCalls V) (Except ε α)

/-- `committed` lists the threads in the order of their successful commits. -/
structure Pool (V ε α : Type) where
  store : Store V
  threads : List (Thread V ε α)
  committed : List Nat

/-- The answer is that of a commit that took place. -/
def landed : (op : (storeCalls V).Op) → (storeCalls V).Ans op → Bool
  | .get _, _ => false
  | .scan _ _ _, _ => false
  | .commit _, .ok _ => true
  | .commit _, .error _ => false

/-- Thread `i` makes its next call. -/
def Pool.step (size : V → Bool) (w : Pool V ε α) (i : Nat) : Pool V ε α :=
  match w.threads[i]? with
  | some ⟨whole, .call op next⟩ =>
    { store := (serve size op w.store).2
      threads := w.threads.set i ⟨whole, next (serve size op w.store).1⟩
      committed := if landed op (serve size op w.store).1 then w.committed ++ [i] else w.committed }
  | _ => w

def Pool.exec (size : V → Bool) (schedule : List Nat) (w : Pool V ε α) : Pool V ε α :=
  schedule.foldl (Pool.step size) w

def Pool.start (s : Store V) (programs : List (Prog (storeCalls V) (Except ε α))) : Pool V ε α :=
  ⟨s, programs.map fun p => ⟨p, p⟩, []⟩

/-- What thread `i` returned, if it has ended. -/
def Pool.result (w : Pool V ε α) (i : Nat) : Option (Except ε α) :=
  match w.threads[i]? with
  | some ⟨_, .done r⟩ => some r
  | _ => none

/-- Runs whole programs one after another, and collects what they return. -/
def serial (size : V → Bool) : List (Prog (storeCalls V) α) → Store V → List α × Store V
  | [], s => ([], s)
  | p :: rest, s =>
    let (a, s) := p.run (serve size) s
    let (as, s) := serial size rest s
    (a :: as, s)

theorem serial_append (size : V → Bool) (ps qs : List (Prog (storeCalls V) α)) (s : Store V) :
    serial size (ps ++ qs) s =
      ((serial size ps s).1 ++ (serial size qs (serial size ps s).2).1,
        (serial size qs (serial size ps s).2).2) := by
  induction ps generalizing s with
  | nil => rfl
  | cons p ps ih => simp [serial, ih]

/-! ## Serializability -/

section Serializable

variable (size : V → Bool) (guard : Key) (area : Key → Prop)

/-- What the evidence of a started thread is worth in the store `s`. Under the version it
read, finishing now is the same as running the whole call now. -/
def Sound (t : Thread V ε α) (s : Store V) : Evidence → Prop
  | .version v => v ≤ s.version ∧ ((∃ e, s.get guard = some e ∧ e.version = v) →
      t.rest.run (serve size) s = t.whole.run (serve size) s)
  | .fresh => ∀ s' : Store V, (∀ k, area k → s'.get k = none) →
      t.rest.run (serve size) s' = t.whole.run (serve size) s'
  | .doomed => True

/-- Unstarted, ended, or on the way with sound evidence. -/
def ThreadInv (quiet : α → Prop) (t : Thread V ε α) (s : Store V) : Prop :=
  (t.rest = t.whole ∧ Optimistic guard area quiet t.whole) ∨ (∃ r, t.rest = .done r) ∨
    ∃ m, Guarded guard area quiet m t.rest ∧ Sound size guard area t s m

variable {size guard area} {quiet : α → Prop}

theorem sound_after_commit {t : Thread V ε α} {s : Store V} {ops : List (Operation V)}
    {m : Evidence} (hops : ∃ op ∈ ops, op.key = guard) (h : Sound size guard area t s m) :
    Sound size guard area t (s.write ops) m := by
  cases m with
  | version v =>
    refine ⟨Nat.le_succ_of_le h.1, ?_⟩
    -- The commit gave the guard a version that this thread cannot have read.
    rintro ⟨e, he, rfl⟩
    have hfresh := get_write_fresh hops he
    have hle := h.1
    omega
  | fresh => exact h
  | doomed => exact trivial

theorem threadInv_after_commit {t : Thread V ε α} {s : Store V} {ops : List (Operation V)}
    (hops : ∃ op ∈ ops, op.key = guard) (h : ThreadInv size guard area quiet t s) :
    ThreadInv size guard area quiet t (s.write ops) := by
  rcases h with h | h | ⟨m, hg, hs⟩
  · exact Or.inl h
  · exact Or.inr (Or.inl h)
  · exact Or.inr (Or.inr ⟨m, hg, sound_after_commit hops hs⟩)

theorem threadInv_first {whole : Prog (storeCalls V) (Except ε α)} {k : Key}
    {next : Option (Stored V) → Prog (storeCalls V) (Except ε α)} {s : Store V}
    (hguard : area guard) (hw : whole = .call (.get k) next) (ho : Optimistic guard area quiet whole) :
    ThreadInv size guard area quiet ⟨whole, next (s.get k)⟩ s := by
  subst hw
  obtain ⟨rfl, hfresh, hversion⟩ := ho
  right; right
  cases hk : s.get k with
  | none =>
    refine ⟨.fresh, hfresh, fun s' hs' => ?_⟩
    rw [run_get, hs' k hguard]
  | some e =>
    refine ⟨.version e.version, hversion e, s.bounded k e hk, fun _ => ?_⟩
    rw [run_get, hk]

theorem threadInv_read {whole : Prog (storeCalls V) (Except ε α)} {k : Key}
    {next : Option (Stored V) → Prog (storeCalls V) (Except ε α)} {s : Store V} {m : Evidence}
    (hg : Guarded guard area quiet m (.call (.get k) next : Prog (storeCalls V) (Except ε α)))
    (hs : Sound size guard area ⟨whole, .call (.get k) next⟩ s m) :
    ThreadInv size guard area quiet ⟨whole, next (s.get k)⟩ s := by
  right; right
  refine ⟨m.after (s.get k).isSome, hg.2 _, ?_⟩
  cases m with
  | version v => exact ⟨hs.1, hs.2⟩
  | doomed => exact trivial
  | fresh =>
    cases hk : s.get k with
    | some e => exact trivial
    | none =>
      intro s' hs'
      rw [← hs s' hs', run_get, hs' k hg.1]

theorem commit_runs_whole {t : Thread V ε α} {s s' : Store V} {m : Evidence} {b : WriteBatch V}
    {next : Except CommitError Nat → Prog (storeCalls V) (Except ε α)} {v : Nat}
    (hrest : t.rest = .call (.commit b) next) (hg : Guarded guard area quiet m t.rest)
    (hs : Sound size guard area t s m)
    (harea : s.get guard = none → ∀ k, area k → s.get k = none)
    (hc : s.commit size b = (.ok v, s')) :
    ∃ a, next (.ok v) = .done (.ok a) ∧ t.whole.run (serve size) s = (.ok a, s') := by
  rw [hrest] at hg
  obtain ⟨hshown, -, hok, -⟩ := hg
  obtain ⟨a, ha⟩ := hok v
  refine ⟨a, ha, ?_⟩
  have hconds := (commit_ok_iff.mp hc).1
  have hrun : t.rest.run (serve size) s = (.ok a, s') := by
    rw [hrest, run_commit, hc, ha, Prog.run_done]
  cases m with
  | version v' =>
    rw [← hs.2 (check_version.mp (hconds _ hshown)), hrun]
  | fresh =>
    rw [← hs s (harea (check_missing.mp (hconds _ hshown))), hrun]
  | doomed =>
    obtain ⟨hmissing, k, v', hk, hcond⟩ := hshown
    obtain ⟨e, he, _⟩ := check_version.mp (hconds _ hcond)
    rw [harea (check_missing.mp (hconds _ hmissing)) k hk] at he
    cases he

/-- The committed threads, run one after another from `s₀`, return what they returned in
the pool and end in its store. -/
structure PoolInv (size : V → Bool) (guard : Key) (area : Key → Prop) (quiet : α → Prop)
    (inv : Store V → Prop) (s₀ : Store V) (programs : List (Prog (storeCalls V) (Except ε α)))
    (w : Pool V ε α) : Prop where
  inv : inv w.store
  wholes : w.threads.map (·.whole) = programs
  threads : ∀ t ∈ w.threads, ThreadInv size guard area quiet t w.store
  ended : ∀ i ∈ w.committed, ∃ a, w.result i = some (.ok a)
  succeeded : ∀ i a, w.result i = some (.ok a) → i ∈ w.committed ∨ quiet a
  once : w.committed.Nodup
  serial : serial size (w.committed.filterMap (programs[·]?)) s₀ =
    (w.committed.filterMap w.result, w.store)

variable {inv : Store V → Prop} {s₀ : Store V} {w : Pool V ε α} {i : Nat}
  {programs : List (Prog (storeCalls V) (Except ε α))}
  {whole rest rest' : Prog (storeCalls V) (Except ε α)}

theorem map_whole_set (ht : w.threads[i]? = some ⟨whole, rest⟩) :
    (w.threads.set i ⟨whole, rest'⟩).map (·.whole) = w.threads.map (·.whole) := by
  apply List.ext_getElem?
  intro j
  by_cases hj : i = j
  · subst hj
    have hi := (List.getElem?_eq_some_iff.mp ht).1
    rw [List.getElem?_map, List.getElem?_set_self hi, List.getElem?_map, ht]
    rfl
  · simp [List.getElem?_map, List.getElem?_set_ne hj]

theorem result_set_ne {s : Store V} {t : Thread V ε α} {order : List Nat} {j : Nat} (hj : i ≠ j) :
    Pool.result ⟨s, w.threads.set i t, order⟩ j = w.result j := by
  simp only [Pool.result, List.getElem?_set_ne hj]

theorem threads_set {s : Store V} (hs : ∀ t ∈ w.threads, ThreadInv size guard area quiet t s)
    (hnew : ThreadInv size guard area quiet ⟨whole, rest'⟩ s) :
    ∀ t ∈ w.threads.set i ⟨whole, rest'⟩, ThreadInv size guard area quiet t s := by
  intro t ht
  rcases List.mem_or_eq_of_mem_set ht with ht | rfl
  · exact hs t ht
  · exact hnew

theorem not_committed {op : (storeCalls V).Op}
    {next : (storeCalls V).Ans op → Prog (storeCalls V) (Except ε α)}
    (h : PoolInv size guard area quiet inv s₀ programs w)
    (ht : w.threads[i]? = some ⟨whole, .call op next⟩) : i ∉ w.committed := by
  intro hi
  obtain ⟨a, ha⟩ := h.ended i hi
  simp [Pool.result, ht] at ha

theorem guarded_quiet {m : Evidence} {p : Prog (storeCalls V) (Except ε α)} {a : α}
    (h : Guarded guard area quiet m p) (hp : p = .done (.ok a)) : quiet a := by
  subst hp
  exact h a rfl

theorem optimistic_next {k : Key} {next : Option (Stored V) → Prog (storeCalls V) (Except ε α)}
    (h : Optimistic guard area quiet (.call (.get k) next : Prog (storeCalls V) (Except ε α)))
    (r : Option (Stored V)) : ∃ m, Guarded guard area quiet m (next r) := by
  cases r with
  | none => exact ⟨_, h.2.1⟩
  | some e => exact ⟨_, h.2.2 e⟩

theorem poolInv_quiet {op : (storeCalls V).Op}
    {next : (storeCalls V).Ans op → Prog (storeCalls V) (Except ε α)}
    (h : PoolInv size guard area quiet inv s₀ programs w)
    (ht : w.threads[i]? = some ⟨whole, .call op next⟩)
    (hnew : ThreadInv size guard area quiet ⟨whole, rest'⟩ w.store)
    (hquiet : ∀ a, rest' = .done (.ok a) → quiet a) :
    PoolInv size guard area quiet inv s₀ programs
      ⟨w.store, w.threads.set i ⟨whole, rest'⟩, w.committed⟩ := by
  have hfresh := not_committed h ht
  have hresult : ∀ j ∈ w.committed,
      Pool.result ⟨w.store, w.threads.set i ⟨whole, rest'⟩, w.committed⟩ j = w.result j :=
    fun j hj => result_set_ne fun hij => hfresh (hij ▸ hj)
  refine ⟨h.inv, ?_, threads_set h.threads hnew, ?_, ?_, h.once, ?_⟩
  · rw [map_whole_set ht, h.wholes]
  · intro j hj
    rw [hresult j hj]
    exact h.ended j hj
  · intro j a hj
    by_cases hij : i = j
    · subst hij
      have hi := (List.getElem?_eq_some_iff.mp ht).1
      simp only [Pool.result, List.getElem?_set_self hi] at hj
      split at hj
      · rename_i heq
        cases heq
        exact Or.inr (hquiet a (by rw [Option.some.inj hj]))
      · cases hj
    · rw [result_set_ne hij] at hj
      exact h.succeeded j a hj
  · rw [h.serial, List.filterMap_congr hresult]

/-- A step that commits: the call's whole program ran at this moment. -/
theorem poolInv_commit {op : (storeCalls V).Op}
    {next : (storeCalls V).Ans op → Prog (storeCalls V) (Except ε α)} {s : Store V} {a : α}
    (h : PoolInv size guard area quiet inv s₀ programs w)
    (ht : w.threads[i]? = some ⟨whole, .call op next⟩)
    (hrun : whole.run (serve size) w.store = (.ok a, s)) (hinv : inv s)
    (hthreads : ∀ t ∈ w.threads, ThreadInv size guard area quiet t s) :
    PoolInv size guard area quiet inv s₀ programs
      ⟨s, w.threads.set i ⟨whole, .done (.ok a)⟩, w.committed ++ [i]⟩ := by
  have hfresh := not_committed h ht
  have hi := (List.getElem?_eq_some_iff.mp ht).1
  have hresult : ∀ j ∈ w.committed,
      Pool.result ⟨s, w.threads.set i ⟨whole, .done (.ok a)⟩, w.committed ++ [i]⟩ j = w.result j :=
    fun j hj => result_set_ne fun hij => hfresh (hij ▸ hj)
  have hown : Pool.result ⟨s, w.threads.set i ⟨whole, .done (.ok a)⟩, w.committed ++ [i]⟩ i =
      some (.ok a) := by
    simp only [Pool.result, List.getElem?_set_self hi]
  have hprogram : programs[i]? = some whole := by
    rw [← h.wholes, List.getElem?_map, ht]
    rfl
  refine ⟨hinv, ?_, threads_set hthreads (Or.inr (Or.inl ⟨_, rfl⟩)), ?_, ?_, ?_, ?_⟩
  · rw [map_whole_set ht, h.wholes]
  · intro j hj
    rcases List.mem_append.mp hj with hj | hj
    · rw [hresult j hj]
      exact h.ended j hj
    · obtain rfl := List.mem_singleton.mp hj
      exact ⟨a, hown⟩
  · intro j b hj
    by_cases hij : i = j
    · exact Or.inl (by simp [hij])
    · rw [result_set_ne hij] at hj
      exact (h.succeeded j b hj).imp (List.mem_append_left _) id
  · rw [List.nodup_append]
    refine ⟨h.once, by simp, ?_⟩
    rintro j hj _ hk rfl
    exact hfresh (List.mem_singleton.mp hk ▸ hj)
  · rw [List.filterMap_append, serial_append, h.serial, List.filterMap_append,
      List.filterMap_congr hresult]
    simp [hprogram, hown, KvStore.serial, hrun]

/-- What one step can do to a pool in good order: nothing visible, or one commit that is
the whole call of its thread. -/
theorem step_cases (hguard : area guard)
    (harea : ∀ s, inv s → s.get guard = none → ∀ k, area k → s.get k = none)
    (hinv : ∀ p ∈ programs, ∀ s, inv s → inv (p.run (serve size) s).2)
    (h : PoolInv size guard area quiet inv s₀ programs w) :
    PoolInv size guard area quiet inv s₀ programs (w.step size i) ∧
      (((w.step size i).store = w.store ∧ (w.step size i).committed = w.committed) ∨
        (w.step size i).committed = w.committed ++ [i]) := by
  unfold Pool.step
  split
  · rename_i whole op next ht
    have hmem : (⟨whole, .call op next⟩ : Thread V ε α) ∈ w.threads := List.mem_of_getElem? ht
    have hwhole : whole ∈ programs := by
      rw [← h.wholes]
      exact List.mem_map_of_mem hmem
    rcases h.threads _ hmem with ⟨heq, hopt⟩ | ⟨r, hr⟩ | ⟨m, hg, hs⟩
    · cases heq
      cases op with
      | get k =>
        obtain ⟨m, hg⟩ := optimistic_next hopt (w.store.get k)
        exact ⟨poolInv_quiet h ht (threadInv_first hguard rfl hopt) fun a => guarded_quiet hg,
          Or.inl ⟨rfl, rfl⟩⟩
      | scan => exact hopt.elim
      | commit => exact hopt.elim
    · cases hr
    · cases op with
      | get k =>
        exact ⟨poolInv_quiet h ht (threadInv_read hg hs) fun a => guarded_quiet (hg.2 _),
          Or.inl ⟨rfl, rfl⟩⟩
      | scan => exact hg.elim
      | commit b =>
        rcases hc : w.store.commit size b with ⟨e | v, s⟩
        · -- Refused: the store is the old one, and the call ends with an error.
          obtain rfl := commit_error hc
          obtain ⟨e', he⟩ := hg.2.2.2 e
          have hserve : serve size (.commit b) w.store = (.error e, w.store) := hc
          simp only [hserve, landed, Bool.false_eq_true, if_false]
          refine ⟨poolInv_quiet h ht (Or.inr (Or.inl ⟨_, he⟩)) fun a ha => ?_,
            Or.inl ⟨trivial, trivial⟩⟩
          rw [show next (.error e) = .done (.error e') from he] at ha
          cases ha
        · obtain ⟨a, ha, hrun⟩ := commit_runs_whole rfl hg hs (harea _ h.inv) hc
          have hserve : serve size (.commit b) w.store = (.ok v, s) := hc
          have hs' : s = w.store.write b.operations := (commit_ok_iff.mp hc).2.2.2.2
          have hinv' : inv s := by
            have := hinv whole hwhole _ h.inv
            rwa [hrun] at this
          simp only [hserve, landed, if_true]
          rw [show next (.ok v) = .done (.ok a) from ha]
          refine ⟨poolInv_commit h ht hrun hinv' fun t ht' => ?_, Or.inr trivial⟩
          rw [hs']
          exact threadInv_after_commit hg.2.1 (h.threads t ht')
  · exact ⟨h, Or.inl ⟨rfl, rfl⟩⟩

theorem poolInv_start (hopt : ∀ p ∈ programs, Optimistic guard area quiet p) (h₀ : inv s₀) :
    PoolInv size guard area quiet inv s₀ programs (Pool.start s₀ programs) := by
  refine ⟨h₀, ?_, ?_, ?_, ?_, List.nodup_nil, rfl⟩
  · simp [Pool.start, Function.comp_def]
  · intro t ht
    obtain ⟨p, hp, rfl⟩ := List.mem_map.mp ht
    exact Or.inl ⟨rfl, hopt p hp⟩
  · intro i hi
    cases hi
  · intro i a hi
    simp only [Pool.result, Pool.start, List.getElem?_map] at hi
    cases hp : programs[i]? with
    | none => simp [hp] at hi
    | some p =>
      have hopt := hopt p (List.mem_of_getElem? hp)
      cases p with
      | done r =>
        simp only [hp, Option.map_some, Option.some.injEq] at hi
        exact Or.inr (hopt a hi)
      | call op next => simp [hp] at hi

theorem exec_poolInv (hguard : area guard)
    (harea : ∀ s, inv s → s.get guard = none → ∀ k, area k → s.get k = none)
    (hinv : ∀ p ∈ programs, ∀ s, inv s → inv (p.run (serve size) s).2)
    (h : PoolInv size guard area quiet inv s₀ programs w) (schedule : List Nat) :
    PoolInv size guard area quiet inv s₀ programs (w.exec size schedule) ∧
      ∀ i ∈ w.committed, i ∈ (w.exec size schedule).committed := by
  induction schedule generalizing w with
  | nil => exact ⟨h, fun i hi => hi⟩
  | cons i rest ih =>
    obtain ⟨hstep, hcases⟩ := step_cases hguard harea hinv h (i := i)
    obtain ⟨hend, hkept⟩ := ih hstep
    refine ⟨hend, fun j hj => hkept j ?_⟩
    rcases hcases with ⟨-, hc⟩ | hc
    · rw [hc]; exact hj
    · rw [hc]; exact List.mem_append_left _ hj

theorem failed_step_store (hguard : area guard)
    (harea : ∀ s, inv s → s.get guard = none → ∀ k, area k → s.get k = none)
    (hinv : ∀ p ∈ programs, ∀ s, inv s → inv (p.run (serve size) s).2)
    (h : PoolInv size guard area quiet inv s₀ programs w) {later : List Nat} {e : ε}
    (hfail : ((w.step size i).exec size later).result i = some (.error e)) :
    (w.step size i).store = w.store := by
  obtain ⟨hstep, ⟨hstore, -⟩ | hcommit⟩ := step_cases hguard harea hinv h (i := i)
  · exact hstore
  · obtain ⟨hend, hkept⟩ := exec_poolInv hguard harea hinv hstep later
    obtain ⟨a, ha⟩ := hend.ended i (hkept i (by rw [hcommit]; simp))
    rw [hfail] at ha
    cases ha

end Serializable

end KvStore
