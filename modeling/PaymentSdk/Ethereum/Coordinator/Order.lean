import PaymentSdk.Lib.Run
import PaymentSdk.Ethereum.Coordinator.Nonce

/-!
# One sender's envelopes go out one at a time

A record that was claimed has the lowest nonce of its sender's records, as long as every claim
of a prepared record takes the lowest. From that, a sender has one unresolved record at most,
and whatever was handed over is settled before another envelope of the sender is.
-/

open Std Interaction

namespace PaymentSdk.Ethereum

variable {crypto : Crypto} {s s' : State} {log : List Trace} {id : TransactionId}
  {operation : UInt64} {t : SignedTransaction} {events : List Trace}

/-! ## The log -/

/-- An attempt is over: the envelope was accepted after it, or this attempt was rejected. -/
def Settled (t : SignedTransaction) (after : List Trace) : Prop :=
  .accepted t ∈ after ∨ ∃ l₁ l₂, after = l₁ ++ Trace.rejected t :: l₂ ∧ .handed t ∉ l₁

/-- No attempt is open. -/
def Fresh (log : List Trace) (t : SignedTransaction) : Prop :=
  ∀ before after, log = before ++ Trace.handed t :: after → Settled t after

/-- At most the last attempt is open. -/
def LastOpen (log : List Trace) (t : SignedTransaction) : Prop :=
  ∃ before after, log = before ++ Trace.handed t :: after ∧ .handed t ∉ after ∧ Fresh before t

theorem Settled.append {after : List Trace} (h : Settled t after) (events : List Trace) :
    Settled t (after ++ events) := by
  rcases h with h | ⟨l₁, l₂, rfl, hout⟩
  · exact .inl (List.mem_append_left _ h)
  · exact .inr ⟨l₁, l₂ ++ events, by simp, hout⟩

theorem Fresh.append (h : Fresh log t) (hout : .handed t ∉ events) : Fresh (log ++ events) t := by
  intro before after hsplit
  obtain ⟨rest, hlog, rfl⟩ := split_of_append hsplit hout
  exact (h before rest hlog).append events

theorem LastOpen.append (h : LastOpen log t) (hout : .handed t ∉ events) : LastOpen (log ++ events) t := by
  obtain ⟨before, after, rfl, hlast, hfresh⟩ := h
  exact ⟨before, after ++ events, by simp, by simp [hlast, hout], hfresh⟩

theorem LastOpen.reject (h : LastOpen log t) : Fresh (log ++ [.rejected t]) t := by
  obtain ⟨front, rest, rfl, hlast, hfresh⟩ := h
  intro before after hsplit
  rw [List.append_assoc, List.cons_append] at hsplit
  rcases List.append_eq_append_iff.mp hsplit with ⟨gap, rfl, hgap⟩ | ⟨gap, rfl, hgap⟩
  · cases gap with
    | nil =>
      obtain ⟨_, rfl⟩ := List.cons.inj hgap
      exact .inr ⟨rest, [], rfl, hlast⟩
    | cons x gap =>
      obtain ⟨_, hgap⟩ := List.cons.inj hgap
      have : .handed t ∈ rest ++ [.rejected t] := by rw [hgap]; simp
      simp [hlast] at this
  · cases gap with
    | nil =>
      rw [List.nil_append] at hgap
      obtain ⟨_, rfl⟩ := List.cons.inj hgap
      exact .inr ⟨rest, [], rfl, hlast⟩
    | cons x gap =>
      obtain ⟨rfl, rfl⟩ := List.cons.inj hgap
      exact (hfresh before gap rfl).append _

/-! ## The state and the log -/

/-- The sender has at most one record. -/
def Sole (s : State) (a : Address) : Prop :=
  ∀ (id : TransactionId) (r : Record) (id' : TransactionId) (r' : Record), s.records[id]? = some r →
    s.records[id']? = some r' → r.source = a → r'.source = a → id = id'

/-- Whose turn it is. A record of a sender that no operation holds is alone. A prepared record
goes with the operation that holds its sender, or it is alone. -/
structure Turns (s : State) : Prop where
  least : ∀ (id : TransactionId) (r : Record) (id' : TransactionId) (r' : Record), s.records[id]? = some r →
    s.records[id']? = some r' → r.source = r'.source → r.status ≠ .prepared → r.nonce.toNat ≤ r'.nonce.toNat
  single : ∀ a, (s.sender a).active = none → Sole s a
  cancelled : ∀ (id : TransactionId) (r : Record) operation, s.records[id]? = some r → r.status = .prepared →
    (s.sender r.source).active = some operation → r.operation = some operation ∨ Sole s r.source
  owned : ∀ (id : TransactionId) (r : Record) operation, s.records[id]? = some r → r.operation = some operation →
    (s.sender r.source).active = some operation ∨ (s.sender r.source).active = none

/-- What is open has a record that was claimed. What is prepared is not open. -/
structure Paced (crypto : Crypto) (s : State) (log : List Trace) : Prop where
  opened : ∀ before t after, log = before ++ .handed t :: after → Settled t after ∨
    ∃ r, s.records[t.id]? = some r ∧ r.transaction = t ∧ r.status ≠ .prepared
  fresh : ∀ (id : TransactionId) (r : Record), s.records[id]? = some r → r.status = .prepared → Fresh log r.transaction
  ordered : ∀ before t between t' after, log = before ++ .handed t :: (between ++ .handed t' :: after) →
    t ≠ t' → crypto.recover t.envelope = crypto.recover t'.envelope → Settled t between

/-! ## What a caller has at stake -/

/-- `target` is the record that a caller is about to recover. The senders of its operation have
no record if `clear`, and one at most if `alone`. -/
structure Stake where
  target : Option TransactionId := none
  clear : Bool := false
  alone : Bool := false
  batch : Option (List PreparedEntry × Nat) := none

/-- The record was claimed and not rejected, and it never is prepared again. -/
def TargetOk (crypto : Crypto) (s : State) (id : TransactionId) : Prop :=
  (∃ r, s.records[id]? = some r ∧ r.status ≠ .prepared) ∨
    (s.records[id]? = none ∧ ∃ t a n f, SignedTransaction.Genuine crypto t a n ∧ t.id = id ∧
      (s.sender a).floor = some f ∧ n.toNat < f.toNat)

/-- The entries from the cursor on are the only records of their senders. -/
structure BatchOk (crypto : Crypto) (s : State) (operation : UInt64) (entries : List PreparedEntry)
    (cursor : Nat) : Prop where
  active : ∀ e ∈ entries, (s.sender e.source).active = some operation
  genuine : ∀ e ∈ entries, e.signed.Genuine crypto e.source e.nonce
  rising : entries.Pairwise fun e e' => e.source = e'.source → e.nonce.toNat < e'.nonce.toNat
  remaining : ∀ a, (s.sender a).active = some operation → ∀ (id : TransactionId) (r : Record),
    s.records[id]? = some r → r.source = a → ∃ j e, entries[j]? = some e ∧ cursor ≤ j ∧ e.signed = r.transaction

/-- What a caller has at stake still holds. -/
structure StakeOk (crypto : Crypto) (s : State) (log : List Trace) (u : View) (k : Stake) : Prop where
  target : ∀ id, k.target = some id → TargetOk crypto s id
  starts : ∀ operation, u.operation = some operation → ∀ a n, u.starts a = some n →
    ∀ f, (s.sender a).floor = some f → f.toNat ≤ n.toNat
  planned : ∀ operation, u.operation = some operation → ∀ p ∈ u.plan,
    ∀ f, (s.sender p.1).floor = some f → f.toNat ≤ p.2.toNat
  rising : u.plan.Pairwise fun p q => p.1 = q.1 → p.2.toNat < q.2.toNat
  clear : k.clear = true → ∀ operation, u.operation = some operation → ∀ a, (s.sender a).active = some operation →
    ∀ (id : TransactionId) (r : Record), s.records[id]? = some r → r.source ≠ a
  alone : k.alone = true → ∀ operation, u.operation = some operation →
    ∀ a, (s.sender a).active = some operation → Sole s a
  batch : ∀ entries cursor, k.batch = some (entries, cursor) → ∀ operation, u.operation = some operation →
    BatchOk crypto s operation entries cursor
  paced : ∀ c sent, u.claim = some (c, sent) → c.recovery = false →
    if sent then LastOpen log c.transaction else Fresh log c.transaction

/-- What a caller's stake needs of a step of the others. -/
structure Env (crypto : Crypto) (s s' : State) (events : List Trace) (u : View) (k : Stake) : Prop where
  active : ∀ operation a, u.operation = some operation →
    ((s'.sender a).active = some operation ↔ (s.sender a).active = some operation)
  records : ∀ operation a, u.operation = some operation → (s.sender a).active = some operation →
    ∀ (id : TransactionId) (r' : Record), s'.records[id]? = some r' → r'.source = a →
      ∃ r, s.records[id]? = some r ∧ r.source = a ∧ r.transaction = r'.transaction
  floor : ∀ a, (∀ (id : TransactionId) (r : Record), s.records[id]? = some r → r.source ≠ a) →
    (s'.sender a).floor = (s.sender a).floor
  target : ∀ id, k.target = some id → TargetOk crypto s id → TargetOk crypto s' id
  handed : ∀ c sent, u.claim = some (c, sent) → .handed c.transaction ∉ events

theorem StakeOk.env {u : View} {k : Stake} (h : StakeOk crypto s log u k) (hview : ViewOk crypto s log u)
    (he : Env crypto s s' events u k) : StakeOk crypto s' (log ++ events) u k := by
  refine ⟨?_, ?_, ?_, h.rising, ?_, ?_, ?_, ?_⟩
  · exact fun id hid => he.target id hid (h.target id hid)
  · intro op hop a n hn f hf
    have hnone := (hview.admitted op hop a (hview.starts op hop a n hn).1).2
    rw [he.floor a hnone] at hf
    exact h.starts op hop a n hn f hf
  · intro op hop p hp f hf
    have hnone := (hview.admitted op hop p.1 (hview.planned op hop p hp).1).2
    rw [he.floor p.1 hnone] at hf
    exact h.planned op hop p hp f hf
  · intro hclear op hop a ha id r hr hsource
    rw [he.active op a hop] at ha
    obtain ⟨q, hq, hqs, _⟩ := he.records op a hop ha id r hr hsource
    exact h.clear hclear op hop a ha id q hq hqs
  · intro halone op hop a ha id r id' r' hr hr' hsource hsource'
    rw [he.active op a hop] at ha
    obtain ⟨q, hq, hqs, _⟩ := he.records op a hop ha id r hr hsource
    obtain ⟨q', hq', hqs', _⟩ := he.records op a hop ha id' r' hr' hsource'
    exact h.alone halone op hop a ha id q id' q' hq hq' hqs hqs'
  · intro entries cursor hbatch op hop
    have hb := h.batch entries cursor hbatch op hop
    refine ⟨?_, hb.genuine, hb.rising, ?_⟩
    · intro e hmem
      rw [he.active op e.source hop]
      exact hb.active e hmem
    · intro a ha id r hr hsource
      rw [he.active op a hop] at ha
      obtain ⟨q, hq, hqs, ht⟩ := he.records op a hop ha id r hr hsource
      rw [← ht]
      exact hb.remaining a ha id q hq hqs
  · intro c sent hc hrecovery
    have hbefore := h.paced c sent hc hrecovery
    cases sent with
    | true =>
      rw [if_pos rfl] at hbefore ⊢
      exact hbefore.append (he.handed c true hc)
    | false =>
      rw [if_neg (by decide)] at hbefore ⊢
      exact hbefore.append (he.handed c false hc)

/-! ## The whole system -/

/-- The invariant behind the order of the envelopes, over all callers. -/
structure Order (crypto : Crypto) (s : State) (log : List Trace) (v : Nat → View) (k : Nat → Stake) : Prop where
  inv : Inv crypto s log v
  turns : Turns s
  paced : Paced crypto s log
  stakes : ∀ i, StakeOk crypto s log (v i) (k i)
  recoveries : ∀ i j id c sent, (k i).target = some id → (v j).claim = some (c, sent) → c.id = id →
    c.recovery = true

variable {v : Nat → View} {k : Nat → Stake} {i : Nat} {u : View} {κ : Stake}

/-- One caller acts. It ends with a target only if no first attempt claims that record. -/
theorem Order.act (h : Order crypto s log v k)
    (hinv : Inv crypto s' (log ++ events) (Function.update v i u)) (hturns : Turns s')
    (hpaced : Paced crypto s' (log ++ events)) (hstake : StakeOk crypto s' (log ++ events) u κ)
    (henv : ∀ j, j ≠ i → Env crypto s s' events (v j) (k j))
    (hclaim : ∀ c sent, u.claim = some (c, sent) → (∃ sent', (v i).claim = some (c, sent')) ∨
      ∀ j, (k j).target = some c.id → c.recovery = true)
    (htarget : ∀ id, κ.target = some id → u.claim = none ∧
      ∀ j c sent, (v j).claim = some (c, sent) → c.id = id → c.recovery = true) :
    Order crypto s' (log ++ events) (Function.update v i u) (Function.update k i κ) := by
  refine ⟨hinv, hturns, hpaced, ?_, ?_⟩
  · intro j
    by_cases hj : j = i
    · subst hj
      rw [Function.update_self, Function.update_self]
      exact hstake
    · rw [Function.update_of_ne hj, Function.update_of_ne hj]
      exact (h.stakes j).env (h.inv.views j) (henv j hj)
  · intro j l id c sent hj hl hid
    by_cases hji : j = i <;> by_cases hli : l = i
    · subst hji hli
      rw [Function.update_self] at hj hl
      rw [(htarget id hj).1] at hl
      cases hl
    · subst hji
      rw [Function.update_self] at hj
      rw [Function.update_of_ne hli] at hl
      exact (htarget id hj).2 l c sent hl hid
    · subst hli
      rw [Function.update_self] at hl
      rw [Function.update_of_ne hji] at hj
      rcases hclaim c sent hl with ⟨sent', hold⟩ | hnew
      · exact h.recoveries j l id c sent' hj hold hid
      · exact hnew j (by rw [hid]; exact hj)
    · rw [Function.update_of_ne hji] at hj
      rw [Function.update_of_ne hli] at hl
      exact h.recoveries j l id c sent hj hl hid

/-! ## Acts that only log, or nothing at all -/

theorem env_refl (hquiet : ∀ t, .handed t ∉ events) (u : View) (κ : Stake) : Env crypto s s events u κ where
  active _ _ _ := Iff.rfl
  records _ _ _ _ _ r hr hsource := ⟨r, hr, hsource, rfl⟩
  floor _ _ := rfl
  target _ _ h := h
  handed _ _ _ := hquiet _

/-- Without a hand-over, an open attempt keeps its record or is settled, and no open attempt
becomes prepared. -/
theorem Paced.quiet (h : Paced crypto s log) (hquiet : ∀ t, .handed t ∉ events)
    (hkept : ∀ (id : TransactionId) (r : Record), s.records[id]? = some r → r.status ≠ .prepared →
      (∃ r', s'.records[id]? = some r' ∧ r'.transaction = r.transaction ∧ r'.status ≠ .prepared) ∨
        Fresh (log ++ events) r.transaction)
    (hfresh : ∀ (id : TransactionId) (r : Record), s'.records[id]? = some r → r.status = .prepared →
      Fresh log r.transaction) : Paced crypto s' (log ++ events) := by
  refine ⟨?_, fun id r hr hstatus => (hfresh id r hr hstatus).append (hquiet _), ?_⟩
  · intro before t after hsplit
    obtain ⟨rest, hlog, rfl⟩ := split_of_append hsplit (hquiet t)
    rcases h.opened before t rest hlog with hsettled | ⟨r, hr, rfl, hstatus⟩
    · exact .inl (hsettled.append events)
    · rcases hkept _ r hr hstatus with ⟨r', hr', ht, hstatus'⟩ | hsettled
      · exact .inr ⟨r', hr', ht, hstatus'⟩
      · exact .inl (hsettled before _ hsplit)
  · intro before t between t' after hsplit hne hsender
    have hassoc : log ++ events = (before ++ .handed t :: between) ++ .handed t' :: after := by
      rw [hsplit]
      simp
    obtain ⟨rest, hlog, rfl⟩ := split_of_append hassoc (hquiet t')
    exact h.ordered before t between t' rest (by rw [hlog]; simp) hne hsender

theorem Order.stay (h : Order crypto s log v k) (hquiet : ∀ t, .handed t ∉ events)
    (hinv : Inv crypto s (log ++ events) (Function.update v i u))
    (hstake : StakeOk crypto s (log ++ events) u κ)
    (hclaim : ∀ c sent, u.claim = some (c, sent) → ∃ sent', (v i).claim = some (c, sent'))
    (htarget : ∀ id, κ.target = some id → u.claim = none ∧
      ∀ j c sent, (v j).claim = some (c, sent) → c.id = id → c.recovery = true) :
    Order crypto s (log ++ events) (Function.update v i u) (Function.update k i κ) := by
  refine h.act hinv h.turns ?_ hstake (fun j _ => env_refl hquiet _ _) ?_ htarget
  · exact h.paced.quiet hquiet (fun id r hr hstatus => .inl ⟨r, hr, rfl, hstatus⟩) h.paced.fresh
  · exact fun c sent hc => .inl (hclaim c sent hc)

/-! ## Admission -/

theorem TargetOk.same (h : TargetOk crypto s id) (hrecords : s'.records = s.records)
    (hfloor : ∀ a, (s'.sender a).floor = (s.sender a).floor) : TargetOk crypto s' id := by
  unfold TargetOk
  simp only [hrecords, hfloor]
  exact h

theorem State.Admitted.floor_eq {senders : List (Address × Nat)} (ha : s.Admitted senders operation s') (a : Address) :
    (s'.sender a).floor = (s.sender a).floor := by
  rw [ha.sender]
  split <;> rfl

theorem Core.active_admitted {senders : List (Address × Nat)} {r : Record} (h : Core crypto s log)
    (ha : s.Admitted senders operation s') (hr : s.records[id]? = some r) :
    (s'.sender r.source).active = (s.sender r.source).active := by
  rw [ha.sender, if_neg fun hmem => h.none_of_admitted ha hmem id r hr rfl]

/-- An admission changes who is active, and only for senders without a record. -/
theorem Turns.admitted {senders : List (Address × Nat)} (h : Turns s) (hcore : Core crypto s log)
    (ha : s.Admitted senders operation s') : Turns s' := by
  have hsole : ∀ a, Sole s a → Sole s' a := by
    intro a hs
    unfold Sole
    rw [ha.records]
    exact hs
  refine ⟨?_, ?_, ?_, ?_⟩
  · rw [ha.records]
    exact h.least
  · intro a hnot
    rw [ha.sender] at hnot
    split at hnot
    · cases hnot
    · exact hsole a (h.single a hnot)
  · intro id r op hr hstatus hop
    rw [ha.records] at hr
    rw [hcore.active_admitted ha hr] at hop
    exact (h.cancelled id r op hr hstatus hop).imp_right (hsole _)
  · intro id r op hr hop
    rw [ha.records] at hr
    rw [hcore.active_admitted ha hr]
    exact h.owned id r op hr hop

/-- What the admitted caller has at stake: none of its senders has a record. -/
theorem Core.stake_admitted {senders : List (Address × Nat)} (h : Core crypto s log)
    (ha : s.Admitted senders operation s') (hop : u.operation = some operation)
    (hu : u.claim = none ∧ (∀ a, u.starts a = none) ∧ u.plan = []) :
    StakeOk crypto s' log u { clear := true } := by
  refine ⟨by simp, by simp [hu], by simp [hu], by simp [hu], ?_, by simp, by simp, by simp [hu]⟩
  intro _ op hop' a hactive id r hr
  obtain rfl : operation = op := Option.some.inj (hop.symm.trans hop')
  rw [ha.records] at hr
  rw [ha.sender] at hactive
  split at hactive
  · rename_i hmem
    exact h.none_of_admitted ha hmem id r hr
  · have hlt := h.active a operation hactive
    rw [ha.fresh] at hlt
    omega

theorem Order.admitted {senders : List (Address × Nat)} (h : Order crypto s log v k)
    (ha : s.Admitted senders operation s') (hinv : Inv crypto s' log (Function.update v i u))
    (hop : u.operation = some operation) (hu : u.claim = none ∧ (∀ a, u.starts a = none) ∧ u.plan = []) :
    Order crypto s' log (Function.update v i u) (Function.update k i { clear := true }) := by
  have hpaced : Paced crypto s' (log ++ []) := by
    refine h.paced.quiet (by simp) (fun id r hr hstatus => .inl ⟨r, ?_, rfl, hstatus⟩) ?_
    · rw [ha.records]
      exact hr
    · rw [ha.records]
      exact h.paced.fresh
  have hstake : StakeOk crypto s' (log ++ []) u { clear := true } := by
    rw [List.append_nil]
    exact h.inv.core.stake_admitted ha hop hu
  have hact := h.act (by rw [List.append_nil]; exact hinv) (h.turns.admitted h.inv.core ha) hpaced hstake ?_ ?_
    (by simp)
  · rwa [List.append_nil] at hact
  · intro j _
    refine ⟨?_, ?_, fun a _ => ha.floor_eq a, fun id _ ht => ht.same ha.records ha.floor_eq, by simp⟩
    · -- The new operation is no other caller's, and its senders were free.
      intro op a hop
      have hlt := (h.inv.views j).bounded op hop
      rw [ha.sender]
      split
      · rename_i hmem
        simp only [Option.some.injEq]
        constructor
        · rintro rfl
          rw [ha.fresh] at hlt
          omega
        · intro hactive
          rw [(ha.free a hmem).1] at hactive
          cases hactive
      · rfl
    · intro op a _ _ id r hr hsource
      rw [ha.records] at hr
      exact ⟨r, hr, hsource, rfl⟩
  · simp [hu]

/-! ## Registration -/

section Register

variable {entries : List PreparedEntry}

theorem Turns.register (h : Turns s) (hr : s.Registers operation entries s')
    (halone : ∀ e ∈ entries, ∀ (id : TransactionId) (r : Record), s.records[id]? = some r → r.source ≠ e.source)
    (hactive : ∀ e ∈ entries, (s.sender e.source).active = some operation) : Turns s' := by
  -- A sender with an old record gets no new one.
  have hold : ∀ {id id' : TransactionId} {r r' : Record}, s.records[id]? = some r →
      s'.records[id']? = some r' → r'.source = r.source → s.records[id']? = some r' := by
    intro id id' r r' hid hid' hsource
    rcases record_cases hr hid' with ⟨hid', _⟩ | ⟨e, he, rfl, rfl⟩
    · exact hid'
    · exact absurd hsource.symm (halone e he id r hid)
  have hsole : ∀ {id : TransactionId} {r : Record}, s.records[id]? = some r → Sole s r.source → Sole s' r.source := by
    intro id r hid hs id₁ r₁ id₂ r₂ h₁ h₂ hs₁ hs₂
    exact hs id₁ r₁ id₂ r₂ (hold hid h₁ hs₁) (hold hid h₂ hs₂) hs₁ hs₂
  refine ⟨?_, ?_, ?_, ?_⟩
  · intro id r id' r' hid hid' hsource hstatus
    rcases record_cases hr hid with ⟨hid, _⟩ | ⟨e, he, rfl, rfl⟩
    · exact h.least id r id' r' hid (hold hid hid' hsource.symm) hsource hstatus
    · exact absurd rfl hstatus
  · intro a ha id r id' r' hid hid' hsource hsource'
    rw [hr.active] at ha
    have hback : ∀ {id : TransactionId} {r : Record}, s'.records[id]? = some r → r.source = a →
        s.records[id]? = some r := by
      intro id r hid hsource
      rcases record_cases hr hid with ⟨hid, _⟩ | ⟨e, he, rfl, rfl⟩
      · exact hid
      · have hactive' := hactive e he
        rw [show e.source = a from hsource, ha] at hactive'
        cases hactive'
    exact h.single a ha id r id' r' (hback hid hsource) (hback hid' hsource') hsource hsource'
  · intro id r op hid hstatus hop
    rw [hr.active] at hop
    rcases record_cases hr hid with ⟨hid, _⟩ | ⟨e, he, rfl, rfl⟩
    · exact (h.cancelled id r op hid hstatus hop).imp_right (hsole hid)
    · exact .inl ((hactive e he).symm.trans hop)
  · intro id r op hid hop
    rw [hr.active]
    rcases record_cases hr hid with ⟨hid, _⟩ | ⟨e, he, rfl, rfl⟩
    · exact h.owned id r op hid hop
    · exact .inl ((hactive e he).trans hop)

theorem TargetOk.register (hinj : Function.Injective crypto.keccak) (h : TargetOk crypto s id)
    (hr : s.Registers operation entries s') (hnew : ∀ e ∈ entries, s.records[e.signed.id]? = none)
    (hgenuine : ∀ e ∈ entries, e.signed.Genuine crypto e.source e.nonce)
    (hfloor : ∀ e ∈ entries, ∀ f, (s.sender e.source).floor = some f → f.toNat ≤ e.nonce.toNat) :
    TargetOk crypto s' id := by
  rcases h with ⟨r, hid, hstatus⟩ | ⟨hnone, t, a, n, f, hg, rfl, hf, hlt⟩
  · refine .inl ⟨r, ?_, hstatus⟩
    rw [hr.others id]
    · exact hid
    · intro hmem
      obtain ⟨e, he, rfl⟩ := List.mem_map.mp hmem
      rw [hnew e he] at hid
      cases hid
  · refine .inr ⟨?_, t, a, n, f, hg, rfl, by rw [hr.floor]; exact hf, hlt⟩
    rw [hr.others]
    · exact hnone
    · -- A new entry with this id would have a nonce below its sender's floor.
      intro hmem
      obtain ⟨e, he, hid⟩ := List.mem_map.mp hmem
      have hg' := hgenuine e he
      have hsame := hg'.eq_of_id hinj hg hid
      rw [← hsame] at hg
      obtain rfl : e.source = a := Option.some.inj (hg'.sender.symm.trans hg.sender)
      obtain rfl : e.nonce = n := hg'.nonce.symm.trans hg.nonce
      have := hfloor e he f hf
      omega

theorem Paced.register (h : Paced crypto s log) (hr : s.Registers operation entries s')
    (hnew : ∀ e ∈ entries, s.records[e.signed.id]? = none) (hquiet : ∀ t, .handed t ∉ events) :
    Paced crypto s' (log ++ events) := by
  refine h.quiet hquiet ?_ ?_
  · intro id r hid hstatus
    refine .inl ⟨r, ?_, rfl, hstatus⟩
    rw [hr.others id]
    · exact hid
    · intro hmem
      obtain ⟨e, he, rfl⟩ := List.mem_map.mp hmem
      rw [hnew e he] at hid
      cases hid
  · intro id r hid hstatus
    rcases record_cases hr hid with ⟨hid, _⟩ | ⟨e, he, rfl, rfl⟩
    · exact h.fresh id r hid hstatus
    · intro before after hsplit
      rcases h.opened before _ after hsplit with hsettled | ⟨r, hid', _⟩
      · exact hsettled
      · exact absurd ((hnew e he).symm.trans hid') (by simp)

theorem registered_of_record (hr : s.Registers operation entries s') {a : Address}
    (hnone : ∀ (id : TransactionId) (r : Record), s.records[id]? = some r → r.source ≠ a) {id : TransactionId}
    {r : Record} (hid : s'.records[id]? = some r) (hsource : r.source = a) :
    ∃ e ∈ entries, e.signed.id = id ∧ e.signed = r.transaction := by
  rcases record_cases hr hid with ⟨hid, _⟩ | ⟨e, he, rfl, rfl⟩
  · exact absurd hsource (hnone id r hid)
  · exact ⟨e, he, rfl, rfl⟩

theorem BatchOk.register (hr : s.Registers operation entries s')
    (hactive : ∀ e ∈ entries, (s.sender e.source).active = some operation)
    (hgenuine : ∀ e ∈ entries, e.signed.Genuine crypto e.source e.nonce)
    (hrising : entries.Pairwise fun e e' => e.source = e'.source → e.nonce.toNat < e'.nonce.toNat)
    (hclear : ∀ a, (s.sender a).active = some operation →
      ∀ (id : TransactionId) (r : Record), s.records[id]? = some r → r.source ≠ a) :
    BatchOk crypto s' operation entries 0 := by
  refine ⟨?_, hgenuine, hrising, ?_⟩
  · intro e he
    rw [hr.active]
    exact hactive e he
  · intro a ha id r hid hsource
    rw [hr.active] at ha
    obtain ⟨e, he, _, ht⟩ := registered_of_record hr (hclear a ha) hid hsource
    obtain ⟨j, hj⟩ := List.mem_iff_getElem?.mp he
    exact ⟨j, e, hj, Nat.zero_le _, ht⟩

theorem sole_registers (hr : s.Registers operation entries s') (hone : entries.length ≤ 1) {a : Address}
    (hnone : ∀ (id : TransactionId) (r : Record), s.records[id]? = some r → r.source ≠ a) : Sole s' a := by
  intro id r id' r' hid hid' hsource hsource'
  obtain ⟨e, he, rfl, _⟩ := registered_of_record hr hnone hid hsource
  obtain ⟨e', he', rfl, _⟩ := registered_of_record hr hnone hid' hsource'
  match entries, he, he', hone with
  | [x], he, he', _ =>
    rw [List.mem_singleton.mp he, List.mem_singleton.mp he']

theorem env_registers (hr : s.Registers operation entries s')
    (hactive : ∀ e ∈ entries, (s.sender e.source).active = some operation)
    (hquiet : ∀ t, .handed t ∉ events) (hother : u.operation ≠ some operation)
    (htarget : ∀ id, TargetOk crypto s id → TargetOk crypto s' id) : Env crypto s s' events u κ := by
  refine ⟨?_, ?_, fun a _ => hr.floor a, fun id _ => htarget id, fun c sent _ => hquiet _⟩
  · intro op a _
    rw [hr.active]
  · intro op a hop ha id r hid hsource
    rcases record_cases hr hid with ⟨hid, _⟩ | ⟨e, he, rfl, rfl⟩
    · exact ⟨r, hid, hsource, rfl⟩
    · obtain rfl : e.source = a := hsource
      rw [hactive e he] at ha
      cases ha
      exact absurd hop hother

theorem Order.register (hinj : Function.Injective crypto.keccak) (h : Order crypto s log v k)
    (hop : (v i).operation = some operation) (hplan : (v i).plan = entries.map (·.place))
    (hsigned : (v i).signed = entries) (hclear : (k i).clear = true)
    (hr : s.register operation entries = .ok s') (htarget : κ.target = none) (hnot : κ.clear = false)
    (halone : κ.alone = true → entries.length ≤ 1)
    (hbatch : ∀ es cursor, κ.batch = some (es, cursor) → es = entries ∧ cursor = 0) :
    Order crypto s' (log ++ entries.map fun e => .registered operation e.signed)
      (Function.update v i { operation := some operation }) (Function.update k i κ) := by
  have hinv := h.inv.register hinj hop hplan hsigned hr
  obtain ⟨hchecked, rfl⟩ := State.register_ok hr
  have hc := registrable_of_view (h.inv.views i) hop hplan hsigned
  have hregisters : s.Registers operation entries (entries.foldl (State.insertRecord operation) s) :=
    State.registers_foldl (ids_nodup hinj hc.genuine hc.distinct) s
  have hactive : ∀ e ∈ entries, (s.sender e.source).active = some operation := fun e he => (hchecked e he).2
  have hnew : ∀ e ∈ entries, s.records[e.signed.id]? = none := fun e he => (hchecked e he).1
  have hquiet : ∀ t, .handed t ∉ entries.map fun e => Trace.registered operation e.signed := by
    intro t ht
    obtain ⟨_, _, heq⟩ := List.mem_map.mp ht
    cases heq
  have hfloor : ∀ e ∈ entries, ∀ f, (s.sender e.source).floor = some f → f.toNat ≤ e.nonce.toNat := by
    intro e he f hf
    refine (h.stakes i).planned operation hop e.place ?_ f hf
    rw [hplan]
    exact List.mem_map_of_mem he
  have hnone := (h.stakes i).clear hclear operation hop
  refine h.act hinv (h.turns.register hregisters hc.alone hactive) (h.paced.register hregisters hnew hquiet) ?_ ?_
    (by simp) (by simp [htarget])
  · refine ⟨by simp [htarget], by simp, by simp, .nil, by simp [hnot], ?_, ?_, by simp⟩
    · rintro hone op ⟨⟩ a ha
      rw [hregisters.active] at ha
      exact sole_registers hregisters (halone hone) (hnone a ha)
    · rintro es cursor hes op ⟨⟩
      obtain ⟨rfl, rfl⟩ := hbatch es cursor hes
      have hrising := (h.stakes i).rising
      rw [hplan, List.pairwise_map] at hrising
      exact .register hregisters hactive hc.genuine hrising hnone
  · intro j hj
    refine env_registers hregisters hactive hquiet ?_ fun id ht => ht.register hinj hregisters hnew hc.genuine hfloor
    intro hopj
    exact absurd (h.inv.operations j i operation hopj hop) hj

end Register

/-! ## Detaching, claiming and giving up a claim -/

section Replace

variable {r r' : Record}

/-- No record of the sender has a lower nonce. -/
def Lowest (s : State) (r : Record) : Prop :=
  ∀ (id : TransactionId) (r' : Record), s.records[id]? = some r' → r'.source = r.source → r.nonce.toNat ≤ r'.nonce.toNat

theorem sole_replaces (hr : s.Replaces id r r' s') (hsame : SameEnvelope r r') {a : Address} (h : Sole s a) :
    Sole s' a := by
  intro id₁ q₁ id₂ q₂ h₁ h₂ hs₁ hs₂
  obtain ⟨p₁, hp₁, hpq₁⟩ := exists_of_replaces hr hsame h₁
  obtain ⟨p₂, hp₂, hpq₂⟩ := exists_of_replaces hr hsame h₂
  exact h id₁ p₁ id₂ p₂ hp₁ hp₂ (hpq₁.source.symm.trans hs₁) (hpq₂.source.symm.trans hs₂)

theorem Turns.replace (h : Turns s) (hr : s.Replaces id r r' s') (hsame : SameEnvelope r r')
    (hlowest : r'.status ≠ .prepared → Lowest s r)
    (hoperation : r'.operation = r.operation ∨ (r'.operation = none ∧ Sole s r.source)) : Turns s' := by
  refine ⟨?_, ?_, ?_, ?_⟩
  · intro id₁ q₁ id₂ q₂ h₁ h₂ hsource hstatus
    obtain ⟨p₂, hp₂, hpq₂⟩ := exists_of_replaces hr hsame h₂
    rw [hpq₂.nonce]
    rw [hr.records] at h₁
    split at h₁
    · cases h₁
      rw [hsame.nonce]
      exact hlowest hstatus id₂ p₂ hp₂ (by rw [← hpq₂.source, ← hsame.source, hsource])
    · exact h.least id₁ q₁ id₂ p₂ h₁ hp₂ (hsource.trans hpq₂.source) hstatus
  · intro a ha
    rw [hr.sender] at ha
    exact sole_replaces hr hsame (h.single a ha)
  · intro id₁ q op h₁ hstatus hop
    rw [hr.sender] at hop
    rw [hr.records] at h₁
    split at h₁
    · cases h₁
      rw [hsame.source] at hop ⊢
      rcases h.cancelled id r op hr.before (hsame.prepared hstatus) hop with hown | hsole
      · rcases hoperation with heq | ⟨_, hsole⟩
        · exact .inl (heq.trans hown)
        · exact .inr (sole_replaces hr hsame hsole)
      · exact .inr (sole_replaces hr hsame hsole)
    · exact (h.cancelled id₁ q op h₁ hstatus hop).imp_right (sole_replaces hr hsame)
  · intro id₁ q op h₁ hop
    rw [hr.sender]
    rw [hr.records] at h₁
    split at h₁
    · cases h₁
      rw [hsame.source]
      rcases hoperation with heq | ⟨hnone, _⟩
      · exact h.owned id r op hr.before (heq.symm.trans hop)
      · rw [hnone] at hop
        cases hop
    · exact h.owned id₁ q op h₁ hop

theorem TargetOk.replace {id₀ : TransactionId} (h : TargetOk crypto s id₀) (hr : s.Replaces id r r' s')
    (hsame : SameEnvelope r r') : TargetOk crypto s' id₀ := by
  rcases h with ⟨q, hq, hstatus⟩ | ⟨hnone, t, a, n, f, hg, ht, hf, hlt⟩
  · by_cases hid : id = id₀
    · subst hid
      rw [hr.before] at hq
      cases hq
      exact .inl ⟨r', by rw [hr.records, if_pos rfl], fun hprepared => hstatus (hsame.prepared hprepared)⟩
    · exact .inl ⟨q, by rw [hr.records, if_neg hid]; exact hq, hstatus⟩
  · refine .inr ⟨?_, t, a, n, f, hg, ht, by rw [hr.sender]; exact hf, hlt⟩
    rw [hr.records, if_neg]
    · exact hnone
    · rintro rfl
      rw [hr.before] at hnone
      cases hnone

theorem env_replaces (hr : s.Replaces id r r' s') (hsame : SameEnvelope r r') (u : View) (κ : Stake) :
    Env crypto s s' [] u κ := by
  refine ⟨?_, ?_, ?_, fun id₀ _ ht => ht.replace hr hsame, by simp⟩
  · intro op a _
    rw [hr.sender]
  · intro op a _ _ id' q hq hsource
    obtain ⟨p, hp, hpq⟩ := exists_of_replaces hr hsame hq
    exact ⟨p, hp, hpq.source.symm.trans hsource, hpq.transaction.symm⟩
  · intro a _
    rw [hr.sender]

theorem StakeOk.drop (h : StakeOk crypto s log u κ) :
    StakeOk crypto s log { u with claim := none } { κ with target := none } :=
  ⟨by simp, h.starts, h.planned, h.rising, h.clear, h.alone, h.batch, by simp⟩

theorem StakeOk.withClaim (h : StakeOk crypto s log u κ) (claim : Option (SubmissionClaim × Bool))
    (hclaim : ∀ c sent, claim = some (c, sent) → c.recovery = false →
      if sent then LastOpen log c.transaction else Fresh log c.transaction) :
    StakeOk crypto s log { u with claim } κ :=
  ⟨h.target, h.starts, h.planned, h.rising, h.clear, h.alone, h.batch, hclaim⟩

theorem Order.replace (h : Order crypto s log v k) (hr : s.Replaces id r r' s') (hsame : SameEnvelope r r')
    (hlowest : r'.status ≠ .prepared → Lowest s r)
    (hoperation : r'.operation = r.operation ∨ (r'.operation = none ∧ Sole s r.source))
    {claim : Option (SubmissionClaim × Bool)}
    (hinv : Inv crypto s' log (Function.update v i { v i with claim }))
    (hpaced : ∀ c sent, claim = some (c, sent) → c.recovery = false →
      if sent then LastOpen log c.transaction else Fresh log c.transaction)
    (hclaim : ∀ c sent, claim = some (c, sent) → ∀ j, (k j).target = some c.id → c.recovery = true) :
    Order crypto s' log (Function.update v i { v i with claim }) (Function.update k i { k i with target := none }) := by
  have hbase := (h.stakes i).drop.env ((h.inv.views i).withClaim none (by simp)) (env_replaces hr hsame _ _)
  rw [List.append_nil] at hbase
  have hstake : StakeOk crypto s' (log ++ []) { v i with claim } { k i with target := none } := by
    rw [List.append_nil]
    exact hbase.withClaim claim hpaced
  have hpaced' : Paced crypto s' (log ++ []) := by
    refine h.paced.quiet (by simp) ?_ ?_
    · intro id₀ q hq hstatus
      left
      by_cases hid : id = id₀
      · subst hid
        rw [hr.before] at hq
        cases hq
        exact ⟨r', by rw [hr.records, if_pos rfl], hsame.transaction, fun hp => hstatus (hsame.prepared hp)⟩
      · exact ⟨q, by rw [hr.records, if_neg hid]; exact hq, rfl, hstatus⟩
    · intro id₀ q hq hstatus
      obtain ⟨p, hp, hpq⟩ := exists_of_replaces hr hsame hq
      rw [hpq.transaction]
      exact h.paced.fresh id₀ p hp (hpq.prepared hstatus)
  have hact := h.act (by rw [List.append_nil]; exact hinv) (h.turns.replace hr hsame hlowest hoperation) hpaced'
    hstake (fun j _ => env_replaces hr hsame _ _) (fun c sent hc => .inr (hclaim c sent hc)) (by simp)
  rwa [List.append_nil] at hact

end Replace

theorem Order.detach (h : Order crypto s log v k) (hop : (v i).operation = some operation)
    (halone : (k i).alone = true) (hd : s.detach operation id = .ok s') :
    Order crypto s' log (Function.update v i { v i with claim := none })
      (Function.update k i { k i with target := none }) := by
  have hinv := h.inv.detach (i := i) hd
  obtain ⟨r, hown, hstatus, hr⟩ := State.replaces_detach hd
  have hsole : Sole s r.source := by
    rcases h.turns.owned id r operation hr.before hown with hactive | hnone
    · exact (h.stakes i).alone halone operation hop r.source hactive
    · exact h.turns.single r.source hnone
  exact h.replace hr ⟨rfl, rfl, rfl, fun h => h⟩ (fun hne => absurd hstatus hne) (.inr ⟨rfl, hsole⟩) hinv
    (by simp) (by simp)

theorem Order.claim {expected : Option SignedTransaction} {c : SubmissionClaim} (h : Order crypto s log v k)
    (hc : s.claim id expected = .ok (.ready c, s'))
    (hfirst : ∀ r, s.records[id]? = some r → (∀ t ∈ expected, t = r.transaction) → r.status = .prepared →
      Lowest s r) :
    Order crypto s' log (Function.update v i { v i with claim := some (c, false) })
      (Function.update k i { k i with target := none }) := by
  have hinv := h.inv.claim (i := i) hc
  obtain ⟨r, rfl, htransaction, hstatus, hexpected, hr⟩ := State.claim_ready hc
  refine h.replace hr ⟨rfl, rfl, rfl, by simp⟩ ?_ (.inl rfl) hinv ?_ ?_
  · intro _
    rcases hstatus with ⟨hprepared, _⟩ | ⟨hunknown, _⟩
    · exact hfirst r hr.before hexpected hprepared
    · intro id' r' hr' hsource
      exact h.turns.least c.id r id' r' hr.before hr' hsource.symm (by simp [hunknown])
  · rintro c' sent ⟨⟩ hrecovery
    rw [if_neg (by decide), htransaction]
    rcases hstatus with ⟨hprepared, _⟩ | ⟨_, hclaim⟩
    · exact h.paced.fresh c.id r hr.before hprepared
    · rw [hrecovery] at hclaim
      cases hclaim
  · rintro c' sent ⟨⟩ j htarget
    rcases hstatus with ⟨hprepared, _⟩ | ⟨_, hclaim⟩
    · rcases (h.stakes j).target c.id htarget with ⟨q, hq, hne⟩ | ⟨hnone, _⟩
      · rw [hr.before] at hq
        cases hq
        exact absurd hprepared hne
      · rw [hr.before] at hnone
        cases hnone
    · exact hclaim

theorem Order.release {c : SubmissionClaim} {sent : Bool} (h : Order crypto s log v k)
    (hheld : (v i).claim = some (c, sent)) :
    Order crypto (s.dropSubmission c.id) log (Function.update v i { v i with claim := none })
      (Function.update k i { k i with target := none }) := by
  have hinv := h.inv.release hheld
  rcases State.dropSubmission_cases s c.id with hsame | ⟨r, hstatus, hr⟩
  · rw [hsame] at hinv ⊢
    have hstake : StakeOk crypto s (log ++ []) { v i with claim := none } { k i with target := none } := by
      rw [List.append_nil]
      exact (h.stakes i).drop
    have hact := h.stay (by simp) (by rw [List.append_nil]; exact hinv) hstake (by simp) (by simp)
    rwa [List.append_nil] at hact
  · refine h.replace hr ⟨rfl, rfl, rfl, by simp⟩ ?_ (.inl rfl) hinv (by simp) (by simp)
    intro _ id' r' hr' hsource
    exact h.turns.least c.id r id' r' hr.before hr' hsource.symm (by simp [hstatus])

/-! ## Hand-over -/

theorem Turns.unresolved_unique {id' : TransactionId} {r r' : Record} (h : Turns s) (hcore : Core crypto s log)
    (hr : s.records[id]? = some r) (hr' : s.records[id']? = some r') (hsource : r.source = r'.source)
    (hstatus : r.status ≠ .prepared) (hstatus' : r'.status ≠ .prepared) : id = id' := by
  have hle := h.least id r id' r' hr hr' hsource hstatus
  have hge := h.least id' r' id r hr' hr hsource.symm hstatus'
  exact hcore.distinct id r id' r' hr hr' hsource (UInt64.toNat_inj.mp (Nat.le_antisymm hle hge))

theorem Paced.settled_of_claim {c : SubmissionClaim} {sent : Bool} (h : Paced crypto s log) (hturns : Turns s)
    (hcore : Core crypto s log) (hc : ClaimOk s log c sent) {before after : List Trace}
    (hsplit : log = before ++ .handed t :: after) (hne : t ≠ c.transaction)
    (hsender : crypto.recover t.envelope = crypto.recover c.transaction.envelope) : Settled t after := by
  obtain ⟨r, hr, hstatus, htransaction, _, hg⟩ := hcore.of_claim hc
  rcases h.opened before t after hsplit with hsettled | ⟨q, hq, rfl, hq'⟩
  · exact hsettled
  · have hsource : q.source = r.source := by
      have := (hcore.genuine _ q hq).2.1.sender
      rw [hsender, hg.sender] at this
      exact (Option.some.inj this).symm
    have hsame := hturns.unresolved_unique hcore hq hr hsource hq' (by simp [hstatus])
    rw [hsame, hr] at hq
    cases hq
    exact absurd htransaction hne

theorem Paced.hand {c : SubmissionClaim} {sent : Bool} (h : Paced crypto s log) (hturns : Turns s)
    (hcore : Core crypto s log) (hc : ClaimOk s log c sent) :
    Paced crypto s (log ++ [.handed c.transaction]) := by
  obtain ⟨r, hr, hstatus, htransaction, hid, hg⟩ := hcore.of_claim hc
  have hne : r.status ≠ .prepared := by simp [hstatus]
  refine ⟨?_, ?_, ?_⟩
  · intro before t after hsplit
    by_cases ht : t = c.transaction
    · subst ht
      exact .inr ⟨r, by rw [hid]; exact hr, htransaction, hne⟩
    · obtain ⟨rest, hlog, rfl⟩ := split_of_append hsplit (by simpa using ht)
      exact (h.opened before t rest hlog).imp_left (·.append _)
  · intro id' r' hr' hprepared
    refine (h.fresh id' r' hr' hprepared).append fun hmem => ?_
    have heq : r'.transaction = c.transaction := by simpa using hmem
    have hid' : id' = c.id := by rw [← (hcore.genuine id' r' hr').1, heq, hid]
    rw [hid', hr] at hr'
    cases hr'
    exact hne hprepared
  · intro before t between t' after hsplit hdiff hsender
    have hassoc : (before ++ .handed t :: between) ++ .handed t' :: after = log ++ [.handed c.transaction] := by
      rw [hsplit]
      simp
    rcases List.append_eq_append_iff.mp hassoc with ⟨rest, hlog, hrest⟩ | ⟨rest, hlog, hrest⟩
    · cases rest with
      | nil =>
        -- The later hand-over is the new one.
        obtain ⟨heq, _⟩ := List.cons.inj hrest
        obtain rfl : t' = c.transaction := Trace.handed.inj heq
        rw [List.append_nil] at hlog
        exact h.settled_of_claim hturns hcore hc hlog hdiff hsender
      | cons x rest =>
        obtain ⟨rfl, _⟩ := List.cons.inj hrest
        exact h.ordered before t between t' rest (by rw [hlog]; simp) hdiff hsender
    · cases rest with
      | nil =>
        obtain ⟨heq, _⟩ := List.cons.inj hrest
        obtain rfl : c.transaction = t' := Trace.handed.inj heq
        rw [List.append_nil] at hlog
        exact h.settled_of_claim hturns hcore hc hlog.symm hdiff hsender
      | cons x rest => simp at hrest

theorem Order.hand {c : SubmissionClaim} (h : Order crypto s log v k) (hheld : (v i).claim = some (c, false)) :
    Order crypto s (log ++ [.handed c.transaction]) (Function.update v i { v i with claim := some (c, true) })
      (Function.update k i { k i with target := none }) := by
  have hclaim := (h.inv.views i).claim c false hheld
  obtain ⟨_, _, _, _, hid, _⟩ := h.inv.core.of_claim hclaim
  have henv : ∀ (u : View) κ, (∀ c' sent', u.claim = some (c', sent') → ClaimOk s log c' sent' ∧ c'.id ≠ c.id) →
      Env crypto s s [.handed c.transaction] u κ := by
    intro u κ hclaims
    refine ⟨fun _ _ _ => Iff.rfl, fun _ _ _ _ id r hr hs => ⟨r, hr, hs, rfl⟩, fun _ _ => rfl, fun _ _ h => h, ?_⟩
    intro c' sent' hc' hmem
    obtain ⟨hok, hne⟩ := hclaims c' sent' hc'
    obtain ⟨_, _, _, _, hid', _⟩ := h.inv.core.of_claim hok
    have heq : c'.transaction = c.transaction := by simpa using hmem
    exact hne (by rw [← hid', heq, hid])
  refine h.act (h.inv.hand hheld) h.turns (h.paced.hand h.turns h.inv.core hclaim) ?_ ?_ ?_ (by simp)
  · have hbase := (h.stakes i).drop.env ((h.inv.views i).withClaim none (by simp)) (henv _ _ (by simp))
    refine hbase.withClaim (some (c, true)) ?_
    rintro c' sent ⟨⟩ hrecovery
    have hfresh := (h.stakes i).paced c false hheld hrecovery
    rw [if_neg (by decide)] at hfresh
    rw [if_pos rfl]
    exact ⟨log, [], rfl, List.not_mem_nil, hfresh⟩
  · intro j hj
    refine henv _ _ fun c' sent' hc' => ?_
    exact ⟨(h.inv.views j).claim c' sent' hc', h.inv.free_of_claim hheld j hj c' sent' hc'⟩
  · rintro c' sent ⟨⟩
    exact .inl ⟨false, hheld⟩

/-! ## Records that go -/

section Shrink

variable {gone : TransactionId → Record → Prop}

theorem sole_shrinks (hs : Shrinks s gone s') {a : Address} (h : Sole s a) : Sole s' a := by
  intro id r id' r' hr hr'
  exact h id r id' r' ((hs.records id r).mp hr).1 ((hs.records id' r').mp hr').1

theorem Turns.shrink (h : Turns s) (hs : Shrinks s gone s')
    (hactive : ∀ a, (s'.sender a).active = (s.sender a).active ∨ (s'.sender a).active = none)
    (hended : ∀ a, (s'.sender a).active = none → (s.sender a).active = none ∨ Sole s' a) : Turns s' := by
  have hback : ∀ {id : TransactionId} {r : Record}, s'.records[id]? = some r → s.records[id]? = some r :=
    fun {id r} hr => ((hs.records id r).mp hr).1
  refine ⟨?_, ?_, ?_, ?_⟩
  · exact fun id r id' r' hr hr' => h.least id r id' r' (hback hr) (hback hr')
  · intro a ha
    rcases hended a ha with hnone | hsole
    · exact sole_shrinks hs (h.single a hnone)
    · exact hsole
  · intro id r op hr hstatus hop
    exact (h.cancelled id r op (hback hr) hstatus (hs.active _ op hop)).imp_right (sole_shrinks hs)
  · intro id r op hr hop
    rcases hactive r.source with hsame | hnone
    · rw [hsame]
      exact h.owned id r op (hback hr) hop
    · exact .inr hnone

theorem env_shrinks (hs : Shrinks s gone s') (hquiet : ∀ t, .handed t ∉ events)
    (hactive : ∀ operation a, u.operation = some operation → (s.sender a).active = some operation →
      (s'.sender a).active = some operation)
    (hfloor : ∀ a, (∀ (id : TransactionId) (r : Record), s.records[id]? = some r → r.source ≠ a) →
      (s'.sender a).floor = (s.sender a).floor)
    (htarget : ∀ id, κ.target = some id → TargetOk crypto s id → TargetOk crypto s' id) :
    Env crypto s s' events u κ := by
  refine ⟨fun op a hop => ⟨hs.active a op, hactive op a hop⟩, ?_, hfloor, htarget, fun _ _ _ => hquiet _⟩
  exact fun op a _ _ id r hr hsource => ⟨r, ((hs.records id r).mp hr).1, hsource, rfl⟩

theorem TargetOk.shrink (h : TargetOk crypto s id) (hs : Shrinks s gone s')
    (hkept : ∀ r, s.records[id]? = some r → r.status ≠ .prepared → ¬ gone id r) : TargetOk crypto s' id := by
  rcases h with ⟨r, hr, hstatus⟩ | ⟨hnone, t, a, n, f, hg, ht, hf, hlt⟩
  · exact .inl ⟨r, (hs.records id r).mpr ⟨hr, hkept r hr hstatus⟩, hstatus⟩
  · obtain ⟨f', hf', hle⟩ := hs.floor a f hf
    refine .inr ⟨?_, t, a, n, f', hg, ht, hf', by omega⟩
    rw [Option.eq_none_iff_forall_ne_some]
    intro r hr
    rw [((hs.records id r).mp hr).1] at hnone
    cases hnone

/-- The record of a claim goes, and the claim with it. -/
theorem Order.settle {c : SubmissionClaim} {sent : Bool} (h : Order crypto s log v k)
    (hheld : (v i).claim = some (c, sent)) (hs : Shrinks s (fun id _ => id = c.id) s')
    (hactive : ∀ a, (s'.sender a).active = (s.sender a).active)
    (hfloor : ∀ a, (∀ (id : TransactionId) (r : Record), s.records[id]? = some r → r.source ≠ a) →
      (s'.sender a).floor = (s.sender a).floor)
    (hquiet : ∀ t, .handed t ∉ events)
    (hinv : Inv crypto s' (log ++ events) (Function.update v i { v i with claim := none }))
    (hfresh : Fresh (log ++ events) c.transaction)
    (htarget : ∀ j, (k j).target = some c.id → TargetOk crypto s' c.id) :
    Order crypto s' (log ++ events) (Function.update v i { v i with claim := none })
      (Function.update k i { k i with target := none }) := by
  obtain ⟨r, hr, _, htransaction, _⟩ := h.inv.core.of_claim ((h.inv.views i).claim c sent hheld)
  have henv : ∀ (u : View) κ, (κ.target = some c.id → TargetOk crypto s' c.id) → Env crypto s s' events u κ := by
    intro u κ hown
    refine env_shrinks hs hquiet (fun op a _ h => ?_) hfloor fun id hid ht => ?_
    · rw [hactive]
      exact h
    · by_cases heq : id = c.id
      · subst heq
        exact hown hid
      · exact ht.shrink hs fun _ _ _ => heq
  have hturns : Turns s' := by
    refine h.turns.shrink hs (fun a => .inl (hactive a)) fun a ha => .inl ?_
    rw [← hactive]
    exact ha
  refine h.act hinv hturns ?_ ?_ (fun j _ => henv _ _ (htarget j)) (by simp) (by simp)
  · refine h.paced.quiet hquiet ?_ ?_
    · intro id q hq hstatus
      by_cases hid : id = c.id
      · subst hid
        rw [hr] at hq
        cases hq
        rw [htransaction]
        exact .inr hfresh
      · exact .inl ⟨q, (hs.records id q).mpr ⟨hq, hid⟩, rfl, hstatus⟩
    · exact fun id q hq => h.paced.fresh id q ((hs.records id q).mp hq).1
  · exact (h.stakes i).drop.env ((h.inv.views i).withClaim none (by simp)) (henv _ _ (by simp))

end Shrink

theorem fresh_accepted (log : List Trace) (t : SignedTransaction) : Fresh (log ++ [.accepted t]) t := by
  intro before after hsplit
  obtain ⟨rest, _, rfl⟩ := split_of_append hsplit (by simp)
  exact .inl (by simp)

theorem Order.accept {c : SubmissionClaim} {sent : Bool} (h : Order crypto s log v k)
    (hheld : (v i).claim = some (c, sent)) :
    Order crypto (s.accept c.id).2 (log ++ [.accepted c.transaction])
      (Function.update v i { v i with claim := none }) (Function.update k i { k i with target := none }) := by
  have hinv := h.inv.accept hheld
  obtain ⟨r, hr, _, htransaction, hid, hg⟩ := h.inv.core.of_claim ((h.inv.views i).claim c sent hheld)
  obtain ⟨_, ha⟩ := State.accepts_of_accept hr (h.inv.core.genuine c.id r hr).2.2
  refine h.settle hheld (shrinks_accept ha) ha.active ?_ (by simp) hinv (fresh_accepted _ _) ?_
  · intro a hnone
    exact ha.floor a fun hsource => hnone c.id r hr hsource.symm
  · intro j _
    obtain ⟨f, hf, hlt, _⟩ := ha.raised
    refine .inr ⟨?_, c.transaction, r.source, r.nonce, f, hg, hid, hf, hlt⟩
    rw [Option.eq_none_iff_forall_ne_some]
    exact fun q hq => ((ha.records c.id q).mp hq).2 rfl

theorem Order.reject {c : SubmissionClaim} (h : Order crypto s log v k) (hheld : (v i).claim = some (c, true))
    (hrecovery : c.recovery = false) :
    Order crypto (s.reject c.id) (log ++ [.rejected c.transaction])
      (Function.update v i { v i with claim := none }) (Function.update k i { k i with target := none }) := by
  have hinv := h.inv.reject hheld hrecovery
  obtain ⟨r, hr, _⟩ := (h.inv.views i).claim c true hheld
  obtain ⟨hremoves, hactive⟩ := State.removes_removeRecord hr
  have hlast := (h.stakes i).paced c true hheld hrecovery
  rw [if_pos rfl] at hlast
  refine h.settle hheld (shrinks_reject hr) hactive ?_ (by simp) hinv hlast.reject ?_
  · exact fun a _ => hremoves.floor a
  · intro j htarget
    have := h.recoveries j i c.id c true htarget hheld rfl
    rw [hrecovery] at this
    cases this

theorem Order.finish (h : Order crypto s log v k) (hop : (v i).operation = some operation) :
    Order crypto (s.finishOperation operation) log (Function.update v i {}) (Function.update k i {}) := by
  have hinv := h.inv.finish hop
  have hs := shrinks_finish s operation
  have hactive := State.active_finishOperation s operation
  have hended : ∀ a, ((s.finishOperation operation).sender a).active = none →
      (s.sender a).active = none ∨ Sole (s.finishOperation operation) a := by
    intro a ha
    rw [hactive] at ha
    split at ha
    · rename_i hown
      right
      intro id r id' r' hr hr' hsource hsource'
      obtain ⟨hr, hkept⟩ := (hs.records id r).mp hr
      obtain ⟨hr', hkept'⟩ := (hs.records id' r').mp hr'
      have hcase : ∀ {id : TransactionId} {r : Record}, s.records[id]? = some r → r.source = a →
          ¬ State.Cancelled operation r → r.status ≠ .prepared ∨ Sole s a := by
        intro id r hr hsource hkept
        by_cases hstatus : r.status = .prepared
        · rcases h.turns.cancelled id r operation hr hstatus (by rw [hsource]; exact hown) with hmine | hsole
          · exact absurd ⟨hmine, hstatus⟩ hkept
          · rw [hsource] at hsole
            exact .inr hsole
        · exact .inl hstatus
      rcases hcase hr hsource hkept with hstatus | hsole
      · rcases hcase hr' hsource' hkept' with hstatus' | hsole
        · exact h.turns.unresolved_unique h.inv.core hr hr' (hsource.trans hsource'.symm) hstatus hstatus'
        · exact hsole id r id' r' hr hr' hsource hsource'
      · exact hsole id r id' r' hr hr' hsource hsource'
    · exact .inl ha
  have hturns : Turns (s.finishOperation operation) := by
    refine h.turns.shrink hs (fun a => ?_) hended
    rw [hactive]
    split
    · exact .inr rfl
    · exact .inl rfl
  have hpaced : Paced crypto (s.finishOperation operation) (log ++ []) := by
    refine h.paced.quiet (by simp) ?_ ?_
    · intro id r hr hstatus
      exact .inl ⟨r, (hs.records id r).mpr ⟨hr, fun hc => hstatus hc.2⟩, rfl, hstatus⟩
    · exact fun id r hr => h.paced.fresh id r ((hs.records id r).mp hr).1
  have hstake : StakeOk crypto (s.finishOperation operation) (log ++ []) {} {} :=
    ⟨by simp, by simp, by simp, .nil, by simp, by simp, by simp, by simp⟩
  have hact := h.act (by rw [List.append_nil]; exact hinv) hturns hpaced hstake ?_ (by simp) (by simp)
  · rwa [List.append_nil] at hact
  · intro j hj
    refine env_shrinks hs (by simp) ?_ (fun a _ => (State.removes_finishOperation s operation).floor a) ?_
    · intro op a hopj h'
      rw [hactive, if_neg]
      · exact h'
      · rw [h']
        rintro ⟨⟩
        exact hj (h.inv.operations j i operation hopj hop)
    · exact fun id _ ht => ht.shrink hs fun r _ hstatus hc => hstatus hc.2

end PaymentSdk.Ethereum
