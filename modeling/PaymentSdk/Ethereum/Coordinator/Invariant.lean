import PaymentSdk.Ethereum.Coordinator.Spec

/-!
# What the coordinator's state and its callers guarantee

The state and the log have one invariant, and each caller has one about what it holds: its
operation, the nonces it was given, and its claim. `Rely` is what a caller needs of the steps
of the others.
-/

open Std

namespace PaymentSdk.Ethereum

variable {crypto : Crypto} {s s' : State} {log : List Trace} {a : Address} {id : TransactionId}

/-! ## Facts about the log -/

/-- The first hand-over of the envelope was answered with a definite rejection. -/
def FirstRejected (log : List Trace) (t : SignedTransaction) : Prop :=
  ∃ l₁ l₂ l₃, log = l₁ ++ Trace.handed t :: (l₂ ++ Trace.rejected t :: l₃) ∧ .handed t ∉ l₁ ∧ .handed t ∉ l₂

/-- The envelope was handed over once so far. -/
def FirstPending (log : List Trace) (t : SignedTransaction) : Prop :=
  ∃ l₁ l₂, log = l₁ ++ Trace.handed t :: l₂ ∧ .handed t ∉ l₁ ∧ .handed t ∉ l₂

/-- The operation was given `start` for the sender, and by then every envelope of the sender
from `start` on that was ever handed over had been rejected. -/
structure ClearedAt (crypto : Crypto) (log : List Trace) (operation : UInt64) (a : Address)
    (start : UInt64) (before after : List Trace) : Prop where
  split : log = before ++ .assigned operation a start :: after
  once : ∀ n, .assigned operation a n ∉ before
  rejected : ∀ t, .handed t ∈ log → crypto.recover t.envelope = some a →
    start.toNat ≤ t.envelope.nonce.toNat → FirstRejected before t

def Cleared (crypto : Crypto) (log : List Trace) (operation : UInt64) (a : Address) (start : UInt64) : Prop :=
  ∃ before after, ClearedAt crypto log operation a start before after

/-- The nonce of `t` was assigned after every other envelope with this sender and nonce had
been rejected at its first attempt. -/
def Justified (crypto : Crypto) (log : List Trace) (t : SignedTransaction) : Prop :=
  ∃ operation a start before between after, crypto.recover t.envelope = some a ∧
    log = before ++ Trace.assigned operation a start :: (between ++ Trace.registered operation t :: after) ∧
    (∀ n, .assigned operation a n ∉ before) ∧ (∀ operation', .registered operation' t ∉ after) ∧
    ∀ u, .handed u ∈ log → u ≠ t → crypto.recover u.envelope = some a →
      u.envelope.nonce = t.envelope.nonce → FirstRejected before u

/-- Whatever was handed over was justified at that time. -/
def Safe (crypto : Crypto) (log : List Trace) : Prop :=
  ∀ before t after, log = before ++ Trace.handed t :: after → Justified crypto before t

theorem FirstRejected.append {t : SignedTransaction} (h : FirstRejected log t) (events : List Trace) :
    FirstRejected (log ++ events) t := by
  obtain ⟨l₁, l₂, l₃, rfl, h₁, h₂⟩ := h
  exact ⟨l₁, l₂, l₃ ++ events, by simp, h₁, h₂⟩

theorem FirstPending.append {t : SignedTransaction} (h : FirstPending log t) {events : List Trace}
    (hevents : .handed t ∉ events) : FirstPending (log ++ events) t := by
  obtain ⟨l₁, l₂, rfl, h₁, h₂⟩ := h
  exact ⟨l₁, l₂ ++ events, by simp, h₁, by simp [h₂, hevents]⟩

theorem FirstPending.reject {t : SignedTransaction} (h : FirstPending log t) :
    FirstRejected (log ++ [.rejected t]) t := by
  obtain ⟨l₁, l₂, rfl, h₁, h₂⟩ := h
  exact ⟨l₁, l₂, [], by simp, h₁, h₂⟩

theorem Cleared.append {operation start : UInt64} (h : Cleared crypto log operation a start)
    {events : List Trace} (hevents : ∀ t, .handed t ∈ events → crypto.recover t.envelope ≠ some a) :
    Cleared crypto (log ++ events) operation a start := by
  obtain ⟨before, after, h⟩ := h
  refine ⟨before, after ++ events, ⟨by rw [h.split]; simp, h.once, ?_⟩⟩
  intro t ht hsender hnonce
  rcases List.mem_append.mp ht with ht | ht
  · exact h.rejected t ht hsender hnonce
  · exact absurd hsender (hevents t ht)

theorem Justified.append {t : SignedTransaction} (h : Justified crypto log t) {events : List Trace}
    (hregistered : ∀ operation, .registered operation t ∉ events)
    (hhanded : ∀ u, .handed u ∈ events → crypto.recover u.envelope = crypto.recover t.envelope →
      u.envelope.nonce = t.envelope.nonce → u = t) : Justified crypto (log ++ events) t := by
  obtain ⟨operation, a, start, before, between, after, hsender, rfl, honce, hlast, hall⟩ := h
  refine ⟨operation, a, start, before, between, after ++ events, hsender, by simp, honce, ?_, ?_⟩
  · intro operation' hmem
    rcases List.mem_append.mp hmem with hmem | hmem
    · exact hlast operation' hmem
    · exact hregistered operation' hmem
  · intro u hu hne hu' hnonce
    rcases List.mem_append.mp hu with hu | hu
    · exact hall u hu hne hu' hnonce
    · exact absurd (hhanded u hu (hu'.trans hsender.symm) hnonce) hne

theorem safe_append (h : Safe crypto log) {events : List Trace}
    (hevents : ∀ front t rest, events = front ++ .handed t :: rest → Justified crypto (log ++ front) t) :
    Safe crypto (log ++ events) := by
  intro before t after hsplit
  rcases List.append_eq_append_iff.mp hsplit with ⟨front, rfl, hnew⟩ | ⟨rest, hlog, hrest⟩
  · exact hevents front t after hnew
  · cases rest with
    | nil =>
      have hnew : events = [] ++ .handed t :: after := by simpa using hrest.symm
      have := hevents [] t after hnew
      rw [List.append_nil] at this hlog
      rwa [← hlog]
    | cons x rest =>
      obtain ⟨rfl, _⟩ := List.cons.inj hrest
      exact h before t rest hlog

theorem safe_of_not_handed (h : Safe crypto log) {events : List Trace} (hevents : ∀ t, .handed t ∉ events) :
    Safe crypto (log ++ events) := by
  apply safe_append h
  rintro front t rest rfl
  exact absurd (List.mem_append_right _ List.mem_cons_self) (hevents t)

/-! ## The state and the log -/

/-- What became of an envelope that was handed over: it is still recorded, or its sender's
floor is above it, or it was rejected at once. -/
def Resolved (crypto : Crypto) (s : State) (log : List Trace) (t : SignedTransaction) : Prop :=
  (∃ r, s.records[t.id]? = some r ∧ r.transaction = t) ∨
    (∃ a f, crypto.recover t.envelope = some a ∧ (s.sender a).floor = some f ∧
      t.envelope.nonce.toNat < f.toNat) ∨
    FirstRejected log t

/-- What the records and the senders say of the log. -/
structure Core (crypto : Crypto) (s : State) (log : List Trace) : Prop where
  index : ∀ a id, id ∈ (s.sender a).records ↔ ∃ r, s.records[id]? = some r ∧ r.source = a
  genuine : ∀ (id : TransactionId) (r : Record), s.records[id]? = some r → r.transaction.id = id ∧
    r.transaction.Genuine crypto r.source r.nonce ∧ r.nonce.toNat + 1 < 2 ^ 64
  distinct : ∀ (id : TransactionId) (r : Record) (id' : TransactionId) (r' : Record), s.records[id]? = some r → s.records[id']? = some r' →
    r.source = r'.source → r.nonce = r'.nonce → id = id'
  active : ∀ a operation, (s.sender a).active = some operation → operation.toNat < s.nextOperation.toNat
  assigned : ∀ operation a n, .assigned operation a n ∈ log → operation.toNat < s.nextOperation.toNat
  prepared : ∀ (id : TransactionId) (r : Record), s.records[id]? = some r → r.status = .prepared → .handed r.transaction ∈ log →
    FirstRejected log r.transaction
  handed : ∀ t, .handed t ∈ log → (∃ a n, t.Genuine crypto a n) ∧ Resolved crypto s log t
  justified : ∀ (id : TransactionId) (r : Record), s.records[id]? = some r → Justified crypto log r.transaction
  safe : Safe crypto log

/-! ## What a caller holds -/

/-- What the invariant has to know of one caller. -/
structure View where
  operation : Option UInt64 := none
  sources : List Address := []
  assigning : Bool := false
  starts : Address → Option UInt64 := fun _ => none
  plan : List (Address × UInt64) := []
  signed : List PreparedEntry := []
  claim : Option (SubmissionClaim × Bool) := none

/-- A claimed record is the caller's own until the claim ends. -/
def ClaimOk (s : State) (log : List Trace) (c : SubmissionClaim) (sent : Bool) : Prop :=
  ∃ r, s.records[c.id]? = some r ∧ r.status = .reconciling ∧ r.transaction = c.transaction ∧
    (c.recovery = false → if sent then FirstRejected log c.transaction ∨ FirstPending log c.transaction
      else .handed c.transaction ∈ log → FirstRejected log c.transaction)

/-- A caller's view agrees with the state and the log. -/
structure ViewOk (crypto : Crypto) (s : State) (log : List Trace) (u : View) : Prop where
  bounded : ∀ operation, u.operation = some operation → operation.toNat < s.nextOperation.toNat
  admitted : ∀ operation, u.operation = some operation → ∀ a ∈ u.sources,
    (s.sender a).active = some operation ∧ ∀ (id : TransactionId) (r : Record), s.records[id]? = some r → r.source ≠ a
  starts : ∀ operation, u.operation = some operation → ∀ a n, u.starts a = some n →
    a ∈ u.sources ∧ Cleared crypto log operation a n
  assigning : u.assigning = true → ∀ operation, u.operation = some operation → ∀ a n,
    .assigned operation a n ∈ log → (u.starts a).isSome
  planned : ∀ operation, u.operation = some operation → ∀ p ∈ u.plan, p.1 ∈ u.sources ∧
    p.2.toNat + 1 < 2 ^ 64 ∧ ∃ start, start.toNat ≤ p.2.toNat ∧ Cleared crypto log operation p.1 start
  distinct : u.plan.Pairwise fun p q => p.1 = q.1 → p.2 ≠ q.2
  signed : ∀ e ∈ u.signed, e.signed.Genuine crypto e.source e.nonce
  claim : ∀ c sent, u.claim = some (c, sent) → ClaimOk s log c sent

/-- What a caller with this view needs of a step that it does not take itself. -/
structure Rely (crypto : Crypto) (s : State) (log : List Trace) (s' : State) (events : List Trace)
    (u : View) : Prop where
  next : s.nextOperation.toNat ≤ s'.nextOperation.toNat
  active : ∀ operation a, u.operation = some operation → (s.sender a).active = some operation →
    (s'.sender a).active = some operation
  records : ∀ operation a, u.operation = some operation → (s.sender a).active = some operation →
    ∀ (id : TransactionId) (r' : Record), s'.records[id]? = some r' → r'.source = a → ∃ r, s.records[id]? = some r ∧ r.source = a
  handed : ∀ a, (∀ (id : TransactionId) (r : Record), s.records[id]? = some r → r.source ≠ a) → ∀ t, .handed t ∈ events →
    crypto.recover t.envelope ≠ some a
  assigned : ∀ operation a n, u.operation = some operation → .assigned operation a n ∉ events
  claim : ∀ c sent, u.claim = some (c, sent) → .handed c.transaction ∉ events ∧
    ∀ r, s.records[c.id]? = some r → r.status = .reconciling → s'.records[c.id]? = some r

theorem ClaimOk.rely {c : SubmissionClaim} {sent : Bool} (h : ClaimOk s log c sent) {events : List Trace}
    (hhanded : .handed c.transaction ∉ events)
    (hrecord : ∀ r, s.records[c.id]? = some r → r.status = .reconciling → s'.records[c.id]? = some r) :
    ClaimOk s' (log ++ events) c sent := by
  obtain ⟨r, hr, hstatus, htransaction, hfirst⟩ := h
  refine ⟨r, hrecord r hr hstatus, hstatus, htransaction, fun hrecovery => ?_⟩
  have hbefore := hfirst hrecovery
  cases sent with
  | true =>
    rw [if_pos rfl] at hbefore ⊢
    exact hbefore.imp (·.append events) (·.append hhanded)
  | false =>
    rw [if_neg (by decide)] at hbefore ⊢
    intro hmem
    rcases List.mem_append.mp hmem with hmem | hmem
    · exact (hbefore hmem).append events
    · exact absurd hmem hhanded

theorem ViewOk.rely {u : View} (h : ViewOk crypto s log u) {events : List Trace}
    (hr : Rely crypto s log s' events u) : ViewOk crypto s' (log ++ events) u := by
  have hcleared : ∀ operation, u.operation = some operation → ∀ a ∈ u.sources, ∀ n,
      Cleared crypto log operation a n → Cleared crypto (log ++ events) operation a n := by
    intro operation hop a ha n hc
    exact hc.append (hr.handed a (h.admitted operation hop a ha).2)
  refine ⟨?_, ?_, ?_, ?_, ?_, h.distinct, h.signed, ?_⟩
  · exact fun operation hop => Nat.lt_of_lt_of_le (h.bounded operation hop) hr.next
  · intro operation hop a ha
    obtain ⟨hactive, hnone⟩ := h.admitted operation hop a ha
    refine ⟨hr.active operation a hop hactive, fun id r' hr' hsource => ?_⟩
    obtain ⟨r, hold, hsource'⟩ := hr.records operation a hop hactive id r' hr' hsource
    exact hnone id r hold hsource'
  · intro operation hop a n hn
    obtain ⟨ha, hc⟩ := h.starts operation hop a n hn
    exact ⟨ha, hcleared operation hop a ha n hc⟩
  · intro hassigning operation hop a n hmem
    rcases List.mem_append.mp hmem with hmem | hmem
    · exact h.assigning hassigning operation hop a n hmem
    · exact absurd hmem (hr.assigned operation a n hop)
  · intro operation hop p hp
    obtain ⟨ha, hnonce, start, hstart, hc⟩ := h.planned operation hop p hp
    exact ⟨ha, hnonce, start, hstart, hcleared operation hop p.1 ha start hc⟩
  · intro c sent hclaim
    obtain ⟨hhanded, hrecord⟩ := hr.claim c sent hclaim
    exact (h.claim c sent hclaim).rely hhanded hrecord

/-! ## The whole system -/

/-- What all callers hold. Operations and claims have one holder each. -/
structure Inv (crypto : Crypto) (s : State) (log : List Trace) (v : Nat → View) : Prop where
  core : Core crypto s log
  views : ∀ i, ViewOk crypto s log (v i)
  operations : ∀ i j operation, (v i).operation = some operation → (v j).operation = some operation → i = j
  claims : ∀ i j c c' sent sent', (v i).claim = some (c, sent) → (v j).claim = some (c', sent') →
    c.id = c'.id → i = j

/-- One caller acts. -/
theorem Inv.act {v : Nat → View} (h : Inv crypto s log v) {events : List Trace} {i : Nat} {u : View}
    (hcore : Core crypto s' (log ++ events)) (hview : ViewOk crypto s' (log ++ events) u)
    (hrely : ∀ j, j ≠ i → Rely crypto s log s' events (v j))
    (hoperation : ∀ operation, u.operation = some operation →
      ∀ j, j ≠ i → (v j).operation ≠ some operation)
    (hclaim : ∀ c sent, u.claim = some (c, sent) → ∀ j, j ≠ i → ∀ c' sent',
      (v j).claim = some (c', sent') → c.id ≠ c'.id) :
    Inv crypto s' (log ++ events) (Function.update v i u) := by
  refine ⟨hcore, ?_, ?_, ?_⟩
  · intro j
    by_cases hj : j = i
    · subst hj
      rw [Function.update_self]
      exact hview
    · rw [Function.update_of_ne hj]
      exact (h.views j).rely (hrely j hj)
  · intro j k operation hj hk
    by_cases hji : j = i <;> by_cases hki : k = i
    · rw [hji, hki]
    · subst hji
      rw [Function.update_self] at hj
      rw [Function.update_of_ne hki] at hk
      exact absurd hk (hoperation operation hj k hki)
    · subst hki
      rw [Function.update_self] at hk
      rw [Function.update_of_ne hji] at hj
      exact absurd hj (hoperation operation hk j hji)
    · rw [Function.update_of_ne hji] at hj
      rw [Function.update_of_ne hki] at hk
      exact h.operations j k operation hj hk
  · intro j k c c' sent sent' hj hk hid
    by_cases hji : j = i <;> by_cases hki : k = i
    · rw [hji, hki]
    · subst hji
      rw [Function.update_self] at hj
      rw [Function.update_of_ne hki] at hk
      exact absurd hid (hclaim c sent hj k hki c' sent' hk)
    · subst hki
      rw [Function.update_self] at hk
      rw [Function.update_of_ne hji] at hj
      exact absurd hid.symm (hclaim c' sent' hk j hji c sent hj)
    · rw [Function.update_of_ne hji] at hj
      rw [Function.update_of_ne hki] at hk
      exact h.claims j k c c' sent sent' hj hk hid

theorem Inv.act_kept {v : Nat → View} (h : Inv crypto s log v) {events : List Trace} {i : Nat} {u : View}
    (hcore : Core crypto s' (log ++ events)) (hview : ViewOk crypto s' (log ++ events) u)
    (hrely : ∀ j, j ≠ i → Rely crypto s log s' events (v j))
    (hoperation : ∀ operation, u.operation = some operation → (v i).operation = some operation)
    (hclaim : ∀ c sent, u.claim = some (c, sent) → ∃ sent', (v i).claim = some (c, sent')) :
    Inv crypto s' (log ++ events) (Function.update v i u) := by
  apply h.act hcore hview hrely
  · intro operation hop j hj hop'
    exact hj (h.operations j i operation hop' (hoperation operation hop))
  · intro c sent hc j hj c' sent' hc' hid
    obtain ⟨sent'', hheld⟩ := hclaim c sent hc
    exact hj (h.claims j i c' c sent' sent'' hc' hheld hid.symm)

theorem rely_refl (u : View) : Rely crypto s log s [] u where
  next := Nat.le_refl _
  active _ _ _ h := h
  records _ _ _ _ _ r hr hsource := ⟨r, hr, hsource⟩
  handed _ _ _ h := absurd h List.not_mem_nil
  assigned _ _ _ _ := List.not_mem_nil
  claim _ _ _ := ⟨List.not_mem_nil, fun _ hr _ => hr⟩

theorem Inv.think {v : Nat → View} (h : Inv crypto s log v) {i : Nat} {u : View}
    (hview : ViewOk crypto s log u)
    (hoperation : ∀ operation, u.operation = some operation → (v i).operation = some operation)
    (hclaim : ∀ c sent, u.claim = some (c, sent) → ∃ sent', (v i).claim = some (c, sent')) :
    Inv crypto s log (Function.update v i u) := by
  have hcore : Core crypto s (log ++ []) := by
    rw [List.append_nil]
    exact h.core
  have hview' : ViewOk crypto s (log ++ []) u := by
    rw [List.append_nil]
    exact hview
  have hact := h.act_kept hcore hview' (fun j _ => rely_refl (v j)) hoperation hclaim
  rwa [List.append_nil] at hact

theorem ViewOk.withClaim {u : View} (h : ViewOk crypto s log u) (claim : Option (SubmissionClaim × Bool))
    (hclaim : ∀ c sent, claim = some (c, sent) → ClaimOk s log c sent) :
    ViewOk crypto s log { u with claim } :=
  ⟨h.bounded, h.admitted, h.starts, h.assigning, h.planned, h.distinct, h.signed, hclaim⟩

theorem viewOk_empty : ViewOk crypto s log {} :=
  ⟨by simp, by simp, by simp, by simp, by simp, .nil, by simp, by simp⟩

end PaymentSdk.Ethereum
