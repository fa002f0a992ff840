import PaymentSdk.Solana.Prepared

/-!
# A prepared batch spends no more than there is

The sums that a batch takes from its sources are within the balances of one snapshot, and each
envelope is that of its transfer. The floor never falls. A send that fails before it has a batch
gives its sources back and has sent nothing.
-/

open Interaction Checked

namespace PaymentSdk.Solana

open Wallets (ErrorKind Error SendError)

variable {crates : Crates} {keys : List (Address × Key)}

/-! ## Floors -/

def Acquire.floor : Acquire → Option UInt64
  | accounts _ slot => some slot
  | closing _ context => some context.slot
  | leasing _ | health _ | opening _ | failing _ _ => none

/-- The slot that every later read has to reach. -/
def Prepare.floor : Prepare → Option UInt64
  | lifetime acquired => some acquired.floor
  | fees p _ | simulating p _ _ => some p.floor
  | failing _ _ => none

/-- The slot that the next answer must reach. -/
def Caller.floor : Caller → Option UInt64
  | .acquiring _ task => task.floor
  | .preparing _ task => task.floor
  | .submitting (.height batch _) => some batch.floor
  | .fresh | .ended | .submitting .registering | .submitting .waiting | .submitting (.failing _ _) => none

theorem Acquire.floor_poll (crates : Crates) {task : Acquire} (s : SourceState) (reply : Reply) {f : UInt64} (hf : f ∈ task.floor) :
    (∀ task', (task.poll crates s reply).outcome = .inl task' → ∀ f' ∈ task'.floor, f ≤ f') ∧
      ∀ acquired, (task.poll crates s reply).outcome = .inr (.ok acquired) → f ≤ acquired.floor := by
  cases task with
  | leasing | health | opening | failing => cases hf
  | accounts a slot =>
    cases hf
    rw [Acquire.poll]
    cases hanswer : (do
        let context ← raceAcquisition reply (reply.getAccounts a.query (some f)); ensure reply; pure context :
        Except SendError (Context (List (Option AccountSnapshot)))) with
    | error e =>
      refine ⟨?_, by rintro _ ⟨⟩⟩
      rintro _ ⟨⟩ f' ⟨⟩
    | ok context =>
      simp only [bind_ok, pure_ok] at hanswer
      obtain ⟨_, haccounts, _, -, rfl⟩ := hanswer
      refine ⟨?_, by rintro _ ⟨⟩⟩
      rintro _ ⟨⟩ f' ⟨⟩
      exact (getAccounts_ok (race_ok haccounts)).1
  | closing a context =>
    cases hf
    rw [Acquire.poll]
    cases hfinish : Acquire.finish reply a context with
    | error e =>
      refine ⟨?_, by rintro _ ⟨⟩⟩
      rintro _ ⟨⟩ f' ⟨⟩
    | ok acquired =>
      refine ⟨by rintro _ ⟨⟩, ?_⟩
      rintro _ ⟨⟩
      simp only [Acquire.finish, bind_ok, pure_ok] at hfinish
      obtain ⟨floor, hfloor, _, -, _, -, _, -, rfl⟩ := hfinish
      exact getSlot_floor (race_ok hfloor)

theorem Prepare.floor_simulateNext {reply : Reply} {p : Preparing} {envelopes : List Envelope} {position : Nat} :
    (∀ task', Prepare.simulateNext reply p envelopes position = .inl task' → ∀ f' ∈ task'.floor, f' = p.floor) ∧
      ∀ batch, Prepare.simulateNext reply p envelopes position = .inr batch → batch.floor = p.floor := by
  unfold Prepare.simulateNext
  split
  · exact ⟨by rintro _ ⟨⟩ f' ⟨⟩, by rintro _ ⟨⟩⟩
  · split_ifs
    · refine ⟨?_, by rintro _ ⟨⟩⟩
      rintro _ ⟨⟩ f' ⟨⟩
      rfl
    · refine ⟨by rintro _ ⟨⟩, ?_⟩
      rintro _ ⟨⟩
      rfl

theorem Prepare.floor_feeNext {reply : Reply} {p : Preparing} {quoted : List UInt64} :
    (∀ task', Prepare.feeNext crates keys reply p quoted = .inl task' → ∀ f' ∈ task'.floor, f' = p.floor) ∧
      ∀ batch, Prepare.feeNext crates keys reply p quoted = .inr batch → batch.floor = p.floor := by
  unfold Prepare.feeNext
  split_ifs
  · split
    · exact ⟨by rintro _ ⟨⟩ f' ⟨⟩, by rintro _ ⟨⟩⟩
    · refine ⟨?_, by rintro _ ⟨⟩⟩
      rintro _ ⟨⟩ f' ⟨⟩
      rfl
  · split
    · exact ⟨by rintro _ ⟨⟩ f' ⟨⟩, by rintro _ ⟨⟩⟩
    · exact Prepare.floor_simulateNext

theorem Prepare.floor_onward {s : SourceState} {o : Prepare ⊕ PreparedBatch} {f floor : UInt64} (hle : f ≤ floor)
    (h : (∀ task', o = .inl task' → ∀ f' ∈ task'.floor, f' = floor) ∧ ∀ batch, o = .inr batch → batch.floor = floor) :
    (∀ task', (Prepare.onward s o).outcome = .inl task' → ∀ f' ∈ task'.floor, f ≤ f') ∧
      ∀ batch, (Prepare.onward s o).outcome = .inr (.ok batch) → f ≤ batch.floor := by
  obtain ⟨htask, hbatch⟩ := h
  cases o with
  | inl task =>
    refine ⟨?_, by rintro _ ⟨⟩⟩
    rintro _ ⟨⟩ f' hf'
    rw [htask task rfl f' hf']
    exact hle
  | inr batch =>
    refine ⟨by rintro _ ⟨⟩, ?_⟩
    rintro _ ⟨⟩
    rw [hbatch batch rfl]
    exact hle

theorem Prepare.floor_poll (crates : Crates) (keys : List (Address × Key)) {task : Prepare} (s : SourceState)
    (reply : Reply) {f : UInt64} (hf : f ∈ task.floor) :
    (∀ task', (task.poll crates keys s reply).outcome = .inl task' → ∀ f' ∈ task'.floor, f ≤ f') ∧
      ∀ batch, (task.poll crates keys s reply).outcome = .inr (.ok batch) → f ≤ batch.floor := by
  have hfailing : ∀ leases error,
      (∀ task', (Prepare.onward s (.inl (Prepare.failing leases error))).outcome = .inl task' →
        ∀ f' ∈ task'.floor, f ≤ f') ∧
        ∀ batch, (Prepare.onward s (.inl (Prepare.failing leases error))).outcome = .inr (.ok batch) →
          f ≤ batch.floor := by
    intro leases error
    refine ⟨?_, by rintro _ ⟨⟩⟩
    rintro _ ⟨⟩ f' ⟨⟩
  cases task with
  | lifetime acquired =>
    cases hf
    rw [Prepare.poll]
    split
    · exact hfailing _ _
    · rename_i wire hwire
      split
      · exact hfailing _ _
      · exact Prepare.floor_onward (latestBlockhash_floor (race_ok hwire)) Prepare.floor_feeNext
  | fees p quoted =>
    cases hf
    rw [Prepare.poll]
    split
    · exact hfailing _ _
    · rename_i fee hfee
      exact Prepare.floor_onward (feeForMessage_floor (race_ok hfee)) Prepare.floor_feeNext
  | simulating p envelopes position =>
    cases hf
    rw [Prepare.poll]
    split
    · exact hfailing _ _
    · rename_i slot hslot
      exact Prepare.floor_onward (simulate_floor (simulation_ok hslot)) Prepare.floor_simulateNext
  | failing leases error => cases hf

theorem floor_start {reply : Reply} {acquired : AcquiredAccounts} {f' : UInt64}
    (h : f' ∈ (Prepare.start reply acquired).floor) : f' = acquired.floor := by
  unfold Prepare.start at h
  split at h
  · cases h
  · cases h
    rfl

theorem floor_submit {reply : Reply} {batch : PreparedBatch} {f' : UInt64}
    (h : f' ∈ Caller.floor (.submitting (Submit.start reply batch))) : f' = batch.floor := by
  unfold Submit.start at h
  split at h
  · cases h
  · split at h
    · cases h
    · cases h
      rfl

/-- What a poll of the caller does to its floor. -/
theorem floor_callerPoll {w : World} {i : Nat} {reply : Reply} {f f' : UInt64} (hf : f ∈ (w.sends i).caller.floor)
    (hf' : f' ∈ ((w.poll crates i reply).sends i).caller.floor) : f ≤ f' := by
  unfold World.poll at hf'
  cases hcaller : (w.sends i).caller with
  | fresh | ended =>
    rw [hcaller] at hf
    cases hf
  | acquiring keys task =>
    rw [hcaller] at hf
    obtain ⟨hnext, hdone⟩ := Acquire.floor_poll crates w.state reply hf
    simp only [hcaller] at hf'
    split at hf'
    · rename_i hpoll
      rw [World.setCaller, sends_act_self] at hf'
      exact hnext _ (by rw [hpoll]) f' hf'
    · rw [World.finish, sends_act_self] at hf'
      cases hf'
    · rename_i acquired hpoll
      rw [World.setCaller, sends_act_self] at hf'
      rw [floor_start hf']
      exact hdone acquired (by rw [hpoll])
  | preparing keys task =>
    rw [hcaller] at hf
    obtain ⟨hnext, hdone⟩ := Prepare.floor_poll crates keys w.state reply hf
    simp only [hcaller] at hf'
    split at hf'
    · rename_i hpoll
      rw [World.setCaller, sends_act_self] at hf'
      exact hnext _ (by rw [hpoll]) f' hf'
    · rw [World.finish, sends_act_self] at hf'
      cases hf'
    · rename_i batch hpoll
      rw [World.setCaller, sends_act_self] at hf'
      rw [floor_submit hf']
      exact hdone batch (by rw [hpoll])
  | submitting task =>
    rw [hcaller] at hf
    simp only [hcaller] at hf'
    cases task with
    | height batch first =>
      -- The height is read, and no floor is kept from here on.
      rw [World.pollSubmit] at hf'
      repeat' split at hf'
      all_goals simp [World.setCaller, World.guardAndRegister, sends_act_self, Caller.floor] at hf'
    | registering | waiting | failing => cases hf

/-- **Step.** The floor does not fall. -/
theorem floor_step {w : World} (hinv : w.Inv) {i : Nat} {event : Event} {f f' : UInt64}
    (hf : f ∈ (w.sends i).caller.floor) (hf' : f' ∈ ((w.step crates event).sends i).caller.floor) : f ≤ f' := by
  have hsame : ∀ caller : Caller, f ∈ caller.floor → f' ∈ caller.floor → f ≤ f' := by
    intro caller hf hf'
    rw [Option.mem_unique hf hf']
    exact UInt64.le_refl _
  by_cases hi : event.index = i
  · subst hi
    cases event with
    | poll i reply => exact floor_callerPoll hf hf'
    | send i transfers =>
      rw [World.step] at hf'
      split at hf'
      · rename_i hcaller
        rw [Event.index, hcaller] at hf
        cases hf
      · exact hsame _ hf hf'
    | drop i =>
      rw [World.step, World.drop, Event.index] at hf'
      split at hf'
      all_goals first
        | exact hsame _ hf hf'
        | (simp [World.setCaller, sends_act_self, Caller.floor] at hf')
    | pollTask i reply =>
      rw [World.step, Event.index, caller_pollTask] at hf'
      exact hsame _ hf hf'
    | dropTask i =>
      rw [World.step, Event.index, caller_dropTask] at hf'
      exact hsame _ hf hf'
  · rw [sends_step_other hinv hi] at hf'
    exact hsame _ hf hf'

/-! ## Sends that end without a batch -/

/-- The caller has no batch and holds what its leases cover. -/
def Caller.Unprepared : Caller → Prop
  | .acquiring _ _ | .preparing _ _ => True
  | .fresh | .submitting _ | .ended => False

/-- Such a send ends with a result for its caller, or is dropped. -/
theorem unprepared_over {w : World} {event : Event} (h : (w.sends event.index).caller.Unprepared)
    (hover : ((w.step crates event).sends event.index).caller = .ended) :
    ∃ s' trace, w.step crates event = w.act event.index s' { w.sends event.index with caller := .ended } trace ∧
      ∀ x ∈ trace, ∃ result, x = .returned result := by
  have hnot : (w.sends event.index).caller ≠ .ended := by
    intro hcaller
    rw [hcaller] at h
    exact h
  have hreturned : ∀ result : Except SendError (List Id), ∀ x ∈ [Trace.returned result], ∃ result, x = .returned result := by
    intro result x hx
    exact ⟨result, List.mem_singleton.mp hx⟩
  cases event with
  | send i transfers =>
    rw [World.step, Event.index] at hover
    cases hcaller : (w.sends i).caller with
    | fresh | submitting | ended =>
      rw [Event.index, hcaller] at h
      exact h.elim
    | acquiring | preparing =>
      simp only [hcaller] at hover
      cases hover
  | poll i reply =>
    rw [World.step, Event.index] at hover ⊢
    unfold World.poll at hover ⊢
    cases hcaller : (w.sends i).caller with
    | fresh | submitting | ended =>
      rw [Event.index, hcaller] at h
      exact h.elim
    | acquiring keys task =>
      simp only [hcaller] at hover ⊢
      split at hover
      · rw [World.setCaller, sends_act_self] at hover
        cases hover
      · exact ⟨_, _, rfl, hreturned _⟩
      · rw [World.setCaller, sends_act_self] at hover
        cases hover
    | preparing keys task =>
      simp only [hcaller] at hover ⊢
      split at hover
      · rw [World.setCaller, sends_act_self] at hover
        cases hover
      · exact ⟨_, _, rfl, hreturned _⟩
      · rw [World.setCaller, sends_act_self] at hover
        cases hover
  | drop i =>
    rw [World.step, Event.index] at hover ⊢
    unfold World.drop at hover ⊢
    cases hcaller : (w.sends i).caller with
    | fresh | submitting | ended =>
      rw [Event.index, hcaller] at h
      exact h.elim
    | acquiring keys task =>
      cases task with
      | failing =>
        simp only [hcaller] at hover
        cases hover
      | leasing | health | opening | accounts | closing => exact ⟨_, [], by simp only; rfl, by simp⟩
    | preparing keys task =>
      cases task with
      | failing =>
        simp only [hcaller] at hover
        cases hover
      | lifetime | fees | simulating => exact ⟨_, [], by simp only; rfl, by simp⟩
  | pollTask i reply =>
    rw [World.step, Event.index, caller_pollTask] at hover
    exact absurd hover hnot
  | dropTask i =>
    rw [World.step, Event.index, caller_dropTask] at hover
    exact absurd hover hnot

theorem sends_act_other {w : World} {i j : Nat} (h : j ≠ i) (s' : SourceState) (x : Send) (trace : List Trace) :
    (w.act i s' x trace).sends j = w.sends j := Function.update_of_ne h ..

theorem released_step {w : World} (hinv : w.Inv) {event : Event} (h : (w.sends event.index).caller.Unprepared)
    (hover : ((w.step crates event).sends event.index).caller = .ended) (a : Address) :
    (a ∈ (w.step crates event).state.preparing ↔ ∃ j, j ≠ event.index ∧ a ∈ (w.sends j).caller.leased) ∧
      (a ∈ (w.step crates event).state.guarded ↔ a ∈ w.state.guarded) := by
  have hafter : (w.step crates event).Inv := hinv.step event
  obtain ⟨s', trace, hstep, -⟩ := unprepared_over h hover
  rw [hafter.exclusive.preparing, hafter.exclusive.guarded, hinv.exclusive.guarded, hstep]
  constructor
  · constructor
    · rintro ⟨j, hj⟩
      have hne : j ≠ event.index := by
        rintro rfl
        rw [sends_act_self] at hj
        simp [Caller.leased] at hj
      rw [sends_act_other hne] at hj
      exact ⟨j, hne, hj⟩
    · rintro ⟨j, hne, hj⟩
      exact ⟨j, by rwa [sends_act_other hne]⟩
  · refine exists_congr fun j => ?_
    by_cases hj : j = event.index
    · subst hj
      rw [sends_act_self]
    · rw [sends_act_other hj]

/-- A send that is over, has no task and has sent nothing. -/
structure Gone (w : World) (i : Nat) : Prop where
  caller : (w.sends i).caller = .ended
  task : (w.sends i).task = none
  silent : ∀ e, .sent e ∉ own i w.log

theorem Gone.step {w : World} (hinv : w.Inv) {i : Nat} (h : Gone w i) (event : Event) :
    Gone (w.step crates event) i := by
  by_cases hi : event.index = i
  · have hstays : w.step crates event = w := by
      obtain ⟨hcaller, htask, -⟩ := h
      cases event <;> cases hi <;>
        simp only [World.step, World.poll, World.drop, World.pollTask, World.dropTask, Event.index] at hcaller htask ⊢ <;>
        simp only [hcaller, htask]
    rw [hstays]
    exact h
  · have hsends : (w.step crates event).sends i = w.sends i := sends_step_other hinv hi
    have hlog : own i (w.step crates event).log = own i w.log := by
      have hacts : Acts crates w event (w.step crates event) := acts_step hinv.ok event
      generalize w.step crates event = w' at hacts
      cases hacts with
      | stays => rfl
      | caller => exact own_act_other hi _ _ _
      | task => exact own_act_other hi _ _ _
    exact ⟨by rw [hsends]; exact h.caller, by rw [hsends]; exact h.task, by rw [hlog]; exact h.silent⟩

theorem Gone.steps {w : World} (hinv : w.Inv) {i : Nat} (h : Gone w i) (events : List Event) :
    Gone (events.foldl (World.step crates) w) i := by
  induction events generalizing w with
  | nil => exact h
  | cons event rest ih => exact ih (hinv.step event) (h.step hinv event)

theorem gone_of_unprepared {w : World} (hinv : w.Inv) {event : Event} (huntold : Untold w event.index)
    (h : (w.sends event.index).caller.Unprepared)
    (hover : ((w.step crates event).sends event.index).caller = .ended) : Gone (w.step crates event) event.index := by
  obtain ⟨s', trace, hstep, hreturned⟩ := unprepared_over h hover
  have hpreparing : (w.sends event.index).caller.Preparing := by
    cases hcaller : (w.sends event.index).caller with
    | fresh | acquiring | preparing => trivial
    | submitting | ended =>
      rw [hcaller] at h
      exact h.elim
  refine ⟨hover, ?_, ?_⟩
  · rw [hstep, sends_act_self]
    exact (hinv.ok _).early hpreparing.early
  · intro e he
    rw [hstep, own_act_self, (huntold hpreparing).1, List.nil_append] at he
    obtain ⟨_, hx⟩ := hreturned _ he
    cases hx

/-! ## No overspending -/

/-- The answers that a batch rests on: one snapshot, and one quote for each transfer. -/
def Answered (crates : Crates) (resolved : List ResolvedTransfer) (replies : List Reply)
    (snapshot : List (Address × Option AccountSnapshot)) (fees : List UInt64) : Prop :=
  ∃ r₀ r₁ r₂ r₃ r₄ r₅ quotes simulations destinations query opening context closing lifetime floor,
    replies = [r₀, r₁, r₂, r₃, r₄, r₅] ++ quotes ++ simulations ∧
    resolved.mapM (·.destinationOf crates) = .ok destinations ∧
    query = ((resolved.zip destinations).flatMap fun p => [p.1.source, p.2]).eraseDups ∧
    r₂.getSlot none = .ok opening ∧ r₃.getAccounts query (some opening) = .ok context ∧
    snapshot = query.zip context.value ∧ r₄.getSlot (some context.slot) = .ok closing ∧
    r₅.latestBlockhash closing = .ok lifetime ∧ quoteFees lifetime.slot quotes = .ok (floor, fees) ∧
    fees.length = resolved.length ∧ simulations.length = resolved.length

/-- The envelope of a transfer, signed with its source's key. -/
def EnvelopeOf (crates : Crates) (keys : List (Address × Key)) (t : ResolvedTransfer) (e : Envelope) : Prop :=
  e.index = t.index ∧ e.source = t.source ∧ e.message.source = t.source ∧ e.message.amount = t.amount ∧
    ∃ key bytes, keys.lookup t.source = some key ∧ key.address = t.source ∧ crates.wireBytes e.message = some bytes ∧
      e.signature = crates.sign key.secret bytes ∧ crates.verify t.source bytes e.signature = true

/-- What a batch takes from each source is within its balance, and the envelopes are those of the
transfers. -/
structure Spends (crates : Crates) (keys : List (Address × Key)) (resolved : List ResolvedTransfer)
    (snapshot : List (Address × Option AccountSnapshot)) (fees : List UInt64) (batch : PreparedBatch) : Prop where
  fits : ∀ a, required a (resolved.zip fees) < 2 ^ 64
  within : ∀ a, required a (resolved.zip fees) ≤ (balanceIn snapshot a).toNat
  ordered : resolved.map (·.index) = List.range resolved.length
  envelopes : List.Forall₂ (EnvelopeOf crates keys) resolved batch.envelopes
  ids : (batch.envelopes.map (·.id)).Nodup
  bytes : (batch.envelopes.map (·.signed)).Nodup

theorem spends_of_backed {resolved : List ResolvedTransfer} {replies : List Reply} {batch : PreparedBatch}
    (h : batch.Backed crates keys resolved replies) :
    ∃ snapshot fees, Answered crates resolved replies snapshot fees ∧
      Spends crates keys resolved snapshot fees batch := by
  obtain ⟨first, simulations, p, snapshot, fees, floor, rfl, hquoted, hfloor, hsimulations⟩ := h
  obtain ⟨⟨first, quotes, start, rfl, hbuilt, hfees⟩, hlength, hsufficient, reply, hsigned⟩ := hquoted
  obtain ⟨first, r₅, rfl, hobserved, hlifetime, hmessages⟩ := hbuilt
  obtain ⟨htransfers, hordered, hdestinations, hbalances, htaken⟩ := hobserved
  obtain ⟨r₀, r₁, r₂, r₃, r₄, query, opening, context, rfl, hquery, hopening, haccounts, hclosing, rfl⟩ := htaken
  rw [htransfers] at hmessages hsufficient hsigned
  have hcount := length_of_mapM hdestinations
  have hall := messagesFrom_ok hmessages
  have hmessageCount : p.messages.length = resolved.length := by
    rw [← hall.length_eq, List.length_zip, hcount, Nat.min_self]
  obtain ⟨henvelopes, hids, hvalues, -⟩ := envelopesFrom_ok hsigned
  have henvelopeCount : batch.envelopes.length = resolved.length := by
    rw [← henvelopes.length_eq, List.length_zip, hmessageCount, Nat.min_self]
  rw [hbalances] at hsufficient
  have hcovered := checkSufficiency_ok.mp hsufficient
  refine ⟨query.zip context.value, fees, ?_, ?_, hcovered, hordered, ?_, hids, hvalues⟩
  · exact ⟨r₀, r₁, r₂, r₃, r₄, r₅, quotes, simulations, p.acquired.destinations, query, opening, context,
      p.acquired.floor, ⟨start, p.lifetime⟩, floor, by simp, hdestinations, hquery, hopening, haccounts, rfl, hclosing,
      hlifetime, hfees, by omega, by omega⟩
  · intro a
    exact Nat.lt_of_le_of_lt (hcovered a) (balanceIn _ a).toNat_lt
  · rw [List.forall₂_iff_get] at henvelopes hall ⊢
    refine ⟨henvelopeCount.symm, ?_⟩
    intro k hk hk'
    have hsigned := henvelopes.2 k (by simp; omega) hk'
    have hcarries := hall.2 k (by simp; omega) (by omega)
    simp only [List.get_eq_getElem, List.getElem_zip] at hsigned hcarries ⊢
    obtain ⟨key, bytes, hkey, haddress, hbytes, hsignature, hverify, -⟩ := hsigned.signer
    refine ⟨hsigned.index, hsigned.source, ?_, ?_, key, bytes, hkey, haddress, ?_, hsignature, hverify⟩
    · rw [hsigned.message, hcarries.source]
    · rw [hsigned.message, hcarries.amount]
    · rw [hsigned.message, hbytes]

theorem after_acquire {resolved : List ResolvedTransfer} {replies : List Reply}
    {o : Acquire ⊕ Except SendError AcquiredAccounts} (h : Reaches (Acquire.poll crates) (.leasing resolved) replies o) :
    Acquire.After crates resolved replies o :=
  h.keeps ⟨rfl, rfl⟩ fun _ _ s reply hbacked => Acquire.after_poll s reply hbacked

theorem after_prepare {resolved : List ResolvedTransfer} {first replies : List Reply} {start : Prepare}
    {o : Prepare ⊕ Except SendError PreparedBatch} (hstart : start.Backed crates keys resolved first)
    (h : Reaches (Prepare.poll crates keys) start replies o) : Prepare.After crates keys resolved (first ++ replies) o := by
  refine h.keeps (P := fun replies o => Prepare.After crates keys resolved (first ++ replies) o) ?_ ?_
  · rw [List.append_nil]
    exact hstart
  · intro answers task s reply hbacked
    rw [← List.append_assoc]
    exact Prepare.after_poll s reply hbacked

theorem backed_start {resolved : List ResolvedTransfer} {replies : List Reply} {acquired : AcquiredAccounts}
    {snapshot : List (Address × Option AccountSnapshot)} (reply : Reply)
    (h : Observed crates resolved replies acquired snapshot) :
    (Prepare.start reply acquired).Backed crates keys resolved replies := by
  unfold Prepare.start
  split
  · trivial
  · exact ⟨snapshot, h⟩

theorem Acquire.poll_error {task : Acquire} {s : SourceState} {reply : Reply} {e : SendError}
    (h : (task.poll crates s reply).outcome = .inr (.error e)) :
    (task.poll crates s reply).state = s.dropLeases task.leases := by
  have hfollow : ∀ {α : Type} {s : SourceState} {leases : Finset Address} {result : Except SendError α}
      {next : α → Acquire}, (Acquire.follow s leases result next).outcome ≠ .inr (.error e) := by
    intro α s leases result next hend
    cases result <;> cases hend
  cases task with
  | leasing transfers =>
    rw [Acquire.leases, dropLeases_empty]
    rw [Acquire.poll] at h ⊢
    split_ifs at h ⊢
    · rfl
    · cases hlease : s.lease transfers (1 < transfers.length) with
      | error e' => rfl
      | ok p =>
        simp only [hlease] at h
        exact absurd h hfollow
  | health | opening | accounts => exact absurd h hfollow
  | closing a context =>
    rw [Acquire.poll] at h
    cases hfinish : Acquire.finish reply a context with
    | error e' =>
      rw [hfinish] at h
      cases h
    | ok acquired =>
      rw [hfinish] at h
      cases h
  | failing leases error => rfl

theorem Prepare.poll_error {task : Prepare} {s : SourceState} {reply : Reply} {e : SendError}
    (h : (task.poll crates keys s reply).outcome = .inr (.error e)) :
    (task.poll crates keys s reply).state = s.dropLeases task.leases := by
  have honward : ∀ {o : Prepare ⊕ PreparedBatch}, (Prepare.onward s o).outcome ≠ .inr (.error e) := by
    intro o hend
    cases o <;> cases hend
  cases task with
  | failing leases error => rfl
  | lifetime acquired =>
    rw [Prepare.poll] at h
    repeat' split at h
    all_goals exact absurd h honward
  | fees p quoted =>
    rw [Prepare.poll] at h
    split at h
    all_goals exact absurd h honward
  | simulating p envelopes position =>
    rw [Prepare.poll] at h
    split at h
    all_goals exact absurd h honward

namespace World

/-- **Preparation never overspends.** For every batch of transfers and every answer of the node, a
prepared batch takes from each source no more than its balance in one snapshot, with an envelope for
each transfer. The check of the sums fails at the first transfer that cannot be paid. In every run
the floor does not fall, and a send that ends without a batch has released its sources and sends
nothing. -/
theorem preparation_never_overspends (crates : Crates) :
    (∀ resolved keys replies reply replies' acquired batch,
      Reaches (Acquire.poll crates) (.leasing resolved) replies (.inr (.ok acquired)) →
      Reaches (Prepare.poll crates keys) (.start reply acquired) replies' (.inr (.ok batch)) →
      ∃ snapshot fees, Answered crates resolved (replies ++ replies') snapshot fees ∧
        Spends crates keys resolved snapshot fees batch) ∧
    (∀ (transfers : List ResolvedTransfer) (balance : Address → UInt64) (fees : List UInt64) (k : Nat),
      (∃ message, checkSufficiency transfers (transfers.map fun t => balance t.source) fees =
          .error (item k .transaction message)) ↔
        ∃ position, IsLeast {n | Exceeds balance (transfers.zip fees) n} position ∧
          ((transfers.zip fees)[position]?).map (·.1.index) = some k) ∧
    (∀ (task : Acquire) s reply e, (task.poll crates s reply).outcome = .inr (.error e) →
      (task.poll crates s reply).state = s.dropLeases task.leases) ∧
    (∀ keys (task : Prepare) s reply e, (task.poll crates keys s reply).outcome = .inr (.error e) →
      (task.poll crates keys s reply).state = s.dropLeases task.leases) ∧
    ∀ events i,
      (∀ keys task reply batch, ((run crates events).sends i).caller = .preparing keys task →
        (task.poll crates keys (run crates events).state reply).outcome = .inr (.ok batch) →
        ∃ before transfers after resolved snapshot fees, events = before ++ .send i transfers :: after ∧
          Coordinator.start crates transfers = .ok resolved ∧ keys = Coordinator.keys transfers ∧
          Answered crates resolved (answersTo i after ++ [reply]) snapshot fees ∧
          Spends crates keys resolved snapshot fees batch) ∧
      ∀ event,
        (∀ f f', f ∈ ((run crates events).sends i).caller.floor →
          f' ∈ ((run crates (events ++ [event])).sends i).caller.floor → f ≤ f') ∧
        (event.index = i → ((run crates events).sends i).caller.Unprepared →
          ((run crates (events ++ [event])).sends i).caller = .ended →
          (∀ a, (a ∈ (run crates (events ++ [event])).state.preparing ↔
              ∃ j, j ≠ i ∧ a ∈ ((run crates events).sends j).caller.leased) ∧
            (a ∈ (run crates (events ++ [event])).state.guarded ↔ a ∈ (run crates events).state.guarded)) ∧
          ∀ later e, .sent e ∉ own i (run crates (events ++ [event] ++ later)).log) := by
  refine ⟨?_, ?_, ?_, ?_, ?_⟩
  · intro resolved keys replies reply replies' acquired batch hacquire hprepare
    obtain ⟨snapshot, hobserved⟩ := after_acquire hacquire
    have hafter : batch.Backed crates keys resolved (replies ++ replies') :=
      after_prepare (backed_start reply hobserved) hprepare
    exact spends_of_backed hafter
  · intro transfers balance fees k
    exact checkSufficiency_item k
  · intro task s reply e h
    exact Acquire.poll_error h
  · intro keys task s reply e h
    exact Prepare.poll_error h
  · intro events i
    have hinv := inv_run crates events
    have hrun : ∀ event, run crates (events ++ [event]) = (run crates events).step crates event := by
      intro event
      rw [run, List.foldl_append]
      rfl
    constructor
    · intro keys task reply batch hcaller hready
      have hbegun := begun_run crates events i
      rw [hcaller] at hbegun
      obtain ⟨before, transfers, after, resolved, rfl, hstart, hkeys, hbacked⟩ := hbegun
      have hafter := Prepare.after_poll (run crates (before ++ .send i transfers :: after)).state reply hbacked
      rw [hready] at hafter
      obtain ⟨snapshot, fees, hanswered, hspends⟩ := spends_of_backed hafter
      exact ⟨before, transfers, after, resolved, snapshot, fees, rfl, hstart, hkeys, hanswered, hspends⟩
    · intro event
      rw [hrun]
      constructor
      · intro f f' hf hf'
        exact floor_step hinv hf hf'
      · rintro rfl hunprepared hover
        refine ⟨released_step hinv hunprepared hover, ?_⟩
        intro later
        have hgone := gone_of_unprepared hinv (untold_run crates events _) hunprepared hover
        have hlater : run crates (events ++ [event] ++ later) =
            later.foldl (step crates) ((run crates events).step crates event) := by
          rw [run, List.foldl_append, ← run, hrun]
        rw [hlater]
        exact (hgone.steps (hinv.step event) later).silent

theorem preparation_never_overspends_sample : ∃ keys task,
    ((run sampleCrates sampleEvents).sends 0).caller = .preparing keys task ∧
      (task.poll sampleCrates keys (run sampleCrates sampleEvents).state sampleReply).outcome =
        .inr (.ok sampleBatch) ∧
      ∃ resolved snapshot fees, Spends sampleCrates keys resolved snapshot fees sampleBatch := by
  refine ⟨_, _, rfl, rfl, ?_⟩
  obtain ⟨_, _, _, resolved, snapshot, fees, -, -, -, -, hspends⟩ :=
    ((preparation_never_overspends sampleCrates).2.2.2.2 sampleEvents 0).1 _ _ sampleReply sampleBatch rfl rfl
  exact ⟨resolved, snapshot, fees, hspends⟩

end World

end PaymentSdk.Solana
