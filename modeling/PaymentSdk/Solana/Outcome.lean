import PaymentSdk.Solana.Dispatch

/-!
# The whole run of one submission

From the poll that has the batch prepared, every step of every send keeps the account of this
one. The step that reports leaves guarded what it says is unknown, and nothing else of the batch.
-/

open Interaction

namespace PaymentSdk.Solana

open Wallets (ErrorKind Error SendError)

/-! ## Who acts -/

def Event.index : Event → Nat
  | send i _ | poll i _ | drop i | pollTask i _ | dropTask i => i

/-- The caller has no batch yet. -/
def Caller.Preparing : Caller → Prop
  | .fresh | .acquiring _ _ | .preparing _ _ => True
  | .submitting _ | .ended => False

theorem Caller.Preparing.early {caller : Caller} (h : caller.Preparing) : caller.Early := by
  cases caller with
  | fresh | acquiring | preparing => trivial
  | submitting | ended => exact h.elim

/-- What an event adds to the log for the caller. It activates on an acknowledged registration. -/
def Trace.OfCaller (event : Event) : Trace → Prop
  | .height _ | .returned _ => True
  | .activated => ∃ i reply, event = .poll i reply ∧ reply.registered = true
  | .sent _ | .observed _ | .reported _ | .resolved _ _ => False

/-- What an event does: to the caller, or as a poll of the activated task. -/
inductive Acts (crates : Crates) (w : World) : Event → World → Prop
  | stays {event : Event} : Acts crates w event w
  | caller (event : Event) {s' : SourceState} {x : Send} {trace : List Trace}
    (early : x.caller.Preparing → (w.sends event.index).caller.Preparing ∧ trace = [] ∧
      x = { w.sends event.index with caller := x.caller })
    (said : ∀ x ∈ trace, x.OfCaller event) : Acts crates w event (w.act event.index s' x trace)
  | task {i : Nat} {reply : Reply} {t : Task} (present : (w.sends i).task = some t) :
    Acts crates w (.pollTask i reply) (w.act i (t.poll crates w.state reply).state
      { w.sends i with
        task := (t.poll crates w.state reply).task
        result := (World.reportOf (t.poll crates w.state reply).trace).or (w.sends i).result }
      (t.poll crates w.state reply).trace)

section Acts

variable {crates : Crates} {w : World} {i : Nat} {reply : Reply}

theorem acts_finish (event : Event) (s' : SourceState) (result : Except SendError (List Id)) :
    Acts crates w event (w.finish event.index s' result) :=
  .caller event (fun h => h.elim) (by simp [Trace.OfCaller])

theorem acts_setCaller (event : Event) (s' : SourceState) (caller : Caller)
    (h : caller.Preparing → (w.sends event.index).caller.Preparing) :
    Acts crates w event (w.setCaller event.index s' caller) :=
  .caller event (fun hc => ⟨h hc, rfl, rfl⟩) (by simp)

theorem acts_pollSubmit (task : Submit) : Acts crates w (.poll i reply) (w.pollSubmit i reply task) := by
  have hacts : ∀ {x : Send} {trace : List Trace}, ¬ x.caller.Preparing → (∀ y ∈ trace, y.OfCaller (.poll i reply)) →
      ∀ s', Acts crates w (.poll i reply) (w.act i s' x trace) := fun hlate hsaid s' =>
    .caller (.poll i reply) (fun h => absurd h hlate) hsaid
  cases task with
  | height batch first =>
    rw [World.pollSubmit]
    split
    · exact hacts id (by simp) _
    · split
      · exact hacts id (by simp) _
      · split
        · exact hacts id (by simp [Trace.OfCaller]) _
        · exact hacts id (by simp [Trace.OfCaller]) _
  | registering =>
    rw [World.pollSubmit]
    split
    · exact hacts id (by simp [Trace.OfCaller]) _
    · split
      · rename_i hregistered
        exact hacts id (by simp [Trace.OfCaller, hregistered]) _
      · exact hacts id (by simp [Trace.OfCaller]) _
  | waiting =>
    rw [World.pollSubmit]
    split
    · exact acts_finish (.poll i reply) _ _
    · split
      · exact acts_finish (.poll i reply) _ _
      · exact acts_finish (.poll i reply) _ _
      · exact .stays
  | failing leases error => exact acts_finish (.poll i reply) _ _

theorem acts_poll : Acts crates w (.poll i reply) (w.poll crates i reply) := by
  unfold World.poll
  split
  · exact .stays
  · exact .stays
  · rename_i keys task hcaller
    have hearly : (w.sends i).caller.Preparing := by rw [hcaller]; trivial
    split
    · exact acts_setCaller (.poll i reply) _ _ fun _ => hearly
    · exact acts_finish (.poll i reply) _ _
    · exact acts_setCaller (.poll i reply) _ _ fun _ => hearly
  · rename_i keys task hcaller
    have hearly : (w.sends i).caller.Preparing := by rw [hcaller]; trivial
    split
    · exact acts_setCaller (.poll i reply) _ _ fun _ => hearly
    · exact acts_finish (.poll i reply) _ _
    · exact acts_setCaller (.poll i reply) _ _ fun _ => hearly
  · exact acts_pollSubmit _

theorem acts_drop : Acts crates w (.drop i) (w.drop i) := by
  unfold World.drop
  split
  all_goals first
    | exact .stays
    | exact .caller (.drop i) (fun h => h.elim) (by simp)

theorem acts_dropTask (event : Event) (hok : (w.sends event.index).Ok) : Acts crates w event (w.dropTask event.index) := by
  unfold World.dropTask
  split
  · rename_i htask
    split
    · exact .stays
    · refine .caller event (fun hearly => ?_) (by simp)
      -- A caller that is still preparing has no task to give up.
      have hnone : (w.sends event.index).task = none := hok.early (Caller.Preparing.early hearly)
      rw [htask] at hnone
      cases hnone
  · exact .stays

theorem acts_send (transfers : List NativeTransfer) :
    Acts crates w (.send i transfers) (w.step crates (.send i transfers)) := by
  rw [World.step]
  split
  · rename_i hcaller
    split
    · exact acts_finish (.send i transfers) _ _
    · refine acts_setCaller (.send i transfers) _ _ fun _ => ?_
      change (w.sends i).caller.Preparing
      rw [hcaller]
      trivial
  · exact .stays

theorem acts_step (hok : ∀ k, (w.sends k).Ok) (event : Event) : Acts crates w event (w.step crates event) := by
  cases event with
  | send i transfers => exact acts_send transfers
  | poll i reply => exact acts_poll
  | drop i => exact acts_drop
  | pollTask i reply =>
    rw [World.step, World.pollTask]
    split
    · exact .stays
    · rename_i task htask
      split
      · exact .stays
      · exact acts_dropTask (.pollTask i reply) (hok i)
      · exact .task htask
  | dropTask i => exact acts_dropTask (.dropTask i) (hok i)

end Acts

/-! ## What the task reports -/

/-- The sources that a report leaves guarded. -/
def retained (envelopes : List Envelope) : Except SendError (List Id) → Finset Address
  | .ok _ => ∅
  | .error error =>
    if error.ambiguousTransactionId = none then ∅
    else match envelopes[error.accepted.length]? with
      | none => ∅
      | some e => {e.source}

/-- The node returned the id of the envelope, or has a status for it. -/
def Acknowledged (crates : Crates) (reply : Reply) (e : Envelope) : Prop :=
  reply.sendTransaction crates.parseSignature crates.renderSignature e.id = true ∨
    ∃ floor slot status, reply.signatureStatus floor = .ok ⟨slot, some status⟩

section Task

variable {crates : Crates} {reply : Reply} {s : SourceState} {envelopes : List Envelope} {leases : Finset Address}
  {log : List Trace} {result : Except SendError (List Id)} {r : Running} {done : List Envelope}

theorem trace_resolving (crates : Crates) (s : SourceState) (reply : Reply) (e : Envelope) (task : Resolve) :
    ((Task.resolving e task).poll crates s reply).trace = [] ∨
      ∃ found, ((Task.resolving e task).poll crates s reply).trace = [.resolved e found] := by
  cases task with
  | waiting => exact .inl rfl
  | inspecting task =>
    rw [Task.poll, Resolve.poll]
    cases task.poll e reply with
    | inl task' => exact .inl rfl
    | inr evidence =>
      cases evidence with
      | present => exact .inr ⟨true, rfl⟩
      | absent => exact .inr ⟨false, rfl⟩
      | retry c => exact .inl rfl

/-- What the task says needs an answer that says so, and it does not speak for its caller. -/
def Trace.Justified (crates : Crates) (reply : Reply) : Trace → Prop
  | .observed e => Acknowledged crates reply e
  | .activated | .returned _ => False
  | _ => True

theorem justified_accept (h : Acknowledged crates reply r.envelope) :
    ∀ x ∈ (Task.accept s r).trace, x.Justified crates reply := by
  unfold Task.accept
  split
  · simpa [Task.complete, Trace.Justified] using h
  · simpa [Trace.Justified] using h

theorem Task.justified (task : Task) : ∀ x ∈ (task.poll crates s reply).trace, x.Justified crates reply := by
  cases task with
  | dormant floor es guarded =>
    cases es <;> simp [Task.poll, Task.start, Task.complete, Task.dispatch, Trace.Justified]
  | height r =>
    rw [Task.poll]
    repeat' split
    all_goals simp [Task.complete, Task.dispatch, Trace.Justified]
  | sending r attempt =>
    rw [Task.poll]
    split
    · rename_i hsent
      exact justified_accept (.inl hsent)
    · simp
  | status r attempt =>
    rw [Task.poll]
    split
    · rename_i slot status hstatus
      exact justified_accept (.inr ⟨r.floor, slot, status, hstatus⟩)
    · split
      · simp
      · simp [Task.ambiguous, Trace.Justified]
    · simp [Task.ambiguous, Trace.Justified]
  | expiry r attempt =>
    rw [Task.poll]
    repeat' split
    all_goals simp [Task.ambiguous, Task.dispatch, Trace.Justified]
  | resolving e task =>
    rcases trace_resolving crates s reply e task with htrace | ⟨found, htrace⟩
    · simp [htrace]
    · simp [htrace, Trace.Justified]

theorem Underway.retained_unknown (h : Underway envelopes leases log r done) :
    retained envelopes (.error (unknownOutcome r.envelope r.accepted)) = {r.envelope.source} := by
  have hat : envelopes[r.accepted.length]? = some r.envelope := by simp [h.split, h.accepted]
  have hretained : retained envelopes (.error (unknownOutcome r.envelope r.accepted)) =
      match envelopes[r.accepted.length]? with
      | none => ∅
      | some e => {e.source} := rfl
  rw [hretained, hat]

/-- What a reporting poll leaves to the task is what the report says. -/
def Leaves (envelopes : List Envelope) (ran : Ran) : Prop :=
  ∀ result, .reported result ∈ ran.trace → heldBy ran.task = retained envelopes result

theorem leaves_complete (guarded : Finset Address) (result : Except SendError (List Id)) (heights : List UInt64)
    (hresult : retained envelopes result = ∅) :
    Leaves envelopes (Task.complete s guarded result (heights.map .height)) := by
  intro result' h
  have heq : result' = result := by simpa [Task.complete] using h
  rw [heq, hresult]
  rfl

theorem leaves_ambiguous (h : Underway envelopes leases log r done) (heights : List UInt64) :
    Leaves envelopes (Task.ambiguous s r (heights.map .height)) := by
  intro result hmem
  have heq : result = .error (unknownOutcome r.envelope r.accepted) := by simpa [Task.ambiguous] using hmem
  rw [heq, h.retained_unknown]
  rfl

theorem leaves_dispatch (attempt : Nat) (heights : List UInt64) :
    Leaves envelopes (Task.dispatch s r attempt (heights.map .height)) := by
  intro result h
  simp [Task.dispatch] at h

theorem leaves_accept : Leaves envelopes (Task.accept s r) := by
  intro result h
  unfold Task.accept at h ⊢
  split at h
  · have heq : result = .ok (r.accepted ++ [r.envelope.id]) := by simpa [Task.complete] using h
    rw [heq]
    rfl
  · simp at h

theorem Task.leaves (task : Task) (h : task.At envelopes leases log) :
    Leaves envelopes (task.poll crates s reply) := by
  cases task with
  | dormant floor es guarded =>
    cases es with
    | nil => exact leaves_complete _ _ [] rfl
    | cons first rest => exact leaves_dispatch _ []
  | height r =>
    rw [Task.poll]
    split
    · exact leaves_complete _ _ [] rfl
    · rename_i value _
      split
      · exact leaves_complete _ _ [value] rfl
      · exact leaves_dispatch _ [value]
  | sending r attempt =>
    rw [Task.poll]
    split
    · exact leaves_accept
    · intro result hmem
      simp at hmem
  | status r attempt =>
    obtain ⟨done, sent, hunderway, -⟩ := h
    rw [Task.poll]
    split
    · exact leaves_accept
    · split
      · intro result hmem
        simp at hmem
      · exact leaves_ambiguous hunderway []
    · exact leaves_ambiguous hunderway []
  | expiry r attempt =>
    obtain ⟨done, sent, hunderway, -⟩ := h
    rw [Task.poll]
    split
    · exact leaves_ambiguous hunderway []
    · rename_i value _
      split
      · exact leaves_dispatch _ [value]
      · exact leaves_ambiguous hunderway [value]
  | resolving e task =>
    intro result hmem
    rcases trace_resolving crates s reply e task with htrace | ⟨found, htrace⟩
    · simp [htrace] at hmem
    · simp [htrace] at hmem

theorem Task.held_of_reports (task : Task) (h : task.At envelopes leases log)
    (hreported : .reported result ∈ (task.poll crates s reply).trace) : task.held = leases := by
  cases task with
  | dormant floor es guarded => exact h.2.1
  | height r =>
    obtain ⟨done, hunderway, -⟩ := h
    exact hunderway.guarded
  | sending r attempt =>
    obtain ⟨done, sent, hunderway, -⟩ := h
    exact hunderway.guarded
  | status r attempt =>
    obtain ⟨done, sent, hunderway, -⟩ := h
    exact hunderway.guarded
  | expiry r attempt =>
    obtain ⟨done, sent, hunderway, -⟩ := h
    exact hunderway.guarded
  | resolving e task =>
    rcases trace_resolving crates s reply e task with htrace | ⟨found, htrace⟩
    · simp [htrace] at hreported
    · simp [htrace] at hreported

end Task

/-! ## Steps -/

section Steps

variable {crates : Crates} {envelopes : List Envelope} {leases : Finset Address} {w : World} {i : Nat} {reply : Reply}
  {event : Event}

theorem Follows.leave {log : List Trace} {x : Send} (h : Follows envelopes leases log x) (activation : Activation)
    (hactivation : activation = .started → x.activation = .started) :
    Follows envelopes leases log { x with caller := .ended, activation } :=
  ⟨h.account, h.task, fun hstarted => h.started (hactivation hstarted), h.result, h.returned, trivial⟩

theorem leads_leave (h : Leads envelopes leases i w) (s' : SourceState) (activation : Activation)
    (hactivation : activation = .started → (w.sends i).activation = .started) :
    Leads envelopes leases i (w.act i s' { w.sends i with caller := .ended, activation } []) := by
  refine leads_act ?_
  rw [List.append_nil]
  exact Follows.leave h activation hactivation

theorem leads_drop (h : Leads envelopes leases i w) : Leads envelopes leases i (w.drop i) := by
  unfold World.drop
  split
  all_goals first
    | exact h
    | exact leads_leave h _ _ id
    | exact leads_leave h _ .dropped (by simp)

theorem leads_poll (h : Leads envelopes leases i w) : Leads envelopes leases i (w.poll crates i reply) := by
  have hat := h.caller
  unfold Send.CallerAt at hat
  cases hcaller : (w.sends i).caller with
  | fresh =>
    rw [hcaller] at hat
    exact hat.elim
  | acquiring keys task =>
    rw [hcaller] at hat
    exact hat.elim
  | preparing keys task =>
    rw [hcaller] at hat
    exact hat.elim
  | submitting task =>
    have hpoll : w.poll crates i reply = w.pollSubmit i reply task := by simp only [World.poll, hcaller]
    rw [hpoll]
    exact leads_pollSubmit task hcaller h
  | ended =>
    have hpoll : w.poll crates i reply = w := by simp only [World.poll, hcaller]
    rwa [hpoll]

theorem leads_dropTask (h : Leads envelopes leases i w) :
    Leads envelopes leases i (w.dropTask i) := by
  unfold World.dropTask
  split
  · rename_i htask
    split
    · exact h
    · refine leads_act ?_
      rw [List.append_nil]
      refine ⟨h.account, by simp, h.started, h.result, by simp, ?_⟩
      have hat := h.caller
      unfold Send.CallerAt at hat ⊢
      split
      all_goals simp_all
  · exact h

theorem reported_of_reportOf {trace : List Trace} {result : Except SendError (List Id)}
    (h : World.reportOf trace = some result) : .reported result ∈ trace := by
  obtain ⟨x, hx, heq⟩ := List.exists_of_findSome?_eq_some h
  cases x <;> cases heq
  exact hx

theorem leads_task (h : Leads envelopes leases i w) {t : Task} (htask : (w.sends i).task = some t)
    (hstarted : (w.sends i).activation = .started) :
    Leads envelopes leases i (w.act i (t.poll crates w.state reply).state
      { w.sends i with
        task := (t.poll crates w.state reply).task
        result := (World.reportOf (t.poll crates w.state reply).trace).or (w.sends i).result }
      (t.poll crates w.state reply).trace) := by
  have hnext : Task.Next envelopes leases (own i w.log) (t.poll crates w.state reply) :=
    Task.next_poll h.account t (h.task t htask) (h.started hstarted) (h.returned t htask)
  refine leads_act ⟨hnext.1, hnext.2, fun h' => List.mem_append_left _ (h.started h'), fun result hresult => ?_,
    fun t' ht' error hmem => ?_, ?_⟩
  · rcases Option.or_eq_some_iff.mp hresult with hnew | ⟨-, hold⟩
    · exact List.mem_append_right _ (reported_of_reportOf hnew)
    · exact List.mem_append_left _ (h.result result hold)
  · rcases List.mem_append.mp hmem with hold | hnew
    · exact (h.returned t htask error hold).imp_right (List.mem_append_left _)
    · exact (Task.justified t _ hnew).elim
  · have hat := h.caller
    unfold Send.CallerAt at hat ⊢
    split
    all_goals simp_all

theorem leads_other (h : Leads envelopes leases i w) {j : Nat} (hj : j ≠ i) (s' : SourceState) (x : Send)
    (trace : List Trace) : Leads envelopes leases i (w.act j s' x trace) := by
  have hsame : (w.act j s' x trace).sends i = w.sends i := Function.update_of_ne hj.symm ..
  unfold Leads
  rwa [hsame, own_act_other hj]

theorem leads_step (hok : ∀ k, (w.sends k).Ok) (h : Leads envelopes leases i w) (event : Event) :
    Leads envelopes leases i (w.step crates event) := by
  by_cases hi : event.index = i
  · cases event with
    | send j transfers =>
      obtain rfl : j = i := hi
      have hat := h.caller
      rw [World.step]
      split
      · rename_i hcaller
        unfold Send.CallerAt at hat
        rw [hcaller] at hat
        exact hat.elim
      · exact h
    | poll j reply =>
      obtain rfl : j = i := hi
      exact leads_poll h
    | drop j =>
      obtain rfl : j = i := hi
      exact leads_drop h
    | pollTask j reply =>
      obtain rfl : j = i := hi
      rw [World.step, World.pollTask]
      split
      · exact h
      · rename_i t htask
        split
        · exact h
        · exact leads_dropTask h
        · rename_i hstarted
          exact leads_task h htask hstarted
    | dropTask j =>
      obtain rfl : j = i := hi
      exact leads_dropTask h
  · have hacts : Acts crates w event (w.step crates event) := acts_step hok event
    generalize w.step crates event = w' at hacts
    cases hacts with
    | stays => exact h
    | caller event early said => exact leads_other h hi ..
    | task present => exact leads_other h hi ..

theorem leads_steps (hinv : w.Inv) (h : Leads envelopes leases i w) (events : List Event) :
    Leads envelopes leases i (events.foldl (World.step crates) w) := by
  induction events generalizing w with
  | nil => exact h
  | cons event rest ih => exact ih (hinv.step event) (leads_step hinv.ok h event)

/-! ## Before the batch -/

/-- A caller that is still preparing has said nothing. -/
def Untold (w : World) (i : Nat) : Prop :=
  (w.sends i).caller.Preparing → own i w.log = [] ∧ (w.sends i).activation = .pending ∧ (w.sends i).result = none

theorem untold_step (hok : ∀ k, (w.sends k).Ok) (h : Untold w i) (event : Event) :
    Untold (w.step crates event) i := by
  have hacts : Acts crates w event (w.step crates event) := acts_step hok event
  generalize w.step crates event = w' at hacts
  have hother : ∀ {j} s' x trace, j ≠ i → Untold (w.act j s' x trace) i := by
    intro j s' x trace hj
    have hsame : (w.act j s' x trace).sends i = w.sends i := Function.update_of_ne hj.symm ..
    unfold Untold
    rwa [hsame, own_act_other hj]
  have hself : ∀ s' x trace, (w.act i s' x trace).sends i = x := fun s' x trace => Function.update_self ..
  cases hacts with
  | stays => exact h
  | caller event early said =>
    by_cases hi : event.index = i
    · subst hi
      intro hpreparing
      rw [hself] at hpreparing ⊢
      obtain ⟨hbefore, rfl, hx⟩ := early hpreparing
      obtain ⟨hlog, hactivation, hresult⟩ := h hbefore
      refine ⟨by rw [own_act_self, hlog]; rfl, ?_, ?_⟩
      · rw [hx]
        exact hactivation
      · rw [hx]
        exact hresult
    · exact hother _ _ _ hi
  | @task j reply t present =>
    by_cases hi : j = i
    · subst hi
      intro hpreparing
      rw [hself] at hpreparing
      -- It would have a task.
      have hearly : (w.sends j).caller.Early := Caller.Preparing.early hpreparing
      cases present.symm.trans ((hok j).early hearly)
    · exact hother _ _ _ hi

theorem untold_run (crates : Crates) (events : List Event) (i : Nat) : Untold (World.run crates events) i := by
  have hsteps : ∀ {w : World}, w.Inv → Untold w i → Untold (events.foldl (World.step crates) w) i := by
    induction events with
    | nil => exact fun _ h => h
    | cons event rest ih => exact fun hinv h => ih (hinv.step event) (untold_step hinv.ok h event)
  exact hsteps World.inv_empty fun _ => ⟨rfl, rfl, rfl⟩

theorem leads_prepared (hinv : w.Inv) (huntold : Untold w i) {keys : List (Address × Key)} {task : Prepare}
    {batch : PreparedBatch} (hcaller : (w.sends i).caller = .preparing keys task)
    (hready : (task.poll crates keys w.state reply).outcome = .inr (.ok batch)) :
    Leads batch.envelopes batch.leases i (w.step crates (.poll i reply)) := by
  have hpreparing : (w.sends i).caller.Preparing := by rw [hcaller]; trivial
  obtain ⟨hlog, hactivation, hresult⟩ := huntold hpreparing
  have htask : (w.sends i).task = none := (hinv.ok i).early hpreparing.early
  have hstep : w.step crates (.poll i reply) = w.setCaller i (task.poll crates keys w.state reply).state
      (.submitting (.start reply batch)) := by
    simp only [World.step, World.poll, hcaller]
    split
    all_goals simp_all
  rw [hstep]
  refine leads_act ?_
  rw [hlog]
  refine ⟨?_, by simp [htask], by simp [hactivation], by simp [hresult], by simp [htask], ?_⟩
  · refine ⟨fun before e after h => ?_, ⟨[], batch.envelopes, rfl, .nil, .inl rfl⟩, by simp, by simp, by simp⟩
    simp at h
  · unfold Send.CallerAt
    simp only [Submit.start, ensure]
    by_cases hcancelled : reply.cancelled
    · simp only [hcancelled, if_true]
      exact ⟨htask, rfl, refusal_operation _ _⟩
    · simp only [hcancelled]
      cases henvelopes : batch.envelopes with
      | nil => exact ⟨htask, rfl, refusal_operation _ _⟩
      | cons first rest => exact ⟨henvelopes, rfl, rfl, rfl, htask⟩

/-- What one more event says about this send. -/
theorem Leads.says (hinv : w.Inv) (h : Leads envelopes leases i w) {trace : List Trace}
    (htrace : own i (w.step crates event).log = own i w.log ++ trace) :
    (.activated ∈ trace → ∃ reply, event = .poll i reply ∧ reply.registered = true) ∧
      (∀ e, .observed e ∈ trace → ∃ reply, event = .pollTask i reply ∧ Acknowledged crates reply e) ∧
      ∀ result, .reported result ∈ trace → ∀ a ∈ leases,
        (a ∈ (w.step crates event).state.guarded ↔ a ∈ retained envelopes result) := by
  have hacts : Acts crates w event (w.step crates event) := acts_step hinv.ok event
  generalize w.step crates event = w' at hacts htrace
  have hquiet : ∀ {w' : World}, own i w'.log = own i w.log → own i w'.log = own i w.log ++ trace → trace = [] :=
    fun hsame htrace => List.append_right_eq_self.mp (htrace.symm.trans hsame)
  cases hacts with
  | stays =>
    rw [hquiet rfl htrace]
    simp
  | caller event early said =>
    by_cases hi : event.index = i
    · subst hi
      rw [own_act_self] at htrace
      rw [← List.append_cancel_left htrace]
      refine ⟨fun hmem => ?_, fun e hmem => (said _ hmem).elim, fun result hmem => (said _ hmem).elim⟩
      obtain ⟨j, reply, rfl, hregistered⟩ := said _ hmem
      exact ⟨reply, rfl, hregistered⟩
    · rw [hquiet (own_act_other hi ..) htrace]
      simp
  | @task j reply t present =>
    by_cases hi : j = i
    · subst hi
      rw [own_act_self] at htrace
      rw [← List.append_cancel_left htrace]
      have hjustified : ∀ x ∈ (t.poll crates w.state reply).trace, x.Justified crates reply := Task.justified t
      refine ⟨fun hmem => (hjustified _ hmem).elim, fun e hmem => ⟨reply, rfl, hjustified _ hmem⟩, ?_⟩
      intro result hmem a ha
      have hheld : t.held = leases := Task.held_of_reports t (h.task t present) hmem
      have hguarded : ∀ b ∈ t.held, b ∈ w.state.guarded := fun b hb =>
        (hinv.exclusive.guarded b).mpr ⟨j, by rw [present]; exact hb⟩
      change a ∈ (t.poll crates w.state reply).state.guarded ↔ _
      rw [(Task.polls t ((hinv.ok j).task t present)).guarded hguarded, Task.leaves t (h.task t present) result hmem,
        hheld]
      simp [ha]
    · rw [hquiet (own_act_other hi ..) htrace]
      simp

end Steps

namespace World

/-- A prepared batch is sent in order, after the activation and within its lifetime. Every
report agrees with what was sent and observed, and leaves guarded the source of the envelope
whose outcome it calls unknown. What the caller refuses itself is not guarded. -/
theorem submission_account (crates : Crates) (events later : List Event) (i : Nat) (reply : Reply)
    (keys : List (Address × Key)) (task : Prepare) (batch : PreparedBatch)
    (hcaller : ((run crates events).sends i).caller = .preparing keys task)
    (hready : (task.poll crates keys (run crates events).state reply).outcome = .inr (.ok batch)) :
    let w := run crates (events ++ .poll i reply :: later)
    Account batch.envelopes (own i w.log) ∧ CoversAll batch.leases batch.envelopes ∧
      (∀ error, .returned (.error error) ∈ own i w.log → error.failedIndex ≠ none →
        .reported (.error error) ∉ own i w.log → ∀ a, ¬ w.Holds a (.submission i) ∧ ¬ w.Holds a (.ambiguous i)) ∧
      ∀ event trace, own i (w.step crates event).log = own i w.log ++ trace →
        (.activated ∈ trace → ∃ reply', event = .poll i reply' ∧ reply'.registered = true) ∧
        (∀ e, .observed e ∈ trace → ∃ reply', event = .pollTask i reply' ∧ Acknowledged crates reply' e) ∧
        ∀ result, .reported result ∈ trace → ∀ a ∈ batch.leases,
          (a ∈ (w.step crates event).state.guarded ↔ a ∈ retained batch.envelopes result) := by
  have hinv := inv_run crates events
  have hleads := leads_prepared hinv (untold_run crates events i) hcaller hready
  have hrun : run crates (events ++ .poll i reply :: later) =
      later.foldl (step crates) ((run crates events).step crates (.poll i reply)) := by
    rw [run, List.foldl_append, List.foldl_cons]
    rfl
  have hinv' := inv_run crates (events ++ .poll i reply :: later)
  have hlater : Leads batch.envelopes batch.leases i (run crates (events ++ .poll i reply :: later)) := by
    rw [hrun]
    exact leads_steps (hinv.step _) hleads later
  refine ⟨hlater.account, ?_, fun error hreturned hindex hreported a => ?_,
    fun event trace htrace => hlater.says hinv' htrace⟩
  swap
  · have hnone : ∀ t, t ∉ ((run crates (events ++ .poll i reply :: later)).sends i).task := fun t ht =>
      (hlater.returned t ht error hreturned).elim hindex hreported
    exact ⟨fun ⟨t, ht, _⟩ => hnone t ht, fun ⟨t, ht, _⟩ => hnone t ht⟩
  have hok : task.Ok := by
    have := (hinv.ok i).caller
    rwa [hcaller] at this
  have hpolls : Prepare.Polls (run crates events).state task (task.poll crates keys (run crates events).state reply) :=
    Prepare.polls task hok
  generalize task.poll crates keys (run crates events).state reply = p at hpolls hready
  cases hpolls with
  | stays => cases hready
  | fails => cases hready
  | prepares leases covered =>
    cases hready
    exact covered

/-- Crates with short texts. Address 9 has its own, and so has what is signed for 30. -/
def sampleCrates : Crates where
  publicKey := Provider.sampleNative.publicKey
  parse := Provider.sampleNative.parse
  render a := if a.bytes.getLast? = some 9 then "9" else "7"
  onCurve _ := true
  wireBytes m := some (m.amount.toUInt8 :: m.memo)
  sign secret bytes := secret ++ bytes
  verify _ bytes signature := bytes.isSuffixOf signature
  encode signature _ := some signature
  parseSignature id := some (if id == "second" then [30] else [20])
  renderSignature bytes := if bytes.contains 30 then "second" else "first"

/-- A node that answers every question and accepts the first of the transactions. -/
def sampleReply : Reply where
  health := some "ok"
  slot := some 1
  accounts := some ⟨1, [some ⟨Address.zero, 100, false, []⟩, none]⟩
  lifetime := some ⟨1, [1], 10⟩
  memo position := some [position.toUInt8]
  fee := some ⟨1, some 5⟩
  simulation := some ⟨1, false⟩
  blockHeight := some 5
  sent := some "first"
  registered := true

def sampleTransfer (amount : UInt64) : NativeTransfer :=
  ⟨Provider.sampleWallet.key.address, Provider.sampleWallet, ⟨List.replicate 30 0 ++ [0, 9], by simp⟩, amount⟩

/-- One source pays twice. Up to the simulation of the second envelope. -/
def sampleEvents : List Event :=
  .send 0 [sampleTransfer 20, sampleTransfer 30] :: List.replicate 9 (.poll 0 sampleReply)

def sampleEnvelope (index : Nat) (amount : UInt64) (id : Id) : Envelope where
  source := (sampleTransfer amount).source
  index
  message := ⟨(sampleTransfer amount).source, (sampleTransfer amount).destination, amount, [index.toUInt8], [1]⟩
  signature := List.replicate 32 7 ++ [amount.toUInt8, index.toUInt8]
  id
  signed := List.replicate 32 7 ++ [amount.toUInt8, index.toUInt8]
  floor := 1
  lifetime := ⟨[1], 10⟩

def sampleBatch : PreparedBatch :=
  ⟨1, [sampleEnvelope 0 20 "first", sampleEnvelope 1 30 "second"], {(sampleTransfer 20).source}⟩

/-- The first envelope is accepted. The second one is sent once, and its outcome is unknown. -/
theorem submission_account_unknown : ∃ keys task,
    ((run sampleCrates sampleEvents).sends 0).caller = .preparing keys task ∧
      (task.poll sampleCrates keys (run sampleCrates sampleEvents).state sampleReply).outcome =
        .inr (.ok sampleBatch) ∧
      Account sampleBatch.envelopes [.height 5, .activated, .sent (sampleEnvelope 0 20 "first"),
        .observed (sampleEnvelope 0 20 "first"), .height 5, .sent (sampleEnvelope 1 30 "second"),
        .reported (.error (unknownOutcome (sampleEnvelope 1 30 "second") ["first"]))] := by
  refine ⟨_, _, rfl, rfl, ?_⟩
  let later : List Event := List.replicate 2 (.poll 0 sampleReply) ++ List.replicate 5 (.pollTask 0 sampleReply)
  have hlog : own 0 (run sampleCrates (sampleEvents ++ .poll 0 sampleReply :: later)).log =
      [.height 5, .activated, .sent (sampleEnvelope 0 20 "first"), .observed (sampleEnvelope 0 20 "first"),
        .height 5, .sent (sampleEnvelope 1 30 "second"),
        .reported (.error (unknownOutcome (sampleEnvelope 1 30 "second") ["first"]))] := rfl
  rw [← hlog]
  exact (submission_account sampleCrates sampleEvents later 0 sampleReply _ _ sampleBatch rfl rfl).1

end World

end PaymentSdk.Solana
