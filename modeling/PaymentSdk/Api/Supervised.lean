import PaymentSdk.Api.Submissions
import PaymentSdk.Solana.Outcome

/-!
# Submissions under the supervisor

The sends of one source coordinator register their tasks with the supervisor. A task is polled
only while the supervisor runs it, and dropped with its command. While no task panics, a run of
both is a run of the sends, and a supervisor that ends well leaves no submission behind.
-/

open Interaction

namespace PaymentSdk.Submissions

open Solana (World Crates Reply NativeTransfer Caller Send Submit)

/-- The sends of the wallets and the supervisor that owns their tasks. -/
structure Service where
  world : World := {}
  supervisor : Supervisor

/-! ## Steps -/

def Command.task? : Command → Option Nat
  | .insert i => some i
  | .close _ => none

def Event.command? : Event → Option Command
  | .begin c | .permit c | .push c | .poll c | .drop c => some c
  | .clone | .release | .serve | .join _ | .ended _ _ => none

/-- Steps of the channel and the supervisor, and of the calls of `close`. A task ends in a poll
of its own. -/
def Event.own : Event → Bool
  | .permit _ | .push _ | .serve | .join _ | .clone | .release => true
  | .begin c | .poll c | .drop c => c.task? = none
  | .ended _ _ => false

/-- The tasks that a step drops: of the commands in the channel, or of the call that moves. -/
def givenUp (s s' : Supervisor) (event : Event) : List Nat :=
  ((s.queue ++ event.command?.toList).filterMap Command.task?).filter (s'.status · = .dropped)

/-- The tasks that a step cuts off: one that panics, or what still runs when the supervisor
returns. -/
def cutOff (s s' : Supervisor) : List Nat :=
  s.tasks.filter fun i => s.status i = .running ∧ (s'.status i = .panicked ∨ s'.status i = .aborted)

/-- The future of a task is dropped where it stands, and what it guards is given back. -/
def unwind (w : World) (i : Nat) : World :=
  match (w.sends i).task with
  | none => w
  | some task => w.act i (w.state.dropGuard task.guarded) { w.sends i with task := none } []

/-- One step of a caller, of a task, or of the supervisor. -/
inductive Act where
  | send (i : Nat) (transfers : List NativeTransfer)
  | poll (i : Nat) (reply : Reply)
  | drop (i : Nat)
  | pollTask (i : Nat) (reply : Reply)
  | panicTask (i : Nat)
  | supervise (event : Event)

/-- What a poll of `register` comes to. -/
def registerEvent (i : Nat) : Call → Event
  | .fresh => .begin (.insert i)
  | _ => .poll (.insert i)

namespace Service

variable (crates : Crates) (v : Service)

/-- `i` waits for its registration. -/
def registering (i : Nat) : Bool :=
  match (v.world.sends i).caller with
  | .submitting .registering => true
  | _ => false

/-- A step of the supervisor. What it drops or cuts off is dropped with its guard. -/
def advance (event : Event) : Service where
  world := (cutOff v.supervisor (step v.supervisor event)).foldl unwind
    ((givenUp v.supervisor (step v.supervisor event) event).foldl World.dropTask v.world)
  supervisor := step v.supervisor event

/-- The future of `register` is dropped, and a task that it has not sent with it. -/
def abandon (i : Nat) : Service :=
  match v.supervisor.calls (.insert i) with
  | .fresh => { v with world := v.world.dropTask i }
  | _ => v.advance (.drop (.insert i))

/-- The caller awaits `register`. A sender with a permit is in the middle of a poll. -/
def pollRegister (i : Nat) (reply : Reply) : Service :=
  match v.supervisor.calls (.insert i) with
  | .permitted => v
  | call =>
    if reply.interrupted then { v.abandon i with world := (v.abandon i).world.poll crates i reply }
    else
      let u := v.advance (registerEvent i call)
      match u.supervisor.calls (.insert i) with
      | .returned (.ok _) => { u with world := u.world.poll crates i { reply with registered := true } }
      | .returned (.error _) => { u with world := u.world.poll crates i { reply with registered := false } }
      | _ => u

/-- The caller of `i` goes away. Its task does not. -/
def drop (i : Nat) : Service :=
  if v.registering i then
    match v.supervisor.calls (.insert i) with
    | .permitted => v
    | _ => { v.abandon i with world := (v.abandon i).world.drop i }
  else { v with world := v.world.drop i }

/-- A spawned task is polled. Its future ends when the task is gone. -/
def pollTask (i : Nat) (reply : Reply) : Service :=
  if v.supervisor.status i = .running then
    let w := v.world.pollTask crates i reply
    { world := w, supervisor := if (w.sends i).task.isNone then v.supervisor.endTask i false else v.supervisor }
  else v

/-- A poll of an activated task panics. A task that waits for its activation cannot. -/
def panicTask (i : Nat) : Service :=
  if (v.world.sends i).activation = .started then v.advance (.ended i true) else v

def step : Act → Service
  | .send i transfers => { v with world := v.world.step crates (.send i transfers) }
  | .poll i reply =>
    if v.registering i then v.pollRegister crates i reply else { v with world := v.world.poll crates i reply }
  | .drop i => v.drop i
  | .pollTask i reply => v.pollTask crates i reply
  | .panicTask i => v.panicTask i
  | .supervise event => if event.own then v.advance event else v

def run (acts : List Act) : Service := acts.foldl (step crates) v

end Service

/-! ## What becomes of one task in a step of the supervisor -/

section Fates

variable {s : Supervisor} {i : Nat}

inductive Fate (s s' : Supervisor) (event : Event) (i : Nat) : Prop
  | stays (ack : s'.acks (.insert i) = s.acks (.insert i)) (status : s'.status i = s.status i)
    (queued : .insert i ∈ s.queue → .insert i ∈ s'.queue)
  | taken (pending : s.acks (.insert i) = .pending) (ack : s'.acks (.insert i) = .sent) (status : s'.status i = .running)
  | dropped (pending : s.acks (.insert i) = .pending) (ack : s'.acks (.insert i) = .lost)
    (status : s'.status i = .dropped) (given : i ∈ givenUp s s' event)
  | joined (completed : s.status i = .completed) (ack : s'.acks (.insert i) = s.acks (.insert i))
    (status : s'.status i = .joined)
  | panics (running : s.status i = .running) (status : s'.status i = .panicked) (panic : event = .ended i true)
  | aborts (running : s.status i = .running) (status : s'.status i = .aborted) (cause : ∃ j, s.status j = .panicked)

theorem mem_givenUp {s s' : Supervisor} {event : Event} : i ∈ givenUp s s' event ↔
    (.insert i ∈ s.queue ∨ event.command? = some (.insert i)) ∧ s'.status i = .dropped := by
  have htask : ∀ c : Command, c.task? = some i ↔ c = .insert i := by
    intro c
    cases c <;> simp [Command.task?]
  simp [givenUp, htask, or_and_right]

theorem fate_discard {c : Command} {queue : List Command} {event : Event} (hpending : s.acks c = .pending)
    (hgiven : c ∈ s.queue ∨ event.command? = some c) (hother : ∀ d, d ≠ c → d ∈ s.queue → d ∈ queue) (i : Nat) :
    Fate s ({ s with queue := queue }.discard c) event i := by
  by_cases hi : c = .insert i
  · subst hi
    have hstatus : ({ s with queue := queue }.discard (.insert i)).status i = .dropped := by
      rw [discard_status, if_pos rfl]
    exact .dropped hpending (by rw [discard_acks, if_pos rfl]) hstatus (mem_givenUp.mpr ⟨hgiven, hstatus⟩)
  · refine .stays ?_ ?_ ?_
    · rw [discard_acks, if_neg fun h => hi h.symm]
    · rw [discard_status, if_neg hi]
    · exact hother (.insert i) fun h => hi h.symm

theorem Fate.congr {s' t : Supervisor} {event : Event} (h : Fate s s' event i) (hacks : t.acks = s'.acks)
    (hstatus : t.status = s'.status) (hqueue : t.queue = s'.queue) : Fate s t event i := by
  cases h with
  | stays ack status queued => exact .stays (hacks ▸ ack) (hstatus ▸ status) (hqueue ▸ queued)
  | taken pending ack status => exact .taken pending (hacks ▸ ack) (hstatus ▸ status)
  | dropped pending ack status given =>
    have hstatus' : t.status i = .dropped := hstatus ▸ status
    exact .dropped pending (hacks ▸ ack) hstatus' (mem_givenUp.mpr ⟨(mem_givenUp.mp given).1, hstatus'⟩)
  | joined completed ack status => exact .joined completed (hacks ▸ ack) (hstatus ▸ status)
  | panics running status panic => exact .panics running (hstatus ▸ status) panic
  | aborts running status cause => exact .aborts running (hstatus ▸ status) cause

/-- When the run returns, the channel is dropped with what is in it, and what still runs is
aborted. -/
theorem fate_returns (h : Inv s) {result : Except Nat Unit} {event : Event} (i : Nat)
    (hcause : s.status i = .running → ∃ j, s.status j = .panicked) : Fate s (s.returns result) event i := by
  by_cases hqueued : Command.insert i ∈ s.queue
  · have hstatus : (s.returns result).status i = .dropped := by simp [Supervisor.returns, hqueued]
    exact .dropped (h.of_queued hqueued).1 (by simp [Supervisor.returns, hqueued]) hstatus
      (mem_givenUp.mpr ⟨.inl hqueued, hstatus⟩)
  · by_cases hrunning : s.status i = .running
    · exact .aborts hrunning (by simp [Supervisor.returns, hqueued, hrunning]) (hcause hrunning)
    · refine .stays ?_ ?_ fun hmem => absurd hmem hqueued
      · simp [Supervisor.returns, hqueued]
      · simp [Supervisor.returns, hqueued, hrunning]

theorem fate_serve (h : Inv s) (i : Nat) : Fate s s.serve .serve i := by
  unfold Supervisor.serve
  split
  · rename_i j rest hphase hqueue
    by_cases hij : i = j
    · subst hij
      exact .taken (h.of_queued (by simp [hqueue])).1 (by simp) (by simp)
    · refine .stays ?_ ?_ ?_
      · simp [hij]
      · simp [hij]
      · simp [hqueue, hij]
  · rename_i j rest hphase hqueue
    refine .stays ?_ rfl ?_
    · simp
    · simp [hqueue]
  · split <;> exact .stays rfl rfl id
  · rename_i c rest hphase hqueue
    refine fate_discard (h.of_queued (by simp [hqueue])).1 (.inl (by simp [hqueue])) ?_ i
    intro d hd hmem
    simpa [hqueue, hd] using hmem
  · exact .stays rfl rfl id
  · split
    · rename_i hempty
      refine fate_returns h i fun hrunning => ?_
      have := h.running i hrunning
      rw [hempty] at this
      cases this
    · exact .stays rfl rfl id
  · exact .stays rfl rfl id

theorem fate_join (h : Inv s) (j i : Nat) : Fate s (s.join j) (.join j) i := by
  have hjoined : s.status j = .completed →
      Fate s { s with tasks := s.tasks.erase j, status := Function.update s.status j .joined } (.join j) i := by
    intro hstatus
    by_cases hij : i = j
    · subst hij
      exact .joined hstatus rfl (by simp)
    · exact .stays rfl (by simp [hij]) id
  unfold Supervisor.join
  split
  · split
    · exact hjoined (by assumption)
    · exact hjoined (by assumption)
    · exact fate_returns h i fun _ => ⟨j, by assumption⟩
    · exact fate_returns h i fun _ => ⟨j, by assumption⟩
    · exact .stays rfl rfl id
  · exact .stays rfl rfl id

theorem fate_panic (j i : Nat) : Fate s (s.endTask j true) (.ended j true) i := by
  unfold Supervisor.endTask
  split
  · rename_i hrunning
    by_cases hij : i = j
    · subst hij
      exact .panics hrunning (by simp) rfl
    · exact .stays rfl (by simp [hij]) id
  · exact .stays rfl rfl id

theorem step_fate (h : Inv s) (event : Event) (hevent : ∀ j, event ≠ .ended j false) (i : Nat) :
    Fate s (step s event) event i := by
  cases event with
  | serve => exact fate_serve h i
  | join j => exact fate_join h j i
  | poll c =>
    rw [step, Supervisor.poll]
    split
    · rename_i hcall
      split
      · exact .stays rfl rfl id
      · have hpending := ((h.custody c).of_early (.inr (.inl hcall))).2
        exact (@fate_discard s c s.queue (.poll c) hpending (.inr rfl) (fun _ _ => id) i).congr rfl rfl rfl
    · split <;> exact .stays rfl rfl id
    · exact .stays rfl rfl id
  | drop c =>
    rw [step, Supervisor.drop]
    split
    · rename_i hcall
      have hpending := ((h.custody c).of_early (.inr (.inl hcall))).2
      exact (@fate_discard s c s.queue (.drop c) hpending (.inr rfl) (fun _ _ => id) i).congr rfl rfl rfl
    · exact .stays rfl rfl id
    · exact .stays rfl rfl id
  | ended j panicked =>
    cases panicked with
    | true => exact fate_panic j i
    | false => exact absurd rfl (hevent j)
  | push c =>
    rw [step, Supervisor.push]
    split
    · exact .stays rfl rfl (List.mem_append_left _)
    · exact .stays rfl rfl id
  | begin c | permit c | clone | release =>
    simp only [step, Supervisor.begin, Supervisor.permit, Supervisor.release]
    repeat' split
    all_goals exact .stays rfl rfl id

theorem step_panicked (h : Inv s) (hi : s.status i = .panicked) (event : Event) :
    (step s event).status i = .panicked := by
  by_cases hevent : ∃ j, event = .ended j false
  · obtain ⟨j, rfl⟩ := hevent
    rw [step, Supervisor.endTask]
    split
    · rename_i hrunning
      have hij : i ≠ j := by
        rintro rfl
        simp [hi] at hrunning
      simpa [hij] using hi
    · exact hi
  · cases step_fate h event (fun j hj => hevent ⟨j, hj⟩) i with
    | stays _ hstatus _ => rw [hstatus, hi]
    | taken hpending _ _ | dropped hpending _ _ _ => simp [h.status_of_pending hpending] at hi
    | joined hcompleted _ _ => simp [hcompleted] at hi
    | panics hrunning _ _ | aborts hrunning _ _ => simp [hrunning] at hi

theorem run_panicked (h : Inv s) (hi : s.status i = .panicked) (events : List Event) :
    (run s events).status i = .panicked := by
  induction events generalizing s with
  | nil => exact hi
  | cons event rest ih => exact ih (step_inv h event) (step_panicked h hi event)

theorem Inv.not_panicked (h : Inv s) (hphase : s.phase = .returned (.ok ())) (i : Nat) : s.status i ≠ .panicked := by
  intro hi
  have hfailed : ¬ s.phase.Failed := by
    rintro ⟨j, hfailed⟩
    simp [hphase] at hfailed
  have hmem := ((h.whole.resolve_left hfailed) i).1 (.inr (.inr hi))
  rw [h.returned _ hphase] at hmem
  cases hmem

/-- The run of the supervisor has not seen a panic. -/
def Supervisor.Calm (s : Supervisor) : Prop := ∀ i, s.status i ≠ .panicked ∧ s.status i ≠ .aborted

theorem calm_step (h : Inv s) (hcalm : s.Calm) (event : Event) (hnone : ∀ i, (step s event).status i ≠ .panicked) :
    (step s event).Calm := by
  refine fun i => ⟨hnone i, ?_⟩
  by_cases hevent : ∃ j, event = .ended j false
  · obtain ⟨j, rfl⟩ := hevent
    rw [step, Supervisor.endTask]
    split
    · by_cases hij : i = j
      · simp [hij]
      · simpa [hij] using (hcalm i).2
    · exact (hcalm i).2
  · cases step_fate h event (fun j hj => hevent ⟨j, hj⟩) i with
    | stays _ hstatus _ =>
      rw [hstatus]
      exact (hcalm i).2
    | taken _ _ hstatus | dropped _ _ hstatus _ | joined _ _ hstatus | panics _ hstatus _ => simp [hstatus]
    | aborts _ _ hcause =>
      obtain ⟨j, hj⟩ := hcause
      exact absurd hj (hcalm j).1

theorem calm_run (h : Inv s) (hcalm : s.Calm) (events : List Event)
    (hnone : ∀ i, (run s events).status i ≠ .panicked) : (run s events).Calm := by
  induction events generalizing s with
  | nil => exact hcalm
  | cons event rest ih =>
    have hinv := step_inv h event
    refine ih hinv (calm_step h hcalm event fun i hi => ?_) hnone
    exact hnone i (run_panicked hinv hi rest)

theorem calm_of_other (h : Inv s) (hcalm : s.Calm) (event : Event) (hevent : ∀ j panicked, event ≠ .ended j panicked) :
    (step s event).Calm := by
  refine calm_step h hcalm event fun i hi => ?_
  cases step_fate h event (fun j => hevent j false) i with
  | stays _ hstatus _ => exact (hcalm i).1 (hstatus ▸ hi)
  | taken _ _ hstatus | dropped _ _ hstatus _ | joined _ _ hstatus | aborts _ hstatus _ => simp [hstatus] at hi
  | panics _ _ hpanic => exact hevent i true hpanic

theorem cutOff_calm {s' : Supervisor} (hcalm : s'.Calm) : cutOff s s' = [] := by
  rw [cutOff, List.filter_eq_nil_iff]
  intro i _
  simp [(hcalm i).1, (hcalm i).2]

end Fates

/-! ## The runs of the sends -/

section Runs

variable {crates : Crates} {v : Service} {i : Nat}

/-- Some steps of the sends lead from one world to the other. -/
def Follow (crates : Crates) (w w' : World) : Prop :=
  ∃ events : List Solana.Event, w' = events.foldl (World.step crates) w

theorem follow_refl (w : World) : Follow crates w w := ⟨[], rfl⟩

theorem follow_step (w : World) (event : Solana.Event) : Follow crates w (w.step crates event) := ⟨[event], rfl⟩

theorem Follow.trans {w w' w'' : World} (h : Follow crates w w') (h' : Follow crates w' w'') : Follow crates w w'' := by
  obtain ⟨events, rfl⟩ := h
  obtain ⟨later, rfl⟩ := h'
  exact ⟨events ++ later, by rw [List.foldl_append]⟩

theorem follow_dropTasks (w : World) (tasks : List Nat) : Follow crates w (tasks.foldl World.dropTask w) := by
  induction tasks generalizing w with
  | nil => exact follow_refl w
  | cons i rest ih => exact (follow_step w (.dropTask i)).trans (ih _)

theorem advance_world (event : Event) (hcalm : (step v.supervisor event).Calm) :
    (v.advance event).world =
      (givenUp v.supervisor (step v.supervisor event) event).foldl World.dropTask v.world := by
  rw [Service.advance, cutOff_calm hcalm, List.foldl_nil]

theorem follow_advance (event : Event) (hcalm : (step v.supervisor event).Calm) :
    Follow crates v.world (v.advance event).world := by
  rw [advance_world event hcalm]
  exact follow_dropTasks _ _

theorem follow_abandon (h : Inv v.supervisor) (hcalm : v.supervisor.Calm) (i : Nat) :
    Follow crates v.world (v.abandon i).world := by
  unfold Service.abandon
  split
  · exact follow_step v.world (.dropTask i)
  · exact follow_advance _ (calm_of_other h hcalm _ (by simp))

theorem follow_pollRegister (h : Inv v.supervisor) (hcalm : v.supervisor.Calm) (i : Nat) (reply : Reply) :
    Follow crates v.world (v.pollRegister crates i reply).world := by
  have hpoll : ∀ (w : World) (reply : Reply), Follow crates w (w.poll crates i reply) :=
    fun w reply => follow_step w (.poll i reply)
  unfold Service.pollRegister
  split
  · exact follow_refl _
  · split
    · exact (follow_abandon h hcalm i).trans (hpoll _ _)
    · have hadvance : ∀ call, Follow crates v.world (v.advance (registerEvent i call)).world := by
        intro call
        refine follow_advance _ (calm_of_other h hcalm _ ?_)
        unfold registerEvent
        split <;> simp
      dsimp only
      split
      · exact (hadvance _).trans (hpoll _ _)
      · exact (hadvance _).trans (hpoll _ _)
      · exact hadvance _

/-- While nothing panics, a step under the supervisor is some steps of the sends. -/
theorem follow (h : Inv v.supervisor) (hcalm : v.supervisor.Calm) (act : Act)
    (hstep : (v.step crates act).supervisor.Calm) : Follow crates v.world (v.step crates act).world := by
  cases act with
  | send i transfers => exact follow_step v.world (.send i transfers)
  | poll i reply =>
    rw [Service.step]
    split
    · exact follow_pollRegister h hcalm i reply
    · exact follow_step v.world (.poll i reply)
  | drop i =>
    rw [Service.step, Service.drop]
    split
    · split
      · exact follow_refl _
      · exact (follow_abandon h hcalm i).trans (follow_step _ (.drop i))
    · exact follow_step v.world (.drop i)
  | pollTask i reply =>
    rw [Service.step, Service.pollTask]
    split
    · exact follow_step v.world (.pollTask i reply)
    · exact follow_refl _
  | panicTask i =>
    rw [Service.step, Service.panicTask] at hstep ⊢
    split
    · rename_i hstarted
      rw [if_pos hstarted] at hstep
      exact follow_advance _ hstep
    · exact follow_refl _
  | supervise event =>
    rw [Service.step] at hstep ⊢
    split
    · rename_i hown
      rw [if_pos hown] at hstep
      exact follow_advance _ hstep
    · exact follow_refl _

/-! ## What is said while no task is polled -/

/-- A caller says it. What a task sends and reports is not among it. -/
def ByCaller : Solana.Trace → Prop
  | .height _ | .activated | .returned _ => True
  | .sent _ | .observed _ | .reported _ | .resolved _ _ => False

/-- Only callers add to the log. -/
def Quiet (w w' : World) : Prop := ∃ more, w'.log = w.log ++ more ∧ ∀ x ∈ more, ByCaller x.2

theorem quiet_same {w w' : World} (h : w'.log = w.log) : Quiet w w' := ⟨[], by simpa using h, by simp⟩

theorem Quiet.trans {w w' w'' : World} (h : Quiet w w') (h' : Quiet w' w'') : Quiet w w'' := by
  obtain ⟨first, hfirst, hquiet⟩ := h
  obtain ⟨more, hmore, hrest⟩ := h'
  refine ⟨first ++ more, by rw [hmore, hfirst, List.append_assoc], fun x hx => ?_⟩
  exact (List.mem_append.mp hx).elim (hquiet x) (hrest x)

theorem quiet_acts {w w' : World} {event : Solana.Event} (h : Solana.Acts crates w event w')
    (hevent : ∀ i reply, event ≠ .pollTask i reply) : Quiet w w' := by
  cases h with
  | stays => exact quiet_same rfl
  | @caller event s' x trace early said =>
    refine ⟨trace.map (event.index, ·), rfl, fun y hy => ?_⟩
    obtain ⟨t, ht, rfl⟩ := List.mem_map.mp hy
    have := said t ht
    cases t <;> trivial
  | task _ => exact absurd rfl (hevent _ _)

theorem quiet_poll (w : World) (i : Nat) (reply : Reply) : Quiet w (w.poll crates i reply) :=
  @quiet_acts crates _ _ _ Solana.acts_poll (by simp)

theorem log_dropTask (w : World) (i : Nat) : (w.dropTask i).log = w.log := by
  unfold World.dropTask
  repeat' split
  all_goals simp [World.act]

theorem log_unwind (w : World) (i : Nat) : (unwind w i).log = w.log := by
  unfold unwind
  split <;> simp [World.act]

theorem log_advance (event : Event) : (v.advance event).world.log = v.world.log := by
  have hfold : ∀ (f : World → Nat → World), (∀ w i, (f w i).log = w.log) →
      ∀ (tasks : List Nat) (w : World), (tasks.foldl f w).log = w.log := by
    intro f hf tasks
    induction tasks with
    | nil => exact fun _ => rfl
    | cons i rest ih => exact fun w => (ih _).trans (hf w i)
  rw [Service.advance]
  exact (hfold unwind log_unwind _ _).trans (hfold World.dropTask log_dropTask _ _)

theorem log_abandon (i : Nat) : (v.abandon i).world.log = v.world.log := by
  unfold Service.abandon
  split
  · exact log_dropTask _ _
  · exact log_advance _

/-- A step in which no task is polled. -/
theorem quiet_step (hidle : ∀ i, v.supervisor.status i ≠ .running) (act : Act) :
    Quiet v.world (v.step crates act).world := by
  cases act with
  | send i transfers => exact quiet_acts (Solana.acts_send transfers) (by simp)
  | poll i reply =>
    rw [Service.step]
    split
    · unfold Service.pollRegister
      split
      · exact quiet_same rfl
      · split
        · exact (quiet_same (log_abandon i)).trans (quiet_poll _ i reply)
        · have hadvance := fun event => quiet_same (@log_advance v event)
          dsimp only
          split
          · exact (hadvance _).trans (quiet_poll _ i _)
          · exact (hadvance _).trans (quiet_poll _ i _)
          · exact hadvance _
    · exact quiet_poll _ i reply
  | drop i =>
    have hdrop : ∀ w : World, Quiet w (w.drop i) := fun w => @quiet_acts crates _ _ _ Solana.acts_drop (by simp)
    rw [Service.step, Service.drop]
    split
    · split
      · exact quiet_same rfl
      · exact (quiet_same (log_abandon i)).trans (hdrop _)
    · exact hdrop _
  | pollTask i reply =>
    rw [Service.step, Service.pollTask, if_neg (hidle i)]
    exact quiet_same rfl
  | panicTask i =>
    rw [Service.step, Service.panicTask]
    split
    · exact quiet_same (log_advance _)
    · exact quiet_same rfl
  | supervise event =>
    rw [Service.step]
    split
    · exact quiet_same (log_advance _)
    · exact quiet_same rfl

end Runs

end PaymentSdk.Submissions
