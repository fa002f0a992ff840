import Mathlib.Logic.Function.Basic
import Mathlib.Data.List.Nodup
import PaymentSdk.Lib.Run

/-!
# The supervisor of submission tasks

Callers hand their tasks over through a bounded channel and wait for an acknowledgement. The
supervisor owns what it has taken. After a close it drops what is still in the channel, and its
run ends when every task that it owns has ended.
-/

open Interaction

namespace PaymentSdk.Submissions

/-- Why a registration fails: the supervisor takes no more, or its answer was lost. -/
inductive RegistrationError where
  | closed
  | acknowledgementLost
  deriving DecidableEq

/-- A call of `insert` goes by its task, and a call of `close` by its own number. -/
inductive Command where
  | insert (task : Nat)
  | close (call : Nat)
  deriving DecidableEq

/-- Where a call stands. With a permit, the command is pushed before the next await. -/
inductive Call where
  | fresh
  | sending
  | permitted
  | awaiting
  | returned (result : Except RegistrationError Unit)
  | dropped

/-- What has become of the sender of the acknowledgement. -/
inductive Acknowledgement where
  | pending
  | sent
  | lost
  deriving DecidableEq

/-- A task is `unregistered` while its caller or its command has it. -/
inductive Task where
  | unregistered
  | running
  | completed
  | panicked
  | joined
  | aborted
  | dropped
  deriving DecidableEq

/-- Where `run` stands. `draining` is the loop over `try_recv`, `joining` the last one. -/
inductive Phase where
  | serving
  | draining
  | joining
  | returned (result : Except Nat Unit)

/-- The channel, the supervisor and the calls. `tasks` is the `JoinSet`. -/
structure Supervisor where
  capacity : Nat
  positive : 0 < capacity
  queue : List Command := []
  permits : List Command := []
  accepting : Bool := true
  senders : Nat := 2
  active : Nat := 0
  phase : Phase := .serving
  tasks : List Nat := []
  calls : Command → Call := fun _ => .fresh
  acks : Command → Acknowledgement := fun _ => .pending
  status : Nat → Task := fun _ => .unregistered

namespace Supervisor

/-- The registrar and the control are the first two senders. -/
def new (capacity : Nat) : Except String Supervisor :=
  if h : capacity = 0 then .error "submission queue capacity must be positive"
  else .ok { capacity := capacity, positive := Nat.pos_of_ne_zero h }

variable (s : Supervisor)

/-- The command is dropped, and its task and the sender of its acknowledgement with it. -/
def discard (c : Command) : Supervisor :=
  { s with
    acks := Function.update s.acks c .lost
    status := match c with
      | .insert i => Function.update s.status i .dropped
      | .close _ => s.status }

def setCall (c : Command) (call : Call) : Supervisor := { s with calls := Function.update s.calls c call }

/-! ## A call -/

def begin (c : Command) : Supervisor :=
  match s.calls c with
  | .fresh => if s.senders = 0 then s else { s.setCall c .sending with active := s.active + 1 }
  | _ => s

/-- The channel has room for what was sent and for what may be sent. -/
def permit (c : Command) : Supervisor :=
  match s.calls c with
  | .sending =>
    if s.accepting ∧ s.queue.length + s.permits.length < s.capacity then
      { s.setCall c .permitted with permits := c :: s.permits }
    else s
  | _ => s

/-- A permit stays good after the channel has closed. -/
def push (c : Command) : Supervisor :=
  match s.calls c with
  | .permitted => { s.setCall c .awaiting with permits := s.permits.erase c, queue := s.queue ++ [c] }
  | _ => s

def finish (c : Command) (result : Except RegistrationError Unit) : Supervisor :=
  { s.setCall c (.returned result) with active := s.active - 1 }

def poll (c : Command) : Supervisor :=
  match s.calls c with
  | .sending => if s.accepting then s else (s.discard c).finish c (.error .closed)
  | .awaiting => match s.acks c with
    | .pending => s
    | .sent => s.finish c (.ok ())
    | .lost => s.finish c (.error .acknowledgementLost)
  | _ => s

/-- The future of the call is dropped at an await. -/
def drop (c : Command) : Supervisor :=
  match s.calls c with
  | .sending => { (s.discard c).setCall c .dropped with active := s.active - 1 }
  | .awaiting => { s.setCall c .dropped with active := s.active - 1 }
  | _ => s

/-- A sender is dropped. The last one cannot be while a call borrows it. -/
def release : Supervisor :=
  if s.senders = 1 ∧ s.active ≠ 0 then s else { s with senders := s.senders - 1 }

/-! ## The run -/

/-- The receiver and the task set are dropped. -/
def returns (result : Except Nat Unit) : Supervisor :=
  { s with
    phase := .returned result
    accepting := false
    queue := []
    tasks := []
    acks := fun c => if c ∈ s.queue then .lost else s.acks c
    status := fun i =>
      if .insert i ∈ s.queue then .dropped
      else if s.status i = .running then .aborted
      else s.status i }

/-- The next command, or the end of the loop that `run` is in. -/
def serve : Supervisor :=
  match s.phase, s.queue with
  | .serving, .insert i :: rest =>
    { s with
      queue := rest
      tasks := s.tasks ++ [i]
      status := Function.update s.status i .running
      acks := Function.update s.acks (.insert i) .sent }
  | .serving, .close j :: rest =>
    { s with
      queue := rest
      accepting := false
      acks := Function.update s.acks (.close j) .sent
      phase := .draining }
  | .serving, [] => if s.senders = 0 then { s with phase := .draining } else s
  | .draining, c :: rest => { s with queue := rest }.discard c
  | .draining, [] => { s with phase := .joining }
  | .joining, _ => if s.tasks = [] then s.returns (.ok ()) else s
  | .returned _, _ => s

/-- `join_next` gives a task that has ended. A panic ends the run. -/
def join (i : Nat) : Supervisor :=
  if i ∈ s.tasks then
    match s.phase, s.status i with
    | .serving, .completed | .joining, .completed =>
      { s with tasks := s.tasks.erase i, status := Function.update s.status i .joined }
    | .serving, .panicked | .joining, .panicked => s.returns (.error i)
    | _, _ => s
  else s

/-- The future of a running task ends. -/
def endTask (i : Nat) (panicked : Bool) : Supervisor :=
  match s.status i with
  | .running => { s with status := Function.update s.status i (if panicked then .panicked else .completed) }
  | _ => s

end Supervisor

inductive Event where
  | begin (c : Command)
  | permit (c : Command)
  | push (c : Command)
  | poll (c : Command)
  | drop (c : Command)
  | clone
  | release
  | serve
  | join (task : Nat)
  | ended (task : Nat) (panicked : Bool)

def step (s : Supervisor) : Event → Supervisor
  | .begin c => s.begin c
  | .permit c => s.permit c
  | .push c => s.push c
  | .poll c => s.poll c
  | .drop c => s.drop c
  | .clone => if s.senders = 0 then s else { s with senders := s.senders + 1 }
  | .release => s.release
  | .serve => s.serve
  | .join i => s.join i
  | .ended i panicked => s.endTask i panicked

def run (s : Supervisor) (events : List Event) : Supervisor := events.foldl step s

/-! ## What every step keeps -/

/-- Who has the command: its call, the channel, the supervisor, or nobody. -/
inductive Custody (queued : Prop) : Call → Acknowledgement → Prop
  | call {call : Call} (out : ¬ queued) (h : call = .fresh ∨ call = .sending ∨ call = .permitted) :
    Custody queued call .pending
  | channel {call : Call} (inside : queued) (h : call = .awaiting ∨ call = .dropped) :
    Custody queued call .pending
  | supervisor {call : Call} (out : ¬ queued) (h : call = .awaiting ∨ call = .dropped ∨ call = .returned (.ok ())) :
    Custody queued call .sent
  | nobody {call : Call} (out : ¬ queued)
    (h : call = .awaiting ∨ call = .dropped ∨ ∃ e, call = .returned (.error e)) : Custody queued call .lost

/-- The task is where its command is. -/
def Task.Follows (t : Task) : Acknowledgement → Prop
  | .pending => t = .unregistered
  | .sent => t ≠ .unregistered ∧ t ≠ .dropped
  | .lost => t = .dropped

/-- A task of the set that has not been joined. -/
def Task.Held (t : Task) : Prop := t = .running ∨ t = .completed ∨ t = .panicked

/-- `shutdown` returned a task's error. -/
def Phase.Failed (phase : Phase) : Prop := ∃ i, phase = .returned (.error i)

/-- What the queue, the permits and the acknowledgements say about each command. -/
structure Inv (s : Supervisor) : Prop where
  room : s.queue.length + s.permits.length ≤ s.capacity
  queue : s.queue.Nodup
  permits : s.permits.Nodup ∧ ∀ c, c ∈ s.permits ↔ s.calls c = .permitted
  custody : ∀ c, Custody (c ∈ s.queue) (s.calls c) (s.acks c)
  follows : ∀ i, (s.status i).Follows (s.acks (.insert i))
  tasks : s.tasks.Nodup ∧ ∀ i ∈ s.tasks, (s.status i).Held
  running : ∀ i, s.status i = .running → i ∈ s.tasks
  whole : s.phase.Failed ∨ ∀ i, ((s.status i).Held → i ∈ s.tasks) ∧ s.status i ≠ .aborted
  returned : ∀ r, s.phase = .returned r → s.tasks = []
  serving : s.phase = .serving → s.accepting = true
  closed : ∀ j, s.acks (.close j) = .sent → s.accepting = false

variable {s : Supervisor} {c : Command} {i : Nat}

theorem new_inv {capacity : Nat} (h : Supervisor.new capacity = .ok s) : Inv s := by
  unfold Supervisor.new at h
  split at h
  · cases h
  · cases h
    refine ⟨by simp, by simp, by simp, fun c => ?_, fun i => rfl, by simp, by simp, ?_, by simp, by simp, by simp⟩
    · exact .call (by simp) (.inl rfl)
    · exact .inr fun i => ⟨by simp [Task.Held], by simp⟩

namespace Custody

variable {queued : Prop} {call : Call} {ack : Acknowledgement}

theorem of_early (h : Custody queued call ack) (hcall : call = .fresh ∨ call = .sending ∨ call = .permitted) :
    ¬ queued ∧ ack = .pending := by
  cases h with
  | call out _ => exact ⟨out, rfl⟩
  | channel _ h => rcases h with rfl | rfl <;> simp at hcall
  | supervisor _ h => rcases h with rfl | rfl | rfl <;> simp at hcall
  | nobody _ h => rcases h with rfl | rfl | ⟨e, rfl⟩ <;> simp at hcall

theorem update {calls : Command → Call} {acks acks' : Command → Acknowledgement} {queue queue' : List Command}
    {call : Call} (h : ∀ c, Custody (c ∈ queue) (calls c) (acks c)) (hc : Custody (c ∈ queue') call (acks' c))
    (hqueue : ∀ d, d ≠ c → (d ∈ queue' ↔ d ∈ queue)) (hacks : ∀ d, d ≠ c → acks' d = acks d) (d : Command) :
    Custody (d ∈ queue') (Function.update calls c call d) (acks' d) := by
  by_cases hd : d = c
  · subst hd
    simpa using hc
  · rw [Function.update_of_ne hd, hacks d hd, propext (hqueue d hd)]
    exact h d

end Custody

theorem mem_permits_update {permits permits' : List Command} {calls : Command → Call} {call : Call}
    (h : ∀ c, c ∈ permits ↔ calls c = .permitted) (hc : c ∈ permits' ↔ call = .permitted)
    (hother : ∀ d, d ≠ c → (d ∈ permits' ↔ d ∈ permits)) (d : Command) :
    d ∈ permits' ↔ Function.update calls c call d = .permitted := by
  by_cases hd : d = c
  · subst hd
    simpa using hc
  · rw [hother d hd, h d, Function.update_of_ne hd]

theorem Inv.setCall {call : Call} {active : Nat} (h : Inv s) (hbefore : s.calls c ≠ .permitted)
    (hafter : call ≠ .permitted) (hc : Custody (c ∈ s.queue) call (s.acks c)) :
    Inv { s.setCall c call with active := active } where
  room := h.room
  queue := h.queue
  permits := by
    refine ⟨h.permits.1, mem_permits_update h.permits.2 ?_ fun d _ => Iff.rfl⟩
    exact iff_of_false (fun hmem => hbefore ((h.permits.2 c).mp hmem)) hafter
  custody := Custody.update h.custody hc (fun d _ => Iff.rfl) fun d _ => rfl
  follows := h.follows
  tasks := h.tasks
  running := h.running
  whole := h.whole
  returned := h.returned
  serving := h.serving
  closed := h.closed

theorem begin_inv (h : Inv s) : Inv (s.begin c) := by
  unfold Supervisor.begin
  split
  · rename_i hcall
    split
    · exact h
    · obtain ⟨hout, hpending⟩ := (h.custody c).of_early (.inl hcall)
      apply h.setCall (by simp [hcall]) (by simp)
      rw [hpending]
      exact .call hout (.inr (.inl rfl))
  · exact h

theorem permit_inv (h : Inv s) : Inv (s.permit c) := by
  unfold Supervisor.permit
  split
  · rename_i hcall
    split
    · rename_i hroom
      obtain ⟨hqueued, hpending⟩ := (h.custody c).of_early (.inr (.inl hcall))
      have hout : c ∉ s.permits := fun hmem => by simp [(h.permits.2 c).mp hmem] at hcall
      refine ⟨?_, h.queue, ⟨?_, ?_⟩, ?_, h.follows, h.tasks, h.running, h.whole, h.returned, h.serving,
        h.closed⟩
      · have := hroom.2
        simp only [List.length_cons, Supervisor.setCall]
        omega
      · exact List.nodup_cons.mpr ⟨hout, h.permits.1⟩
      · exact mem_permits_update h.permits.2 (by simp) fun d hd => by simp [hd]
      · refine Custody.update h.custody ?_ (fun d _ => Iff.rfl) fun d _ => rfl
        simp only [Supervisor.setCall, hpending]
        exact .call hqueued (.inr (.inr rfl))
    · exact h
  · exact h

theorem push_inv (h : Inv s) : Inv (s.push c) := by
  unfold Supervisor.push
  split
  · rename_i hcall
    obtain ⟨hqueued, hpending⟩ := (h.custody c).of_early (.inr (.inr hcall))
    have hmem : c ∈ s.permits := (h.permits.2 c).mpr hcall
    have hlength := List.length_erase_of_mem hmem
    have hpos := List.length_pos_of_mem hmem
    refine ⟨?_, ?_, ⟨?_, ?_⟩, ?_, h.follows, h.tasks, h.running, h.whole, h.returned, h.serving,
        h.closed⟩
    · have := h.room
      simp only [List.length_append, List.length_singleton, Supervisor.setCall]
      omega
    · refine List.nodup_append.mpr ⟨h.queue, by simp, ?_⟩
      rintro d hd e he rfl
      rw [List.mem_singleton.mp he] at hd
      exact hqueued hd
    · exact h.permits.1.erase c
    · exact mem_permits_update h.permits.2 (by simp [h.permits.1.mem_erase_iff])
        fun d hd => List.mem_erase_of_ne hd
    · refine Custody.update h.custody ?_ (fun d hd => by simp [hd]) fun d _ => rfl
      simp only [Supervisor.setCall, hpending]
      exact .channel (by simp) (.inl rfl)
  · exact h

theorem Inv.status_of_pending (h : Inv s) (hpending : s.acks (.insert i) = .pending) :
    s.status i = .unregistered := by
  have := h.follows i
  rwa [hpending] at this

theorem Inv.sent_of_taken (h : Inv s) (hregistered : s.status i ≠ .unregistered) (hdropped : s.status i ≠ .dropped) :
    s.acks (.insert i) = .sent := by
  have hfollows := h.follows i
  cases hack : s.acks (.insert i) with
  | sent => rfl
  | pending =>
    rw [hack] at hfollows
    exact absurd hfollows hregistered
  | lost =>
    rw [hack] at hfollows
    exact absurd hfollows hdropped

theorem not_held_unregistered : ¬ Task.Held .unregistered := by
  rintro (h | h | h) <;> cases h

theorem not_held_dropped : ¬ Task.Held .dropped := by
  rintro (h | h | h) <;> cases h

theorem discard_acks (d : Command) : (s.discard c).acks d = if d = c then .lost else s.acks d := by
  simp [Supervisor.discard, Function.update_apply]

theorem discard_status (i : Nat) : (s.discard c).status i = if c = .insert i then .dropped else s.status i := by
  cases c with
  | insert j => simp [Supervisor.discard, Function.update_apply, eq_comm]
  | close j => simp [Supervisor.discard]

/-- A command that nobody has any more. Its caller can only be told so. -/
theorem Inv.discard (queue : List Command) (call : Call) (active : Nat) (h : Inv s)
    (hpending : s.acks c = .pending) (hcall : s.calls c ≠ .permitted)
    (hafter : call = .awaiting ∨ call = .dropped ∨ ∃ e, call = .returned (.error e))
    (hqueue : queue.Sublist s.queue) (hout : c ∉ queue) (hother : ∀ d, d ≠ c → (d ∈ queue ↔ d ∈ s.queue)) :
    Inv { ({ s with queue := queue }.discard c).setCall c call with active := active } := by
  have hne : call ≠ .permitted := by
    rcases hafter with rfl | rfl | ⟨e, rfl⟩ <;> simp
  have hstatus : ∀ i, c = .insert i → s.status i = .unregistered := by
    rintro i rfl
    exact h.status_of_pending hpending
  have hdropped := discard_status (s := { s with queue := queue }) (c := c)
  have hlost := discard_acks (s := { s with queue := queue }) (c := c)
  refine ⟨?_, h.queue.sublist hqueue, ⟨h.permits.1, ?_⟩, ?_, fun i => ?_, ⟨h.tasks.1, fun i hi => ?_⟩,
    fun i hi => ?_, ?_, h.returned, h.serving, fun j hj => ?_⟩
  · have := hqueue.length_le
    have := h.room
    simp only [Supervisor.discard, Supervisor.setCall]
    omega
  · refine mem_permits_update h.permits.2 ?_ fun d _ => Iff.rfl
    exact iff_of_false (fun hmem => hcall ((h.permits.2 c).mp hmem)) hne
  · refine Custody.update h.custody ?_ hother fun d hd => Function.update_of_ne hd _ _
    simp only [Supervisor.discard, Supervisor.setCall, Function.update_self]
    exact .nobody hout hafter
  · simp only [Supervisor.setCall, hdropped, hlost]
    by_cases hi : c = .insert i
    · simp [hi, Task.Follows]
    · rw [if_neg hi, if_neg fun h => hi h.symm]
      exact h.follows i
  · simp only [Supervisor.setCall, hdropped]
    rw [if_neg]
    · exact h.tasks.2 i hi
    · intro heq
      have := h.tasks.2 i hi
      rw [hstatus i heq] at this
      exact not_held_unregistered this
  · simp only [Supervisor.setCall, hdropped] at hi
    split at hi
    · cases hi
    · exact h.running i hi
  · refine h.whole.imp id fun hwhole i => ?_
    simp only [Supervisor.setCall, hdropped]
    split
    · exact ⟨fun hheld => absurd hheld not_held_dropped, by simp⟩
    · exact hwhole i
  · simp only [Supervisor.setCall, hlost] at hj
    split at hj
    · cases hj
    · exact h.closed j hj

theorem poll_inv (h : Inv s) : Inv (s.poll c) := by
  unfold Supervisor.poll
  split
  · rename_i hcall
    split
    · exact h
    · obtain ⟨hout, hpending⟩ := (h.custody c).of_early (.inr (.inl hcall))
      exact Inv.discard s.queue _ _ h hpending (by simp [hcall]) (.inr (.inr ⟨_, rfl⟩)) (List.Sublist.refl _) hout
        fun d _ => Iff.rfl
  · rename_i hcall
    have hc := h.custody c
    split
    · exact h
    · rename_i hack
      apply h.setCall (by simp [hcall]) (by simp)
      rw [hack] at hc ⊢
      cases hc with
      | supervisor out _ => exact .supervisor out (.inr (.inr rfl))
    · rename_i hack
      apply h.setCall (by simp [hcall]) (by simp)
      rw [hack] at hc ⊢
      cases hc with
      | nobody out _ => exact .nobody out (.inr (.inr ⟨_, rfl⟩))
  · exact h

theorem drop_inv (h : Inv s) : Inv (s.drop c) := by
  unfold Supervisor.drop
  split
  · rename_i hcall
    obtain ⟨hout, hpending⟩ := (h.custody c).of_early (.inr (.inl hcall))
    exact Inv.discard s.queue _ _ h hpending (by simp [hcall]) (.inr (.inl rfl)) (List.Sublist.refl _) hout
      fun d _ => Iff.rfl
  · rename_i hcall
    have hc := h.custody c
    apply h.setCall (by simp [hcall]) (by simp)
    rw [hcall] at hc
    generalize s.acks c = ack at hc
    cases hc with
    | call _ hc => simp at hc
    | channel inside _ => exact .channel inside (.inr rfl)
    | supervisor out _ => exact .supervisor out (.inr (.inl rfl))
    | nobody out _ => exact .nobody out (.inr (.inl rfl))
  · exact h

theorem Inv.of_queued (h : Inv s) (hc : c ∈ s.queue) :
    s.acks c = .pending ∧ (s.calls c = .awaiting ∨ s.calls c = .dropped) := by
  have hcustody := h.custody c
  generalize s.acks c = ack at hcustody ⊢
  generalize s.calls c = call at hcustody ⊢
  cases hcustody with
  | channel _ hcall => exact ⟨rfl, hcall⟩
  | call out _ | supervisor out _ | nobody out _ => exact absurd hc out

/-! ## What the supervisor keeps -/

theorem Custody.answer {rest : List Command} (h : Inv s) (hqueue : s.queue = c :: rest) (d : Command) :
    Custody (d ∈ rest) (s.calls d) (Function.update s.acks c .sent d) := by
  have hnodup := h.queue
  rw [hqueue] at hnodup
  have hout := (List.nodup_cons.mp hnodup).1
  by_cases hd : d = c
  · subst hd
    obtain ⟨_, hcall⟩ := h.of_queued (c := d) (by simp [hqueue])
    rw [Function.update_self]
    exact .supervisor hout (hcall.imp id .inl)
  · rw [Function.update_of_ne hd]
    have := h.custody d
    rwa [hqueue, List.mem_cons, or_iff_right hd] at this

/-- What ends a run well has no task left. -/
theorem returns_inv {result : Except Nat Unit} (h : Inv s) (hresult : result = .ok () → s.tasks = [] ∧ ¬ s.phase.Failed) :
    Inv (s.returns result) := by
  refine ⟨?_, by simp [Supervisor.returns], h.permits, fun c => ?_, fun i => ?_, by simp [Supervisor.returns],
    fun i hi => ?_, ?_, fun _ _ => rfl, by simp [Supervisor.returns], fun _ _ => rfl⟩
  · have := h.room
    simp only [Supervisor.returns, List.length_nil]
    omega
  · have hc := h.custody c
    by_cases hqueued : c ∈ s.queue
    · simp only [Supervisor.returns, hqueued, if_true]
      exact .nobody (by simp) ((h.of_queued hqueued).2.imp id .inl)
    · simpa [Supervisor.returns, hqueued] using hc
  · have hfollows := h.follows i
    by_cases hqueued : Command.insert i ∈ s.queue
    · simp [Supervisor.returns, hqueued, Task.Follows]
    · simp only [Supervisor.returns, hqueued, if_false]
      split
      · rename_i hrunning
        rw [h.sent_of_taken (by simp [hrunning]) (by simp [hrunning])]
        simp [Task.Follows]
      · exact hfollows
  · simp only [Supervisor.returns] at hi
    split at hi
    · cases hi
    · split at hi
      · cases hi
      · contradiction
  · cases result with
    | error i => exact .inl ⟨i, rfl⟩
    | ok =>
      obtain ⟨hempty, hfailed⟩ := hresult rfl
      have hwhole := h.whole.resolve_left hfailed
      refine .inr fun i => ?_
      have hnot : ¬ (s.status i).Held := fun hheld => by simpa [hempty] using (hwhole i).1 hheld
      simp only [Supervisor.returns]
      split
      · exact ⟨fun hheld => absurd hheld not_held_dropped, by simp⟩
      · rw [if_neg fun hrunning => hnot (.inl hrunning)]
        exact ⟨fun hheld => absurd hheld hnot, (hwhole i).2⟩

theorem Inv.whole_of_running (h : Inv s) (hphase : ∀ r, s.phase ≠ .returned r) :
    ¬ s.phase.Failed ∧ ∀ i, ((s.status i).Held → i ∈ s.tasks) ∧ s.status i ≠ .aborted := by
  have hfailed : ¬ s.phase.Failed := by
    rintro ⟨i, hfailed⟩
    exact hphase _ hfailed
  exact ⟨hfailed, h.whole.resolve_left hfailed⟩

theorem Inv.setPhase {phase : Phase} (h : Inv s) (hbefore : ∀ r, s.phase ≠ .returned r)
    (hserving : phase ≠ .serving) (hreturned : ∀ r, phase ≠ .returned r) : Inv { s with phase } where
  room := h.room
  queue := h.queue
  permits := h.permits
  custody := h.custody
  follows := h.follows
  tasks := h.tasks
  running := h.running
  whole := .inr (h.whole_of_running hbefore).2
  returned := fun r hr => absurd hr (hreturned r)
  serving := fun hs => absurd hs hserving
  closed := h.closed

theorem spawn_inv {rest : List Command} (h : Inv s) (hphase : s.phase = .serving) (hqueue : s.queue = .insert i :: rest) :
    Inv { s with
      queue := rest
      tasks := s.tasks ++ [i]
      status := Function.update s.status i .running
      acks := Function.update s.acks (.insert i) .sent } := by
  have hroom := h.room
  have hnodup := h.queue
  rw [hqueue] at hroom hnodup
  obtain ⟨hpending, _⟩ := h.of_queued (c := .insert i) (by simp [hqueue])
  have hnot : i ∉ s.tasks := by
    intro hi
    have := h.tasks.2 i hi
    rw [h.status_of_pending hpending] at this
    exact not_held_unregistered this
  refine ⟨?_, (List.nodup_cons.mp hnodup).2, h.permits, Custody.answer h hqueue, fun j => ?_, ⟨?_, fun j hj => ?_⟩,
    fun j hj => ?_, ?_, fun r hr => by simp [hphase] at hr, h.serving, fun j hj => h.closed j (by simpa using hj)⟩
  · simp only [List.length_cons] at hroom
    dsimp only
    omega
  · by_cases hj : j = i
    · subst hj
      simp [Task.Follows]
    · simpa [Function.update_of_ne hj, Function.update_apply, hj] using h.follows j
  · refine List.nodup_append.mpr ⟨h.tasks.1, by simp, ?_⟩
    rintro j hj k hk rfl
    rw [List.mem_singleton.mp hk] at hj
    exact hnot hj
  · by_cases hji : j = i
    · subst hji
      simp [Task.Held]
    · simp only [Function.update_of_ne hji]
      exact h.tasks.2 j (by simpa [hji] using hj)
  · by_cases hji : j = i
    · simp [hji]
    · simp only [Function.update_of_ne hji] at hj
      simp [h.running j hj]
  · refine h.whole.imp id fun hwhole j => ?_
    by_cases hji : j = i
    · subst hji
      simp
    · simp only [Function.update_of_ne hji]
      exact ⟨fun hheld => by simp [(hwhole j).1 hheld], (hwhole j).2⟩

theorem close_inv {rest : List Command} {j : Nat} (h : Inv s) (hphase : s.phase = .serving)
    (hqueue : s.queue = .close j :: rest) :
    Inv { s with
      queue := rest
      accepting := false
      acks := Function.update s.acks (.close j) .sent
      phase := .draining } := by
  have hroom := h.room
  have hnodup := h.queue
  rw [hqueue] at hroom hnodup
  refine ⟨?_, (List.nodup_cons.mp hnodup).2, h.permits, Custody.answer h hqueue, fun i => ?_, h.tasks, h.running, ?_,
    by simp, by simp, fun _ _ => rfl⟩
  · simp only [List.length_cons] at hroom
    dsimp only
    omega
  · simpa using h.follows i
  · exact .inr (h.whole_of_running (by simp [hphase])).2

theorem serve_inv (h : Inv s) : Inv s.serve := by
  unfold Supervisor.serve
  split
  · rename_i i rest hphase hqueue
    exact spawn_inv h hphase hqueue
  · rename_i j rest hphase hqueue
    exact close_inv h hphase hqueue
  · rename_i hphase hqueue
    split
    · exact h.setPhase (by simp [hphase]) (by simp) (by simp)
    · exact h
  · rename_i c rest hphase hqueue
    have hnodup := h.queue
    rw [hqueue] at hnodup
    obtain ⟨hpending, hcall⟩ := h.of_queued (c := c) (by simp [hqueue])
    have := Inv.discard rest (s.calls c) s.active h hpending
      (by rcases hcall with hcall | hcall <;> simp [hcall]) (hcall.imp id .inl) (by simp [hqueue])
      (List.nodup_cons.mp hnodup).1 fun d hd => by simp [hqueue, hd]
    simpa [Supervisor.setCall, Supervisor.discard, Function.update_eq_self] using this
  · rename_i hphase hqueue
    exact h.setPhase (by simp [hphase]) (by simp) (by simp)
  · rename_i hphase
    split
    · rename_i hempty
      exact returns_inv h fun _ => ⟨hempty, (h.whole_of_running (by simp [hphase])).1⟩
    · exact h
  · exact h

theorem Inv.setStatus {tasks : List Nat} {t : Task} (h : Inv s) (hi : s.status i ≠ .unregistered ∧ s.status i ≠ .dropped)
    (hnodup : tasks.Nodup) (hmem : ∀ j, j ≠ i → (j ∈ tasks ↔ j ∈ s.tasks)) (hheld : i ∈ tasks ↔ t.Held)
    (hempty : s.tasks = [] → tasks = []) (ht : t ≠ .unregistered ∧ t ≠ .dropped ∧ t ≠ .aborted) :
    Inv { s with tasks, status := Function.update s.status i t } := by
  have hack := h.sent_of_taken hi.1 hi.2
  refine ⟨h.room, h.queue, h.permits, h.custody, fun j => ?_, ⟨hnodup, fun j hj => ?_⟩, fun j hj => ?_, ?_,
    fun r hr => hempty (h.returned r hr), h.serving, h.closed⟩
  · by_cases hji : j = i
    · subst hji
      simp only [Function.update_self, hack]
      exact ⟨ht.1, ht.2.1⟩
    · simpa [hji] using h.follows j
  · by_cases hji : j = i
    · subst hji
      simpa using hheld.mp hj
    · simpa [hji] using h.tasks.2 j ((hmem j hji).mp hj)
  · by_cases hji : j = i
    · subst hji
      simp only [Function.update_self] at hj
      exact hheld.mpr (.inl hj)
    · simp only [Function.update_of_ne hji] at hj
      exact (hmem j hji).mpr (h.running j hj)
  · refine h.whole.imp id fun hwhole j => ?_
    by_cases hji : j = i
    · subst hji
      simp only [Function.update_self]
      exact ⟨hheld.mpr, ht.2.2⟩
    · simp only [Function.update_of_ne hji]
      exact ⟨fun hj => (hmem j hji).mpr ((hwhole j).1 hj), (hwhole j).2⟩

theorem join_inv (h : Inv s) : Inv (s.join i) := by
  have hjoined : s.status i = .completed →
      Inv { s with tasks := s.tasks.erase i, status := Function.update s.status i .joined } := by
    intro hstatus
    apply h.setStatus (by simp [hstatus]) (h.tasks.1.erase i) fun j hj => List.mem_erase_of_ne hj
    · simp [h.tasks.1.mem_erase_iff, Task.Held]
    · intro hempty
      rw [hempty]
      rfl
    · simp
  have hfailed : Inv (s.returns (.error i)) := returns_inv h fun hr => by cases hr
  unfold Supervisor.join
  split
  · split
    · exact hjoined (by assumption)
    · exact hjoined (by assumption)
    · exact hfailed
    · exact hfailed
    · exact h
  · exact h

theorem endTask_inv {panicked : Bool} (h : Inv s) : Inv (s.endTask i panicked) := by
  unfold Supervisor.endTask
  split
  · rename_i hrunning
    have hmem := h.running i hrunning
    apply h.setStatus (by simp [hrunning]) h.tasks.1 (fun j _ => Iff.rfl) _ id
    · cases panicked <;> simp
    · refine iff_of_true hmem ?_
      cases panicked with
      | false => exact .inr (.inl rfl)
      | true => exact .inr (.inr rfl)
  · exact h

theorem Inv.setSenders {senders : Nat} (h : Inv s) : Inv { s with senders } :=
  ⟨h.room, h.queue, h.permits, h.custody, h.follows, h.tasks, h.running, h.whole, h.returned, h.serving,
        h.closed⟩

theorem step_inv (h : Inv s) (event : Event) : Inv (step s event) := by
  cases event with
  | begin c => exact begin_inv h
  | permit c => exact permit_inv h
  | push c => exact push_inv h
  | poll c => exact poll_inv h
  | drop c => exact drop_inv h
  | clone =>
    rw [step]
    split
    · exact h
    · exact h.setSenders
  | release =>
    rw [step, Supervisor.release]
    split
    · exact h
    · exact h.setSenders
  | serve => exact serve_inv h
  | join i => exact join_inv h
  | ended i panicked => exact endTask_inv h

theorem run_inv (h : Inv s) (events : List Event) : Inv (run s events) := by
  induction events generalizing s with
  | nil => exact h
  | cons event rest ih => exact ih (step_inv h event)

/-! ## What callers are told -/

/-- How an event takes a call on. -/
inductive Advances (s : Supervisor) : Event → Command → Call → Call → Prop
  | begin {c : Command} : Advances s (.begin c) c .fresh .sending
  | permit {c : Command} (h : s.accepting = true) : Advances s (.permit c) c .sending .permitted
  | push {c : Command} : Advances s (.push c) c .permitted .awaiting
  | refuse {c : Command} (h : s.accepting = false) : Advances s (.poll c) c .sending (.returned (.error .closed))
  | answer {c : Command} (h : s.acks c = .sent) : Advances s (.poll c) c .awaiting (.returned (.ok ()))
  | lose {c : Command} (h : s.acks c = .lost) :
    Advances s (.poll c) c .awaiting (.returned (.error .acknowledgementLost))
  | drop {c : Command} {call : Call} (h : call = .sending ∨ call = .awaiting) : Advances s (.drop c) c call .dropped

theorem calls_serve : s.serve.calls = s.calls := by
  unfold Supervisor.serve
  split <;> try rfl
  · split <;> rfl
  · split <;> rfl

/-- A step advances one call at most. -/
theorem step_calls (s : Supervisor) (event : Event) : (step s event).calls = s.calls ∨
    ∃ c call, Advances s event c (s.calls c) call ∧ (step s event).calls = Function.update s.calls c call := by
  cases event with
  | begin c =>
    rw [step, Supervisor.begin]
    split
    · rename_i hc
      split
      · exact .inl rfl
      · exact .inr ⟨c, _, hc ▸ .begin, rfl⟩
    · exact .inl rfl
  | permit c =>
    rw [step, Supervisor.permit]
    split
    · rename_i hc
      split
      · rename_i hroom
        exact .inr ⟨c, _, hc ▸ .permit hroom.1, rfl⟩
      · exact .inl rfl
    · exact .inl rfl
  | push c =>
    rw [step, Supervisor.push]
    split
    · rename_i hc
      exact .inr ⟨c, _, hc ▸ .push, rfl⟩
    · exact .inl rfl
  | poll c =>
    rw [step, Supervisor.poll]
    split
    · rename_i hc
      split
      · exact .inl rfl
      · rename_i haccepting
        exact .inr ⟨c, _, hc ▸ .refuse (by simpa using haccepting), rfl⟩
    · rename_i hc
      split
      · exact .inl rfl
      · rename_i hack
        exact .inr ⟨c, _, hc ▸ .answer hack, rfl⟩
      · rename_i hack
        exact .inr ⟨c, _, hc ▸ .lose hack, rfl⟩
    · exact .inl rfl
  | drop c =>
    rw [step, Supervisor.drop]
    split
    · rename_i hc
      exact .inr ⟨c, _, .drop (.inl hc), rfl⟩
    · rename_i hc
      exact .inr ⟨c, _, .drop (.inr hc), rfl⟩
    · exact .inl rfl
  | serve => exact .inl calls_serve
  | clone | release | join _ | ended _ _ =>
    left
    simp only [step, Supervisor.release, Supervisor.join, Supervisor.endTask]
    repeat' split
    all_goals rfl

theorem step_returned {result : Except RegistrationError Unit} (h : s.calls c = .returned result) (event : Event) :
    (step s event).calls c = .returned result := by
  rcases step_calls s event with hcalls | ⟨d, call, hadvances, hcalls⟩
  · rw [hcalls, h]
  · rw [hcalls, Function.update_of_ne, h]
    rintro rfl
    rw [h] at hadvances
    rcases hadvances with _ | _ | _ | _ | _ | _ | hc | hc <;> contradiction

theorem run_returned {result : Except RegistrationError Unit} (h : s.calls c = .returned result) (events : List Event) :
    (run s events).calls c = .returned result := by
  induction events generalizing s with
  | nil => exact h
  | cons event rest ih => exact ih (step_returned h event)

theorem step_phase {result : Except Nat Unit} (h : s.phase = .returned result) (event : Event) :
    (step s event).phase = .returned result := by
  cases event with
  | serve => simp [step, Supervisor.serve, h]
  | join i =>
    rw [step, Supervisor.join]
    split
    · split <;> simp_all
    · exact h
  | begin _ | permit _ | push _ | poll _ | drop _ | clone | release | ended _ _ =>
    simp only [step, Supervisor.begin, Supervisor.permit, Supervisor.push, Supervisor.poll, Supervisor.drop,
      Supervisor.release, Supervisor.endTask]
    repeat' split
    all_goals exact h

theorem run_phase {result : Except Nat Unit} (h : s.phase = .returned result) (events : List Event) :
    (run s events).phase = .returned result := by
  induction events generalizing s with
  | nil => exact h
  | cons event rest ih => exact ih (step_phase h event)

theorem Inv.acknowledged (h : Inv s) (hcall : s.calls c = .returned (.ok ())) : s.acks c = .sent := by
  have hc := h.custody c
  rw [hcall] at hc
  generalize s.acks c = ack at hc ⊢
  cases hc with
  | call _ hc | channel _ hc | nobody _ hc => simp at hc
  | supervisor _ _ => rfl

theorem Inv.refused {e : RegistrationError} (h : Inv s) (hcall : s.calls c = .returned (.error e)) :
    s.acks c = .lost := by
  have hc := h.custody c
  rw [hcall] at hc
  generalize s.acks c = ack at hc ⊢
  cases hc with
  | call _ hc | channel _ hc | supervisor _ hc => simp at hc
  | nobody _ _ => rfl

theorem Inv.joined (h : Inv s) (hphase : s.phase = .returned (.ok ())) (hack : s.acks (.insert i) = .sent) :
    s.status i = .joined := by
  have hfailed : ¬ s.phase.Failed := by
    rintro ⟨i, hfailed⟩
    simp [hphase] at hfailed
  have hwhole := h.whole.resolve_left hfailed
  have hempty := h.returned _ hphase
  have hnot : ¬ (s.status i).Held := fun hheld => by simpa [hempty] using (hwhole i).1 hheld
  have hfollows := h.follows i
  rw [hack] at hfollows
  cases hstatus : s.status i with
  | joined => rfl
  | unregistered => exact absurd hstatus hfollows.1
  | dropped => exact absurd hstatus hfollows.2
  | running => exact absurd (.inl hstatus) hnot
  | completed => exact absurd (.inr (.inl hstatus)) hnot
  | panicked => exact absurd (.inr (.inr hstatus)) hnot
  | aborted => exact absurd hstatus (hwhole i).2

/-- An acknowledged task is taken, and joined before the run ends well. A refused one is never run. -/
theorem registration_exact {capacity : Nat} (hnew : Supervisor.new capacity = .ok s) (events later : List Event) (i : Nat) :
    ((run s events).calls (.insert i) = .returned (.ok ()) →
      (run s (events ++ later)).status i ≠ .unregistered ∧ (run s (events ++ later)).status i ≠ .dropped ∧
        ((run s (events ++ later)).phase = .returned (.ok ()) → (run s (events ++ later)).status i = .joined)) ∧
    ∀ e, (run s events).calls (.insert i) = .returned (.error e) → (run s (events ++ later)).status i = .dropped := by
  have hinv := run_inv (new_inv hnew) (events ++ later)
  have hfollows := hinv.follows i
  have hlater : ∀ r, (run s events).calls (.insert i) = .returned r →
      (run s (events ++ later)).calls (.insert i) = .returned r := by
    intro r hr
    rw [run, List.foldl_append]
    exact run_returned hr later
  constructor
  · intro hcall
    have hack := hinv.acknowledged (hlater _ hcall)
    rw [hack] at hfollows
    exact ⟨hfollows.1, hfollows.2, fun hphase => hinv.joined hphase hack⟩
  · intro e hcall
    rw [hinv.refused (hlater _ hcall)] at hfollows
    exact hfollows

/-- A task is handed over, taken and acknowledged. Then the close, and the end of the run. -/
def sample : List Event :=
  [.begin (.insert 7), .permit (.insert 7), .push (.insert 7), .serve, .poll (.insert 7), .begin (.close 0),
    .permit (.close 0), .push (.close 0), .serve, .poll (.close 0)]

/-- What the supervisor still has to do. -/
def sampleEnd : List Event := [.serve, .ended 7 false, .join 7, .serve]

def sampleSupervisor : Supervisor := { capacity := 1, positive := by decide }

theorem registration_exact_sample : (run sampleSupervisor sample).calls (.insert 7) = .returned (.ok ()) ∧
    (run sampleSupervisor (sample ++ sampleEnd)).phase = .returned (.ok ()) ∧
    (run sampleSupervisor (sample ++ sampleEnd)).status 7 = .joined := by
  have hcall : (run sampleSupervisor sample).calls (.insert 7) = .returned (.ok ()) := rfl
  have hphase : (run sampleSupervisor (sample ++ sampleEnd)).phase = .returned (.ok ()) := rfl
  have hnew : Supervisor.new 1 = .ok sampleSupervisor := rfl
  exact ⟨hcall, hphase, ((registration_exact hnew sample sampleEnd 7).1 hcall).2.2 hphase⟩

end PaymentSdk.Submissions
