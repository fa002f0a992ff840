import PaymentSdk.Api.Supervised

/-!
# What a supervisor that has ended leaves behind

The state of a send and the state of its task in the supervisor go together in every run. So an
activated submission has left its result when the supervisor has ended well, and its sources are
free again.
-/

open Interaction

namespace PaymentSdk.Submissions

open Solana (World Crates Reply NativeTransfer Caller Send Submit)

/-! ## A send and its task -/

def Dormant : Solana.Task → Prop
  | .dormant _ _ _ => True
  | _ => False

/-- The task has reported, and looks for the envelope. -/
def Told : Solana.Task → Prop
  | .resolving _ _ => True
  | _ => False

/-- What the sends know of a task and what the supervisor knows of it. -/
structure Linked (x : Send) (call : Call) (ack : Acknowledgement) (status : Task) (queued : Prop) : Prop where
  early : x.caller.Early → call = .fresh ∧ x.activation = .pending
  registering : x.caller = .submitting .registering → x.activation = .pending ∧ (ack ≠ .lost → x.task ≠ none)
  started : x.activation = .started → ack = .sent
  dormant : x.activation ≠ .started → ∀ t ∈ x.task, Dormant t
  lost : ack = .lost → x.task = none
  settled : status = .completed ∨ status = .joined → x.task = none
  held : ack = .pending → ¬ queued → x.caller ≠ .submitting .registering → x.task = none
  reported : x.activation = .started → (∀ t ∈ x.task, Told t) → x.result ≠ none

/-- The dormant task is dropped. -/
def withoutDormant (x : Send) : Send :=
  match x.task with
  | some (.dormant _ _ _) => if x.activation = .started then x else { x with task := none }
  | _ => x

section Links

variable {crates : Crates} {w : World} {x : Send} {call : Call} {ack : Acknowledgement} {status : Task} {queued : Prop}

theorem sends_dropTask (w : World) (i j : Nat) :
    (w.dropTask i).sends j = if j = i then withoutDormant (w.sends i) else w.sends j := by
  have hsame : w.sends j = if j = i then w.sends i else w.sends j := by
    split
    · rename_i hj
      rw [hj]
    · rfl
  cases htask : (w.sends i).task with
  | none => simpa only [World.dropTask, withoutDormant, htask] using hsame
  | some t =>
    cases t with
    | dormant floor envelopes guarded =>
      simp only [World.dropTask, withoutDormant, htask]
      split
      · exact hsame
      · exact Function.update_apply ..
    | height _ | sending _ _ | status _ _ | expiry _ _ | resolving _ _ =>
      simpa only [World.dropTask, withoutDormant, htask] using hsame

theorem withoutDormant_twice (x : Send) : withoutDormant (withoutDormant x) = withoutDormant x := by
  unfold withoutDormant
  repeat' split
  all_goals simp_all

theorem withoutDormant_caller (x : Send) : (withoutDormant x).caller = x.caller := by
  unfold withoutDormant
  repeat' split
  all_goals rfl

theorem sends_dropTasks (w : World) (tasks : List Nat) (j : Nat) :
    (tasks.foldl World.dropTask w).sends j = if j ∈ tasks then withoutDormant (w.sends j) else w.sends j := by
  induction tasks generalizing w with
  | nil => rfl
  | cons i rest ih =>
    rw [List.foldl_cons, ih, sends_dropTask]
    by_cases hj : j = i
    · subst hj
      simp [withoutDormant_twice]
    · simp [hj]

theorem withoutDormant_eq (hstarted : x.activation ≠ .started) (hdormant : ∀ t ∈ x.task, Dormant t) :
    withoutDormant x = { x with task := none } := by
  unfold withoutDormant
  split
  · rw [if_neg hstarted]
  · rename_i hnot
    cases htask : x.task with
    | none => rw [← htask]
    | some t =>
      have := hdormant t htask
      cases t with
      | dormant floor envelopes guarded => exact absurd htask (hnot floor envelopes guarded)
      | height _ | sending _ _ | status _ _ | expiry _ _ | resolving _ _ => exact this.elim

theorem withoutDormant_none (h : x.task = none) : withoutDormant x = x := by
  unfold withoutDormant
  rw [h]

/-- The link after a step of the supervisor. -/
theorem Linked.fate {s s' : Supervisor} {event : Event} {i : Nat} (hinv : Inv s)
    (h : Linked x (s.calls (.insert i)) (s.acks (.insert i)) (s.status i) (.insert i ∈ s.queue))
    (hfate : Fate s s' event i) (hcalm : s'.Calm) (hfresh : x.caller.Early → s'.calls (.insert i) = .fresh) :
    Linked (if i ∈ givenUp s s' event then withoutDormant x else x) (s'.calls (.insert i)) (s'.acks (.insert i))
      (s'.status i) (.insert i ∈ s'.queue) := by
  have hearly : x.caller.Early → s'.calls (.insert i) = .fresh ∧ x.activation = .pending := fun hx =>
    ⟨hfresh hx, (h.early hx).2⟩
  cases hfate with
  | stays hack hstatus hqueued =>
    have hx : (if i ∈ givenUp s s' event then withoutDormant x else x) = x := by
      split
      · rename_i hgiven
        have hfollows := hinv.follows i
        rw [← hstatus, (mem_givenUp.mp hgiven).2] at hfollows
        apply withoutDormant_none
        apply h.lost
        generalize s.acks (.insert i) = ack at hfollows
        cases ack with
        | pending => cases hfollows
        | sent => exact absurd rfl hfollows.2
        | lost => rfl
      · rfl
    rw [hx, hack, hstatus]
    exact ⟨hearly, h.registering, h.started, h.dormant, h.lost, h.settled,
      fun hp hq => h.held hp fun hin => hq (hqueued hin), h.reported⟩
  | taken hpending hack hstatus =>
    rw [if_neg fun hgiven => by simp [hstatus, mem_givenUp] at hgiven, hack, hstatus]
    refine ⟨hearly, fun hx => ⟨(h.registering hx).1, fun _ => (h.registering hx).2 (by simp [hpending])⟩, fun _ => rfl,
      h.dormant, by simp, by simp, by simp, h.reported⟩
  | dropped hpending hack hstatus hgiven =>
    have hstarted : x.activation ≠ .started := fun hx => by simp [h.started hx] at hpending
    rw [if_pos hgiven, withoutDormant_eq hstarted (h.dormant hstarted), hack, hstatus]
    exact ⟨hearly, fun hx => ⟨(h.registering hx).1, by simp⟩, fun hx => absurd hx hstarted, by simp, by simp, by simp,
      by simp, fun hx => absurd hx hstarted⟩
  | joined hcompleted hack hstatus =>
    rw [if_neg fun hgiven => by simp [hstatus, mem_givenUp] at hgiven, hack, hstatus]
    have hnone := h.settled (.inl hcompleted)
    exact ⟨hearly, h.registering, h.started, h.dormant, h.lost, fun _ => hnone, fun _ _ _ => hnone, h.reported⟩
  | panics _ hstatus _ => exact absurd hstatus (hcalm i).1
  | aborts _ hstatus _ => exact absurd hstatus (hcalm i).2

/-! ## What a caller does -/

/-- A caller that does not wait for its registration moves, perhaps to there. -/
inductive Moves (x : Send) : Send → Prop
  | caller {caller : Caller} (before : x.caller ≠ .submitting .registering) (after : caller ≠ .submitting .registering)
    (early : caller.Early → x.caller.Early) : Moves x { x with caller }
  | registers {t : Solana.Task} (early : x.caller.Early) (dormant : Dormant t) :
    Moves x { x with caller := .submitting .registering, task := some t }

/-- One send moves, or none. -/
def MovesOne (w w' : World) (i : Nat) : Prop :=
  w'.sends = w.sends ∨ ∃ x, Moves (w.sends i) x ∧ w'.sends = Function.update w.sends i x

variable {i : Nat} {reply : Reply}

theorem movesOne_refl (w : World) (i : Nat) : MovesOne w w i := .inl rfl

theorem movesOne_setCaller (s' : Solana.SourceState) (caller : Caller) (trace : List Solana.Trace)
    (before : (w.sends i).caller ≠ .submitting .registering) (after : caller ≠ .submitting .registering)
    (early : caller.Early → (w.sends i).caller.Early) :
    MovesOne w (w.act i s' { w.sends i with caller } trace) i :=
  .inr ⟨_, .caller before after early, rfl⟩

theorem movesOne_finish (s' : Solana.SourceState) (result : Except Wallets.SendError (List PaymentSdk.Id))
    (before : (w.sends i).caller ≠ .submitting .registering) : MovesOne w (w.finish i s' result) i :=
  movesOne_setCaller s' .ended _ before (by simp) fun h => h.elim

theorem movesOne_send (transfers : List NativeTransfer) : MovesOne w (w.step crates (.send i transfers)) i := by
  rw [World.step]
  split
  · rename_i hcaller
    have hbefore : (w.sends i).caller ≠ .submitting .registering := by simp [hcaller]
    split
    · exact movesOne_finish _ _ hbefore
    · exact movesOne_setCaller _ _ _ hbefore (by simp) fun _ => by rw [hcaller]; trivial
  · exact movesOne_refl w i

theorem movesOne_drop (hbefore : (w.sends i).caller ≠ .submitting .registering) : MovesOne w (w.drop i) i := by
  have hended : ∀ s', MovesOne w (w.setCaller i s' .ended) i := fun s' =>
    movesOne_setCaller s' .ended _ hbefore (by simp) fun h => h.elim
  unfold World.drop
  split
  · exact movesOne_refl w i
  · exact movesOne_refl w i
  · exact movesOne_refl w i
  · exact movesOne_refl w i
  · exact movesOne_refl w i
  · exact hended _
  · exact hended _
  · exact hended _
  · exact absurd (by assumption) hbefore
  · exact hended _

theorem movesOne_pollSubmit (task : Submit) (hcaller : (w.sends i).caller = .submitting task)
    (hbefore : (w.sends i).caller ≠ .submitting .registering) : MovesOne w (w.pollSubmit i reply task) i := by
  cases task with
  | height batch first =>
    have hearly : (w.sends i).caller.Early := by rw [hcaller]; trivial
    have hfailing : ∀ error trace, MovesOne w (w.act i w.state
        { w.sends i with caller := .submitting (.failing batch.leases error) } trace) i := fun error trace =>
      movesOne_setCaller _ _ trace hbefore (by simp) fun _ => hearly
    rw [World.pollSubmit]
    split
    · exact hfailing _ []
    · split
      · exact hfailing _ []
      · split
        · exact hfailing _ _
        · exact .inr ⟨_, @Moves.registers _ (.dormant _ _ _) hearly trivial, rfl⟩
  | registering => exact absurd hcaller hbefore
  | waiting =>
    rw [World.pollSubmit]
    split
    · exact movesOne_finish _ _ hbefore
    · split
      · exact movesOne_finish _ _ hbefore
      · exact movesOne_finish _ _ hbefore
      · exact movesOne_refl w i
  | failing leases error => exact movesOne_finish _ _ hbefore

theorem movesOne_poll (hbefore : (w.sends i).caller ≠ .submitting .registering) :
    MovesOne w (w.poll crates i reply) i := by
  unfold World.poll
  split
  · exact movesOne_refl w i
  · exact movesOne_refl w i
  · rename_i keys task hcaller
    have hearly : (w.sends i).caller.Early := by rw [hcaller]; trivial
    split
    · exact movesOne_setCaller _ _ _ hbefore (by simp) fun _ => hearly
    · exact movesOne_finish _ _ hbefore
    · exact movesOne_setCaller _ _ _ hbefore (by simp) fun _ => hearly
  · rename_i keys task hcaller
    have hearly : (w.sends i).caller.Early := by rw [hcaller]; trivial
    split
    · exact movesOne_setCaller _ _ _ hbefore (by simp) fun _ => hearly
    · exact movesOne_finish _ _ hbefore
    · rename_i batch _
      refine movesOne_setCaller _ _ _ hbefore ?_ fun _ => hearly
      unfold Submit.start
      split
      · simp
      · split <;> simp
  · rename_i task hcaller
    exact movesOne_pollSubmit task hcaller hbefore

theorem Linked.moves {x' : Send} (h : Linked x call ack status queued)
    (hfresh : call = .fresh → ack = .pending ∧ status = .unregistered) (hmoves : Moves x x') :
    Linked x' call ack status queued := by
  cases hmoves with
  | @caller caller hbefore hafter hearly =>
    refine ⟨fun hx => h.early (hearly hx), fun hx => absurd hx hafter, h.started, h.dormant, h.lost, h.settled,
      fun hp hq _ => h.held hp hq hbefore, h.reported⟩
  | @registers t hearly hdormant =>
    obtain ⟨hcall, hactivation⟩ := h.early hearly
    obtain ⟨hack, hstatus⟩ := hfresh hcall
    refine ⟨fun hx => hx.elim, fun _ => ⟨hactivation, by simp⟩, h.started, fun _ u hu => ?_, by simp [hack],
      by simp [hstatus], by simp, fun hx => by simp [hactivation] at hx⟩
    cases hu
    exact hdormant

/-! ## What the task does -/

/-- A poll that ends the loop of `run` reports. -/
def Tells (ran : Solana.Ran) : Prop := (∀ t ∈ ran.task, Told t) → World.reportOf ran.trace ≠ none

theorem tells_complete (s : Solana.SourceState) (guarded : Finset Solana.Address)
    (result : Except Wallets.SendError (List PaymentSdk.Id)) (trace : List Solana.Trace) :
    Tells (Solana.Task.complete s guarded result trace) := by
  intro _
  simp [Solana.Task.complete, World.reportOf, List.findSome?_append]

theorem tells_ambiguous (s : Solana.SourceState) (r : Solana.Running) (trace : List Solana.Trace) :
    Tells (Solana.Task.ambiguous s r trace) := by
  intro _
  simp [Solana.Task.ambiguous, World.reportOf, List.findSome?_append]

theorem tells_going {s : Solana.SourceState} {t : Solana.Task} {trace : List Solana.Trace} (h : ¬ Told t) :
    Tells ⟨s, some t, trace⟩ := fun htold => absurd (htold t rfl) h

theorem tells_accept (s : Solana.SourceState) (r : Solana.Running) : Tells (Solana.Task.accept s r) := by
  unfold Solana.Task.accept
  dsimp only
  split
  · exact tells_complete _ _ _ _
  · exact tells_going id

theorem tells_poll {s : Solana.SourceState} (t : Solana.Task) (h : ¬ Told t) : Tells (t.poll crates s reply) := by
  cases t with
  | dormant floor envelopes guarded =>
    cases envelopes with
    | nil => exact tells_complete _ _ _ _
    | cons first rest => exact tells_going id
  | height r =>
    rw [Solana.Task.poll]
    split
    · exact tells_complete _ _ _ _
    · split
      · exact tells_complete _ _ _ _
      · exact tells_going id
  | sending r attempt =>
    rw [Solana.Task.poll]
    split
    · exact tells_accept _ _
    · exact tells_going id
  | status r attempt =>
    rw [Solana.Task.poll]
    split
    · exact tells_accept _ _
    · split
      · exact tells_going id
      · exact tells_ambiguous _ _ _
    · exact tells_ambiguous _ _ _
  | expiry r attempt =>
    rw [Solana.Task.poll]
    split
    · exact tells_ambiguous _ _ _
    · split
      · exact tells_going id
      · exact tells_ambiguous _ _ _
  | resolving envelope task => exact absurd trivial h

theorem Linked.leaves (h : Linked x call ack status queued) (hcaller : x.caller = .submitting .registering)
    (hheld : ack = .pending → ¬ queued → x.task = none) :
    Linked { x with caller := .ended, activation := .dropped } call ack status queued := by
  have hactivation := (h.registering hcaller).1
  refine ⟨fun hx => hx.elim, by simp, by simp, fun _ => ?_, h.lost, h.settled, fun hp hq _ => hheld hp hq, by simp⟩
  exact h.dormant (by simp [hactivation])

theorem linked_none :
    Linked { x with caller := .ended, activation := .dropped, task := none } call ack status queued :=
  ⟨fun hx => hx.elim, by simp, by simp, by simp, by simp, by simp, by simp, by simp⟩

theorem Linked.activates (h : Linked x call .sent status queued) (hcaller : x.caller = .submitting .registering) :
    Linked { x with caller := .submitting .waiting, activation := .started } call .sent status queued := by
  obtain ⟨hactivation, htask⟩ := h.registering hcaller
  refine ⟨fun hx => hx.elim, by simp, by simp, by simp, by simp, h.settled, by simp, fun _ htold => ?_⟩
  obtain ⟨t, ht⟩ := Option.ne_none_iff_exists'.mp (htask (by simp))
  have hdormant := h.dormant (by simp [hactivation]) t ht
  have := htold t ht
  cases t with
  | dormant _ _ _ => exact this.elim
  | height _ | sending _ _ | status _ _ | expiry _ _ | resolving _ _ => exact hdormant.elim

end Links

/-! ## Runs of both -/

namespace Service

variable {crates : Crates} {v : Service} {i : Nat} {reply : Reply}

/-- Every send agrees with what the supervisor and the queue hold of it. -/
structure Inv (v : Service) : Prop where
  supervisor : Submissions.Inv v.supervisor
  calm : v.supervisor.Calm
  linked : ∀ i, Linked (v.world.sends i) (v.supervisor.calls (.insert i)) (v.supervisor.acks (.insert i))
    (v.supervisor.status i) (.insert i ∈ v.supervisor.queue)

theorem advance_inv (h : v.Inv) (event : Event) (hevent : ∀ j, event ≠ .ended j false)
    (hcalm : (Submissions.step v.supervisor event).Calm)
    (hbegin : ∀ i, event = .begin (.insert i) → ¬ (v.world.sends i).caller.Early) : (v.advance event).Inv where
  supervisor := step_inv h.supervisor event
  calm := hcalm
  linked := by
    intro i
    have hfresh : (v.world.sends i).caller.Early → (Submissions.step v.supervisor event).calls (.insert i) = .fresh := by
      intro hearly
      have hbefore := ((h.linked i).early hearly).1
      rcases step_calls v.supervisor event with hcalls | ⟨c, call, hadvances, hcalls⟩
      · rw [hcalls, hbefore]
      · rw [hcalls]
        by_cases hc : Command.insert i = c
        · subst hc
          rw [hbefore] at hadvances
          cases hadvances with
          | begin => exact absurd hearly (hbegin i rfl)
          | drop hcall => simp at hcall
        · rw [Function.update_of_ne hc, hbefore]
    rw [advance_world event hcalm]
    simp only [advance, sends_dropTasks]
    exact (h.linked i).fate h.supervisor (step_fate h.supervisor event hevent i) hcalm hfresh

theorem advance_calm (h : v.Inv) (event : Event) (hevent : ∀ j panicked, event ≠ .ended j panicked)
    (hbegin : ∀ i, event = .begin (.insert i) → ¬ (v.world.sends i).caller.Early) : (v.advance event).Inv :=
  advance_inv h event (fun j => hevent j false) (calm_of_other h.supervisor h.calm event hevent) hbegin

theorem Inv.setSend {w : World} {x : Send} (h : v.Inv) (hsends : w.sends = Function.update v.world.sends i x)
    (hx : Linked x (v.supervisor.calls (.insert i)) (v.supervisor.acks (.insert i)) (v.supervisor.status i)
      (.insert i ∈ v.supervisor.queue)) : Inv { v with world := w } where
  supervisor := h.supervisor
  calm := h.calm
  linked := by
    intro j
    by_cases hj : j = i
    · subst hj
      simpa [hsends] using hx
    · simpa [hsends, hj] using h.linked j

theorem Inv.movesOne {w : World} (h : v.Inv) (hmoves : MovesOne v.world w i) : Inv { v with world := w } := by
  rcases hmoves with hsends | ⟨x, hx, hsends⟩
  · exact h.setSend (i := i) (x := v.world.sends i) (by rw [hsends, Function.update_eq_self]) (h.linked i)
  · refine h.setSend hsends ((h.linked i).moves (fun hfresh => ?_) hx)
    have hpending := ((h.supervisor.custody (.insert i)).of_early (.inl hfresh)).2
    exact ⟨hpending, h.supervisor.status_of_pending hpending⟩

theorem sends_poll {w : World} (hcaller : (w.sends i).caller = .submitting .registering) :
    (w.poll crates i reply).sends = Function.update w.sends i
      (if ¬ reply.interrupted ∧ reply.registered then
        { w.sends i with caller := .submitting .waiting, activation := .started }
      else { w.sends i with caller := .ended, activation := .dropped }) := by
  rw [World.poll, hcaller]
  dsimp only
  rw [World.pollSubmit]
  split
  · rename_i hinterrupted
    rw [if_neg fun h => h.1 hinterrupted]
    rfl
  · rename_i hinterrupted
    split
    · rename_i hregistered
      rw [if_pos ⟨hinterrupted, hregistered⟩]
      rfl
    · rename_i hregistered
      rw [if_neg fun h => hregistered h.2]
      rfl

theorem sends_drop {w : World} (hcaller : (w.sends i).caller = .submitting .registering) :
    (w.drop i).sends = Function.update w.sends i { w.sends i with caller := .ended, activation := .dropped } := by
  rw [World.drop, hcaller]
  rfl

theorem registering_iff : v.registering i = true ↔ (v.world.sends i).caller = .submitting .registering := by
  unfold registering
  split
  · rename_i hcaller
    simp [hcaller]
  · rename_i hcaller
    simpa using hcaller

theorem caller_unwind (w : World) (j i : Nat) : ((unwind w j).sends i).caller = (w.sends i).caller := by
  unfold unwind
  split
  · rfl
  · by_cases hi : i = j
    · subst hi
      simp [World.act]
    · simp [World.act, hi]

theorem advance_caller (event : Event) : ((v.advance event).world.sends i).caller = (v.world.sends i).caller := by
  have hunwind : ∀ (tasks : List Nat) (w : World), ((tasks.foldl unwind w).sends i).caller = (w.sends i).caller := by
    intro tasks
    induction tasks with
    | nil => exact fun _ => rfl
    | cons j rest ih => exact fun w => (ih _).trans (caller_unwind w j i)
  rw [advance, hunwind]
  simp only [sends_dropTasks]
  split
  · exact withoutDormant_caller _
  · rfl

theorem abandon_caller : ((v.abandon i).world.sends i).caller = (v.world.sends i).caller := by
  unfold abandon
  split
  · simp [sends_dropTask, withoutDormant_caller]
  · exact advance_caller _

/-- What the caller gives up is dropped, or it is with the supervisor. -/
theorem abandon_inv {w : World} (h : v.Inv) (hcaller : (v.world.sends i).caller = .submitting .registering)
    (hcall : v.supervisor.calls (.insert i) ≠ .permitted)
    (hw : w.sends = Function.update (v.abandon i).world.sends i
      { (v.abandon i).world.sends i with caller := .ended, activation := .dropped }) :
    Inv { v.abandon i with world := w } := by
  unfold abandon at hw ⊢
  split at hw
  · rename_i hfresh
    have hactivation := ((h.linked i).registering hcaller).1
    have hx : withoutDormant (v.world.sends i) = { v.world.sends i with task := none } :=
      withoutDormant_eq (by simp [hactivation]) ((h.linked i).dormant (by simp [hactivation]))
    refine h.setSend (i := i) ?_ (linked_none (x := v.world.sends i))
    rw [hw]
    funext j
    by_cases hj : j = i
    · subst hj
      simp [sends_dropTask, hx]
    · simp [sends_dropTask, hj]
  · rename_i hfresh
    have hinv := advance_calm h (.drop (.insert i)) (by simp) (by simp)
    refine hinv.setSend hw ((hinv.linked i).leaves (by rw [advance_caller, hcaller]) fun hpending hqueued => ?_)
    have hcustody := hinv.supervisor.custody (.insert i)
    rw [hpending] at hcustody
    cases hcustody with
    | channel inside _ => exact absurd inside hqueued
    | call _ hearly =>
      simp only [advance, Submissions.step, Supervisor.drop] at hearly
      split at hearly
      · simp [Supervisor.setCall] at hearly
      · simp [Supervisor.setCall] at hearly
      · rename_i hsending _
        rcases hearly with hearly | hearly | hearly
        · exact absurd hearly hfresh
        · exact absurd hearly hsending
        · exact absurd hearly hcall

theorem pollRegister_inv (h : v.Inv) (hcaller : (v.world.sends i).caller = .submitting .registering) :
    (v.pollRegister crates i reply).Inv := by
  unfold pollRegister
  split
  · exact h
  · rename_i hcall
    have hcall : v.supervisor.calls (.insert i) ≠ .permitted := hcall
    split
    · rename_i hinterrupted
      apply abandon_inv h hcaller hcall
      rw [sends_poll, if_neg fun hr => hr.1 hinterrupted]
      rw [abandon_caller, hcaller]
    · rename_i hinterrupted
      dsimp only
      have hadvance : (v.advance (registerEvent i (v.supervisor.calls (.insert i)))).Inv := by
        apply advance_calm h
        · intro j panicked
          unfold registerEvent
          split <;> simp
        · intro j hevent
          unfold registerEvent at hevent
          split at hevent
          · obtain rfl : i = j := by simpa using hevent
            rw [hcaller]
            exact id
          · cases hevent
      generalize hu : v.advance _ = u at hadvance ⊢
      have hregistering : (u.world.sends i).caller = .submitting .registering := by
        rw [← hu, advance_caller, hcaller]
      split
      · rename_i hcalls
        have hack := hadvance.supervisor.acknowledged hcalls
        have hlinked := hadvance.linked i
        refine hadvance.setSend (sends_poll hregistering) ?_
        rw [if_pos ⟨hinterrupted, rfl⟩]
        rw [hack] at hlinked ⊢
        exact hlinked.activates hregistering
      · rename_i hcalls
        have hack := hadvance.supervisor.refused hcalls
        refine hadvance.setSend (sends_poll hregistering) ?_
        rw [if_neg fun hr => by simp at hr]
        exact (hadvance.linked i).leaves hregistering fun hpending => by simp [hack] at hpending
      · exact hadvance

theorem polled_inv {w : World} {x : Send} (h : v.Inv) (hrunning : v.supervisor.status i = .running)
    (hsends : w.sends = Function.update v.world.sends i x)
    (hx : Linked x (v.supervisor.calls (.insert i)) (v.supervisor.acks (.insert i)) .running
      (.insert i ∈ v.supervisor.queue)) :
    Inv { world := w, supervisor := if (w.sends i).task.isNone then v.supervisor.endTask i false else v.supervisor } := by
  have hinv : Inv { v with world := w } := h.setSend hsends (by rwa [hrunning])
  have hsend : w.sends i = x := by rw [hsends, Function.update_self]
  split
  · rename_i hnone
    rw [hsend, Option.isNone_iff_eq_none] at hnone
    have hended : v.supervisor.endTask i false =
        { v.supervisor with status := Function.update v.supervisor.status i .completed } := by
      simp [Supervisor.endTask, hrunning]
    refine ⟨endTask_inv h.supervisor, fun j => ?_, fun j => ?_⟩
    · rw [hended]
      by_cases hj : j = i
      · simp [hj]
      · simpa [hj] using h.calm j
    · have hlinked := hinv.linked j
      rw [hended]
      by_cases hj : j = i
      · subst hj
        simp only [Function.update_self, hsend]
        exact ⟨hx.early, hx.registering, hx.started, hx.dormant, hx.lost, fun _ => hnone, hx.held, hx.reported⟩
      · simpa [hj] using hlinked
  · exact hinv

theorem pollTask_inv (h : v.Inv) : (v.pollTask crates i reply).Inv := by
  unfold pollTask
  split
  · rename_i hrunning
    have hlinked := h.linked i
    rw [hrunning] at hlinked
    have hack := h.supervisor.sent_of_taken (i := i) (by simp [hrunning]) (by simp [hrunning])
    have hsame : v.world.sends = Function.update v.world.sends i (v.world.sends i) := (Function.update_eq_self i _).symm
    dsimp only
    unfold World.pollTask
    split
    · exact polled_inv h hrunning hsame hlinked
    · rename_i t htask
      split
      · exact polled_inv h hrunning hsame hlinked
      · rename_i hdropped
        have hstarted : (v.world.sends i).activation ≠ .started := by simp [hdropped]
        have hx := withoutDormant_eq hstarted (hlinked.dormant hstarted)
        refine polled_inv (x := withoutDormant (v.world.sends i)) h hrunning ?_ ?_
        · funext j
          rw [sends_dropTask, Function.update_apply]
        · rw [hx]
          exact ⟨hlinked.early, fun hcaller => by simp [(hlinked.registering hcaller).1] at hdropped, hlinked.started,
            by simp, by simp, by simp, by simp, fun hs => absurd hs hstarted⟩
      · rename_i hstarted
        refine polled_inv h hrunning rfl ⟨hlinked.early, fun hcaller => ?_, hlinked.started, by simp [hstarted],
          by simp [hack], by simp, by simp [hack], fun _ htold => ?_⟩
        · have := (hlinked.registering hcaller).1
          simp [this] at hstarted
        · by_cases ht : Told t
          · have hresult := hlinked.reported hstarted fun u hu => by rwa [← Option.some.inj (htask.symm.trans hu)]
            simp [hresult]
          · have htells : Tells (t.poll crates v.world.state reply) := tells_poll t ht
            have hreported := htells htold
            simp [hreported]
  · exact h

/-- The supervisor makes steps of its own. -/
theorem step_supervisor (v : Service) (act : Act) :
    ∃ events, (v.step crates act).supervisor = Submissions.run v.supervisor events := by
  have habandon : ∀ i, ∃ events, (v.abandon i).supervisor = Submissions.run v.supervisor events := by
    intro i
    unfold abandon
    split
    · exact ⟨[], rfl⟩
    · exact ⟨[.drop (.insert i)], rfl⟩
  cases act with
  | send i transfers => exact ⟨[], rfl⟩
  | poll i reply =>
    rw [step]
    split
    · unfold pollRegister
      split
      · exact ⟨[], rfl⟩
      · split
        · exact habandon i
        · dsimp only
          split <;> exact ⟨[registerEvent i _], rfl⟩
    · exact ⟨[], rfl⟩
  | drop i =>
    rw [step, drop]
    split
    · split
      · exact ⟨[], rfl⟩
      · exact habandon i
    · exact ⟨[], rfl⟩
  | pollTask i reply =>
    rw [step, pollTask]
    split
    · dsimp only
      split
      · exact ⟨[.ended i false], rfl⟩
      · exact ⟨[], rfl⟩
    · exact ⟨[], rfl⟩
  | panicTask i =>
    rw [step, panicTask]
    split
    · exact ⟨[.ended i true], rfl⟩
    · exact ⟨[], rfl⟩
  | supervise event =>
    rw [step]
    split
    · exact ⟨[event], rfl⟩
    · exact ⟨[], rfl⟩

theorem run_supervisor (v : Service) (acts : List Act) :
    ∃ events, (v.run crates acts).supervisor = Submissions.run v.supervisor events := by
  induction acts generalizing v with
  | nil => exact ⟨[], rfl⟩
  | cons act rest ih =>
    obtain ⟨first, hfirst⟩ := @step_supervisor crates v act
    obtain ⟨later, hlater⟩ := ih (v.step crates act)
    refine ⟨first ++ later, ?_⟩
    rw [Submissions.run, List.foldl_append]
    rw [hfirst] at hlater
    exact hlater

/-- A step in which no task panics. -/
theorem step_inv (h : v.Inv) (act : Act) (hcalm : (v.step crates act).supervisor.Calm) : (v.step crates act).Inv := by
  cases act with
  | send i transfers => exact h.movesOne (movesOne_send transfers)
  | poll i reply =>
    rw [step]
    split
    · rename_i hregistering
      exact pollRegister_inv h (registering_iff.mp hregistering)
    · rename_i hregistering
      exact h.movesOne (movesOne_poll fun hcaller => hregistering (registering_iff.mpr hcaller))
  | drop i =>
    rw [step, drop]
    split
    · rename_i hregistering
      have hcaller := registering_iff.mp hregistering
      split
      · exact h
      · rename_i hcall
        exact abandon_inv h hcaller hcall (sends_drop (by rw [abandon_caller, hcaller]))
    · rename_i hregistering
      exact h.movesOne (movesOne_drop fun hcaller => hregistering (registering_iff.mpr hcaller))
  | pollTask i reply => exact pollTask_inv h
  | panicTask i =>
    rw [step, panicTask] at hcalm ⊢
    split
    · rename_i hstarted
      rw [if_pos hstarted] at hcalm
      exact advance_inv h (.ended i true) (by simp) hcalm (by simp)
    · exact h
  | supervise event =>
    rw [step] at hcalm ⊢
    split
    · rename_i hown
      rw [if_pos hown] at hcalm
      refine advance_inv h event ?_ hcalm ?_
      · rintro j rfl
        cases hown
      · rintro j rfl
        simp [Event.own, Command.task?] at hown
    · exact h

theorem run_inv (h : v.Inv) (hworld : v.world.Inv) (acts : List Act)
    (hnone : ∀ i, (v.run crates acts).supervisor.status i ≠ .panicked) :
    (v.run crates acts).Inv ∧ (v.run crates acts).world.Inv := by
  induction acts generalizing v with
  | nil => exact ⟨h, hworld⟩
  | cons act rest ih =>
    have hcalm : (v.step crates act).supervisor.Calm := by
      obtain ⟨events, hevents⟩ := @step_supervisor crates v act
      obtain ⟨later, hlater⟩ := @run_supervisor crates (v.step crates act) rest
      rw [hevents] at hlater ⊢
      refine calm_run h.supervisor h.calm events fun i hi => hnone i ?_
      exact hlater ▸ run_panicked (Submissions.run_inv h.supervisor events) hi later
    obtain ⟨events, hfollow⟩ := @follow crates v h.supervisor h.calm act hcalm
    exact ih (step_inv h act hcalm) (hfollow ▸ hworld.steps events) hnone

theorem new_inv {s : Supervisor} {capacity : Nat} (h : Supervisor.new capacity = .ok s) :
    Inv { supervisor := s } := by
  have hinv := Submissions.new_inv h
  unfold Supervisor.new at h
  split at h
  · cases h
  · cases h
    refine ⟨hinv, by simp [Supervisor.Calm], fun i => ?_⟩
    exact ⟨fun _ => ⟨rfl, rfl⟩, by simp, by simp, by simp, by simp, by simp, by simp, by simp⟩

/-! ## After the run of the supervisor -/

theorem supervisor_inv {s : Supervisor} {capacity : Nat} (h : Supervisor.new capacity = .ok s) (acts : List Act) :
    Submissions.Inv (run crates { supervisor := s } acts).supervisor := by
  obtain ⟨events, hevents⟩ := @run_supervisor crates { supervisor := s } acts
  rw [hevents]
  exact Submissions.run_inv (Submissions.new_inv h) events

theorem not_running_of_returned {s : Supervisor} (h : Submissions.Inv s) {result : Except Nat Unit}
    (hphase : s.phase = .returned result) (i : Nat) : s.status i ≠ .running := by
  intro hrunning
  have := h.running i hrunning
  rw [h.returned _ hphase] at this
  cases this

theorem Inv.queued_of_task (h : v.Inv) (hphase : v.supervisor.phase = .returned (.ok ()))
    (hcaller : (v.world.sends i).caller ≠ .submitting .registering) (htask : (v.world.sends i).task ≠ none) :
    .insert i ∈ v.supervisor.queue := by
  by_contra hqueued
  have hlinked := h.linked i
  cases hack : v.supervisor.acks (.insert i) with
  | pending => exact htask (hlinked.held hack hqueued hcaller)
  | sent => exact htask (hlinked.settled (.inr (h.supervisor.joined hphase hack)))
  | lost => exact htask (hlinked.lost hack)

/-- When the supervisor has ended well, every activated task is over and has left its result for
its caller. If the callers are through as well, no source is held any more, apart from those of
commands that were pushed when the receiver was gone. -/
theorem shutdown_settles (crates : Crates) {capacity : Nat} {s : Supervisor} (hnew : Supervisor.new capacity = .ok s)
    (acts : List Act) (hphase : (run crates { supervisor := s } acts).supervisor.phase = .returned (.ok ())) :
    let v := run crates { supervisor := s } acts
    (∀ i, (v.world.sends i).activation = .started →
      (v.world.sends i).task = none ∧ (v.world.sends i).result ≠ none) ∧
    ((∀ i, (v.world.sends i).caller = .fresh ∨ (v.world.sends i).caller = .ended) →
      v.world.state.preparing = ∅ ∧
        ∀ a ∈ v.world.state.guarded, ∃ i, a ∈ Solana.heldBy (v.world.sends i).task ∧ .insert i ∈ v.supervisor.queue) := by
  intro v
  have hsupervisor : Submissions.Inv v.supervisor := supervisor_inv hnew acts
  have hkept : v.Inv ∧ v.world.Inv :=
    run_inv (new_inv hnew) World.inv_empty acts (hsupervisor.not_panicked hphase)
  obtain ⟨hinv, hworld⟩ := hkept
  constructor
  · intro i hstarted
    have hlinked := hinv.linked i
    have hnone := hlinked.settled (.inr (hinv.supervisor.joined hphase (hlinked.started hstarted)))
    exact ⟨hnone, hlinked.reported hstarted (by simp [hnone])⟩
  · intro hcallers
    constructor
    · apply Finset.eq_empty_of_forall_notMem
      intro a ha
      obtain ⟨i, hi⟩ := (hworld.exclusive.preparing a).mp ha
      rcases hcallers i with hcaller | hcaller <;> simp [hcaller, Caller.leased] at hi
    · intro a ha
      obtain ⟨i, hi⟩ := (hworld.exclusive.guarded a).mp ha
      refine ⟨i, hi, hinv.queued_of_task hphase ?_ ?_⟩
      · rcases hcallers i with hcaller | hcaller <;> simp [hcaller]
      · intro hnone
        simp [hnone, Solana.heldBy] at hi

/-- A node that has the envelope. -/
def sampleReply : Reply :=
  { World.sampleReply with status := some ⟨1, [some ⟨1, none, false, "confirmed"⟩]⟩ }

/-- A submission, from its transfer to the result for its caller, and then the close. -/
def sampleActs : List Act :=
  [[.send 0 [World.sampleTransfer 20]], List.replicate 10 (.poll 0 sampleReply),
   [.supervise (.permit (.insert 0)), .supervise (.push (.insert 0)), .supervise .serve, .poll 0 sampleReply,
    .supervise (.begin (.close 0)), .supervise (.permit (.close 0)), .supervise (.push (.close 0)), .supervise .serve,
    .supervise .serve],
   List.replicate 3 (.pollTask 0 sampleReply), [.supervise (.join 0), .supervise .serve]].flatten

theorem shutdown_settles_sample :
    ((run World.sampleCrates { supervisor := sampleSupervisor } sampleActs).world.sends 0).activation = .started ∧
    ((run World.sampleCrates { supervisor := sampleSupervisor } sampleActs).world.sends 0).result ≠ none := by
  have hnew : Supervisor.new 1 = .ok sampleSupervisor := rfl
  have hphase : (run World.sampleCrates { supervisor := sampleSupervisor } sampleActs).supervisor.phase =
      .returned (.ok ()) := rfl
  have hstarted : ((run World.sampleCrates { supervisor := sampleSupervisor } sampleActs).world.sends 0).activation =
      .started := rfl
  exact ⟨hstarted, ((shutdown_settles World.sampleCrates hnew sampleActs hphase).1 0 hstarted).2⟩

/-- Once the supervisor has ended, well or over a panic, nothing is dispatched, and nothing is
reported. -/
theorem silent_after_return (crates : Crates) {capacity : Nat} {s : Supervisor} (hnew : Supervisor.new capacity = .ok s)
    (acts later : List Act) (result : Except Nat Unit)
    (hphase : (run crates { supervisor := s } acts).supervisor.phase = .returned result) :
    ∃ more, (run crates { supervisor := s } (acts ++ later)).world.log =
        (run crates { supervisor := s } acts).world.log ++ more ∧ ∀ x ∈ more, ByCaller x.2 := by
  have hinv : Submissions.Inv (run crates { supervisor := s } acts).supervisor := supervisor_inv hnew acts
  have happend : run crates { supervisor := s } (acts ++ later) =
      run crates (run crates { supervisor := s } acts) later := by
    rw [run, List.foldl_append]
    rfl
  rw [happend]
  generalize run crates { supervisor := s } acts = v at hphase hinv
  clear happend
  change Quiet v.world (v.run crates later).world
  induction later generalizing v with
  | nil => exact quiet_same rfl
  | cons act rest ih =>
    obtain ⟨events, hevents⟩ := @step_supervisor crates v act
    have hnext : Submissions.Inv (v.step crates act).supervisor := hevents ▸ Submissions.run_inv hinv events
    have hreturned : (v.step crates act).supervisor.phase = .returned result := hevents ▸ run_phase hphase events
    exact (quiet_step (not_running_of_returned hinv hphase) act).trans (ih (v.step crates act) hreturned hnext)

/-- The task panics after the first dispatch, and the supervisor returns with it. Then the caller
is told that its task has ended. -/
def samplePanic : List Act :=
  sampleActs.take 20 ++ [Act.pollTask 0 sampleReply, Act.panicTask 0, Act.supervise (.join 0)]

theorem silent_after_return_sample :
    (run World.sampleCrates { supervisor := sampleSupervisor } samplePanic).supervisor.phase = .returned (.error 0) ∧
    ∃ more,
      (run World.sampleCrates { supervisor := sampleSupervisor } (samplePanic ++ [.poll 0 sampleReply])).world.log =
          (run World.sampleCrates { supervisor := sampleSupervisor } samplePanic).world.log ++ more ∧
        ∀ x ∈ more, ByCaller x.2 := by
  have hnew : Supervisor.new 1 = .ok sampleSupervisor := rfl
  have hphase : (run World.sampleCrates { supervisor := sampleSupervisor } samplePanic).supervisor.phase =
      .returned (.error 0) := rfl
  exact ⟨hphase, silent_after_return World.sampleCrates hnew samplePanic [.poll 0 sampleReply] _ hphase⟩

end Service

end PaymentSdk.Submissions
