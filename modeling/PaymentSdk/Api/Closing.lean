import PaymentSdk.Api.Submissions

/-!
# The close of the submissions

Once a close is acknowledged, the supervisor has taken all that it ever takes. If its tasks come
to a good end, so does its run.
-/

open Interaction

namespace PaymentSdk.Submissions

variable {s : Supervisor} {c : Command} {i : Nat}

/-! ## After a close -/

/-- The loop that takes commands is over. -/
def Supervisor.Closed (s : Supervisor) : Prop := s.phase ≠ .serving ∧ s.accepting = false

theorem Inv.closes {j : Nat} (h : Inv s) (hack : s.acks (.close j) = .sent) : s.Closed := by
  have haccepting := h.closed j hack
  refine ⟨fun hphase => ?_, haccepting⟩
  rw [h.serving hphase] at haccepting
  cases haccepting

theorem discard_sent (d : Command) (h : (s.discard c).acks d = .sent) : s.acks d = .sent := by
  rw [discard_acks] at h
  split at h
  · cases h
  · exact h

theorem returns_closed (result : Except Nat Unit) : (s.returns result).Closed ∧
    ∀ c, (s.returns result).acks c = .sent → s.acks c = .sent := by
  refine ⟨⟨by simp [Supervisor.returns], rfl⟩, fun c hc => ?_⟩
  simp only [Supervisor.returns] at hc
  split at hc
  · cases hc
  · exact hc

/-- After that nothing is taken any more. -/
theorem step_closed (h : s.Closed) (event : Event) : (step s event).Closed ∧
    ∀ c, (step s event).acks c = .sent → s.acks c = .sent := by
  cases event with
  | serve =>
    rw [step, Supervisor.serve]
    split
    · exact absurd (by assumption) h.1
    · exact absurd (by assumption) h.1
    · exact absurd (by assumption) h.1
    · exact ⟨h, discard_sent⟩
    · exact ⟨⟨by simp, h.2⟩, fun _ => id⟩
    · split
      · exact returns_closed _
      · exact ⟨h, fun _ => id⟩
    · exact ⟨h, fun _ => id⟩
  | join i =>
    rw [step, Supervisor.join]
    split
    · split
      · exact ⟨h, fun _ => id⟩
      · exact ⟨h, fun _ => id⟩
      · exact returns_closed _
      · exact returns_closed _
      · exact ⟨h, fun _ => id⟩
    · exact ⟨h, fun _ => id⟩
  | poll c =>
    rw [step, Supervisor.poll]
    split
    · split
      · exact ⟨h, fun _ => id⟩
      · exact ⟨h, discard_sent⟩
    · split <;> exact ⟨h, fun _ => id⟩
    · exact ⟨h, fun _ => id⟩
  | drop c =>
    rw [step, Supervisor.drop]
    split
    · exact ⟨h, discard_sent⟩
    · exact ⟨h, fun _ => id⟩
    · exact ⟨h, fun _ => id⟩
  | begin _ | permit _ | push _ | clone | release | ended _ _ =>
    simp only [step, Supervisor.begin, Supervisor.permit, Supervisor.push, Supervisor.release, Supervisor.endTask]
    repeat' split
    all_goals exact ⟨h, fun _ => id⟩

theorem run_closed (h : s.Closed) (events : List Event) : (run s events).Closed ∧
    ∀ c, (run s events).acks c = .sent → s.acks c = .sent := by
  induction events generalizing s with
  | nil => exact ⟨h, fun _ => id⟩
  | cons event rest ih =>
    obtain ⟨hclosed, hstep⟩ := step_closed h event
    obtain ⟨hlast, hrun⟩ := ih hclosed
    exact ⟨hlast, fun c hc => hstep c (hrun c hc)⟩

/-- A call that comes to a closed channel. -/
def Call.Late (call : Call) : Prop :=
  call = .fresh ∨ call = .sending ∨ call = .dropped ∨ call = .returned (.error .closed)

theorem step_late (h : s.accepting = false) (hlate : (s.calls c).Late) (event : Event) :
    ((step s event).calls c).Late := by
  rcases step_calls s event with hcalls | ⟨d, call, hadvances, hcalls⟩
  · rwa [hcalls]
  · rw [hcalls]
    by_cases hd : c = d
    · subst hd
      rw [Function.update_self]
      generalize s.calls c = before at hlate hadvances
      cases hadvances with
      | begin => exact .inr (.inl rfl)
      | permit haccepting =>
        rw [h] at haccepting
        cases haccepting
      | refuse _ => exact .inr (.inr (.inr rfl))
      | drop _ => exact .inr (.inr (.inl rfl))
      | push | answer _ | lose _ => simp [Call.Late] at hlate
    · rwa [Function.update_of_ne hd]

theorem run_late (h : s.Closed) (hlate : (s.calls c).Late) (events : List Event) : ((run s events).calls c).Late := by
  induction events generalizing s with
  | nil => exact hlate
  | cons event rest ih => exact ih (step_closed h event).1 (step_late h.2 hlate event)

/-- Once a close is acknowledged, the supervisor has taken all that it ever takes. A call that is
still before its send, or that comes later, is told that the channel is closed. -/
theorem close_final {capacity : Nat} (hnew : Supervisor.new capacity = .ok s) (events later : List Event) (j : Nat)
    (hclose : (run s events).calls (.close j) = .returned (.ok ())) :
    (∀ i, (run s (events ++ later)).status i ≠ .unregistered → (run s (events ++ later)).status i ≠ .dropped →
      (run s events).status i ≠ .unregistered ∧ (run s events).status i ≠ .dropped) ∧
    ∀ c, (run s events).calls c = .fresh ∨ (run s events).calls c = .sending →
      ((run s (events ++ later)).calls c).Late := by
  have hinv := run_inv (new_inv hnew) events
  have hlater := run_inv (new_inv hnew) (events ++ later)
  have hclosed := hinv.closes (hinv.acknowledged hclose)
  have happend : run s (events ++ later) = run (run s events) later := by
    rw [run, List.foldl_append]
    rfl
  obtain ⟨_, hsent⟩ := run_closed hclosed later
  rw [happend] at hlater ⊢
  refine ⟨fun i hregistered hdropped => ?_, fun c hc => run_late hclosed (hc.imp id .inl) later⟩
  have hack := hlater.sent_of_taken hregistered hdropped
  have hfollows := hinv.follows i
  rwa [hsent _ hack] at hfollows

/-- A call that comes after the close of the sample run. -/
def sampleLate : List Event := [.begin (.insert 8), .poll (.insert 8)]

theorem close_final_sample :
    (run sampleSupervisor (sample ++ sampleLate)).calls (.insert 8) = .returned (.error .closed) ∧
    ((run sampleSupervisor (sample ++ sampleLate)).calls (.insert 8)).Late := by
  have hnew : Supervisor.new 1 = .ok sampleSupervisor := rfl
  have hclose : (run sampleSupervisor sample).calls (.close 0) = .returned (.ok ()) := rfl
  have hfresh : (run sampleSupervisor sample).calls (.insert 8) = .fresh := rfl
  exact ⟨rfl, (close_final hnew sample sampleLate 0 hclose).2 (.insert 8) (.inl hfresh)⟩

/-! ## The end of the run -/

/-- The supervisor acts, or a task that it runs comes to a good end. -/
def Event.Drains : Event → Prop
  | .serve | .join _ | .ended _ false => True
  | _ => False

/-- Some draining steps lead from `s` to a state with `P`. -/
def Supervisor.LeadsTo (s : Supervisor) (P : Supervisor → Prop) : Prop :=
  ∃ events, (∀ e ∈ events, e.Drains) ∧ P (run s events)

theorem leadsTo_of {P : Supervisor → Prop} (h : P s) : s.LeadsTo P := ⟨[], by simp, h⟩

theorem leadsTo_step {P : Supervisor → Prop} (event : Event) (hevent : event.Drains)
    (h : (step s event).LeadsTo P) : s.LeadsTo P := by
  obtain ⟨events, hevents, hP⟩ := h
  refine ⟨event :: events, fun e he => ?_, hP⟩
  rcases List.mem_cons.mp he with rfl | he
  · exact hevent
  · exact hevents e he

theorem LeadsTo.trans {P Q : Supervisor → Prop} (h : s.LeadsTo P) (hnext : ∀ t, P t → t.LeadsTo Q) : s.LeadsTo Q := by
  obtain ⟨events, hevents, hP⟩ := h
  obtain ⟨later, hlater, hQ⟩ := hnext _ hP
  refine ⟨events ++ later, fun e he => ?_, ?_⟩
  · exact (List.mem_append.mp he).elim (hevents e) (hlater e)
  · rwa [run, List.foldl_append]

/-- No task of the set has panicked. -/
def Supervisor.Sound (s : Supervisor) : Prop := Inv s ∧ ∀ i ∈ s.tasks, s.status i ≠ .panicked

theorem joining_leads (h : s.Sound) (hphase : s.phase = .joining) : s.LeadsTo (·.phase = .returned (.ok ())) := by
  induction hn : s.tasks.length generalizing s with
  | zero =>
    have hempty : s.tasks = [] := List.length_eq_zero_iff.mp hn
    apply leadsTo_step .serve trivial
    apply leadsTo_of
    simp [step, Supervisor.serve, hphase, hempty, Supervisor.returns]
  | succ n ih =>
    obtain ⟨i, hi⟩ : ∃ i, i ∈ s.tasks := List.exists_mem_of_length_pos (by omega)
    -- A task that is still running ends first.
    have hcompleted : ∀ t : Supervisor, t.Sound → t.phase = .joining → t.tasks = s.tasks → t.status i = .completed →
        t.LeadsTo (·.phase = .returned (.ok ())) := by
      intro t ht hjoining htasks hstatus
      have hstep : step t (.join i) =
          { t with tasks := t.tasks.erase i, status := Function.update t.status i .joined } := by
        rw [step, Supervisor.join, if_pos (by rwa [htasks]), hjoining, hstatus]
      apply leadsTo_step (.join i) trivial
      apply ih
      · refine ⟨step_inv ht.1 _, ?_⟩
        rw [hstep]
        intro j hj
        obtain ⟨hji, hmem⟩ := (ht.1.tasks.1.mem_erase_iff).mp hj
        simpa [hji] using ht.2 j hmem
      · rw [hstep]
        exact hjoining
      · rw [hstep]
        have := List.length_erase_of_mem hi
        dsimp only
        rw [htasks]
        omega
    rcases h.1.tasks.2 i hi with hrunning | hstatus | hpanicked
    · have hstep : step s (.ended i false) = { s with status := Function.update s.status i .completed } := by
        simp [step, Supervisor.endTask, hrunning]
      apply leadsTo_step (.ended i false) trivial
      have hinv := step_inv h.1 (.ended i false)
      rw [hstep] at hinv ⊢
      refine hcompleted _ ⟨hinv, fun j hj => ?_⟩ hphase rfl (by simp)
      by_cases hji : j = i
      · simp [hji]
      · simpa [hji] using h.2 j hj
    · exact hcompleted s h hphase rfl hstatus
    · exact absurd hpanicked (h.2 i hi)

theorem draining_leads (h : s.Sound) (hphase : s.phase = .draining) :
    s.LeadsTo fun t => t.Sound ∧ t.phase = .joining := by
  induction hn : s.queue generalizing s with
  | nil =>
    have hstep : step s .serve = { s with phase := .joining } := by
      rw [step, Supervisor.serve, hphase, hn]
    apply leadsTo_step .serve trivial
    have hinv := step_inv h.1 .serve
    rw [hstep] at hinv ⊢
    exact leadsTo_of ⟨⟨hinv, h.2⟩, rfl⟩
  | cons c rest ih =>
    have hstep : step s .serve = { s with queue := rest }.discard c := by
      rw [step, Supervisor.serve, hphase, hn]
    apply leadsTo_step .serve trivial
    have hinv := step_inv h.1 .serve
    rw [hstep] at hinv ⊢
    refine ih ⟨hinv, fun i hi => ?_⟩ hphase rfl
    rw [discard_status]
    split
    · simp
    · exact h.2 i hi

/-- After a close nothing is in the way of the end: if the tasks come to a good end, so does the run. -/
theorem close_drains {capacity : Nat} (hnew : Supervisor.new capacity = .ok s) (events : List Event) (j : Nat)
    (hclose : (run s events).calls (.close j) = .returned (.ok ())) (hgoing : ∀ e, (run s events).phase ≠ .returned (.error e))
    (hpanicked : ∀ i ∈ (run s events).tasks, (run s events).status i ≠ .panicked) :
    ∃ later, (∀ e ∈ later, e.Drains) ∧ (run s (events ++ later)).phase = .returned (.ok ()) := by
  have hinv := run_inv (new_inv hnew) events
  have hclosed := hinv.closes (hinv.acknowledged hclose)
  have happend : ∀ later, run s (events ++ later) = run (run s events) later := fun later => by
    rw [run, List.foldl_append]
    rfl
  simp only [happend]
  change (run s events).LeadsTo (·.phase = .returned (.ok ()))
  cases hphase : (run s events).phase with
  | serving => exact absurd hphase hclosed.1
  | draining =>
    refine LeadsTo.trans (draining_leads ⟨hinv, hpanicked⟩ hphase) fun t ht => ?_
    exact joining_leads ht.1 ht.2
  | joining => exact joining_leads ⟨hinv, hpanicked⟩ hphase
  | returned result =>
    cases result with
    | ok => exact leadsTo_of hphase
    | error e => exact absurd hphase (hgoing e)

theorem close_drains_sample :
    ∃ later, (∀ e ∈ later, e.Drains) ∧ (run sampleSupervisor (sample ++ later)).phase = .returned (.ok ()) := by
  have hnew : Supervisor.new 1 = .ok sampleSupervisor := rfl
  have hclose : (run sampleSupervisor sample).calls (.close 0) = .returned (.ok ()) := rfl
  have hphase : (run sampleSupervisor sample).phase = .draining := rfl
  have hstatus : (run sampleSupervisor sample).status 7 = .running := rfl
  refine close_drains hnew sample 0 hclose (fun e he => ?_) fun i hi => ?_
  · rw [hphase] at he
    cases he
  · obtain rfl : i = 7 := List.mem_singleton.mp hi
    rw [hstatus]
    decide

end PaymentSdk.Submissions
