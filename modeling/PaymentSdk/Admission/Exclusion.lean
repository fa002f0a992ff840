import PaymentSdk.Admission.Spec

/-!
# Exclusion, and no lost wake-up

The flags say exactly which permit is out, whatever the order of steps. A waiter stays
listed only while a permit is out, so the last permit to end wakes every waiter.
-/

namespace PaymentSdk.Admission

variable {I : Type} {sys : System I}

/-- A started commit was abandoned after the last reload. -/
def Abandoned (trail : List Mark) : Prop :=
  ∃ newer older, trail = newer ++ .abandoned :: older ∧ .reloaded ∉ newer

theorem abandoned_cons (trail : List Mark) : Abandoned (.abandoned :: trail) :=
  ⟨[], trail, rfl, by simp⟩

theorem not_abandoned_nil : ¬ Abandoned [] := by
  rintro ⟨newer, older, h, -⟩
  simp at h

theorem not_abandoned_reloaded (trail : List Mark) : ¬ Abandoned (.reloaded :: trail) := by
  rintro ⟨newer, older, h, hnew⟩
  cases newer with
  | nil => cases h
  | cons m newer =>
    obtain ⟨rfl, -⟩ := List.cons.inj h
    exact hnew List.mem_cons_self

/-- At most one permit is out, and the flags say of which kind. -/
structure Exclusion (sys : System I) : Prop where
  single : sys.commits.length + sys.permits.length ≤ 1
  commit : sys.state.commit = true ↔ sys.commits ≠ []
  publication : sys.state.publication = true ↔ sys.permits ≠ []
  waiters : sys.state.waiters ≠ [] → sys.commits ≠ [] ∨ sys.permits ≠ []
  woken : ∀ t ∈ sys.waiting, t ∈ sys.state.waiters ∨ t ∈ sys.fired
  recovery : sys.state.recovery = true ↔ Abandoned sys.trail

/-! ## The state's own functions -/

theorem reload_commit (s : State) (p : Option BlockRef) : (s.reload p).commit = s.commit := by
  unfold State.reload; split <;> rfl

theorem reload_publication (s : State) (p : Option BlockRef) :
    (s.reload p).publication = s.publication := by
  unfold State.reload; split <;> rfl

theorem reload_waiters (s : State) (p : Option BlockRef) : (s.reload p).waiters = s.waiters := by
  unfold State.reload; split <;> rfl

theorem reload_recovery (p : Option BlockRef) (h : sys.state.recovery = true ↔ Abandoned sys.trail) :
    (sys.state.reload p).recovery = true ↔ Abandoned (sys.noteReload p) := by
  unfold State.reload System.noteReload
  split
  · simp [not_abandoned_reloaded]
  · exact h

theorem idle_iff (h : Exclusion sys) : sys.state.busy = false ↔ sys.commits = [] ∧ sys.permits = [] := by
  simp only [State.busy, Bool.or_eq_false_iff]
  rw [← Bool.not_eq_true, ← Bool.not_eq_true, h.commit, h.publication, not_not, not_not]

theorem waiters_idle (h : Exclusion sys) (hidle : sys.state.busy = false) :
    sys.state.waiters = [] := by
  obtain ⟨hc, hp⟩ := (idle_iff h).mp hidle
  by_contra hne
  rcases h.waiters hne with hcommits | hpermits
  · exact hcommits hc
  · exact hpermits hp

theorem eraseIdx_eq_nil {α : Type} {l : List α} {i : Nat} {x : α} (hl : l.length ≤ 1)
    (hi : l[i]? = some x) : l.eraseIdx i = [] := by
  obtain ⟨hlt, -⟩ := List.getElem?_eq_some_iff.mp hi
  apply List.eq_nil_of_length_eq_zero
  rw [List.length_eraseIdx_of_lt hlt]
  omega

theorem mem_set_single {α : Type} {l : List α} {i : Nat} {x y z : α} (hl : l.length ≤ 1)
    (hi : l[i]? = some x) (hy : y ∈ l.set i z) : y = z := by
  match l, i, hl, hi with
  | [_], 0, _, _ => simpa using hy

/-! ## Steps -/

theorem exclusion_enterPlan (h : Exclusion sys) (persisted : Option BlockRef) :
    Exclusion (sys.enterPlan persisted) := by
  unfold System.enterPlan State.enterPlan
  cases hbusy : sys.state.busy with
  | true => exact h
  | false =>
    refine ⟨h.single, ?_, ?_, ?_, ?_, reload_recovery persisted h.recovery⟩
    · exact (reload_commit _ _).symm ▸ h.commit
    · exact (reload_publication _ _).symm ▸ h.publication
    · exact (reload_waiters _ _).symm ▸ h.waiters
    · exact (reload_waiters _ _).symm ▸ h.woken

theorem exclusion_begin (h : Exclusion sys) (i : Nat) : Exclusion (sys.begin i) := by
  unfold System.begin State.begin
  cases sys.plans[i]? with
  | none => exact h
  | some plan =>
    dsimp only
    split_ifs with hrecovery hbusy hstale
    · exact h
    · exact h
    · exact h
    · obtain ⟨hc, hp⟩ := (idle_iff h).mp (by simpa using hbusy)
      refine ⟨?_, ?_, h.publication, ?_, h.woken, h.recovery⟩
      · simp [hc, hp]
      · simp
      · simp

theorem exclusion_start (h : Exclusion sys) (i : Nat) : Exclusion (sys.start i) := by
  unfold System.start
  cases sys.commits[i]? with
  | none => exact h
  | some permit =>
    refine ⟨?_, ?_, h.publication, ?_, h.woken, h.recovery⟩
    · simpa using h.single
    · simpa using h.commit
    · simpa using h.waiters

theorem exclusion_endCommit (h : Exclusion sys) {i : Nat} {permit : CommitPermit}
    (hi : sys.commits[i]? = some permit) {persisted : Option BlockRef} {recovery : Bool}
    {trail : List Mark} (hrecovery : recovery = true ↔ Abandoned trail) :
    Exclusion { sys with
      state := { sys.state with persisted, commit := false, recovery, waiters := [] }
      commits := sys.commits.eraseIdx i, fired := sys.fire, trail } := by
  have hsingle := h.single
  obtain ⟨hlt, -⟩ := List.getElem?_eq_some_iff.mp hi
  have hnil := eraseIdx_eq_nil (by omega) hi
  refine ⟨?_, ?_, h.publication, ?_, ?_, hrecovery⟩
  · simp only [hnil, List.length_nil]
    omega
  · simp [hnil]
  · simp
  · intro t ht
    have := h.woken t ht
    simp only [System.fire, List.mem_append]
    tauto

theorem exclusion_completeCommit (h : Exclusion sys) (i : Nat) (checkpoint : Option BlockRef) :
    Exclusion (sys.completeCommit i checkpoint) := by
  unfold System.completeCommit
  cases hi : sys.commits[i]? with
  | none => exact h
  | some permit => exact exclusion_endCommit h hi h.recovery

theorem exclusion_dropCommit (h : Exclusion sys) (i : Nat) : Exclusion (sys.dropCommit i) := by
  unfold System.dropCommit
  cases hi : sys.commits[i]? with
  | none => exact h
  | some permit =>
    refine exclusion_endCommit h hi ?_
    cases permit.started
    · simpa using h.recovery
    · simp [abandoned_cons]

theorem exclusion_poll (h : Exclusion sys) (reload : Option (Option BlockRef)) :
    Exclusion (sys.poll reload) := by
  unfold System.poll State.poll
  cases hbusy : sys.state.busy with
  | true =>
    have hout : sys.commits ≠ [] ∨ sys.permits ≠ [] := by
      by_contra hno
      rw [not_or, not_not, not_not] at hno
      rw [(idle_iff h).mpr hno] at hbusy
      cases hbusy
    refine ⟨h.single, h.commit, h.publication, fun _ => hout, ?_, h.recovery⟩
    intro t ht
    rcases List.mem_append.mp ht with ht | ht
    · exact (h.woken t ht).imp (List.mem_append_left _) id
    · exact Or.inl (List.mem_append_right _ ht)
  | false =>
    obtain ⟨hc, hp⟩ := (idle_iff h).mp hbusy
    have hwaiters := waiters_idle h hbusy
    cases reload with
    | none =>
      refine ⟨by simp [hc, hp], h.commit, by simp, by simp, h.woken, h.recovery⟩
    | some persisted =>
      refine ⟨by simp [hc, hp], ?_, by simp, by simp, ?_, reload_recovery persisted h.recovery⟩
      · exact (reload_commit _ _).symm ▸ h.commit
      · exact (reload_waiters _ _).symm ▸ h.woken

theorem exclusion_cancel (h : Exclusion sys) (i : Nat) : Exclusion (sys.cancel i) :=
  ⟨h.single, h.commit, h.publication, h.waiters,
    fun t ht => h.woken t (List.mem_of_mem_eraseIdx ht), h.recovery⟩

theorem exclusion_wake (h : Exclusion sys) (i : Nat) : Exclusion (sys.wake i) := by
  unfold System.wake
  cases sys.waiting[i]? with
  | none => exact h
  | some ticket =>
    dsimp only
    split
    · exact exclusion_poll (exclusion_cancel h i) none
    · exact h

theorem exclusion_endPublication (h : Exclusion sys) {i : Nat} {permit : PublicationPermit I}
    (hi : sys.permits[i]? = some permit) {revision : UInt64} {published : List (Published I)} :
    Exclusion { sys with
      state := { sys.state with revision, publication := false, waiters := [] }
      permits := sys.permits.eraseIdx i, fired := sys.fire, published } := by
  have hsingle := h.single
  obtain ⟨hlt, -⟩ := List.getElem?_eq_some_iff.mp hi
  have hnil := eraseIdx_eq_nil (by omega) hi
  refine ⟨?_, h.commit, ?_, ?_, ?_, h.recovery⟩
  · simp only [hnil, List.length_nil]
    omega
  · simp [hnil]
  · simp
  · intro t ht
    have := h.woken t ht
    simp only [System.fire, List.mem_append]
    tauto

theorem exclusion_dropPublication (h : Exclusion sys) (i : Nat) :
    Exclusion (sys.dropPublication i) := by
  unfold System.dropPublication
  cases hi : sys.permits[i]? with
  | none => exact h
  | some permit => exact exclusion_endPublication h hi

theorem exclusion_completePublication (h : Exclusion sys) (i : Nat) :
    Exclusion (sys.completePublication i) := by
  unfold System.completePublication State.completePublication
  cases hi : sys.permits[i]? with
  | none => exact h
  | some permit =>
    cases PaymentSdk.checkedSuccessor sys.state.revision with
    | none => exact exclusion_dropPublication h i
    | some revision => exact exclusion_endPublication h hi

theorem exclusion_values (h : Exclusion sys) (i : Nat) (values : List (I × AddressFilter))
    (permit : PublicationPermit I) :
    Exclusion { sys with values, permits := sys.permits.set i permit } := by
  refine ⟨?_, h.commit, ?_, ?_, h.woken, h.recovery⟩
  · simpa using h.single
  · simpa using h.publication
  · simpa using h.waiters

theorem exclusion_initial (values : List (I × AddressFilter)) :
    Exclusion (System.initial values) :=
  ⟨by simp [System.initial], by simp [System.initial], by simp [System.initial],
    by simp [System.initial], by simp [System.initial], by simp [System.initial, not_abandoned_nil]⟩

variable [DecidableEq I]

theorem exclusion_insert (h : Exclusion sys) (scope : IndexScope) (i : Nat) (id : I)
    (address : Text) : Exclusion (sys.insert scope i id address) := by
  unfold System.insert
  split
  · split
    · exact exclusion_dropPublication h i
    · split_ifs
      · exact exclusion_dropPublication h i
      · exact exclusion_values h i _ _
  · exact h

theorem exclusion_forget (h : Exclusion sys) (i : Nat) : Exclusion (sys.forget i) := by
  unfold System.forget
  split
  · exact exclusion_values h i _ _
  · exact h

theorem exclusion_step (h : Exclusion sys) (scope : IndexScope) (e : Event I) :
    Exclusion (sys.step scope e) := by
  cases e with
  | enterPlan persisted => exact exclusion_enterPlan h persisted
  | capture i =>
    simp only [System.step, System.capture]
    split <;> exact ⟨h.single, h.commit, h.publication, h.waiters, h.woken, h.recovery⟩
  | finishPlan i =>
    simp only [System.step, System.finishPlan]
    split
    · split <;> exact ⟨h.single, h.commit, h.publication, h.waiters, h.woken, h.recovery⟩
    · exact h
  | advance i checkpoint =>
    simp only [System.step, System.advance]
    split <;> exact ⟨h.single, h.commit, h.publication, h.waiters, h.woken, h.recovery⟩
  | begin i => exact exclusion_begin h i
  | start i => exact exclusion_start h i
  | persist i checkpoint =>
    simp only [System.step, System.persist]
    split <;> exact ⟨h.single, h.commit, h.publication, h.waiters, h.woken, h.recovery⟩
  | completeCommit i checkpoint => exact exclusion_completeCommit h i checkpoint
  | dropCommit i => exact exclusion_dropCommit h i
  | publication persisted => exact exclusion_poll h (some persisted)
  | wake i => exact exclusion_wake h i
  | cancel i => exact exclusion_cancel h i
  | insert i id address => exact exclusion_insert h scope i id address
  | forget i => exact exclusion_forget h i
  | completePublication i => exact exclusion_completePublication h i
  | dropPublication i => exact exclusion_dropPublication h i

theorem exclusion_foldl (scope : IndexScope) (events : List (Event I)) (h : Exclusion sys) :
    Exclusion (events.foldl (System.step scope) sys) := by
  induction events generalizing sys with
  | nil => exact h
  | cons e rest ih => exact ih (exclusion_step h scope e)

/-- Exclusion and no lost wake-up, in every state that any steps of any callers reach. When
no permit is out, every waiting call has been sent to. While recovery is due, no plan can
begin a commit. -/
theorem admission_exclusive (scope : IndexScope) (values : List (I × AddressFilter))
    (events : List (Event I)) :
    let sys := System.run scope values events
    Exclusion sys ∧ (sys.commits = [] ∧ sys.permits = [] → ∀ t ∈ sys.waiting, t ∈ sys.fired) ∧
      (sys.state.recovery = true → ∀ plan, ∃ e, sys.state.begin plan = .error e) := by
  intro sys
  have h : Exclusion sys := exclusion_foldl scope events (exclusion_initial values)
  refine ⟨h, fun hnone t ht => ?_, fun hrecovery plan => ?_⟩
  · have hwaiters := waiters_idle h ((idle_iff h).mpr hnone)
    rcases h.woken t ht with hlisted | hfired
    · rw [hwaiters] at hlisted
      cases hlisted
    · exact hfired
  · exact ⟨_, by rw [State.begin, if_pos hrecovery]⟩

end PaymentSdk.Admission
