import PaymentSdk.Admission.Exclusion

/-!
# A commit never uses a selection that omits a published address

Filters are captured outside the lock, and one plan serves many commits. A plan covers
every publication up to its own revision, and a commit begins only at the state's
revision, which is the revision of the last publication.
-/

open Std

namespace PaymentSdk.Admission

variable {I : Type} {sys : System I} {scope : IndexScope}

/-! ## Captured filters -/

/-- The filters hold this address, from its own birthday or an earlier one. -/
def Covers (filters : List AddressFilter) (f : AddressFilter) : Prop :=
  ∃ g ∈ filters, g.address = f.address ∧ g.startPosition ≤ f.startPosition

theorem birthdays_le {values : List (I × AddressFilter)} {id : I} {f : AddressFilter}
    (h : (id, f) ∈ values) :
    ∃ p, (birthdays values)[f.address]? = some p ∧ p.toNat ≤ f.startPosition.toNat := by
  induction values with
  | nil => cases h
  | cons v rest ih =>
    obtain ⟨id', g⟩ := v
    -- The head's insertion at this address keeps the lower position, and leaves others alone.
    have hhead : ∃ q, (birthdays ((id', g) :: rest))[g.address]? = some q ∧
        q.toNat ≤ g.startPosition.toNat ∧
        ∀ p, (birthdays rest)[g.address]? = some p → q.toNat ≤ p.toNat := by
      simp only [birthdays]
      cases hg : (birthdays rest)[g.address]? with
      | none =>
        refine ⟨g.startPosition, by simp, Nat.le_refl _, ?_⟩
        rintro p ⟨⟩
      | some p =>
        refine ⟨if p < g.startPosition then p else g.startPosition, by simp, ?_, ?_⟩
        · split
          · rename_i hlt
            exact Nat.le_of_lt hlt
          · exact Nat.le_refl _
        · rintro _ ⟨⟩
          split
          · exact Nat.le_refl _
          · rename_i hlt
            exact Nat.le_of_not_lt hlt
    have hother : f.address ≠ g.address →
        (birthdays ((id', g) :: rest))[f.address]? = (birthdays rest)[f.address]? := by
      intro hne
      have hcmp : CanonicalAddress.cmp g.address f.address ≠ .eq := by
        intro he
        exact hne (LawfulEqCmp.eq_of_compare he).symm
      simp only [birthdays]
      split <;> simp [ExtTreeMap.getElem?_insert, hcmp]
    rcases List.mem_cons.mp h with heq | hrest
    · cases heq
      obtain ⟨q, hq, hle, -⟩ := hhead
      exact ⟨q, hq, hle⟩
    · obtain ⟨p, hp, hle⟩ := ih hrest
      by_cases haddr : f.address = g.address
      · obtain ⟨q, hq, -, hmin⟩ := hhead
        rw [haddr] at hp ⊢
        exact ⟨q, hq, Nat.le_trans (hmin p hp) hle⟩
      · exact ⟨p, by rw [hother haddr, hp], hle⟩

theorem covers_scopeFilters {values : List (I × AddressFilter)} {id : I} {f : AddressFilter}
    (h : (id, f) ∈ values) (hscope : f.address.scope = scope) :
    Covers (scopeFilters scope values) f := by
  obtain ⟨p, hp, hle⟩ := birthdays_le h
  refine ⟨⟨f.address, p⟩, ?_, rfl, hle⟩
  simp only [scopeFilters, filters, List.mem_filter, List.mem_map]
  refine ⟨⟨(f.address, p), ?_, rfl⟩, by simp [CanonicalAddress.belongsTo, hscope]⟩
  exact ExtTreeMap.mem_toList_iff_getElem?_eq_some.mpr hp

/-! ## The invariant -/

/-- The filters cover what was published up to the given revision. -/
def CoversUpTo (published : List (Published I)) (revision : UInt64) (filters : List AddressFilter) :
    Prop :=
  ∀ p ∈ published, p.revision.toNat ≤ revision.toNat → Covers filters p.filter

/-- What ties the revision, the captured filters and the wallet map together. -/
structure Selected (scope : IndexScope) (sys : System I) : Prop where
  published : ∀ p ∈ sys.published, (p.id, p.filter) ∈ sys.values ∧
    p.filter.address.scope = scope ∧ p.revision.toNat ≤ sys.state.revision.toNat
  inserted : ∀ permit ∈ sys.permits, ∀ id f, permit.entry = some (id, f) → (id, f) ∈ sys.values ∧
    f.address.scope = scope ∧ ∀ p ∈ sys.published, p.id ≠ id
  planners : ∀ q ∈ sys.planners, q.revision.toNat ≤ sys.state.revision.toNat ∧
    ∀ fs, q.filters = some fs → CoversUpTo sys.published q.revision fs
  plans : ∀ plan ∈ sys.plans, plan.revision.toNat ≤ sys.state.revision.toNat ∧
    CoversUpTo sys.published plan.revision plan.filters

theorem selected_of_same (h : Selected scope sys) {sys' : System I}
    (hrevision : sys'.state.revision = sys.state.revision) (hvalues : sys'.values = sys.values)
    (hpublished : sys'.published = sys.published)
    (hpermits : ∀ permit ∈ sys'.permits, permit ∈ sys.permits ∨ permit.entry = none)
    (hplanners : sys'.planners = sys.planners) (hplans : sys'.plans = sys.plans) :
    Selected scope sys' := by
  refine ⟨?_, ?_, ?_, ?_⟩
  · rw [hpublished, hvalues, hrevision]
    exact h.published
  · intro permit hmem id f hentry
    rw [hvalues, hpublished]
    rcases hpermits permit hmem with hold | hnone
    · exact h.inserted permit hold id f hentry
    · rw [hnone] at hentry
      cases hentry
  · rw [hplanners, hpublished, hrevision]
    exact h.planners
  · rw [hplans, hpublished, hrevision]
    exact h.plans

theorem reload_revision (s : State) (p : Option BlockRef) : (s.reload p).revision = s.revision := by
  unfold State.reload; split <;> rfl

theorem selected_enterPlan (h : Selected scope sys) (persisted : Option BlockRef) :
    Selected scope (sys.enterPlan persisted) := by
  unfold System.enterPlan State.enterPlan
  cases sys.state.busy with
  | true => exact h
  | false =>
    refine ⟨?_, h.inserted, ?_, ?_⟩
    · exact (reload_revision _ _).symm ▸ h.published
    · intro q hq
      rcases List.mem_append.mp hq with hq | hq
      · exact (reload_revision _ _).symm ▸ h.planners q hq
      · obtain rfl := List.mem_singleton.mp hq
        exact ⟨Nat.le_refl _, by rintro fs ⟨⟩⟩
    · exact (reload_revision _ _).symm ▸ h.plans

theorem selected_capture (h : Selected scope sys) (i : Nat) : Selected scope (sys.capture scope i) := by
  unfold System.capture
  cases hi : sys.planners[i]? with
  | none => exact h
  | some q =>
    refine ⟨h.published, h.inserted, ?_, h.plans⟩
    intro r hr
    rcases List.mem_or_eq_of_mem_set hr with hr | rfl
    · exact h.planners r hr
    · refine ⟨(h.planners q (List.mem_of_getElem? hi)).1, ?_⟩
      rintro fs ⟨⟩ p hp -
      obtain ⟨hvalue, hscope, -⟩ := h.published p hp
      exact covers_scopeFilters hvalue hscope

theorem selected_finishPlan (h : Selected scope sys) (i : Nat) : Selected scope (sys.finishPlan i) := by
  have hplanners : ∀ q ∈ sys.planners.eraseIdx i, q.revision.toNat ≤ sys.state.revision.toNat ∧
      ∀ fs, q.filters = some fs → CoversUpTo sys.published q.revision fs :=
    fun q hq => h.planners q (List.mem_of_mem_eraseIdx hq)
  unfold System.finishPlan State.finishPlan
  split
  · rename_i persisted revision fs hi
    obtain ⟨hle, hcovers⟩ := h.planners _ (List.mem_of_getElem? hi)
    split
    · exact ⟨h.published, h.inserted, hplanners, h.plans⟩
    · rename_i plan hplan
      split at hplan
      · cases hplan
      · cases hplan
        refine ⟨h.published, h.inserted, hplanners, ?_⟩
        intro plan hmem
        rcases List.mem_append.mp hmem with hmem | hmem
        · exact h.plans plan hmem
        · obtain rfl := List.mem_singleton.mp hmem
          exact ⟨hle, hcovers fs rfl⟩
  · exact h

theorem selected_advance (h : Selected scope sys) (i : Nat) (checkpoint : BlockRef) :
    Selected scope (sys.advance i checkpoint) := by
  unfold System.advance
  cases hi : sys.plans[i]? with
  | none => exact h
  | some plan =>
    refine ⟨h.published, h.inserted, h.planners, ?_⟩
    intro q hq
    rcases List.mem_or_eq_of_mem_set hq with hq | rfl
    · exact h.plans q hq
    · exact h.plans plan (List.mem_of_getElem? hi)

theorem selected_poll (h : Selected scope sys) (reload : Option (Option BlockRef)) :
    Selected scope (sys.poll reload) := by
  unfold System.poll State.poll
  cases sys.state.busy with
  | true => exact ⟨h.published, h.inserted, h.planners, h.plans⟩
  | false =>
    refine selected_of_same h ?_ rfl rfl ?_ rfl rfl
    · cases reload with
      | none => rfl
      | some persisted => exact reload_revision _ _
    · intro permit hmem
      rcases List.mem_append.mp hmem with hmem | hmem
      · exact Or.inl hmem
      · obtain rfl := List.mem_singleton.mp hmem
        exact Or.inr rfl

theorem selected_dropPublication (h : Selected scope sys) (i : Nat) :
    Selected scope (sys.dropPublication i) := by
  unfold System.dropPublication
  split
  · exact h
  · exact selected_of_same h rfl rfl rfl (fun _ hp => Or.inl (List.mem_of_mem_eraseIdx hp)) rfl rfl

/-- Publication gives its wallet a revision that no plan has yet. -/
theorem selected_completePublication (h : Selected scope sys) (he : Exclusion sys) (i : Nat) :
    Selected scope (sys.completePublication i) := by
  unfold System.completePublication State.completePublication
  cases hi : sys.permits[i]? with
  | none => exact h
  | some permit =>
    cases hnext : PaymentSdk.checkedSuccessor sys.state.revision with
    | none => exact selected_dropPublication h i
    | some revision =>
      have hsucc := checkedSuccessor_eq_some hnext
      have hsingle := he.single
      have hnil := eraseIdx_eq_nil (by omega) hi
      have hup : ∀ r : UInt64, r.toNat ≤ sys.state.revision.toNat → r.toNat ≤ revision.toNat := by
        intro r hr
        omega
      dsimp only [State.notify]
      cases hentry : permit.entry with
      | none =>
        refine ⟨?_, by rw [hnil]; rintro _ ⟨⟩, ?_, ?_⟩
        · exact fun p hp => ⟨(h.published p hp).1, (h.published p hp).2.1, hup _ (h.published p hp).2.2⟩
        · exact fun q hq => ⟨hup _ (h.planners q hq).1, (h.planners q hq).2⟩
        · exact fun q hq => ⟨hup _ (h.plans q hq).1, (h.plans q hq).2⟩
      | some entry =>
        obtain ⟨id, f⟩ := entry
        obtain ⟨hvalue, hscope, -⟩ := h.inserted permit (List.mem_of_getElem? hi) id f hentry
        -- A plan of an older revision owes nothing to the new publication.
        have hcovers : ∀ (r : UInt64) fs, r.toNat ≤ sys.state.revision.toNat →
            CoversUpTo sys.published r fs → CoversUpTo (⟨id, f, revision⟩ :: sys.published) r fs := by
          intro r fs hr hc p hp hle
          rcases List.mem_cons.mp hp with rfl | hp
          · have hle : revision.toNat ≤ r.toNat := hle
            omega
          · exact hc p hp hle
        refine ⟨?_, by rw [hnil]; rintro _ ⟨⟩, ?_, ?_⟩
        · intro p hp
          rcases List.mem_cons.mp hp with rfl | hp
          · exact ⟨hvalue, hscope, Nat.le_refl _⟩
          · exact ⟨(h.published p hp).1, (h.published p hp).2.1, hup _ (h.published p hp).2.2⟩
        · intro q hq
          obtain ⟨hle, hc⟩ := h.planners q hq
          exact ⟨hup _ hle, fun fs hfs => hcovers _ _ hle (hc fs hfs)⟩
        · intro q hq
          obtain ⟨hle, hc⟩ := h.plans q hq
          exact ⟨hup _ hle, hcovers _ _ hle hc⟩

variable [DecidableEq I]

theorem selected_insert (h : Selected scope sys) (i : Nat) (id : I) (address : Text) :
    Selected scope (sys.insert scope i id address) := by
  unfold System.insert
  split
  · split
    · exact selected_dropPublication h i
    · split_ifs with hused
      · exact selected_dropPublication h i
      · refine ⟨?_, ?_, h.planners, h.plans⟩
        · intro p hp
          obtain ⟨hvalue, hrest⟩ := h.published p hp
          exact ⟨List.mem_append_left _ hvalue, hrest⟩
        · intro permit hmem id' f hentry
          rcases List.mem_or_eq_of_mem_set hmem with hold | rfl
          · obtain ⟨hvalue, hrest⟩ := h.inserted permit hold id' f hentry
            exact ⟨List.mem_append_left _ hvalue, hrest⟩
          · cases hentry
            refine ⟨by simp, rfl, ?_⟩
            rintro p hp rfl
            exact hused (List.mem_map_of_mem (f := (·.1)) (h.published p hp).1)
  · exact h

theorem selected_forget (h : Selected scope sys) (he : Exclusion sys) (i : Nat) :
    Selected scope (sys.forget i) := by
  unfold System.forget
  split
  · rename_i checkpoint id f hi
    have hmine := (h.inserted _ (List.mem_of_getElem? hi) id f rfl).2.2
    have hsingle := he.single
    refine ⟨?_, ?_, h.planners, h.plans⟩
    · intro p hp
      obtain ⟨hvalue, hrest⟩ := h.published p hp
      exact ⟨List.mem_filter.mpr ⟨hvalue, by simpa using hmine p hp⟩, hrest⟩
    · intro permit hmem id' f' hentry
      obtain rfl := mem_set_single (by omega) hi hmem
      cases hentry
  · exact h

theorem selected_step (h : Selected scope sys) (he : Exclusion sys) (e : Event I) :
    Selected scope (sys.step scope e) := by
  cases e with
  | enterPlan persisted => exact selected_enterPlan h persisted
  | capture i => exact selected_capture h i
  | finishPlan i => exact selected_finishPlan h i
  | advance i checkpoint => exact selected_advance h i checkpoint
  | begin i =>
    simp only [System.step, System.begin, State.begin]
    split
    · exact h
    · split_ifs <;> exact selected_of_same h rfl rfl rfl (fun _ hp => Or.inl hp) rfl rfl
  | start i =>
    simp only [System.step, System.start]
    split <;> exact selected_of_same h rfl rfl rfl (fun _ hp => Or.inl hp) rfl rfl
  | persist i checkpoint =>
    simp only [System.step, System.persist]
    split <;> exact selected_of_same h rfl rfl rfl (fun _ hp => Or.inl hp) rfl rfl
  | completeCommit i checkpoint =>
    simp only [System.step, System.completeCommit]
    split <;> exact selected_of_same h rfl rfl rfl (fun _ hp => Or.inl hp) rfl rfl
  | dropCommit i =>
    simp only [System.step, System.dropCommit]
    split <;> exact selected_of_same h rfl rfl rfl (fun _ hp => Or.inl hp) rfl rfl
  | publication persisted => exact selected_poll h (some persisted)
  | wake i =>
    simp only [System.step, System.wake]
    split
    · exact h
    · split
      · refine selected_poll ?_ none
        exact selected_of_same h rfl rfl rfl (fun _ hp => Or.inl hp) rfl rfl
      · exact h
  | cancel i => exact selected_of_same h rfl rfl rfl (fun _ hp => Or.inl hp) rfl rfl
  | insert i id address => exact selected_insert h i id address
  | forget i => exact selected_forget h he i
  | completePublication i => exact selected_completePublication h he i
  | dropPublication i => exact selected_dropPublication h i

theorem selected_run (scope : IndexScope) (values : List (I × AddressFilter))
    (events : List (Event I)) : Selected scope (System.run scope values events) := by
  have hall : ∀ sys : System I, Selected scope sys → Exclusion sys →
      Selected scope (events.foldl (System.step scope) sys) := by
    induction events with
    | nil => exact fun sys h _ => h
    | cons e rest ih => exact fun sys h he => ih _ (selected_step h he e) (exclusion_step he scope e)
  refine hall _ ⟨?_, ?_, ?_, ?_⟩ (exclusion_initial values)
  · rintro p ⟨⟩
  · rintro p ⟨⟩
  · rintro p ⟨⟩
  · rintro p ⟨⟩

theorem begin_ok {s : State} {plan : SyncPlan} {permit : CommitPermit} {s' : State}
    (h : s.begin plan = .ok (permit, s')) :
    s.recovery = false ∧ s.busy = false ∧ s.persisted = plan.checkpoint ∧
      s.revision = plan.revision ∧ permit = {} ∧ s' = { s with commit := true } := by
  unfold State.begin at h
  split_ifs at h with hrecovery hbusy hstale
  obtain ⟨hpersisted, hrevision⟩ := not_or.mp hstale
  cases h
  exact ⟨by simpa using hrecovery, by simpa using hbusy, not_not.mp hpersisted,
    not_not.mp hrevision, rfl, rfl⟩

/-- Whenever a commit can begin on a plan, the plan's filters hold every address whose
publication has completed, from its published birthday or an earlier one. -/
theorem begin_covers_published (scope : IndexScope) (values : List (I × AddressFilter))
    (events : List (Event I)) (plan : SyncPlan) (permit : CommitPermit) (state : State)
    (hplan : plan ∈ (System.run scope values events).plans)
    (hbegin : (System.run scope values events).state.begin plan = .ok (permit, state)) :
    ∀ p ∈ (System.run scope values events).published, Covers plan.filters p.filter := by
  intro p hp
  have h := selected_run scope values events
  have hrevision := (begin_ok hbegin).2.2.2.1
  refine (h.plans plan hplan).2 p hp ?_
  rw [← hrevision]
  exact (h.published p hp).2.2

/-- A wallet is published, and then a plan is made. -/
def publishThenPlan : List (Event Nat) :=
  [.publication none, .insert 0 1 ⟨"wallet", by decide⟩, .completePublication 0, .enterPlan none,
    .capture 0, .finishPlan 0]

theorem begin_covers_published_generated :
    ∃ plan ∈ (System.run ⟨⟨⟨"chain", by decide⟩⟩, ⟨"net", by decide⟩⟩ [] publishThenPlan).plans,
      (System.run ⟨⟨⟨"chain", by decide⟩⟩, ⟨"net", by decide⟩⟩ [] publishThenPlan).published.length = 1 ∧
      ∀ p ∈ (System.run ⟨⟨⟨"chain", by decide⟩⟩, ⟨"net", by decide⟩⟩ [] publishThenPlan).published,
        Covers plan.filters p.filter := by
  let scope : IndexScope := ⟨⟨⟨"chain", by decide⟩⟩, ⟨"net", by decide⟩⟩
  let plan : SyncPlan := ⟨[⟨⟨scope, ⟨"wallet", by decide⟩⟩, ⟨0⟩⟩], none, 1, true⟩
  let state := (System.run scope [] publishThenPlan).state
  have hplan : plan ∈ (System.run scope [] publishThenPlan).plans := by decide
  have hbegin : state.begin plan = .ok ({}, { state with commit := true }) := by
    unfold State.begin
    rw [if_neg (by decide), if_neg (by decide), if_neg (by decide)]
  exact ⟨plan, hplan, by decide, begin_covers_published scope [] publishThenPlan plan {} _ hplan hbegin⟩

end PaymentSdk.Admission
