import PaymentSdk.Admission.Selection
import PaymentSdk.Registration.Spec

/-!
# What stands while a pass commits

A pass begins with a plan that selects every published wallet, and nothing is published
while it holds its permit. So what it selected for a block still stands when the block
lands. A write that outlives its pass has the selection of the time it began.
-/

namespace PaymentSdk.Registration

open Admission

variable {I : Type} {scope : IndexScope} {sys : System I} {w : World I}

/-- A block that the pass commits connects to its checkpoint. -/
def Pass.Connects (pass : Pass) : Prop :=
  ∀ i checkpoint block addresses, pass = .committing i checkpoint block addresses →
    connected checkpoint block = true

/-- What holds of the admission and the pass after any steps. -/
structure Coherent (scope : IndexScope) (w : World I) : Prop where
  exclusion : Exclusion w.sys
  selected : Selected scope w.sys
  held : w.pass.holding = true → w.sys.commits = [{ started := true }]
  connects : w.pass.Connects
  accepted : ∀ checkpoint block addresses revision, .add checkpoint block addresses revision ∈ w.accepted →
    connected checkpoint block = true ∧ revision.toNat ≤ w.sys.state.revision.toNat

theorem permits_of_holding (h : Coherent scope w) (hp : w.pass.holding = true) : w.sys.permits = [] := by
  have hsingle := h.exclusion.single
  rw [h.held hp] at hsingle
  apply List.eq_nil_of_length_eq_zero
  simp only [List.length_cons, List.length_nil] at hsingle
  omega

theorem busy_of_holding (h : Coherent scope w) (hp : w.pass.holding = true) : w.sys.state.busy = true := by
  have hne : w.sys.commits ≠ [] := by simp [h.held hp]
  rw [State.busy, h.exclusion.commit.mpr hne, Bool.true_or]

theorem busy_of_landed (h : Coherent scope w) (hp : w.pass.landed = true) : w.sys.state.busy = true := by
  apply busy_of_holding h
  cases hpass : w.pass with
  | committed plan block => rfl
  | _ =>
    rw [hpass] at hp
    cases hp

theorem selects_published (h : Coherent scope w) {i : Nat} {plan : SyncPlan} {out : CommitPermit × State}
    (hi : w.sys.plans[i]? = some plan) (hbegin : w.sys.state.begin plan = .ok out)
    {p : Published I} (hp : p ∈ w.sys.published) {position : BlockPosition}
    (hstart : p.filter.startPosition ≤ position) :
    p.filter.address ∈ plan.activeAddresses position := by
  have hrevision : w.sys.state.revision = plan.revision := (begin_ok hbegin).2.2.2.1
  have hcovers := (h.selected.plans plan (List.mem_of_getElem? hi)).2 p hp
    (hrevision ▸ (h.selected.published p hp).2.2)
  obtain ⟨g, hg, haddress, hle⟩ := hcovers
  rw [SyncPlan.activeAddresses, List.mem_map]
  refine ⟨g, List.mem_filter.mpr ⟨hg, ?_⟩, haddress⟩
  simpa [BlockPosition.le_def] using Nat.le_trans hle hstart

theorem coherent_initial (scope : IndexScope) (values : List (I × AddressFilter)) (past : Past) :
    Coherent scope (World.initial scope values past) := by
  have hexclusion := exclusion_initial values
  refine ⟨⟨hexclusion.single, hexclusion.commit, hexclusion.publication, hexclusion.waiters,
    hexclusion.woken, hexclusion.recovery⟩, ⟨?_, ?_, ?_, ?_⟩, by rintro ⟨⟩, by rintro _ _ _ _ ⟨⟩,
    by rintro _ _ _ _ ⟨⟩⟩
  · intro p hp
    obtain ⟨v, hv, rfl⟩ := List.mem_map.mp hp
    obtain ⟨hmem, hscope⟩ := List.mem_filter.mp hv
    exact ⟨hmem, by simpa [CanonicalAddress.belongsTo] using hscope, Nat.le_refl _⟩
  · rintro p ⟨⟩
  · rintro p ⟨⟩
  · rintro p ⟨⟩

theorem coherent_pass (h : Coherent scope w) {pass : Pass} (hp : pass.holding = false) :
    Coherent scope { w with pass } := by
  refine ⟨h.exclusion, h.selected, fun hold => Bool.noConfusion (hp.symm.trans hold), ?_, h.accepted⟩
  rintro i checkpoint block addresses rfl
  cases hp

theorem coherent_idle (h : Coherent scope w) : Coherent scope { w with pass := .idle } :=
  coherent_pass h rfl

/-- The pass may go on to any place that holds nothing, or to another that holds the permit it
has now. -/
theorem coherent_sys (h : Coherent scope w) {sys : System I} (hx : Exclusion sys) (hs : Selected scope sys)
    (hrevision : w.sys.state.revision.toNat ≤ sys.state.revision.toNat) {pass : Pass}
    (hheld : pass.holding = true → sys.commits = [{ started := true }]) (hconnects : pass.Connects) :
    Coherent scope { w with sys, pass } :=
  ⟨hx, hs, hheld, hconnects, fun checkpoint block addresses revision hmem =>
    ⟨(h.accepted checkpoint block addresses revision hmem).1,
      Nat.le_trans (h.accepted checkpoint block addresses revision hmem).2 hrevision⟩⟩

/-! ## The repository's answers -/

theorem coherent_answer (h : Coherent scope w) (hp : w.pass.holding = true) {pass : Pass}
    (hconnects : pass.Connects) (chain : List BlockRef) (log : List (Landing I)) :
    Coherent scope { w with chain, log, pass } :=
  ⟨h.exclusion, h.selected, fun _ => h.held hp, hconnects, h.accepted⟩

theorem coherent_add (h : Coherent scope w) : Coherent scope w.add := by
  unfold World.add
  split
  · rename_i plan checkpoint block addresses hpass
    have hold : w.pass.holding = true := by rw [hpass]; rfl
    split
    · exact coherent_answer h hold (by rintro _ _ _ _ ⟨⟩) _ _
    · exact coherent_answer h hold (by rintro _ _ _ _ ⟨⟩) _ _
    · exact coherent_answer h hold (by rintro _ _ _ _ ⟨⟩) _ _
  · exact h

theorem coherent_remove (h : Coherent scope w) : Coherent scope w.remove := by
  unfold World.remove
  split
  · rename_i plan tip hpass
    have hold : w.pass.holding = true := by rw [hpass]; rfl
    split
    · exact coherent_answer h hold (by rintro _ _ _ _ ⟨⟩) _ _
    · exact coherent_answer h hold (by rintro _ _ _ _ ⟨⟩) _ _
  · exact h

theorem coherent_execute (h : Coherent scope w) (i : Nat) : Coherent scope (w.execute i) := by
  have herase : ∀ (chain : List BlockRef) (log : List (Landing I)),
      Coherent scope { w with chain, log, accepted := w.accepted.eraseIdx i } := fun chain log =>
    ⟨h.exclusion, h.selected, h.held, h.connects, fun checkpoint block addresses revision hmem =>
      h.accepted checkpoint block addresses revision (List.mem_of_mem_eraseIdx hmem)⟩
  unfold World.execute
  split
  · exact h
  · split <;> exact herase _ _
  · split <;> exact herase _ _

theorem execute_frame (w : World I) (i : Nat) :
    (w.execute i).sys = w.sys ∧ (w.execute i).pass = w.pass := by
  unfold World.execute
  split
  · exact ⟨rfl, rfl⟩
  · split <;> exact ⟨rfl, rfl⟩
  · split <;> exact ⟨rfl, rfl⟩

/-- What a pass leaves with the repository is the block it commits, begun at the revision of
now. -/
theorem unanswered_add {checkpoint : Option BlockRef} {block : BlockRef} {addresses : List CanonicalAddress}
    {revision : UInt64} (h : .add checkpoint block addresses revision ∈ w.unanswered) :
    (∃ plan, w.pass = .committing plan checkpoint block addresses) ∧ revision = w.sys.state.revision := by
  unfold World.unanswered at h
  split at h
  · rename_i plan _ _ _ hpass
    cases List.mem_singleton.mp h
    exact ⟨⟨plan, hpass⟩, rfl⟩
  · cases List.mem_singleton.mp h
  · cases h

/-! ## What a selection owes -/

/-- The revision under which a write began that the repository would apply now. -/
def World.applies (w : World I) (i : Nat) : Option UInt64 :=
  match w.accepted[i]? with
  | some (.add checkpoint block _ revision) =>
    match land w.chain checkpoint block with
    | some (.applied, _) => some revision
    | some (.alreadyApplied, _) | none => none
  | some (.remove _) | none => none

/-- The block that the repository commits in a step, for the pass or `late`. -/
inductive Lands (w : World I) : Step I → Option BlockRef → BlockRef → List CanonicalAddress → Bool → Prop
  | pass {i checkpoint block addresses} (h : w.pass = .committing i checkpoint block addresses) :
    Lands w .add checkpoint block addresses false
  | late {i checkpoint block addresses revision}
    (h : w.accepted[i]? = some (.add checkpoint block addresses revision)) (happlies : w.applies i = some revision) :
    Lands w (.execute i) checkpoint block addresses true

/-- What holds of every returned registration and of the block that is being committed. -/
def Chosen (P : Published I → BlockRef → List CanonicalAddress → Prop) (w : World I) : Prop :=
  ∀ i checkpoint block addresses, w.pass = .committing i checkpoint block addresses →
    ∀ r ∈ w.returned, P r block addresses

/-- The same for a write that has outlived its pass, and the registrations that had returned
when it began. -/
def Owed (P : Published I → BlockRef → List CanonicalAddress → Prop) (w : World I) : Prop :=
  ∀ checkpoint block addresses revision, .add checkpoint block addresses revision ∈ w.accepted →
    ∀ r ∈ w.returned, r.revision ≤ revision → P r block addresses

variable {P : Published I → BlockRef → List CanonicalAddress → Prop}

/-- A block that lands owes nothing more than it had selected: at once to every registration
that has returned, and late to those that had returned when it began. -/
theorem owes_landed (hc : Chosen P w) (ho : Owed P w) {e : Step I} {checkpoint : Option BlockRef}
    {block : BlockRef} {addresses : List CanonicalAddress} {late : Bool}
    (h : Lands w e checkpoint block addresses late)
    (hlate : ∀ i revision, e = .execute i → w.applies i = some revision →
      ∀ r ∈ w.returned, r.revision ≤ revision) :
    ∀ r ∈ w.returned, P r block addresses := by
  intro r hr
  cases h with
  | pass hpass => exact hc _ _ _ _ hpass r hr
  | late hi happlies =>
    exact ho _ _ _ _ (List.mem_of_getElem? hi) r hr (hlate _ _ rfl happlies r hr)

/-! ## Frames -/

/-- The events of commit permits. -/
def onCommit : Event I → Bool
  | .begin _ | .start _ | .persist .. | .completeCommit .. | .dropCommit _ => true
  | _ => false

/-- The commit permits, the published wallets and the revision of the second system are the
first one's. -/
def SameRecords (sys sys' : System I) : Prop :=
  sys'.commits = sys.commits ∧ sys'.published = sys.published ∧
    sys'.state.revision = sys.state.revision

theorem sameRecords_dropPublication (sys : System I) (i : Nat) :
    SameRecords sys (sys.dropPublication i) := by
  unfold System.dropPublication
  split <;> exact ⟨rfl, rfl, rfl⟩

theorem sameRecords_poll (sys : System I) (reload : Option (Option BlockRef)) :
    SameRecords sys (sys.poll reload) := by
  unfold System.poll State.poll
  cases sys.state.busy with
  | true => exact ⟨rfl, rfl, rfl⟩
  | false =>
    cases reload with
    | none => exact ⟨rfl, rfl, rfl⟩
    | some persisted => exact ⟨rfl, rfl, reload_revision _ _⟩

theorem sameRecords_enterPlan (sys : System I) (persisted : Option BlockRef) :
    SameRecords sys (sys.enterPlan persisted) := by
  unfold System.enterPlan State.enterPlan
  cases sys.state.busy with
  | true => exact ⟨rfl, rfl, rfl⟩
  | false => exact ⟨rfl, rfl, reload_revision _ _⟩

/-- A publication that completes uses up a revision, and publishes the wallet of its permit
under it. -/
theorem completePublication_cases (sys : System I) (i : Nat) :
    SameRecords sys (sys.completePublication i) ∨
      ∃ permit ∈ sys.permits, sys.permits[i]? = some permit ∧
        sys.state.revision.toNat < (sys.completePublication i).state.revision.toNat ∧
        (sys.completePublication i).published = match permit.entry with
          | some (id, filter) => ⟨id, filter, (sys.completePublication i).state.revision⟩ :: sys.published
          | none => sys.published := by
  unfold System.completePublication State.completePublication
  cases hi : sys.permits[i]? with
  | none => exact Or.inl ⟨rfl, rfl, rfl⟩
  | some permit =>
    cases hnext : PaymentSdk.checkedSuccessor sys.state.revision with
    | none => exact Or.inl (sameRecords_dropPublication sys i)
    | some revision =>
      have hsucc := checkedSuccessor_eq_some hnext
      refine Or.inr ⟨permit, List.mem_of_getElem? hi, rfl, ?_, rfl⟩
      dsimp only [State.notify]
      omega

variable [DecidableEq I]

theorem sameRecords_insert (sys : System I) (i : Nat) (id : I) (address : Text) :
    SameRecords sys (sys.insert scope i id address) := by
  unfold System.insert
  split
  · split
    · exact sameRecords_dropPublication sys i
    · split
      · exact sameRecords_dropPublication sys i
      · exact ⟨rfl, rfl, rfl⟩
  · exact ⟨rfl, rfl, rfl⟩

theorem published_of_onCommit (scope : IndexScope) (sys : System I) {e : Event I} (h : onCommit e = true) :
    (sys.step scope e).published = sys.published ∧
      (sys.step scope e).state.revision = sys.state.revision := by
  cases e with
  | begin i =>
    simp only [System.step, System.begin]
    split
    · exact ⟨rfl, rfl⟩
    · split
      · exact ⟨rfl, rfl⟩
      · rename_i permit state hbegin
        obtain ⟨-, -, -, -, -, rfl⟩ := begin_ok hbegin
        exact ⟨rfl, rfl⟩
  | start i =>
    simp only [System.step, System.start]
    split <;> exact ⟨rfl, rfl⟩
  | persist i checkpoint =>
    simp only [System.step, System.persist]
    split <;> exact ⟨rfl, rfl⟩
  | completeCommit i checkpoint =>
    simp only [System.step, System.completeCommit]
    split <;> exact ⟨rfl, rfl⟩
  | dropCommit i =>
    simp only [System.step, System.dropCommit]
    split <;> exact ⟨rfl, rfl⟩
  | _ => cases h

theorem sameRecords_step (scope : IndexScope) (sys : System I) {e : Event I} (h : onCommit e = false)
    (hnone : ∀ i, e = .completePublication i → sys.permits[i]? = none) : SameRecords sys (sys.step scope e) := by
  cases e with
  | enterPlan persisted => exact sameRecords_enterPlan sys persisted
  | capture i =>
    simp only [System.step, System.capture]
    split <;> exact ⟨rfl, rfl, rfl⟩
  | finishPlan i =>
    simp only [System.step, System.finishPlan]
    split
    · split <;> exact ⟨rfl, rfl, rfl⟩
    · exact ⟨rfl, rfl, rfl⟩
  | advance i checkpoint =>
    simp only [System.step, System.advance]
    split <;> exact ⟨rfl, rfl, rfl⟩
  | publication persisted => exact sameRecords_poll sys _
  | wake i =>
    simp only [System.step, System.wake]
    split
    · exact ⟨rfl, rfl, rfl⟩
    · split
      · exact sameRecords_poll _ none
      · exact ⟨rfl, rfl, rfl⟩
  | cancel i => exact ⟨rfl, rfl, rfl⟩
  | insert i id address => exact sameRecords_insert sys i id address
  | forget i =>
    simp only [System.step, System.forget]
    split <;> exact ⟨rfl, rfl, rfl⟩
  | completePublication i =>
    simp only [System.step, System.completePublication, hnone i rfl]
    exact ⟨rfl, rfl, rfl⟩
  | dropPublication i => exact sameRecords_dropPublication sys i
  | _ => cases h

theorem step_commits (scope : IndexScope) (sys : System I) {e : Event I} (h : onCommit e = false) :
    (sys.step scope e).commits = sys.commits := by
  by_cases hcompletes : ∃ i, e = .completePublication i
  · obtain ⟨i, rfl⟩ := hcompletes
    simp only [System.step, System.completePublication]
    split
    · rfl
    · split
      · exact (sameRecords_dropPublication sys i).1
      · rfl
  · exact (sameRecords_step scope sys h fun i hi => absurd ⟨i, hi⟩ hcompletes).1

theorem step_published (scope : IndexScope) (sys : System I) {e : Event I}
    (hnone : ∀ i, e = .completePublication i → sys.permits[i]? = none) :
    (sys.step scope e).published = sys.published ∧
      (sys.step scope e).state.revision = sys.state.revision := by
  cases h : onCommit e with
  | true => exact published_of_onCommit scope sys h
  | false => exact (sameRecords_step scope sys h hnone).2

theorem step_revision (scope : IndexScope) (sys : System I) (e : Event I) :
    sys.state.revision.toNat ≤ (sys.step scope e).state.revision.toNat := by
  by_cases he : ∃ i, e = .completePublication i
  · obtain ⟨i, rfl⟩ := he
    rcases completePublication_cases sys i with ⟨-, -, h⟩ | ⟨permit, -, -, hlt, -⟩
    · exact Nat.le_of_eq (congrArg UInt64.toNat h.symm)
    · exact Nat.le_of_lt hlt
  · have hsame := (step_published scope sys fun i hi => absurd ⟨i, hi⟩ he).2
    exact Nat.le_of_eq (congrArg UInt64.toNat hsame.symm)

/-! ## Steps -/

theorem coherent_act (h : Coherent scope w) {e : Event I} (he : onCommit e = false) :
    Coherent scope (w.act scope e) := by
  refine coherent_sys h (exclusion_step h.exclusion scope e) (selected_step h.selected h.exclusion e)
    (step_revision scope _ _) ?_ h.connects
  intro hp
  exact (step_commits scope w.sys he).trans (h.held hp)

theorem coherent_reserve (h : Coherent scope w) {i : Nat} {plan : SyncPlan} {out : CommitPermit × State}
    (hi : w.sys.plans[i]? = some plan) (hbegin : w.sys.state.begin plan = .ok out) {pass : Pass}
    (hconnects : pass.Connects) : Coherent scope { w.reserve scope i with pass } := by
  have hidle := ((idle_iff h.exclusion).mp (begin_ok hbegin).2.1).1
  have hexclusion := exclusion_step h.exclusion scope (.begin i)
  have hselected := selected_step h.selected h.exclusion (.begin i)
  refine coherent_sys h (exclusion_step hexclusion scope (.start 0))
    (selected_step hselected hexclusion (.start 0)) ?_ ?_ hconnects
  · exact Nat.le_trans (step_revision scope w.sys (.begin i)) (step_revision scope _ (.start 0))
  · intro _
    obtain ⟨permit, state⟩ := out
    simp [System.step, System.begin, System.start, hi, hbegin, hidle]

theorem coherent_settle (h : Coherent scope w) (plan : Nat) (checkpoint : Option BlockRef) :
    Coherent scope (w.settle scope plan checkpoint) := by
  have hexclusion := exclusion_step h.exclusion scope (.completeCommit 0 checkpoint)
  have hselected := selected_step h.selected h.exclusion (.completeCommit 0 checkpoint)
  have hrevision := step_revision scope w.sys (.completeCommit 0 checkpoint)
  unfold World.settle
  cases checkpoint with
  | none => exact coherent_sys h hexclusion hselected hrevision (by rintro ⟨⟩) (by rintro _ _ _ _ ⟨⟩)
  | some block =>
    exact coherent_sys h (exclusion_step hexclusion scope (.advance plan block))
      (selected_step hselected hexclusion (.advance plan block))
      (Nat.le_trans hrevision (step_revision scope _ (.advance plan block))) (by rintro ⟨⟩)
      (by rintro _ _ _ _ ⟨⟩)

theorem coherent_begin (h : Coherent scope w) (block : BlockRef) (anchor : Bool) :
    Coherent scope (w.begin scope block anchor) := by
  unfold World.begin
  split
  · split
    · exact h
    · rename_i plan hi
      split
      · exact coherent_idle h
      · rename_i hrefused
        split
        · exact coherent_idle h
        · rename_i out hbegin
          refine coherent_reserve h hi hbegin ?_
          rintro _ _ _ _ ⟨⟩
          simpa using (not_or.mp hrefused).1
  · exact h

theorem coherent_beginRemoval (h : Coherent scope w) : Coherent scope (w.beginRemoval scope) := by
  unfold World.beginRemoval
  split
  · split
    · exact h
    · rename_i plan hi
      split
      · exact coherent_idle h
      · rename_i out hbegin
        exact coherent_reserve h hi hbegin (by rintro _ _ _ _ ⟨⟩)
  · exact h

theorem coherent_persist (h : Coherent scope w) : Coherent scope (w.persist scope) := by
  unfold World.persist
  split
  · rename_i plan current hpass
    have hheld := h.held (by rw [hpass]; rfl)
    refine coherent_sys h (exclusion_step h.exclusion scope (.persist 0 current))
      (selected_step h.selected h.exclusion (.persist 0 current)) (step_revision scope _ _) (fun _ => ?_)
      (by rintro _ _ _ _ ⟨⟩)
    simp only [System.step, System.persist]
    split <;> exact hheld
  · exact h

theorem coherent_abandon (h : Coherent scope w) : Coherent scope (w.abandon scope) := by
  unfold World.abandon
  split
  · have hrevision := step_revision scope w.sys (.dropCommit 0)
    refine ⟨exclusion_step h.exclusion scope (.dropCommit 0),
      selected_step h.selected h.exclusion (.dropCommit 0), by rintro ⟨⟩, by rintro _ _ _ _ ⟨⟩, ?_⟩
    intro checkpoint block addresses revision hmem
    rcases List.mem_append.mp hmem with hold | hnew
    · obtain ⟨hconnected, hle⟩ := h.accepted checkpoint block addresses revision hold
      exact ⟨hconnected, Nat.le_trans hle hrevision⟩
    · obtain ⟨⟨plan, hpass⟩, rfl⟩ := unanswered_add hnew
      exact ⟨h.connects plan checkpoint block addresses hpass, hrevision⟩
  · exact coherent_idle h

theorem coherent_step (h : Coherent scope w) (e : Step I) : Coherent scope (w.step scope e) := by
  cases e with
  | readTip =>
    simp only [World.step]
    split
    · exact coherent_pass h rfl
    · exact h
  | enterPlan =>
    simp only [World.step, World.enterPlan]
    split
    · split
      · exact coherent_idle h
      · exact coherent_pass (coherent_act h rfl) rfl
    · exact h
  | capture =>
    simp only [World.step, World.capture]
    split
    · exact coherent_act h rfl
    · exact h
  | finishPlan =>
    simp only [World.step, World.finishPlan]
    split
    · split
      · exact coherent_pass (coherent_act h rfl) rfl
      · exact coherent_idle (coherent_act h rfl)
    · exact h
  | begin block anchor => exact coherent_begin h block anchor
  | add => exact coherent_add h
  | complete =>
    simp only [World.step, World.complete]
    split
    · exact coherent_settle h _ _
    · exact h
  | beginRemoval => exact coherent_beginRemoval h
  | remove => exact coherent_remove h
  | persist => exact coherent_persist h
  | completeRemoval =>
    simp only [World.step, World.completeRemoval]
    split
    · exact coherent_settle h _ _
    · exact h
  | abandon => exact coherent_abandon h
  | execute i => exact coherent_execute h i
  | readCheckpoint => exact ⟨h.exclusion, h.selected, h.held, h.connects, h.accepted⟩
  | publication i =>
    simp only [World.step, World.publication]
    split
    · exact h
    · rename_i persisted hi
      have hact := coherent_act h (e := .publication persisted) rfl
      exact ⟨hact.exclusion, hact.selected, hact.held, hact.connects, hact.accepted⟩
  | wake i => exact coherent_act h rfl
  | cancel i => exact coherent_act h rfl
  | insert i id address => exact coherent_act h rfl
  | forget i => exact coherent_act h rfl
  | completePublication i => exact coherent_act h rfl
  | dropPublication i => exact coherent_act h rfl

/-! ## What is selected for a block -/

theorem act_published {e : Event I} (h : ∀ i, e ≠ .completePublication i) :
    (w.act scope e).sys.published = w.sys.published :=
  (step_published scope w.sys fun i hi => absurd hi (h i)).1

theorem step_returned {e : Step I} (h : ∀ i, e = .completePublication i → w.sys.permits[i]? = none) :
    (w.step scope e).returned = w.returned := by
  have hact : ∀ (v : World I) (e : Event I), (∀ i, e ≠ .completePublication i) →
      (v.act scope e).sys.published = v.sys.published := fun v e he => act_published he
  suffices hp : (w.step scope e).sys.published = w.sys.published by
    rw [World.returned, hp, World.returned]
  cases e with
  | completePublication i =>
    refine (step_published scope w.sys fun j hj => ?_).1
    cases hj
    exact h i rfl
  | execute i => exact congrArg System.published (execute_frame w i).1
  | _ =>
    simp only [World.step, World.enterPlan, World.capture, World.finishPlan, World.begin, World.reserve,
      World.add, World.complete, World.settle, World.beginRemoval, World.remove, World.persist,
      World.completeRemoval, World.abandon, World.publication]
    repeat' split
    all_goals simp [hact]

theorem returned_cases {e : Step I} {r : Published I} (h : r ∈ (w.step scope e).returned) :
    r ∈ w.returned ∨ w.sys.state.revision.toNat < r.revision.toNat ∧
      ∃ permit ∈ w.sys.permits, permit.entry = some (r.id, r.filter) := by
  by_cases he : ∃ i, e = .completePublication i
  · obtain ⟨i, rfl⟩ := he
    obtain ⟨hmem, hnew⟩ := List.mem_filter.mp h
    have hstep : (w.step scope (.completePublication i)).sys = w.sys.completePublication i := rfl
    rw [hstep] at hmem
    rcases completePublication_cases w.sys i with ⟨-, hsame, -⟩ | ⟨permit, hpermit, -, hlt, hpublished⟩
    · exact Or.inl (List.mem_filter.mpr ⟨hsame ▸ hmem, hnew⟩)
    · rw [hpublished] at hmem
      cases hentry : permit.entry with
      | none =>
        rw [hentry] at hmem
        exact Or.inl (List.mem_filter.mpr ⟨hmem, hnew⟩)
      | some entry =>
        rw [hentry] at hmem
        rcases List.mem_cons.mp hmem with rfl | hmem
        · exact Or.inr ⟨hlt, permit, hpermit, hentry⟩
        · exact Or.inl (List.mem_filter.mpr ⟨hmem, hnew⟩)
  · rw [step_returned fun i hi => absurd ⟨i, hi⟩ he] at h
    exact Or.inl h

/-- A pass that commits a block has just begun with it, or was there already. -/
theorem step_committing {e : Step I} {i : Nat} {checkpoint : Option BlockRef} {block : BlockRef}
    {addresses : List CanonicalAddress}
    (h : (w.step scope e).pass = .committing i checkpoint block addresses) :
    w.pass = .committing i checkpoint block addresses ∨
      ∃ anchor plan out, e = .begin block anchor ∧ w.pass = .ready i checkpoint ∧
        w.sys.plans[i]? = some plan ∧ w.sys.state.begin plan = .ok out ∧
        addresses = if anchor then [] else plan.activeAddresses block.position := by
  cases e with
  | begin b anchor =>
    simp only [World.step, World.begin] at h
    split at h
    · rename_i j c hpass
      split at h
      · exact Or.inl h
      · rename_i plan hj
        split at h
        · cases h
        · split at h
          · cases h
          · rename_i out hbegin
            cases h
            exact Or.inr ⟨anchor, plan, out, rfl, hpass, hj, hbegin, rfl⟩
    · exact Or.inl h
  | finishPlan =>
    simp only [World.step, World.finishPlan] at h
    split at h
    · split_ifs at h
    · exact Or.inl h
  | execute j => exact Or.inl ((execute_frame w j).2 ▸ h)
  | _ =>
    simp only [World.step, World.enterPlan, World.capture, World.reserve,
      World.add, World.complete, World.settle, World.beginRemoval, World.remove, World.persist,
      World.completeRemoval, World.abandon, World.publication, World.act] at h
    repeat' split at h
    all_goals first
      | exact Or.inl h
      | cases h

theorem step_accepted {e : Step I} {write : Write} (h : write ∈ (w.step scope e).accepted) :
    write ∈ w.accepted ∨ e = .abandon ∧ write ∈ w.unanswered := by
  cases e with
  | abandon =>
    simp only [World.step, World.abandon] at h
    split at h
    · rcases List.mem_append.mp h with h | h
      · exact Or.inl h
      · exact Or.inr ⟨rfl, h⟩
    · exact Or.inl h
  | execute i =>
    simp only [World.step, World.execute] at h
    repeat' split at h
    all_goals first
      | exact Or.inl h
      | exact Or.inl (List.mem_of_mem_eraseIdx h)
  | finishPlan =>
    simp only [World.step, World.finishPlan] at h
    split at h
    · split_ifs at h <;> exact Or.inl h
    · exact Or.inl h
  | _ =>
    simp only [World.step, World.enterPlan, World.capture, World.begin, World.reserve, World.add,
      World.complete, World.settle, World.beginRemoval, World.remove, World.persist,
      World.completeRemoval, World.publication, World.act] at h
    repeat' split at h
    all_goals exact Or.inl h

theorem unland_suffix {chain chain' : List BlockRef} {tip : BlockRef} {current : Option BlockRef}
    (h : unland chain tip = some (current, chain')) : chain' <:+ chain := by
  unfold unland at h
  split at h
  · cases h
  · split at h
    · cases h
      exact List.suffix_cons _ _
    · cases h

theorem land_applied {chain chain' : List BlockRef} {expected : Option BlockRef} {block : BlockRef}
    (h : land chain expected block = some (.applied, chain')) :
    chain.head? = expected ∧ chain' = block :: chain := by
  unfold land at h
  split at h
  · cases h
  · split at h
    · rename_i hexpected
      cases h
      exact ⟨hexpected, rfl⟩
    · cases h

/-- Only a block that lands is logged, and only that makes the chain grow. -/
theorem step_log (scope : IndexScope) (w : World I) (e : Step I) :
    (w.step scope e).log = w.log ∧ (w.step scope e).chain <:+ w.chain ∨
      ∃ checkpoint block addresses late, Lands w e checkpoint block addresses late ∧
        w.tip = checkpoint ∧ (w.step scope e).chain = block :: w.chain ∧
        (w.step scope e).log = ⟨block, addresses, w.returned, late⟩ :: w.log := by
  have hsame : w.chain <:+ w.chain := List.suffix_refl _
  cases e with
  | add =>
    dsimp only [World.step, World.add]
    split
    · rename_i i checkpoint block addresses hpass
      split
      · exact Or.inl ⟨rfl, hsame⟩
      · exact Or.inl ⟨rfl, hsame⟩
      · rename_i chain hland
        obtain ⟨htip, rfl⟩ := land_applied hland
        exact Or.inr ⟨checkpoint, block, addresses, false, .pass hpass, htip, rfl, rfl⟩
    · exact Or.inl ⟨rfl, hsame⟩
  | execute i =>
    dsimp only [World.step, World.execute]
    split
    · exact Or.inl ⟨rfl, hsame⟩
    · rename_i checkpoint block addresses revision hi
      split
      · rename_i chain hland
        have happlies : w.applies i = some revision := by simp [World.applies, hi, hland]
        obtain ⟨htip, rfl⟩ := land_applied hland
        exact Or.inr ⟨checkpoint, block, addresses, true, .late hi happlies, htip, rfl, rfl⟩
      · exact Or.inl ⟨rfl, hsame⟩
      · exact Or.inl ⟨rfl, hsame⟩
    · split
      · rename_i hun
        exact Or.inl ⟨rfl, unland_suffix hun⟩
      · exact Or.inl ⟨rfl, hsame⟩
  | finishPlan =>
    simp only [World.step, World.finishPlan]
    split
    · split_ifs <;> exact Or.inl ⟨rfl, hsame⟩
    · exact Or.inl ⟨rfl, hsame⟩
  | remove =>
    left
    simp only [World.step, World.remove]
    split
    · split
      · exact ⟨rfl, hsame⟩
      · rename_i hun
        exact ⟨rfl, unland_suffix hun⟩
    · exact ⟨rfl, hsame⟩
  | _ =>
    left
    dsimp only [World.step, World.enterPlan, World.capture, World.begin, World.reserve, World.complete,
      World.settle, World.beginRemoval, World.persist, World.completeRemoval, World.abandon,
      World.publication, World.act]
    repeat' split
    all_goals exact ⟨rfl, hsame⟩

/-! ## What is selected stands -/

theorem chosen_step (h : Coherent scope w) (hc : Chosen P w) (e : Step I)
    (hbegin : ∀ block anchor i checkpoint plan out, e = .begin block anchor →
      w.pass = .ready i checkpoint → w.sys.plans[i]? = some plan →
      w.sys.state.begin plan = .ok out → ∀ r ∈ w.returned,
        P r block (if anchor then [] else plan.activeAddresses block.position)) :
    Chosen P (w.step scope e) := by
  intro i checkpoint block addresses hpass r hr
  rcases step_committing hpass with hsame | ⟨anchor, plan, out, rfl, hready, hi, hok, rfl⟩
  · rw [step_returned] at hr
    · exact hc i checkpoint block addresses hsame r hr
    · intro j _
      rw [permits_of_holding h (by rw [hsame]; rfl)]
      rfl
  · rw [step_returned (by rintro j ⟨⟩)] at hr
    exact hbegin block anchor i checkpoint plan out rfl hready hi hok r hr

theorem owed_step (h : Coherent scope w) (hc : Chosen P w) (ho : Owed P w) (e : Step I) :
    Owed P (w.step scope e) := by
  intro checkpoint block addresses revision hmem r hr hle
  rcases step_accepted hmem with hold | ⟨rfl, hnew⟩
  · rcases returned_cases hr with hr | ⟨hlt, -⟩
    · exact ho checkpoint block addresses revision hold r hr hle
    · have hbegan := (h.accepted checkpoint block addresses revision hold).2
      rw [UInt64.le_iff_toNat_le] at hle
      omega
  · obtain ⟨⟨plan, hpass⟩, rfl⟩ := unanswered_add hnew
    rw [step_returned (by rintro j ⟨⟩)] at hr
    exact hc plan checkpoint block addresses hpass r hr

end PaymentSdk.Registration
