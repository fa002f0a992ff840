import PaymentSdk.Registration.Coherence

/-!
# Fresh checkpoints

Only the synchronizer changes the chain, and only under its permit, as long as no write
lands late. So its view of the tip is right at every step, and the admission has the tip too,
unless a reload is due.
-/

namespace PaymentSdk.Registration

open Admission

variable {I : Type} {scope : IndexScope} {sys : System I} {w : World I} {tip : Option BlockRef}
  {behind : Bool}

/-! ## The admission -/

/-- Someone has a plan, a permit or a place in the queue, or is about to. -/
inductive InUse (sys : System I) : Prop where
  | planner (h : sys.planners ≠ [])
  | plan (h : sys.plans ≠ [])
  | commit (h : sys.commits ≠ [])
  | permit (h : sys.permits ≠ [])
  | waiter (h : sys.waiting ≠ [])

/-- The admission has the tip, unless a reload is due or the chain has gone on without it:
then it is `behind`. Permits have the tip, and so do the birthdays taken from them. -/
structure Fresh (tip : Option BlockRef) (behind : Bool) (sys : System I) : Prop where
  persisted : sys.state.initialized = true → sys.state.recovery = false → behind = false →
    sys.state.persisted = tip
  permits : ∀ p ∈ sys.permits, p.checkpoint = tip ∧
    ∀ id f, p.entry = some (id, f) → birthday tip = some f.startPosition
  ready : InUse sys → sys.state.initialized = true

/-- What an event brings into the admission is the tip. A waiting call gets it in any case. -/
def Current (tip : Option BlockRef) (behind : Bool) (sys : System I) : Event I → Prop
  | .enterPlan checkpoint | .persist _ checkpoint => behind = false → checkpoint = tip
  | .publication checkpoint => sys.state.busy = false → checkpoint = tip
  | .wake i => i < sys.waiting.length → sys.state.busy = false →
      sys.state.recovery = true ∨ behind = true → sys.state.persisted = tip
  | _ => True

theorem reload_self (s : State) (persisted : Option BlockRef) : (s.reload persisted).persisted = persisted := by
  unfold State.reload State.stale
  split
  · rfl
  · rename_i h
    simp only [Bool.or_eq_true, not_or, decide_eq_true_eq, not_not] at h
    exact h.2

theorem reload_initialized (s : State) (persisted : Option BlockRef) :
    (s.reload persisted).initialized = true := by
  unfold State.reload State.stale
  split
  · rfl
  · rename_i h
    simp only [Bool.or_eq_true, not_or, Bool.not_eq_true, Bool.not_eq_false'] at h
    exact h.1.1

theorem fresh_of_behind (h : Fresh tip behind sys) {behind' : Bool} (hle : behind' = false → behind = false) :
    Fresh tip behind' sys :=
  ⟨fun hinitialized hrecovery hup => h.persisted hinitialized hrecovery (hle hup), h.permits, h.ready⟩

theorem fresh_enterPlan (h : Fresh tip behind sys) {checkpoint : Option BlockRef}
    (he : behind = false → checkpoint = tip) : Fresh tip behind (sys.enterPlan checkpoint) := by
  unfold System.enterPlan State.enterPlan
  cases sys.state.busy with
  | true => exact h
  | false =>
    exact ⟨fun _ _ hup => (reload_self _ _).trans (he hup), h.permits, fun _ => reload_initialized _ _⟩

theorem fresh_granted (h : Fresh tip behind sys) {state : State} {trail : List Mark}
    (hpersisted : state.persisted = tip) (hinitialized : state.initialized = true) :
    Fresh tip behind { sys with state, trail, permits := sys.permits ++ [{ checkpoint := state.persisted }] } := by
  refine ⟨fun _ _ _ => hpersisted, ?_, fun _ => hinitialized⟩
  intro p hp
  rcases List.mem_append.mp hp with hp | hp
  · exact h.permits p hp
  · obtain rfl := List.mem_singleton.mp hp
    exact ⟨hpersisted, by rintro id f ⟨⟩⟩

theorem fresh_waits (h : Fresh tip behind sys) (hx : Exclusion sys) (hbusy : sys.state.busy = true)
    (waiters : List Ticket) (waiting : List Ticket) (tickets : Nat) :
    Fresh tip behind { sys with state := { sys.state with waiters }, waiting, tickets } := by
  refine ⟨h.persisted, h.permits, fun _ => h.ready ?_⟩
  rcases (Bool.or_eq_true _ _).mp hbusy with hcommit | hpublication
  · exact .commit (hx.commit.mp hcommit)
  · exact .permit (hx.publication.mp hpublication)

theorem fresh_publication (h : Fresh tip behind sys) (hx : Exclusion sys) {checkpoint : Option BlockRef}
    (he : sys.state.busy = false → checkpoint = tip) : Fresh tip behind (sys.poll (some checkpoint)) := by
  unfold System.poll State.poll
  cases hbusy : sys.state.busy with
  | true => exact fresh_waits h hx hbusy _ _ _
  | false =>
    obtain rfl := he hbusy
    exact fresh_granted h (reload_self _ _) (reload_initialized _ _)

theorem fresh_cancel (h : Fresh tip behind sys) (i : Nat) : Fresh tip behind (sys.cancel i) := by
  refine ⟨h.persisted, h.permits, fun huse => h.ready ?_⟩
  cases huse with
  | planner hne => exact .planner hne
  | plan hne => exact .plan hne
  | commit hne => exact .commit hne
  | permit hne => exact .permit hne
  | waiter hne => exact .waiter fun hnil => hne (by simp [System.cancel, hnil])

theorem fresh_wake (h : Fresh tip behind sys) (hx : Exclusion sys) {i : Nat}
    (he : i < sys.waiting.length → sys.state.busy = false →
      sys.state.recovery = true ∨ behind = true → sys.state.persisted = tip) : Fresh tip behind (sys.wake i) := by
  unfold System.wake
  cases hi : sys.waiting[i]? with
  | none => exact h
  | some ticket =>
    obtain ⟨hlt, -⟩ := List.getElem?_eq_some_iff.mp hi
    dsimp only
    split
    · unfold System.poll State.poll
      cases hbusy : sys.state.busy with
      | true => exact fresh_waits (fresh_cancel h i) (exclusion_cancel hx i) hbusy _ _ _
      | false =>
        have hinitialized : sys.state.initialized = true := by
          refine h.ready (.waiter fun hnil => ?_)
          simp [hnil] at hlt
        have hpersisted : sys.state.persisted = tip := by
          cases hrecovery : sys.state.recovery with
          | true => exact he hlt hbusy (Or.inl hrecovery)
          | false =>
            cases behind with
            | true => exact he hlt hbusy (Or.inr rfl)
            | false => exact h.persisted hinitialized hrecovery rfl
        exact fresh_granted (fresh_cancel h i) hpersisted hinitialized
    · exact h

theorem fresh_dropPublication (h : Fresh tip behind sys) (i : Nat) :
    Fresh tip behind (sys.dropPublication i) := by
  unfold System.dropPublication
  cases hi : sys.permits[i]? with
  | none => exact h
  | some permit =>
    exact ⟨h.persisted, fun p hp => h.permits p (List.mem_of_mem_eraseIdx hp),
      fun _ => h.ready (.permit (List.ne_nil_of_mem (List.mem_of_getElem? hi)))⟩

theorem fresh_completePublication (h : Fresh tip behind sys) (i : Nat) :
    Fresh tip behind (sys.completePublication i) := by
  unfold System.completePublication State.completePublication
  cases hi : sys.permits[i]? with
  | none => exact h
  | some permit =>
    cases PaymentSdk.checkedSuccessor sys.state.revision with
    | none => exact fresh_dropPublication h i
    | some revision =>
      exact ⟨h.persisted, fun p hp => h.permits p (List.mem_of_mem_eraseIdx hp),
        fun _ => h.ready (.permit (List.ne_nil_of_mem (List.mem_of_getElem? hi)))⟩

theorem fresh_entry (h : Fresh tip behind sys) {i : Nat} {permit : PublicationPermit I}
    (hi : sys.permits[i]? = some permit) (values : List (I × AddressFilter))
    {entry : Option (I × AddressFilter)}
    (hentry : ∀ id f, entry = some (id, f) → birthday tip = some f.startPosition) :
    Fresh tip behind { sys with values, permits := sys.permits.set i { checkpoint := permit.checkpoint, entry } } := by
  have hmem := List.mem_of_getElem? hi
  refine ⟨h.persisted, ?_, fun _ => h.ready (.permit (List.ne_nil_of_mem hmem))⟩
  intro p hp
  rcases List.mem_or_eq_of_mem_set hp with hp | rfl
  · exact h.permits p hp
  · exact ⟨(h.permits permit hmem).1, hentry⟩

theorem fresh_endCommit (h : Fresh tip behind sys) (hheld : sys.commits ≠ []) {behind' : Bool}
    {persisted : Option BlockRef} {recovery : Bool} {waiters fired : List Ticket} {trail : List Mark}
    (hpersisted : recovery = false → behind' = false → persisted = tip) :
    Fresh tip behind' { sys with
      state := { sys.state with persisted, commit := false, recovery, waiters }
      commits := sys.commits.eraseIdx 0, fired, trail } :=
  ⟨fun _ hrecovery hup => hpersisted hrecovery hup, h.permits, fun _ => h.ready (.commit hheld)⟩

theorem fresh_completeCommit (h : Fresh tip behind sys) (hheld : sys.commits = [{ started := true }])
    {behind' : Bool} {checkpoint : Option BlockRef} (he : behind' = false → checkpoint = tip) :
    Fresh tip behind' (sys.completeCommit 0 checkpoint) := by
  have hi : sys.commits[0]? = some { started := true } := by rw [hheld]; rfl
  unfold System.completeCommit
  rw [hi]
  exact fresh_endCommit h (by simp [hheld]) fun _ => he

theorem fresh_dropCommit (h : Fresh tip behind sys) (hheld : sys.commits = [{ started := true }])
    {behind' : Bool} : Fresh tip behind' (sys.dropCommit 0) := by
  have hi : sys.commits[0]? = some { started := true } := by rw [hheld]; rfl
  unfold System.dropCommit
  rw [hi]
  refine fresh_endCommit h (by simp [hheld]) fun hrecovery => ?_
  simp at hrecovery

/-! ## The view of a pass -/

/-- A write has landed late. -/
def World.overtaken (w : World I) : Bool := w.log.any (·.late)

/-- The pass knows the tip. -/
def Pass.Sees (tip : Option BlockRef) : Pass → Prop
  | idle | refused => True
  | read checkpoint | planning _ checkpoint | ready _ checkpoint | committing _ checkpoint _ _ =>
    checkpoint = tip
  | committed _ block => some block = tip
  | removing _ current | removed _ current => current = tip

theorem sees_add (hview : w.pass.Sees w.tip) : w.add.pass.Sees w.add.tip := by
  unfold World.add
  split
  · rename_i plan checkpoint block addresses hpass
    unfold land
    split_ifs with htip hexpected
    · exact htip.symm
    · rfl
    · trivial
  · exact hview

theorem sees_remove (hview : w.pass.Sees w.tip) : w.remove.pass.Sees w.remove.tip := by
  unfold World.remove
  split
  · rename_i plan tip hpass
    unfold unland
    split
    · trivial
    · rename_i current chain hun
      split at hun
      · cases hun
      · split at hun
        · cases hun
          rfl
        · cases hun
  · exact hview

variable [DecidableEq I]

/-- No block is removed. -/
def Keeps (scope : IndexScope) (w : World I) (e : Step I) : Prop :=
  w.chain <:+ (w.step scope e).chain

instance (scope : IndexScope) (w : World I) (e : Step I) : Decidable (Keeps scope w e) :=
  inferInstanceAs (Decidable (w.chain <:+ (w.step scope e).chain))

theorem settle_frame (w : World I) (plan : Nat) (checkpoint : Option BlockRef) :
    (w.settle scope plan checkpoint).chain = w.chain ∧ (w.settle scope plan checkpoint).log = w.log := by
  cases checkpoint <;> exact ⟨rfl, rfl⟩

theorem overtaken_step {e : Step I} (h : (w.step scope e).overtaken = false) : w.overtaken = false := by
  rcases step_log scope w e with ⟨hlog, -⟩ | ⟨checkpoint, block, addresses, late, -, -, -, hlog⟩
  · rwa [World.overtaken, hlog] at h
  · rw [World.overtaken, hlog, List.any_cons] at h
    exact (Bool.or_eq_false_iff.mp h).2

theorem tip_execute {i : Nat} (hkeep : Keeps scope w (.execute i))
    (h : (w.step scope (.execute i)).overtaken = false) : (w.step scope (.execute i)).tip = w.tip := by
  rcases step_log scope w (.execute i) with
    ⟨-, hchain⟩ | ⟨checkpoint, block, addresses, late, hlands, -, -, hlog⟩
  · rw [World.tip, hchain.eq_of_length_le hkeep.length_le, World.tip]
  · cases hlands
    rw [World.overtaken, hlog, List.any_cons] at h
    cases h

theorem sees_enterPlan (hview : w.pass.Sees w.tip) :
    (w.enterPlan scope).pass.Sees (w.enterPlan scope).tip := by
  unfold World.enterPlan
  split
  · rename_i checkpoint hpass
    rw [hpass] at hview
    split
    · trivial
    · exact hview
  · exact hview

theorem sees_finishPlan (hview : w.pass.Sees w.tip) :
    (w.finishPlan scope).pass.Sees (w.finishPlan scope).tip := by
  unfold World.finishPlan
  split
  · rename_i planner checkpoint hpass
    rw [hpass] at hview
    dsimp only
    split
    · exact hview
    · trivial
  · exact hview

theorem sees_begin (hview : w.pass.Sees w.tip) (block : BlockRef) (anchor : Bool) :
    (w.begin scope block anchor).pass.Sees (w.begin scope block anchor).tip := by
  unfold World.begin
  split
  · rename_i i checkpoint hpass
    have hready := hview
    rw [hpass] at hready
    split
    · exact hview
    · split
      · trivial
      · split
        · trivial
        · exact hready
  · exact hview

theorem sees_beginRemoval (hview : w.pass.Sees w.tip) :
    (w.beginRemoval scope).pass.Sees (w.beginRemoval scope).tip := by
  unfold World.beginRemoval
  split
  · rename_i i checkpoint hpass
    have hready := hview
    rw [hpass] at hready
    split
    · exact hview
    · split
      · trivial
      · exact hready
  · exact hview

theorem sees_persist (hview : w.pass.Sees w.tip) : (w.persist scope).pass.Sees (w.persist scope).tip := by
  unfold World.persist
  split
  · rename_i plan current hpass
    rw [hpass] at hview
    exact hview
  · exact hview

theorem sees_settle {plan : Nat} {checkpoint : Option BlockRef} (hview : checkpoint = w.tip) :
    (w.settle scope plan checkpoint).pass.Sees (w.settle scope plan checkpoint).tip := by
  rw [World.tip, (settle_frame w plan checkpoint).1]
  exact hview

theorem sees_complete (hview : w.pass.Sees w.tip) : (w.complete scope).pass.Sees (w.complete scope).tip := by
  unfold World.complete
  split
  · rename_i plan block hpass
    rw [hpass] at hview
    exact sees_settle hview
  · exact hview

theorem sees_completeRemoval (hview : w.pass.Sees w.tip) :
    (w.completeRemoval scope).pass.Sees (w.completeRemoval scope).tip := by
  unfold World.completeRemoval
  split
  · rename_i plan current hpass
    rw [hpass] at hview
    exact sees_settle hview
  · exact hview

theorem sees_step (hview : w.pass.Sees w.tip) {e : Step I} (hkeep : Keeps scope w e)
    (h : (w.step scope e).overtaken = false) : (w.step scope e).pass.Sees (w.step scope e).tip := by
  cases e with
  | readTip =>
    simp only [World.step]
    split
    · exact rfl
    · exact hview
  | enterPlan => exact sees_enterPlan hview
  | capture =>
    simp only [World.step, World.capture]
    split <;> exact hview
  | finishPlan => exact sees_finishPlan hview
  | begin block anchor => exact sees_begin hview block anchor
  | add => exact sees_add hview
  | complete => exact sees_complete hview
  | beginRemoval => exact sees_beginRemoval hview
  | remove => exact sees_remove hview
  | persist => exact sees_persist hview
  | completeRemoval => exact sees_completeRemoval hview
  | abandon =>
    simp only [World.step, World.abandon]
    split <;> trivial
  | execute i =>
    rw [tip_execute hkeep h]
    exact (execute_frame w i).2 ▸ hview
  | readCheckpoint => exact hview
  | publication i =>
    simp only [World.step, World.publication]
    split <;> exact hview
  | wake i => exact hview
  | cancel i => exact hview
  | insert i id address => exact hview
  | forget i => exact hview
  | completePublication i => exact hview
  | dropPublication i => exact hview

/-! ## Events -/

omit [DecidableEq I] in
theorem fresh_kept {sys' : System I} (h : Fresh tip behind sys) (huse : InUse sys)
    (hpersisted : sys'.state.persisted = sys.state.persisted) (hrecovery : sys'.state.recovery = sys.state.recovery)
    (hinitialized : sys'.state.initialized = sys.state.initialized) (hpermits : sys'.permits = sys.permits) :
    Fresh tip behind sys' := by
  refine ⟨?_, ?_, fun _ => hinitialized.trans (h.ready huse)⟩
  · rw [hpersisted, hrecovery, hinitialized]
    exact h.persisted
  · rw [hpermits]
    exact h.permits

omit [DecidableEq I] in
theorem fresh_beginPermit (h : Fresh tip behind sys) (i : Nat) : Fresh tip behind (sys.begin i) := by
  unfold System.begin
  split
  · exact h
  · rename_i plan hi
    have huse : InUse sys := .plan (List.ne_nil_of_mem (List.mem_of_getElem? hi))
    split
    · exact h
    · rename_i permit state hbegin
      obtain ⟨-, -, -, -, -, rfl⟩ := begin_ok hbegin
      exact fresh_kept h huse rfl rfl rfl rfl

omit [DecidableEq I] in
theorem fresh_persistPermit (h : Fresh tip behind sys) (i : Nat) {checkpoint : Option BlockRef}
    (he : behind = false → checkpoint = tip) : Fresh tip behind (sys.persist i checkpoint) := by
  unfold System.persist
  split
  · exact h
  · rename_i permit hi
    have hne := List.ne_nil_of_mem (List.mem_of_getElem? hi)
    exact ⟨fun _ _ hup => he hup, h.permits, fun _ => h.ready (.commit hne)⟩

theorem fresh_insert (scope : IndexScope) (h : Fresh tip behind sys) (i : Nat) (id : I) (address : Text) :
    Fresh tip behind (sys.insert scope i id address) := by
  unfold System.insert
  split
  · rename_i checkpoint hi
    split
    · exact fresh_dropPublication h i
    · rename_i start hstart
      split
      · exact fresh_dropPublication h i
      · refine fresh_entry h hi _ ?_
        rintro _ _ ⟨⟩
        rw [← (h.permits _ (List.mem_of_getElem? hi)).1]
        exact hstart
  · exact h

/-- The events other than the end of a commit. -/
theorem fresh_step (scope : IndexScope) (h : Fresh tip behind sys) (hx : Exclusion sys)
    {e : Event I} (he : Current tip behind sys e)
    (hend : ∀ i c, e ≠ .completeCommit i c ∧ e ≠ .dropCommit i) : Fresh tip behind (sys.step scope e) := by
  cases e with
  | enterPlan checkpoint => exact fresh_enterPlan h he
  | capture i =>
    simp only [System.step, System.capture]
    split
    · exact h
    · rename_i planner hi
      exact fresh_kept h (.planner (List.ne_nil_of_mem (List.mem_of_getElem? hi))) rfl rfl rfl rfl
  | finishPlan i =>
    simp only [System.step, System.finishPlan]
    split
    · rename_i hi
      have huse : InUse sys := .planner (List.ne_nil_of_mem (List.mem_of_getElem? hi))
      split <;> exact fresh_kept h huse rfl rfl rfl rfl
    · exact h
  | advance i checkpoint =>
    simp only [System.step, System.advance]
    split
    · exact h
    · rename_i plan hi
      exact fresh_kept h (.plan (List.ne_nil_of_mem (List.mem_of_getElem? hi))) rfl rfl rfl rfl
  | begin i => exact fresh_beginPermit h i
  | start i =>
    simp only [System.step, System.start]
    split
    · exact h
    · rename_i permit hi
      exact fresh_kept h (.commit (List.ne_nil_of_mem (List.mem_of_getElem? hi))) rfl rfl rfl rfl
  | persist i checkpoint => exact fresh_persistPermit h i he
  | completeCommit i checkpoint => exact absurd rfl (hend i checkpoint).1
  | dropCommit i => exact absurd rfl (hend i none).2
  | publication checkpoint => exact fresh_publication h hx he
  | wake i => exact fresh_wake h hx he
  | cancel i => exact fresh_cancel h i
  | insert i id address => exact fresh_insert scope h i id address
  | forget i =>
    simp only [System.step, System.forget]
    split
    · rename_i hi
      exact fresh_entry h hi _ (by rintro _ _ ⟨⟩)
    · exact h
  | completePublication i => exact fresh_completePublication h i
  | dropPublication i => exact fresh_dropPublication h i

end PaymentSdk.Registration
