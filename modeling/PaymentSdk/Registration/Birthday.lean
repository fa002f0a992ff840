import PaymentSdk.Lib.Run
import PaymentSdk.Registration.Freshness
import PaymentSdk.Registration.Replacement

/-!
# Birthdays

A registration takes its birthday from the checkpoint of its permit. If that is the tip, the
birthday is above every committed block. It can be an older checkpoint in three ways: the
read before the permit is stale, the call waited for a commit that was dropped and a reload is
due, or a dropped commit lands after the permit was given.
-/

namespace PaymentSdk.Registration

open Admission Interaction

variable {I : Type} {scope : IndexScope} {w : World I}

/-! ## What a run must meet -/

/-- A registration gets its permit with the tip: its read is current, or, if it had to wait and
a reload is due or a write has landed late, the admission has the tip still. A write lands late
only where no registration has its permit, and none has returned, since it began. An anchor is
below every returned birthday. -/
def Timely (w : World I) : Step I → Prop
  | .begin block anchor => anchor = true → ∀ r ∈ w.returned, block.position < r.filter.startPosition
  | .execute i => ∀ revision ∈ w.applies i,
      w.sys.state.publication = false ∧ ∀ r ∈ w.returned, r.revision ≤ revision
  | .publication i => w.sys.state.busy = false → ∀ checkpoint ∈ w.reads[i]?, checkpoint = w.tip
  | .wake i => i < w.sys.waiting.length → w.sys.state.busy = false →
      w.sys.state.recovery = true ∨ w.overtaken = true → w.sys.state.persisted = w.tip
  | _ => True

instance (w : World I) : (e : Step I) → Decidable (Timely w e)
  | .begin block anchor => inferInstanceAs (Decidable (anchor = true → ∀ r ∈ w.returned,
      block.position < r.filter.startPosition))
  | .execute i => Option.decidableForallMem (w.applies i)
  | .publication i => inferInstanceAs (Decidable (w.sys.state.busy = false →
      ∀ checkpoint ∈ w.reads[i]?, checkpoint = w.tip))
  | .wake i => inferInstanceAs (Decidable (i < w.sys.waiting.length → w.sys.state.busy = false →
      w.sys.state.recovery = true ∨ w.overtaken = true → w.sys.state.persisted = w.tip))
  | .readTip | .enterPlan | .capture | .finishPlan | .add | .complete | .beginRemoval | .remove
  | .persist | .completeRemoval | .abandon | .readCheckpoint | .cancel _ | .insert .. | .forget _
  | .completePublication _ | .dropPublication _ => .isTrue trivial

/-! ## The admission along a run -/

/-- The chain has gone on and the admission does not have it: the block of a pass has landed and
its permit is not completed, or a write has landed late. -/
def World.behind (w : World I) : Bool := w.pass.landed || w.overtaken

/-- The freshness of a world, in its own words. -/
abbrev World.Fresh (w : World I) : Prop := Registration.Fresh w.tip w.behind w.sys

theorem overtaken_of_behind (h : w.behind = false) : w.overtaken = false :=
  (Bool.or_eq_false_iff.mp h).2

theorem fresh_pass (hf : w.Fresh) (hp : w.pass.landed = false) (pass : Pass) :
    ({ w with pass } : World I).Fresh := by
  refine fresh_of_behind hf fun hup => ?_
  have hover : w.overtaken = false := overtaken_of_behind (w := { w with pass }) hup
  rw [World.behind, hp, hover, Bool.or_false]

theorem landed_of_holding (h : w.pass.holding = false) : w.pass.landed = false := by
  cases hpass : w.pass with
  | committed plan block =>
    rw [hpass] at h
    cases h
  | _ => rfl

theorem fresh_landed (hf : w.Fresh) (hpermits : w.sys.permits = []) (tip : Option BlockRef) :
    Registration.Fresh tip true w.sys := by
  refine ⟨by rintro - - ⟨⟩, ?_, hf.ready⟩
  rw [hpermits]
  rintro p ⟨⟩

theorem fresh_add (h : Coherent scope w) (hf : w.Fresh) : w.add.Fresh := by
  unfold World.add
  split
  · rename_i i checkpoint block addresses hpass
    have hpermits := permits_of_holding h (by rw [hpass]; rfl)
    have hp : w.pass.landed = false := by rw [hpass]; rfl
    split
    · exact fresh_pass hf hp _
    · exact fresh_of_behind hf (by rintro ⟨⟩)
    · exact fresh_landed hf hpermits _
  · exact hf

theorem fresh_execute (h : Coherent scope w) (hf : w.Fresh) {i : Nat} (he : Timely w (.execute i))
    (hkeep : w.chain <:+ (w.execute i).chain) : (w.execute i).Fresh := by
  revert hkeep
  unfold World.execute
  split
  · exact fun _ => hf
  · rename_i checkpoint block addresses revision hi
    split
    · rename_i chain hland
      have happlies : w.applies i = some revision := by simp [World.applies, hi, hland]
      have hpermits : w.sys.permits = [] := by
        by_contra hne
        have hbusy := h.exclusion.publication.mpr hne
        rw [(he revision happlies).1] at hbusy
        cases hbusy
      refine fun _ => fresh_of_behind (fresh_landed hf hpermits _) fun hup => ?_
      have hover := overtaken_of_behind hup
      simp [World.overtaken] at hover
    · exact fun _ => hf
    · exact fun _ => hf
  · split
    · rename_i current chain hun
      intro hkeep
      have hsame : chain = w.chain := (unland_suffix hun).eq_of_length_le hkeep.length_le
      subst hsame
      exact hf
    · exact fun _ => hf

theorem fresh_remove (hf : w.Fresh) (hkeep : w.chain <:+ w.remove.chain) : w.remove.Fresh := by
  revert hkeep
  unfold World.remove
  split
  · rename_i plan tip hpass
    have hp : w.pass.landed = false := by rw [hpass]; rfl
    split
    · exact fun _ => fresh_pass hf hp _
    · rename_i current chain hun
      intro hkeep
      have hsame : chain = w.chain := (unland_suffix hun).eq_of_length_le hkeep.length_le
      subst hsame
      exact fresh_pass hf hp _
  · exact fun _ => hf

/-! ## What has landed -/

/-- What a block owes a registration that has returned. -/
def Owes (r : Published I) (block : BlockRef) (addresses : List CanonicalAddress) : Prop :=
  r.filter.startPosition ≤ block.position → r.filter.address ∈ addresses

theorem connected_of_lands (h : Coherent scope w) {e : Step I} {checkpoint : Option BlockRef}
    {block : BlockRef} {addresses : List CanonicalAddress} {late : Bool}
    (hlands : Lands w e checkpoint block addresses late) : connected checkpoint block = true := by
  cases hlands with
  | pass hpass => exact h.connects _ _ _ _ hpass
  | late hi => exact (h.accepted _ _ _ _ (List.mem_of_getElem? hi)).1

/-- The invariant of the runs in which birthdays are those of the tip. -/
structure Timed (scope : IndexScope) (w : World I) : Prop where
  coherent : Coherent scope w
  view : w.overtaken = false → w.pass.Sees w.tip
  fresh : w.Fresh
  below : ∀ l ∈ w.log, ∃ tip, w.tip = some tip ∧ l.block.position ≤ tip.position
  chosen : Chosen Owes w
  owed : Owed Owes w
  logged : ∀ l ∈ w.log, ∀ r ∈ w.returned, Owes r l.block l.addresses

theorem timed_initial (scope : IndexScope) (values : List (I × AddressFilter)) (past : Past) :
    Timed scope (World.initial scope values past) := by
  refine ⟨coherent_initial scope values past, fun _ => trivial, ⟨by rintro ⟨⟩, by rintro p ⟨⟩, ?_⟩, ?_,
    by rintro _ _ _ _ ⟨⟩, by rintro _ _ _ _ ⟨⟩, ?_⟩
  · rintro (hne | hne | hne | hne | hne) <;> exact absurd rfl hne
  · intro l hl
    obtain ⟨b, hb, rfl⟩ := List.mem_map.mp hl
    obtain ⟨blocks, hdescending⟩ := past
    cases blocks with
    | nil => cases hb
    | cons top lower =>
      refine ⟨top.1, rfl, ?_⟩
      rcases List.mem_cons.mp hb with rfl | hb
      · exact Nat.le_refl _
      · exact Nat.le_of_lt ((List.pairwise_cons.mp hdescending).1 b hb)
  · -- What is published at the start is not from a registration.
    intro l _ r hr
    obtain ⟨hmem, hnew⟩ := List.mem_filter.mp hr
    obtain ⟨v, -, rfl⟩ := List.mem_map.mp hmem
    simp at hnew

theorem lt_birthday {block tip : BlockRef} {start : BlockPosition} (h : birthday (some tip) = some start)
    (hle : block.position ≤ tip.position) : block.position < start := by
  have hstart := BlockPosition.checkedSuccessor_eq_some h
  rw [BlockPosition.le_def] at hle
  rw [BlockPosition.lt_def]
  omega

theorem position_lt_of_connected {block tip : BlockRef} (h : connected (some tip) block = true) :
    tip.position < block.position := by
  simp only [connected, Sync.checkTip, Bool.and_eq_true] at h
  obtain ⟨-, h⟩ := h
  split at h
  · cases h
  · split at h
    · rename_i hconn
      simp only [BlockRef.connects, Bool.and_eq_true, decide_eq_true_eq] at hconn
      exact hconn.1.2
    · cases h

variable [DecidableEq I]

theorem fresh_act (h : Coherent scope w) (hf : w.Fresh) {e : Event I} (he : Current w.tip w.behind w.sys e)
    (hend : ∀ i c, e ≠ .completeCommit i c ∧ e ≠ .dropCommit i) : (w.act scope e).Fresh :=
  fresh_step scope hf h.exclusion he hend

theorem fresh_reserve (h : Coherent scope w) (hf : w.Fresh) (i : Nat) : (w.reserve scope i).Fresh := by
  have hbegin := fresh_step scope hf h.exclusion (e := .begin i) trivial (by simp)
  exact fresh_step scope hbegin (exclusion_step h.exclusion scope (.begin i)) (e := .start 0)
    trivial (by simp)

theorem fresh_settle (h : Coherent scope w) (hf : w.Fresh) (hp : w.pass.holding = true) (plan : Nat)
    {checkpoint : Option BlockRef} (hview : w.overtaken = false → checkpoint = w.tip) :
    (w.settle scope plan checkpoint).Fresh := by
  have hended : Fresh w.tip w.overtaken (w.sys.step scope (.completeCommit 0 checkpoint)) :=
    fresh_completeCommit hf (h.held hp) hview
  have hx := exclusion_step h.exclusion scope (.completeCommit 0 checkpoint)
  cases checkpoint with
  | none => exact hended
  | some block => exact fresh_step scope hended hx (e := .advance plan block) trivial (by simp)

theorem fresh_planning (h : Coherent scope w) (hf : w.Fresh)
    (hview : w.overtaken = false → w.pass.Sees w.tip) : (w.enterPlan scope).Fresh := by
  unfold World.enterPlan
  split
  · rename_i checkpoint hpass
    have hp : w.pass.landed = false := by rw [hpass]; rfl
    split
    · exact fresh_pass hf hp _
    · have hcurrent : w.behind = false → checkpoint = w.tip := by
        intro hup
        have hsees := hview (overtaken_of_behind hup)
        rw [hpass] at hsees
        exact hsees
      exact fresh_pass (fresh_act h hf (e := .enterPlan checkpoint) hcurrent (by simp)) hp _
  · exact hf

theorem fresh_planned (h : Coherent scope w) (hf : w.Fresh) : (w.finishPlan scope).Fresh := by
  unfold World.finishPlan
  split
  · rename_i planner checkpoint hpass
    have hp : w.pass.landed = false := by rw [hpass]; rfl
    have hact := fresh_act h hf (e := .finishPlan planner) trivial (by simp)
    dsimp only
    split_ifs
    · exact fresh_pass hact hp _
    · exact fresh_pass hact hp _
  · exact hf

theorem fresh_begin (h : Coherent scope w) (hf : w.Fresh) (block : BlockRef) (anchor : Bool) :
    (w.begin scope block anchor).Fresh := by
  unfold World.begin
  split
  · rename_i i checkpoint hpass
    have hp : w.pass.landed = false := by rw [hpass]; rfl
    split
    · exact hf
    · split
      · exact fresh_pass hf hp _
      · split
        · exact fresh_pass hf hp _
        · exact fresh_pass (fresh_reserve h hf i) hp _
  · exact hf

theorem fresh_beginRemoval (h : Coherent scope w) (hf : w.Fresh) : (w.beginRemoval scope).Fresh := by
  unfold World.beginRemoval
  split
  · rename_i i checkpoint hpass
    have hp : w.pass.landed = false := by rw [hpass]; rfl
    split
    · exact hf
    · split
      · exact fresh_pass hf hp _
      · exact fresh_pass (fresh_reserve h hf i) hp _
  · exact hf

theorem fresh_persist (h : Coherent scope w) (hf : w.Fresh)
    (hview : w.overtaken = false → w.pass.Sees w.tip) : (w.persist scope).Fresh := by
  unfold World.persist
  split
  · rename_i plan current hpass
    have hp : w.pass.landed = false := by rw [hpass]; rfl
    have hcurrent : w.behind = false → current = w.tip := by
      intro hup
      have hsees := hview (overtaken_of_behind hup)
      rw [hpass] at hsees
      exact hsees
    exact fresh_pass (fresh_act h hf (e := .persist 0 current) hcurrent (by simp)) hp _
  · exact hf

theorem fresh_abandon (h : Coherent scope w) (hf : w.Fresh) : (w.abandon scope).Fresh := by
  unfold World.abandon
  split
  · rename_i hp
    exact fresh_dropCommit hf (h.held hp)
  · rename_i hp
    exact fresh_pass hf (landed_of_holding (by simpa using hp)) _

theorem fresh_world (h : Coherent scope w) (hf : w.Fresh)
    (hview : w.overtaken = false → w.pass.Sees w.tip) {e : Step I} (he : Timely w e)
    (hkeep : Keeps scope w e) : (w.step scope e).Fresh := by
  cases e with
  | readTip =>
    simp only [World.step]
    split
    · rename_i hpass
      exact fresh_pass hf (by rw [hpass]; rfl) _
    · exact hf
  | enterPlan => exact fresh_planning h hf hview
  | capture =>
    simp only [World.step, World.capture]
    split
    · exact fresh_act h hf trivial (by simp)
    · exact hf
  | finishPlan => exact fresh_planned h hf
  | begin block anchor => exact fresh_begin h hf block anchor
  | add => exact fresh_add h hf
  | complete =>
    simp only [World.step, World.complete]
    split
    · rename_i plan block hpass
      rw [hpass] at hview
      exact fresh_settle h hf (by rw [hpass]; rfl) plan hview
    · exact hf
  | beginRemoval => exact fresh_beginRemoval h hf
  | remove => exact fresh_remove hf hkeep
  | persist => exact fresh_persist h hf hview
  | completeRemoval =>
    simp only [World.step, World.completeRemoval]
    split
    · rename_i plan current hpass
      rw [hpass] at hview
      exact fresh_settle h hf (by rw [hpass]; rfl) plan hview
    · exact hf
  | abandon => exact fresh_abandon h hf
  | execute i => exact fresh_execute h hf he hkeep
  | readCheckpoint => exact hf
  | publication i =>
    simp only [World.step, World.publication]
    split
    · exact hf
    · rename_i persisted hi
      exact fresh_act h hf (e := .publication persisted) (fun hbusy => he hbusy persisted hi) (by simp)
  | wake i =>
    refine fresh_act h hf (e := .wake i) (fun hlt hbusy hdue => he hlt hbusy (hdue.imp_right ?_)) (by simp)
    -- A pass whose block has landed holds its permit, and then nobody gets another.
    intro hbehind
    rcases (Bool.or_eq_true _ _).mp hbehind with hlanded | hover
    · rw [busy_of_landed h hlanded] at hbusy
      cases hbusy
    · exact hover
  | cancel i => exact fresh_act h hf trivial (by simp)
  | insert i id address => exact fresh_act h hf trivial (by simp)
  | forget i => exact fresh_act h hf trivial (by simp)
  | completePublication i => exact fresh_act h hf trivial (by simp)
  | dropPublication i => exact fresh_act h hf trivial (by simp)

/-! ## Runs without removals -/

theorem owes_returned (h : Timed scope w) {e : Step I} {r : Published I}
    (hr : r ∈ (w.step scope e).returned) {l : Landing I} (hl : l ∈ w.log) : Owes r l.block l.addresses := by
  rcases returned_cases hr with hold | ⟨-, permit, hpermit, hentry⟩
  · exact h.logged l hl r hold
  · -- The new birthday is above the tip, and so above the block.
    intro hstart
    obtain ⟨tip, htip, hle⟩ := h.below l hl
    have hbirthday := (h.fresh.permits permit hpermit).2 _ _ hentry
    rw [htip] at hbirthday
    exact absurd hstart (Nat.not_le_of_lt (lt_birthday hbirthday hle))

theorem timed_step (h : Timed scope w) {e : Step I} (he : Timely w e) (hkeep : Keeps scope w e) :
    Timed scope (w.step scope e) := by
  have hchosen : Chosen Owes (w.step scope e) := by
    refine chosen_step h.coherent h.chosen e ?_
    rintro block anchor i checkpoint plan out rfl hpass hi hbegin r hr hstart
    cases anchor with
    | true =>
      have hlt : block.position < r.filter.startPosition := he rfl r hr
      exact absurd hstart (Nat.not_le_of_lt hlt)
    | false => exact selects_published h.coherent hi hbegin (List.mem_of_mem_filter hr) hstart
  refine ⟨coherent_step h.coherent e, fun hlate => sees_step (h.view (overtaken_step hlate)) hkeep hlate,
    fresh_world h.coherent h.fresh h.view he hkeep, ?_, hchosen, owed_step h.coherent h.chosen h.owed e, ?_⟩
  · rcases step_log scope w e with
      ⟨hlog, hchain⟩ | ⟨checkpoint, block, addresses, late, hlands, htip, hchain, hlog⟩
    · have hsame : (w.step scope e).tip = w.tip := by
        rw [World.tip, hchain.eq_of_length_le hkeep.length_le, World.tip]
      rw [hlog, hsame]
      exact h.below
    · have hnew : (w.step scope e).tip = some block := by rw [World.tip, hchain]; rfl
      have hconnected := connected_of_lands h.coherent hlands
      rw [hlog]
      intro l hl
      refine ⟨block, hnew, ?_⟩
      rcases List.mem_cons.mp hl with rfl | hl
      · exact Nat.le_refl _
      · obtain ⟨tip, hold, hle⟩ := h.below l hl
        rw [← htip, hold] at hconnected
        exact Nat.le_trans hle (Nat.le_of_lt (position_lt_of_connected hconnected))
  · rcases step_log scope w e with
      ⟨hlog, -⟩ | ⟨checkpoint, block, addresses, late, hlands, -, -, hlog⟩
    · rw [hlog]
      exact fun l hl r hr => owes_returned h hr hl
    · have hreturned : (w.step scope e).returned = w.returned := by
        refine step_returned ?_
        cases hlands <;> rintro j ⟨⟩
      rw [hlog, hreturned]
      intro l hl r hr
      rcases List.mem_cons.mp hl with rfl | hl
      · refine owes_landed h.chosen h.owed hlands ?_ r hr
        rintro i revision rfl happlies
        exact (he revision happlies).2
      · exact h.logged l hl r hr

/-- No block is missed: in every run without removals in which permits get the tip, and for any
interleaving of passes, registrations and late writes, every block that reaches the birthday
of a returned registration was interpreted with its address, whenever the block was committed. -/
theorem registration_misses_no_block (scope : IndexScope) (values : List (I × AddressFilter))
    (past : Past) (steps : List (Step I))
    (hkeep : Along (World.step scope) (Keeps scope) (World.initial scope values past) steps)
    (h : Along (World.step scope) Timely (World.initial scope values past) steps) :
    ∀ r ∈ (World.run scope values past steps).returned,
      ∀ l ∈ (World.run scope values past steps).log,
        r.filter.startPosition ≤ l.block.position → r.filter.address ∈ l.addresses := by
  have hrun : Timed scope (World.run scope values past steps) :=
    along_invariant (along_and h hkeep) (fun w e _ hok hw => timed_step hw hok.1 hok.2)
      (timed_initial scope values past)
  exact fun r hr l hl => hrun.logged l hl r hr

/-- A registration waits for the commit of block one. The pass that begins with block two is
cancelled, and the block lands late. -/
def waits : List (Step Nat) :=
  [plan, [.begin Redb.sampleNext false, .readCheckpoint, .publication 0, .add, .complete, .wake 0,
    .insert 0 7 Redb.sampleAddress.value, .completePublication 0, .abandon],
   plan, [.begin (Redb.sampleBlock 2 (some ⟨⟨1⟩, ⟨[1]⟩⟩)) false, .abandon, .execute 0]].flatten

theorem registration_misses_no_block_waiting :
    Along (World.step Redb.sampleScope) (Keeps Redb.sampleScope)
        (World.initial Redb.sampleScope [] onGenesis) waits ∧
      Along (World.step Redb.sampleScope) Timely (World.initial Redb.sampleScope [] onGenesis) waits ∧
      ((World.run Redb.sampleScope [] onGenesis waits).log.map fun l => (l.addresses.length, l.late)) =
        [(1, true), (0, false), (0, false)] ∧
      ∀ r ∈ (World.run Redb.sampleScope [] onGenesis waits).returned,
        ∀ l ∈ (World.run Redb.sampleScope [] onGenesis waits).log,
          r.filter.startPosition ≤ l.block.position → r.filter.address ∈ l.addresses := by
  have hkeep : Along (World.step Redb.sampleScope) (Keeps Redb.sampleScope)
      (World.initial Redb.sampleScope [] onGenesis) waits := by decide
  have h : Along (World.step Redb.sampleScope) Timely
      (World.initial Redb.sampleScope [] onGenesis) waits := by decide
  exact ⟨hkeep, h, by decide, registration_misses_no_block _ _ _ _ hkeep h⟩

/-- The checkpoint is read, block one is committed, and then the publication is asked for: it
takes the admission back to genesis, and the wallet is born at a block it is not in. -/
theorem stale_read_misses_block :
    let steps : List (Step Nat) := [[.readCheckpoint], plan, commit Redb.sampleNext,
      [.publication 0, .insert 0 7 Redb.sampleAddress.value, .completePublication 0]].flatten
    Along (World.step Redb.sampleScope) (Keeps Redb.sampleScope)
        (World.initial Redb.sampleScope [] onGenesis) steps ∧
      ∃ r ∈ (World.run Redb.sampleScope [] onGenesis steps).returned,
        ∃ l ∈ (World.run Redb.sampleScope [] onGenesis steps).log,
          r.filter.startPosition ≤ l.block.position ∧ r.filter.address ∉ l.addresses := by
  decide

/-! A pass is cancelled with block one under way, a wallet is registered on genesis, and then the
block lands. -/

example :
    let steps : List (Step Nat) := [plan, [.begin Redb.sampleNext false, .abandon], register, [.execute 0]].flatten
    ∃ r ∈ (World.run Redb.sampleScope [] onGenesis steps).returned,
      ∃ l ∈ (World.run Redb.sampleScope [] onGenesis steps).log,
        r.filter.startPosition ≤ l.block.position ∧ r.filter.address ∉ l.addresses := by
  decide

end PaymentSdk.Registration
