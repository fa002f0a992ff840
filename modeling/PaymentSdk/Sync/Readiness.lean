import PaymentSdk.Lib.Triple
import PaymentSdk.Sync.Independence
import PaymentSdk.Sync.Readable
import PaymentSdk.Sync.Reconcile

/-!
# What a pass returns

Whatever a pass is answered, it returns, and the status that it returns has the checkpoint that
is stored and the tip that the source had.
-/

open Interaction KvStore

namespace PaymentSdk.Sync

open Redb
open Prog (Triple triple_pure triple_throw triple_bind triple_before triple_of_fact triple_foldlM)

variable {B : Type} {α : Type} {size : Value → Bool} {scope : IndexScope} {observed : Except IndexError BlockRef}
  {config : SyncConfig}

/-- The source answers this when it is asked for its tip. -/
def Observes (observed : Except IndexError BlockRef) : (op : Op B) → Except IndexError op.Ans → Prop
  | .tip, r => r = observed
  | _, _ => True

/-- Any answers, with this one for the tip. -/
def Attends (size : Value → Bool) (scope : IndexScope) (observed : Except IndexError BlockRef) (op : Op B)
    (s : Store Value) (r : Except IndexError op.Ans) (s' : Store Value) : Prop :=
  Serves size scope op s r s' ∧ Observes observed op r

/-- The checkpoint that is stored. -/
def TipIs (size : Value → Bool) (scope : IndexScope) (checkpoint : Option BlockRef) (s : Store Value) : Prop :=
  Held size scope s ∧ s.valueAt (Keys.checkpoint scope) = checkpointValue checkpoint

/-- Where a pass that returns leads. The loops of a pass never run out of fuel. -/
abbrev Yields (size : Value → Bool) (scope : IndexScope) (observed : Except IndexError BlockRef)
    (pre : Store Value → Prop) (p : Pass B α) (post : α → Store Value → Prop) : Prop :=
  Triple (Attends size scope observed) (fun halt => halt ≠ Halt.outOfFuel) pre p post

variable {pre : Store Value → Prop}

/-! ## Calls -/

theorem yields_ask {op : Op B} {post : op.Ans → Store Value → Prop}
    (h : ∀ s a t, pre s → Attends size scope observed op s (.ok a) t → post a t) :
    Yields size scope observed pre (ask op) post := by
  intro s hs
  refine ⟨trivial, fun r t hr => ?_⟩
  cases r with
  | ok a => exact ⟨trivial, h s a t hs hr⟩
  | error e => exact ⟨trivial, Halt.noConfusion⟩

theorem yields_quiet {op : Op B} (hq : op.isQuiet = true) :
    Yields size scope observed pre (ask op) fun _ => pre := by
  refine yields_ask fun s a t hs hr => ?_
  rw [serves_quiet hq hr.1]
  exact hs

theorem yields_fail {post : α → Store Value → Prop} (e : IndexError) :
    Yields size scope observed pre (fail e : Pass B α) post := triple_throw Halt.noConfusion

theorem yields_check {β : Type} {post : β → Store Value → Prop} {x : Except IndexError α} {f : α → Pass B β}
    (hf : ∀ a, x = .ok a → Yields size scope observed pre (f a) post) :
    Yields size scope observed pre (check x >>= f : Pass B β) post := by
  cases x with
  | ok a => exact hf a rfl
  | error e => exact yields_fail e

theorem yields_readTip : Yields (B := B) size scope observed (Held size scope) (ask (.get (.tip scope)))
    (TipIs size scope) := by
  refine yields_ask fun s checkpoint t hs hr => ?_
  obtain rfl := serves_quiet (B := B) rfl hr.1
  rcases hr.1 with hr | ⟨⟨e, he⟩, -⟩
  · exact ⟨hs, run_readBlock_tip (congrArg Prod.fst hr).symm⟩
  · cases he

theorem yields_readHeight (height : BlockHeight) (hheld : ∀ s, pre s → Held size scope s) :
    Yields (B := B) size scope observed pre (ask (.get (.height scope height)))
      fun kept s => (∀ block, kept = some block → block.height = height) ∧ pre s := by
  refine yields_ask fun s kept t hs hr => ?_
  obtain rfl := serves_quiet (B := B) rfl hr.1
  refine ⟨fun block hblock => ?_, hs⟩
  obtain ⟨branch, hholds, -⟩ := hheld _ hs
  rcases hr.1 with hr | ⟨⟨e, he⟩, -⟩
  · obtain ⟨-, j, hj, hkept⟩ := run_readBlock_height.mp hr.symm
    subst hblock
    cases j with
    | none => cases hkept
    | some j =>
      obtain ⟨upper, a, lower, -, hheight, hentry⟩ := hholds.journal height _ hj
      cases hentry
      obtain rfl := Option.some.inj hkept
      exact hheight
  · cases he

theorem yields_add (a : BlockAddition) : Yields (B := B) size scope observed (Held size scope) (ask (.add a))
    fun _ => TipIs size scope (some a.block) := by
  refine yields_ask fun s outcome t hs hr => ⟨held_serves hs hr.1, ?_⟩
  rcases hr.1 with hr | ⟨⟨e, he⟩, -⟩
  · obtain ⟨branch, hholds, -⟩ := hs
    cases outcome with
    | applied => exact holds_checkpoint (holds_add hholds hr.symm).1
    | alreadyApplied =>
      obtain ⟨rfl, htip⟩ := run_writeBlock_alreadyApplied hr.symm
      exact htip
  · cases he

theorem yields_remove (tip : BlockRef) : Yields (B := B) size scope observed (Held size scope)
    (ask (.remove scope tip))
    fun out s => (∀ lower, out = some lower → lower.height.toNat + 1 = tip.height.toNat) ∧ TipIs size scope out s := by
  refine yields_ask fun s out t hs hr => ?_
  rcases hr.1 with hremove | ⟨⟨e, he⟩, -⟩
  · have hheld := held_serves hs hr.1
    obtain ⟨branch, hholds, -⟩ := hs
    obtain ⟨a, lower, rfl, rfl, rfl, hlower, -⟩ := holds_remove hholds hremove.symm
    refine ⟨fun block hblock => ?_, hheld, holds_checkpoint hlower⟩
    exact ((a.follows (branch_expected hholds.written |>.trans hblock)).1).symm
  · cases he

/-! ## Reconciling -/

theorem yields_remoteOf (kept : Option BlockRef) :
    Yields (B := B) size scope observed pre (remoteOf kept) fun _ => pre := by
  cases kept with
  | none => exact triple_pure fun _ hs => hs
  | some block => exact yields_quiet rfl

theorem yields_findAncestor {oldest : BlockHeight} (hheld : ∀ s, pre s → Held size config.scope s) (fuel : Nat)
    (height : BlockHeight) (holdest : oldest.toNat ≤ height.toNat) (hfuel : height.toNat < oldest.toNat + fuel) :
    Yields (B := B) size config.scope observed pre (findAncestor config oldest fuel height)
      fun found s => (∀ block, found = some block → oldest.toNat ≤ block.height.toNat) ∧ pre s := by
  induction fuel generalizing height with
  | zero => omega
  | succ fuel ih =>
    refine triple_bind (yields_readHeight height hheld) fun kept => triple_of_fact fun hkept => ?_
    refine triple_bind (yields_remoteOf kept) fun remote => ?_
    split_ifs with hfound hlast
    · refine triple_pure fun s hs => ⟨fun block hblock => ?_, hs⟩
      rwa [hkept block hblock]
    · exact triple_pure fun s hs => ⟨by simp, hs⟩
    · have hpred : (pred height).toNat = height.toNat - 1 := toNat_pred
      have hne : height.toNat ≠ oldest.toNat := fun h => hlast (BlockHeight.toNat_inj h)
      exact ih (pred height) (by omega) (by omega)

theorem yields_removeAbove {ancestor : BlockRef} (fuel : Nat) (current : Option BlockRef)
    (hfuel : 0 < fuel ∧ ∀ tip, current = some tip → tip.height.toNat < ancestor.height.toNat + fuel) :
    Yields (B := B) size config.scope observed (TipIs size config.scope current) (removeAbove config ancestor fuel current)
      (TipIs size config.scope) := by
  induction fuel generalizing current with
  | zero => omega
  | succ fuel ih =>
    cases current with
    | none => exact triple_pure fun _ hs => hs
    | some tip =>
      have htip := hfuel.2 tip rfl
      rw [removeAbove]
      split_ifs with habove
      · refine triple_bind (triple_before (yields_remove tip) fun s hs => hs.1) fun current => ?_
        refine triple_of_fact fun hlower => ?_
        refine triple_bind (yields_quiet rfl) fun _ => ih current ⟨by omega, fun lower he => ?_⟩
        have := hlower lower he
        omega
      · exact triple_pure fun _ hs => hs

theorem yields_reconcile (fuel : Nat) (hfuel : config.reorgRetention < fuel) (tip : BlockRef)
    (plan : Admission.SyncPlan) :
    Yields (B := B) size config.scope observed (TipIs size config.scope (some tip)) (reconcile config fuel tip plan)
      fun out => TipIs size config.scope out.1 := by
  have holdest := toNat_oldest config tip
  refine triple_bind (yields_findAncestor (fun s hs => hs.1) fuel tip.height (by omega) (by omega)) fun found => ?_
  refine triple_of_fact fun hfound => ?_
  cases found with
  | none => exact yields_fail _
  | some ancestor =>
    have hancestor := hfound ancestor rfl
    refine triple_bind (yields_quiet rfl) fun _ => ?_
    have htip : ∀ t, some tip = some t → t.height.toNat < ancestor.height.toNat + fuel := by
      rintro t ⟨⟩
      omega
    refine triple_bind (yields_removeAbove fuel (some tip) ⟨by omega, htip⟩) fun current => ?_
    refine triple_bind (yields_quiet rfl) fun _ => ?_
    cases current with
    | none => exact triple_pure fun _ hs => hs
    | some block => exact triple_pure fun _ hs => hs

theorem yields_settle (fuel : Nat) (hfuel : config.reorgRetention < fuel) (checkpoint : Option BlockRef)
    (plan : Admission.SyncPlan) :
    Yields (B := B) size config.scope observed (TipIs size config.scope checkpoint)
      (settle config fuel checkpoint plan) fun out => TipIs size config.scope out.1 := by
  cases checkpoint with
  | none => exact triple_pure fun _ hs => hs
  | some tip =>
    refine triple_bind (yields_quiet rfl) fun canonical => ?_
    split_ifs
    · exact triple_pure fun _ hs => hs
    · exact yields_reconcile fuel hfuel tip plan

/-! ## Blocks -/

variable [SourceBlock B]

theorem yields_apply (block : B) (addresses : List CanonicalAddress) (checkpoint : Option BlockRef)
    (plan : Admission.SyncPlan) :
    Yields size config.scope observed (Held size config.scope) (apply config block addresses checkpoint plan)
      fun out => TipIs size config.scope (some out.1) := by
  refine yields_check fun _ _ => yields_check fun _ _ => ?_
  refine triple_bind (yields_quiet rfl) fun interpreted => yields_check fun _ hsame => ?_
  refine triple_bind (yields_quiet rfl) fun canonical => ?_
  split_ifs
  · exact yields_fail _
  · refine yields_check fun addition hnew => ?_
    refine triple_bind (yields_quiet rfl) fun _ => ?_
    have hblock : addition.block = SourceBlock.blockRef block := by
      rw [(new_ok hnew).2.2.2.1]
      unfold validateBlock at hsame
      split at hsame
      · assumption
      · cases hsame
    refine triple_bind (yields_add addition) fun _ => ?_
    rw [hblock]
    exact triple_bind (yields_quiet rfl) fun _ => triple_pure fun _ hs => hs

theorem yields_fetchBlocks (start last : BlockPosition) (limit : Nat) :
    Yields size scope observed pre (fetchBlocks (B := B) start last limit) fun _ => pre := by
  refine triple_bind (yields_quiet rfl) fun blocks => ?_
  cases checkBlocks start last limit blocks with
  | ok blocks => exact triple_pure fun _ hs => hs
  | error e => exact yields_fail e

theorem yields_oneBlock (start last : BlockPosition) :
    Yields size scope observed pre (oneBlock (B := B) start last) fun _ => pre := by
  refine triple_bind (yields_fetchBlocks start last 1) fun blocks => ?_
  split
  · exact triple_pure fun _ hs => hs
  · exact yields_fail _

theorem yields_applyAnchor (plan : Admission.SyncPlan) (parent : Option BlockParent) :
    Yields (B := B) size config.scope observed (TipIs size config.scope none) (applyAnchor config plan parent)
      fun out => TipIs size config.scope out.1 := by
  cases parent with
  | none => exact triple_pure fun _ hs => hs
  | some parent =>
    refine triple_bind (yields_oneBlock _ _) fun anchor => ?_
    dsimp only
    split_ifs
    · exact yields_fail _
    · refine triple_bind (triple_before (yields_apply _ _ _ _) fun s hs => hs.1) fun out => ?_
      exact triple_pure fun _ hs => hs

theorem yields_initializeCheckpoint (tip : BlockRef) (plan : Admission.SyncPlan) :
    Yields (B := B) size config.scope observed (TipIs size config.scope none) (initializeCheckpoint config tip plan)
      fun out => TipIs size config.scope out.1 := by
  unfold initializeCheckpoint
  split
  · refine triple_bind (yields_oneBlock _ _) fun anchor => ?_
    refine triple_bind (triple_before (yields_apply _ _ _ _) fun s hs => hs.1) fun out => ?_
    exact triple_pure fun _ hs => hs
  · refine triple_bind (yields_oneBlock _ _) fun first => ?_
    refine triple_bind (yields_applyAnchor plan _) fun out => ?_
    obtain ⟨checkpoint, applied, plan⟩ := out
    dsimp only
    split_ifs
    · refine triple_bind (triple_before (yields_apply _ _ _ _) fun s hs => hs.1) fun out => ?_
      exact triple_pure fun _ hs => hs
    · exact triple_pure fun _ hs => hs

theorem yields_startCheckpoint (tip : BlockRef) (checkpoint : Option BlockRef) (plan : Admission.SyncPlan) :
    Yields (B := B) size config.scope observed (TipIs size config.scope checkpoint)
      (startCheckpoint config tip checkpoint plan) fun out => TipIs size config.scope out.1 := by
  cases checkpoint with
  | none => exact yields_initializeCheckpoint tip plan
  | some block => exact triple_pure fun _ hs => hs

theorem yields_catchUp (tip : BlockRef) (checkpoint : Option BlockRef) (applied : Nat) (plan : Admission.SyncPlan) :
    Yields (B := B) size config.scope observed (TipIs size config.scope checkpoint)
      (catchUp config tip checkpoint applied plan) (TipIs size config.scope) := by
  cases checkpoint with
  | none => exact triple_pure fun _ hs => hs
  | some block =>
    unfold catchUp
    dsimp only
    split_ifs
    · split
      · exact yields_fail _
      · refine triple_bind (yields_fetchBlocks _ _ _) fun blocks => ?_
        split_ifs
        · exact yields_fail _
        · have hround : ∀ (acc : Option BlockRef × Admission.SyncPlan) (next : B),
              Yields size config.scope observed (TipIs size config.scope acc.1) (applyNext config acc next)
                fun out => TipIs size config.scope out.1 := by
            intro acc next
            refine triple_bind (triple_before (yields_apply _ _ _ _) fun s hs => hs.1) fun out => ?_
            exact triple_pure fun _ hs => hs
          refine triple_bind (triple_foldlM hround blocks (some block, plan)) fun out => ?_
          exact triple_pure fun _ hs => hs
    · exact triple_pure fun _ hs => hs

/-! ## A pass -/

/-- What a status says of the store and of the source. -/
structure Reports (size : Value → Bool) (scope : IndexScope) (observed : Except IndexError BlockRef)
    (status : SyncStatus) (s : Store Value) : Prop where
  scope_eq : status.scope = scope
  stored : TipIs size scope status.checkpoint s
  tip : ∃ tip, observed = .ok tip ∧ status.observedTip = some tip ∧ status.phase = phase status.checkpoint tip

theorem yields_sync (fuel : Nat) (hfuel : config.reorgRetention < fuel) :
    Yields (B := B) size config.scope observed (Held size config.scope) (sync config fuel)
      (Reports size config.scope observed) := by
  refine triple_bind (yields_quiet rfl) fun filters => yields_check fun _ _ => ?_
  have htip : Yields (B := B) size config.scope observed (Held size config.scope) (ask .tip)
      fun tip s => observed = .ok tip ∧ Held size config.scope s := by
    refine yields_ask fun s tip t hs hr => ⟨hr.2.symm, ?_⟩
    rwa [serves_quiet (B := B) rfl hr.1]
  refine triple_bind htip fun tip => triple_of_fact fun hobserved => ?_
  refine triple_bind yields_readTip fun checkpoint => ?_
  refine triple_bind (yields_quiet rfl) fun plan => yields_check fun _ _ => ?_
  refine triple_bind (yields_settle fuel hfuel checkpoint plan) fun settled => ?_
  refine triple_bind (yields_startCheckpoint tip settled.1 settled.2) fun started => ?_
  obtain ⟨checkpoint, applied, plan⟩ := started
  refine triple_bind (yields_catchUp tip checkpoint applied plan) fun checkpoint => ?_
  exact triple_pure fun s hs => ⟨rfl, hs, tip, hobserved, rfl, rfl⟩

end PaymentSdk.Sync
