import PaymentSdk.Registration.Replacement
import PaymentSdk.Sync.Integrity

/-!
# The world is the code's

The repository of the world is the redb repository, seen through the blocks of its branch.
The pass of the world is `sync`, seen through its calls.
-/

open Interaction KvStore

namespace PaymentSdk.Registration

open Admission

/-! ## The repository -/

section Repository

open Redb

variable {size : Value → Bool} {scope : IndexScope} {s s' : Store Value} {branch : List BlockAddition}

/-- The blocks of a branch, tip first. -/
abbrev blocks (branch : List BlockAddition) : List BlockRef := branch.map (·.block)

theorem head_blocks (h : Holds size scope branch s) {checkpoint : Option BlockRef}
    (hs : s.valueAt (Keys.checkpoint scope) = checkpointValue checkpoint) :
    (blocks branch).head? = checkpoint := by
  rw [List.head?_map]
  apply checkpointValue_inj
  rw [← hs, holds_checkpoint h]

theorem expected_ne_block (a : BlockAddition) : a.expectedCheckpoint ≠ some a.block := by
  intro h
  have hlt := (a.follows h).2.1
  rw [BlockPosition.lt_def] at hlt
  omega

theorem add_refines_land (h : Holds size scope branch s) {a : BlockAddition}
    {r : Except IndexError BlockReply} (hr : (BlockCall.add a).perform size scope s = (r, s')) :
    (∃ e, r = .error e ∧ s' = s) ∨
      ∃ outcome, r = .ok (.added outcome) ∧
        land (blocks branch) a.expectedCheckpoint a.block =
          some (outcome, blocks (survive branch (.add a) r)) := by
  cases r with
  | error e => exact Or.inl ⟨e, rfl, optimistic_run_error (optimistic_program _) hr⟩
  | ok reply =>
    obtain ⟨outcome, t, hrun, hpure⟩ := (Prog.run_bind_ok _).mp hr
    obtain ⟨rfl, rfl⟩ := (Prog.run_pure_ok _).mp hpure
    refine Or.inr ⟨outcome, rfl, ?_⟩
    cases outcome with
    | applied =>
      obtain ⟨-, hcheckpoint, -⟩ := run_writeBlock_applied.mp hrun
      have hhead := head_blocks h hcheckpoint
      rw [land, if_neg (by rw [hhead]; exact expected_ne_block a), if_pos hhead]
      rfl
    | alreadyApplied =>
      have hhead := head_blocks h (run_writeBlock_alreadyApplied hrun).2
      rw [land, if_pos hhead]
      rfl

theorem remove_refines_unland (h : Holds size scope branch s) {scope' : IndexScope} {tip : BlockRef}
    {r : Except IndexError BlockReply} (hr : (BlockCall.remove scope' tip).perform size scope s = (r, s')) :
    (∃ e, r = .error e ∧ s' = s) ∨
      ∃ current, r = .ok (.removed current) ∧
        unland (blocks branch) tip = some (current, blocks (survive branch (.remove scope' tip) r)) := by
  cases r with
  | error e => exact Or.inl ⟨e, rfl, optimistic_run_error (optimistic_program _) hr⟩
  | ok reply =>
    obtain ⟨current, t, hrun, hpure⟩ := (Prog.run_bind_ok _).mp hr
    obtain ⟨rfl, rfl⟩ := (Prog.run_pure_ok _).mp hpure
    refine Or.inr ⟨current, rfl, ?_⟩
    obtain ⟨a, lower, rfl, rfl, rfl, -⟩ := holds_remove h hrun
    simp [unland, survive, blocks, List.head?_map]

theorem branch_descending (h : Branch size scope branch) :
    (blocks branch).Pairwise fun a b => b.position < a.position := by
  induction branch with
  | nil => exact List.Pairwise.nil
  | cons a lower ih =>
    have hlower := ih h.1
    refine List.pairwise_cons.mpr ⟨fun b hb => ?_, hlower⟩
    have hexpected := branch_expected h
    cases lower with
    | nil => cases hb
    | cons top rest =>
      have htop : top.block.position < a.block.position := (a.follows hexpected).2.1
      rcases List.mem_cons.mp hb with rfl | hb
      · exact htop
      · exact Nat.lt_trans ((List.pairwise_cons.mp hlower).1 b hb) htop

theorem exists_past (h : Branch size scope branch) (selected : BlockRef → List CanonicalAddress) :
    ∃ past : Past, past.blocks = (blocks branch).map fun b => (b, selected b) := by
  refine ⟨⟨(blocks branch).map fun b => (b, selected b), ?_⟩, rfl⟩
  rw [List.pairwise_map]
  exact branch_descending h

end Repository

/-! ## The calls of a pass -/

/-- A pass with its plan in hand. `selected` is a block that was interpreted, and after an error
the pass has `ended`. -/
inductive Stage where
  | idle
  | read (checkpoint : Option BlockRef)
  | ready (plan : SyncPlan) (checkpoint : Option BlockRef)
  | selected (plan : SyncPlan) (checkpoint : Option BlockRef) (block : BlockRef)
      (addresses : List CanonicalAddress)
  | committing (plan : SyncPlan) (checkpoint : Option BlockRef) (block : BlockRef)
  | committed (plan : SyncPlan) (block : BlockRef)
  | removing (plan : SyncPlan) (current : Option BlockRef)
  | removed (plan : SyncPlan) (current : Option BlockRef)
  | ended

section Calls

open Sync

variable {B : Type} [SourceBlock B]

/-- What a block is interpreted with: the addresses that are active at its position, or none if
it is the anchor. -/
def Selects (plan : SyncPlan) (checkpoint : Option BlockRef) (block : BlockRef)
    (addresses : List CanonicalAddress) : Prop :=
  connected checkpoint block = true ∧
    (addresses = plan.activeAddresses block.position ∨ addresses = [] ∧ checkpoint = none)

/-- The calls that a pass may make. -/
def Stage.Allows : Stage → Op B → Prop
  | idle, .filters | idle, .tip | idle, .get (.tip _) => True
  | read checkpoint, .plan _ asked => asked = checkpoint
  | ready .., .canonicalAt _ | ready .., .blocks .. | ready .., .get (.height ..) => True
  | ready plan checkpoint, .inspect block addresses =>
    Selects plan checkpoint (SourceBlock.blockRef block) addresses
  | ready plan _, .begin asked | selected plan .., .begin asked => asked = plan
  | selected .., .canonicalAt _ => True
  | committing _ checkpoint block, .add addition =>
    addition.block = block ∧ addition.expectedCheckpoint = checkpoint
  | committed _ block, .complete checkpoint => checkpoint = some block
  | removing _ current, .remove _ tip => current = some tip
  | removed _ current, .persist checkpoint => checkpoint = current
  | removing _ current, .complete checkpoint => checkpoint = current
  | _, _ => False

def advanced (plan : SyncPlan) : Option BlockRef → SyncPlan
  | some block => plan.advance block
  | none => plan

/-- Where a pass is after an answer. -/
def Stage.after : Stage → (op : Op B) → Except IndexError op.Ans → Stage
  | _, _, .error _ => ended
  | idle, .get (.tip _), .ok checkpoint => read checkpoint
  | read checkpoint, .plan .., .ok plan => ready plan checkpoint
  | ready plan checkpoint, .inspect block addresses, .ok _ =>
    selected plan checkpoint (SourceBlock.blockRef block) addresses
  | ready plan checkpoint, .begin _, .ok _ => removing plan checkpoint
  | selected plan checkpoint block _, .begin _, .ok _ => committing plan checkpoint block
  | committing plan _ block, .add _, .ok _ => committed plan block
  | committed plan block, .complete _, .ok _ => ready (plan.advance block) (some block)
  | removing plan _, .remove .., .ok current => removed plan current
  | removed plan current, .persist _, .ok _ => removing plan current
  | removing plan current, .complete _, .ok _ => ready (advanced plan current) current
  | stage, _, .ok _ => stage

/-- Any answers, as long as the calls are allowed. After another call there is no stage. -/
def Monitors (op : Op B) (stage : Option Stage) (r : Except IndexError op.Ans) (stage' : Option Stage) :
    Prop :=
  ∀ st, stage = some st → (st.Allows op → stage' = some (st.after op r)) ∧
    (¬ st.Allows op → stage' = none)

/-- Whatever the answers, the program makes allowed calls only, and `post` holds if it ends well. -/
def Obeys {α : Type} (st : Stage) (p : Sync.Pass B α) (post : α → Stage → Prop) : Prop :=
  Prog.Always Monitors (·.isSome) (fun r t => ∀ a, r = .ok a → ∃ st', t = some st' ∧ post a st') p (some st)

variable {α β : Type} {st : Stage} {post : β → Stage → Prop}

theorem obeys_pure {b : β} (h : post b st) : Obeys st (pure b : Sync.Pass B β) post :=
  ⟨rfl, by rintro _ ⟨⟩; exact ⟨st, rfl, h⟩⟩

theorem obeys_throw (e : Halt) : Obeys st (throw e : Sync.Pass B β) post :=
  ⟨rfl, by rintro _ ⟨⟩⟩

theorem obeys_ask {op : Op B} (h : st.Allows op) :
    Obeys st (ask op) fun a st' => st' = st.after op (.ok a) := by
  refine ⟨rfl, fun r t ht => ?_⟩
  rw [((ht st rfl).1 h)]
  cases r with
  | error e => exact ⟨rfl, by rintro a ⟨⟩⟩
  | ok a => exact ⟨rfl, by rintro _ ⟨⟩; exact ⟨_, rfl, rfl⟩⟩

theorem obeys_bind {mid : α → Stage → Prop} {p : Sync.Pass B α} {f : α → Sync.Pass B β}
    (hp : Obeys st p mid) (hf : ∀ a st', mid a st' → Obeys st' (f a) post) :
    Obeys st (p >>= f) post := by
  apply Prog.always_except_bind
  apply Prog.always_mono hp fun _ ht => ht
  intro r t _ hr
  cases r with
  | error e => rintro a ⟨⟩
  | ok a =>
    obtain ⟨st', rfl, hmid⟩ := hr a rfl
    exact hf a st' hmid

theorem obeys_check {x : Except IndexError α} {f : α → Sync.Pass B β}
    (hf : ∀ a, x = .ok a → Obeys st (f a) post) : Obeys st (check x >>= f) post := by
  cases x with
  | ok a => exact hf a rfl
  | error e => exact obeys_throw _

theorem obeys_ask_then {op : Op B} {f : op.Ans → Sync.Pass B β} (h : st.Allows op)
    (hf : ∀ a, Obeys (st.after op (.ok a)) (f a) post) : Obeys st (ask op >>= f) post :=
  obeys_bind (obeys_ask h) fun a _ hst => hst ▸ hf a

theorem obeys_fetchBlocks {plan : SyncPlan} {checkpoint : Option BlockRef} (start last : BlockPosition)
    (limit : Nat) : Obeys (.ready plan checkpoint) (fetchBlocks (B := B) start last limit)
      fun _ st => st = .ready plan checkpoint := by
  refine obeys_ask_then trivial fun blocks => ?_
  cases checkBlocks start last limit blocks with
  | ok blocks => exact obeys_pure rfl
  | error e => exact obeys_throw _

theorem obeys_oneBlock {plan : SyncPlan} {checkpoint : Option BlockRef} (start last : BlockPosition) :
    Obeys (.ready plan checkpoint) (oneBlock (B := B) start last)
      fun _ st => st = .ready plan checkpoint := by
  refine obeys_bind (obeys_fetchBlocks start last 1) ?_
  rintro blocks st rfl
  split
  · exact obeys_pure rfl
  · exact obeys_throw _

theorem obeys_apply (config : SyncConfig) {plan : SyncPlan} {checkpoint : Option BlockRef} (block : B)
    {addresses : List CanonicalAddress}
    (h : addresses = plan.activeAddresses (SourceBlock.blockRef block).position ∨
      addresses = [] ∧ checkpoint = none) :
    Obeys (.ready plan checkpoint) (apply config block addresses checkpoint plan)
      fun out st => st = .ready out.2 (some out.1) := by
  refine obeys_check fun _ hparent => obeys_check fun _ htip => ?_
  have hconnected : connected checkpoint (SourceBlock.blockRef block) = true := by
    rw [connected, hparent, htip]
    rfl
  refine obeys_ask_then ⟨hconnected, h⟩ fun interpreted => obeys_check fun _ hvalid => ?_
  refine obeys_ask_then trivial fun canonical => ?_
  split_ifs
  · exact obeys_throw _
  · refine obeys_check fun addition hnew => ?_
    obtain ⟨-, hexpected, -, hblock, -⟩ := new_ok hnew
    have hsame : interpreted.block = SourceBlock.blockRef block := by
      unfold validateBlock at hvalid
      split at hvalid
      · assumption
      · cases hvalid
    refine obeys_ask_then rfl fun _ => ?_
    refine obeys_ask_then ⟨hblock.trans hsame, hexpected⟩ fun _ => ?_
    exact obeys_ask_then rfl fun _ => obeys_pure rfl

theorem obeys_findAncestor (config : SyncConfig) {plan : SyncPlan} {checkpoint : Option BlockRef}
    (oldest : BlockHeight) (fuel : Nat) (height : BlockHeight) :
    Obeys (.ready plan checkpoint) (findAncestor (B := B) config oldest fuel height)
      fun _ st => st = .ready plan checkpoint := by
  induction fuel generalizing height with
  | zero => exact obeys_throw _
  | succ fuel ih =>
    rw [findAncestor]
    refine obeys_ask_then trivial fun kept => ?_
    have hremote : Obeys (.ready plan checkpoint) (remoteOf (B := B) kept)
        fun _ st => st = .ready plan checkpoint := by
      cases kept with
      | none => exact obeys_pure rfl
      | some block => exact obeys_ask trivial
    refine obeys_bind hremote ?_
    rintro remote st rfl
    split_ifs
    · exact obeys_pure rfl
    · exact obeys_pure rfl
    · exact ih (pred height)

theorem obeys_removeAbove (config : SyncConfig) {plan : SyncPlan} (ancestor : BlockRef) (fuel : Nat)
    (current : Option BlockRef) :
    Obeys (.removing plan current) (removeAbove (B := B) config ancestor fuel current)
      fun out st => st = .removing plan out := by
  induction fuel generalizing current with
  | zero => exact obeys_throw _
  | succ fuel ih =>
    cases current with
    | none => exact obeys_pure rfl
    | some tip =>
      rw [removeAbove]
      split_ifs
      · refine obeys_ask_then rfl fun lower => ?_
        exact obeys_ask_then rfl fun _ => ih lower
      · exact obeys_pure rfl

theorem obeys_reconcile (config : SyncConfig) {plan : SyncPlan} (fuel : Nat) (tip : BlockRef) :
    Obeys (.ready plan (some tip)) (reconcile (B := B) config fuel tip plan)
      fun out st => st = .ready out.2 out.1 := by
  refine obeys_bind (obeys_findAncestor config _ fuel tip.height) ?_
  rintro found st rfl
  cases found with
  | none => exact obeys_throw _
  | some ancestor =>
    refine obeys_ask_then rfl fun _ => ?_
    refine obeys_bind (obeys_removeAbove config ancestor fuel (some tip)) ?_
    rintro current st rfl
    refine obeys_ask_then rfl fun _ => ?_
    cases current with
    | none => exact obeys_pure rfl
    | some block => exact obeys_pure rfl

theorem obeys_settle (config : SyncConfig) {plan : SyncPlan} (fuel : Nat) (checkpoint : Option BlockRef) :
    Obeys (.ready plan checkpoint) (settle (B := B) config fuel checkpoint plan)
      fun out st => st = .ready out.2 out.1 := by
  cases checkpoint with
  | none => exact obeys_pure rfl
  | some tip =>
    refine obeys_ask_then trivial fun canonical => ?_
    split_ifs
    · exact obeys_pure rfl
    · exact obeys_reconcile config fuel tip

theorem obeys_applyAnchor (config : SyncConfig) {plan : SyncPlan} (parent : Option BlockParent) :
    Obeys (.ready plan none) (applyAnchor (B := B) config plan parent)
      fun out st => st = .ready out.2.2 out.1 := by
  cases parent with
  | none => exact obeys_pure rfl
  | some parent =>
    refine obeys_bind (obeys_oneBlock _ _) ?_
    rintro anchor st rfl
    dsimp only
    split_ifs
    · exact obeys_throw _
    · refine obeys_bind (obeys_apply config anchor (Or.inr ⟨rfl, rfl⟩)) ?_
      rintro out st rfl
      exact obeys_pure rfl

theorem obeys_startCheckpoint (config : SyncConfig) (observedTip : BlockRef) {plan : SyncPlan}
    (checkpoint : Option BlockRef) :
    Obeys (.ready plan checkpoint) (startCheckpoint (B := B) config observedTip checkpoint plan)
      fun out st => st = .ready out.2.2 out.1 := by
  cases checkpoint with
  | some tip => exact obeys_pure rfl
  | none =>
    unfold startCheckpoint initializeCheckpoint
    dsimp only
    split
    · refine obeys_bind (obeys_oneBlock _ _) ?_
      rintro anchor st rfl
      refine obeys_bind (obeys_apply config anchor (Or.inr ⟨rfl, rfl⟩)) ?_
      rintro out st rfl
      exact obeys_pure rfl
    · refine obeys_bind (obeys_oneBlock _ _) ?_
      rintro first st rfl
      refine obeys_bind (obeys_applyAnchor config _) ?_
      rintro ⟨checkpoint, applied, plan⟩ st rfl
      dsimp only
      split_ifs
      · refine obeys_bind (obeys_apply config first (Or.inl rfl)) ?_
        rintro out st rfl
        exact obeys_pure rfl
      · exact obeys_pure rfl

theorem obeys_applyAll (config : SyncConfig) (blocks : List B) (acc : Option BlockRef × SyncPlan) :
    Obeys (.ready acc.2 acc.1) (blocks.foldlM (applyNext config) acc)
      fun out st => st = .ready out.2 out.1 := by
  induction blocks generalizing acc with
  | nil => exact obeys_pure rfl
  | cons block blocks ih =>
    rw [List.foldlM_cons]
    have hblock : Obeys (.ready acc.2 acc.1) (applyNext config acc block)
        fun out st => st = .ready out.2 out.1 := by
      refine obeys_bind (obeys_apply config block (Or.inl rfl)) ?_
      rintro out st rfl
      exact obeys_pure rfl
    refine obeys_bind hblock ?_
    rintro out st rfl
    exact ih out

theorem obeys_catchUp (config : SyncConfig) (observedTip : BlockRef) {plan : SyncPlan}
    (checkpoint : Option BlockRef) (applied : Nat) :
    Obeys (.ready plan checkpoint) (catchUp (B := B) config observedTip checkpoint applied plan)
      fun _ _ => True := by
  cases checkpoint with
  | none => exact obeys_pure trivial
  | some tip =>
    simp only [catchUp]
    split_ifs
    · split
      · exact obeys_throw _
      · refine obeys_bind (obeys_fetchBlocks _ _ _) ?_
        rintro blocks st rfl
        split_ifs
        · exact obeys_throw _
        · refine obeys_bind (obeys_applyAll config blocks (some tip, plan)) ?_
          rintro out st -
          exact obeys_pure trivial
    · exact obeys_pure trivial

/-- Every call of `sync`, whatever it is answered, is one that the pass of the world makes: it
plans on the tip that it read, begins with the plan that it has, adds the connected block that
it interpreted with the plan's selection, and removes and persists tip by tip. -/
theorem obeys_sync (config : SyncConfig) (fuel : Nat) :
    Obeys .idle (sync (B := B) config fuel) fun _ _ => True := by
  refine obeys_ask_then trivial fun filters => obeys_check fun _ _ => ?_
  refine obeys_ask_then trivial fun observedTip => ?_
  refine obeys_ask_then trivial fun checkpoint => ?_
  refine obeys_ask_then rfl fun plan => obeys_check fun _ _ => ?_
  refine obeys_bind (obeys_settle config fuel checkpoint) ?_
  rintro ⟨current, plan⟩ st rfl
  refine obeys_bind (obeys_startCheckpoint config observedTip current) ?_
  rintro ⟨started, applied, plan⟩ st rfl
  refine obeys_bind (obeys_catchUp config observedTip started applied) ?_
  rintro out st -
  exact obeys_pure trivial

end Calls

/-- A begin that the admission grants, for a block and addresses that the calls of `sync` may
have, is a step of the world. -/
theorem begin_simulates {I : Type} [DecidableEq I] {scope : IndexScope} {w : World I} {i : Nat}
    {plan : SyncPlan} {checkpoint : Option BlockRef} {block : BlockRef}
    {addresses : List CanonicalAddress} {out : CommitPermit × State}
    (hpass : w.pass = .ready i checkpoint) (hi : w.sys.plans[i]? = some plan)
    (hselects : Selects plan checkpoint block addresses) (hbegin : w.sys.state.begin plan = .ok out) :
    ∃ anchor, (w.step scope (.begin block anchor)).pass = .committing i checkpoint block addresses := by
  obtain ⟨hconnected, rfl | ⟨rfl, rfl⟩⟩ := hselects
  · refine ⟨false, ?_⟩
    simp [World.step, World.begin, hpass, hi, hbegin, hconnected]
  · refine ⟨true, ?_⟩
    simp [World.step, World.begin, hpass, hi, hbegin, hconnected]

end PaymentSdk.Registration
