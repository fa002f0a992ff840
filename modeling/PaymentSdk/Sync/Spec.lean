import PaymentSdk.Admission.Spec
import PaymentSdk.Redb.Repository.Spec

/-!
# The synchronizer

One pass is a program: every await, and every use of the selection, the interpreter or the
admission, is a call. The two loops of `reconcile` take fuel, since nothing in the code
itself bounds them. Observers only hear of what was done, and are left out.
-/

open Interaction KvStore

namespace PaymentSdk.Sync

open Admission (SyncPlan)

/-- The configuration of one synchronizer. -/
structure SyncConfig where
  scope : IndexScope
  minimumConfirmations : Nat
  reorgRetention : Nat
  batchSize : Nat
  confirmations_pos : 0 < minimumConfirmations
  retention_pos : 0 < reorgRetention
  batch_pos : 0 < batchSize

def SyncConfig.new (scope : IndexScope) (minimumConfirmations reorgRetention batchSize : Nat) :
    Except IndexError SyncConfig :=
  if hc : minimumConfirmations = 0 then
    .error ⟨.invalidRequest, "minimum confirmations must be greater than zero", false⟩
  else if hr : reorgRetention = 0 ∨ batchSize = 0 then
    .error ⟨.invalidRequest, "rollback retention and batch size must be greater than zero", false⟩
  else .ok
    { scope, minimumConfirmations, reorgRetention, batchSize
      confirmations_pos := Nat.pos_of_ne_zero hc
      retention_pos := Nat.pos_of_ne_zero fun h => hr (Or.inl h)
      batch_pos := Nat.pos_of_ne_zero fun h => hr (Or.inr h) }

inductive SyncPhase where
  | catchingUp
  | ready
  deriving DecidableEq

/-- What a pass reports. -/
structure SyncStatus where
  scope : IndexScope
  checkpoint : Option BlockRef
  observedTip : Option BlockRef
  phase : SyncPhase
  deriving DecidableEq

/-- What a chain's own block type has to give. -/
class SourceBlock (B : Type) where
  blockRef : B → BlockRef

instance : SourceBlock BlockRef := ⟨id⟩

/-! ## Calls -/

/-- The calls of a pass: to the selection, the source, the interpreter, the admission and
the repository. -/
inductive Op (B : Type) where
  | filters
  | tip
  | plan (scope : IndexScope) (checkpoint : Option BlockRef)
  | canonicalAt (position : BlockPosition)
  | blocks (start last : BlockPosition) (limit : Nat)
  | inspect (block : B) (addresses : List CanonicalAddress)
  | begin (plan : SyncPlan)
  | persist (checkpoint : Option BlockRef)
  | complete (checkpoint : Option BlockRef)
  | get (selector : BlockSelector)
  | add (addition : BlockAddition)
  | remove (scope : IndexScope) (tip : BlockRef)

abbrev Op.Ans {B : Type} : Op B → Type
  | filters => List AddressFilter
  | tip => BlockRef
  | plan .. => SyncPlan
  | canonicalAt _ => Option BlockRef
  | blocks .. => List B
  | inspect .. => InterpretedBlock
  | begin _ => Unit
  | persist _ => Unit
  | complete _ => Unit
  | get _ => Option BlockRef
  | add _ => BlockOutcome
  | remove .. => Option BlockRef

/-- Every call can fail. -/
abbrev syncCalls (B : Type) : Calls := ⟨Op B, fun op => Except IndexError op.Ans⟩

/-- How a pass ends without a status. -/
inductive Halt where
  | failed (error : IndexError)
  | outOfFuel
  deriving DecidableEq

abbrev Pass (B : Type) := ExceptT Halt (Prog (syncCalls B))

variable {B : Type}

def ask (op : Op B) : Pass B op.Ans :=
  .call op fun
    | .ok answer => .done (.ok answer)
    | .error e => .done (.error (.failed e))

def fail {α : Type} (e : IndexError) : Pass B α := throw (.failed e)

/-- A step that is the code's own, and calls nothing. -/
def check {α : Type} : Except IndexError α → Pass B α
  | .ok a => pure a
  | .error e => fail e

/-! ## Checks -/

def validate (config : SyncConfig) (filters : List AddressFilter) : Except IndexError Unit :=
  if filters.any (fun f => !f.address.belongsTo config.scope) then
    .error ⟨.scopeMismatch, "address filter belongs to another scope", false⟩
  else if filters.any (fun f => f.address.value.str.isEmpty) ∨ ¬ (filters.map (·.address)).Nodup then
    .error ⟨.invalidRequest, "address filters must be non-empty and unique", false⟩
  else .ok ()

/-- The first checks of `apply`, on the block's own reference. -/
def checkParent (block : BlockRef) : Except IndexError Unit :=
  if block.position = ⟨0⟩ then
    if block.parent.isSome then
      .error (.retryableCannotConnect "genesis block must not have a parent")
    else .ok ()
  else if block.parent.isNone then
    .error (.retryableCannotConnect "non-genesis block is missing its parent")
  else .ok ()

/-- A block on top of the checkpoint connects to it. -/
def checkTip (checkpoint : Option BlockRef) (block : BlockRef) : Except IndexError Unit :=
  match checkpoint with
  | none => .ok ()
  | some tip =>
    match tip.height.checkedSuccessor with
    | none => .error ⟨.invalidBlock, "checkpoint height is exhausted", false⟩
    | some expected =>
      if block.connects tip expected then .ok ()
      else .error (.retryableCannotConnect "source block does not connect to the checkpoint")

def validateBlock (source : BlockRef) (block : InterpretedBlock) : Except IndexError Unit :=
  if block.block = source then .ok ()
  else .error ⟨.invalidBlock, "interpreter changed the block reference", false⟩

/-- Positions in the asked range, each above the one before. -/
def inRange (start last : BlockPosition) : Option BlockPosition → List BlockPosition → Bool
  | _, [] => true
  | previous, p :: rest =>
    decide (start ≤ p) && decide (p ≤ last) && previous.all (fun q => decide (q < p)) &&
      inRange start last (some p) rest

/-! ## Reconciling with a reorg -/

/-- `height.0.saturating_sub(1)`. -/
def pred (height : BlockHeight) : BlockHeight := ⟨UInt64.ofNat (height.toNat - 1)⟩

/-- The lowest height that the search looks at. -/
def oldest (config : SyncConfig) (tip : BlockRef) : BlockHeight :=
  ⟨UInt64.ofNat (tip.height.toNat - config.reorgRetention)⟩

/-- What the source has where a retained block is. -/
def remoteOf : Option BlockRef → Pass B (Option BlockRef)
  | some block => ask (.canonicalAt block.position)
  | none => pure none

/-- The first loop: the highest retained block that the source still has. -/
def findAncestor (config : SyncConfig) (oldest : BlockHeight) :
    Nat → BlockHeight → Pass B (Option BlockRef)
  | 0, _ => throw .outOfFuel
  | fuel + 1, height => do
    let kept : Option BlockRef ← ask (.get (.height config.scope height))
    let remote ← remoteOf kept
    if kept.isSome ∧ kept = remote then pure kept
    else if height = oldest then pure none
    else findAncestor config oldest fuel (pred height)

/-- The second loop: removes the tip while it is above the ancestor. -/
def removeAbove (config : SyncConfig) (ancestor : BlockRef) :
    Nat → Option BlockRef → Pass B (Option BlockRef)
  | 0, _ => throw .outOfFuel
  | _ + 1, none => pure none
  | fuel + 1, some tip =>
    if ancestor.height.toNat < tip.height.toNat then do
      let current ← ask (.remove config.scope tip)
      ask (.persist current)
      removeAbove config ancestor fuel current
    else pure (some tip)

def reconcile (config : SyncConfig) (fuel : Nat) (tip : BlockRef) (plan : SyncPlan) :
    Pass B (Option BlockRef × SyncPlan) := do
  match ← findAncestor config (oldest config tip) fuel tip.height with
  | none => fail ⟨.reorgTooDeep, "reorg exceeds rollback journal; rescan required", false⟩
  | some ancestor =>
    ask (.begin plan)
    let current ← removeAbove config ancestor fuel (some tip)
    ask (.complete current)
    match current with
    | some checkpoint => pure (current, plan.advance checkpoint)
    | none => pure (current, plan)

/-- Settles what the source no longer has. -/
def settle (config : SyncConfig) (fuel : Nat) (checkpoint : Option BlockRef) (plan : SyncPlan) :
    Pass B (Option BlockRef × SyncPlan) := do
  match checkpoint with
  | none => pure (none, plan)
  | some tip =>
    let canonical : Option BlockRef ← ask (.canonicalAt tip.position)
    if canonical = some tip then pure (some tip, plan) else reconcile config fuel tip plan

/-! ## Source blocks -/

variable [SourceBlock B]

open SourceBlock (blockRef)

/-- No more than were asked for, inside the range and increasing. -/
def checkBlocks (start last : BlockPosition) (limit : Nat) (blocks : List B) :
    Except IndexError (List B) :=
  if limit < blocks.length then
    .error (.retryableCannotConnect "source exceeded the returned-block limit")
  else if inRange start last none (blocks.map fun b => (blockRef b).position) then .ok blocks
  else .error
    (.retryableCannotConnect "source blocks are outside the range or not strictly increasing")

def fetchBlocks (start last : BlockPosition) (limit : Nat) : Pass B (List B) := do
  let blocks ← ask (.blocks start last limit)
  check (checkBlocks start last limit blocks)

/-- The single block of a range. -/
def oneBlock (start last : BlockPosition) : Pass B B := do
  match ← fetchBlocks (B := B) start last 1 with
  | [block] => pure block
  | _ => fail (.retryableCannotConnect "source did not return the required produced block")

/-! ## Applying one block -/

def apply (config : SyncConfig) (sourceBlock : B) (addresses : List CanonicalAddress)
    (checkpoint : Option BlockRef) (plan : SyncPlan) : Pass B (BlockRef × SyncPlan) := do
  let block := blockRef sourceBlock
  check (checkParent block)
  check (checkTip checkpoint block)
  let interpreted ← ask (.inspect sourceBlock addresses)
  check (validateBlock block interpreted)
  let canonical : Option BlockRef ← ask (.canonicalAt block.position)
  if canonical ≠ some block then
    fail (.retryableCannotConnect "source block changed before commit")
  else
    let addition ← check (BlockAddition.new config.scope checkpoint config.reorgRetention interpreted)
    ask (.begin plan)
    let _ ← ask (.add addition)
    ask (.complete (some block))
    pure (block, plan.advance block)

/-! ## A pass -/

/-- The anchor of a birthday is the parent of its first block, interpreted for no address. -/
def applyAnchor (config : SyncConfig) (plan : SyncPlan) :
    Option BlockParent → Pass B (Option BlockRef × Nat × SyncPlan)
  | none => pure (none, 0, plan)
  | some parent => do
    let anchor ← oneBlock (B := B) parent.position parent.position
    let anchorRef := blockRef anchor
    if anchorRef.position ≠ parent.position ∨ anchorRef.hash ≠ parent.hash then
      fail (.retryableCannotConnect "birthday anchor does not match the first block parent")
    else
      let (checkpoint, plan) ← apply config anchor [] none plan
      pure (some checkpoint, 1, plan)

/-- The first block: at the earliest birthday, or at the tip when nobody has one yet. -/
def initializeCheckpoint (config : SyncConfig) (observedTip : BlockRef) (plan : SyncPlan) :
    Pass B (Option BlockRef × Nat × SyncPlan) := do
  match plan.earliestPosition.filter (· ≤ observedTip.position) with
  | none =>
    let anchor ← oneBlock (B := B) observedTip.position observedTip.position
    let (checkpoint, plan) ← apply config anchor [] none plan
    pure (some checkpoint, 1, plan)
  | some start =>
    let first ← oneBlock (B := B) start observedTip.position
    let firstRef := blockRef first
    let (checkpoint, applied, plan) ← applyAnchor config plan firstRef.parent
    if applied < config.batchSize then
      let (checkpoint, plan) ←
        apply config first (plan.activeAddresses firstRef.position) checkpoint plan
      pure (some checkpoint, applied + 1, plan)
    else pure (checkpoint, applied, plan)

/-- Initializes the checkpoint where there is none yet. -/
def startCheckpoint (config : SyncConfig) (observedTip : BlockRef) (checkpoint : Option BlockRef)
    (plan : SyncPlan) : Pass B (Option BlockRef × Nat × SyncPlan) :=
  match checkpoint with
  | none => initializeCheckpoint config observedTip plan
  | some _ => pure (checkpoint, 0, plan)

/-- One round of the block loop of `sync`. -/
def applyNext (config : SyncConfig) (acc : Option BlockRef × SyncPlan) (block : B) :
    Pass B (Option BlockRef × SyncPlan) := do
  let (checkpoint, plan) ←
    apply config block (acc.2.activeAddresses (blockRef block).position) acc.1 acc.2
  pure (some checkpoint, plan)

/-- The blocks after the checkpoint, up to the observed tip and the batch size. -/
def catchUp (config : SyncConfig) (observedTip : BlockRef) (checkpoint : Option BlockRef)
    (applied : Nat) (plan : SyncPlan) : Pass B (Option BlockRef) := do
  match checkpoint with
  | none => pure none
  | some tip =>
    if applied < config.batchSize ∧ tip.position < observedTip.position then
      match tip.position.checkedSuccessor with
      | none => fail ⟨.invalidBlock, "checkpoint position is exhausted", false⟩
      | some start =>
        let blocks ← fetchBlocks (B := B) start observedTip.position (config.batchSize - applied)
        if blocks.isEmpty then
          fail (.retryableCannotConnect "source returned no produced block before its observed tip")
        else
          let (checkpoint, _) ← blocks.foldlM (applyNext config) (checkpoint, plan)
          pure checkpoint
    else pure checkpoint

/-- Ready at the tip that was observed, or past it. -/
def phase (checkpoint : Option BlockRef) (observedTip : BlockRef) : SyncPhase :=
  if checkpoint.any fun c => decide (observedTip.position ≤ c.position) then .ready else .catchingUp

def sync (config : SyncConfig) (fuel : Nat) : Pass B SyncStatus := do
  let filters ← ask .filters
  check (validate config filters)
  let observedTip ← ask .tip
  let checkpoint ← ask (.get (.tip config.scope))
  let plan ← ask (.plan config.scope checkpoint)
  check (validate config plan.filters)
  let (checkpoint, plan) ← settle config fuel checkpoint plan
  let (checkpoint, applied, plan) ← startCheckpoint config observedTip checkpoint plan
  let checkpoint ← catchUp config observedTip checkpoint applied plan
  pure { scope := config.scope, checkpoint, observedTip := some observedTip,
         phase := phase checkpoint observedTip }

/-! ## Environments -/

omit [SourceBlock B]

/-- The calls that change or read the index, on a redb store. -/
def served (size : Redb.Value → Bool) (scope : IndexScope) (s : Store Redb.Value) :
    (op : Op B) → Option (Except IndexError op.Ans × Store Redb.Value)
  | .get selector => some (Prog.run (serve size) (Redb.readBlock scope selector) s)
  | .add addition => some (Prog.run (serve size) (Redb.writeBlock scope addition) s)
  | .remove scope' tip => some (Prog.run (serve size) (Redb.removeTip scope scope' tip) s)
  | _ => none

/-- Any answers. A repository call may fail, before or after its commit. The other calls
leave the store alone. -/
def Serves (size : Redb.Value → Bool) (scope : IndexScope) (op : Op B) (s : Store Redb.Value)
    (r : Except IndexError op.Ans) (s' : Store Redb.Value) : Prop :=
  match served size scope s op with
  | some result => (r, s') = result ∨ (∃ e, r = .error e) ∧ (s' = s ∨ s' = result.2)
  | none => s' = s

/-- Answers that do not change while a call runs. -/
structure Environment (B : Type) where
  filters : List AddressFilter
  tip : Except IndexError BlockRef
  plan : Option BlockRef → Except IndexError SyncPlan
  begin : SyncPlan → Except IndexError Unit
  canonicalAt : BlockPosition → Option BlockRef
  blocks : BlockPosition → BlockPosition → Nat → List B
  inspect : B → List CanonicalAddress → Except IndexError InterpretedBlock

def Environment.handle (env : Environment B) (size : Redb.Value → Bool) (scope : IndexScope) :
    (op : Op B) → Store Redb.Value → Except IndexError op.Ans × Store Redb.Value
  | .filters, s => (.ok env.filters, s)
  | .tip, s => (env.tip, s)
  | .plan _ checkpoint, s => (env.plan checkpoint, s)
  | .canonicalAt position, s => (.ok (env.canonicalAt position), s)
  | .blocks start last limit, s => (.ok (env.blocks start last limit), s)
  | .inspect block addresses, s => (env.inspect block addresses, s)
  | .begin plan, s => (env.begin plan, s)
  | .persist _, s => (.ok (), s)
  | .complete _, s => (.ok (), s)
  | .get selector, s => Prog.run (serve size) (Redb.readBlock scope selector) s
  | .add addition, s => Prog.run (serve size) (Redb.writeBlock scope addition) s
  | .remove scope' tip, s => Prog.run (serve size) (Redb.removeTip scope scope' tip) s

end PaymentSdk.Sync
