import PaymentSdk.Admission.Spec
import PaymentSdk.Indexing.BlockAddition
import PaymentSdk.Sync.Spec

/-!
# Registration at run time

One synchronizer and any number of `generate` and `adopt` calls on one scope. They share
the repository, the admission and the wallet map, and each await is a place where any other
of them may go on. The source decides which blocks a pass gets and how deep a reorg is, so
steps take those as arguments. A write that the repository has accepted stays accepted when
its requester is cancelled, so it can be executed at any time after that.
-/

namespace PaymentSdk.Registration

open Admission

/-! ## The repository -/

/-- `add` on a chain with its tip first. An error leaves the chain as it is. -/
def land (chain : List BlockRef) (expected : Option BlockRef) (block : BlockRef) :
    Option (BlockOutcome × List BlockRef) :=
  if chain.head? = some block then some (.alreadyApplied, chain)
  else if chain.head? = expected then some (.applied, block :: chain)
  else none

/-- `remove` gives the new tip. -/
def unland (chain : List BlockRef) (tip : BlockRef) : Option (Option BlockRef × List BlockRef) :=
  match chain with
  | [] => none
  | block :: lower => if block = tip then some (lower.head?, lower) else none

/-! ## A pass -/

/-- Where the synchronizer is. `plan` is the place of its plan in the admission system. The
repository's answer to a `refused` pass was an error. -/
inductive Pass where
  | idle
  | read (checkpoint : Option BlockRef)
  | planning (planner : Nat) (checkpoint : Option BlockRef)
  | ready (plan : Nat) (checkpoint : Option BlockRef)
  | committing (plan : Nat) (checkpoint : Option BlockRef) (block : BlockRef)
      (addresses : List CanonicalAddress)
  | committed (plan : Nat) (block : BlockRef)
  | removing (plan : Nat) (current : Option BlockRef)
  | removed (plan : Nat) (current : Option BlockRef)
  | refused
  deriving DecidableEq

/-- It holds a commit permit. -/
def Pass.holding : Pass → Bool
  | committing .. | committed .. | removing .. | removed .. | refused => true
  | idle | read _ | planning .. | ready .. => false

/-- A block has landed and its permit is not completed. -/
def Pass.landed : Pass → Bool
  | committed .. => true
  | idle | read _ | planning .. | ready .. | committing .. | removing .. | removed .. | refused => false

/-- What the checks of `apply` say about a block, before it is interpreted. -/
def connected (checkpoint : Option BlockRef) (block : BlockRef) : Bool :=
  (Sync.checkParent block).isOk && (Sync.checkTip checkpoint block).isOk

/-! ## The world -/

/-- A write that began in a pass that is gone. `revision` only records the admission's
revision at that time. -/
inductive Write where
  | add (checkpoint : Option BlockRef) (block : BlockRef) (addresses : List CanonicalAddress)
      (revision : UInt64)
  | remove (tip : BlockRef)
  deriving DecidableEq

/-- A committed block, with the addresses it was interpreted with. `returned` are the
registrations that had returned by then, and a `late` block has landed after its pass was
gone. -/
structure Landing (I : Type) where
  block : BlockRef
  addresses : List CanonicalAddress
  returned : List (Published I) := []
  late : Bool := false

/-- `reads` are registrations that have read their checkpoint and not asked for the
publication yet, `accepted` the writes of cancelled passes. `log` only records: no step
reads it. -/
structure World (I : Type) where
  sys : System I
  chain : List BlockRef
  log : List (Landing I)
  pass : Pass := .idle
  reads : List (Option BlockRef) := []
  accepted : List Write := []

/-- What goes on next: first the synchronizer, then the repository by itself, then the
registrations. -/
inductive Step (I : Type) where
  | readTip
  | enterPlan
  | capture
  | finishPlan
  | begin (block : BlockRef) (anchor : Bool)
  | add
  | complete
  | beginRemoval
  | remove
  | persist
  | completeRemoval
  | abandon
  | execute (write : Nat)
  | readCheckpoint
  | publication (reader : Nat)
  | wake (waiter : Nat)
  | cancel (waiter : Nat)
  | insert (permit : Nat) (id : I) (address : Text)
  | forget (permit : Nat)
  | completePublication (permit : Nat)
  | dropPublication (permit : Nat)
  deriving DecidableEq

variable {I : Type}

def World.tip (w : World I) : Option BlockRef := w.chain.head?

/-- The registrations that have returned. Wallets from before the start count as published at
revision zero, which no registration gets. -/
def World.returned (w : World I) : List (Published I) := w.sys.published.filter (·.revision ≠ 0)

variable [DecidableEq I]

def World.act (scope : IndexScope) (w : World I) (e : Event I) : World I :=
  { w with sys := w.sys.step scope e }

/-- The first half of `plan`. A busy admission ends the pass. -/
def World.enterPlan (scope : IndexScope) (w : World I) : World I :=
  match w.pass with
  | .read checkpoint =>
    if w.sys.state.busy then { w with pass := .idle }
    else { w.act scope (.enterPlan checkpoint) with pass := .planning w.sys.planners.length checkpoint }
  | _ => w

def World.capture (scope : IndexScope) (w : World I) : World I :=
  match w.pass with
  | .planning planner _ => w.act scope (.capture planner)
  | _ => w

def World.finishPlan (scope : IndexScope) (w : World I) : World I :=
  match w.pass with
  | .planning planner checkpoint =>
    let next := w.act scope (.finishPlan planner)
    if w.sys.plans.length < next.sys.plans.length then
      { next with pass := .ready w.sys.plans.length checkpoint }
    else { next with pass := .idle }
  | _ => w

/-- `begin` and `start` of a permit, which is the only one then. -/
def World.reserve (scope : IndexScope) (w : World I) (plan : Nat) : World I :=
  (w.act scope (.begin plan)).act scope (.start 0)

/-- `apply` up to its repository call. An anchor is interpreted for no address, and only where
there is no checkpoint yet. -/
def World.begin (scope : IndexScope) (w : World I) (block : BlockRef) (anchor : Bool) : World I :=
  match w.pass with
  | .ready i checkpoint =>
    match w.sys.plans[i]? with
    | none => w
    | some plan =>
      if connected checkpoint block = false ∨ (anchor = true ∧ checkpoint ≠ none) then
        { w with pass := .idle }
      else
        match w.sys.state.begin plan with
        | .error _ => { w with pass := .idle }
        | .ok _ =>
          let addresses := if anchor then [] else plan.activeAddresses block.position
          { w.reserve scope i with pass := .committing i checkpoint block addresses }
  | _ => w

/-- The repository's answer to `add`. After an error the pass can only be abandoned. -/
def World.add (w : World I) : World I :=
  match w.pass with
  | .committing plan checkpoint block addresses =>
    match land w.chain checkpoint block with
    | none => { w with pass := .refused }
    | some (.alreadyApplied, _) => { w with pass := .committed plan block }
    | some (.applied, chain) =>
      { w with chain, pass := .committed plan block, log := ⟨block, addresses, w.returned, false⟩ :: w.log }
  | _ => w

/-- The end of a transition: the permit completes and the plan advances. -/
def World.settle (scope : IndexScope) (w : World I) (plan : Nat) (checkpoint : Option BlockRef) :
    World I :=
  let completed := w.act scope (.completeCommit 0 checkpoint)
  let advanced := match checkpoint with
    | some block => completed.act scope (.advance plan block)
    | none => completed
  { advanced with pass := .ready plan checkpoint }

def World.complete (scope : IndexScope) (w : World I) : World I :=
  match w.pass with
  | .committed plan block => w.settle scope plan (some block)
  | _ => w

/-- `reconcile` has found an ancestor. -/
def World.beginRemoval (scope : IndexScope) (w : World I) : World I :=
  match w.pass with
  | .ready i checkpoint =>
    match w.sys.plans[i]? with
    | none => w
    | some plan =>
      match w.sys.state.begin plan with
      | .error _ => { w with pass := .idle }
      | .ok _ => { w.reserve scope i with pass := .removing i checkpoint }
  | _ => w

def World.remove (w : World I) : World I :=
  match w.pass with
  | .removing plan (some tip) =>
    match unland w.chain tip with
    | none => { w with pass := .refused }
    | some (current, chain) => { w with chain, pass := .removed plan current }
  | _ => w

def World.persist (scope : IndexScope) (w : World I) : World I :=
  match w.pass with
  | .removed plan current => { w.act scope (.persist 0 current) with pass := .removing plan current }
  | _ => w

def World.completeRemoval (scope : IndexScope) (w : World I) : World I :=
  match w.pass with
  | .removing plan current => w.settle scope plan current
  | _ => w

/-- What the pass has asked the repository to write and has no answer to. -/
def World.unanswered (w : World I) : List Write :=
  match w.pass with
  | .committing _ checkpoint block addresses => [.add checkpoint block addresses w.sys.state.revision]
  | .removing _ (some tip) => [.remove tip]
  | _ => []

/-- The pass ends: with its work done, with an error, or because it is cancelled. A permit that
it holds is dropped. A write without an answer remains accepted. -/
def World.abandon (scope : IndexScope) (w : World I) : World I :=
  if w.pass.holding then
    { w.act scope (.dropCommit 0) with pass := .idle, accepted := w.accepted ++ w.unanswered }
  else { w with pass := .idle }

/-- The repository executes a write that nobody waits for any more. -/
def World.execute (w : World I) (i : Nat) : World I :=
  match w.accepted[i]? with
  | none => w
  | some (.add checkpoint block addresses _) =>
    match land w.chain checkpoint block with
    | some (.applied, chain) =>
      { w with chain, accepted := w.accepted.eraseIdx i,
               log := ⟨block, addresses, w.returned, true⟩ :: w.log }
    | some (.alreadyApplied, _) | none => { w with accepted := w.accepted.eraseIdx i }
  | some (.remove tip) =>
    match unland w.chain tip with
    | some (_, chain) => { w with chain, accepted := w.accepted.eraseIdx i }
    | none => { w with accepted := w.accepted.eraseIdx i }

/-- A registration goes from its checkpoint read to its first round of `publication`. -/
def World.publication (scope : IndexScope) (w : World I) (i : Nat) : World I :=
  match w.reads[i]? with
  | none => w
  | some persisted => { w.act scope (.publication persisted) with reads := w.reads.eraseIdx i }

def World.step (scope : IndexScope) (w : World I) : Step I → World I
  | .readTip => if w.pass = .idle then { w with pass := .read w.tip } else w
  | .enterPlan => w.enterPlan scope
  | .capture => w.capture scope
  | .finishPlan => w.finishPlan scope
  | .begin block anchor => w.begin scope block anchor
  | .add => w.add
  | .complete => w.complete scope
  | .beginRemoval => w.beginRemoval scope
  | .remove => w.remove
  | .persist => w.persist scope
  | .completeRemoval => w.completeRemoval scope
  | .abandon => w.abandon scope
  | .execute i => w.execute i
  | .readCheckpoint => { w with reads := w.reads ++ [w.tip] }
  | .publication i => w.publication scope i
  | .wake i => w.act scope (.wake i)
  | .cancel i => w.act scope (.cancel i)
  | .insert i id address => w.act scope (.insert i id address)
  | .forget i => w.act scope (.forget i)
  | .completePublication i => w.act scope (.completePublication i)
  | .dropPublication i => w.act scope (.dropPublication i)

/-! ## Where it starts -/

/-- The blocks that earlier runs have left in the repository, tip first. -/
structure Past where
  blocks : List (BlockRef × List CanonicalAddress)
  descending : blocks.Pairwise fun a b => b.1.position < a.1.position

/-- Wallets that were imported or restored before the start. -/
def restored (scope : IndexScope) (values : List (I × AddressFilter)) : List (Published I) :=
  (values.filter fun v => v.2.address.belongsTo scope).map fun v => ⟨v.1, v.2, 0⟩

def World.initial (scope : IndexScope) (values : List (I × AddressFilter)) (past : Past) : World I where
  sys := { values, published := restored scope values }
  chain := past.blocks.map (·.1)
  log := past.blocks.map fun b => { block := b.1, addresses := b.2 }

def World.run (scope : IndexScope) (values : List (I × AddressFilter)) (past : Past)
    (steps : List (Step I)) : World I :=
  steps.foldl (World.step scope) (World.initial scope values past)

end PaymentSdk.Registration
