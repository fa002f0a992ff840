import PaymentSdk.Base.Block
import PaymentSdk.Indexing.Value

/-!
# Address admission

One `ScopeAdmission` and everyone who uses it: sync plans, commit permits, publication
calls, and the wallet map that plans capture their filters from. Each lock of the state
is one step, and so is each access to the wallet map.
-/

open Std

namespace PaymentSdk

/-- An address and the first block position worth inspecting for it. -/
structure AddressFilter where
  address : CanonicalAddress
  startPosition : BlockPosition
  deriving DecidableEq

namespace Admission

/-! ## The shared state -/

/-- A waiter's oneshot channel, by number. -/
abbrev Ticket := Nat

/-- What the admission keeps between two calls, all of it under one lock. -/
structure State where
  initialized : Bool := false
  persisted : Option BlockRef := none
  revision : UInt64 := 0
  commit : Bool := false
  publication : Bool := false
  recovery : Bool := false
  waiters : List Ticket := []

/-- A commit or a publication holds the admission. -/
def State.busy (s : State) : Bool := s.commit || s.publication

/-- Takes all waiters out. The caller sends to each of them. -/
def State.notify (s : State) : State := { s with waiters := [] }

/-- What the admission holds may differ from the repository. -/
def State.stale (s : State) (persisted : Option BlockRef) : Bool :=
  !s.initialized || s.recovery || decide (s.persisted ≠ persisted)

/-- Takes a checkpoint over from the repository. -/
def State.reload (s : State) (persisted : Option BlockRef) : State :=
  if s.stale persisted then { s with persisted, initialized := true, recovery := false } else s

/-! ## Plans and permits -/

/-- `attached` is false for a plan made without an admission. -/
structure SyncPlan where
  filters : List AddressFilter
  checkpoint : Option BlockRef
  revision : UInt64
  attached : Bool
  deriving DecidableEq

/-- The least of the positions, if there are any. -/
def leastPosition : List BlockPosition → Option BlockPosition
  | [] => none
  | p :: rest => match leastPosition rest with
    | none => some p
    | some q => some (if q < p then q else p)

/-- The lowest birthday of the selection. -/
def SyncPlan.earliestPosition (plan : SyncPlan) : Option BlockPosition :=
  leastPosition (plan.filters.map (·.startPosition))

/-- The addresses whose birthday has been reached. -/
def SyncPlan.activeAddresses (plan : SyncPlan) (position : BlockPosition) : List CanonicalAddress :=
  (plan.filters.filter fun f => f.startPosition ≤ position).map (·.address)

def SyncPlan.advance (plan : SyncPlan) (checkpoint : BlockRef) : SyncPlan :=
  { plan with checkpoint := some checkpoint }

/-- The first lock of `plan`. -/
def State.enterPlan (s : State) (persisted : Option BlockRef) : Except IndexError (UInt64 × State) :=
  if s.busy then .error (.retryableConflict "address admission is changing")
  else
    let s := s.reload persisted
    .ok (s.revision, s)

/-- The second lock of `plan`, with the filters captured in between. -/
def State.finishPlan (s : State) (persisted : Option BlockRef) (revision : UInt64)
    (filters : List AddressFilter) : Except IndexError SyncPlan :=
  if s.busy || s.recovery || decide (s.persisted ≠ persisted) || decide (s.revision ≠ revision) then
    .error (.retryableConflict "checkpoint or address revision changed during filter capture")
  else .ok { filters, checkpoint := persisted, revision, attached := true }

/-- The right to commit one block. `start` marks it, and from then on its drop leaves a reload
due. -/
structure CommitPermit where
  started : Bool := false
  deriving DecidableEq

/-- Takes the commit permit, while nobody else holds one and the plan is current. -/
def State.begin (s : State) (plan : SyncPlan) : Except IndexError (CommitPermit × State) :=
  if s.recovery then .error (.retryableConflict "checkpoint admission requires repository reload")
  else if s.busy then .error (.retryableConflict "checkpoint admission is busy")
  else if s.persisted ≠ plan.checkpoint ∨ s.revision ≠ plan.revision then
    .error (.retryableConflict "checkpoint or address revision changed before commit")
  else .ok ({}, { s with commit := true })

/-- The commit is over; the checkpoint it reached becomes the persisted one. -/
def State.completeCommit (s : State) (checkpoint : Option BlockRef) : State :=
  { s with persisted := checkpoint, commit := false }.notify

/-- A commit permit is dropped before it completed. -/
def State.dropCommit (s : State) (permit : CommitPermit) : State :=
  { s with commit := false, recovery := s.recovery || permit.started }.notify

/-- `entry` is what this call has put into the wallet map under its permit. -/
structure PublicationPermit (I : Type) where
  checkpoint : Option BlockRef
  entry : Option (I × AddressFilter) := none

/-- One round of `publication`. `reload` is the caller's checkpoint in the first round, and
nothing once the call has waited. It gets the permit, or waits on `ticket`. -/
def State.poll {I : Type} (s : State) (reload : Option (Option BlockRef)) (ticket : Ticket) :
    Option (PublicationPermit I) × State :=
  if s.busy then (none, { s with waiters := s.waiters ++ [ticket] })
  else
    let s := match reload with
      | some persisted => s.reload persisted
      | none => s
    (some { checkpoint := s.persisted }, { s with publication := true })

/-- Without a revision left, the permit is dropped by the error's return. -/
def State.completePublication (s : State) : Except IndexError State :=
  match PaymentSdk.checkedSuccessor s.revision with
  | none => .error ⟨.store, "address filter revision is exhausted", false⟩
  | some revision => .ok { s with revision, publication := false }.notify

def State.dropPublication (s : State) : State := { s with publication := false }.notify

/-! ## The wallet map -/

/-- The earliest birthday of every address in the map. -/
def birthdays {I : Type} : List (I × AddressFilter) → ExtTreeMap CanonicalAddress BlockPosition CanonicalAddress.cmp
  | [] => ∅
  | (_, f) :: rest =>
    let later := birthdays rest
    match later[f.address]? with
    | some p => later.insert f.address (if p < f.startPosition then p else f.startPosition)
    | none => later.insert f.address f.startPosition

def filters {I : Type} (values : List (I × AddressFilter)) : List AddressFilter :=
  (birthdays values).toList.map fun e => ⟨e.1, e.2⟩

/-- What `plan` captures for one scope. -/
def scopeFilters {I : Type} (scope : IndexScope) (values : List (I × AddressFilter)) :
    List AddressFilter :=
  (filters values).filter fun f => f.address.belongsTo scope

/-- The birthday of a wallet that is registered at run time. -/
def birthday : Option BlockRef → Option BlockPosition
  | some block => block.position.checkedSuccessor
  | none => some ⟨0⟩

/-! ## The system -/

/-- A `plan` call between its two locks. -/
structure Planner where
  persisted : Option BlockRef
  revision : UInt64
  filters : Option (List AddressFilter) := none

/-- What matters for recovery, as it happens. -/
inductive Mark where
  | reloaded
  | abandoned
  deriving DecidableEq

/-- The wallet of a completed publication, and the revision that published it. -/
structure Published (I : Type) where
  id : I
  filter : AddressFilter
  revision : UInt64

/-- The state, the objects that callers hold, and the wallet map. `published` and `trail`
only record: no step reads them. -/
structure System (I : Type) where
  state : State := {}
  values : List (I × AddressFilter) := []
  planners : List Planner := []
  plans : List SyncPlan := []
  commits : List CommitPermit := []
  permits : List (PublicationPermit I) := []
  waiting : List Ticket := []
  fired : List Ticket := []
  tickets : Nat := 0
  published : List (Published I) := []
  trail : List Mark := []

/-- What a caller does next. Objects are named by their place in their list. -/
inductive Event (I : Type) where
  | enterPlan (persisted : Option BlockRef)
  | capture (planner : Nat)
  | finishPlan (planner : Nat)
  | advance (plan : Nat) (checkpoint : BlockRef)
  | begin (plan : Nat)
  | start (commit : Nat)
  | persist (commit : Nat) (checkpoint : Option BlockRef)
  | completeCommit (commit : Nat) (checkpoint : Option BlockRef)
  | dropCommit (commit : Nat)
  | publication (persisted : Option BlockRef)
  | wake (waiter : Nat)
  | cancel (waiter : Nat)
  | insert (permit : Nat) (id : I) (address : Text)
  | forget (permit : Nat)
  | completePublication (permit : Nat)
  | dropPublication (permit : Nat)

variable {I : Type}

/-- The waiters that a `notify` sends to. -/
def System.fire (sys : System I) : List Ticket := sys.fired ++ sys.state.waiters

def System.noteReload (sys : System I) (persisted : Option BlockRef) : List Mark :=
  if sys.state.stale persisted then .reloaded :: sys.trail else sys.trail

def System.enterPlan (sys : System I) (persisted : Option BlockRef) : System I :=
  match sys.state.enterPlan persisted with
  | .error _ => sys
  | .ok (revision, state) =>
    { sys with state, planners := sys.planners ++ [{ persisted, revision }],
               trail := sys.noteReload persisted }

/-- Reads the filters between the two locks. -/
def System.capture (scope : IndexScope) (sys : System I) (i : Nat) : System I :=
  match sys.planners[i]? with
  | none => sys
  | some p => { sys with planners := sys.planners.set i { p with filters := scopeFilters scope sys.values } }

def System.finishPlan (sys : System I) (i : Nat) : System I :=
  match sys.planners[i]? with
  | some ⟨persisted, revision, some filters⟩ =>
    match sys.state.finishPlan persisted revision filters with
    | .error _ => { sys with planners := sys.planners.eraseIdx i }
    | .ok plan => { sys with planners := sys.planners.eraseIdx i, plans := sys.plans ++ [plan] }
  | _ => sys

def System.advance (sys : System I) (i : Nat) (checkpoint : BlockRef) : System I :=
  match sys.plans[i]? with
  | none => sys
  | some plan => { sys with plans := sys.plans.set i (plan.advance checkpoint) }

def System.begin (sys : System I) (i : Nat) : System I :=
  match sys.plans[i]? with
  | none => sys
  | some plan => match sys.state.begin plan with
    | .error _ => sys
    | .ok (permit, state) => { sys with state, commits := sys.commits ++ [permit] }

def System.start (sys : System I) (i : Nat) : System I :=
  match sys.commits[i]? with
  | none => sys
  | some _ => { sys with commits := sys.commits.set i { started := true } }

def System.persist (sys : System I) (i : Nat) (checkpoint : Option BlockRef) : System I :=
  match sys.commits[i]? with
  | none => sys
  | some _ => { sys with state := { sys.state with persisted := checkpoint } }

def System.completeCommit (sys : System I) (i : Nat) (checkpoint : Option BlockRef) : System I :=
  match sys.commits[i]? with
  | none => sys
  | some _ =>
    { sys with state := sys.state.completeCommit checkpoint, commits := sys.commits.eraseIdx i,
               fired := sys.fire }

def System.dropCommit (sys : System I) (i : Nat) : System I :=
  match sys.commits[i]? with
  | none => sys
  | some permit =>
    { sys with state := sys.state.dropCommit permit, commits := sys.commits.eraseIdx i,
               fired := sys.fire,
               trail := if permit.started then .abandoned :: sys.trail else sys.trail }

/-- One round of a publication call that does not wait now. -/
def System.poll (sys : System I) (reload : Option (Option BlockRef)) : System I :=
  match sys.state.poll reload sys.tickets with
  | (some permit, state) =>
    { sys with state, permits := sys.permits ++ [permit],
               trail := match reload with
                 | some persisted => sys.noteReload persisted
                 | none => sys.trail }
  | (none, state) =>
    { sys with state, waiting := sys.waiting ++ [sys.tickets], tickets := sys.tickets + 1 }

/-- A waiting call goes on only after its ticket was sent to. -/
def System.wake (sys : System I) (i : Nat) : System I :=
  match sys.waiting[i]? with
  | none => sys
  | some ticket =>
    if ticket ∈ sys.fired then { sys with waiting := sys.waiting.eraseIdx i }.poll none else sys

/-- A waiting publication is dropped. -/
def System.cancel (sys : System I) (i : Nat) : System I :=
  { sys with waiting := sys.waiting.eraseIdx i }

def System.dropPublication (sys : System I) (i : Nat) : System I :=
  match sys.permits[i]? with
  | none => sys
  | some _ =>
    { sys with state := sys.state.dropPublication, permits := sys.permits.eraseIdx i,
               fired := sys.fire }

/-- `store` puts the wallet into the map. An exhausted position or a used key is an error,
which drops the permit. -/
def System.insert [DecidableEq I] (scope : IndexScope) (sys : System I) (i : Nat) (id : I)
    (address : Text) : System I :=
  match sys.permits[i]? with
  | some ⟨checkpoint, none⟩ =>
    match birthday checkpoint with
    | none => sys.dropPublication i
    | some start =>
      if id ∈ sys.values.map (·.1) then sys.dropPublication i
      else
        let filter := ⟨⟨scope, address⟩, start⟩
        { sys with values := sys.values ++ [(id, filter)],
                   permits := sys.permits.set i { checkpoint, entry := some (id, filter) } }
  | _ => sys

/-- The durable write failed, so the call takes its wallet out again. -/
def System.forget [DecidableEq I] (sys : System I) (i : Nat) : System I :=
  match sys.permits[i]? with
  | some ⟨checkpoint, some (id, _)⟩ =>
    { sys with values := sys.values.filter (·.1 ≠ id),
               permits := sys.permits.set i { checkpoint, entry := none } }
  | _ => sys

def System.completePublication (sys : System I) (i : Nat) : System I :=
  match sys.permits[i]? with
  | none => sys
  | some permit =>
    match sys.state.completePublication with
    | .error _ => sys.dropPublication i
    | .ok state =>
      { sys with state, permits := sys.permits.eraseIdx i, fired := sys.fire,
                 published := match permit.entry with
                   | some (id, filter) => ⟨id, filter, state.revision⟩ :: sys.published
                   | none => sys.published }

/-- One event. An event about an object that is not there does nothing. -/
def System.step [DecidableEq I] (scope : IndexScope) (sys : System I) : Event I → System I
  | .enterPlan persisted => sys.enterPlan persisted
  | .capture i => sys.capture scope i
  | .finishPlan i => sys.finishPlan i
  | .advance i checkpoint => sys.advance i checkpoint
  | .begin i => sys.begin i
  | .start i => sys.start i
  | .persist i checkpoint => sys.persist i checkpoint
  | .completeCommit i checkpoint => sys.completeCommit i checkpoint
  | .dropCommit i => sys.dropCommit i
  | .publication persisted => sys.poll (some persisted)
  | .wake i => sys.wake i
  | .cancel i => sys.cancel i
  | .insert i id address => sys.insert scope i id address
  | .forget i => sys.forget i
  | .completePublication i => sys.completePublication i
  | .dropPublication i => sys.dropPublication i

/-- A new admission over wallets that were restored or imported before. -/
def System.initial (values : List (I × AddressFilter)) : System I := { values }

def System.run [DecidableEq I] (scope : IndexScope) (values : List (I × AddressFilter))
    (events : List (Event I)) : System I :=
  events.foldl (System.step scope) (System.initial values)

end Admission

end PaymentSdk
