import Mathlib.Logic.Function.Basic
import PaymentSdk.Solana.Submission

/-!
# Sends that share one source coordinator

Each send has a caller and at most one task, joined by two channels: the activation and the
result. A caller can be dropped at an await. A task can be dropped until it is activated.
-/

open Interaction

namespace PaymentSdk.Solana

open Wallets (ErrorKind Error SendError)

/-- Where `send` stands. -/
inductive Caller where
  | fresh
  | acquiring (keys : List (Address × Key)) (task : Acquire)
  | preparing (keys : List (Address × Key)) (task : Prepare)
  | submitting (task : Submit)
  | ended

/-- The sender of the activation channel. -/
inductive Activation where
  | pending
  | started
  | dropped
  deriving DecidableEq

/-- `result` is what the task has sent to its caller. -/
structure Send where
  caller : Caller := .fresh
  task : Option Task := none
  activation : Activation := .pending
  result : Option (Except SendError (List Id)) := none

/-- All sends over one state of the sources. -/
structure World where
  state : SourceState := {}
  sends : Nat → Send := fun _ => {}
  log : List (Nat × Trace) := []

/-! ## The start of a send -/

namespace Coordinator

/-- The transfers by their place, if every signer owns its source. -/
def resolve (crates : Crates) (index : Nat) : List NativeTransfer → Except SendError (List ResolvedTransfer)
  | [] => .ok []
  | t :: rest =>
    if t.signer.key.address ≠ t.source then
      .error (item index .addressMismatch "Solana signer does not own the source address")
    else do
      pure (⟨index, t.source, crates.render t.destination, t.amount⟩ :: (← resolve crates (index + 1) rest))

/-- The first signer of each source is kept. -/
def keys (transfers : List NativeTransfer) : List (Address × Key) := transfers.map fun t => (t.source, t.signer.key)

def start (crates : Crates) (transfers : List NativeTransfer) : Except SendError (List ResolvedTransfer) := do
  let resolved ← resolve crates 0 transfers
  if resolved = [] then throw (.collection .invalidBatch "at least one transfer is required")
  else if Wallets.maxTransfers < resolved.length then
    throw (.collection .invalidBatch "at most 50 transfers are allowed")
  else pure resolved

end Coordinator

/-! ## Steps -/

/-- A step of a caller or of a task. -/
inductive Event where
  | send (i : Nat) (transfers : List NativeTransfer)
  | poll (i : Nat) (reply : Reply)
  | drop (i : Nat)
  | pollTask (i : Nat) (reply : Reply)
  | dropTask (i : Nat)

namespace World

def act (w : World) (i : Nat) (s : SourceState) (send : Send) (trace : List Trace) : World where
  state := s
  sends := Function.update w.sends i send
  log := w.log ++ trace.map (i, ·)

/-- The caller returns. -/
def finish (w : World) (i : Nat) (s : SourceState) (result : Except SendError (List Id)) : World :=
  w.act i s { w.sends i with caller := .ended } [.returned result]

def setCaller (w : World) (i : Nat) (s : SourceState) (caller : Caller) : World :=
  w.act i s { w.sends i with caller } []

/-- A poll that waits for the height guards the sources and makes the task. -/
def guardAndRegister (w : World) (i : Nat) (batch : PreparedBatch) (value : UInt64) : World :=
  w.act i (w.state.guard batch.leases)
    { w.sends i with
      caller := .submitting .registering
      task := some (.dormant batch.floor batch.envelopes batch.leases) } [.height value]

def pollSubmit (w : World) (i : Nat) (reply : Reply) : Submit → World
  | .height batch first =>
    if reply.interrupted then
      w.setCaller i w.state (.submitting (.failing batch.leases
        (.operation .unavailable "Solana submission registration was cancelled")))
    else match reply.getBlockHeight with
      | .error _ => w.setCaller i w.state (.submitting (.failing batch.leases
          (definite first.index [] "Solana block height is unavailable before registration")))
      | .ok value =>
        if first.lifetime.lastValidBlockHeight < value then
          w.act i w.state
            { w.sends i with
              caller := .submitting (.failing batch.leases
                (definite first.index [] "Solana transaction lifetime expired before registration")) }
            [.height value]
        else w.guardAndRegister i batch value
  | .registering =>
    if reply.interrupted then
      w.act i w.state { w.sends i with caller := .ended, activation := .dropped }
        [.returned (.error (.operation .unavailable "Solana submission registration was cancelled"))]
    else if reply.registered then
      w.act i w.state { w.sends i with caller := .submitting .waiting, activation := .started } [.activated]
    else w.act i w.state { w.sends i with caller := .ended, activation := .dropped }
      [.returned (.error (.operation .unavailable "Solana submission registration failed"))]
  | .waiting =>
    if reply.interrupted then
      w.finish i w.state (.error (.operation .unavailable "Solana submission result waiter was cancelled"))
    else match (w.sends i).result, (w.sends i).task with
      | some result, _ => w.finish i w.state result
      | none, none => w.finish i w.state
          (.error (.operation .unavailable "Solana submission task ended without a result"))
      | none, some _ => w
  | .failing leases error => w.finish i (w.state.dropLeases leases) (.error error)

def poll (crates : Crates) (w : World) (i : Nat) (reply : Reply) : World :=
  match (w.sends i).caller with
  | .fresh | .ended => w
  | .acquiring keys task => match task.poll crates w.state reply with
    | ⟨s, _, .inl task⟩ => w.setCaller i s (.acquiring keys task)
    | ⟨s, _, .inr (.error error)⟩ => w.finish i s (.error error)
    | ⟨s, _, .inr (.ok acquired)⟩ => w.setCaller i s (.preparing keys (.start reply acquired))
  | .preparing keys task => match task.poll crates keys w.state reply with
    | ⟨s, _, .inl task⟩ => w.setCaller i s (.preparing keys task)
    | ⟨s, _, .inr (.error error)⟩ => w.finish i s (.error error)
    | ⟨s, _, .inr (.ok batch)⟩ => w.setCaller i s (.submitting (.start reply batch))
  | .submitting task => w.pollSubmit i reply task

/-- The caller's future is dropped at an await. `failing` is not one. -/
def drop (w : World) (i : Nat) : World :=
  match (w.sends i).caller with
  | .fresh | .ended => w
  | .acquiring _ (.failing _ _) | .preparing _ (.failing _ _) | .submitting (.failing _ _) => w
  | .acquiring _ task => w.setCaller i (w.state.dropLeases task.leases) .ended
  | .preparing _ task => w.setCaller i (w.state.dropLeases task.leases) .ended
  | .submitting (.height batch _) => w.setCaller i (w.state.dropLeases batch.leases) .ended
  | .submitting .registering =>
    w.act i w.state { w.sends i with caller := .ended, activation := .dropped } []
  | .submitting .waiting => w.setCaller i w.state .ended

/-- The result that a poll of the task sends. -/
def reportOf (trace : List Trace) : Option (Except SendError (List Id)) :=
  trace.findSome? fun
    | .reported result => some result
    | _ => none

/-- Whoever has the dormant task gives it up. -/
def dropTask (w : World) (i : Nat) : World :=
  match (w.sends i).task with
  | some (.dormant _ _ guarded) =>
    if (w.sends i).activation = .started then w
    else w.act i (w.state.dropGuard guarded) { w.sends i with task := none } []
  | _ => w

def pollTask (crates : Crates) (w : World) (i : Nat) (reply : Reply) : World :=
  match (w.sends i).task with
  | none => w
  | some task => match (w.sends i).activation with
    | .pending => w
    | .dropped => w.dropTask i
    | .started =>
      let ran := task.poll crates w.state reply
      w.act i ran.state
        { w.sends i with task := ran.task, result := (reportOf ran.trace).or (w.sends i).result } ran.trace

def step (crates : Crates) (w : World) : Event → World
  | .send i transfers => match (w.sends i).caller with
    | .fresh => match Coordinator.start crates transfers with
      | .error error => w.finish i w.state (.error error)
      | .ok resolved => w.setCaller i w.state (.acquiring (Coordinator.keys transfers) (.leasing resolved))
    | _ => w
  | .poll i reply => w.poll crates i reply
  | .drop i => w.drop i
  | .pollTask i reply => w.pollTask crates i reply
  | .dropTask i => w.dropTask i

def run (crates : Crates) (events : List Event) : World := events.foldl (step crates) {}

end World

end PaymentSdk.Solana
