import PaymentSdk.Solana.Preparation

/-!
# Submitting envelopes and finding out what became of one

The caller checks the lifetime, guards the sources and registers a dormant task. The task
sends when it is activated, and goes on without the caller. If the outcome of an envelope is
unknown, the task reports that and then looks for the envelope until it is found or expired.
-/

open Interaction

namespace PaymentSdk.Solana

open Wallets (ErrorKind Error SendError)
open Redb (HistoryCursor HistoryQuery)

/-! ## Reconciliation -/

/-- What an inspection concludes. -/
inductive Evidence where
  | present
  | absent
  | retry (checkpoint : Option BlockRef)
  deriving DecidableEq

/-- Where `Reconciler::inspect` waits. -/
inductive Inspect where
  | status
  | checkpoint
  | paging (checkpoint : BlockRef) (after : Option HistoryCursor)
  | closing (checkpoint : BlockRef)
  | height (checkpoint : BlockRef)
  deriving DecidableEq

namespace Inspect

/-- The text of an address. Every `String` of the source has a length. -/
def addressText (crates : Crates) (address : Address) : Text :=
  if h : (crates.render address).utf8ByteSize < 2 ^ 64 then ⟨crates.render address, h⟩ else ⟨"", by decide⟩

def sourceAddress (crates : Crates) (scope : IndexScope) (e : Envelope) : CanonicalAddress :=
  ⟨scope, addressText crates e.source⟩

def query (crates : Crates) (scope : IndexScope) (e : Envelope) (after : Option HistoryCursor) : HistoryQuery :=
  { scope, address := sourceAddress crates scope e, after, limit := 100 }

def poll (e : Envelope) (reply : Reply) : Inspect → Inspect ⊕ Evidence
  | status => match reply.signatureStatus e.floor with
    | .ok ⟨_, some _⟩ => .inr .present
    | _ => .inl checkpoint
  | checkpoint => match reply.checkpoint with
    | .ok (some c) => .inl (paging c none)
    | _ => .inr (.retry none)
  | paging c after => match reply.history with
    | .error _ => .inr (.retry (some c))
    | .ok page =>
      if page.checkpoint ≠ some c then .inr (.retry (some c))
      else if page.transactions.any (·.transactionId.value.str = e.id) then .inr .present
      else match page.next with
        | none => .inl (closing c)
        | some next =>
          if next.checkpoint = some c ∧ after ≠ some next then .inl (paging c (some next))
          else .inr (.retry (some c))
  | closing c => match reply.checkpoint with
    | .ok current => if current = some c then .inl (height c) else .inr (.retry (some c))
    | .error _ => .inr (.retry (some c))
  | height c => match reply.getBlockHeight with
    | .error _ => .inr (.retry (some c))
    | .ok value =>
      if e.lifetime.lastValidBlockHeight < value ∧ e.lifetime.lastValidBlockHeight ≤ c.height.val then .inr .absent
      else .inr (.retry (some c))

end Inspect

/-- `Reconciler::resolve`. It waits between two inspections, for how long does not matter. -/
inductive Resolve where
  | inspecting (task : Inspect)
  | waiting
  deriving DecidableEq

def Resolve.poll (e : Envelope) (s : SourceState) (reply : Reply) :
    Resolve → Progress SourceState Trace Resolve Unit
  | inspecting task => match task.poll e reply with
    | .inl task => ⟨s, [], .inl (inspecting task)⟩
    | .inr .present => ⟨s.releaseGuard e.source, [.resolved e true], .inr ()⟩
    | .inr .absent => ⟨s.releaseGuard e.source, [.resolved e false], .inr ()⟩
    | .inr (.retry _) => ⟨s, [], .inl waiting⟩
  | waiting => ⟨s, [], .inl (inspecting .status)⟩

/-! ## The registered task -/

def definite (index : Nat) (accepted : List Id) (message : String) : SendError :=
  .item index accepted { kind := .unavailable, message }

/-- Names the transaction that may have landed. -/
def unknownOutcome (e : Envelope) (accepted : List Id) : SendError :=
  .item e.index accepted (.ofTransaction
    { kind := .unknown, message := "Solana submission outcome is unknown", ambiguousTransactionId := some e.id })

/-- The loop of `run` at one envelope. -/
structure Running where
  floor : UInt64
  guarded : Finset Address
  accepted : List Id
  envelope : Envelope
  rest : List Envelope

inductive Task where
  | dormant (floor : UInt64) (envelopes : List Envelope) (guarded : Finset Address)
  | height (r : Running)
  | sending (r : Running) (attempt : Nat)
  | status (r : Running) (attempt : Nat)
  | expiry (r : Running) (attempt : Nat)
  | resolving (envelope : Envelope) (task : Resolve)

/-- One poll of a task. When it is over, the task is gone. -/
structure Ran where
  state : SourceState
  task : Option Task
  trace : List Trace := []

namespace Task

/-- `run` returns: the guard is dropped and the result is sent. -/
def complete (s : SourceState) (guarded : Finset Address) (result : Except SendError (List Id))
    (trace : List Trace) : Ran :=
  ⟨s.dropGuard guarded, none, trace ++ [.reported result]⟩

/-- Sends the next envelope. -/
def dispatch (s : SourceState) (r : Running) (attempt : Nat) (trace : List Trace) : Ran :=
  ⟨s, some (sending r attempt), trace ++ [.sent r.envelope]⟩

/-- `submit_and_observe` returned `true`. -/
def accept (s : SourceState) (r : Running) : Ran :=
  let accepted := r.accepted ++ [r.envelope.id]
  match r.rest with
  | [] => complete s r.guarded (.ok accepted) [.observed r.envelope]
  | next :: rest => ⟨s, some (height { r with accepted, envelope := next, rest }), [.observed r.envelope]⟩

/-- `submit_and_observe` returned `false`. -/
def ambiguous (s : SourceState) (r : Running) (trace : List Trace) : Ran :=
  ⟨s.retainAmbiguity r.guarded r.envelope.source, some (resolving r.envelope (.inspecting .status)),
    trace ++ [.reported (.error (unknownOutcome r.envelope r.accepted))]⟩

/-- The first envelope was checked before the registration. -/
def start (s : SourceState) (floor : UInt64) (guarded : Finset Address) : List Envelope → Ran
  | [] => complete s guarded (.ok []) []
  | first :: rest => dispatch s ⟨floor, guarded, [], first, rest⟩ 0 []

/-- A poll of the activated task. -/
def poll (crates : Crates) (s : SourceState) (reply : Reply) : Task → Ran
  | dormant floor envelopes guarded => start s floor guarded envelopes
  | height r => match reply.getBlockHeight with
    | .error _ => complete s r.guarded (.error
        (definite r.envelope.index r.accepted "Solana block height is unavailable before dispatch")) []
    | .ok value =>
      if r.envelope.lifetime.lastValidBlockHeight < value then
        complete s r.guarded (.error
          (definite r.envelope.index r.accepted "Solana transaction lifetime expired before dispatch"))
          [.height value]
      else dispatch s r 0 [.height value]
  | sending r attempt =>
    if reply.sendTransaction crates.parseSignature crates.renderSignature r.envelope.id then accept s r
    else ⟨s, some (status r attempt), []⟩
  | status r attempt => match reply.signatureStatus r.floor with
    | .ok ⟨_, some _⟩ => accept s r
    | .ok ⟨_, none⟩ => if attempt < 2 then ⟨s, some (expiry r attempt), []⟩ else ambiguous s r []
    | .error _ => ambiguous s r []
  | expiry r attempt => match reply.getBlockHeight with
    | .error _ => ambiguous s r []
    | .ok value =>
      if value ≤ r.envelope.lifetime.lastValidBlockHeight ∧ attempt + 1 < 3 then
        dispatch s r (attempt + 1) [.height value]
      else ambiguous s r [.height value]
  | resolving envelope task => match task.poll envelope s reply with
    | ⟨s, trace, .inl task⟩ => ⟨s, some (resolving envelope task), trace⟩
    | ⟨s, trace, .inr _⟩ => ⟨s, none, trace⟩

end Task

/-! ## The caller -/

/-- Where the caller stands while its batch goes to a task. -/
inductive Submit where
  | height (batch : PreparedBatch) (first : Envelope)
  | registering
  | waiting
  | failing (leases : Finset Address) (error : SendError)

def Submit.start (reply : Reply) (batch : PreparedBatch) : Submit :=
  match ensure reply with
  | .error error => .failing batch.leases error
  | .ok _ => match batch.envelopes with
    | [] => .failing batch.leases
        (.operation .invalidBatch "Solana submission requires at least one envelope")
    | first :: _ => .height batch first

end PaymentSdk.Solana
