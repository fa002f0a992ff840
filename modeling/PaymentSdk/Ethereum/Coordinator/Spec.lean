import PaymentSdk.Ethereum.Coordinator.State

/-!
# The calls of the transaction coordinator

Each `async fn` is a machine that stands at its awaits. One poll goes on with what the
awaited call answered, and takes at most one lock. A future can be dropped at an await, and
its guards are dropped with it. Any number of callers share one state.
-/

open Std

namespace PaymentSdk.Ethereum

/-! ## What a poll gives -/

/-- What matters for nonces, as it happens. Nothing reads it. -/
inductive Trace where
  | assigned (operation : UInt64) (source : Address) (start : UInt64)
  | registered (operation : UInt64) (transaction : SignedTransaction)
  | handed (transaction : SignedTransaction)
  | accepted (transaction : SignedTransaction)
  | rejected (transaction : SignedTransaction)
  deriving DecidableEq

/-- A future is pending or has its value. -/
inductive Outcome (τ α : Type) where
  | pending (task : τ)
  | done (value : α)

/-- One poll: the state it leaves, what became of the future, and what happened. -/
structure Polled (τ α : Type) where
  state : State
  outcome : Outcome τ α
  trace : List Trace := []

/-- The fees that the node answers for a build context. -/
structure Fees where
  chainId : UInt64
  gasLimit : UInt64
  maxFeePerGas : Wei
  maxPriorityFeePerGas : Wei

/-- What the awaited call answers, whichever it is. -/
structure Reply where
  nonce : Except SourceError UInt64 := .ok 0
  context : Except ChainError Fees := .error ⟨.rpcUnavailable, ""⟩
  balance : Except SourceError Wei := .ok 0
  signature : Except ChainError Signature := .ok []
  known : Except SourceError Bool := .ok false
  broadcast : Except TransactionError TransactionId := .ok []

/-- A build context is made with the nonce that the caller reserved. -/
def Reply.buildContext (reply : Reply) (nonce : UInt64) : Except ChainError BuildContext :=
  reply.context.map fun fees =>
    ⟨fees.chainId, nonce, fees.gasLimit, fees.maxFeePerGas, fees.maxPriorityFeePerGas⟩

/-! ## Submission -/

def definiteSubmissionError (error : SourceError) : TransactionError :=
  { kind := if error.retryable then .unavailable else .rejected, message := error.message }

def ambiguousSubmissionError (id : TransactionId) (message : String) : TransactionError :=
  { kind := .unavailable, message, ambiguousTransactionId := some id.text }

/-- `claiming` may wait for a change. `ready` is between the claim and the hand-over, and is
not an await. -/
inductive Submit where
  | claiming (expected : Option SignedTransaction) (id : TransactionId)
  | known (claim : SubmissionClaim)
  | ready (claim : SubmissionClaim)
  | sent (claim : SubmissionClaim)

namespace Submit

/-- Records the acceptance and answers with it. -/
def accepts (s : State) (claim : SubmissionClaim) :
    Polled Submit (Except TransactionError TransactionId) :=
  let (result, state) := s.accept claim.id
  ⟨state, .done (result.mapError definiteSubmissionError), [.accepted claim.transaction]⟩

/-- The guard is dropped armed: the envelope may or may not be out. -/
def ambiguous (s : State) (claim : SubmissionClaim) (message : String) :
    Polled Submit (Except TransactionError TransactionId) :=
  { state := s.dropSubmission claim.id
    outcome := .done (.error (ambiguousSubmissionError claim.id message)) }

def poll (s : State) (reply : Reply) : Submit → Polled Submit (Except TransactionError TransactionId)
  | claiming expected id => match s.claim id expected with
    | .error error => { state := s, outcome := .done (.error (definiteSubmissionError error)) }
    | .ok (.wait, s) => { state := s, outcome := .pending (claiming expected id) }
    | .ok (.ready claim, s) =>
      { state := s, outcome := .pending (if claim.recovery then known claim else ready claim) }
  | known claim => match reply.known with
    | .ok true => accepts s claim
    | .ok false => { state := s, outcome := .pending (ready claim) }
    | .error error => ambiguous s claim error.message
  | ready claim => { state := s, outcome := .pending (sent claim), trace := [.handed claim.transaction] }
  | sent claim => match reply.broadcast with
    | .ok returned =>
      if returned = claim.id then accepts s claim
      else ambiguous s claim "Ethereum node returned a different hash for the exact signed envelope"
    | .error error =>
      if !claim.recovery && error.ambiguousTransactionId.isNone then
        ⟨s.reject claim.id, .done (.error error), [.rejected claim.transaction]⟩
      else ambiguous s claim error.message

/-- The future is dropped. -/
def drop (s : State) : Submit → Option State
  | claiming _ _ => some s
  | known claim | sent claim => some (s.dropSubmission claim.id)
  | ready _ => none

end Submit

/-! ## Preparation -/

/-- A transfer before it has a nonce. -/
structure Preparation where
  request : TransferRequest
  expectedChainId : UInt64
  deriving DecidableEq

/-- An error with the index of the transfer that it is about. -/
structure PreparationError where
  index : Nat
  source : ChainError
  deriving DecidableEq

/-- A transfer with its nonce and its fees. -/
structure Draft where
  preparation : Preparation
  context : BuildContext
  deriving DecidableEq

/-- `operation` is gone once the batch has finished. -/
structure PreparedBatch where
  entries : List PreparedEntry
  cursor : Nat
  operation : Option UInt64
  deriving DecidableEq

/-- Every sender once, with the index of its first transfer, in that order. -/
def sendersFrom (index : Nat) (seen : List (Address × Nat)) : List Preparation → List (Address × Nat)
  | [] => seen
  | p :: rest =>
    if p.request.sender ∈ seen.map (·.1) then sendersFrom (index + 1) seen rest
    else sendersFrom (index + 1) (seen ++ [(p.request.sender, index)]) rest

/-- Each sender once, with the index of its first transfer. -/
def senders (preparations : List Preparation) : List (Address × Nat) := sendersFrom 0 [] preparations

/-- The first nonce of a sender: no lower than its floor and the node's pending nonce. -/
def startNonce (floor : Option UInt64) (pending : UInt64) : UInt64 :=
  floor.elim pending (laterNonce · pending)

/-- Gives out the nonces in the order of the transfers. -/
def assignNonces (index : Nat) (next : Address → Option UInt64) : List Preparation →
    Except PreparationError (List UInt64)
  | [] => .ok []
  | p :: rest => match next p.request.sender with
    | none => .error ⟨index, .other, "Ethereum sender was not admitted for nonce assignment"⟩
    | some nonce => match PaymentSdk.checkedSuccessor nonce with
      | none => .error ⟨index, .invalidTransaction, "Ethereum transaction nonce overflows u64"⟩
      | some following =>
        (assignNonces (index + 1) (Function.update next p.request.sender (some following)) rest).map
          (nonce :: ·)

/-! ### Aggregate balances -/

inductive RequiredAsset where
  | native
  | erc20 (token : Address)
  deriving DecidableEq

/-- What one sender needs of one asset, and the share of each transfer in it. -/
structure Requirement where
  source : Address
  asset : RequiredAsset
  amount : Wei
  contributions : List (Nat × Wei)
  deriving DecidableEq

namespace Requirement

def firstIndex (r : Requirement) : Nat := (r.contributions.head?.map (·.1)).getD 0

/-- The first transfer whose running total is above the balance. -/
def failureIndexFrom (fallback : Nat) (balance cumulative : Wei) : List (Nat × Wei) → Nat
  | [] => fallback
  | (index, amount) :: rest => match Wei.checkedAdd cumulative amount with
    | none => index
    | some next => if balance < next then index else failureIndexFrom fallback balance next rest

/-- The first contribution the balance does not cover. -/
def failureIndex (r : Requirement) (balance : Wei) : Nat :=
  failureIndexFrom r.firstIndex balance 0 r.contributions

end Requirement

/-- Adds to the requirement of this source and asset. New ones go to the end, so the list is
in the order of first indices. -/
def addRequirement (source : Address) (asset : RequiredAsset) (amount : Wei) (index : Nat) :
    List Requirement → Except PreparationError (List Requirement)
  | [] => .ok [⟨source, asset, amount, [(index, amount)]⟩]
  | r :: rest =>
    if r.source = source ∧ r.asset = asset then
      match Wei.checkedAdd r.amount amount with
      | none =>
        .error ⟨index, .insufficientFunds, "Ethereum aggregate asset requirement overflows U256"⟩
      | some total =>
        .ok ({ r with amount := total, contributions := r.contributions ++ [(index, amount)] } :: rest)
    else (addRequirement source asset amount index rest).map (r :: ·)

def requirementsFrom (index : Nat) (values : List Requirement) : List Draft →
    Except PreparationError (List Requirement)
  | [] => .ok values
  | draft :: rest => do
    let request := draft.preparation.request
    let fee ← match Wei.checkedMul draft.context.maxFeePerGas draft.context.gasLimit with
      | none => .error ⟨index, .feeUnavailable, "Ethereum aggregate maximum fee overflows U256"⟩
      | some fee => .ok fee
    let native ← match if request.erc20Transfer.isNone then Wei.checkedAdd fee request.value else some fee with
      | none =>
        .error ⟨index, .insufficientFunds, "Ethereum aggregate native requirement overflows U256"⟩
      | some native => .ok native
    let values ← addRequirement request.sender .native native index values
    let values ← match request.erc20Transfer with
      | none => .ok values
      | some (token, amount) => addRequirement request.sender (.erc20 token) amount index values
    requirementsFrom (index + 1) values rest

/-! ### The machine -/

/-- The lists hold what is left to await. `registering` and `failing` are no awaits: the first
is about to register its entries, the second to drop its operation. -/
inductive Prepare where
  | admitting
  | recovering (index : Nat) (submit : Submit)
  | nonces (operation : UInt64) (next : Address → Option UInt64) (rest : List (Address × Nat))
  | contexts (operation : UInt64) (drafts : List Draft) (rest : List (Preparation × UInt64))
  | balances (operation : UInt64) (drafts : List Draft) (insufficient : Option Nat) (rest : List Requirement)
  | signing (operation : UInt64) (entries : List PreparedEntry) (rest : List Draft)
  | registering (operation : UInt64) (entries : List PreparedEntry)
  | failing (operation : UInt64) (error : PreparationError)

namespace Prepare

def stay (s : State) (task : Prepare) (trace : List Trace) :
    Polled Prepare (Except PreparationError PreparedBatch) :=
  { state := s, outcome := .pending task, trace }

/-- The next sender's nonces start at `start`, if the whole range fits. -/
def reserve (s : State) (operation : UInt64) (next : Address → Option UInt64) (preparations : List Preparation)
    (source : Address) (index : Nat) (rest : List (Address × Nat)) (pending : UInt64) :
    Polled Prepare (Except PreparationError PreparedBatch) :=
  let start := startNonce (s.floor source) pending
  let count := (preparations.filter (·.request.sender = source)).length
  if 2 ^ 64 ≤ count then
    stay s (failing operation ⟨index, .invalidTransaction, "Ethereum transaction count exceeds u64"⟩) []
  else if 2 ^ 64 ≤ start.toNat + count then
    stay s (failing operation ⟨index, .invalidTransaction, "Ethereum batch nonce range overflows u64"⟩) []
  else stay s (nonces operation (Function.update next source (some start)) rest)
    [.assigned operation source start]

/-- All balances that had to be read have been. -/
def settle (s : State) (operation : UInt64) (drafts : List Draft) :
    Option Nat → Polled Prepare (Except PreparationError PreparedBatch)
  | some index => stay s (failing operation
      ⟨index, .insufficientFunds, "Ethereum aggregate batch balance is insufficient"⟩) []
  | none => stay s (signing operation [] drafts) []

def poll (crypto : Crypto) (preparations : List Preparation) (s : State) (reply : Reply) :
    Prepare → Polled Prepare (Except PreparationError PreparedBatch)
  | admitting =>
    if preparations = [] then
      { state := s
        outcome := .done (.error ⟨0, .invalidTransaction, "Ethereum transaction batch is empty"⟩) }
    else match s.admission (senders preparations) with
      | (.acquired operation, s) => stay s (nonces operation (fun _ => none) (senders preparations)) []
      | (.wait, s) => stay s admitting []
      | (.recover id index, s) => stay s (recovering index (.claiming none id)) []
      | (.exhausted index, s) =>
        { state := s
          outcome := .done (.error
            ⟨index, .other, "Ethereum transaction coordinator exhausted operation identifiers"⟩) }
  | recovering index submit => match submit.poll s reply with
    | ⟨s, .pending submit, trace⟩ => stay s (recovering index submit) trace
    | ⟨s, .done (.ok _), trace⟩ => stay s admitting trace
    | ⟨s, .done (.error error), trace⟩ =>
      { state := s
        outcome := .done (.error ⟨index, .rpcUnavailable,
          "Ethereum sender is blocked by an ambiguous transaction: " ++ error.message⟩)
        trace }
  | nonces operation next [] => match assignNonces 0 next preparations with
    | .error error => stay s (failing operation error) []
    | .ok assigned => stay s (contexts operation [] (preparations.zip assigned)) []
  | nonces operation next ((source, index) :: rest) => match reply.nonce with
    | .error error => stay s (failing operation ⟨index, .fromRpc error⟩) []
    | .ok pending => reserve s operation next preparations source index rest pending
  | contexts operation drafts [] => match requirementsFrom 0 [] drafts with
    | .error error => stay s (failing operation error) []
    | .ok requirements => stay s (balances operation drafts none requirements) []
  | contexts operation drafts ((preparation, nonce) :: rest) => match reply.buildContext nonce with
    | .error error => stay s (failing operation ⟨drafts.length, error⟩) []
    | .ok context =>
      if context.chainId ≠ preparation.expectedChainId then
        stay s (failing operation ⟨drafts.length, .divergent,
          "Ethereum RPC chain ID does not match the wallet network"⟩) []
      else stay s (contexts operation (drafts ++ [⟨preparation, context⟩]) rest) []
  | balances operation drafts insufficient [] => settle s operation drafts insufficient
  | balances operation drafts insufficient (requirement :: rest) =>
    if insufficient.any (· ≤ requirement.firstIndex) then settle s operation drafts insufficient
    else match reply.balance with
      | .error error => stay s (failing operation ⟨requirement.firstIndex, .fromRpc error⟩) []
      | .ok balance =>
        if requirement.amount ≤ balance then stay s (balances operation drafts insufficient rest) []
        else
          let index := requirement.failureIndex balance
          stay s (balances operation drafts (some (insufficient.elim index (min · index))) rest) []
  | signing operation entries [] => stay s (registering operation entries) []
  | signing operation entries (draft :: rest) =>
    match signRequest crypto draft.preparation.request draft.context reply.signature with
    | .error error => stay s (failing operation ⟨entries.length, error⟩) []
    | .ok signed =>
      stay s (signing operation
        (entries ++ [⟨draft.preparation.request.sender, draft.context.nonce, signed⟩]) rest) []
  | registering operation entries => match s.register operation entries with
    | .error error => stay s (failing operation ⟨0, error⟩) []
    | .ok s => ⟨s, .done (.ok ⟨entries, 0, some operation⟩), entries.map fun e => .registered operation e.signed⟩
  | failing operation error => { state := s.finishOperation operation, outcome := .done (.error error) }

def drop (s : State) : Prepare → Option State
  | admitting => some s
  | recovering _ submit => submit.drop s
  | nonces operation _ _ | contexts operation _ _ | balances operation _ _ _ | signing operation _ _ =>
    some (s.finishOperation operation)
  | registering _ _ | failing _ _ => none

end Prepare

/-! ## A prepared batch -/

/-- `PreparedBatch::next`. `finishing` is about to take the operation out. -/
inductive Next where
  | submitting (submit : Submit)
  | finishing (result : Option TransactionId)

def PreparedBatch.next (b : PreparedBatch) : Next :=
  match b.entries[b.cursor]? with
  | none => .finishing none
  | some entry => .submitting (.claiming (some entry.signed) entry.signed.id)

/-- `Option::take` of the operation, which drops it. -/
def finish (s : State) : Option UInt64 → State
  | none => s
  | some operation => s.finishOperation operation

def Next.poll (s : State) (reply : Reply) (b : PreparedBatch) :
    Next → PreparedBatch × Polled Next (Except TransactionError (Option TransactionId))
  | submitting submit => match submit.poll s reply with
    | ⟨s, .pending submit, trace⟩ => (b, ⟨s, .pending (submitting submit), trace⟩)
    | ⟨s, .done (.error error), trace⟩ => (b, ⟨s, .done (.error error), trace⟩)
    | ⟨s, .done (.ok id), trace⟩ =>
      let b := { b with cursor := b.cursor + 1 }
      if b.cursor = b.entries.length then (b, ⟨s, .pending (finishing (some id)), trace⟩)
      else (b, ⟨s, .done (.ok (some id)), trace⟩)
  | finishing result =>
    ({ b with operation := none }, { state := finish s b.operation, outcome := .done (.ok result) })

def Next.drop (s : State) : Next → Option State
  | submitting submit => submit.drop s
  | finishing _ => none

/-! ## Callers -/

/-- What one caller is doing. `detaching` is a single preparation between `register` and
`detach`, and `leaving` is about to drop its operation. -/
inductive Caller where
  | idle
  | preparing (single : Bool) (preparations : List Preparation) (task : Prepare)
  | detaching (operation : UInt64) (entry : PreparedEntry)
  | leaving (operation : UInt64)
  | batch (b : PreparedBatch)
  | sending (b : PreparedBatch) (task : Next)
  | broadcasting (task : Submit)

/-- All callers over one state. -/
structure World where
  state : State := {}
  callers : Nat → Caller := fun _ => .idle
  log : List Trace := []

/-- Somebody calls, a future is polled, or a future is dropped. -/
inductive Event where
  | prepareBatch (caller : Nat) (preparations : List Preparation)
  | prepareOne (caller : Nat) (preparation : Preparation)
  | next (caller : Nat)
  | broadcast (caller : Nat) (transaction : SignedTransaction)
  | resume (caller : Nat) (reply : Reply)
  | drop (caller : Nat)

namespace World

def set (w : World) (i : Nat) (caller : Caller) : World :=
  { w with callers := Function.update w.callers i caller }

/-- A caller that does nothing starts. -/
def start (w : World) (i : Nat) (caller : Caller) : World :=
  match w.callers i with
  | .idle => w.set i caller
  | _ => w

/-- What a single or a batch preparation turns into. -/
def prepared (single : Bool) : Except PreparationError PreparedBatch → Caller
  | .error _ => .idle
  | .ok b => match single, b.entries.getLast?, b.operation with
    | false, _, _ => .batch b
    | true, some entry, some operation => .detaching operation entry
    | true, _, some operation => .leaving operation
    | true, _, none => .idle

def resume (crypto : Crypto) (w : World) (i : Nat) (reply : Reply) : World :=
  match w.callers i with
  | .idle | .batch _ => w
  | .preparing single preparations task =>
    let polled := task.poll crypto preparations w.state reply
    let caller := match polled.outcome with
      | .pending task => .preparing single preparations task
      | .done result => prepared single result
    { (w.set i caller) with state := polled.state, log := w.log ++ polled.trace }
  | .detaching operation entry =>
    let state := match w.state.detach operation entry.signed.id with
      | .error _ => w.state
      | .ok s => s
    { (w.set i (.leaving operation)) with state }
  | .leaving operation => { (w.set i .idle) with state := w.state.finishOperation operation }
  | .sending b task =>
    let (b, polled) := task.poll w.state reply b
    let caller := match polled.outcome with
      | .pending task => .sending b task
      | .done _ => .batch b
    { (w.set i caller) with state := polled.state, log := w.log ++ polled.trace }
  | .broadcasting task =>
    let polled := task.poll w.state reply
    let caller := match polled.outcome with
      | .pending task => .broadcasting task
      | .done _ => .idle
    { (w.set i caller) with state := polled.state, log := w.log ++ polled.trace }

/-- A future is dropped at its await, or a batch is dropped between two calls. -/
def drop (w : World) (i : Nat) : World :=
  match w.callers i with
  | .idle | .detaching _ _ | .leaving _ => w
  | .preparing _ _ task => match task.drop w.state with
    | none => w
    | some state => { (w.set i .idle) with state }
  | .batch b => { (w.set i .idle) with state := finish w.state b.operation }
  | .sending b task => match task.drop w.state with
    | none => w
    | some state => { (w.set i (.batch b)) with state }
  | .broadcasting task => match task.drop w.state with
    | none => w
    | some state => { (w.set i .idle) with state }

def step (crypto : Crypto) (w : World) : Event → World
  | .prepareBatch i preparations => w.start i (.preparing false preparations .admitting)
  | .prepareOne i preparation => w.start i (.preparing true [preparation] .admitting)
  | .next i => match w.callers i with
    | .batch b => w.set i (.sending b b.next)
    | _ => w
  | .broadcast i transaction => w.start i (.broadcasting (.claiming (some transaction) transaction.id))
  | .resume i reply => w.resume crypto i reply
  | .drop i => w.drop i

def run (crypto : Crypto) (events : List Event) : World := events.foldl (step crypto) {}

end World

end PaymentSdk.Ethereum
