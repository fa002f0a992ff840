import PaymentSdk.Lib.Task
import PaymentSdk.Ethereum.Coordinator.Spec

/-!
# Sending a batch of Ethereum transfers

A batch is checked and turned into preparations, prepared as a whole, and then sent one
envelope after the other. It stops at the first error, and the prepared batch is dropped.
-/

open Interaction

namespace PaymentSdk.Ethereum

open Wallets

/-! ## The configuration of a wallet -/

inductive AssetKind where
  | native
  | erc20 (token : Address)
  deriving DecidableEq

/-- The asset of a wallet, and the chain it is on. -/
structure WalletConfig where
  scope : IndexScope
  chainId : UInt64
  asset : AssetKind
  decimals : UInt32
  deriving DecidableEq

namespace WalletConfig

def validate (c : WalletConfig) : Except Error Unit :=
  if c.scope.chain.name.str ≠ "ethereum" ∨ c.scope.network.str.toList.all Decimal.isWhitespace ∨
      c.chainId = 0 ∨ (c.asset = .native ∧ c.decimals ≠ 18) ∨ c.asset = .erc20 (List.replicate 20 0) ∨ 255 < c.decimals then
    .error { kind := .unsupported, message := "Ethereum wallet network, asset, and decimals must agree" }
  else .ok ()

/-- The atomic amount, in 32 bytes. -/
def atomic (c : WalletConfig) (amount : Decimal) : Except DecimalError Wei := do
  let value ← amount.toAtomic c.decimals.toNat
  if h : value < 2 ^ 256 then pure ⟨value, h⟩ else throw ⟨.overflow, "atomic amount exceeds 32 bytes"⟩

def transferRequest (c : WalletConfig) (source destination : Address) (amount : Decimal) :
    Except TransactionError TransferRequest := do
  c.validate.mapError fun error => { kind := .invalidSnapshot, message := error.message }
  if amount.coefficient ≤ 0 then
    throw { kind := .invalidAmount, message := "amount must be positive" }
  let value ← (c.atomic amount).mapError fun error => { kind := .invalidAmount, message := error.message }
  pure (match c.asset with
    | .native => .native source destination value
    | .erc20 token => .erc20 source token destination value)

end WalletConfig

/-! ## Checking a batch -/

/-- `Address::try_from`. -/
def Address.tryFrom (bytes : List UInt8) : Except Error Address :=
  if bytes.length = 20 then .ok bytes
  else .error { kind := .invalidAddress, message := "Ethereum address must contain exactly 20 bytes" }

/-- The wallet configuration that the transfers of a batch share. -/
structure Batch where
  config : WalletConfig

namespace Batch

def preparation (b : Batch) (t : Transfer) : Except Error Preparation := do
  let source ← Address.tryFrom t.wallet.address
  let destination ← t.wallet.parseAddress t.destination
  let destination ← Address.tryFrom destination
  let request ← (b.config.transferRequest source destination t.amount).mapError .ofTransaction
  pure ⟨request, b.config.chainId⟩

/-- The first transfer that cannot be prepared is reported. -/
def preparationsFrom (b : Batch) (index : Nat) : List Transfer → Except SendError (List Preparation)
  | [] => .ok []
  | t :: rest => do
    let preparation ← (b.preparation t).mapError (.item index [] ·)
    pure (preparation :: (← b.preparationsFrom (index + 1) rest))

/-- What comes before the first await. -/
def check (b : Batch) (transfers : List Transfer) : Except SendError (List Preparation) :=
  if transfers = [] then .error (.collection .invalidBatch "at least one transfer is required")
  else if maxTransfers < transfers.length then
    .error (.collection .invalidBatch "at most 50 transfers are allowed")
  else b.preparationsFrom 0 transfers

theorem accepted_of_preparationsFrom {b : Batch} {index : Nat} {transfers : List Transfer} {error : SendError}
    (h : b.preparationsFrom index transfers = .error error) : error.accepted = [] := by
  induction transfers generalizing index with
  | nil => cases h
  | cons t rest ih =>
    simp only [preparationsFrom, bind, Except.bind] at h
    cases hpreparation : b.preparation t with
    | error source =>
      rw [hpreparation] at h
      cases h
      rfl
    | ok preparation =>
      rw [hpreparation] at h
      cases hrest : b.preparationsFrom (index + 1) rest with
      | error source =>
        rw [hrest] at h
        cases h
        exact ih hrest
      | ok preparations =>
        rw [hrest] at h
        cases h

theorem accepted_of_check {b : Batch} {transfers : List Transfer} {error : SendError}
    (h : b.check transfers = .error error) : error.accepted = [] := by
  unfold check at h
  split_ifs at h
  · cases h
    rfl
  · cases h
    rfl
  · exact accepted_of_preparationsFrom h

end Batch

def PreparationError.intoSend (error : PreparationError) : SendError :=
  .item error.index [] (.ofTransaction error.source.intoPreparation)

/-! ## Executing it -/

def Polled.progress {τ α : Type} (p : Polled τ α) : Progress State Trace τ α where
  state := p.state
  trace := p.trace
  outcome := match p.outcome with
    | .pending task => .inl task
    | .done value => .inr value

/-- Where `execute` stands: it prepares all transfers, and then sends them one by one. -/
inductive Execute where
  | preparing (preparations : List Preparation) (task : Prepare)
  | sending (batch : PreparedBatch) (accepted : List Id) (task : Next)

namespace Execute

/-- Once the batch is prepared, the loop begins. -/
def onPrepared (s : State) : Except PreparationError PreparedBatch →
    State × (Execute ⊕ Except SendError (List Id))
  | .error error => (s, .inr (.error error.intoSend))
  | .ok b => (s, .inl (sending b [] b.next))

/-- One round of the loop is over. The function returns at an error and after the last
envelope, and drops the batch. -/
def onNext (s : State) (b : PreparedBatch) (accepted : List Id) :
    Except TransactionError (Option TransactionId) → State × (Execute ⊕ Except SendError (List Id))
  | .error error =>
    (finish s b.operation, .inr (.error (.item accepted.length accepted (.ofTransaction error))))
  | .ok none => (finish s b.operation, .inr (.ok accepted))
  | .ok (some id) => (s, .inl (sending b (accepted ++ [id.text]) b.next))

def poll (crypto : Crypto) (s : State) (reply : Reply) :
    Execute → Progress State Trace Execute (Except SendError (List Id))
  | preparing preparations task => match (task.poll crypto preparations s reply).progress with
    | ⟨s, trace, .inl task⟩ => ⟨s, trace, .inl (preparing preparations task)⟩
    | ⟨s, trace, .inr result⟩ => ⟨(onPrepared s result).1, trace, (onPrepared s result).2⟩
  | sending b accepted task => match (task.poll s reply b).1, (task.poll s reply b).2.progress with
    | b, ⟨s, trace, .inl task⟩ => ⟨s, trace, .inl (sending b accepted task)⟩
    | b, ⟨s, trace, .inr result⟩ => ⟨(onNext s b accepted result).1, trace, (onNext s b accepted result).2⟩

end Execute

/-- `Batch::execute`, with one answer for each poll. -/
def Batch.execute (crypto : Crypto) (b : Batch) (s : State) (transfers : List Transfer) (answers : List Reply) :
    Progress State Trace Execute (Except SendError (List Id)) :=
  match b.check transfers with
  | .error error => ⟨s, [], .inr (.error error)⟩
  | .ok preparations => runTask (Execute.poll crypto) answers s (.preparing preparations .admitting)

end PaymentSdk.Ethereum
