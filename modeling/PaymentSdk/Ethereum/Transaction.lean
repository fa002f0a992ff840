import Mathlib.Algebra.GroupWithZero.Nat
import PaymentSdk.Wallets.Sender

/-!
# Ethereum transfers and their envelopes

A request and a build context give one unsigned transaction, and a signature makes it an
envelope. The envelope fixes its nonce and, through signature recovery, its sender.
-/

namespace PaymentSdk.Ethereum

/-! ## Errors -/

inductive ChainErrorKind where
  | invalidAddress
  | invalidTransaction
  | insufficientFunds
  | feeUnavailable
  | rpcUnavailable
  | divergent
  | signer
  | rejected
  | notFound
  | other
  deriving DecidableEq

structure ChainError where
  kind : ChainErrorKind
  message : String
  deriving DecidableEq

def ChainError.fromRpc (error : SourceError) : ChainError := ⟨.rpcUnavailable, error.message⟩

def ChainError.intoPreparation (error : ChainError) : TransactionError where
  kind := match error.kind with
    | .invalidAddress => .invalidAddress
    | .invalidTransaction | .notFound => .invalidTransaction
    | .insufficientFunds => .insufficientFunds
    | .feeUnavailable => .fee
    | .rpcUnavailable => .unavailable
    | .divergent => .divergent
    | .signer => .signing
    | .rejected => .rejected
    | .other => .unknown
  message := error.message

/-! ## Amounts, addresses and ids -/

/-- A 256-bit amount. -/
abbrev Wei := Fin (2 ^ 256)

instance neZeroWei : NeZero (2 ^ 256) := ⟨by decide⟩

def Wei.checkedAdd (a b : Wei) : Option Wei :=
  if h : a.val + b.val < 2 ^ 256 then some ⟨a.val + b.val, h⟩ else none

def Wei.checkedMul (a : Wei) (n : UInt64) : Option Wei :=
  if h : a.val * n.toNat < 2 ^ 256 then some ⟨a.val * n.toNat, h⟩ else none

/-- Big-endian, 32 bytes. -/
def Wei.toBytes (a : Wei) : List UInt8 :=
  (List.range 32).map fun i => .ofNat (a.val / 256 ^ (31 - i))

/-- The bytes of an account address. Nothing depends on there being 20 of them. -/
abbrev Address := List UInt8

/-- The bytes of an envelope's hash. -/
abbrev TransactionId := List UInt8

def hexDigit (n : Nat) : Char := Char.ofNat (if n < 10 then 48 + n else 87 + n)

/-- Lower-case hexadecimal after `0x`. -/
def TransactionId.text (id : TransactionId) : Id :=
  String.ofList ('0' :: 'x' :: id.flatMap fun byte => [hexDigit (byte.toNat / 16), hexDigit (byte.toNat % 16)])

/-! ## Requests -/

/-- A transfer of the native coin or of a token. -/
inductive TransferRequest where
  | native (source destination : Address) (value : Wei)
  | erc20 (source token recipient : Address) (amount : Wei)
  deriving DecidableEq

namespace TransferRequest

def sender : TransferRequest → Address
  | native source _ _ => source
  | erc20 source _ _ _ => source

/-- The account the transaction is sent to: the recipient, or the token's contract. -/
def target : TransferRequest → Address
  | native _ destination _ => destination
  | erc20 _ token _ _ => token

def value : TransferRequest → Wei
  | native _ _ value => value
  | erc20 _ _ _ _ => 0

def erc20Transfer : TransferRequest → Option (Address × Wei)
  | native _ _ _ => none
  | erc20 _ token _ amount => some (token, amount)

/-- The ABI call `transfer(recipient, amount)`. -/
def input : TransferRequest → List UInt8
  | native _ _ _ => []
  | erc20 _ _ recipient amount =>
    [0xa9, 0x05, 0x9c, 0xbb] ++ List.replicate 12 0 ++ recipient ++ amount.toBytes

end TransferRequest

/-- What the node and the coordinator decide of a transaction. -/
structure BuildContext where
  chainId : UInt64
  nonce : UInt64
  gasLimit : UInt64
  maxFeePerGas : Wei
  maxPriorityFeePerGas : Wei
  deriving DecidableEq

/-! ## Signing -/

/-- A transaction with dynamic fees, before it is signed. -/
structure UnsignedTransaction where
  chainId : UInt64
  nonce : UInt64
  source : Address
  target : Address
  value : Wei
  input : List UInt8
  gasLimit : UInt64
  maxFeePerGas : Wei
  maxPriorityFeePerGas : Wei
  deriving DecidableEq

def UnsignedTransaction.new (request : TransferRequest) (context : BuildContext) :
    Except ChainError UnsignedTransaction :=
  if context.chainId = 0 then .error ⟨.invalidTransaction, "Ethereum chain ID must be non-zero"⟩
  else if context.gasLimit = 0 then .error ⟨.invalidTransaction, "Ethereum gas limit must be non-zero"⟩
  else if context.maxFeePerGas < context.maxPriorityFeePerGas then
    .error ⟨.invalidTransaction, "Ethereum max fee per gas is below the priority fee"⟩
  else .ok {
    chainId := context.chainId
    nonce := context.nonce
    source := request.sender
    target := request.target
    value := request.value
    input := request.input
    gasLimit := context.gasLimit
    maxFeePerGas := context.maxFeePerGas
    maxPriorityFeePerGas := context.maxPriorityFeePerGas }

abbrev Signature := List UInt8

/-- What the encoded bytes carry: an EIP-1559 transaction and its signature. The sender is
not among the fields. -/
structure Envelope where
  chainId : UInt64
  nonce : UInt64
  gasLimit : UInt64
  maxFeePerGas : Wei
  maxPriorityFeePerGas : Wei
  target : Address
  value : Wei
  input : List UInt8
  signature : Signature
  deriving DecidableEq

/-- Signature recovery and Keccak-256, which other crates supply. -/
structure Crypto where
  recover : Envelope → Option Address
  keccak : Envelope → TransactionId

/-- An envelope with its hash. -/
structure SignedTransaction where
  id : TransactionId
  envelope : Envelope
  deriving DecidableEq

/-- The fee widths of `eip1559`. -/
def UnsignedTransaction.checkFees (t : UnsignedTransaction) : Except ChainError Unit :=
  if 2 ^ 128 ≤ t.maxFeePerGas.val then
    .error ⟨.invalidTransaction, "Ethereum max fee per gas exceeds u128"⟩
  else if 2 ^ 128 ≤ t.maxPriorityFeePerGas.val then
    .error ⟨.invalidTransaction, "Ethereum priority fee exceeds u128"⟩
  else .ok ()

/-- The signed bytes. -/
def UnsignedTransaction.envelope (t : UnsignedTransaction) (signature : Signature) : Envelope where
  chainId := t.chainId
  nonce := t.nonce
  gasLimit := t.gasLimit
  maxFeePerGas := t.maxFeePerGas
  maxPriorityFeePerGas := t.maxPriorityFeePerGas
  target := t.target
  value := t.value
  input := t.input
  signature := signature

/-- `signature` is the signer's answer. The recovered signer has to be the source. -/
def UnsignedTransaction.sign (crypto : Crypto) (t : UnsignedTransaction)
    (signature : Except ChainError Signature) : Except ChainError SignedTransaction := do
  t.checkFees
  let envelope := t.envelope (← signature)
  match crypto.recover envelope with
  | none => throw ⟨.signer, "could not recover Ethereum signer"⟩
  | some recovered =>
    if recovered ≠ t.source then
      throw ⟨.signer, "Ethereum signature does not match the transaction sender"⟩
    else pure ⟨crypto.keccak envelope, envelope⟩

/-- `TransactionBuilder::sign`. -/
def signRequest (crypto : Crypto) (request : TransferRequest) (context : BuildContext)
    (signature : Except ChainError Signature) : Except ChainError SignedTransaction := do
  (← UnsignedTransaction.new request context).sign crypto signature

/-- An envelope that was made here: its id is its hash, and its sender can be recovered. -/
structure SignedTransaction.Genuine (crypto : Crypto) (t : SignedTransaction) (source : Address)
    (nonce : UInt64) : Prop where
  id : t.id = crypto.keccak t.envelope
  sender : crypto.recover t.envelope = some source
  nonce : t.envelope.nonce = nonce

theorem genuine_of_sign {crypto : Crypto} {request : TransferRequest} {context : BuildContext}
    {signature : Except ChainError Signature} {t : SignedTransaction}
    (h : signRequest crypto request context signature = .ok t) :
    t.Genuine crypto request.sender context.nonce := by
  unfold signRequest UnsignedTransaction.new at h
  split_ifs at h
  · cases h
  · cases h
  · cases h
  · simp only [UnsignedTransaction.sign, bind, Except.bind] at h
    split at h
    · cases h
    · split at h
      · cases h
      · split at h
        · cases h
        · rename_i recovered hrecovered
          split at h
          · cases h
          · rename_i hsource
            cases h
            exact ⟨rfl, hrecovered.trans (congrArg some (not_not.mp hsource)), rfl⟩

theorem SignedTransaction.Genuine.eq_of_id {crypto : Crypto} (hinj : Function.Injective crypto.keccak)
    {t t' : SignedTransaction} {a a' : Address} {n n' : UInt64} (h : t.Genuine crypto a n)
    (h' : t'.Genuine crypto a' n') (hid : t.id = t'.id) : t = t' := by
  obtain ⟨id, envelope⟩ := t
  obtain ⟨id', envelope'⟩ := t'
  obtain rfl : id = id' := hid
  have henvelope : crypto.keccak envelope = crypto.keccak envelope' := h.id.symm.trans h'.id
  rw [hinj henvelope]

end PaymentSdk.Ethereum
