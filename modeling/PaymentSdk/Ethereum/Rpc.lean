import PaymentSdk.Base.Block
import PaymentSdk.Base.Json
import PaymentSdk.Ethereum.Batch
import PaymentSdk.Ethereum.Wire
import PaymentSdk.JsonRpc.Http
import PaymentSdk.Lib.BigEndian

/-!
# The Ethereum RPC adapter

Programs over a JSON-RPC client. They read accounts and tokens, prepare the context of a transfer
within the limits of the operator, and submit signed envelopes.
-/

open Checked Interaction

namespace PaymentSdk.Ethereum.Rpc

/-! ## Errors -/

inductive BuildErrorKind where
  | invalidConfiguration
  | httpTransport
  deriving DecidableEq

structure BuildError where
  kind : BuildErrorKind
  message : String
  deriving DecidableEq

def BuildError.invalid (message : String) : BuildError := ⟨.invalidConfiguration, message⟩

def sourceError (message : String) (retryable : Bool) : SourceError := ⟨message, retryable⟩

def mapJsonRpcError (error : JsonRpc.Error) : SourceError := sourceError error.message error.isRetryable

def invalidRpcResponse (method message : String) : SourceError :=
  sourceError s!"Ethereum RPC {method} returned an invalid response: {message}" false

/-- A call failed on the way, or the node refused it. -/
inductive CallError where
  | localError (error : SourceError)
  | remote (failure : JsonRpc.Failure)

/-- `str::to_ascii_lowercase`. -/
def toAsciiLowercase (text : String) : List Char := text.toList.map Char.toLower

def contains (message : List Char) (needle : String) : Bool := needle.toList <:+: message

namespace CallError

/-- The node has the transaction in its pool already. -/
def isAlreadyKnown : CallError → Bool
  | localError _ => false
  | remote failure =>
    let message := toAsciiLowercase failure.message
    contains message "already known" || contains message "known transaction"

def executionRevertCode : CallError → Option Int
  | localError _ => none
  | remote failure =>
    let message := toAsciiLowercase failure.message
    if contains message "execution reverted" || contains message "execution revert" then some failure.code
    else none

def intoSource (method : String) : CallError → SourceError
  | localError error => error
  | remote failure =>
    sourceError s!"Ethereum JSON-RPC {method} failed with code {failure.code}"
      (failure.code = -32605 || failure.code = -32603 || failure.code = -32005 ||
        ["rate limit", "too many requests", "temporarily unavailable", "timeout", "timed out", "try again",
          "overloaded"].any (contains (toAsciiLowercase failure.message)))

end CallError

/-! ## Limits -/

def basisPointsDenominator : Nat := 10000

/-- What the operator allows, whatever the node says. -/
structure Limits where
  maxInputBytes : Nat
  gasLimitMarginBasisPoints : UInt32
  maxGasLimit : UInt64
  maxFeePerGas : Wei
  maxPriorityFeePerGas : Wei
  maxTotalFee : Wei
  input_pos : 0 < maxInputBytes
  margin_le : gasLimitMarginBasisPoints.toNat ≤ basisPointsDenominator
  gas_pos : maxGasLimit ≠ 0
  fee_pos : maxFeePerGas ≠ 0
  total_pos : maxTotalFee ≠ 0
  priority_le : maxPriorityFeePerGas ≤ maxFeePerGas

namespace Limits

def new (maxInputBytes : Nat) (gasLimitMarginBasisPoints : UInt32) (maxGasLimit : UInt64)
    (maxFeePerGas maxPriorityFeePerGas maxTotalFee : Wei) : Except BuildError Limits :=
  if hinput : maxInputBytes = 0 then
    .error (.invalid "Ethereum RPC maximum transaction input size must be greater than zero")
  else if hmargin : basisPointsDenominator < gasLimitMarginBasisPoints.toNat then
    .error (.invalid "Ethereum RPC gas-limit margin must not exceed 10000 basis points")
  else if hgas : maxGasLimit = 0 then
    .error (.invalid "Ethereum RPC maximum gas limit must be greater than zero")
  else if hfee : maxFeePerGas = 0 ∨ maxTotalFee = 0 then
    .error (.invalid "Ethereum RPC fee ceilings must be greater than zero")
  else if hpriority : maxFeePerGas < maxPriorityFeePerGas then
    .error (.invalid "Ethereum RPC priority-fee ceiling must not exceed the max-fee ceiling")
  else .ok
    { maxInputBytes, gasLimitMarginBasisPoints, maxGasLimit, maxFeePerGas, maxPriorityFeePerGas, maxTotalFee
      input_pos := Nat.pos_of_ne_zero hinput
      margin_le := Nat.le_of_not_lt hmargin
      gas_pos := hgas
      fee_pos := fun h => hfee (.inl h)
      total_pos := fun h => hfee (.inr h)
      priority_le := Fin.not_lt.mp hpriority }

/-- The margin alone, rounded up. -/
def gasMargin (limits : Limits) (estimated : UInt64) : Nat :=
  (estimated.toNat * limits.gasLimitMarginBasisPoints.toNat + (basisPointsDenominator - 1)) / basisPointsDenominator

/-- The product is a 128-bit number, the margin and the sum are 64-bit ones. -/
def gasLimitWithMargin (limits : Limits) (estimated : UInt64) : Except SourceError UInt64 :=
  if 2 ^ 128 ≤ estimated.toNat * limits.gasLimitMarginBasisPoints.toNat then
    .error (invalidRpcResponse "eth_estimateGas" "gas margin overflowed")
  else if 2 ^ 64 ≤ limits.gasMargin estimated then
    .error (invalidRpcResponse "eth_estimateGas" "gas margin exceeds u64")
  else if 2 ^ 64 ≤ estimated.toNat + limits.gasMargin estimated then
    .error (invalidRpcResponse "eth_estimateGas" "gas limit with margin exceeds u64")
  else .ok (.ofNat (estimated.toNat + limits.gasMargin estimated))

end Limits

/-! ## Tokens -/

namespace Erc20

def balanceOf (account : Address) : List UInt8 := [0x70, 0xa0, 0x82, 0x31] ++ List.replicate 12 0 ++ account

def decimals : List UInt8 := [0x31, 0x3c, 0xe5, 0x67]

def decodeBalance (word : Vector UInt8 32) : Except String Wei :=
  if h : BigEndian.number word.toList < 2 ^ 256 then .ok ⟨_, h⟩ else .error "invalid balanceOf ABI word"

def decodeDecimals (word : Vector UInt8 32) : Except String Nat :=
  if BigEndian.number word.toList < 256 then .ok (BigEndian.number word.toList)
  else .error "invalid decimals ABI word"

def decodeTransfer (word : Vector UInt8 32) : Except String Bool :=
  if BigEndian.number word.toList = 0 then .ok false
  else if BigEndian.number word.toList = 1 then .ok true
  else .error "invalid transfer ABI word"

end Erc20

/-! ## Calls -/

/-- The other crates: 256-bit integers, JSON texts, and the bytes of an envelope. -/
structure Library where
  u256 : Wire.U256Library
  string : List UInt8 → Option String
  value : List UInt8 → Option Json
  encode : Envelope → List UInt8

abbrev Node (ε α : Type) := ExceptT ε (Prog JsonRpc.clientCalls) α

def readCall : Except JsonRpc.Error JsonRpc.CallResult → Except CallError (List UInt8)
  | .error error => .error (.localError (mapJsonRpcError error))
  | .ok result => result.mapError .remote

/-- `Client::call`. -/
def call (method : String) (params : Json) : Node CallError (List UInt8) :=
  Prog.call (E := JsonRpc.clientCalls) (.request method params) fun answer => .done (readCall answer)

/-- One attempt, at one endpoint. -/
def callOnce (method : String) (params : Json) : Node CallError (List UInt8) :=
  Prog.call (E := JsonRpc.clientCalls) (.requestOnce method params) fun answer => .done (readCall answer)

def requestResult (method : String) (params : Json) : Node SourceError (List UInt8) :=
  Prog.mapError (CallError.intoSource method) (call method params)

/-- `RawJson::deserialize`. -/
def deserialize {α : Type} (decode : List UInt8 → Option α) (raw : List UInt8) : Except SourceError α :=
  match decode raw with
  | some a => .ok a
  | none => .error (mapJsonRpcError ⟨.invalidResponse, "JSON-RPC result does not match the requested type"⟩)

/-- `hex::encode_prefixed`. -/
def encodePrefixed (bytes : List UInt8) : String := String.ofList ('0' :: 'x' :: Hex.encode bytes)

/-- A text field of an object. -/
def textField (value : Json) (field : String) : Option String := do
  (← (← value.asObject).get field).asStr

variable (lib : Library)

/-! What an answer comes to. -/

def readU64 (method : String) (raw : List UInt8) : Except SourceError UInt64 := do
  let value ← deserialize lib.string raw
  (Wire.parseQuantityU64 value).mapError (invalidRpcResponse method)

def readWei (method : String) (raw : List UInt8) : Except SourceError Wei := do
  let value ← deserialize lib.string raw
  (Wire.fromQuantity lib.u256 value).mapError (invalidRpcResponse method)

/-- One ABI word. -/
def readWord (raw : List UInt8) : Except SourceError (Vector UInt8 32) := do
  let value ← deserialize lib.string raw
  (Wire.parseFixedData 32 value).mapError (invalidRpcResponse "eth_call")

def readTokenBalance (raw : List UInt8) : Except SourceError Wei := do
  let word ← readWord lib raw
  (Erc20.decodeBalance word).mapError fun _ => invalidRpcResponse "eth_call" "invalid balanceOf result"

/-- `TransactionId::from_rpc`. -/
def transactionId (method value : String) : Except SourceError TransactionId :=
  (Vector.toList <$> Wire.parseFixedData 32 value).mapError (invalidRpcResponse method)

/-! ## Chain identity -/

/-- What the adapters share. -/
structure Methods where
  expectedChainId : UInt64
  limits : Option Limits
  chain_ne : expectedChainId ≠ 0

namespace Methods

def fromClient (expectedChainId : UInt64) (limits : Option Limits) : Except BuildError Methods :=
  if h : expectedChainId = 0 then .error (.invalid "expected Ethereum chain ID must be non-zero")
  else .ok { expectedChainId, limits, chain_ne := h }

def requireLimits (m : Methods) : Except SourceError Limits :=
  match m.limits with
  | some limits => .ok limits
  | none => .error (sourceError "Ethereum transaction adapter has no construction limits" false)

def chainMessage (m : Methods) (actual : UInt64) : String :=
  s!"Ethereum RPC chain ID {actual} does not match configured chain ID {m.expectedChainId}"

end Methods

def rpcU64 (method : String) (params : Json) : Node SourceError UInt64 := do
  let raw ← requestResult method params
  Prog.ofExcept (readU64 lib method raw)

def rpcWei (method : String) (params : Json) : Node SourceError Wei := do
  let raw ← requestResult method params
  Prog.ofExcept (readWei lib method raw)

/-- The node is on the chain it was configured for. -/
def verifyChainId (m : Methods) : Node SourceError Unit := do
  let actual ← rpcU64 lib "eth_chainId" (.array [])
  Prog.ofExcept (require (actual = m.expectedChainId) (sourceError (m.chainMessage actual) false))

/-- A parameter that names one block of the canonical chain. -/
def canonicalBlock (hash : List UInt8) : Json :=
  .object [("blockHash", .string (encodePrefixed hash)), ("requireCanonical", .bool true)]

def readLatestHash (raw : List UInt8) : Except SourceError (Vector UInt8 32) := do
  let block ← deserialize lib.value raw
  match textField block "hash" with
  | none => throw (invalidRpcResponse "eth_getBlockByNumber" "latest block has no hash")
  | some hash => (Wire.parseFixedData 32 hash).mapError (invalidRpcResponse "eth_getBlockByNumber")

def latestBlock : Json := .array [.string "latest", .bool false]

def latestCanonicalParameter : Node SourceError Json := do
  let raw ← requestResult "eth_getBlockByNumber" latestBlock
  let hash ← Prog.ofExcept (readLatestHash lib raw)
  pure (canonicalBlock hash.toList)

/-! ## Accounts -/

def tokenCall (token : Address) (input : List UInt8) : Json :=
  .object [("to", .string token.text), ("data", .string (encodePrefixed input))]

def blockParameter : Option BlockRef → Except SourceError Json
  | none => .ok (.string "pending")
  | some block =>
    if block.hash.bytes.length ≠ 32 then
      .error (sourceError "Ethereum balance block hash must contain exactly 32 bytes" false)
    else .ok (canonicalBlock block.hash.bytes)

def isZero (token : Address) : Bool := token.all (· = 0)

def zeroToken : SourceError := sourceError "Ethereum ERC-20 token address must not be zero" false

def balance (address : Address) (asset : AssetKind) (position : Option BlockRef) : Node SourceError Wei := do
  let block ← Prog.ofExcept (blockParameter position)
  match asset with
  | .native => rpcWei lib "eth_getBalance" (.array [.string address.text, block])
  | .erc20 token => do
    Prog.ofExcept (require (isZero token = false) zeroToken)
    let raw ← requestResult "eth_call" (.array [tokenCall token (Erc20.balanceOf address), block])
    Prog.ofExcept (readTokenBalance lib raw)

/-- `Accounts::nonce`. -/
def nonce (address : Address) : Node SourceError UInt64 :=
  rpcU64 lib "eth_getTransactionCount" (.array [.string address.text, .string "pending"])

def erc20Word (token : Address) (input : List UInt8) (block : Json) : Node SourceError (Vector UInt8 32) := do
  let raw ← requestResult "eth_call" (.array [tokenCall token input, block])
  Prog.ofExcept (readWord lib raw)

def readCode (raw : List UInt8) : Except SourceError (List UInt8) := do
  let code ← deserialize lib.string raw
  (Wire.parseData code).mapError (invalidRpcResponse "eth_getCode")

/-- The probes of a token at one block. -/
def probeToken (token : Address) (expectedDecimals : UInt8) (block : Json) : Node SourceError Unit := do
  let raw ← requestResult "eth_getCode" (.array [.string token.text, block])
  let code ← Prog.ofExcept (readCode lib raw)
  Prog.ofExcept (require (code ≠ []) (sourceError "Ethereum ERC-20 token address has no deployed code" false))
  let word ← erc20Word lib token Erc20.decimals block
  let decimals ← Prog.ofExcept ((Erc20.decodeDecimals word).mapError fun _ =>
    invalidRpcResponse "eth_call" "invalid ERC-20 decimals result")
  Prog.ofExcept (require (decimals = expectedDecimals.toNat) (sourceError
    s!"Ethereum ERC-20 token decimals {decimals} do not match configured decimals {expectedDecimals}" false))
  let word ← erc20Word lib token (Erc20.balanceOf (List.replicate 20 0)) block
  let _ ← Prog.ofExcept ((Erc20.decodeBalance word).mapError fun _ =>
    invalidRpcResponse "eth_call" "invalid ERC-20 balanceOf result")

/-- The contract exists and has the expected decimals, all read at one block. -/
def validateToken (m : Methods) (token : Address) (expectedDecimals : UInt8) : Node SourceError Unit := do
  Prog.ofExcept (require (isZero token = false) zeroToken)
  verifyChainId lib m
  let block ← latestCanonicalParameter lib
  probeToken lib token expectedDecimals block

/-! ## Preparation -/

def verifyTransactionChainId (m : Methods) : Node ChainError Unit := do
  let actual ← Prog.mapError .fromRpc (rpcU64 lib "eth_chainId" (.array []))
  Prog.ofExcept (require (actual = m.expectedChainId) ⟨.divergent, m.chainMessage actual⟩)

/-- What the node is asked to simulate and to estimate. -/
def transactionObject (request : TransferRequest) : Json :=
  .object [("from", .string request.sender.text), ("to", .string request.target.text),
    ("value", .string (Wire.toQuantity lib.u256 request.value)), ("data", .string (encodePrefixed request.input))]

/-- The error of a call that is refused because the execution reverts. -/
def rejected (method message : String) (error : CallError) : ChainError :=
  match error.executionRevertCode with
  | some code => ⟨.rejected, s!"{message} was rejected with code {code}"⟩
  | none => .fromRpc (error.intoSource method)

def estimateGas (transaction : Json) : Node ChainError UInt64 := do
  let raw ← Prog.mapError (rejected "eth_estimateGas" "Ethereum gas estimation")
    (call "eth_estimateGas" (.array [transaction]))
  Prog.ofExcept ((readU64 lib "eth_estimateGas" raw).mapError .fromRpc)

/-- The token has to answer `true`. -/
def readTransfer (raw : List UInt8) : Except ChainError Unit := do
  let value ← (deserialize lib.string raw).mapError fun _ =>
    ⟨.rejected, "Ethereum ERC-20 transfer simulation returned an invalid JSON value"⟩
  let word ← (Wire.parseFixedData 32 value).mapError fun message =>
    ⟨.rejected, s!"Ethereum ERC-20 transfer simulation returned invalid data: {message}"⟩
  let transferred ← (Erc20.decodeTransfer word).mapError fun _ =>
    ⟨.rejected, "Ethereum ERC-20 transfer simulation returned an invalid ABI result"⟩
  require (transferred = true) ⟨.rejected, "Ethereum ERC-20 transfer simulation returned false"⟩

def simulateTokenTransfer (transaction : Json) : Node ChainError Unit := do
  let raw ← Prog.mapError (rejected "eth_call" "Ethereum ERC-20 transfer simulation")
    (call "eth_call" (.array [transaction, .string "pending"]))
  Prog.ofExcept (readTransfer lib raw)

def ensureTokenAmount (source token : Address) (amount : Wei) : Node ChainError Unit := do
  let tokenBalance ← Prog.mapError .fromRpc (balance lib source (.erc20 token) none)
  Prog.ofExcept (require (amount ≤ tokenBalance)
    ⟨.insufficientFunds, "Ethereum ERC-20 balance is insufficient for the transfer amount"⟩)

/-- The checks of a token transfer. Other transfers have none. -/
def checkToken (request : TransferRequest) : Node ChainError Unit :=
  match request.erc20Transfer with
  | none => pure ()
  | some (token, amount) => do
    ensureTokenAmount lib request.sender token amount
    simulateTokenTransfer lib (transactionObject lib request)

/-- The estimate with its margin, unless that is above the configured maximum. -/
def gasLimit (limits : Limits) (request : TransferRequest) : Node ChainError UInt64 := do
  let estimated ← estimateGas lib (transactionObject lib request)
  Prog.ofExcept (require (estimated ≠ 0)
    (.fromRpc (invalidRpcResponse "eth_estimateGas" "estimated gas limit is zero")))
  let gasLimit ← Prog.ofExcept ((limits.gasLimitWithMargin estimated).mapError .fromRpc)
  Prog.ofExcept (require (gasLimit ≤ limits.maxGasLimit)
    ⟨.feeUnavailable, "Ethereum estimated gas limit exceeds the configured ceiling"⟩)
  pure gasLimit

def priorityFee (limits : Limits) : Node ChainError Wei := do
  let fee ← Prog.mapError .fromRpc (rpcWei lib "eth_maxPriorityFeePerGas" (.array []))
  Prog.ofExcept (require (fee ≤ limits.maxPriorityFeePerGas)
    ⟨.feeUnavailable, "Ethereum priority fee exceeds the configured ceiling"⟩)
  pure fee

def readBaseFee (raw : List UInt8) : Except SourceError Wei := do
  let block ← deserialize lib.value raw
  match textField block "baseFeePerGas" with
  | none => throw (invalidRpcResponse "eth_getBlockByNumber" "latest block has no EIP-1559 baseFeePerGas")
  | some fee => (Wire.fromQuantity lib.u256 fee).mapError (invalidRpcResponse "eth_getBlockByNumber")

def baseFee : Node ChainError Wei := do
  let raw ← Prog.mapError .fromRpc (requestResult "eth_getBlockByNumber" latestBlock)
  Prog.ofExcept ((readBaseFee lib raw).mapError .fromRpc)

/-- The maximum fee of a unit of gas, and of the whole transaction. -/
def maxFees (limits : Limits) (base priority : Wei) (gasLimit : UInt64) : Except ChainError (Wei × Wei) := do
  match (base.checkedMul 2).bind (·.checkedAdd priority) with
  | none => throw (.fromRpc (invalidRpcResponse "eth_getBlockByNumber" "fee calculation overflowed U256"))
  | some maxFee =>
    require (maxFee ≤ limits.maxFeePerGas)
      ⟨.feeUnavailable, "Ethereum max fee per gas exceeds the configured ceiling"⟩
    require (priority ≤ maxFee) (.fromRpc
      (invalidRpcResponse "eth_getBlockByNumber" "calculated max fee is below the priority fee"))
    match maxFee.checkedMul gasLimit with
    | none => throw ⟨.feeUnavailable, "Ethereum maximum transaction fee overflowed U256"⟩
    | some totalFee =>
      require (totalFee ≤ limits.maxTotalFee)
        ⟨.feeUnavailable, "Ethereum maximum transaction fee exceeds the configured ceiling"⟩
      pure (maxFee, totalFee)

/-- The fee of a token transfer is paid from the native balance alone. -/
def checkFunds (request : TransferRequest) (nativeBalance totalFee : Wei) : Except ChainError Unit :=
  match request.erc20Transfer with
  | none =>
    match request.value.checkedAdd totalFee with
    | none => throw ⟨.feeUnavailable, "Ethereum transfer value plus maximum fee overflowed U256"⟩
    | some required => require (required ≤ nativeBalance)
      ⟨.insufficientFunds, "Ethereum native balance is insufficient for transfer value and maximum fee"⟩
  | some _ => require (totalFee ≤ nativeBalance)
    ⟨.insufficientFunds, "Ethereum native balance is insufficient for the ERC-20 maximum fee"⟩

/-- The sender covers the value and the fee. -/
def ensureNativeFunds (request : TransferRequest) (totalFee : Wei) : Node ChainError Unit := do
  let nativeBalance ← Prog.mapError .fromRpc (balance lib request.sender .native none)
  Prog.ofExcept (checkFunds request nativeBalance totalFee)

def buildContext (m : Methods) (request : TransferRequest) (nonce : UInt64) : Node ChainError BuildContext := do
  let limits ← Prog.ofExcept (m.requireLimits.mapError .fromRpc)
  Prog.ofExcept (require (request.input.length ≤ limits.maxInputBytes)
    ⟨.invalidTransaction, "Ethereum transaction input exceeds the configured size limit"⟩)
  verifyTransactionChainId lib m
  checkToken lib request
  let gasLimit ← gasLimit lib limits request
  let priority ← priorityFee lib limits
  let base ← baseFee lib
  let fees ← Prog.ofExcept (maxFees limits base priority gasLimit)
  ensureNativeFunds lib request fees.2
  pure ⟨m.expectedChainId, nonce, gasLimit, fees.1, priority⟩

/-! ## Submission -/

def ambiguousSubmission (id : TransactionId) (error : String) : TransactionError where
  kind := .unavailable
  message := s!"Ethereum submission outcome is ambiguous: {error}"
  ambiguousTransactionId := some id.text

/-- What the lookup of a transaction says. -/
def readKnown (expected : TransactionId) (raw : List UInt8) : Except SourceError Bool := do
  let value ← deserialize lib.value raw
  if value.isNull then pure false
  else match textField value "hash" with
    | none => throw (invalidRpcResponse "eth_getTransactionByHash" "transaction object has no hash")
    | some hash => do
      let returned ← transactionId "eth_getTransactionByHash" hash
      require (returned = expected)
        (invalidRpcResponse "eth_getTransactionByHash" "transaction object hash does not match the lookup")
      pure true

/-- Asks whether the node has the transaction. -/
def confirmKnownTransaction (expected : TransactionId) : Node SourceError Bool := do
  let raw ← requestResult "eth_getTransactionByHash" (.array [.string expected.text])
  Prog.ofExcept (readKnown lib expected raw)

/-- `Transactions::known`. -/
def known (transaction : TransactionId) : Node SourceError Bool := confirmKnownTransaction lib transaction

/-- The hash that the node answers has to be that of the envelope. -/
def readSubmitted (computed : TransactionId) (raw : List UInt8) : Except TransactionError TransactionId := do
  let value ← (deserialize lib.string raw).mapError fun error => ambiguousSubmission computed error.message
  let returned ← (transactionId "eth_sendRawTransaction" value).mapError fun error =>
    ambiguousSubmission computed error.message
  require (returned = computed) (ambiguousSubmission computed
    "Ethereum submission response hash differs from the exact signed envelope; outcome is ambiguous")
  pure returned

/-- After the node said that it has the envelope already. -/
def confirmSubmitted (computed : TransactionId) : Node TransactionError TransactionId := do
  let found ← Prog.mapError (fun error => ambiguousSubmission computed error.message)
    (confirmKnownTransaction lib computed)
  Prog.ofExcept (require (found = true) (ambiguousSubmission computed
    "Ethereum RPC reported an already-known transaction but did not expose the matching hash"))
  pure computed

/-- What follows the one attempt. -/
def settleSubmission (computed : TransactionId) : Except CallError (List UInt8) → Node TransactionError TransactionId
  | .ok raw => Prog.ofExcept (readSubmitted lib computed raw)
  | .error error =>
    if error.isAlreadyKnown then confirmSubmitted lib computed
    else throw (ambiguousSubmission computed (error.intoSource "eth_sendRawTransaction").message)

/-- Sends the envelope once. What the answer leaves open is settled by a lookup. -/
def broadcast (crypto : Crypto) (transaction : SignedTransaction) : Node TransactionError TransactionId := do
  let computed := crypto.keccak transaction.envelope
  Prog.ofExcept (require (computed = transaction.id)
    { kind := .invalidTransaction, message := "signed Ethereum envelope hash does not match its transaction ID" })
  let result ← Prog.attempt
    (callOnce "eth_sendRawTransaction" (.array [.string (encodePrefixed (lib.encode transaction.envelope))]))
  settleSubmission lib computed result

end PaymentSdk.Ethereum.Rpc
