import PaymentSdk.Base.Atomic
import PaymentSdk.Ethereum.Model
import PaymentSdk.Indexing.BlockAddition

/-!
# Interpreting an Ethereum block

A successful transaction moves its native value and what its Transfer-shaped logs say. It is
recorded when a selected address sent it, received it, was created by it or takes part in a
movement.
-/

open Checked

namespace PaymentSdk.Ethereum.Indexer

/-! ## Texts -/

def hexText {n : Nat} (bytes : Vector UInt8 n) (h : n ≤ 64) : Text :=
  Text.ofString (String.ofList ('0' :: 'x' :: Hex.encode bytes.toList)) (by
    rw [String.toList_ofList, List.length_cons, List.length_cons, Hex.length_encode, Vector.length_toList]
    omega)

def accountText (a : Account) : Text := hexText a (by decide)

def hashText (hash : Hash) : Text := hexText hash (by decide)

def canonicalAccount (scope : IndexScope) (a : Account) : CanonicalAddress := ⟨scope, accountText a⟩

def canonicalHash (scope : IndexScope) (hash : Hash) : TransactionRef := ⟨scope, hashText hash⟩

def chainId : ChainId := ⟨.lit "ethereum" (Eq.refl true)⟩

def nativeAsset : AssetId := ⟨chainId, .lit "native" (Eq.refl true)⟩

def atomicDecimal (value : Nat) : Decimal := .fromAtomic value 0

/-! ## Movements -/

def transferTopic : Hash := #v[
  0xdd, 0xf2, 0x52, 0xad, 0x1b, 0xe2, 0xc8, 0x9b, 0x69, 0xc2, 0xb0, 0x68, 0xfc, 0x37, 0x8d, 0xaa,
  0x95, 0x2b, 0xa7, 0xf1, 0x63, 0xc4, 0xa1, 0x16, 0x28, 0xf5, 0x5a, 0x4d, 0xf5, 0x23, 0xb3, 0xef]

def zeroAddress : Account := .replicate 20 0

def valueId (hash : Hash) : MovementId := ⟨(hashText hash).str ++ ":value"⟩

def logId (hash : Hash) (logIndex : UInt64) : MovementId := ⟨(hashText hash).str ++ ":" ++ toString logIndex⟩

def invalidBlock (message : String) : IndexError := ⟨.invalidBlock, message, false⟩

/-- Zero bytes, and the address after them. -/
def ParsedLog.isPadded (topic : Hash) : Bool := topic.toList.take 12 = List.replicate 12 0

def ParsedLog.tail (topic : Hash) : Account := ⟨(topic.toList.drop 12).toArray, by simp⟩

/-- A zero address on one side is a mint or a burn. -/
def tokenMovement (scope : IndexScope) (id : MovementId) (asset : AssetId) (amount : Decimal)
    (source destination : Account) : Option ValueMovement :=
  if source = zeroAddress then
    if destination ≠ zeroAddress then some (.mint id asset amount (canonicalAccount scope destination)) else none
  else if destination = zeroAddress then some (.burn id asset amount (canonicalAccount scope source))
  else some (.transfer id asset amount (canonicalAccount scope source) (canonicalAccount scope destination))

def ParsedLog.movement (log : ParsedLog) (hash : Hash) (scope : IndexScope) : Option ValueMovement :=
  match log.topics with
  | [signature, source, destination] =>
    if signature ≠ transferTopic ∨ log.data.length ≠ 32 ∨ isPadded source = false ∨ isPadded destination = false then
      none
    else tokenMovement scope (logId hash log.logIndex) ⟨chainId, accountText log.address⟩
      (atomicDecimal (BigEndian.number log.data)) (tail source) (tail destination)
  | _ => none

/-- A call that moves no value moves nothing. -/
def nativeMovement (scope : IndexScope) (transaction : ParsedTransaction) (receipt : ParsedReceipt) :
    Except IndexError (List ValueMovement) :=
  if transaction.value.val = 0 then .ok []
  else match transaction.recipient.or receipt.contractAddress with
    | none => .error (invalidBlock "successful value-bearing Ethereum transaction has no recipient")
    | some recipient => .ok [.transfer (valueId transaction.hash) nativeAsset (atomicDecimal transaction.value.val)
        (canonicalAccount scope transaction.sender) (canonicalAccount scope recipient)]

/-- The value of the call, and every transfer its logs tell of. -/
def successfulMovements (scope : IndexScope) (transaction : ParsedTransaction) (receipt : ParsedReceipt) :
    Except IndexError (List ValueMovement) := do
  let native ← nativeMovement scope transaction receipt
  return native ++ receipt.logs.filterMap (·.movement transaction.hash scope)

/-! ## The interpreter -/

/-- The interpreter of one Ethereum network. -/
structure BlockInterpreter where
  scope : IndexScope
  chain_eq : scope.chain = chainId

def BlockInterpreter.new (scope : IndexScope) : Except IndexError BlockInterpreter :=
  if h : scope.chain ≠ chainId then
    .error ⟨.scopeMismatch, "Ethereum interpreter scope must use the ethereum chain ID", false⟩
  else if scope.network.str.toList.all Decimal.isWhitespace then
    .error ⟨.scopeMismatch, "Ethereum interpreter network slug must not be empty", false⟩
  else .ok ⟨scope, not_not.mp h⟩

/-- A block with its raw text and that of its receipts. -/
structure Block where
  reference : BlockRef
  rawBlock : List UInt8
  rawReceipts : List (List UInt8)

/-- Only a canonical Ethereum address has an account. -/
def parseCanonicalAddress (codec : Codec) (address : CanonicalAddress) : Except IndexError Account :=
  if address.scope.chain ≠ chainId then .error (invalidBlock "Ethereum movement contains a foreign-chain address")
  else match codec.account address.value.str with
    | none => .error (invalidBlock "Ethereum movement contains a malformed canonical address")
    | some account => .ok account

/-- Both ends of every movement. -/
def endpoints (movements : List ValueMovement) : List CanonicalAddress :=
  movements.flatMap fun m => m.fromAddress.toList ++ m.toAddress.toList

/-- An ordered set in the source. Only membership is asked of it. -/
def touchedAddresses (codec : Codec) (transaction : ParsedTransaction) (receipt : ParsedReceipt)
    (movements : List ValueMovement) : Except IndexError (List Account) := do
  let moved ← (endpoints movements).mapM (parseCanonicalAddress codec)
  return transaction.sender :: transaction.recipient.toList ++ receipt.contractAddress.toList ++ moved

/-- The loop stops at the first address that is touched. -/
def matchesAny (codec : Codec) (scope : IndexScope) (touched : List Account) :
    List CanonicalAddress → Except IndexError Bool
  | [] => .ok false
  | address :: rest => do
    require (address.belongsTo scope = true)
      (⟨.scopeMismatch, "Ethereum address filter belongs to a different scope", false⟩ : IndexError)
    let account ← parseCanonicalAddress codec address
    if account ∈ touched then return true else matchesAny codec scope touched rest

/-- Some selected address was touched. -/
def matchesAddress (codec : Codec) (scope : IndexScope) (transaction : ParsedTransaction) (receipt : ParsedReceipt)
    (movements : List ValueMovement) (addresses : List CanonicalAddress) : Except IndexError Bool := do
  let touched ← touchedAddresses codec transaction receipt movements
  matchesAny codec scope touched addresses

def draft (scope : IndexScope) (transaction : ParsedTransaction) (receipt : ParsedReceipt)
    (movements : List ValueMovement) (fee : Nat) : ObservationDraft where
  scope
  transactionId := canonicalHash scope transaction.hash
  status := if receipt.succeeded then .included else .failed (some "ethereum receipt status is zero")
  movements
  fee := some ⟨nativeAsset, atomicDecimal fee, some (canonicalAccount scope transaction.sender)⟩

def feeAmount (receipt : ParsedReceipt) : Except IndexError Wei :=
  match receipt.effectiveGasPrice.checkedMul receipt.gasUsed with
  | none => .error (invalidBlock "Ethereum receipt fee exceeds 256-bit atomic units")
  | some fee => .ok fee

/-- A reverted transaction moves nothing. -/
def movementsOf (scope : IndexScope) (transaction : ParsedTransaction) (receipt : ParsedReceipt) :
    Except IndexError (List ValueMovement) :=
  if receipt.succeeded then successfulMovements scope transaction receipt else .ok []

/-- One turn of the loop. -/
def inspectTransaction (codec : Codec) (scope : IndexScope) (addresses : List CanonicalAddress)
    (p : ParsedTransaction × ParsedReceipt) : Except IndexError (Option ObservationDraft) := do
  let fee ← feeAmount p.2
  let movements ← movementsOf scope p.1 p.2
  let touches ← matchesAddress codec scope p.1 p.2 movements addresses
  return if touches then some (draft scope p.1 p.2 movements fee.val) else none

def inspect (codec : Codec) (interpreter : BlockInterpreter) (block : Block) (addresses : List CanonicalAddress) :
    Except IndexError InterpretedBlock := do
  let parsed ← (ParsedBlock.parse codec block.rawBlock (some block.reference.height) true).mapError invalidBlock
  require (parsed.reference = block.reference)
    (invalidBlock "retained Ethereum block reference does not match its raw payload")
  let receipts ← (ParsedReceipt.parseAll codec block.rawReceipts parsed).mapError invalidBlock
  let transactions ← (parsed.transactions.zip receipts).mapM (inspectTransaction codec interpreter.scope addresses)
  return { block := block.reference, transactions := transactions.reduceOption, outputs := {} }

end PaymentSdk.Ethereum.Indexer
