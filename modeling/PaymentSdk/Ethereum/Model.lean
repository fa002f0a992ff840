import PaymentSdk.Base.Block
import PaymentSdk.Base.Json
import PaymentSdk.Ethereum.TransactionId

/-!
# Blocks and receipts of an Ethereum node

A block and its receipts are read from JSON. Each receipt has to be that of the transaction at its
position, and the logs of the block are numbered in order. What serde, the header decoder and the
hexadecimal parsers give is a parameter.
-/

open Checked

namespace PaymentSdk.Ethereum.Indexer

abbrev Hash := Vector UInt8 32

abbrev Account := Vector UInt8 20

inductive BlockTransactions where
  | full (values : List Json)
  | hashes
  | uncle

/-- A block as the node gives it. -/
structure RpcBlock where
  number : UInt64
  hash : Hash
  parentHash : Hash
  timestamp : UInt64
  transactions : BlockTransactions

/-- What the libraries read. The last one is `U256::from_str_radix` in base 16. -/
structure Codec where
  block : List UInt8 → Option RpcBlock
  json : List UInt8 → Option Json
  hash : String → Option Hash
  account : String → Option Account
  hexNumber : List Char → Option Wei

/-- What the interpreter reads of a transaction. -/
structure ParsedTransaction where
  hash : Hash
  sender : Account
  recipient : Option Account
  value : Wei
  index : UInt64
  deriving DecidableEq

/-- A block with its transactions, in their order. -/
structure ParsedBlock where
  reference : BlockRef
  transactions : List ParsedTransaction
  deriving DecidableEq

structure ParsedLog where
  address : Account
  topics : List Hash
  data : List UInt8
  logIndex : UInt64
  deriving DecidableEq

/-- What the interpreter reads of a receipt. -/
structure ParsedReceipt where
  transactionHash : Hash
  transactionIndex : UInt64
  succeeded : Bool
  gasUsed : UInt64
  effectiveGasPrice : Wei
  contractAddress : Option Account
  logs : List ParsedLog
  deriving DecidableEq

/-! ## Fields -/

/-- A missing value is a given error. -/
def okOr {α : Type} (message : String) : Option α → Except String α
  | none => .error message
  | some value => .ok value

@[simp]
theorem okOr_ok {α : Type} {message : String} {x : Option α} {a : α} : okOr message x = .ok a ↔ x = some a := by
  cases x <;> simp [okOr]

def requiredText (object : Json.Map) (key label : String) : Except String String :=
  okOr s!"Ethereum {label} is missing" ((object.get key).bind Json.asStr)

def requiredHash (codec : Codec) (object : Json.Map) (key label : String) : Except String Hash := do
  let value ← requiredText object key label
  okOr s!"Ethereum {label} is not a 32-byte hash" (codec.hash value)

def requiredAddress (codec : Codec) (object : Json.Map) (key label : String) : Except String Account := do
  let value ← requiredText object key label
  okOr s!"Ethereum {label} is not a 20-byte address" (codec.account value)

def optionalAddress (codec : Codec) (object : Json.Map) (key label : String) : Except String (Option Account) :=
  match object.get key with
  | some .null | none => .ok none
  | some (.string value) => do
    return some (← okOr s!"Ethereum {label} is not a 20-byte address" (codec.account value))
  | some _ => .error s!"Ethereum {label} must be an address or null"

/-- A quantity has no leading zeros. -/
def parseQuantity (codec : Codec) (value label : String) : Except String Wei :=
  match value.toList with
  | '0' :: 'x' :: digits => do
    require (digits ≠ [] ∧ ¬ (1 < Utf8.size digits ∧ digits.head? = some '0'))
      s!"Ethereum {label} is not a canonical hex quantity"
    okOr s!"Ethereum {label} exceeds 256 bits" (codec.hexNumber digits)
  | _ => .error s!"Ethereum {label} is not a hex quantity"

def requiredQuantity (codec : Codec) (object : Json.Map) (key label : String) : Except String Wei := do
  let value ← requiredText object key label
  parseQuantity codec value label

def requiredQuantityU64 (codec : Codec) (object : Json.Map) (key label : String) : Except String UInt64 := do
  let value ← requiredQuantity codec object key label
  require (value.val < 2 ^ 64) s!"Ethereum {label} exceeds u64"
  return .ofNat value.val

/-! ## Blocks -/

/-- A position in a list always fits in 64 bits where the code runs. -/
def ParsedTransaction.parse (codec : Codec) (value : Json) (position : Nat) (blockHeight : UInt64) (blockHash : Hash) :
    Except String ParsedTransaction := do
  let object ← okOr "Ethereum transaction must be an object" value.asObject
  let hash ← requiredHash codec object "hash" "transaction hash"
  let sender ← requiredAddress codec object "from" "transaction sender"
  let recipient ← optionalAddress codec object "to" "transaction recipient"
  let value ← requiredQuantity codec object "value" "transaction value"
  let index ← requiredQuantityU64 codec object "transactionIndex" "transaction index"
  require (position < 2 ^ 64) "Ethereum transaction position exceeds u64"
  require (index.toNat = position) "Ethereum transaction index does not match block order"
  require ((← requiredHash codec object "blockHash" "transaction block hash") = blockHash)
    "Ethereum transaction block hash does not match its block"
  require ((← requiredQuantityU64 codec object "blockNumber" "transaction block number") = blockHeight)
    "Ethereum transaction block number does not match its block"
  return { hash, sender, recipient, value, index }

/-- The loop over the transactions, with the hashes seen so far. -/
def parseTransactions (codec : Codec) (blockHeight : UInt64) (blockHash : Hash) (requireFull : Bool) :
    Nat → List Hash → List Json → Except String (List ParsedTransaction)
  | _, _, [] => .ok []
  | position, seen, value :: rest =>
    if requireFull = false ∧ value.asObject = none then
      parseTransactions codec blockHeight blockHash requireFull (position + 1) seen rest
    else do
      let transaction ← ParsedTransaction.parse codec value position blockHeight blockHash
      require (transaction.hash ∉ seen) "Ethereum block contains duplicate transaction hashes"
      let transactions ← parseTransactions codec blockHeight blockHash requireFull (position + 1)
        (transaction.hash :: seen) rest
      return transaction :: transactions

/-- Heights and positions are the same here. -/
def RpcBlock.reference (block : RpcBlock) : BlockRef where
  position := ⟨block.number⟩
  height := ⟨block.number⟩
  hash := ⟨block.hash.toList⟩
  parent := if block.number ≠ 0 then some ⟨⟨block.number - 1⟩, ⟨block.parentHash.toList⟩⟩ else none
  timestamp := some block.timestamp

/-- Hashes are enough, unless full transactions are required. -/
def BlockTransactions.values (requireFull : Bool) : BlockTransactions → Except String (List Json)
  | full values => .ok values
  | hashes | uncle =>
    if requireFull then .error "Ethereum full-block request returned transaction hashes only" else .ok []

def ParsedBlock.parse (codec : Codec) (raw : List UInt8) (expectedHeight : Option BlockHeight) (requireFull : Bool) :
    Except String ParsedBlock := do
  let block ← okOr "Ethereum block result does not match the RPC block shape" (codec.block raw)
  require (∀ expected ∈ expectedHeight, expected = ⟨block.number⟩)
    "Ethereum block number does not match the requested height"
  let values ← block.transactions.values requireFull
  let transactions ← parseTransactions codec block.number block.hash requireFull 0 [] values
  return { reference := block.reference, transactions }

/-! ## Receipts -/

/-- A pair of digits, as `u8::from_str_radix` reads it. -/
def dataByte (high low : UInt8) : Except String UInt8 :=
  if high < 128 ∧ low < 128 then
    (okOr "Ethereum log data is not valid hex" (fromStrRadix [Char.ofUInt8 high, Char.ofUInt8 low])).map .ofNat
  else .error "Ethereum log data is not valid hex"

/-- One byte from every two bytes of text. -/
def dataBytes : List UInt8 → Except String (List UInt8)
  | [] => .ok []
  | [_] => .error "Ethereum log data has an odd number of hex digits"
  | high :: low :: rest => do
    let byte ← dataByte high low
    let bytes ← dataBytes rest
    return byte :: bytes

def parseData (data : String) : Except String (List UInt8) :=
  match data.toByteArray.data.toList with
  | 48 :: 120 :: digits => do
    require (digits.length % 2 = 0) "Ethereum log data has an odd number of hex digits"
    dataBytes digits
  | _ => .error "Ethereum log data is not hex encoded"

def parseTopic (codec : Codec) (topic : Json) : Except String Hash := do
  let topic ← okOr "Ethereum log topic must be a hash" topic.asStr
  okOr "Ethereum log topic is not a 32-byte hash" (codec.hash topic)

/-- The identity is checked field by field, up to the first one that differs. -/
def ParsedLog.parse (codec : Codec) (value : Json) (blockHeight : UInt64) (blockHash transactionHash : Hash)
    (transactionIndex : UInt64) : Except String ParsedLog := do
  let identity := "Ethereum log identity does not match its receipt and block"
  let object ← okOr "Ethereum receipt log must be an object" value.asObject
  require ((← requiredHash codec object "blockHash" "log block hash") = blockHash) identity
  require ((← requiredQuantityU64 codec object "blockNumber" "log block number") = blockHeight) identity
  require ((← requiredHash codec object "transactionHash" "log transaction hash") = transactionHash) identity
  require ((← requiredQuantityU64 codec object "transactionIndex" "log transaction index") = transactionIndex) identity
  require ((object.get "removed").bind Json.asBool = some false) "canonical Ethereum receipt contains a removed log"
  let address ← requiredAddress codec object "address" "log address"
  let topics ← okOr "Ethereum log topics must be an array" ((object.get "topics").bind Json.asArray)
  let topics ← topics.mapM (parseTopic codec)
  let data ← okOr "Ethereum log data must be a hex byte string" ((object.get "data").bind Json.asStr)
  let data ← parseData data
  let logIndex ← requiredQuantityU64 codec object "logIndex" "log index"
  return { address, topics, data, logIndex }

/-- The log indexes that the block has had so far, and the last one. -/
structure LogOrder where
  seen : List UInt64 := []
  previous : Option UInt64 := none
  deriving DecidableEq

/-- The index is above the last one. -/
def LogOrder.Below (order : LogOrder) (index : UInt64) : Prop := ∀ previous ∈ order.previous, previous < index

instance (order : LogOrder) (index : UInt64) : Decidable (order.Below index) :=
  decidable_of_iff (order.previous.all (· < index) = true) (by simp [LogOrder.Below, Option.all_eq_true])

/-- The logs of one receipt, whose indexes go on from the previous receipt's. -/
def parseLogs (codec : Codec) (blockHeight : UInt64) (blockHash transactionHash : Hash) (transactionIndex : UInt64) :
    LogOrder → List Json → Except String (List ParsedLog × LogOrder)
  | order, [] => .ok ([], order)
  | order, value :: rest => do
    let log ← ParsedLog.parse codec value blockHeight blockHash transactionHash transactionIndex
    require (log.logIndex ∉ order.seen) "Ethereum block contains duplicate log indexes"
    require (order.Below log.logIndex) "Ethereum logs are not ordered by log index"
    let (logs, order) ← parseLogs codec blockHeight blockHash transactionHash transactionIndex
      ⟨log.logIndex :: order.seen, some log.logIndex⟩ rest
    return (log :: logs, order)

/-- Zero failed, one succeeded. -/
def parseStatus (status : Wei) : Except String Bool :=
  if status.val = 0 then .ok false
  else if status.val = 1 then .ok true
  else .error "Ethereum receipt status must be zero or one"

def ParsedReceipt.parse (codec : Codec) (raw : List UInt8) (transaction : ParsedTransaction) (position : Nat)
    (blockHeight : UInt64) (blockHash : Hash) (order : LogOrder) : Except String (ParsedReceipt × LogOrder) := do
  let value ← okOr "Ethereum receipt result is not valid JSON" (codec.json raw)
  let object ← okOr "Ethereum receipt must be an object" value.asObject
  let transactionHash ← requiredHash codec object "transactionHash" "receipt transaction"
  require (transactionHash = transaction.hash) "Ethereum receipt transaction hash does not match block order"
  let transactionIndex ← requiredQuantityU64 codec object "transactionIndex" "receipt transaction index"
  require (transactionIndex = transaction.index) "Ethereum receipt transaction index does not match block order"
  require (position < 2 ^ 64) "Ethereum receipt position exceeds u64"
  require (transactionIndex.toNat = position) "Ethereum receipt transaction index does not match block order"
  require ((← requiredHash codec object "blockHash" "receipt block hash") = blockHash)
    "Ethereum receipt block hash does not match its block"
  require ((← requiredQuantityU64 codec object "blockNumber" "receipt block number") = blockHeight)
    "Ethereum receipt block number does not match its block"
  require ((← requiredAddress codec object "from" "receipt sender") = transaction.sender)
    "Ethereum receipt sender does not match its transaction"
  require ((← optionalAddress codec object "to" "receipt recipient") = transaction.recipient)
    "Ethereum receipt recipient does not match its transaction"
  let succeeded ← parseStatus (← requiredQuantity codec object "status" "receipt status")
  let gasUsed ← requiredQuantityU64 codec object "gasUsed" "receipt gas used"
  let effectiveGasPrice ← requiredQuantity codec object "effectiveGasPrice" "receipt effective gas price"
  let contractAddress ← optionalAddress codec object "contractAddress" "receipt contract address"
  require (¬ (transaction.recipient.isSome ∧ contractAddress.isSome))
    "non-creation receipt unexpectedly contains a contract address"
  require (¬ (succeeded ∧ transaction.recipient = none ∧ transaction.value.val ≠ 0 ∧ contractAddress = none))
    "successful value-bearing contract creation has no contract address"
  let values ← okOr "Ethereum receipt logs must be an array" ((object.get "logs").bind Json.asArray)
  let (logs, order) ← parseLogs codec blockHeight blockHash transactionHash transactionIndex order values
  return ({ transactionHash, transactionIndex, succeeded, gasUsed, effectiveGasPrice, contractAddress, logs }, order)

/-- One receipt for each transaction, in the block's order. -/
def parseReceipts (codec : Codec) (blockHeight : UInt64) (blockHash : Hash) :
    Nat → LogOrder → List (List UInt8 × ParsedTransaction) → Except String (List ParsedReceipt)
  | _, _, [] => .ok []
  | position, order, (raw, transaction) :: rest => do
    let (receipt, order) ← ParsedReceipt.parse codec raw transaction position blockHeight blockHash order
    let receipts ← parseReceipts codec blockHeight blockHash (position + 1) order rest
    return receipt :: receipts

/-- `try_into` of an array. -/
def toVector (n : Nat) (bytes : List UInt8) : Option (Vector UInt8 n) :=
  if h : bytes.toArray.size = n then some ⟨bytes.toArray, h⟩ else none

def ParsedReceipt.parseAll (codec : Codec) (rawReceipts : List (List UInt8)) (block : ParsedBlock) :
    Except String (List ParsedReceipt) := do
  require (rawReceipts.length = block.transactions.length) "Ethereum receipt count does not match transaction count"
  let blockHash ← okOr "Ethereum block hash is not 32 bytes" (toVector 32 block.reference.hash.bytes)
  parseReceipts codec block.reference.height.val blockHash 0 {} (rawReceipts.zip block.transactions)

/-! ## What is accepted -/

variable {codec : Codec} {blockHeight : UInt64} {blockHash : Hash}

theorem parseTransactions_nodup {requireFull : Bool} {position : Nat} {seen : List Hash} {values : List Json}
    {transactions : List ParsedTransaction}
    (h : parseTransactions codec blockHeight blockHash requireFull position seen values = .ok transactions) :
    (transactions.map (·.hash)).Nodup ∧ ∀ t ∈ transactions, t.hash ∉ seen := by
  induction values generalizing position seen transactions with
  | nil =>
    cases h
    simp
  | cons value rest ih =>
    unfold parseTransactions at h
    split_ifs at h with hskip
    · exact ih h
    · simp only [bind_ok, require_ok, pure_ok] at h
      obtain ⟨transaction, -, _, hfresh, transactions, hrest, rfl⟩ := h
      obtain ⟨hnodup, hseen⟩ := ih hrest
      refine ⟨?_, ?_⟩
      · rw [List.map_cons, List.nodup_cons, List.mem_map]
        refine ⟨?_, hnodup⟩
        rintro ⟨t, ht, heq⟩
        exact hseen t ht (heq ▸ List.mem_cons_self)
      · rw [List.forall_mem_cons]
        exact ⟨hfresh, fun t ht hmem => hseen t ht (List.mem_cons_of_mem _ hmem)⟩

theorem parseBlock_nodup {raw : List UInt8} {expectedHeight : Option BlockHeight} {requireFull : Bool}
    {block : ParsedBlock} (h : ParsedBlock.parse codec raw expectedHeight requireFull = .ok block) :
    (block.transactions.map (·.hash)).Nodup := by
  simp only [ParsedBlock.parse, bind_ok, okOr_ok, require_ok, pure_ok] at h
  obtain ⟨rpc, -, _, -, values, -, transactions, htransactions, rfl⟩ := h
  exact (parseTransactions_nodup htransactions).1

/-- **Run.** Logs are in order, above what came before and below what comes after. -/
theorem parseLogs_ordered {transactionHash : Hash} {transactionIndex : UInt64} {order order' : LogOrder}
    {values : List Json} {logs : List ParsedLog}
    (h : parseLogs codec blockHeight blockHash transactionHash transactionIndex order values = .ok (logs, order')) :
    (logs.map (·.logIndex)).Pairwise (· < ·) ∧ (∀ log ∈ logs, order.Below log.logIndex) ∧
      ∀ index, order'.Below index → order.Below index ∧ ∀ log ∈ logs, log.logIndex < index := by
  induction values generalizing order logs with
  | nil =>
    cases h
    simp
  | cons value rest ih =>
    simp only [parseLogs, bind_ok, require_ok, pure_ok, Prod.mk.injEq] at h
    obtain ⟨log, -, _, -, _, habove, ⟨logs, _⟩, hrest, rfl, rfl⟩ := h
    obtain ⟨hsorted, hbelow, hafter⟩ := ih hrest
    refine ⟨?_, ?_, ?_⟩
    · rw [List.map_cons, List.pairwise_cons]
      refine ⟨?_, hsorted⟩
      intro index hindex
      obtain ⟨later, hlater, rfl⟩ := List.mem_map.mp hindex
      exact hbelow later hlater _ rfl
    · rw [List.forall_mem_cons]
      refine ⟨habove, ?_⟩
      intro later hlater previous hprevious
      exact UInt64.lt_trans (habove previous hprevious) (hbelow later hlater _ rfl)
    · intro index hindex
      obtain ⟨hlog, hlogs⟩ := hafter index hindex
      have hlast : log.logIndex < index := hlog _ rfl
      exact ⟨fun previous hprevious => UInt64.lt_trans (habove previous hprevious) hlast,
        List.forall_mem_cons.mpr ⟨hlast, hlogs⟩⟩

/-- A receipt that belongs to a transaction. -/
structure ReceiptOf (transaction : ParsedTransaction) (receipt : ParsedReceipt) : Prop where
  hash_eq : receipt.transactionHash = transaction.hash
  creation : transaction.recipient.isSome = true → receipt.contractAddress = none
  paid : receipt.succeeded = true → transaction.value.val ≠ 0 →
    (transaction.recipient.or receipt.contractAddress).isSome = true

theorem parseReceipt_ok {raw : List UInt8} {transaction : ParsedTransaction} {position : Nat} {order order' : LogOrder}
    {receipt : ParsedReceipt}
    (h : ParsedReceipt.parse codec raw transaction position blockHeight blockHash order = .ok (receipt, order')) :
    ReceiptOf transaction receipt ∧ (receipt.logs.map (·.logIndex)).Pairwise (· < ·) ∧
      (∀ log ∈ receipt.logs, order.Below log.logIndex) ∧
      ∀ index, order'.Below index → order.Below index ∧ ∀ log ∈ receipt.logs, log.logIndex < index := by
  simp only [ParsedReceipt.parse, bind_ok, okOr_ok, require_ok, pure_ok, Prod.mk.injEq] at h
  obtain ⟨_, -, _, -, hash, -, _, hhash, _, -, _, -, _, -, _, -, _, -, _, -, _, -, _, -, _, -, _, -, _, -, _, -, _, -,
    succeeded, -, _, -, _, -, contract, -, _, hcreation, _, hpaid, _, -, ⟨logs, _⟩, hlogs, rfl, rfl⟩ := h
  refine ⟨⟨hhash, ?_, ?_⟩, parseLogs_ordered hlogs⟩
  · intro hsome
    cases contract with
    | none => rfl
    | some address => exact absurd ⟨hsome, rfl⟩ hcreation
  · intro hsucceeded hvalue
    simp only at hsucceeded ⊢
    cases hrecipient : transaction.recipient with
    | some address => rfl
    | none =>
      cases contract with
      | some address => rfl
      | none => exact absurd ⟨hsucceeded, hrecipient, hvalue, rfl⟩ hpaid

/-- **Run.** Each transaction has its receipt, and the logs of all receipts are in order. -/
theorem parseReceipts_ok {position : Nat} {order : LogOrder} {values : List (List UInt8 × ParsedTransaction)}
    {receipts : List ParsedReceipt} (h : parseReceipts codec blockHeight blockHash position order values = .ok receipts) :
    List.Forall₂ ReceiptOf (values.map (·.2)) receipts ∧
      ((receipts.flatMap (·.logs)).map (·.logIndex)).Pairwise (· < ·) ∧
      ∀ log ∈ receipts.flatMap (·.logs), order.Below log.logIndex := by
  induction values generalizing position order receipts with
  | nil =>
    cases h
    simp
  | cons value rest ih =>
    obtain ⟨raw, transaction⟩ := value
    simp only [parseReceipts, bind_ok, pure_ok] at h
    obtain ⟨⟨receipt, next⟩, hfirst, receipts, hrest, rfl⟩ := h
    obtain ⟨hof, hsorted, hbelow, hafter⟩ := parseReceipt_ok hfirst
    obtain ⟨hall, hlater, hnext⟩ := ih hrest
    refine ⟨.cons hof hall, ?_, ?_⟩
    · rw [List.flatMap_cons, List.map_append, List.pairwise_append]
      refine ⟨hsorted, hlater, ?_⟩
      intro index hindex later hindex'
      obtain ⟨log, hlog, rfl⟩ := List.mem_map.mp hindex
      obtain ⟨log', hlog', rfl⟩ := List.mem_map.mp hindex'
      exact (hafter _ (hnext log' hlog')).2 log hlog
    · rw [List.flatMap_cons]
      intro log hlog
      obtain hlog | hlog := List.mem_append.mp hlog
      · exact hbelow log hlog
      · exact (hafter _ (hnext log hlog)).1

theorem parseAll_ok {rawReceipts : List (List UInt8)} {block : ParsedBlock} {receipts : List ParsedReceipt}
    (h : ParsedReceipt.parseAll codec rawReceipts block = .ok receipts) :
    List.Forall₂ ReceiptOf block.transactions receipts ∧
      ((receipts.flatMap (·.logs)).map (·.logIndex)).Pairwise (· < ·) := by
  simp only [ParsedReceipt.parseAll, bind_ok, okOr_ok, require_ok] at h
  obtain ⟨_, hlen, hash, -, h⟩ := h
  obtain ⟨hall, hsorted, -⟩ := parseReceipts_ok h
  rw [List.map_snd_zip (Nat.le_of_eq hlen.symm)] at hall
  exact ⟨hall, hsorted⟩

end PaymentSdk.Ethereum.Indexer
