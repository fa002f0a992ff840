import PaymentSdk.Bitcoin.Block
import PaymentSdk.Wallets.Sender

/-!
# The Bitcoin block source

A node gives a block without the outputs that its inputs spend. The source asks for the
transactions outside the block that made them, and writes their values and addresses into the
JSON that is parsed. What it asks for in parallel is asked for in turn here: only which of
several errors is reported depends on that.
-/

namespace PaymentSdk.Bitcoin.Indexer

open Json (Map)

def orSource {α : Type} (message : String) (retryable : Bool) : Option α → Except SourceError α
  | none => .error ⟨message, retryable⟩
  | some value => .ok value

def sourced {α : Type} : Except String α → Except SourceError α
  | .error message => .error ⟨message, true⟩
  | .ok value => .ok value

/-- What the node answers while one block is fetched. `hashAt` is read twice. -/
structure Node where
  firstHash : Except SourceError (Option BlockHash)
  secondHash : Except SourceError (Option BlockHash)
  block : Except SourceError (Option Json)
  previous : TransactionId → Except SourceError (Option Json)

/-! ## Consensus data -/

def decodeConsensusTransaction (lib : Library) (object : Map) (expectedId : TransactionId) :
    Except SourceError NativeTransaction := do
  let hex ← sourced (requiredString object "hex" "Bitcoin raw transaction")
  let raw ← orSource "Bitcoin transaction hex is invalid" true (lib.fromHex hex)
  let transaction ← orSource "Bitcoin transaction consensus bytes are invalid" true (lib.deserialize raw)
  if transaction.txid ≠ expectedId then
    .error ⟨"Bitcoin transaction ID does not match its consensus bytes", true⟩
  else .ok transaction

/-- What the node says of an input has to agree with the transaction itself. -/
def validateInputClaim (lib : Library) (transaction : NativeTransaction) (input : Json)
    (native : Outpoint) (index : Nat) : Except SourceError Unit := do
  let object ← orSource "Bitcoin transaction input must be an object" true input.asObject
  if native.isNull then
    if !transaction.isCoinbase || ((object.get "coinbase").bind Json.asStr).isNone then
      .error ⟨"Bitcoin null input is not a valid coinbase input", true⟩
    else .ok ()
  else do
    let text ← sourced (requiredString object "txid" "Bitcoin input previous transaction ID")
    let previousId ← orSource "Bitcoin input previous transaction ID is invalid" true (lib.parseId text)
    let outputIndex ← sourced (requiredU32 object "vout" "Bitcoin input output index")
    if native ≠ ⟨previousId, outputIndex⟩ then
      .error ⟨"Bitcoin input " ++ toString index ++ " outpoint does not match its consensus bytes", true⟩
    else .ok ()

def validateInputClaims (lib : Library) (object : Map) (transaction : NativeTransaction) :
    Except SourceError Unit := do
  let inputs ← orSource "Bitcoin transaction inputs must be an array" true
    ((object.get "vin").bind Json.asArray)
  if inputs.length ≠ transaction.input.length then
    .error ⟨"Bitcoin transaction input count does not match its consensus bytes", true⟩
  else
    (inputs.zip transaction.input).zipIdx.forM fun ((input, native), index) =>
      validateInputClaim lib transaction input native index

/-- The first loop of `enrich_prevouts`, with the ids seen so far. -/
def decodeAll (lib : Library) : List TransactionId → List Json → Except SourceError (List NativeTransaction)
  | _, [] => .ok []
  | ids, value :: rest => do
    let object ← orSource "Bitcoin block transaction must be an object" true value.asObject
    let text ← sourced (requiredString object "txid" "Bitcoin block transaction ID")
    let id ← orSource "Bitcoin block transaction ID is invalid" true (lib.parseId text)
    let transaction ← decodeConsensusTransaction lib object id
    validateInputClaims lib object transaction
    if id ∈ ids then .error ⟨"Bitcoin block contains duplicate transaction IDs", true⟩
    else do
      let transactions ← decodeAll lib (id :: ids) rest
      return transaction :: transactions

/-! ## Required previous outputs -/

def maxExternalPrevoutsPerBlock : Nat := 25000

def maxCompactAddressBytes : Nat := 128

def maxCompactPrevoutJsonBytes : Nat := 192

def maxCompactPrevoutTotalBytes : Nat := maxExternalPrevoutsPerBlock * maxCompactPrevoutJsonBytes

/-- The outputs of one transaction, by position. -/
def NativeTransaction.outpoints (t : NativeTransaction) : List Outpoint :=
  (List.range t.output.length).map fun index => ⟨t.txid, UInt32.ofNat index⟩

/-- `RequiredPrevouts`: the outpoints to ask for, in the order they were met. -/
def recordPrevout (required : List Outpoint) (outpoint : Outpoint) : Except SourceError (List Outpoint) :=
  if outpoint ∈ required then
    .error ⟨"Bitcoin block spends the same external outpoint more than once", false⟩
  else if maxExternalPrevoutsPerBlock ≤ required.length then
    .error ⟨"Bitcoin block exceeds the " ++ toString maxExternalPrevoutsPerBlock ++
      " external-prevout safety bound", false⟩
  else .ok (required ++ [outpoint])

/-- Notes an input that spends from outside the block. A later transaction's output is an error. -/
def observe (earlier : List Outpoint) (ids : List TransactionId) (required : List Outpoint)
    (input : Outpoint) : Except SourceError (List Outpoint) :=
  if input.isNull then .ok required
  else if input ∈ earlier then .ok required
  else if input.transactionId ∈ ids then
    .error ⟨"Bitcoin block transaction spends an output that was not created earlier in the block", true⟩
  else recordPrevout required input

/-- The second loop of `enrich_prevouts`. -/
def requiredPrevouts (ids : List TransactionId) :
    List Outpoint → List Outpoint → List NativeTransaction → Except SourceError (List Outpoint)
  | _, required, [] => .ok required
  | earlier, required, t :: rest => do
    let required ← t.input.foldlM (observe earlier ids) required
    if 2 ^ 32 < t.output.length then .error ⟨"Bitcoin block output index exceeds u32", true⟩
    else requiredPrevouts ids (t.outpoints ++ earlier) required rest

/-! ## Resolved outputs -/

/-- The facts of an output that the node was asked for. -/
structure ResolvedOutput where
  valueSatoshis : UInt64
  address : Option Address
  deriving DecidableEq

def validateCompactPrevout (address : Address) : Except SourceError Unit :=
  if maxCompactAddressBytes < address.encoded.str.utf8ByteSize ∨
      ¬ address.encoded.str.toList.all Char.isAlphanum then
    .error ⟨"Bitcoin canonical prevout address exceeds the compact data bound", false⟩
  else .ok ()

/-- The address is short, so the JSON stays below its bound. -/
def ResolvedOutput.compactJson (output : ResolvedOutput) : Except SourceError Json := do
  output.address.toList.forM validateCompactPrevout
  return .object
    [("value_satoshis", .number (toString output.valueSatoshis.toNat) (some output.valueSatoshis)),
     ("address", match output.address with
       | none => .null
       | some address => .string address.encoded.str)]

def resolveOutput (lib : Library) (transaction : NativeTransaction) (outputIndex : UInt32) :
    Except SourceError ResolvedOutput := do
  let output ← orSource ("Bitcoin previous transaction " ++ transaction.txid.text.str ++ " has no output " ++
    toString outputIndex.toNat) true transaction.output[outputIndex.toNat]?
  let address := lib.fromScript output.scriptPubkey
  address.toList.forM validateCompactPrevout
  return ⟨output.value, address⟩

/-- Asks the node for a transaction and checks that it is the one asked for. -/
def previousTransaction (lib : Library) (node : Node) (id : TransactionId) :
    Except SourceError NativeTransaction := do
  let raw ← node.previous id
  let value ← orSource ("Bitcoin previous transaction " ++ id.text.str ++
    " disappeared during block ingestion") true raw
  let object ← orSource "Bitcoin getrawtransaction result must be an object" true value.asObject
  let text ← sourced (requiredString object "txid" "Bitcoin previous transaction ID")
  let returnedId ← orSource "Bitcoin previous transaction ID is invalid" true (lib.parseId text)
  if returnedId ≠ id then
    .error ⟨"Bitcoin previous-transaction lookup returned a different transaction ID", true⟩
  else do
    let transaction ← decodeConsensusTransaction lib object id
    let confirmed ← sourced (requiredString object "blockhash" "Bitcoin previous transaction block hash")
    let _ ← orSource "Bitcoin RPC returned an invalid block hash" true (lib.parseBlockHash confirmed)
    return transaction

abbrev Resolved := List (Outpoint × ResolvedOutput)

/-- One request for each transaction, for all of its outputs that are required. -/
def resolveOutputs (lib : Library) (node : Node) (required : List Outpoint) (id : TransactionId) :
    Except SourceError Resolved := do
  let transaction ← previousTransaction lib node id
  (required.filter (·.transactionId = id)).mapM fun outpoint => do
    let output ← resolveOutput lib transaction outpoint.outputIndex
    return (outpoint, output)

/-- Resolves every external outpoint, each transaction asked for once. -/
def resolveAll (lib : Library) (node : Node) (required : List Outpoint) : Except SourceError Resolved := do
  let groups ← (required.map (·.transactionId)).dedup.mapM (resolveOutputs lib node required)
  return groups.flatten

/-! ## Enrichment -/

/-- Adds the resolved output where the block itself has none. -/
def enrichInput (resolved : Resolved) (earlier : List Outpoint) (input : Json) (native : Outpoint) :
    Except SourceError Json :=
  if native.isNull then .ok input
  else do
    let object ← orSource "Bitcoin transaction input must be an object" true input.asObject
    -- Verbosity 2 has no such field; any that is there is dropped.
    let object := object.remove "prevout"
    if native ∈ earlier then .ok (.object object)
    else do
      let output ← orSource (if native.transactionId ∈ resolved.map (·.1.transactionId) then
          "Bitcoin external previous output was not resolved"
        else "Bitcoin external previous transaction was not resolved") true (resolved.lookup native)
      let prevout ← output.compactJson
      return .object (object.insert "prevout" prevout)

/-- The third loop of `enrich_prevouts`. -/
def enrichAll (resolved : Resolved) :
    List Outpoint → List (NativeTransaction × Json) → Except SourceError (List Json)
  | _, [] => .ok []
  | earlier, (t, value) :: rest => do
    let object ← orSource "Bitcoin transaction inputs must be an array" true value.asObject
    let inputs ← orSource "Bitcoin transaction inputs must be an array" true
      ((object.get "vin").bind Json.asArray)
    let enriched ← (inputs.zip t.input).mapM fun (input, native) => enrichInput resolved earlier input native
    let values ← enrichAll resolved (t.outpoints ++ earlier) rest
    return .object (object.insert "vin" (.array (enriched ++ inputs.drop t.input.length))) :: values

def enrichPrevouts (lib : Library) (node : Node) (value : Json) : Except SourceError Json := do
  let object ← orSource "Bitcoin block transactions must be an array" true value.asObject
  let values ← orSource "Bitcoin block transactions must be an array" true
    ((object.get "tx").bind Json.asArray)
  let transactions ← decodeAll lib [] values
  let required ← requiredPrevouts (transactions.map (·.txid)) [] [] transactions
  if maxCompactPrevoutTotalBytes < required.length * maxCompactPrevoutJsonBytes then
    .error ⟨"Bitcoin compact prevout data exceeds its aggregate bound", false⟩
  else do
    let resolved ← resolveAll lib node required
    let enriched ← enrichAll resolved [] (transactions.zip values)
    return .object (object.insert "tx" (.array enriched))

def hashAt (answer : Except SourceError (Option BlockHash)) : Except SourceError BlockHash := do
  let hash ← answer
  orSource "Bitcoin canonical height changed while its hash was being read" true hash

/-- One block with everything its inputs spend. -/
def fetchBlock (lib : Library) (node : Node) (height : BlockHeight) : Except SourceError Block := do
  let firstHash ← hashAt node.firstHash
  let answer ← node.block
  let raw ← orSource "Bitcoin Core no longer exposes the requested block" true answer
  let enriched ← enrichPrevouts lib node raw
  let block ← sourced (Block.parse lib enriched (some height) (some firstHash))
  let secondHash ← hashAt node.secondHash
  if firstHash ≠ secondHash then
    .error ⟨"Bitcoin canonical block changed while it was being fetched", true⟩
  else .ok block

/-! ## Completion orders -/

/-- The answers in the order they arrive. The first error ends the loop. -/
def resolveIn (lib : Library) (node : Node) (required : List Outpoint) (order : List TransactionId) :
    Except SourceError Resolved := do
  let groups ← order.mapM (resolveOutputs lib node required)
  return groups.flatten

/-- `enrich_prevouts`, where the requests complete in any order of the ids that are asked for. -/
def enrichIn (lib : Library) (node : Node) (order : List TransactionId → List TransactionId) (value : Json) :
    Except SourceError Json := do
  let object ← orSource "Bitcoin block transactions must be an array" true value.asObject
  let values ← orSource "Bitcoin block transactions must be an array" true
    ((object.get "tx").bind Json.asArray)
  let transactions ← decodeAll lib [] values
  let required ← requiredPrevouts (transactions.map (·.txid)) [] [] transactions
  if maxCompactPrevoutTotalBytes < required.length * maxCompactPrevoutJsonBytes then
    .error ⟨"Bitcoin compact prevout data exceeds its aggregate bound", false⟩
  else do
    let resolved ← resolveIn lib node required (order (required.map (·.transactionId)).dedup)
    let enriched ← enrichAll resolved [] (transactions.zip values)
    return .object (object.insert "tx" (.array enriched))

theorem enrichPrevouts_eq (lib : Library) (node : Node) : enrichPrevouts lib node = enrichIn lib node id := rfl

end PaymentSdk.Bitcoin.Indexer
