import PaymentSdk.Base.Json
import PaymentSdk.Indexing.BlockAddition
import PaymentSdk.Lib.Hex
import PaymentSdk.Lib.Word

/-!
# Bitcoin blocks

A block is parsed from the JSON of a node, and every field that consensus fixes is compared
with the consensus bytes. What the Bitcoin library computes, for one network, is a parameter.
-/

namespace PaymentSdk.Bitcoin

def chainId : ChainId := ⟨.lit "bitcoin" (Eq.refl true)⟩

def nativeAsset : AssetId := ⟨chainId, .lit "native" (Eq.refl true)⟩

namespace Indexer

/-! ## Native values -/

/-- A transaction id in its internal byte order. -/
structure TransactionId where
  bytes : List UInt8
  size : bytes.length = 32
  deriving DecidableEq

theorem TransactionId.ext {a b : TransactionId} (h : a.bytes = b.bytes) : a = b := by
  cases a; cases b; congr

/-- Hexadecimal in reverse, as nodes display it. -/
def TransactionId.text (id : TransactionId) : Text :=
  Text.ofString (String.ofList (Hex.encode id.bytes.reverse)) (by
    rw [String.toList_ofList, Hex.length_encode, List.length_reverse, id.size]
    decide)

/-- An output of an earlier transaction. -/
structure Outpoint where
  transactionId : TransactionId
  outputIndex : UInt32
  deriving DecidableEq

/-- The outpoint of a coinbase input. -/
def Outpoint.isNull (o : Outpoint) : Bool :=
  o.transactionId.bytes.all (· = 0) && decide (o.outputIndex = 0xffffffff)

/-- An address is its encoded text. -/
structure Address where
  encoded : Text
  deriving DecidableEq

structure NativeOutput where
  value : UInt64
  scriptPubkey : List UInt8
  deriving DecidableEq

/-- A decoded consensus transaction, with the id that it has. -/
structure NativeTransaction where
  txid : TransactionId
  input : List Outpoint
  output : List NativeOutput
  deriving DecidableEq

def NativeTransaction.isCoinbase (t : NativeTransaction) : Bool :=
  match t.input with
  | [outpoint] => outpoint.isNull
  | _ => false

/-- The functions of the Bitcoin library that the indexer calls, for its network. -/
structure Library where
  parseId : String → Option TransactionId
  parseBlockHash : String → Option (List UInt8)
  fromHex : String → Option (List UInt8)
  deserialize : List UInt8 → Option NativeTransaction
  fromScript : List UInt8 → Option Address
  parseAddress : String → Option Address
  scriptPubkey : Address → Option (List UInt8)

/-- Version zero, twenty bytes. -/
def isP2wpkh : List UInt8 → Bool
  | 0x00 :: 0x14 :: program => decide (program.length = 20)
  | _ => false

/-- Version one, thirty-two bytes. -/
def isP2tr : List UInt8 → Bool
  | 0x51 :: 0x20 :: program => decide (program.length = 32)
  | _ => false

/-! ## Blocks -/

/-- What an input spends, once it has been resolved. -/
structure PreviousOutput where
  outpoint : Outpoint
  value : UInt64
  address : Option Address
  deriving DecidableEq

/-- An input. That of a coinbase spends nothing. -/
structure Input where
  previousOutput : Option PreviousOutput
  deriving DecidableEq

structure Output where
  value : UInt64
  scriptPubkey : List UInt8
  deriving DecidableEq

structure Transaction where
  id : TransactionId
  inputs : List Input
  outputs : List Output
  coinbase : Bool
  deriving DecidableEq

structure Block where
  reference : BlockRef
  transactions : List Transaction
  deriving DecidableEq

/-! ## Fields -/

open Json (Map)

def requiredString (object : Map) (field context : String) : Except String String :=
  match (object.get field).bind Json.asStr with
  | none => .error (context ++ " is missing or invalid")
  | some text => if text.isEmpty then .error (context ++ " is missing or invalid") else .ok text

def requiredU64 (object : Map) (field context : String) : Except String UInt64 :=
  match (object.get field).bind Json.asU64 with
  | none => .error (context ++ " is missing or invalid")
  | some value => .ok value

def requiredU32 (object : Map) (field context : String) : Except String UInt32 := do
  let value ← requiredU64 object field context
  if value.toNat < 2 ^ 32 then .ok value.toUInt32 else .error (context ++ " exceeds u32")

def requiredBool (object : Map) (field context : String) : Except String Bool :=
  match (object.get field).bind Json.asBool with
  | none => .error (context ++ " is missing or invalid")
  | some value => .ok value

def orElse {ε α : Type} (error : ε) : Option α → Except ε α
  | none => .error error
  | some value => .ok value

theorem orElse_ok {ε α : Type} {error : ε} {o : Option α} {a : α} : orElse error o = .ok a ↔ o = some a := by
  cases o <;> simp [orElse]

def digitsValue (digits : List Char) : Nat :=
  digits.foldl (fun value c => 10 * value + (c.toNat - 48)) 0

/-- The `u64` that digits spell. -/
def parseU64 (digits : List Char) : Option UInt64 :=
  if digitsValue digits < 2 ^ 64 then some (UInt64.ofNat (digitsValue digits)) else none

def satoshisPerBitcoin : UInt64 := 100000000

/-- The satoshis of a fraction of a bitcoin. -/
def fractionalSatoshis {ε : Type} (fail : String → ε) (fraction : List Char) (context : String) :
    Except ε UInt64 :=
  if fraction = [] then .ok 0
  else do
    let value ← orElse (fail (context ++ " is invalid")) (parseU64 fraction)
    let padding := 8 - fraction.length
    if 2 ^ 32 ≤ padding then .error (fail (context ++ " precision is invalid"))
    else orElse (fail (context ++ " exceeds u64 satoshis")) (Word.checkedMul value (10 ^ padding))

/-- Bitcoins with at most eight decimals, in satoshis: the reader of blocks and that of calls
differ in their errors. -/
def fromJson {ε : Type} (fail : String → ε) (value : Json) (context : String) : Except ε UInt64 :=
  match value with
  | .number lexical _ =>
    if lexical.toList.head? = some '-' ∨ lexical.toList.any (· ∈ ['e', 'E', '+']) then
      .error (fail (context ++ " must be a non-negative fixed-point decimal"))
    else
      let parts := lexical.toList.splitOn '.'
      let whole := parts.headD []
      let fraction := parts.tail.headD []
      if 2 < parts.length ∨ whole = [] ∨ ¬ whole.all Char.isDigit ∨ ¬ fraction.all Char.isDigit ∨
          8 < fraction.length then
        .error (fail (context ++ " is not an exact Bitcoin amount"))
      else do
        let whole ← orElse (fail (context ++ " exceeds u64 satoshis")) (parseU64 whole)
        let fractional ← fractionalSatoshis fail fraction context
        orElse (fail (context ++ " exceeds u64 satoshis"))
          ((Word.checkedMul whole satoshisPerBitcoin).bind fun value => Word.checkedAdd value fractional)
  | _ => .error (fail (context ++ " must be a JSON number"))

/-- An amount in bitcoin, read exactly to the satoshi. -/
def fromBlockJson (value : Json) (context : String) : Except String UInt64 :=
  fromJson (fun message => message) value context

/-! ## Previous outputs -/

/-- The shape that nodes give at verbosity 3. -/
def PreviousOutput.parseVerbose (lib : Library) (prevout : Map) (outpoint : Outpoint)
    (spendingHeight : BlockHeight) : Except String PreviousOutput := do
  let amount ← orElse "Bitcoin prevout value is missing" (prevout.get "value")
  let value ← fromBlockJson amount "Bitcoin prevout value"
  let script ← orElse "Bitcoin prevout scriptPubKey is missing"
    ((prevout.get "scriptPubKey").bind Json.asObject)
  let hex ← orElse "Bitcoin scriptPubKey hex is missing or invalid"
    ((script.get "hex").bind Json.asStr)
  let bytes ← orElse "Bitcoin scriptPubKey hex is invalid" (lib.fromHex hex)
  let createdHeight ← requiredU64 prevout "height" "Bitcoin prevout creation height"
  if spendingHeight.val < createdHeight then
    .error "Bitcoin input previous output was created after the spending block"
  else do
    let _ ← requiredBool prevout "generated" "Bitcoin prevout coinbase flag"
    return ⟨outpoint, value, lib.fromScript bytes⟩

def PreviousOutput.parseAddress (lib : Library) : Json → Except String (Option Address)
  | .null => .ok none
  | .string text =>
    match lib.parseAddress text with
    | none => .error "Bitcoin compact prevout address is invalid or wrong-network"
    | some canonical =>
      if canonical.encoded.str ≠ text then .error "Bitcoin compact prevout address is not canonical"
      else .ok (some canonical)
  | _ => .error "Bitcoin compact prevout address fact is invalid"

/-- The shape that the source writes comes first. -/
def PreviousOutput.parse (lib : Library) (prevout : Map) (outpoint : Outpoint)
    (spendingHeight : BlockHeight) : Except String PreviousOutput :=
  match prevout.get "value_satoshis" with
  | none => PreviousOutput.parseVerbose lib prevout outpoint spendingHeight
  | some value => do
    let value ← orElse "Bitcoin compact prevout value is invalid" value.asU64
    let fact ← orElse "Bitcoin compact prevout address fact is missing" (prevout.get "address")
    let address ← PreviousOutput.parseAddress lib fact
    return ⟨outpoint, value, address⟩

/-! ## Transactions -/

/-- The outputs of the transactions before in the same block. -/
abbrev Locals := List (Outpoint × PreviousOutput)

/-- The node's `prevout`, which may not contradict an earlier output of the block, or that output
itself. -/
def Input.resolve (lib : Library) (object : Map) (outpoint : Outpoint) (index : Nat)
    (height : BlockHeight) (locals : Locals) : Except String PreviousOutput :=
  match (object.get "prevout").bind Json.asObject with
  | some prevout => do
    let resolved ← PreviousOutput.parse lib prevout outpoint height
    if (locals.lookup outpoint).any (· ≠ resolved) then
      .error ("Bitcoin input " ++ toString index ++ " prevout conflicts with an earlier same-block output")
    else .ok resolved
  | none =>
    orElse ("Bitcoin input " ++ toString index ++ " has no resolved previous output")
      (locals.lookup outpoint)

def Input.parse (lib : Library) (input : Json) (native : Outpoint) (index : Nat) (coinbase : Bool)
    (height : BlockHeight) (locals : Locals) : Except String Input := do
  let object ← orElse "Bitcoin transaction input must be an object" input.asObject
  if native.isNull then
    if !coinbase || ((object.get "coinbase").bind Json.asStr).isNone then
      .error "Bitcoin null input is not a valid coinbase input"
    else .ok ⟨none⟩
  else if coinbase then .error "Bitcoin coinbase transaction contains a non-coinbase input"
  else do
    let text ← requiredString object "txid" "Bitcoin input previous transaction ID"
    let previousId ← orElse "Bitcoin transaction ID is invalid" (lib.parseId text)
    let outputIndex ← requiredU32 object "vout" "Bitcoin input output index"
    if native ≠ ⟨previousId, outputIndex⟩ then
      .error ("Bitcoin input " ++ toString index ++ " outpoint does not match its consensus bytes")
    else do
      let previous ← Input.resolve lib object ⟨previousId, outputIndex⟩ index height locals
      return ⟨some previous⟩

def Output.parse (lib : Library) (output : Json) (native : NativeOutput) (position : Nat) :
    Except String Output := do
  let object ← orElse "Bitcoin transaction output must be an object" output.asObject
  let outputIndex ← requiredU64 object "n" "Bitcoin output index"
  if outputIndex.toNat ≠ position then
    .error "Bitcoin transaction output index does not match its position"
  else do
    let amount ← orElse "Bitcoin output value is missing" (object.get "value")
    let value ← fromBlockJson amount "Bitcoin output value"
    if native.value ≠ value then .error "Bitcoin output value does not match its consensus bytes"
    else do
      let script ← orElse "Bitcoin output scriptPubKey is missing"
        ((object.get "scriptPubKey").bind Json.asObject)
      let hex ← orElse "Bitcoin scriptPubKey hex is missing or invalid"
        ((script.get "hex").bind Json.asStr)
      let bytes ← orElse "Bitcoin scriptPubKey hex is invalid" (lib.fromHex hex)
      if native.scriptPubkey ≠ bytes then
        .error "Bitcoin output script does not match its consensus bytes"
      else .ok ⟨value, bytes⟩

def Transaction.parse (lib : Library) (value : Json) (height : BlockHeight) (locals : Locals) :
    Except String Transaction := do
  let object ← orElse "Bitcoin transaction must be an object" value.asObject
  let text ← requiredString object "txid" "Bitcoin transaction ID"
  let txid ← orElse "Bitcoin transaction ID is invalid" (lib.parseId text)
  let hex ← requiredString object "hex" "Bitcoin raw transaction"
  let raw ← orElse "Bitcoin transaction hex is invalid" (lib.fromHex hex)
  let native ← orElse "Bitcoin transaction consensus bytes are invalid" (lib.deserialize raw)
  if native.txid ≠ txid then .error "Bitcoin transaction ID does not match its consensus bytes"
  else do
    let inputValues ← orElse "Bitcoin transaction inputs must be an array"
      ((object.get "vin").bind Json.asArray)
    if inputValues.length ≠ native.input.length then
      .error "Bitcoin transaction input count does not match its consensus bytes"
    else do
      let inputs ← (inputValues.zip native.input).zipIdx.mapM fun ((input, nativeInput), index) =>
        Input.parse lib input nativeInput index native.isCoinbase height locals
      let outputValues ← orElse "Bitcoin transaction outputs must be an array"
        ((object.get "vout").bind Json.asArray)
      if outputValues.length ≠ native.output.length then
        .error "Bitcoin transaction output count does not match its consensus bytes"
      else do
        let outputs ← (outputValues.zip native.output).zipIdx.mapM fun ((output, nativeOutput), position) =>
          Output.parse lib output nativeOutput position
        return ⟨txid, inputs, outputs, native.isCoinbase⟩

/-- What a transaction adds to the outputs of its block. -/
def Transaction.locals (lib : Library) (t : Transaction) : Locals :=
  t.outputs.zipIdx.map fun (output, index) =>
    let outpoint : Outpoint := ⟨t.id, UInt32.ofNat index⟩
    (outpoint, ⟨outpoint, output.value, lib.fromScript output.scriptPubkey⟩)

/-- The loop of `BlockData::parse`, with the ids and outputs seen so far. -/
def parseAll (lib : Library) (height : BlockHeight) :
    List TransactionId → Locals → List Json → Except String (List Transaction)
  | _, _, [] => .ok []
  | ids, locals, value :: rest => do
    let transaction ← Transaction.parse lib value height locals
    if transaction.id ∈ ids then .error "Bitcoin block contains duplicate transaction IDs"
    else if 2 ^ 32 < transaction.outputs.length then .error "Bitcoin output index exceeds u32"
    else do
      let transactions ← parseAll lib height (transaction.id :: ids)
        (transaction.locals lib ++ locals) rest
      return transaction :: transactions

def parseHash (lib : Library) (text : String) : Except String BlockHash := do
  let hash ← orElse "Bitcoin block hash is invalid" (lib.parseBlockHash text)
  return ⟨hash⟩

/-- Only the genesis block has no parent. -/
def parseParent (lib : Library) (object : Map) (height : UInt64) : Except String (Option BlockParent) :=
  if height = 0 then .ok none
  else do
    let text ← requiredString object "previousblockhash" "Bitcoin previous block hash"
    let hash ← parseHash lib text
    return some ⟨⟨height - 1⟩, hash⟩

/-- The bytes are decoded to `value` already. -/
def Block.parse (lib : Library) (value : Json) (expectedHeight : Option BlockHeight)
    (expectedHash : Option BlockHash) : Except String Block := do
  let object ← orElse "Bitcoin block result must be an object" value.asObject
  let height ← requiredU64 object "height" "Bitcoin block height"
  if expectedHeight.any (· ≠ ⟨height⟩) then
    .error "Bitcoin block height does not match the requested height"
  else do
    let text ← requiredString object "hash" "Bitcoin block hash"
    let hash ← parseHash lib text
    if expectedHash.any (· ≠ hash) then
      .error "Bitcoin block hash does not match the requested hash"
    else if height = 0 ∧ (object.get "previousblockhash").any (!·.isNull) then
      .error "Bitcoin genesis block unexpectedly has a parent hash"
    else do
      let parent ← parseParent lib object height
      let timestamp ← requiredU64 object "time" "Bitcoin block timestamp"
      let values ← orElse "Bitcoin block transactions must be an array"
        ((object.get "tx").bind Json.asArray)
      let declaredCount ← requiredU64 object "nTx" "Bitcoin block transaction count"
      if declaredCount.toNat ≠ values.length then
        .error "Bitcoin block transaction count does not match its transaction array"
      else do
        let transactions ← parseAll lib ⟨height⟩ [] [] values
        return ⟨⟨⟨height⟩, ⟨height⟩, hash, parent, some timestamp⟩, transactions⟩

end Indexer

end PaymentSdk.Bitcoin
