import PaymentSdk.Bitcoin.Block

/-!
# Interpreting a Bitcoin block

Each transaction gives movements and a fee, the outputs it creates for selected addresses, and
the outputs it spends: required ones of selected addresses, and tracked ones of other addresses
that could have been selected before. An output created and spent in one block cancels out.
-/

namespace PaymentSdk.Bitcoin.Indexer

def invalidBlock (message : String) : IndexError := ⟨.invalidBlock, message, false⟩

def invalidRequest (message : String) : IndexError := ⟨.invalidRequest, message, false⟩

/-- The key of an output in the index. -/
structure UtxoKey where
  address : Address
  outpoint : Outpoint
  deriving DecidableEq

/-- `IndexedOutput` of the chain. -/
structure CreatedOutput where
  outpoint : Outpoint
  value : UInt64
  scriptPubkey : List UInt8
  address : Address
  createdHeight : BlockHeight
  coinbase : Bool
  deriving DecidableEq

/-! ## Canonical values -/

def satoshis (value : UInt64) : Decimal := Decimal.normalize value.toNat 0 Decimal.zero_lt_scale

def Address.canonical (scope : IndexScope) (a : Address) : CanonicalAddress := ⟨scope, a.encoded⟩

def TransactionId.canonical (scope : IndexScope) (id : TransactionId) : TransactionRef := ⟨scope, id.text⟩

def Outpoint.canonical (scope : IndexScope) (o : Outpoint) : OutputId :=
  ⟨o.transactionId.canonical scope, o.outputIndex⟩

def UtxoKey.canonical (scope : IndexScope) (k : UtxoKey) : OutputKey :=
  ⟨k.address.canonical scope, k.outpoint.canonical scope⟩

def CreatedOutput.canonical (scope : IndexScope) (o : CreatedOutput) : IndexedOutput where
  id := o.outpoint.canonical scope
  address := o.address.canonical scope
  asset := nativeAsset
  amount := satoshis o.value
  evidence := o.scriptPubkey
  createdAt := o.createdHeight
  coinbase := o.coinbase

/-! ## Selected addresses -/

def isIndexed (script : List UInt8) : Bool := isP2wpkh script || isP2tr script

def validateAddress (lib : Library) (scope : IndexScope) (a : CanonicalAddress) : Except IndexError Address :=
  if a.belongsTo scope = false then
    .error (invalidRequest "Bitcoin indexed address belongs to a different scope")
  else match lib.parseAddress a.value.str with
    | none => .error (invalidRequest "Bitcoin indexed address is invalid or wrong-network")
    | some canonical =>
      match lib.scriptPubkey canonical with
      | none => .error (invalidRequest "Bitcoin indexed address cannot produce a script")
      | some script =>
        if isIndexed script = false then
          .error (invalidRequest "Bitcoin indexing supports P2WPKH and P2TR addresses only")
        else if a.value ≠ canonical.encoded then
          .error (invalidRequest "Bitcoin indexed address is not canonical")
        else .ok canonical

/-- `ValidatedAddresses`, an ordered set of which only membership is asked. -/
def validatedAddresses (lib : Library) (scope : IndexScope) (addresses : List CanonicalAddress) :
    Except IndexError (List Address) :=
  addresses.mapM (validateAddress lib scope)

/-! ## One transaction -/

/-- What the loops over the inputs and the outputs collect of one transaction. -/
structure TransactionFacts where
  movements : List ValueMovement := []
  relevant : Bool := false
  inputTotal : Nat := 0
  outputTotal : Nat := 0
  payer : Option Address := none
  ambiguousPayer : Bool := false
  creates : List CreatedOutput := []
  spends : List UtxoKey := []
  trackedSpends : List UtxoKey := []

/-- What a transaction is interpreted in. -/
structure Context where
  lib : Library
  scope : IndexScope
  addresses : List Address
  height : BlockHeight

/-- The payer owns every input. With two owners, or an unknown one, there is none. -/
def recordPayer (facts : TransactionFacts) (address : Option Address) : TransactionFacts :=
  match facts.payer, address with
  | none, some a =>
    if facts.ambiguousPayer then { facts with ambiguousPayer := true } else { facts with payer := some a }
  | some current, some a =>
    if current = a then facts else { facts with ambiguousPayer := true }
  | _, none => { facts with ambiguousPayer := true }

def recordSpend (ctx : Context) (facts : TransactionFacts) (previous : PreviousOutput) :
    Except IndexError TransactionFacts :=
  match previous.address with
  | none => .ok facts
  | some address =>
    let key : UtxoKey := ⟨address, previous.outpoint⟩
    if address ∈ ctx.addresses then
      .ok { facts with relevant := true, spends := facts.spends ++ [key] }
    else match ctx.lib.scriptPubkey address with
      | none => .error (invalidBlock "Bitcoin compact prevout address cannot produce a script")
      | some script =>
        if isIndexed script then .ok { facts with trackedSpends := facts.trackedSpends ++ [key] }
        else .ok facts

def vinId (id : TransactionId) (index : Nat) : String := id.text.str ++ ":vin:" ++ toString index

def voutId (id : TransactionId) (index : Nat) : String := id.text.str ++ ":vout:" ++ toString index

/-- The facts so far, and every outpoint that the block has spent. -/
abbrev Spending := TransactionFacts × List Outpoint

def factPreviousOutput (ctx : Context) (t : Transaction) (s : Spending) (previous : PreviousOutput)
    (index : Nat) : Except IndexError Spending :=
  if previous.outpoint ∈ s.2 then
    .error (invalidBlock "Bitcoin block spends the same outpoint more than once")
  else if 2 ^ 64 ≤ s.1.inputTotal + previous.value.toNat then
    .error (invalidBlock "Bitcoin transaction input value overflowed u64")
  else do
    let movement : ValueMovement := .input ⟨vinId t.id index⟩ nativeAsset (satoshis previous.value)
      (previous.address.map (·.canonical ctx.scope))
    let facts := { s.1 with
      inputTotal := s.1.inputTotal + previous.value.toNat
      movements := s.1.movements ++ [movement] }
    let facts ← recordSpend ctx (recordPayer facts previous.address) previous
    return (facts, previous.outpoint :: s.2)

def factInput (ctx : Context) (t : Transaction) (s : Spending) (input : Input) (index : Nat) :
    Except IndexError Spending :=
  match input.previousOutput, t.coinbase with
  | none, true => .ok s
  | none, false => .error (invalidBlock "non-coinbase Bitcoin transaction has an unresolved input")
  | some _, true => .error (invalidBlock "Bitcoin coinbase transaction contains a resolved normal input")
  | some previous, false => factPreviousOutput ctx t s previous index

def factOutput (ctx : Context) (t : Transaction) (facts : TransactionFacts) (output : Output) (index : Nat) :
    Except IndexError TransactionFacts :=
  if 2 ^ 64 ≤ facts.outputTotal + output.value.toNat then
    .error (invalidBlock "Bitcoin transaction output value overflowed u64")
  else
    let address := ctx.lib.fromScript output.scriptPubkey
    let movement : ValueMovement := .output ⟨voutId t.id index⟩ nativeAsset (satoshis output.value)
      (address.map (·.canonical ctx.scope))
    let facts := { facts with
      outputTotal := facts.outputTotal + output.value.toNat
      movements := facts.movements ++ [movement] }
    match address with
    | none => .ok facts
    | some address =>
      if address ∉ ctx.addresses then .ok facts
      else if 2 ^ 32 ≤ index then .error (invalidBlock "Bitcoin output index exceeds u32")
      else
        let created : CreatedOutput :=
          { outpoint := ⟨t.id, UInt32.ofNat index⟩, value := output.value
            scriptPubkey := output.scriptPubkey, address
            createdHeight := ctx.height, coinbase := t.coinbase }
        .ok { facts with relevant := true, creates := facts.creates ++ [created] }

/-- The fee is what came in less what went out; a coinbase pays none. -/
def finishFee (ctx : Context) (t : Transaction) (facts : TransactionFacts) :
    Except IndexError (Option NetworkFee) :=
  if t.coinbase then .ok none
  else if facts.inputTotal < facts.outputTotal then
    .error (invalidBlock "Bitcoin transaction outputs exceed its resolved inputs")
  else
    let payer := if facts.ambiguousPayer then none else facts.payer
    .ok (some ⟨nativeAsset, Decimal.normalize (facts.inputTotal - facts.outputTotal : Nat) 0 (by decide),
      payer.map (·.canonical ctx.scope)⟩)

/-- The facts, with the fee that follows from their totals. -/
structure InterpretedTransaction where
  facts : TransactionFacts
  fee : Option NetworkFee

/-- `interpret`, with the outpoints that the block has spent before and after. -/
def interpret (ctx : Context) (t : Transaction) (spent : List Outpoint) :
    Except IndexError (InterpretedTransaction × List Outpoint) := do
  let (facts, spent) ← t.inputs.zipIdx.foldlM (fun s (input, index) => factInput ctx t s input index)
    (({} : TransactionFacts), spent)
  let facts ← t.outputs.zipIdx.foldlM (fun facts (output, index) => factOutput ctx t facts output index) facts
  let fee ← finishFee ctx t facts
  return (⟨facts, fee⟩, spent)

/-! ## Outputs of a block -/

/-- Ordered maps by outpoint. The order they are read out in matters to nothing. -/
structure Outputs where
  creates : List CreatedOutput := []
  spends : List UtxoKey := []
  trackedSpends : List UtxoKey := []

namespace Outputs

def create (o : Outputs) (output : CreatedOutput) : Except IndexError Outputs :=
  if output.outpoint ∈ o.creates.map (·.outpoint) then
    .error (invalidBlock "Bitcoin block creates a duplicate indexed outpoint")
  else .ok { o with creates := o.creates ++ [output] }

/-- A spent output that the block created is neither created nor spent by it. -/
def consume (message : String) (creates : List CreatedOutput) (spends : List UtxoKey) (key : UtxoKey) :
    Except IndexError (List CreatedOutput × List UtxoKey) :=
  if key.outpoint ∈ creates.map (·.outpoint) then .ok (creates.filter (·.outpoint ≠ key.outpoint), spends)
  else if key.outpoint ∈ spends.map (·.outpoint) then .error (invalidBlock message)
  else .ok (creates, spends ++ [key])

/-- Spends an indexed output, once in a block. -/
def spend (o : Outputs) (key : UtxoKey) : Except IndexError Outputs := do
  let (creates, spends) ←
    consume "Bitcoin block spends an indexed outpoint more than once" o.creates o.spends key
  return { o with creates, spends }

def track (o : Outputs) (key : UtxoKey) : Except IndexError Outputs := do
  let (creates, trackedSpends) ←
    consume "Bitcoin block contains the same tracked spend more than once" o.creates o.trackedSpends key
  return { o with creates, trackedSpends }

/-- Adds one transaction's outputs to those of the block. -/
def apply (o : Outputs) (facts : TransactionFacts) : Except IndexError Outputs := do
  let o ← facts.creates.foldlM create o
  let o ← facts.spends.foldlM spend o
  facts.trackedSpends.foldlM track o

def canonical (scope : IndexScope) (o : Outputs) : OutputChanges where
  created := o.creates.map (·.canonical scope)
  spent := o.spends.map (·.canonical scope)
  trackedSpends := o.trackedSpends.map (·.canonical scope)

end Outputs

/-! ## Inspection -/

/-- What `inspect` has gathered from the transactions so far. -/
structure Gathered where
  transactions : List ObservationDraft := []
  outputs : Outputs := {}
  spent : List Outpoint := []

def inspectTransaction (ctx : Context) (g : Gathered) (t : Transaction) : Except IndexError Gathered := do
  let (interpreted, spent) ← interpret ctx t g.spent
  let outputs ← g.outputs.apply interpreted.facts
  let draft : ObservationDraft :=
    { scope := ctx.scope, transactionId := t.id.canonical ctx.scope, status := .included
      movements := interpreted.facts.movements, fee := interpreted.fee }
  let transactions := if interpreted.facts.relevant then g.transactions ++ [draft] else g.transactions
  return ⟨transactions, outputs, spent⟩

/-- An interpreter of a Bitcoin scope. The network is that of its library. -/
structure BlockInterpreter where
  lib : Library
  scope : IndexScope
  chain_eq : scope.chain = chainId

/-- `network` is the canonical name of the library's network. -/
def BlockInterpreter.new (lib : Library) (network : Text) (scope : IndexScope) :
    Except IndexError BlockInterpreter :=
  if h : scope.chain ≠ chainId then
    .error ⟨.scopeMismatch, "Bitcoin interpreter scope must use the bitcoin chain ID", false⟩
  else if scope.network ≠ network then
    .error ⟨.scopeMismatch, "Bitcoin interpreter scope network does not match configuration", false⟩
  else .ok ⟨lib, scope, not_not.mp h⟩

def BlockInterpreter.inspect (interpreter : BlockInterpreter) (block : Block)
    (addresses : List CanonicalAddress) : Except IndexError InterpretedBlock := do
  let addresses ← validatedAddresses interpreter.lib interpreter.scope addresses
  let ctx : Context := ⟨interpreter.lib, interpreter.scope, addresses, block.reference.height⟩
  let gathered ← block.transactions.foldlM (inspectTransaction ctx) {}
  return ⟨block.reference, gathered.transactions, gathered.outputs.canonical interpreter.scope⟩

end PaymentSdk.Bitcoin.Indexer
