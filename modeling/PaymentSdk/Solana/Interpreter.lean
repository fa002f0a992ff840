import PaymentSdk.Indexing.BlockAddition
import PaymentSdk.Lib.Base58
import PaymentSdk.Solana.Keys
import PaymentSdk.Solana.Slots

/-!
# Interpreting a Solana block

From the JSON text of a finalized block to the native transfers of the selected addresses.
Serde and bincode are parameters. Account positions are bounded by their type, so a lookup
of a key cannot leave the key list.
-/

namespace PaymentSdk.Solana.Interpretation

open Slots (Block)

def invalidBlock (message : String) : IndexError := ⟨.invalidBlock, message, false⟩

/-! ## The wire -/

/-- A JSON value, as far as the interpreter looks at one. -/
inductive Value where
  | null
  | bool (value : Bool)
  | number (asU64 : Option UInt64)
  | string (text : String)
  | array
  | object
  deriving DecidableEq

/-- The header of a message. -/
structure HeaderWire where
  numRequiredSignatures : UInt8
  numReadonlySignedAccounts : UInt8
  numReadonlyUnsignedAccounts : UInt8
  deriving DecidableEq

structure InstructionWire where
  programIdIndex : UInt8
  accounts : List UInt8
  data : String
  deriving DecidableEq

/-- A message as it is encoded. -/
structure MessageWire where
  header : HeaderWire
  accountKeys : List String
  instructions : List InstructionWire
  deriving DecidableEq

structure SignedWire where
  signatures : List Text
  message : MessageWire
  deriving DecidableEq

structure InnerWire where
  index : UInt8
  instructions : List InstructionWire
  deriving DecidableEq

/-- The addresses from lookup tables. -/
structure LoadedWire where
  writable : List String
  readonly : List String
  deriving DecidableEq

structure MetaWire where
  err : Value
  fee : UInt64
  preBalances : List UInt64
  postBalances : List UInt64
  innerInstructions : Option (List InnerWire)
  loadedAddresses : Option LoadedWire
  deriving DecidableEq

/-- `meta` in the source, a reserved word here. -/
structure TransactionWire where
  transaction : SignedWire
  metadata : Option MetaWire
  version : Value
  deriving DecidableEq

structure BlockWire where
  transactions : List TransactionWire
  deriving DecidableEq

/-- Instructions of the System program. Only transfers are looked into. -/
inductive SystemInstruction where
  | transfer (lamports : UInt64)
  | transferWithSeed (lamports : UInt64) (fromSeed : String) (fromOwner : Address)
  | other (tag : UInt32) (content : List UInt8)
  deriving DecidableEq

/-- What serde and bincode supply, and the address of the System program. -/
structure Codec where
  decode : List UInt8 → Option BlockWire
  deserialize : List UInt8 → Option SystemInstruction
  serialize : SystemInstruction → Option (List UInt8)
  systemId : Address

/-! ## Addresses and signatures -/

def addressText (a : Address) : Text :=
  Text.ofString (Base58.encode a.bytes) (by
    have hlength := Base58.length_encode a.bytes
    rw [a.size] at hlength
    omega)

/-- Only the canonical text of an address parses. -/
def parseAddress (text : String) : Option Address :=
  match (Base58.decode text).bind Address.ofBytes with
  | none => none
  | some address => if (addressText address).str ≠ text then none else some address

/-- A signature has 64 bytes. -/
def parseSignature (text : Text) : Except IndexError Text :=
  match Base58.decode text.str with
  | none => .error (invalidBlock "Solana transaction contains a malformed signature")
  | some bytes =>
    if bytes.length ≠ 64 then .error (invalidBlock "Solana transaction contains a malformed signature")
    else if Base58.encode bytes ≠ text.str then
      .error (invalidBlock "Solana transaction contains a non-canonical signature")
    else .ok text

/-- An account of a transaction. -/
structure AccountKey where
  address : Address
  writable : Bool
  deriving DecidableEq

def AccountKey.parse (text : String) (writable : Bool) : Except IndexError AccountKey :=
  match parseAddress text with
  | none => .error (invalidBlock "Solana transaction contains a malformed canonical address")
  | some address => .ok ⟨address, writable⟩

/-! ## Transactions -/

/-- A compiled instruction over `n` resolved keys. -/
structure Instruction (n : Nat) where
  program : Fin n
  accounts : List (Fin n)
  data : String
  deriving DecidableEq

def index (n : Nat) (i : UInt8) : Except IndexError (Fin n) :=
  if h : i.toNat < n then .ok ⟨i.toNat, h⟩
  else .error (invalidBlock "Solana compiled instruction contains an invalid account index")

def Instruction.parse (n : Nat) (wire : InstructionWire) : Except IndexError (Instruction n) := do
  let program ← index n wire.programIdIndex
  let accounts ← wire.accounts.mapM (index n)
  return ⟨program, accounts, wire.data⟩

/-- Groups of inner instructions, by the position of their outer instruction. -/
abbrev Groups (n : Nat) := List (Nat × List (Instruction n))

def invalidGroup : IndexError :=
  invalidBlock "Solana transaction contains an invalid or duplicate inner-instruction group"

def parseInner (outerCount n : Nat) : Groups n → List InnerWire → Except IndexError (Groups n)
  | inner, [] => .ok inner
  | inner, group :: rest =>
    if outerCount ≤ group.index.toNat then .error invalidGroup
    else do
      let instructions ← group.instructions.mapM (Instruction.parse n)
      if (inner.lookup group.index.toNat).isSome then .error invalidGroup
      else parseInner outerCount n ((group.index.toNat, instructions) :: inner) rest

/-- A parsed transaction. Its first key pays the fee. -/
structure Transaction where
  signature : Text
  keys : List AccountKey
  instructions : List (Instruction keys.length)
  inner : Option (Groups keys.length)
  preBalances : List UInt64
  postBalances : List UInt64
  fee : UInt64
  succeeded : Bool
  payer : Fin keys.length
  payer_first : payer.val = 0
  distinct : (keys.map (·.address)).Nodup
  pre_size : preBalances.length = keys.length
  post_size : postBalances.length = keys.length

inductive Version where
  | legacy
  | zero
  deriving DecidableEq

def Version.parse : Value → Except IndexError Version
  | .string "legacy" => .ok .legacy
  | .number (some 0) => .ok .zero
  | _ => .error (invalidBlock "Solana block contains an unsupported transaction version")

def writableStatic (header : HeaderWire) (staticCount index : Nat) : Bool :=
  let required := header.numRequiredSignatures.toNat
  if index < required then decide (index < required - header.numReadonlySignedAccounts.toNat)
  else decide (index < staticCount - header.numReadonlyUnsignedAccounts.toNat)

/-- The keys of the message itself. The header says which of them are writable. -/
def staticKeys (message : MessageWire) : Except IndexError (List AccountKey) :=
  message.accountKeys.zipIdx.mapM fun (text, index) =>
    AccountKey.parse text (writableStatic message.header message.accountKeys.length index)

/-- A legacy message has no lookup tables. -/
def loadedKeys : Version → Option LoadedWire → Except IndexError (List AccountKey)
  | .legacy, some loaded =>
    if loaded.writable ≠ [] ∨ loaded.readonly ≠ [] then
      .error (invalidBlock "legacy Solana transaction contains loaded addresses")
    else .ok []
  | .legacy, none => .ok []
  | .zero, some loaded => do
    let writable ← loaded.writable.mapM (AccountKey.parse · true)
    let readonly ← loaded.readonly.mapM (AccountKey.parse · false)
    return writable ++ readonly
  | .zero, none => .error (invalidBlock "version-zero Solana transaction is missing loaded addresses")

/-- The header's counts have to agree with the keys and the signatures. -/
def checkCardinality (wire : SignedWire) : Except IndexError Unit :=
  let required := wire.message.header.numRequiredSignatures.toNat
  let staticCount := wire.message.accountKeys.length
  if required = 0 ∨ staticCount < required ∨
      required ≤ wire.message.header.numReadonlySignedAccounts.toNat ∨
      staticCount - required < wire.message.header.numReadonlyUnsignedAccounts.toNat ∨
      wire.signatures.length ≠ required then
    .error (invalidBlock "Solana transaction has incoherent signer or message-header cardinality")
  else .ok ()

/-- The checks once all keys are resolved. -/
def assemble (signature : Text) (message : MessageWire) (metadata : MetaWire)
    (keys : List AccountKey) : Except IndexError Transaction :=
  if 256 < keys.length then
    .error (invalidBlock "Solana transaction resolves more than 256 account keys")
  else if hdistinct : ¬ (keys.map (·.address)).Nodup then
    .error (invalidBlock "Solana transaction resolves duplicate account keys")
  else if hsizes : metadata.preBalances.length ≠ keys.length ∨
      metadata.postBalances.length ≠ keys.length then
    .error (invalidBlock "Solana transaction balances do not match resolved account keys")
  else do
    let instructions ← message.instructions.mapM (Instruction.parse keys.length)
    let inner ← metadata.innerInstructions.mapM (parseInner instructions.length keys.length [])
    if hpayer : 0 < keys.length ∧ (keys.head?.any (·.writable)) = true then
      .ok { signature, keys, instructions, inner, preBalances := metadata.preBalances
            postBalances := metadata.postBalances, fee := metadata.fee
            succeeded := decide (metadata.err = .null)
            payer := ⟨0, hpayer.1⟩, payer_first := rfl, distinct := not_not.mp hdistinct
            pre_size := not_not.mp fun h => hsizes (Or.inl h)
            post_size := not_not.mp fun h => hsizes (Or.inr h) }
    else .error (invalidBlock "Solana transaction has no writable fee payer")

def Transaction.parse (wire : TransactionWire) : Except IndexError Transaction := do
  let version ← Version.parse wire.version
  checkCardinality wire.transaction
  let signatures ← wire.transaction.signatures.mapM parseSignature
  let fixed ← staticKeys wire.transaction.message
  match wire.metadata, signatures with
  | none, _ => .error (invalidBlock "Solana transaction metadata is missing")
  | some metadata, signature :: _ => do
    let loaded ← loadedKeys version metadata.loadedAddresses
    assemble signature wire.transaction.message metadata (fixed ++ loaded)
  -- `checkCardinality` has seen at least one signature.
  | some _, [] => .error (invalidBlock "Solana transaction has incoherent signer or message-header cardinality")

/-- The loop of `Transactions::parse`, with the signatures seen so far. -/
def parseAll : List Text → List TransactionWire → Except IndexError (List Transaction)
  | _, [] => .ok []
  | seen, wire :: rest => do
    let transaction ← Transaction.parse wire
    if transaction.signature ∈ seen then
      .error (invalidBlock "Solana block contains duplicate first signatures")
    else do
      let transactions ← parseAll (transaction.signature :: seen) rest
      return transaction :: transactions

def Transactions.parse (codec : Codec) (raw : List UInt8) : Except IndexError (List Transaction) :=
  match codec.decode raw with
  | none => .error (invalidBlock "Solana block transactions have an invalid RPC shape")
  | some block => parseAll [] block.transactions

namespace Transaction

variable (t : Transaction)

def key (i : Fin t.keys.length) : Address := (t.keys.get i).address

def feePayer : Address := t.key t.payer

def innerAt (outer : Nat) : List (Instruction t.keys.length) :=
  match t.inner with
  | none => []
  | some groups => (groups.lookup outer).getD []

def pre (i : Fin t.keys.length) : UInt64 := t.preBalances.get (i.cast t.pre_size.symm)

def post (i : Fin t.keys.length) : UInt64 := t.postBalances.get (i.cast t.post_size.symm)

end Transaction

/-! ## Movements -/

/-- A transfer of the system program. -/
structure Movement where
  id : String
  source : Address
  destination : Address
  lamports : UInt64
  deriving DecidableEq

def notCanonical : IndexError := invalidBlock "Solana System instruction data is not canonical Base58"

/-- The System instruction that instruction data encodes. -/
def systemInstruction (codec : Codec) (text : String) : Except IndexError SystemInstruction :=
  match Base58.decode text with
  | none => .error notCanonical
  | some data =>
    if Base58.encode data ≠ text then .error notCanonical
    else match codec.deserialize data with
      | none => .error (invalidBlock "Solana System instruction data is malformed")
      | some system =>
        if codec.serialize system ≠ some data then
          .error (invalidBlock "Solana System instruction data has a non-canonical encoding")
        else .ok system

/-- The accounts and lamports of a transfer. -/
def transferOf {n : Nat} (accounts : List (Fin n)) :
    SystemInstruction → Except IndexError (Option (Fin n × Fin n × UInt64))
  | .transfer lamports =>
    match accounts with
    | source :: destination :: _ => .ok (some (source, destination, lamports))
    | _ => .error (invalidBlock "Solana System transfer is missing an account")
  | .transferWithSeed lamports _ _ =>
    match accounts with
    | source :: _ :: destination :: _ => .ok (some (source, destination, lamports))
    | _ => .error (invalidBlock "Solana System transfer-with-seed is missing an account")
  | .other .. => .ok none

def Movement.decode (codec : Codec) (t : Transaction) (instruction : Instruction t.keys.length)
    (id : String) : Except IndexError (Option Movement) :=
  if t.key instruction.program ≠ codec.systemId then .ok none
  else do
    let system ← systemInstruction codec instruction.data
    let transfer ← transferOf instruction.accounts system
    match transfer with
    | none => .ok none
    | some (source, destination, lamports) =>
      if lamports = 0 then .ok none
      else .ok (some ⟨id, t.key source, t.key destination, lamports⟩)

def outerId (signature : Text) (outer : Nat) : String := signature.str ++ ":ix:" ++ toString outer

def innerId (signature : Text) (outer ordinal : Nat) : String :=
  outerId signature outer ++ ":inner:" ++ toString ordinal

/-- The movements of one outer instruction and of its inner group. -/
def Movements.decodeGroup (codec : Codec) (t : Transaction) (outer : Nat)
    (instruction : Instruction t.keys.length) : Except IndexError (List Movement) := do
  let first ← Movement.decode codec t instruction (outerId t.signature outer)
  let rest ← (t.innerAt outer).zipIdx.mapM fun (instruction, ordinal) =>
    Movement.decode codec t instruction (innerId t.signature outer ordinal)
  return first.toList ++ rest.flatMap Option.toList

def Movements.decode (codec : Codec) (t : Transaction) : Except IndexError (List Movement) := do
  let groups ← t.instructions.zipIdx.mapM fun (instruction, outer) =>
    Movements.decodeGroup codec t outer instruction
  return groups.flatten

def touches (movements : List Movement) (a : Address) : Bool :=
  movements.any fun m => decide (m.source = a) || decide (m.destination = a)

def touchesAny (movements : List Movement) (selected : List Address) : Bool :=
  movements.any fun m => decide (m.source ∈ selected) || decide (m.destination ∈ selected)

/-- The sum is far below the range of `i128`. -/
def delta (movements : List Movement) (a : Address) : Int :=
  movements.foldl (fun delta m =>
    let amount : Int := m.lamports.toNat
    delta + (if m.destination = a then amount else 0) - if m.source = a then amount else 0) 0

/-! ## Reconciliation -/

/-- The keys whose balances are checked. -/
def selectedEffects (t : Transaction) (selected : List Address) (movements : List Movement) :
    List (Fin t.keys.length) :=
  (List.finRange t.keys.length).filter fun i =>
    decide (t.key i ∈ selected) &&
      ((t.keys.get i).writable || decide (t.key i = t.feePayer) || touches movements (t.key i))

/-- The keys are distinct, so an address has the position it was taken at. -/
def reconcile (t : Transaction) (movements : List Movement) (i : Fin t.keys.length) :
    Except IndexError Unit :=
  let actual : Int := (t.post i).toNat - (t.pre i).toNat
  let moved := delta movements (t.key i)
  let expected := if t.key i = t.feePayer then moved - t.fee.toNat else moved
  if actual ≠ expected then
    .error (invalidBlock "selected Solana account has an unsupported native SOL value effect")
  else .ok ()

/-- The decoded movements explain every selected balance, to the lamport. -/
def reconcileSelected (t : Transaction) (selected : List Address) (movements : List Movement) :
    Except IndexError Unit :=
  let affected := selectedEffects t selected movements
  if affected ≠ [] ∧ t.inner = none then
    .error (invalidBlock "successful selected Solana transaction has incomplete inner instructions")
  else affected.forM (reconcile t movements)

/-! ## Inspection -/

def chainId : ChainId := ⟨.lit "solana" (Eq.refl true)⟩

def nativeAsset : AssetId := ⟨chainId, .lit "native" (Eq.refl true)⟩

def fromAtomic (n : Nat) : Decimal := Decimal.normalize n 0 Decimal.zero_lt_scale

def canonical (scope : IndexScope) (a : Address) : CanonicalAddress := ⟨scope, addressText a⟩

def Movement.value (scope : IndexScope) (m : Movement) : ValueMovement :=
  .transfer ⟨m.id⟩ nativeAsset (fromAtomic m.lamports.toNat) (canonical scope m.source)
    (canonical scope m.destination)

def selectedOne (scope : IndexScope) (a : CanonicalAddress) : Except IndexError Address :=
  if a.belongsTo scope = false then
    .error ⟨.scopeMismatch, "Solana address filter belongs to a different scope", false⟩
  else match parseAddress a.value.str with
    | none => .error ⟨.invalidRequest, "Solana address filter is not canonical Base58", false⟩
    | some address => .ok address

/-- An ordered set in the source. Only membership is asked of it. -/
def selected (scope : IndexScope) (addresses : List CanonicalAddress) :
    Except IndexError (List Address) :=
  addresses.mapM (selectedOne scope)

/-- A failed transaction concerns its fee payer alone. -/
def relevant (t : Transaction) (selected : List Address) (movements : List Movement) : Bool :=
  if t.succeeded then decide (t.feePayer ∈ selected) || touchesAny movements selected
  else decide (t.feePayer ∈ selected)

def draft (scope : IndexScope) (t : Transaction) (movements : List Movement) : ObservationDraft where
  scope
  transactionId := ⟨scope, t.signature⟩
  status := if t.succeeded then .included else .failed (some "Solana transaction execution failed")
  movements := movements.map (Movement.value scope)
  fee := some ⟨nativeAsset, fromAtomic t.fee.toNat, some (canonical scope t.feePayer)⟩

/-- One turn of the loop of `inspect`. -/
def inspectTransaction (codec : Codec) (scope : IndexScope) (selected : List Address)
    (t : Transaction) : Except IndexError (Option ObservationDraft) := do
  let movements ← if t.succeeded then Movements.decode codec t else pure []
  if t.succeeded then reconcileSelected t selected movements else pure ()
  return if relevant t selected movements then some (draft scope t movements) else none

/-- An interpreter of a Solana scope. -/
structure Interpreter where
  scope : IndexScope
  chain_eq : scope.chain = chainId

def Interpreter.new (scope : IndexScope) : Except IndexError Interpreter :=
  if h : scope.chain ≠ chainId then
    .error ⟨.scopeMismatch, "Solana interpreter scope must use the solana chain ID", false⟩
  else if scope.network.str.toList.all Decimal.isWhitespace then
    .error ⟨.scopeMismatch, "Solana interpreter network slug must not be empty", false⟩
  else .ok ⟨scope, not_not.mp h⟩

def Interpreter.inspect (codec : Codec) (interpreter : Interpreter) (block : Block)
    (addresses : List CanonicalAddress) : Except IndexError InterpretedBlock := do
  let selected ← selected interpreter.scope addresses
  let parsed ← Transactions.parse codec block.raw
  let observations ← parsed.mapM (inspectTransaction codec interpreter.scope selected)
  return ⟨block.reference, observations.flatMap Option.toList, {}⟩

end PaymentSdk.Solana.Interpretation
