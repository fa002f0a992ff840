import PaymentSdk.Redb.Keys

/-!
# Stored records

The private record types of the redb repository, and their conversions. Amounts are
stored as canonical text. A converted record of a validated fact converts back to it.
-/

open KvStore

namespace PaymentSdk.Redb

/-- An error about stored data. -/
def recordError (message : String) : IndexError := ⟨.store, message, false⟩

/-- Reads a stored amount: canonical decimal text, not negative. -/
def decodeAmount (encoded : String) : Except IndexError Decimal :=
  match Decimal.fromText encoded with
  | .error _ => .error (recordError "stored amount is not a valid decimal")
  | .ok value =>
    if value.toText ≠ encoded then .error (recordError "stored amount is not canonical")
    else
      match value.toAtomic value.scale with
      | .error _ => .error (recordError "stored monetary amount must not be negative")
      | .ok _ => .ok value

/-! ## Blocks -/

structure ParentRecord where
  position : UInt64
  hash : List UInt8
  deriving DecidableEq

/-- A block as it is stored. -/
structure BlockRecord where
  position : UInt64
  height : UInt64
  hash : List UInt8
  parent : Option ParentRecord
  timestamp : Option UInt64
  deriving DecidableEq

def BlockRecord.fromDomain (b : BlockRef) : BlockRecord where
  position := b.position.val
  height := b.height.val
  hash := b.hash.bytes
  parent := b.parent.map fun p => ⟨p.position.val, p.hash.bytes⟩
  timestamp := b.timestamp

def BlockRecord.intoDomain (r : BlockRecord) : BlockRef where
  position := ⟨r.position⟩
  height := ⟨r.height⟩
  hash := ⟨r.hash⟩
  parent := r.parent.map fun p => ⟨⟨p.position⟩, ⟨p.hash⟩⟩
  timestamp := r.timestamp

@[simp]
theorem BlockRecord.intoDomain_fromDomain (b : BlockRef) :
    (BlockRecord.fromDomain b).intoDomain = b := by
  obtain ⟨⟨p⟩, ⟨h⟩, ⟨hash⟩, parent, time⟩ := b
  cases parent <;> rfl

@[simp]
theorem BlockRecord.fromDomain_intoDomain (r : BlockRecord) :
    BlockRecord.fromDomain r.intoDomain = r := by
  obtain ⟨p, h, hash, parent, time⟩ := r
  cases parent <;> rfl

/-! ## Identities -/

/-- An address as it is stored. -/
structure AddressRecord where
  chain : Text
  network : Text
  value : Text
  deriving DecidableEq

def AddressRecord.fromDomain (a : CanonicalAddress) : AddressRecord :=
  ⟨a.scope.chain.name, a.scope.network, a.value⟩

def AddressRecord.intoDomain (r : AddressRecord) : CanonicalAddress :=
  ⟨⟨⟨r.chain⟩, r.network⟩, r.value⟩

structure TransactionIdentity where
  chain : Text
  network : Text
  value : Text
  deriving DecidableEq

def TransactionIdentity.fromDomain (t : TransactionRef) : TransactionIdentity :=
  ⟨t.scope.chain.name, t.scope.network, t.value⟩

def TransactionIdentity.intoDomain (r : TransactionIdentity) : TransactionRef :=
  ⟨⟨⟨r.chain⟩, r.network⟩, r.value⟩

structure AssetRecord where
  chain : Text
  value : Text
  deriving DecidableEq

def AssetRecord.fromDomain (a : AssetId) : AssetRecord := ⟨a.chain.name, a.asset⟩

def AssetRecord.intoDomain (r : AssetRecord) : AssetId := ⟨⟨r.chain⟩, r.value⟩

@[simp]
theorem AddressRecord.intoDomain_fromDomain (a : CanonicalAddress) :
    (AddressRecord.fromDomain a).intoDomain = a := rfl

@[simp]
theorem TransactionIdentity.intoDomain_fromDomain (t : TransactionRef) :
    (TransactionIdentity.fromDomain t).intoDomain = t := rfl

@[simp]
theorem AssetRecord.intoDomain_fromDomain (a : AssetId) :
    (AssetRecord.fromDomain a).intoDomain = a := rfl

@[simp]
theorem map_address_intoDomain (o : Option CanonicalAddress) :
    (o.map AddressRecord.fromDomain).map AddressRecord.intoDomain = o := by
  cases o <;> rfl

/-! ## Movements -/

inductive MovementTag where
  | transfer
  | input
  | output
  | mint
  | burn
  deriving DecidableEq

/-- A movement as it is stored, with its amount as a text. -/
structure MovementRecord where
  kind : MovementTag
  id : String
  asset : AssetRecord
  amount : String
  source : Option AddressRecord
  dest : Option AddressRecord
  deriving DecidableEq

def MovementTag.ofMovement : ValueMovement → MovementTag
  | .transfer .. => transfer
  | .input .. => input
  | .output .. => output
  | .mint .. => mint
  | .burn .. => burn

def MovementRecord.fromDomain (m : ValueMovement) : MovementRecord where
  kind := MovementTag.ofMovement m
  id := m.id.name
  asset := AssetRecord.fromDomain m.asset
  amount := m.amount.toText
  source := m.fromAddress.map AddressRecord.fromDomain
  dest := m.toAddress.map AddressRecord.fromDomain

def MovementRecord.intoDomain (r : MovementRecord) : Except IndexError ValueMovement := do
  let amount ← decodeAmount r.amount
  let id := MovementId.mk r.id
  let asset := r.asset.intoDomain
  match r.kind, r.source, r.dest with
  | .transfer, some source, some dest =>
    pure (.transfer id asset amount source.intoDomain dest.intoDomain)
  | .input, owner, none => pure (.input id asset amount (owner.map AddressRecord.intoDomain))
  | .output, none, owner => pure (.output id asset amount (owner.map AddressRecord.intoDomain))
  | .mint, none, some dest => pure (.mint id asset amount dest.intoDomain)
  | .burn, some source, none => pure (.burn id asset amount source.intoDomain)
  | _, _, _ => throw (recordError "movement record shape is invalid")

/-! ## Transactions and outputs -/

structure FeeRecord where
  asset : AssetRecord
  amount : String
  payer : Option AddressRecord
  deriving DecidableEq

def FeeRecord.fromDomain (f : NetworkFee) : FeeRecord where
  asset := AssetRecord.fromDomain f.asset
  amount := f.amount.toText
  payer := f.payer.map AddressRecord.fromDomain

def FeeRecord.intoDomain (r : FeeRecord) : Except IndexError NetworkFee := do
  let amount ← decodeAmount r.amount
  pure { asset := r.asset.intoDomain, amount, payer := r.payer.map AddressRecord.intoDomain }

/-- The status of a transaction as it is stored, with its block. -/
inductive StatusRecord where
  | included (block : BlockRecord)
  | failed (block : BlockRecord) (reason : Option String)
  deriving DecidableEq

def StatusRecord.fromDomain : CanonicalStatus → StatusRecord
  | .included block => included (BlockRecord.fromDomain block)
  | .failed block reason => failed (BlockRecord.fromDomain block) reason

def StatusRecord.intoDomain : StatusRecord → CanonicalStatus
  | included block => .included block.intoDomain
  | failed block reason => .failed block.intoDomain reason

/-- A transaction as it is stored. -/
structure TransactionRecord where
  id : TransactionIdentity
  status : StatusRecord
  movements : List MovementRecord
  fee : Option FeeRecord
  deriving DecidableEq

def TransactionRecord.fromDomain (t : CanonicalTransaction) : TransactionRecord where
  id := TransactionIdentity.fromDomain t.transactionId
  status := StatusRecord.fromDomain t.status
  movements := t.movements.map MovementRecord.fromDomain
  fee := t.fee.map FeeRecord.fromDomain

def movementsIntoDomain : List MovementRecord → Except IndexError (List ValueMovement)
  | [] => pure []
  | r :: rest => do
    let m ← r.intoDomain
    let ms ← movementsIntoDomain rest
    pure (m :: ms)

def feeIntoDomain : Option FeeRecord → Except IndexError (Option NetworkFee)
  | none => pure none
  | some r => do
    let f ← r.intoDomain
    pure (some f)

def TransactionRecord.intoDomain (r : TransactionRecord) : Except IndexError CanonicalTransaction := do
  let movements ← movementsIntoDomain r.movements
  let fee ← feeIntoDomain r.fee
  pure { scope := r.id.intoDomain.scope, transactionId := r.id.intoDomain,
         status := r.status.intoDomain, movements, fee }

/-- What an output record is about. -/
structure OutputIdentity where
  address : AddressRecord
  transaction : TransactionIdentity
  index : UInt32
  deriving DecidableEq

def OutputIdentity.fromDomain (k : OutputKey) : OutputIdentity :=
  ⟨AddressRecord.fromDomain k.address, TransactionIdentity.fromDomain k.output.transaction,
    k.output.index⟩

def OutputIdentity.intoDomain (r : OutputIdentity) : OutputKey :=
  ⟨r.address.intoDomain, ⟨r.transaction.intoDomain, r.index⟩⟩

/-- An output as it is stored, with its amount as a text. -/
structure OutputRecord where
  id : OutputIdentity
  asset : AssetRecord
  amount : String
  evidence : List UInt8
  createdAt : UInt64
  coinbase : Bool
  deriving DecidableEq

def OutputRecord.fromDomain (o : IndexedOutput) : OutputRecord where
  id := OutputIdentity.fromDomain o.key
  asset := AssetRecord.fromDomain o.asset
  amount := o.amount.toText
  evidence := o.evidence
  createdAt := o.createdAt.val
  coinbase := o.coinbase

def OutputRecord.intoDomain (r : OutputRecord) : Except IndexError IndexedOutput := do
  let amount ← decodeAmount r.amount
  pure { id := r.id.intoDomain.output, address := r.id.intoDomain.address,
         asset := r.asset.intoDomain, amount, evidence := r.evidence,
         createdAt := ⟨r.createdAt⟩, coinbase := r.coinbase }

/-! ## Round trips -/

theorem decodeAmount_toText {d : Decimal} (h : isNegative d = false) :
    decodeAmount d.toText = .ok d := by
  have hval : d.validateAmount = .ok () := by
    unfold isNegative at h
    split at h
    · assumption
    · cases h
  obtain ⟨n, hn⟩ : ∃ n, d.toAtomic d.scale = .ok n :=
    ⟨d.coefficient.natAbs * 10 ^ (d.scale - d.scale), by
      simp [Decimal.toAtomic, hval, bind, Except.bind, pure, Except.pure]⟩
  simp [decodeAmount, Decimal.fromText_toText, hn]

theorem MovementRecord.intoDomain_fromDomain {m : ValueMovement} (h : isNegative m.amount = false) :
    (MovementRecord.fromDomain m).intoDomain = .ok m := by
  have hd := decodeAmount_toText h
  cases m with
  | input id asset amount owner | output id asset amount owner =>
    simp only [ValueMovement.amount] at hd
    cases owner <;>
      simp [MovementRecord.intoDomain, MovementRecord.fromDomain, MovementTag.ofMovement,
        ValueMovement.id, ValueMovement.asset, ValueMovement.amount, ValueMovement.fromAddress,
        ValueMovement.toAddress, hd, bind, Except.bind, pure, Except.pure]
  | transfer id asset amount source dest | mint id asset amount dest
  | burn id asset amount source =>
    simp only [ValueMovement.amount] at hd
    simp [MovementRecord.intoDomain, MovementRecord.fromDomain, MovementTag.ofMovement,
      ValueMovement.id, ValueMovement.asset, ValueMovement.amount, ValueMovement.fromAddress,
      ValueMovement.toAddress, hd, bind, Except.bind, pure, Except.pure]

theorem movementsIntoDomain_map {ms : List ValueMovement}
    (h : ∀ m ∈ ms, isNegative m.amount = false) :
    movementsIntoDomain (ms.map MovementRecord.fromDomain) = .ok ms := by
  induction ms with
  | nil => rfl
  | cons m rest ih =>
    simp [movementsIntoDomain, MovementRecord.intoDomain_fromDomain (h m List.mem_cons_self),
      ih fun x hx => h x (List.mem_cons_of_mem _ hx), bind, Except.bind, pure, Except.pure]

theorem feeIntoDomain_map {fee : Option NetworkFee} (h : ∀ f ∈ fee, isNegative f.amount = false) :
    feeIntoDomain (fee.map FeeRecord.fromDomain) = .ok fee := by
  cases fee with
  | none => rfl
  | some f =>
    simp only [Option.map_some, feeIntoDomain, FeeRecord.intoDomain, FeeRecord.fromDomain,
      decodeAmount_toText (h f rfl), map_address_intoDomain, AssetRecord.intoDomain_fromDomain,
      bind, Except.bind, pure, Except.pure]

theorem StatusRecord.intoDomain_fromDomain (s : CanonicalStatus) :
    (StatusRecord.fromDomain s).intoDomain = s := by
  cases s <;> simp [StatusRecord.fromDomain, StatusRecord.intoDomain]

theorem TransactionRecord.intoDomain_fromDomain {t : CanonicalTransaction} {scope : IndexScope}
    {block : BlockRef} (h : t.Valid scope block) :
    (TransactionRecord.fromDomain t).intoDomain = .ok t := by
  have hms := movementsIntoDomain_map fun m hm => (h.movements m hm).1
  have hfee := feeIntoDomain_map fun f hf => (h.fee f hf).1
  have hscope : t.transactionId.scope = t.scope := by rw [h.id_scope, h.scope_eq]
  simp [TransactionRecord.intoDomain, TransactionRecord.fromDomain, hms, hfee,
    StatusRecord.intoDomain_fromDomain, hscope, bind, Except.bind, pure, Except.pure]

theorem OutputRecord.intoDomain_fromDomain {o : IndexedOutput} (h : isNegative o.amount = false) :
    (OutputRecord.fromDomain o).intoDomain = .ok o := by
  simp [OutputRecord.intoDomain, OutputRecord.fromDomain, OutputIdentity.fromDomain,
    OutputIdentity.intoDomain, IndexedOutput.key, decodeAmount_toText h, bind, Except.bind, pure,
    Except.pure]

/-! ## The journal, and what the store holds -/

/-- An output that the journal puts back, with its key. -/
structure RestoredOutput where
  key : Key
  value : OutputRecord
  deriving DecidableEq

/-- What one block changed, so that it can be taken back. -/
structure JournalRecord where
  block : BlockRecord
  previousCheckpoint : Option BlockRecord
  historyKeys : List Key
  removeOutputKeys : List Key
  restoreOutputs : List RestoredOutput
  deriving DecidableEq

def JournalRecord.blockRef (j : JournalRecord) : BlockRef := j.block.intoDomain

/-- A stored value. The binary codec is taken to be exact, so a value is its record. -/
inductive Value where
  | block (record : BlockRecord)
  | journal (record : JournalRecord)
  | transaction (record : TransactionRecord)
  | output (record : OutputRecord)
  deriving DecidableEq

/-- The record types that the codec reads and writes. -/
class Record (T : Type) where
  encode : T → Value
  decode : Value → Option T
  decode_encode : ∀ r, decode (encode r) = some r
  encode_decode : ∀ v r, decode v = some r → v = encode r

instance : Record BlockRecord where
  encode := .block
  decode | .block r => some r | _ => none
  decode_encode _ := rfl
  encode_decode v r h := by cases v <;> simp_all

instance : Record JournalRecord where
  encode := .journal
  decode | .journal r => some r | _ => none
  decode_encode _ := rfl
  encode_decode v r h := by cases v <;> simp_all

instance : Record TransactionRecord where
  encode := .transaction
  decode | .transaction r => some r | _ => none
  decode_encode _ := rfl
  encode_decode v r h := by cases v <;> simp_all

instance : Record OutputRecord where
  encode := .output
  decode | .output r => some r | _ => none
  decode_encode _ := rfl
  encode_decode v r h := by cases v <;> simp_all

end PaymentSdk.Redb
