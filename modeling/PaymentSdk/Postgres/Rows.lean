import PaymentSdk.Indexing.BlockAddition
import PaymentSdk.Lib.Table

/-!
# The tables of the PostgreSQL repository

One set of tables serves every scope. Heights, positions and timestamps are signed 64-bit
columns, and output indices and ordinals are signed 32-bit ones. A number that does not fit is
refused before it is sent.
-/

open Relational

namespace PaymentSdk.Postgres

/-! ## Numbers -/

def store (message : String) : IndexError := ⟨.store, message, false⟩

def asI64 (value : UInt64) (what : String) : Except IndexError Int :=
  if value.toNat < 2 ^ 63 then .ok value.toNat
  else .error ⟨.invalidRequest, s!"{what} exceeds the storage range", false⟩

def asI32 (value : Nat) (message : String) : Except IndexError Int :=
  if value < 2 ^ 31 then .ok value else .error (store message)

def index (value : UInt32) : Except IndexError Int := asI32 value.toNat "output index exceeds the storage range"

/-- A stored number, which must not be negative. -/
def unsigned (value : Int) (message : String) : Except IndexError UInt64 :=
  if 0 ≤ value then .ok (.ofNat value.toNat) else .error (store message)

/-- `row::decimal`. Negative amounts are read as they are. -/
def decimal (encoded : String) : Except IndexError Decimal :=
  match Decimal.fromText encoded with
  | .error _ => .error (store "stored amount is not a valid decimal")
  | .ok value =>
    if value.toText ≠ encoded then .error (store "stored amount is not canonical") else .ok value

/-! ## Blocks -/

/-- The columns of a block, under whatever names. -/
structure BlockColumns where
  position : Int
  height : Int
  hash : BlockHash
  parentPosition : Option Int
  parent : Option BlockHash
  timestamp : Option Int
  deriving DecidableEq

namespace BlockColumns

/-- The check that a block has a parent exactly if it is not at position 0. -/
def parentComplete (c : BlockColumns) : Bool :=
  decide (0 ≤ c.position) &&
    match c.parentPosition, c.parent with
    | none, none => decide (c.position = 0)
    | some p, some _ => decide (0 < c.position ∧ 0 ≤ p ∧ p < c.position)
    | _, _ => false

/-- `row::block`. -/
def block (c : BlockColumns) : Except IndexError BlockRef := do
  let parent ← match c.parentPosition, c.parent with
    | some position, some hash => do
      pure (some ⟨⟨← unsigned position "stored block position is negative"⟩, hash⟩)
    | none, none => pure none
    | _, _ => throw (store "stored block parent is incomplete")
  let position ← unsigned c.position "stored block position is negative"
  let height ← unsigned c.height "stored height is negative"
  let timestamp ← c.timestamp.mapM (unsigned · "stored block timestamp is negative")
  pure ⟨⟨position⟩, ⟨height⟩, c.hash, parent, timestamp⟩

end BlockColumns

/-! ## Rows -/

structure CheckpointRow where
  scope : IndexScope
  block : BlockColumns
  deriving DecidableEq

inductive Status where
  | included
  | failed
  deriving DecidableEq

/-- `block.height` is the height of the primary key. -/
structure HistoryRow where
  scope : IndexScope
  address : Text
  transactionId : Text
  status : Status
  failureReason : Option String
  block : BlockColumns
  feeAsset : Option Text
  feeAmount : Option Decimal
  feePayer : Option Text
  deriving DecidableEq

inductive MovementKind where
  | transfer
  | input
  | output
  | mint
  | burn
  deriving DecidableEq

/-- A row of `payments_movement`. The ordinal is the place within its transaction. -/
structure MovementRow where
  scope : IndexScope
  address : Text
  height : Int
  transactionId : Text
  ordinal : Int
  kind : MovementKind
  movementId : MovementId
  asset : AssetId
  amount : Decimal
  fromAddress : Option Text
  toAddress : Option Text
  deriving DecidableEq

/-- A row of `payments_output`. -/
structure OutputRow where
  scope : IndexScope
  transactionId : Text
  outputIndex : Int
  address : Text
  asset : AssetId
  amount : Decimal
  evidence : List UInt8
  createdAt : Int
  coinbase : Bool
  deriving DecidableEq

/-- A check makes the columns of the previous checkpoint all null or complete. -/
structure JournalRow where
  scope : IndexScope
  block : BlockColumns
  previous : Option BlockColumns
  deriving DecidableEq

/-- An output that the journal keeps, under the height that spent it. -/
structure JournalOutputRow where
  height : Int
  output : OutputRow
  deriving DecidableEq

def checkpointSchema : Schema CheckpointRow IndexScope where
  key r := r.scope
  check r := r.block.parentComplete

def historySchema : Schema HistoryRow (IndexScope × Text × Int × Text) where
  key r := (r.scope, r.address, r.block.height, r.transactionId)
  check r := r.block.parentComplete

def movementSchema : Schema MovementRow (IndexScope × Text × Int × Text × Int) where
  key r := (r.scope, r.address, r.height, r.transactionId, r.ordinal)

def outputSchema : Schema OutputRow (IndexScope × Text × Int) where
  key r := (r.scope, r.transactionId, r.outputIndex)

def journalSchema : Schema JournalRow (IndexScope × Int) where
  key r := (r.scope, r.block.height)
  check r := r.block.parentComplete && r.previous.all fun p => decide (0 ≤ p.height) && p.parentComplete

def journalOutputSchema : Schema JournalOutputRow (IndexScope × Int × Text × Int) where
  key r := (r.output.scope, r.height, r.output.transactionId, r.output.outputIndex)

/-- The tables, each a list of rows. -/
structure Db where
  checkpoint : List CheckpointRow := []
  history : List HistoryRow := []
  movement : List MovementRow := []
  output : List OutputRow := []
  journal : List JournalRow := []
  journalOutput : List JournalOutputRow := []
  deriving DecidableEq

/-! ## The columns that a block addition binds -/

/-- What is unnested into a history row. -/
structure HistoryEntry where
  address : Text
  transactionId : Text
  status : Status
  failureReason : Option String
  feeAsset : Option Text
  feeAmount : Option Decimal
  feePayer : Option Text

/-- What is unnested into a movement row. -/
structure MovementEntry where
  address : Text
  transactionId : Text
  ordinal : Int
  kind : MovementKind
  movementId : MovementId
  asset : AssetId
  amount : Decimal
  fromAddress : Option Text
  toAddress : Option Text

def MovementKind.of : ValueMovement → MovementKind
  | .transfer .. => transfer
  | .input .. => input
  | .output .. => output
  | .mint .. => mint
  | .burn .. => burn

/-- `MovementRows::extend`, one transaction for one address. -/
def movementsOf (t : CanonicalTransaction) (address : CanonicalAddress) :
    Except IndexError (List MovementEntry) :=
  t.movements.zipIdx.mapM fun (m, ordinal) => do
    let ordinal ← asI32 ordinal "transaction has too many movements"
    pure { address := address.value, transactionId := t.transactionId.value, ordinal, kind := .of m,
           movementId := m.id, asset := m.asset, amount := m.amount,
           fromAddress := m.fromAddress.map (·.value), toAddress := m.toAddress.map (·.value) }

def historyEntry (t : CanonicalTransaction) (address : CanonicalAddress) : HistoryEntry where
  address := address.value
  transactionId := t.transactionId.value
  status := match t.status with
    | .included _ => .included
    | .failed _ _ => .failed
  failureReason := match t.status with
    | .included _ => none
    | .failed _ reason => reason
  feeAsset := t.fee.map (·.asset.asset)
  feeAmount := t.fee.map (·.amount)
  feePayer := (t.fee.bind (·.payer)).map (·.value)

/-- A transaction once for every address that it touches. -/
def touched (a : BlockAddition) : List (CanonicalTransaction × CanonicalAddress) :=
  a.transactions.flatMap fun t => t.addresses.toList.map (t, ·)

/-- `HistoryRows::try_from`. -/
def historyRows (a : BlockAddition) : Except IndexError (List HistoryEntry × List MovementEntry) := do
  let movements ← (touched a).mapM fun (t, address) => movementsOf t address
  pure ((touched a).map fun (t, address) => historyEntry t address, movements.flatten)

/-- `OutputRows::try_from`, with the scope and the height that every row shares. -/
def outputRows (scope : IndexScope) (height : Int) (outputs : List IndexedOutput) :
    Except IndexError (List OutputRow) :=
  outputs.mapM fun o => do
    pure { scope, transactionId := o.id.transaction.value, outputIndex := ← index o.id.index,
           address := o.address.value, asset := o.asset, amount := o.amount, evidence := o.evidence,
           createdAt := height, coinbase := o.coinbase }

/-- What identifies an output in a spend statement. -/
structure SpendKey where
  address : Text
  transactionId : Text
  outputIndex : Int
  deriving DecidableEq

def spendKeys (keys : List OutputKey) : Except IndexError (List SpendKey) :=
  keys.mapM fun k => do
    pure ⟨k.address.value, k.output.transaction.value, ← index k.output.index⟩

end PaymentSdk.Postgres
