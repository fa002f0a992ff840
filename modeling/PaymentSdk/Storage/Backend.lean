import PaymentSdk.Lib.Checked
import PaymentSdk.Storage.Codec

/-!
# The storage backend

Point reads, prefix scans and atomic batches over one table of physical keys and frames. A batch
that fails leaves the database as it was.
-/

open Std KvStore

namespace PaymentSdk.Storage

/-- What has to hold for a batch to be committed. -/
inductive Condition where
  | missing (ns : Namespace) (key : Key)
  | version (ns : Namespace) (key : Key) (expected : UInt64)
  deriving DecidableEq

inductive Operation where
  | put (ns : Namespace) (key : Key) (value : Bytes)
  | delete (ns : Namespace) (key : Key)
  deriving DecidableEq

/-- Operations that are committed together, under all of the conditions. -/
structure WriteBatch where
  conditions : List Condition := []
  operations : List Operation := []

/-- The prefix, the cursor and the limit of a scan. -/
structure ScanRequest where
  ns : Namespace
  pre : Bytes
  after : Option Key
  limit : Nat

/-- The entries of one page, and the key to go on from. -/
structure ScanPage where
  entries : List (Key × Stored Bytes)
  next : Option Key
  deriving DecidableEq

abbrev DataTable := ExtTreeMap Key Bytes compare

/-- The data table, and the global version in the metadata table. -/
structure Backend where
  data : DataTable
  globalVersion : Option Bytes

/-- A database that has just been initialized. -/
def Backend.fresh : Backend := ⟨∅, none⟩

/-! ## Reads -/

def Backend.get (b : Backend) (ns : Namespace) (key : Key) : Except Error (Option (Stored Bytes)) := do
  let physicalKey ← encodePhysicalKey ns key
  match b.data[physicalKey]? with
  | none => return none
  | some raw => return some (← StoredRecord.tryFrom raw).stored

/-- The loop of a scan over the records from the start key on. -/
def collect (request : ScanRequest) (physicalPrefix : Bytes) (readLimit : Nat) :
    List (Bytes × Bytes) → List (Key × Stored Bytes) → Except Error (List (Key × Stored Bytes))
  | [], entries => .ok entries
  | (physicalKey, rawValue) :: rest, entries =>
    if !physicalPrefix.isPrefixOf physicalKey then .ok entries
    else do
      let logicalKey ← decodePhysicalKey physicalKey request.ns
      if request.after.any fun after => (compare logicalKey after).isLE then
        collect request physicalPrefix readLimit rest entries
      else
        let record ← StoredRecord.tryFrom rawValue
        let entries := entries ++ [(logicalKey, record.stored)]
        if entries.length = readLimit then .ok entries
        else collect request physicalPrefix readLimit rest entries

/-- Reads one entry more than the page takes, to see whether another page follows. -/
def Backend.scanOnce (b : Backend) (request : ScanRequest) (physicalPrefix start : Bytes)
    (readLimit : Nat) : Except Error ScanPage := do
  let range := b.data.toList.filter fun e => (compare start e.1).isLE
  let entries ← collect request physicalPrefix readLimit range []
  if request.limit < entries.length then
    return ⟨entries.dropLast, entries.dropLast.getLast?.map (·.1)⟩
  else return ⟨entries, none⟩

/-- Where a scan starts: at its cursor, or at the first key under its prefix. -/
def ScanRequest.start (request : ScanRequest) (physicalPrefix : Bytes) : Except Error Bytes :=
  match request.after with
  | some after => encodePhysicalKey request.ns after
  | none => .ok physicalPrefix

def Backend.scan (b : Backend) (request : ScanRequest) : Except Error ScanPage :=
  if request.limit = 0 then .error (.invalid "scan limit must be greater than zero")
  else if 2 ^ 64 ≤ request.limit + 1 then .error (.invalid "scan limit is too large")
  else if request.after.any fun after => !request.pre.isPrefixOf after then
    .error (.invalid "scan continuation key does not match the requested prefix")
  else do
    let header ← namespacePrefix request.ns
    let physicalPrefix := header ++ request.pre
    let start ← request.start physicalPrefix
    b.scanOnce request physicalPrefix start (request.limit + 1)

/-! ## Batches -/

def Error.conflict (message : String) : Error := ⟨.conflict, message⟩

def Backend.evaluateCondition (b : Backend) : Condition → Except Error Unit
  | .missing ns key => do
    let physicalKey ← encodePhysicalKey ns key
    if b.data[physicalKey]?.isSome then
      throw (.conflict
        s!"missing condition failed in namespace `{ns.name}` because the key exists")
  | .version ns key expected => do
    let physicalKey ← encodePhysicalKey ns key
    match b.data[physicalKey]? with
    | none =>
      throw (.conflict s!"version condition failed in namespace `{ns.name}` because the key is missing")
    | some raw =>
      let actual ← StoredRecord.tryFrom raw
      if actual.storageVersion ≠ expected then
        throw (.conflict (s!"version condition failed in namespace `{ns.name}`: " ++
          s!"expected {expected}, found {actual.storageVersion}"))

def applyOperation (version : UInt64) (data : DataTable) : Operation → Except Error DataTable
  | .put ns key value => do
    let physicalKey ← encodePhysicalKey ns key
    let record ← StoredRecord.new value version
    return data.insert physicalKey record.encode
  | .delete ns key => do
    let physicalKey ← encodePhysicalKey ns key
    return data.erase physicalKey

def Backend.currentVersion (b : Backend) : Except Error UInt64 :=
  match b.globalVersion with
  | some raw => do return (← GlobalVersion.tryFrom raw).version
  | none => return 0

/-- All conditions are checked before the first operation. -/
def Backend.commitOnce (b : Backend) (batch : WriteBatch) : Except Error (UInt64 × Backend) := do
  batch.conditions.forM b.evaluateCondition
  let current ← b.currentVersion
  if current.toNat + 1 = 2 ^ 64 then throw ⟨.other, "global storage version is exhausted"⟩
  let next := current + 1
  let data ← batch.operations.foldlM (applyOperation next) b.data
  let encoded ← GlobalVersion.new next
  return (next, ⟨data, some encoded.encode⟩)

/-- An aborted transaction writes nothing. -/
def Backend.commit (b : Backend) (batch : WriteBatch) : Except Error UInt64 × Backend :=
  match b.commitOnce batch with
  | .error e => (.error e, b)
  | .ok (version, b') => (.ok version, b')

/-- The database after a sequence of batches, some of which may fail. -/
def Backend.run (b : Backend) (batches : List WriteBatch) : Backend :=
  batches.foldl (fun b batch => (b.commit batch).2) b

end PaymentSdk.Storage
