import PaymentSdk.Redb.Record

/-!
# The redb repository

Each method is a program over the store: point reads and scans one by one, then at
most one commit. A `for` loop of the source is a `foldlM` over the same list, with the
batch built so far. Failures of the disk itself are not modelled here.
-/

open Interaction KvStore

namespace PaymentSdk.Redb

abbrev Call := ExceptT IndexError (Prog (storeCalls Value))

/-! ## Storage -/

structure VersionedRecord (T : Type) where
  value : T
  version : Nat

/-- Conflicts may be tried again. The other refusals of a commit may not. -/
def storageError : CommitError → IndexError
  | .exists =>
    ⟨.conflict, "missing condition failed in namespace `index` because the key exists", true⟩
  | .absent =>
    ⟨.conflict, "version condition failed in namespace `index` because the key is missing", true⟩
  | .version expected found =>
    ⟨.conflict, s!"version condition failed in namespace `index`: expected {expected}, found {found}",
      true⟩
  | .exhausted => ⟨.store, "global storage version is exhausted", false⟩
  | .oversize => ⟨.store, "storage value exceeds the physical record size limit", false⟩

def scanError : ScanError → IndexError
  | .zeroLimit => ⟨.store, "scan limit must be greater than zero", false⟩
  | .largeLimit => ⟨.store, "scan limit is too large", false⟩
  | .foreignCursor =>
    ⟨.store, "scan continuation key does not match the requested prefix", false⟩

def decode (T : Type) [Record T] (value : Value) : Except IndexError T :=
  match Record.decode value with
  | some record => .ok record
  | none => .error (recordError "cannot decode record")

def get (T : Type) [Record T] (key : Key) : Call (Option (VersionedRecord T)) :=
  .call (.get key) fun
    | none => .done (.ok none)
    | some stored =>
      match decode T stored.value with
      | .ok value => .done (.ok (some ⟨value, stored.version⟩))
      | .error e => .done (.error e)

def commit (batch : WriteBatch Value) : Call Unit :=
  .call (.commit batch) fun
    | .ok _ => .done (.ok ())
    | .error e => .done (.error (storageError e))

def scan (pre : Key) (after : Option Key) (limit : Nat) : Call (ScanPage Value) :=
  .call (.scan pre after limit) fun
    | .ok page => .done (.ok page)
    | .error e => .done (.error (scanError e))

def put {T : Type} [Record T] (batch : WriteBatch Value) (key : Key) (value : T) : WriteBatch Value :=
  { batch with operations := batch.operations ++ [.put key (Record.encode value)] }

def delete (batch : WriteBatch Value) (key : Key) : WriteBatch Value :=
  { batch with operations := batch.operations ++ [.delete key] }

/-- What was read has to be there still, in the same version. -/
def condition {T : Type} (key : Key) : Option (VersionedRecord T) → Condition
  | some stored => .version key stored.version
  | none => .missing key

def expect {T : Type} (batch : WriteBatch Value) (key : Key) (value : Option (VersionedRecord T)) :
    WriteBatch Value :=
  { batch with conditions := batch.conditions ++ [condition key value] }

/-- The batch also requires `key` to be missing. -/
def expectMissing (batch : WriteBatch Value) (key : Key) : WriteBatch Value :=
  expect (T := BlockRecord) batch key none

def checkScope (self scope : IndexScope) : Call Unit :=
  if self = scope then pure ()
  else throw ⟨.scopeMismatch, "request belongs to another repository scope", false⟩

def checkAddress (self : IndexScope) (address : CanonicalAddress) : Call Unit :=
  if address.scope = self ∧ address.value.str.isEmpty = false then pure ()
  else throw ⟨.scopeMismatch, "address belongs to another repository scope", false⟩

def maxPage : Nat := 1000

def validateLimit (limit : Nat) : Call Unit :=
  if 1 ≤ limit ∧ limit ≤ maxPage then pure ()
  else throw ⟨.invalidRequest, "query limit must be between 1 and 1000", false⟩

def currentCheckpoint (self : IndexScope) : Call (Option BlockRef) := do
  let value ← get BlockRecord (Keys.checkpoint self)
  pure (value.map (·.value.intoDomain))

def ensureCheckpoint (self : IndexScope) (expected : Option BlockRef) : Call Unit := do
  let current ← currentCheckpoint self
  if current = expected then pure ()
  else throw ⟨.conflict, "canonical state changed while reading a page", true⟩

/-! ## Reading a block -/

def readBlock (self : IndexScope) : BlockSelector → Call (Option BlockRef)
  | .tip scope => do
    checkScope self scope
    let stored ← get BlockRecord (Keys.checkpoint scope)
    pure (stored.map (·.value.intoDomain))
  | .height scope height => do
    checkScope self scope
    let stored ← get JournalRecord (Keys.journal scope height)
    pure (stored.map (·.value.blockRef))

/-! ## Writing a block -/

/-- Every transaction with each of its addresses. -/
def historyPairs (a : BlockAddition) : List (CanonicalTransaction × CanonicalAddress) :=
  a.transactions.flatMap fun t => t.addresses.toList.map fun address => (t, address)

def historyKey (self : IndexScope) (p : CanonicalTransaction × CanonicalAddress) : Key :=
  Keys.history self p.2 p.1.block.height p.1.transactionId

/-- Puts a record that must be new, and notes its key for the journal. -/
def addMissing {T : Type} [Record T] (message : String) (key : Key) (value : T)
    (acc : WriteBatch Value × List Key) : Call (WriteBatch Value × List Key) := do
  let existing ← get T key
  if existing.isSome then throw ⟨.conflict, message, true⟩
  else pure (put (expectMissing acc.1 key) key value, acc.2 ++ [key])

def addHistory (self : IndexScope) (acc : WriteBatch Value × List Key)
    (p : CanonicalTransaction × CanonicalAddress) : Call (WriteBatch Value × List Key) :=
  addMissing "canonical history entry already exists" (historyKey self p)
    (TransactionRecord.fromDomain p.1) acc

def addCreated (self : IndexScope) (acc : WriteBatch Value × List Key) (o : IndexedOutput) :
    Call (WriteBatch Value × List Key) :=
  addMissing "created output already exists" (Keys.output self o.key) (OutputRecord.fromDomain o) acc

/-- `true` marks a required spend, which must find its output. -/
def addSpend (self : IndexScope) (acc : WriteBatch Value × List RestoredOutput)
    (spend : OutputKey × Bool) : Call (WriteBatch Value × List RestoredOutput) := do
  let key := Keys.output self spend.1
  match ← get OutputRecord key with
  | none =>
    if spend.2 then throw ⟨.invalidBlock, "block spends an unknown indexed output", false⟩
    else pure acc
  | some existing =>
    let batch := delete (expect acc.1 key (some existing)) key
    pure (batch, acc.2 ++ [⟨key, existing.value⟩])

/-- Spends in the order they are looked up, with whether the output has to be there. -/
def requiredThenTracked (o : OutputChanges) : List (OutputKey × Bool) :=
  o.spent.map (·, true) ++ o.trackedSpends.map (·, false)

/-- The journal entry that falls out of retention, if there can be one. -/
def agedOut (a : BlockAddition) : Option BlockHeight :=
  if a.retention ≤ a.block.height.toNat then
    some ⟨UInt64.ofNat (a.block.height.toNat - a.retention)⟩
  else none

def journalRecord (a : BlockAddition) (historyKeys removeOutputKeys : List Key)
    (restoreOutputs : List RestoredOutput) : JournalRecord where
  block := BlockRecord.fromDomain a.block
  previousCheckpoint := a.expectedCheckpoint.map BlockRecord.fromDomain
  historyKeys := historyKeys
  removeOutputKeys := removeOutputKeys
  restoreOutputs := restoreOutputs

/-- The last operations of an addition: journal, checkpoint, and pruning. -/
def putJournal (self : IndexScope) (a : BlockAddition) (batch : WriteBatch Value)
    (journal : JournalRecord) : WriteBatch Value :=
  let batch := put batch (Keys.journal self a.block.height) journal
  let batch := put batch (Keys.checkpoint self) (BlockRecord.fromDomain a.block)
  match agedOut a with
  | some height => delete batch (Keys.journal self height)
  | none => batch

/-- The part of `writeBlock` after its checks: `batch` holds the first two conditions. -/
def writeFacts (self : IndexScope) (a : BlockAddition) (batch : WriteBatch Value) :
    Call BlockOutcome := do
  let (batch, historyKeys) ← (historyPairs a).foldlM (addHistory self) (batch, [])
  let (batch, removeOutputKeys) ← a.outputs.created.foldlM (addCreated self) (batch, [])
  let (batch, restoreOutputs) ← (requiredThenTracked a.outputs).foldlM (addSpend self) (batch, [])
  let journal := journalRecord a historyKeys removeOutputKeys restoreOutputs
  commit (putJournal self a batch journal)
  pure .applied

def writeBlock (self : IndexScope) (a : BlockAddition) : Call BlockOutcome := do
  checkScope self a.scope
  let checkpoint ← get BlockRecord (Keys.checkpoint self)
  let current := checkpoint.map (·.value.intoDomain)
  let journal ← get JournalRecord (Keys.journal self a.block.height)
  if current = some a.block then
    if journal.map (·.value.blockRef) = some a.block then pure .alreadyApplied
    else throw (recordError "canonical checkpoint is missing its rollback journal")
  else if journal.isSome then
    throw ⟨.cannotConnect, "another retained block exists at this height", true⟩
  else if current ≠ a.expectedCheckpoint then
    throw ⟨.conflict, "checkpoint changed before block commit", true⟩
  else
    let batch := expect {} (Keys.checkpoint self) checkpoint
    let batch := expectMissing batch (Keys.journal self a.block.height)
    writeFacts self a batch

/-! ## Removing the tip -/

def removeHistory (scope : IndexScope) (batch : WriteBatch Value) (key : Key) :
    Call (WriteBatch Value) := do
  if Keys.isHistory scope key = false then
    throw (recordError "rollback journal contains a foreign history key")
  else
    match ← get TransactionRecord key with
    | none => throw (recordError "rollback history entry is missing")
    | some existing =>
      let _ ← ExceptT.mk (.done existing.value.intoDomain)
      pure (delete (expect batch key (some existing)) key)

def removeOutput (scope : IndexScope) (batch : WriteBatch Value) (key : Key) :
    Call (WriteBatch Value) := do
  if Keys.isOutput scope key = false then
    throw (recordError "rollback journal contains a foreign output key")
  else
    match ← get OutputRecord key with
    | none => throw (recordError "rollback output is missing")
    | some existing =>
      let output ← ExceptT.mk (.done existing.value.intoDomain)
      if Keys.output scope output.key ≠ key then
        throw (recordError "rollback output key does not match its stored value")
      else pure (delete (expect batch key (some existing)) key)

def restoreOutput (scope : IndexScope) (batch : WriteBatch Value) (restored : RestoredOutput) :
    Call (WriteBatch Value) := do
  if Keys.isOutput scope restored.key = false then
    throw (recordError "rollback journal contains a foreign restored-output key")
  else
    let output ← ExceptT.mk (.done restored.value.intoDomain)
    if Keys.output scope output.key ≠ restored.key then
      throw (recordError "restored output key does not match its journal value")
    else
      let existing ← get OutputRecord restored.key
      if existing.isSome then throw ⟨.conflict, "output to restore already exists", true⟩
      else pure (put (expectMissing batch restored.key) restored.key restored.value)

/-- The last operations of a removal: no journal, and the checkpoint before it. -/
def dropJournal (scope : IndexScope) (tip : BlockRef) (batch : WriteBatch Value)
    (previousCheckpoint : Option BlockRecord) : WriteBatch Value :=
  let batch := delete batch (Keys.journal scope tip.height)
  match previousCheckpoint with
  | some value => put batch (Keys.checkpoint scope) value
  | none => delete batch (Keys.checkpoint scope)

/-- The part of `removeTip` after its checks. -/
def takeBack (scope : IndexScope) (tip : BlockRef) (journal : JournalRecord)
    (batch : WriteBatch Value) : Call (Option BlockRef) := do
  let batch ← journal.historyKeys.foldlM (removeHistory scope) batch
  let batch ← journal.removeOutputKeys.foldlM (removeOutput scope) batch
  let batch ← journal.restoreOutputs.foldlM (restoreOutput scope) batch
  commit (dropJournal scope tip batch journal.previousCheckpoint)
  pure (journal.previousCheckpoint.map BlockRecord.intoDomain)

def removeTip (self scope : IndexScope) (tip : BlockRef) : Call (Option BlockRef) := do
  checkScope self scope
  let checkpoint ← get BlockRecord (Keys.checkpoint scope)
  if checkpoint.map (·.value.intoDomain) ≠ some tip then
    throw ⟨.conflict, "revert must target the current checkpoint", true⟩
  else
    match ← get JournalRecord (Keys.journal scope tip.height) with
    | none => throw ⟨.reorgTooDeep, "rollback journal is not retained", false⟩
    | some journal =>
      if journal.value.blockRef ≠ tip then
        throw (recordError "rollback journal does not match the canonical tip")
      else
        let batch := expect {} (Keys.checkpoint scope) checkpoint
        let batch := expect batch (Keys.journal scope tip.height) (some journal)
        takeBack scope tip journal.value batch

/-! ## Pages -/

/-- A place in the order of a history. -/
structure HistoryPosition where
  height : BlockHeight
  transaction : TransactionRef
  deriving DecidableEq

/-- Where a page ended, and the checkpoint that it belongs to. -/
structure HistoryCursor where
  checkpoint : Option BlockRef
  position : HistoryPosition
  deriving DecidableEq

structure HistoryQuery where
  scope : IndexScope
  address : CanonicalAddress
  after : Option HistoryCursor
  limit : Nat
  deriving DecidableEq

/-- A page of canonical transactions. -/
structure CanonicalPage where
  checkpoint : Option BlockRef
  transactions : List CanonicalTransaction
  next : Option HistoryCursor
  deriving DecidableEq

/-- Where a page of outputs ended, and the checkpoint that it belongs to. -/
structure OutputCursor where
  checkpoint : Option BlockRef
  position : Key
  deriving DecidableEq

structure OutputRequest where
  scope : IndexScope
  address : CanonicalAddress
  after : Option OutputCursor
  limit : Nat
  deriving DecidableEq

/-- A page of the outputs of an address. -/
structure OutputPage where
  checkpoint : Option BlockRef
  outputs : List IndexedOutput
  next : Option OutputCursor
  deriving DecidableEq

def decodeTransaction (value : Value) : Except IndexError CanonicalTransaction := do
  let record ← decode TransactionRecord value
  record.intoDomain

def decodeOutput (value : Value) : Except IndexError IndexedOutput := do
  let record ← decode OutputRecord value
  record.intoDomain

/-- Reads all entries of a page, stopping at the first one that does not decode. -/
def decodeEntries {T : Type} (read : Value → Except IndexError T) :
    List (Key × Stored Value) → Except IndexError (List T)
  | [] => .ok []
  | entry :: rest => do
    let item ← read entry.2.value
    let items ← decodeEntries read rest
    pure (item :: items)

/-- The page is read between two reads of the checkpoint. -/
def listTransactions (self : IndexScope) (request : HistoryQuery) : Call CanonicalPage := do
  checkScope self request.scope
  checkAddress self request.address
  validateLimit request.limit
  let checkpoint ← currentCheckpoint self
  if request.after.any (·.checkpoint ≠ checkpoint) then
    throw ⟨.conflict, "history changed during pagination", true⟩
  else
    let after := request.after.map fun cursor =>
      Keys.history self request.address cursor.position.height cursor.position.transaction
    let page ← scan (Keys.historyPrefix self request.address) after request.limit
    let transactions ← ExceptT.mk (.done (decodeEntries decodeTransaction page.entries))
    ensureCheckpoint self checkpoint
    let last := if page.next.isSome then transactions.getLast? else none
    let next := last.map fun t => ⟨checkpoint, ⟨t.block.height, t.transactionId⟩⟩
    pure { checkpoint, transactions, next }

def listOutputs (self : IndexScope) (request : OutputRequest) : Call OutputPage := do
  checkScope self request.scope
  checkAddress self request.address
  validateLimit request.limit
  let checkpoint ← currentCheckpoint self
  if request.after.any (·.checkpoint ≠ checkpoint) then
    throw ⟨.conflict, "outputs changed during pagination", true⟩
  else
    let after := request.after.map (·.position)
    let page ← scan (Keys.outputPrefix self request.address) after request.limit
    let position := page.entries.getLast?.map (·.1)
    let outputs ← ExceptT.mk (.done (decodeEntries decodeOutput page.entries))
    ensureCheckpoint self checkpoint
    if page.next.isSome then
      match position with
      | none => throw (recordError "paginated output page has no final key")
      | some position => pure { checkpoint, outputs, next := some ⟨checkpoint, position⟩ }
    else pure { checkpoint, outputs, next := none }

/-! ## The two methods that write -/

/-- A call that changes the index. -/
inductive BlockCall where
  | add (addition : BlockAddition)
  | remove (scope : IndexScope) (tip : BlockRef)

/-- What a block call returns. -/
inductive BlockReply where
  | added (outcome : BlockOutcome)
  | removed (restored : Option BlockRef)
  deriving DecidableEq

def BlockCall.program (self : IndexScope) : BlockCall → Call BlockReply
  | add a => do
    let outcome ← writeBlock self a
    pure (.added outcome)
  | remove scope tip => do
    let restored ← removeTip self scope tip
    pure (.removed restored)

end PaymentSdk.Redb
