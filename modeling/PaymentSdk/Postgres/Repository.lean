import PaymentSdk.Postgres.Rows

/-!
# The PostgreSQL repository

`writeBlock` and `removeTip` are each one serial transaction. On an error nothing of it stays.
A statement is prepared before it is executed, and a column that is qualified by a table the
statement does not name is refused there.
-/

open Relational

namespace PaymentSdk.Postgres

/-! ## Errors -/

def refusal : Refused → String
  | .undefinedTable name => s!"db error: ERROR: missing FROM-clause entry for table \"{name}\""
  | .unique => "db error: ERROR: duplicate key value violates unique constraint"
  | .check => "db error: ERROR: new row violates check constraint"
  | .foreignKey => "db error: ERROR: insert or update violates foreign key constraint"

/-- `crate::store`. -/
def storeError (r : Refused) : IndexError := ⟨.store, refusal r, true⟩

/-- A refused key is a conflict, which may be tried again. -/
def conflictAware : Refused → IndexError
  | .unique => ⟨.conflict, "canonical record already exists", true⟩
  | r => storeError r

def execute {α : Type} (error : Refused → IndexError) (statement : Except Refused α) : Except IndexError α :=
  statement.mapError error

/-! ## Statements with qualified columns -/

/-- `WRITE_HISTORY`, `WRITE_MOVEMENT` and `WRITE_CREATED` select from `UNNEST(...) AS entry`. -/
def unnestEntry : Names := ⟨["entry"], ["entry"]⟩

/-- The `DELETE` of `SPEND_OUTPUTS`. -/
def spendOutputs : Names where
  entries := ["payments_output", "target"]
  qualifiers := ["output", "output", "output", "target", "output", "target", "output", "target", "output"]

/-! ## Reading -/

/-- `query_opt`. A primary key gives at most one row. -/
def queryOpt {ρ : Type} (rows : List ρ) : Except IndexError (Option ρ) :=
  match rows with
  | [] => .ok none
  | [r] => .ok (some r)
  | _ => .error ⟨.store, "query returned an unexpected number of rows", true⟩

def checkScope (repository scope : IndexScope) : Except IndexError Unit :=
  if scope = repository then .ok ()
  else .error ⟨.scopeMismatch, "request belongs to another index scope", false⟩

/-- The checkpoint row of the scope, locked until the transaction ends. -/
def lockedCheckpoint (db : Db) (scope : IndexScope) : Except IndexError (Option BlockRef) := do
  match ← queryOpt (db.checkpoint.filter (·.scope = scope)) with
  | none => pure none
  | some row => some <$> row.block.block

/-- The journal row of a height. -/
def journalEntry (db : Db) (scope : IndexScope) (height : Int) : Except IndexError (Option JournalRow) :=
  queryOpt (db.journal.filter fun r => r.scope = scope ∧ r.block.height = height)

/-! ## Writing -/

/-- `DELETE FROM payments_journal`. The outputs of a row go with it. -/
def deleteJournal (db : Db) (p : JournalRow → Bool) : Db where
  checkpoint := db.checkpoint
  history := db.history
  movement := db.movement
  output := db.output
  journal := deleteWhere p db.journal
  journalOutput := deleteWhere
    (fun o => db.journal.any fun r => p r && r.scope = o.output.scope && r.block.height = o.height) db.journalOutput

/-- The heights that have aged out. -1 is a height that no row has. -/
def oldestOf (a : BlockAddition) : Except IndexError Int :=
  if a.retention ≤ a.block.height.toNat then asI64 (.ofNat (a.block.height.toNat - a.retention)) "block height"
  else .ok (-1)

def writeJournal (db : Db) (scope : IndexScope) (height : Int) (a : BlockAddition) : Except IndexError Db := do
  let previous := a.expectedCheckpoint
  let previousHeight ← previous.mapM fun b => asI64 b.height.val "block height"
  let previousPosition ← previous.mapM fun b => asI64 b.position.val "block position"
  let previousParentPosition ← (previous.bind (·.parent)).mapM fun p => asI64 p.position.val "parent block position"
  let previousTime ← (previous.bind (·.timestamp)).mapM fun t => asI64 t "block timestamp"
  let oldest ← oldestOf a
  let timestamp ← a.block.timestamp.mapM fun t => asI64 t "block timestamp"
  let position ← asI64 a.block.position.val "block position"
  let parentPosition ← a.block.parent.mapM fun p => asI64 p.position.val "parent block position"
  let previousColumns := previous.bind fun b => do
    pure { position := ← previousPosition, height := ← previousHeight, hash := b.hash,
           parentPosition := previousParentPosition, parent := b.parent.map (·.hash), timestamp := previousTime }
  let row : JournalRow := ⟨scope,
    ⟨position, height, a.block.hash, parentPosition, a.block.parent.map (·.hash), timestamp⟩, previousColumns⟩
  -- Both parts of the statement see the table as it was before.
  let pruned := deleteJournal db fun r => r.scope = scope ∧ r.block.height ≤ oldest
  let _ ← execute storeError (insertRow journalSchema db.journal row)
  pure { pruned with journal := pruned.journal ++ [row] }

def HistoryEntry.row (e : HistoryEntry) (scope : IndexScope) (block : BlockColumns) : HistoryRow :=
  ⟨scope, e.address, e.transactionId, e.status, e.failureReason, block, e.feeAsset, e.feeAmount, e.feePayer⟩

def MovementEntry.row (e : MovementEntry) (scope : IndexScope) (height : Int) : MovementRow :=
  ⟨scope, e.address, height, e.transactionId, e.ordinal, e.kind, e.movementId, e.asset, e.amount, e.fromAddress,
    e.toAddress⟩

/-- The second half of `write_history`. -/
def writeMovements (db : Db) (scope : IndexScope) (height : Int) (movements : List MovementEntry) :
    Except IndexError Db := do
  if movements.isEmpty then return db
  execute storeError unnestEntry.prepare
  let movement ← execute conflictAware
    (insertRows movementSchema db.movement (movements.map (·.row scope height)))
  return { db with movement }

def writeHistory (db : Db) (scope : IndexScope) (height : Int) (a : BlockAddition) : Except IndexError Db := do
  let (history, movements) ← historyRows a
  if history.isEmpty then return db
  let position ← asI64 a.block.position.val "block position"
  let parentPosition ← a.block.parent.mapM fun p => asI64 p.position.val "parent block position"
  let timestamp ← a.block.timestamp.mapM fun t => asI64 t "block timestamp"
  execute storeError unnestEntry.prepare
  let history ← execute conflictAware (insertRows historySchema db.history (history.map (·.row scope
    ⟨position, height, a.block.hash, parentPosition, a.block.parent.map (·.hash), timestamp⟩)))
  writeMovements { db with history } scope height movements

def writeCreated (db : Db) (scope : IndexScope) (height : Int) (a : BlockAddition) : Except IndexError Db := do
  let rows ← outputRows scope height a.outputs.created
  if rows.isEmpty then return db
  execute storeError unnestEntry.prepare
  let output ← execute conflictAware (insertRows outputSchema db.output rows)
  return { db with output }

def SpendKey.names (scope : IndexScope) (o : OutputRow) (k : SpendKey) : Bool :=
  o.scope = scope && o.address = k.address && o.transactionId = k.transactionId && o.outputIndex = k.outputIndex

/-- The outputs leave the live set for the journal. Returns how many there were. -/
def spend (db : Db) (scope : IndexScope) (height : Int) (keys : List SpendKey) : Except IndexError (Nat × Db) := do
  execute storeError spendOutputs.prepare
  let named (o : OutputRow) : Bool := keys.any (SpendKey.names scope o)
  let removed := db.output.filter named
  let journalOutput ← execute storeError (insertRows journalOutputSchema db.journalOutput
    (removed.map fun o => ⟨height, o⟩))
  if !removed.isEmpty && !db.journal.any (fun r => r.scope = scope && r.block.height = height) then
    throw (storeError .foreignKey)
  return (removed.length, { db with output := deleteWhere named db.output, journalOutput })

/-- Every required spend must be there. -/
def spendRequired (db : Db) (scope : IndexScope) (height : Int) (keys : List SpendKey) : Except IndexError Db := do
  if keys.isEmpty then return db
  let (moved, db) ← spend db scope height keys
  if moved ≠ keys.length then throw ⟨.invalidBlock, "block spends an unknown indexed output", false⟩
  return db

/-- A tracked spend need not be there. -/
def spendTracked (db : Db) (scope : IndexScope) (height : Int) (keys : List SpendKey) : Except IndexError Db := do
  if keys.isEmpty then return db
  let (_, db) ← spend db scope height keys
  return db

def writeSpent (db : Db) (scope : IndexScope) (height : Int) (a : BlockAddition) : Except IndexError Db := do
  let required ← spendKeys a.outputs.spent
  let tracked ← spendKeys a.outputs.trackedSpends
  let db ← spendRequired db scope height required
  spendTracked db scope height tracked

def moveCheckpoint (db : Db) (scope : IndexScope) (block : BlockRef) : Except IndexError Db := do
  let position ← asI64 block.position.val "block position"
  let height ← asI64 block.height.val "block height"
  let timestamp ← block.timestamp.mapM fun t => asI64 t "block timestamp"
  let parentPosition ← block.parent.mapM fun p => asI64 p.position.val "parent block position"
  let checkpoint ← execute storeError (upsert checkpointSchema db.checkpoint
    ⟨scope, position, height, block.hash, parentPosition, block.parent.map (·.hash), timestamp⟩)
  return { db with checkpoint }

/-! ## The two transactions -/

def writeAll (db : Db) (scope : IndexScope) (height : Int) (a : BlockAddition) : Except IndexError Db := do
  let db ← writeJournal db scope height a
  let db ← writeHistory db scope height a
  let db ← writeCreated db scope height a
  let db ← writeSpent db scope height a
  moveCheckpoint db scope a.block

/-- One block, in one transaction. A repeated block is answered without a write. -/
def writeBlock (repository : IndexScope) (db : Db) (a : BlockAddition) : Except IndexError (BlockOutcome × Db) := do
  checkScope repository a.scope
  let current ← lockedCheckpoint db repository
  let height ← asI64 a.block.height.val "block height"
  let journalled ← journalEntry db repository height
  if current = some a.block then
    if journalled.map (·.block.hash) = some a.block.hash then .ok (.alreadyApplied, db)
    else .error (store "canonical checkpoint is missing its rollback journal")
  else if journalled.isSome then
    .error ⟨.cannotConnect, "another retained block exists at this height", true⟩
  else if current ≠ a.expectedCheckpoint then
    .error ⟨.conflict, "checkpoint changed before block commit", true⟩
  else (.applied, ·) <$> writeAll db repository height a

/-- What has the height of the tip was written by it. Its spent outputs come back from the journal. -/
def revert (db : Db) (scope : IndexScope) (height : Int) : Except IndexError Db := do
  let movement := deleteWhere (fun r => r.scope = scope && r.height = height) db.movement
  let history := deleteWhere (fun r => r.scope = scope && r.block.height = height) db.history
  let output := deleteWhere (fun r => r.scope = scope && r.createdAt = height) db.output
  let output ← execute storeError (insertRows outputSchema output
    ((db.journalOutput.filter fun r => r.output.scope = scope ∧ r.height = height).map (·.output)))
  return { db with movement, history, output }

/-- The checkpoint goes back to the previous block, or away. -/
def restoreCheckpoint (db : Db) (scope : IndexScope) : Option BlockRef → Except IndexError Db
  | some block => moveCheckpoint db scope block
  | none => .ok { db with checkpoint := deleteWhere (·.scope = scope) db.checkpoint }

/-- Takes the tip back, from its journal. -/
def removeTip (repository : IndexScope) (db : Db) (scope : IndexScope) (expectedTip : BlockRef) :
    Except IndexError (Option BlockRef × Db) := do
  checkScope repository scope
  let current ← lockedCheckpoint db repository
  if current ≠ some expectedTip then .error ⟨.conflict, "revert must target the current checkpoint", true⟩
  else do
    let height ← asI64 expectedTip.height.val "block height"
    match ← journalEntry db scope height with
    | none => .error ⟨.reorgTooDeep, "rollback journal is not retained", false⟩
    | some entry =>
      if entry.block.hash ≠ expectedTip.hash then
        .error (store "rollback journal does not match the canonical tip")
      else do
        let db ← revert db scope height
        let previous ← entry.previous.mapM (·.block)
        let db ← restoreCheckpoint db scope previous
        pure (previous, deleteJournal db fun r => r.scope = scope ∧ r.block.height = height)

/-! ## Runs -/

/-- A call of one repository. Several of them share the database. -/
inductive Op where
  | write (repository : IndexScope) (addition : BlockAddition)
  | remove (repository scope : IndexScope) (expectedTip : BlockRef)

def Op.perform (db : Db) : Op → Except IndexError Db
  | write repository addition => Prod.snd <$> writeBlock repository db addition
  | remove repository scope tip => Prod.snd <$> removeTip repository db scope tip

/-- A transaction that fails is rolled back. -/
def Db.step (db : Db) (op : Op) : Db :=
  match op.perform db with
  | .ok db' => db'
  | .error _ => db

def Db.run (ops : List Op) : Db := ops.foldl Db.step {}

end PaymentSdk.Postgres
