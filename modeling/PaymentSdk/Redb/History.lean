import PaymentSdk.Redb.Repository.Spec

/-!
# The index over the repository

Readers do not see canonical pages. The index turns each one into observed transactions,
whose status says how deep the block is below the page's checkpoint.
-/

namespace PaymentSdk.Redb

/-- The status that a reader gets, with the depth of the block. -/
inductive TransactionStatus where
  | included (block : BlockRef) (confirmations : UInt64)
  | confirmed (block : BlockRef) (confirmations : UInt64)
  | failed (block : BlockRef) (reason : Option String)
  deriving DecidableEq

/-- A canonical transaction with the status for a reader. -/
structure ObservedTransaction where
  scope : IndexScope
  transactionId : TransactionRef
  status : TransactionStatus
  movements : List ValueMovement
  fee : Option NetworkFee
  deriving DecidableEq

/-- A page of a history, with the checkpoint that it was read at. -/
structure TransactionPage where
  checkpoint : Option BlockRef
  transactions : List ObservedTransaction
  next : Option HistoryCursor
  deriving DecidableEq

/-- `confirmations` is how deep a block has to be. -/
structure Index where
  scope : IndexScope
  confirmations : UInt64

namespace Index

def checkpoint (self : Index) (scope : IndexScope) : Call (Option BlockRef) :=
  readBlock self.scope (.tip scope)

def observeStatus (self : Index) (checkpoint : Option BlockRef) : CanonicalStatus →
    Except IndexError TransactionStatus
  | .failed block reason => .ok (.failed block reason)
  | .included block => match checkpoint with
    | none => .error ⟨.store, "history exists without a checkpoint", false⟩
    | some tip =>
      if tip.height.toNat < block.height.toNat ∨ 2 ^ 64 ≤ tip.height.toNat - block.height.toNat + 1 then
        .error ⟨.store, "history contains a transaction beyond its checkpoint", false⟩
      else
        let confirmations := tip.height.val - block.height.val + 1
        .ok (if self.confirmations.toNat ≤ confirmations.toNat then .confirmed block confirmations
          else .included block confirmations)

def observeTransaction (self : Index) (checkpoint : Option BlockRef) (t : CanonicalTransaction) :
    Except IndexError ObservedTransaction := do
  let status ← self.observeStatus checkpoint t.status
  pure ⟨t.scope, t.transactionId, status, t.movements, t.fee⟩

/-- All transactions of a page, or the first error. -/
def observeAll (self : Index) (checkpoint : Option BlockRef) : List CanonicalTransaction →
    Except IndexError (List ObservedTransaction)
  | [] => .ok []
  | t :: rest => do
    let observed ← self.observeTransaction checkpoint t
    pure (observed :: (← self.observeAll checkpoint rest))

/-- The page with the depth every transaction has at this checkpoint. -/
def observe (self : Index) (page : CanonicalPage) : Except IndexError TransactionPage := do
  let transactions ← self.observeAll page.checkpoint page.transactions
  pure ⟨page.checkpoint, transactions, page.next⟩

/-- A page with the depth of its transactions. It has to be of the cursor's checkpoint. -/
def history (self : Index) (request : HistoryQuery) : Call TransactionPage := do
  if !request.address.belongsTo request.scope then
    throw ⟨.scopeMismatch, "history address belongs to another scope", false⟩
  else
    let page ← listTransactions self.scope request
    if request.after.any (·.checkpoint ≠ page.checkpoint) then
      throw ⟨.conflict, "history changed between pages; restart from the first page", true⟩
    else ExceptT.mk (.done (self.observe page))

theorem ids_of_observeAll {self : Index} {checkpoint : Option BlockRef} {ts : List CanonicalTransaction}
    {os : List ObservedTransaction} (h : self.observeAll checkpoint ts = .ok os) :
    os.map (·.transactionId) = ts.map (·.transactionId) := by
  induction ts generalizing os with
  | nil =>
    cases h
    rfl
  | cons t rest ih =>
    simp only [observeAll, observeTransaction, bind, Except.bind, pure, Except.pure] at h
    cases hstatus : self.observeStatus checkpoint t.status with
    | error e =>
      rw [hstatus] at h
      cases h
    | ok status =>
      rw [hstatus] at h
      cases hrest : self.observeAll checkpoint rest with
      | error e =>
        rw [hrest] at h
        cases h
      | ok os' =>
        rw [hrest] at h
        cases h
        rw [List.map_cons, List.map_cons, ih hrest]

end Index

end PaymentSdk.Redb
