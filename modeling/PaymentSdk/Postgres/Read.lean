import PaymentSdk.Postgres.Rollback
import PaymentSdk.Redb.Repository.Spec

/-!
# Reading history back

A page of history is a run of rows, and the movements of all its transactions are read at once and
given back to them by position. What is listed is exactly what the blocks had, in every state.
-/

open Relational Checked Std

namespace PaymentSdk.Postgres

open Redb (HistoryQuery HistoryCursor HistoryPosition CanonicalPage)

/-! ## Positions -/

/-- What joins the movements to a transaction of a page. -/
abbrev Position := Int × Text

def HistoryRow.position (r : HistoryRow) : Position := (r.block.height, r.transactionId)

def MovementRow.position (r : MovementRow) : Position := (r.height, r.transactionId)

section Order

-- The database compares texts by its collation.
variable (collate : Text → Text → Ordering)

def comparePosition : Position → Position → Ordering :=
  compareLex (compareOn (·.1)) fun p q => collate p.2 q.2

/-- By position, then by ordinal. -/
def compareMovement : MovementRow → MovementRow → Ordering :=
  compareLex (fun r s => comparePosition collate r.position s.position) (compareOn (·.ordinal))

instance [TransCmp collate] : TransCmp (comparePosition collate) :=
  have := transCmp_comap collate (fun p : Position => p.2)
  inferInstanceAs (TransCmp (compareLex (compareOn (·.1)) fun p q : Position => collate p.2 q.2))

instance [TransCmp collate] : TransCmp (compareMovement collate) :=
  have := transCmp_comap (comparePosition collate) MovementRow.position
  inferInstanceAs (TransCmp (compareLex (fun r s : MovementRow => comparePosition collate r.position s.position)
    (compareOn (·.ordinal))))

/-! ## The statements of a page -/

/-- `HISTORY_PAGE`. -/
def historyPage (db : Db) (scope : IndexScope) (address : Text) (after : Position) (limit : Nat) : List HistoryRow :=
  (orderBy (fun r s => comparePosition collate r.position s.position) (db.history.filter fun r =>
    r.scope = scope ∧ r.address = address ∧ comparePosition collate after r.position = .lt)).take limit

/-- `PAGE_MOVEMENTS`. -/
def movementsBetween (db : Db) (scope : IndexScope) (address : Text) (first last : Position) : List MovementRow :=
  orderBy (compareMovement collate) (db.movement.filter fun r => r.scope = scope ∧ r.address = address ∧
    (comparePosition collate first r.position).isLE ∧ (comparePosition collate r.position last).isLE)

end Order

/-! ## Rows -/

def addressIn (scope : IndexScope) (value : Text) : CanonicalAddress := ⟨scope, value⟩

def required : Option CanonicalAddress → Except IndexError CanonicalAddress
  | some address => .ok address
  | none => .error (store "stored movement is missing a required endpoint")

/-- `Repository::movement`. -/
def movement (self : IndexScope) (r : MovementRow) : Except IndexError ValueMovement := do
  let amount ← decimal r.amount.toText
  let source := r.fromAddress.map (addressIn self)
  let dest := r.toAddress.map (addressIn self)
  match r.kind with
  | .transfer => do
    let source ← required source
    pure (.transfer r.movementId r.asset amount source (← required dest))
  | .input => pure (.input r.movementId r.asset amount source)
  | .output => pure (.output r.movementId r.asset amount dest)
  | .mint => do pure (.mint r.movementId r.asset amount (← required dest))
  | .burn => do pure (.burn r.movementId r.asset amount (← required source))

def feeOf (scope : IndexScope) (r : HistoryRow) : Except IndexError (Option NetworkFee) :=
  match r.feeAsset, r.feeAmount with
  | some asset, some amount => do
    let amount ← decimal amount.toText
    pure (some ⟨⟨scope.chain, asset⟩, amount, r.feePayer.map (addressIn scope)⟩)
  | _, _ => pure none

/-- `Repository::canonical`. -/
def canonical (scope : IndexScope) (r : HistoryRow) (movements : List ValueMovement) :
    Except IndexError CanonicalTransaction := do
  let block ← r.block.block
  let status := match r.status with
    | .included => .included block
    | .failed => .failed block r.failureReason
  let fee ← feeOf scope r
  pure { scope, transactionId := ⟨scope, r.transactionId⟩, status, movements, fee }

/-! ## Pages -/

/-- The movements by position. A position without an entry has none. -/
abbrev Grouped := Position → List ValueMovement

def Grouped.push (g : Grouped) (p : Position) (m : ValueMovement) : Grouped :=
  fun q => if q = p then g q ++ [m] else g q

def Grouped.remove (g : Grouped) (p : Position) : Grouped := fun q => if q = p then [] else g q

/-- The movements of a page, under the transactions they belong to. -/
def group (self : IndexScope) (rows : List MovementRow) : Except IndexError Grouped :=
  rows.foldlM (fun g r => do pure (g.push r.position (← movement self r))) fun _ => []

def pageMovements (collate : Text → Text → Ordering) (self : IndexScope) (db : Db) (request : HistoryQuery)
    (page : List HistoryRow) : Except IndexError Grouped :=
  match page.head?, page.getLast? with
  | some first, some last =>
    group self (movementsBetween collate db request.scope request.address.value first.position last.position)
  | _, _ => .ok fun _ => []

/-- The loop over the rows of a page. -/
def assemble (scope : IndexScope) : Grouped → List HistoryRow → Except IndexError (List CanonicalTransaction)
  | _, [] => .ok []
  | g, r :: rest => do
    let t ← canonical scope r (g r.position)
    let ts ← assemble scope (g.remove r.position) rest
    pure (t :: ts)

def checkAddress (self : IndexScope) (address : CanonicalAddress) : Except IndexError Unit :=
  if address.belongsTo self then .ok ()
  else .error ⟨.scopeMismatch, "address belongs to another index scope", false⟩

def maxPage : Nat := 1000

/-- A page has at least one entry, and no more than a thousand. -/
def checkLimit (limit : Nat) : Except IndexError Unit :=
  if limit = 0 ∨ maxPage < limit then
    .error ⟨.invalidRequest, "page limit must be between one and one thousand", false⟩
  else .ok ()

/-- A cursor is of the current checkpoint. -/
def checkCursor (checkpoint : Option BlockRef) (after : Option HistoryCursor) : Except IndexError Unit :=
  if after.any (·.checkpoint ≠ checkpoint) then .error ⟨.conflict, "history changed during pagination", true⟩
  else .ok ()

/-- Where a page starts. All heights are above -1. -/
def startOf : Option HistoryCursor → Except IndexError Position
  | some cursor => do
    pure (← asI64 cursor.position.height.val "cursor height", cursor.position.transaction.value)
  | none => .ok (-1, .lit "" (Eq.refl true))

/-- One row more than the limit tells whether there is a next page. -/
def listHistory (collate : Text → Text → Ordering) (self : IndexScope) (db : Db) (request : HistoryQuery) :
    Except IndexError CanonicalPage := do
  checkScope self request.scope
  checkAddress self request.address
  checkLimit request.limit
  let checkpoint ← lockedCheckpoint db self
  checkCursor checkpoint request.after
  let after ← startOf request.after
  let rows := historyPage collate db request.scope request.address.value after (request.limit + 1)
  let page := rows.take request.limit
  let movements ← pageMovements collate self db request page
  let transactions ← assemble request.scope movements page
  let now ← lockedCheckpoint db self
  if now ≠ checkpoint then .error ⟨.conflict, "history changed during pagination", true⟩
  else
    let last := if request.limit < rows.length then transactions.getLast? else none
    let next := last.map fun t => ⟨checkpoint, ⟨t.block.height, t.transactionId⟩⟩
    .ok { checkpoint, transactions, next }

/-! ## Rows are read as what was written -/

section Decode

variable {scope : IndexScope} {block : BlockRef} {t : CanonicalTransaction} {address : CanonicalAddress}

theorem decimal_toText (d : Decimal) : decimal d.toText = .ok d := by
  rw [decimal, Decimal.fromText_toText]
  exact if_neg (by simp)

theorem map_addressIn {o : Option CanonicalAddress} (h : ∀ a ∈ o, a.scope = scope) :
    (o.map (·.value)).map (addressIn scope) = o := by
  cases o with
  | none => rfl
  | some a =>
    obtain ⟨_, value⟩ := a
    obtain rfl := h _ rfl
    rfl

theorem movement_row (m : ValueMovement) {height : Int} {i : Nat} (hsource : ∀ a ∈ m.fromAddress, a.scope = scope)
    (hdest : ∀ a ∈ m.toAddress, a.scope = scope) :
    movement scope ((movementEntry t address m i).row scope height) = .ok m := by
  have hfrom := map_addressIn hsource
  have hto := map_addressIn hdest
  unfold movement movementEntry MovementEntry.row
  simp only [decimal_toText, hfrom, hto]
  cases m <;> rfl

/-- The asset of a fee is of the chain of its scope. -/
def FeeNative (t : CanonicalTransaction) (scope : IndexScope) : Prop := ∀ f ∈ t.fee, f.asset.chain = scope.chain

theorem canonical_feeNative {d : ObservationDraft} (h : d.canonical scope block = .ok t) : FeeNative t scope := by
  simp only [ObservationDraft.canonical, bind, Except.bind, pure, Except.pure, throw,
    throwThe, MonadExceptOf.throw] at h
  repeat' split at h
  all_goals cases h
  rename_i hfee
  intro f hf
  obtain hf : d.fee = some f := hf
  simp only [hf, Option.any_some, invalidFee, Bool.or_eq_true, not_or, decide_eq_true_eq, not_not] at hfee
  exact hfee.1.1

theorem feeOf_row {columns : BlockColumns} (hvalid : t.Valid scope block) (hfee : FeeNative t scope) :
    feeOf scope ((historyEntry t address).row scope columns) = .ok t.fee := by
  unfold feeOf historyEntry HistoryEntry.row
  cases h : t.fee with
  | none => rfl
  | some fee =>
    obtain ⟨⟨chain, asset⟩, amount, payer⟩ := fee
    obtain rfl : chain = scope.chain := hfee _ h
    have hpayer : ∀ a ∈ payer, a.scope = scope := (hvalid.fee _ h).2
    simp only [Option.map_some, Option.bind_some, decimal_toText, map_addressIn hpayer]
    rfl

theorem canonical_row (hvalid : t.Valid scope block) (hfee : FeeNative t scope) :
    canonical scope ((historyEntry t address).row scope (columns block)) t.movements = .ok t := by
  have hread : feeOf scope ((historyEntry t address).row scope (columns block)) = .ok t.fee := feeOf_row hvalid hfee
  obtain ⟨s, ⟨ids, id⟩, status, movements, fee⟩ := t
  obtain rfl : s = scope := hvalid.scope_eq
  obtain rfl : ids = s := hvalid.id_scope
  have hblock : CanonicalTransaction.block ⟨ids, ⟨ids, id⟩, status, movements, fee⟩ = block := hvalid.block_eq
  unfold canonical
  rw [hread]
  cases status with
  | included b =>
    obtain rfl : b = block := hblock
    simp [HistoryEntry.row, historyEntry, block_columns, bind, Except.bind, pure, Except.pure]
  | failed b reason =>
    obtain rfl : b = block := hblock
    simp [HistoryEntry.row, historyEntry, block_columns, bind, Except.bind, pure, Except.pure]

end Decode

/-! ## What the tables hold -/

/-- The rows of history and of movements are those of blocks. -/
structure Db.Stores (db : Db) (blocks : List BlockAddition) : Prop where
  history : db.history = blocks.flatMap fun a => historyOf a.scope a
  movement : db.movement = blocks.flatMap fun a => movementOf a.scope a
  keys : (db.history.map historySchema.key).Nodup

/-- The blocks that are stored after a call. -/
def Op.blocks (db : Db) (blocks : List BlockAddition) : Op → List BlockAddition
  | .write repository a =>
    match writeBlock repository db a with
    | .ok (.applied, _) => blocks ++ [a]
    | _ => blocks
  | .remove repository scope tip =>
    match removeTip repository db scope tip with
    | .ok _ => blocks.filter fun a => !(a.scope = scope && a.block.height = tip.height)
    | .error _ => blocks

def stored (ops : List Op) : Db × List BlockAddition :=
  ops.foldl (fun s op => (s.1.step op, op.blocks s.1 s.2)) ({}, [])

section Stores

variable {db : Db} {blocks : List BlockAddition} {a : BlockAddition} {scope : IndexScope} {address : CanonicalAddress}

theorem filter_flatMap_of {α β : Type} {l : List α} {g : α → List β} {p : β → Bool} {c : α → Bool}
    (h : ∀ x ∈ l, ∀ y ∈ g x, p y = c x) : (l.flatMap g).filter p = (l.filter c).flatMap g := by
  induction l with
  | nil => rfl
  | cons x l ih =>
    rw [List.flatMap_cons, List.filter_append, ih fun x' hx' => h x' (List.mem_cons_of_mem _ hx')]
    have hx := h x List.mem_cons_self
    cases hc : c x with
    | true =>
      rw [List.filter_cons_of_pos hc, List.flatMap_cons,
        List.filter_eq_self.mpr fun y hy => (hx y hy).trans hc]
    | false =>
      rw [List.filter_cons_of_neg (by simp [hc]), List.filter_eq_nil_iff.mpr fun y hy => by simp [hx y hy, hc],
        List.nil_append]

theorem height_eq_iff {h h' : BlockHeight} : ((h.val.toNat : Int) = h'.val.toNat) ↔ h = h' := by
  rw [Int.ofNat_inj]
  exact ⟨BlockHeight.toNat_inj, fun h => by rw [h]⟩

theorem Db.Stores.write (hsound : db.Sound) (h : db.Stores blocks)
    (hcurrent : lockedCheckpoint db a.scope = .ok a.expectedCheckpoint) : (applied db a).Stores (blocks ++ [a]) where
  history := by
    change db.history ++ historyOf a.scope a = _
    rw [h.history, List.flatMap_append, List.flatMap_singleton]
  movement := by
    change db.movement ++ movementOf a.scope a = _
    rw [h.movement, List.flatMap_append, List.flatMap_singleton]
  keys := by
    change ((db.history ++ historyOf a.scope a).map historySchema.key).Nodup
    rw [List.map_append, List.nodup_append]
    refine ⟨h.keys, historyKeys_nodup a.scope a, ?_⟩
    rintro k hk _ hnew rfl
    obtain ⟨r, hr, rfl⟩ := List.mem_map.mp hnew
    exact hsound.history_fresh hcurrent r hr hk

theorem Db.Stores.remove {height : BlockHeight} {previous : Option BlockRef} (h : db.Stores blocks) :
    (reverted db scope height.val.toNat previous).Stores
      (blocks.filter fun a => !(a.scope = scope && a.block.height = height)) where
  history := by
    change deleteWhere _ db.history = _
    rw [h.history, deleteWhere]
    refine filter_flatMap_of fun a _ r hr => ?_
    obtain ⟨hscope, hheight⟩ := height_historyOf hr
    simp only [hscope, hheight, height_eq_iff]
  movement := by
    change deleteWhere _ db.movement = _
    rw [h.movement, deleteWhere]
    refine filter_flatMap_of fun a _ r hr => ?_
    obtain ⟨hscope, hheight⟩ := height_movementOf hr
    simp only [hscope, hheight, height_eq_iff]
  keys := h.keys.sublist (List.filter_sublist.map _)

theorem Db.Stores.step (hsound : db.Sound) (h : db.Stores blocks) (op : Op) :
    (db.step op).Stores (op.blocks db blocks) := by
  unfold Db.step Op.blocks
  cases op with
  | write repository a =>
    simp only [Op.perform]
    cases hwrite : writeBlock repository db a with
    | error e => exact h
    | ok result =>
      obtain ⟨outcome, db'⟩ := result
      obtain ⟨rfl, ⟨rfl, rfl⟩ | ⟨rfl, hcurrent⟩⟩ := writeBlock_current hwrite
      · exact h
      · obtain ⟨-, -, -, rfl⟩ := (hsound.writeBlock_ok hcurrent).mp hwrite
        exact h.write hsound hcurrent
  | remove repository scope tip =>
    simp only [Op.perform]
    cases hremove : removeTip repository db scope tip with
    | error e => exact h
    | ok result =>
      obtain ⟨previous, db'⟩ := result
      obtain rfl := removeTip_scope hremove
      obtain ⟨-, -, rfl⟩ := hsound.removeTip_ok.mp hremove
      exact h.remove

theorem stores_empty : Db.Stores {} [] := ⟨rfl, rfl, List.nodup_nil⟩

theorem stored_fst (ops : List Op) : (stored ops).1 = Db.run ops := by
  have hsteps : ∀ s : Db × List BlockAddition,
      (ops.foldl (fun s op => (s.1.step op, op.blocks s.1 s.2)) s).1 = ops.foldl Db.step s.1 := by
    induction ops with
    | nil => exact fun _ => rfl
    | cons op rest ih => exact fun s => ih _
  exact hsteps ({}, [])

/-- **In every state**, the tables hold the blocks that were written and not removed. -/
theorem stores_run (ops : List Op) : (Db.run ops).Stores (stored ops).2 := by
  have hsteps : ∀ s : Db × List BlockAddition, s.1.Sound → s.1.Stores s.2 →
      (ops.foldl (fun s op => (s.1.step op, op.blocks s.1 s.2)) s).1.Stores
        (ops.foldl (fun s op => (s.1.step op, op.blocks s.1 s.2)) s).2 := by
    induction ops with
    | nil => exact fun _ _ h => h
    | cons op rest ih => exact fun s hsound h => ih _ (hsound.step op) (h.step hsound op)
  rw [← stored_fst]
  exact hsteps ({}, []) sound_empty stores_empty

theorem stored_write {ops : List Op} {repository : IndexScope} {db' : Db}
    (h : writeBlock repository (Db.run ops) a = .ok (.applied, db')) :
    (stored (ops ++ [.write repository a])).2 = (stored ops).2 ++ [a] := by
  have hlast : stored (ops ++ [.write repository a]) =
      ((stored ops).1.step (.write repository a), (Op.write repository a).blocks (stored ops).1 (stored ops).2) := by
    unfold stored
    rw [List.foldl_append]
    rfl
  rw [hlast, stored_fst]
  simp only [Op.blocks, h]

theorem written_of_stored {ops : List Op} (h : a ∈ (stored ops).2) : ∃ repository, Op.write repository a ∈ ops := by
  have hsteps : ∀ s : Db × List BlockAddition,
      a ∈ (ops.foldl (fun s op => (s.1.step op, op.blocks s.1 s.2)) s).2 →
      a ∈ s.2 ∨ ∃ repository, Op.write repository a ∈ ops := by
    clear h
    induction ops with
    | nil => exact fun _ h => .inl h
    | cons op rest ih =>
      intro s hmem
      rcases ih _ hmem with hnext | ⟨repository, hop⟩
      · unfold Op.blocks at hnext
        cases op with
        | write repository b =>
          simp only at hnext
          split at hnext
          · rcases List.mem_append.mp hnext with hold | hnew
            · exact .inl hold
            · obtain rfl := List.mem_singleton.mp hnew
              exact .inr ⟨repository, List.mem_cons_self⟩
          · exact .inl hnext
        | remove repository scope tip =>
          simp only at hnext
          split at hnext
          · exact .inl (List.mem_filter.mp hnext).1
          · exact .inl hnext
      · exact .inr ⟨repository, List.mem_cons_of_mem _ hop⟩
  rcases hsteps ({}, []) h with hnone | hwritten
  · cases hnone
  · exact hwritten

end Stores

end PaymentSdk.Postgres
