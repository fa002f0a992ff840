import PaymentSdk.Indexing.Observation

/-!
# Block additions

`BlockAddition.new` is the only way to build one, so an addition carries what its
checks established.
-/

namespace PaymentSdk

structure OutputId where
  transaction : TransactionRef
  index : UInt32
  deriving DecidableEq

/-- An output under the address that owns it. -/
structure OutputKey where
  address : CanonicalAddress
  output : OutputId
  deriving DecidableEq

/-- A spendable output. `evidence` is opaque data that a transaction builder needs. -/
structure IndexedOutput where
  id : OutputId
  address : CanonicalAddress
  asset : AssetId
  amount : Decimal
  evidence : List UInt8
  createdAt : BlockHeight
  coinbase : Bool
  deriving DecidableEq

def IndexedOutput.key (o : IndexedOutput) : OutputKey := ⟨o.address, o.id⟩

/-- `trackedSpends` are outside the current filter, and apply only to outputs that are
already materialized. -/
structure OutputChanges where
  created : List IndexedOutput := []
  spent : List OutputKey := []
  trackedSpends : List OutputKey := []
  deriving DecidableEq

def invalidCreated (scope : IndexScope) (height : BlockHeight) (ids : List OutputId)
    (keys : List OutputKey) (o : IndexedOutput) : Bool :=
  !o.address.belongsTo scope || !o.id.transaction.belongsTo scope ||
    decide (o.asset.chain ≠ scope.chain) || isNegative o.amount ||
    decide (o.createdAt ≠ height) || decide (o.id ∈ ids) || decide (o.key ∈ keys)

/-- The first loop of `validate`. It returns the keys of all created outputs. -/
def checkCreated (scope : IndexScope) (height : BlockHeight) :
    List OutputId → List OutputKey → List IndexedOutput → Except IndexError (List OutputKey)
  | _, keys, [] => .ok keys
  | ids, keys, o :: rest =>
    if invalidCreated scope height ids keys o then
      .error ⟨.invalidBlock, "block contains an invalid output", false⟩
    else checkCreated scope height (o.id :: ids) (o.key :: keys) rest

def invalidSpent (scope : IndexScope) (created spent : List OutputKey) (key : OutputKey) : Bool :=
  !key.address.belongsTo scope || !key.output.transaction.belongsTo scope ||
    decide (key ∈ created) || decide (key ∈ spent)

/-- The second loop of `validate`, over required and tracked spends together. -/
def checkSpent (scope : IndexScope) (created : List OutputKey) :
    List OutputKey → List OutputKey → Except IndexError Unit
  | _, [] => .ok ()
  | spent, key :: rest =>
    if invalidSpent scope created spent key then
      .error ⟨.invalidBlock, "block contains overlapping or duplicate output changes", false⟩
    else checkSpent scope created (key :: spent) rest

def OutputChanges.spends (o : OutputChanges) : List OutputKey := o.spent ++ o.trackedSpends

/-- Created outputs are of this block, and spent ones are named once. -/
def OutputChanges.validate (o : OutputChanges) (scope : IndexScope) (height : BlockHeight) :
    Except IndexError Unit := do
  let created ← checkCreated scope height [] [] o.created
  checkSpent scope created [] o.spends

/-! ## What the output checks establish -/

/-- The checks of the outputs that a block creates, needs and tracks. -/
structure OutputChanges.Valid (o : OutputChanges) (scope : IndexScope) (height : BlockHeight) :
    Prop where
  created : ∀ x ∈ o.created, x.address.scope = scope ∧ x.id.transaction.scope = scope ∧
    isNegative x.amount = false ∧ x.createdAt = height
  ids : (o.created.map (·.id)).Nodup
  spends : ∀ k ∈ o.spends, k.address.scope = scope ∧ k.output.transaction.scope = scope
  disjoint : ∀ k ∈ o.spends, k ∉ o.created.map (·.key)
  spends_nodup : o.spends.Nodup

theorem checkCreated_ok {scope : IndexScope} {height : BlockHeight} {ids : List OutputId}
    {keys out : List OutputKey} {os : List IndexedOutput}
    (h : checkCreated scope height ids keys os = .ok out) :
    (∀ x ∈ os, x.address.scope = scope ∧ x.id.transaction.scope = scope ∧
      isNegative x.amount = false ∧ x.createdAt = height) ∧
    (os.map (·.id)).Nodup ∧ (∀ x ∈ os, x.id ∉ ids) ∧
    ∀ k, k ∈ keys ∨ k ∈ os.map (·.key) → k ∈ out := by
  induction os generalizing ids keys with
  | nil =>
    cases h
    simp
  | cons o rest ih =>
    rw [checkCreated] at h
    split at h
    · cases h
    · rename_i ho
      simp only [invalidCreated, Bool.or_eq_true, not_or, Bool.not_eq_true, Bool.not_eq_false',
        CanonicalAddress.belongsTo, TransactionRef.belongsTo, decide_eq_true_eq,
        not_not] at ho
      obtain ⟨⟨⟨⟨⟨⟨haddr, htx⟩, _⟩, hamount⟩, hheight⟩, hid⟩, _⟩ := ho
      obtain ⟨hall, hnodup, hfresh, hkeys⟩ := ih h
      refine ⟨?_, ?_, ?_, ?_⟩
      · intro x hx
        rcases List.mem_cons.mp hx with rfl | hx
        · exact ⟨haddr, htx, hamount, hheight⟩
        · exact hall x hx
      · rw [List.map_cons, List.nodup_cons]
        refine ⟨?_, hnodup⟩
        intro hmem
        obtain ⟨x, hx, hxid⟩ := List.mem_map.mp hmem
        exact hfresh x hx (by rw [hxid]; exact List.mem_cons_self)
      · intro x hx
        rcases List.mem_cons.mp hx with rfl | hx
        · exact hid
        · exact fun hmem => hfresh x hx (List.mem_cons_of_mem _ hmem)
      · intro k hk
        apply hkeys
        simp only [List.map_cons, List.mem_cons] at hk ⊢
        tauto

theorem checkSpent_ok {scope : IndexScope} {created spent ks : List OutputKey}
    (h : checkSpent scope created spent ks = .ok ()) :
    (∀ k ∈ ks, k.address.scope = scope ∧ k.output.transaction.scope = scope) ∧
    (∀ k ∈ ks, k ∉ created) ∧ (∀ k ∈ ks, k ∉ spent) ∧ ks.Nodup := by
  induction ks generalizing spent with
  | nil => simp
  | cons key rest ih =>
    rw [checkSpent] at h
    split at h
    · cases h
    · rename_i hk
      simp only [invalidSpent, Bool.or_eq_true, not_or, Bool.not_eq_true, Bool.not_eq_false',
        CanonicalAddress.belongsTo, TransactionRef.belongsTo, decide_eq_true_eq] at hk
      obtain ⟨⟨⟨haddr, htx⟩, hcreated⟩, hspent⟩ := hk
      obtain ⟨hall, hdisj, hfresh, hnodup⟩ := ih h
      refine ⟨?_, ?_, ?_, ?_⟩
      · intro k hk
        rcases List.mem_cons.mp hk with rfl | hk
        · exact ⟨haddr, htx⟩
        · exact hall k hk
      · intro k hk
        rcases List.mem_cons.mp hk with rfl | hk
        · exact hcreated
        · exact hdisj k hk
      · intro k hk
        rcases List.mem_cons.mp hk with rfl | hk
        · exact hspent
        · exact fun hmem => hfresh k hk (List.mem_cons_of_mem _ hmem)
      · rw [List.nodup_cons]
        exact ⟨fun hmem => hfresh key hmem List.mem_cons_self, hnodup⟩

theorem validate_ok {o : OutputChanges} {scope : IndexScope} {height : BlockHeight}
    (h : o.validate scope height = .ok ()) : o.Valid scope height := by
  simp only [OutputChanges.validate, bind, Except.bind] at h
  split at h
  · cases h
  · rename_i created hcreated
    obtain ⟨hall, hids, _, hkeys⟩ := checkCreated_ok hcreated
    obtain ⟨hscope, hdisj, _, hnodup⟩ := checkSpent_ok h
    exact ⟨hall, hids, hscope, fun k hk hmem => hdisj k hk (hkeys k (Or.inr hmem)), hnodup⟩

/-! ## Additions -/

/-- What an interpreter makes of a block. -/
structure InterpretedBlock where
  block : BlockRef
  transactions : List ObservationDraft
  outputs : OutputChanges
  deriving DecidableEq

/-- The block follows the checkpoint: next height, later position, and it is its parent. -/
def BlockRef.connects (b checkpoint : BlockRef) (next : BlockHeight) : Bool :=
  decide (b.height = next) && decide (checkpoint.position < b.position) &&
    decide (b.parent = some ⟨checkpoint.position, checkpoint.hash⟩)

/-- What `BlockAddition::new` has checked. -/
structure BlockAddition.Valid (scope : IndexScope) (expected : Option BlockRef) (retention : Nat)
    (block : BlockRef) (transactions : List CanonicalTransaction) (outputs : OutputChanges) :
    Prop where
  retention_pos : 0 < retention
  connects : ∀ c ∈ expected, ∃ next, c.height.checkedSuccessor = some next ∧
    block.connects c next = true
  canonical : ∀ t ∈ transactions, t.Valid scope block
  ids : (transactions.map (·.transactionId)).Nodup
  changes : outputs.Valid scope block.height

/-- A validated transition that storage applies atomically. -/
structure BlockAddition where
  scope : IndexScope
  expectedCheckpoint : Option BlockRef
  retention : Nat
  block : BlockRef
  transactions : List CanonicalTransaction
  outputs : OutputChanges
  valid : BlockAddition.Valid scope expectedCheckpoint retention block transactions outputs

/-- The transaction loop of `new`, with the ids seen so far. -/
def canonicalAll (scope : IndexScope) (block : BlockRef) :
    List TransactionRef → List ObservationDraft → Except IndexError (List CanonicalTransaction)
  | _, [] => .ok []
  | ids, d :: rest =>
    if d.transactionId ∈ ids then
      .error ⟨.invalidBlock, "block contains a duplicate transaction", false⟩
    else do
      let t ← d.canonical scope block
      let ts ← canonicalAll scope block (d.transactionId :: ids) rest
      pure (t :: ts)

theorem canonicalAll_ok {scope : IndexScope} {block : BlockRef} {ids : List TransactionRef}
    {ds : List ObservationDraft} {ts : List CanonicalTransaction}
    (h : canonicalAll scope block ids ds = .ok ts) :
    (∀ t ∈ ts, t.Valid scope block) ∧ (ts.map (·.transactionId)).Nodup ∧
      ∀ t ∈ ts, t.transactionId ∉ ids := by
  induction ds generalizing ids ts with
  | nil =>
    cases h
    simp
  | cons d rest ih =>
    rw [canonicalAll] at h
    split at h
    · cases h
    · rename_i hd
      simp only [bind, Except.bind, pure, Except.pure] at h
      split at h
      · cases h
      · rename_i t ht
        split at h
        · cases h
        · rename_i ts' hts
          cases h
          obtain ⟨hvalid, hid⟩ := canonical_ok ht
          obtain ⟨hall, hnodup, hfresh⟩ := ih hts
          refine ⟨?_, ?_, ?_⟩
          · intro x hx
            rcases List.mem_cons.mp hx with rfl | hx
            · exact hvalid
            · exact hall x hx
          · rw [List.map_cons, List.nodup_cons]
            refine ⟨?_, hnodup⟩
            intro hmem
            obtain ⟨x, hx, hxid⟩ := List.mem_map.mp hmem
            exact hfresh x hx (by rw [hxid, hid]; exact List.mem_cons_self)
          · intro x hx
            rcases List.mem_cons.mp hx with rfl | hx
            · rw [hid]; exact hd
            · exact fun hmem => hfresh x hx (List.mem_cons_of_mem _ hmem)

/-- The connection check of `new`. -/
def checkConnection (expected : Option BlockRef) (block : BlockRef) : Except IndexError Unit :=
  match expected with
  | none => .ok ()
  | some c =>
    match c.height.checkedSuccessor with
    | none => .error ⟨.invalidBlock, "checkpoint height is exhausted", false⟩
    | some next =>
      if block.connects c next then .ok ()
      else .error ⟨.cannotConnect, "block does not connect to the checkpoint", true⟩

theorem checkConnection_ok {expected : Option BlockRef} {block : BlockRef}
    (h : checkConnection expected block = .ok ()) :
    ∀ c ∈ expected, ∃ next, c.height.checkedSuccessor = some next ∧
      block.connects c next = true := by
  intro c hc
  obtain rfl : expected = some c := hc
  simp only [checkConnection] at h
  split at h
  · cases h
  · rename_i next hnext
    split at h
    · rename_i hconn
      exact ⟨next, hnext, hconn⟩
    · cases h

/-- Checks that the block connects and that its facts are its own. -/
def BlockAddition.new (scope : IndexScope) (expected : Option BlockRef) (retention : Nat)
    (interpreted : InterpretedBlock) : Except IndexError BlockAddition :=
  if hret : retention = 0 then
    .error ⟨.invalidRequest, "rollback retention must be greater than zero", false⟩
  else
    match hconn : checkConnection expected interpreted.block with
    | .error e => .error e
    | .ok () =>
      match hout : interpreted.outputs.validate scope interpreted.block.height with
      | .error e => .error e
      | .ok () =>
        match hts : canonicalAll scope interpreted.block [] interpreted.transactions with
        | .error e => .error e
        | .ok transactions => .ok
          { scope, expectedCheckpoint := expected, retention, block := interpreted.block,
            transactions, outputs := interpreted.outputs
            valid :=
              { retention_pos := Nat.pos_of_ne_zero hret
                connects := checkConnection_ok hconn
                canonical := (canonicalAll_ok hts).1
                ids := (canonicalAll_ok hts).2.1
                changes := validate_ok hout } }

theorem new_ok {scope : IndexScope} {expected : Option BlockRef} {retention : Nat}
    {interpreted : InterpretedBlock} {a : BlockAddition}
    (h : BlockAddition.new scope expected retention interpreted = .ok a) :
    a.scope = scope ∧ a.expectedCheckpoint = expected ∧ a.retention = retention ∧
      a.block = interpreted.block ∧ a.outputs = interpreted.outputs := by
  unfold BlockAddition.new at h
  split at h
  · cases h
  · split at h
    · cases h
    · split at h
      · cases h
      · split at h
        · cases h
        · cases h
          exact ⟨rfl, rfl, rfl, rfl, rfl⟩

theorem mem_canonicalAll {scope : IndexScope} {block : BlockRef} {ids : List TransactionRef}
    {ds : List ObservationDraft} {ts : List CanonicalTransaction}
    (h : canonicalAll scope block ids ds = .ok ts) :
    (∀ d ∈ ds, ∃ t ∈ ts, d.canonical scope block = .ok t) ∧
      ∀ t ∈ ts, ∃ d ∈ ds, d.canonical scope block = .ok t := by
  induction ds generalizing ids ts with
  | nil =>
    cases h
    simp
  | cons d rest ih =>
    rw [canonicalAll] at h
    split at h
    · cases h
    simp only [bind, Except.bind, pure, Except.pure] at h
    split at h
    · cases h
    rename_i t ht
    split at h
    · cases h
    rename_i ts' hts
    cases h
    obtain ⟨hall, hback⟩ := ih hts
    constructor
    · intro d' hd'
      rcases List.mem_cons.mp hd' with rfl | hd'
      · exact ⟨t, List.mem_cons_self, ht⟩
      · obtain ⟨t', ht', hc⟩ := hall d' hd'
        exact ⟨t', List.mem_cons_of_mem _ ht', hc⟩
    · intro t' ht'
      rcases List.mem_cons.mp ht' with rfl | ht'
      · exact ⟨d, List.mem_cons_self, ht⟩
      · obtain ⟨d', hd', hc⟩ := hback t' ht'
        exact ⟨d', List.mem_cons_of_mem _ hd', hc⟩

theorem new_transactions {scope : IndexScope} {expected : Option BlockRef} {retention : Nat}
    {interpreted : InterpretedBlock} {a : BlockAddition}
    (h : BlockAddition.new scope expected retention interpreted = .ok a) :
    canonicalAll scope interpreted.block [] interpreted.transactions = .ok a.transactions := by
  unfold BlockAddition.new at h
  split at h
  · cases h
  split at h
  · cases h
  split at h
  · cases h
  split at h
  · cases h
  · rename_i hts
    cases h
    exact hts

theorem BlockAddition.follows (a : BlockAddition) {c : BlockRef}
    (hc : a.expectedCheckpoint = some c) :
    a.block.height.toNat = c.height.toNat + 1 ∧ c.position < a.block.position ∧
      a.block.parent = some ⟨c.position, c.hash⟩ := by
  obtain ⟨next, hnext, hconn⟩ := a.valid.connects c hc
  simp only [BlockRef.connects, Bool.and_eq_true, decide_eq_true_eq] at hconn
  obtain ⟨⟨hheight, hpos⟩, hparent⟩ := hconn
  exact ⟨by rw [hheight]; exact BlockHeight.checkedSuccessor_eq_some hnext, hpos, hparent⟩

/-- The block that a reader asks a source for. -/
inductive BlockSelector where
  | tip (scope : IndexScope)
  | height (scope : IndexScope) (height : BlockHeight)
  deriving DecidableEq

/-- `alreadyApplied`: the exact block is already the checkpoint. -/
inductive BlockOutcome where
  | applied
  | alreadyApplied
  deriving DecidableEq

end PaymentSdk
