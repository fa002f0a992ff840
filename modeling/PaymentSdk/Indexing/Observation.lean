import PaymentSdk.Base.Block
import PaymentSdk.Base.Decimal
import PaymentSdk.Indexing.Value

/-! # Observed transactions: drafts, and what a canonical one guarantees -/

open Std

namespace PaymentSdk

structure MovementId where
  name : String
  deriving DecidableEq

/-- One independently meaningful value change within a transaction. -/
inductive ValueMovement where
  | transfer (id : MovementId) (asset : AssetId) (amount : Decimal) (source dest : CanonicalAddress)
  | input (id : MovementId) (asset : AssetId) (amount : Decimal) (owner : Option CanonicalAddress)
  | output (id : MovementId) (asset : AssetId) (amount : Decimal) (owner : Option CanonicalAddress)
  | mint (id : MovementId) (asset : AssetId) (amount : Decimal) (dest : CanonicalAddress)
  | burn (id : MovementId) (asset : AssetId) (amount : Decimal) (source : CanonicalAddress)
  deriving DecidableEq

namespace ValueMovement

def id : ValueMovement → MovementId
  | transfer id .. | input id .. | output id .. | mint id .. | burn id .. => id

def asset : ValueMovement → AssetId
  | transfer _ asset .. | input _ asset .. | output _ asset .. | mint _ asset .. | burn _ asset .. =>
    asset

def amount : ValueMovement → Decimal
  | transfer _ _ amount .. | input _ _ amount .. | output _ _ amount .. | mint _ _ amount ..
  | burn _ _ amount .. => amount

/-- `from` in the source, a reserved word here. -/
def fromAddress : ValueMovement → Option CanonicalAddress
  | transfer _ _ _ source _ | burn _ _ _ source => some source
  | input _ _ _ owner => owner
  | output .. | mint .. => none

def toAddress : ValueMovement → Option CanonicalAddress
  | transfer _ _ _ _ dest | mint _ _ _ dest => some dest
  | output _ _ _ owner => owner
  | input .. | burn .. => none

end ValueMovement

structure NetworkFee where
  asset : AssetId
  amount : Decimal
  payer : Option CanonicalAddress
  deriving DecidableEq

/-- Confirmation is absent on purpose: it is derived from the checkpoint when read. -/
inductive CanonicalStatus where
  | included (block : BlockRef)
  | failed (block : BlockRef) (reason : Option String)
  deriving DecidableEq

/-- A transaction of the indexed chain. -/
structure CanonicalTransaction where
  scope : IndexScope
  transactionId : TransactionRef
  status : CanonicalStatus
  movements : List ValueMovement
  fee : Option NetworkFee
  deriving DecidableEq

def CanonicalTransaction.block (t : CanonicalTransaction) : BlockRef :=
  match t.status with
  | .included block => block
  | .failed block _ => block

/-- Every address that a movement or the fee touches. -/
def CanonicalTransaction.addresses (t : CanonicalTransaction) : AddressSet :=
  let moved := t.movements.flatMap fun m => m.fromAddress.toList ++ m.toAddress.toList
  let addresses : AddressSet := ExtTreeSet.ofList moved _
  match t.fee.bind (·.payer) with
  | some payer => addresses.insert payer
  | none => addresses

/-! ## Drafts -/

inductive ObservationDraftStatus where
  | included
  | failed (reason : Option String)
  deriving DecidableEq

/-- A transaction as an interpreter reports it, before it is filed under a block. -/
structure ObservationDraft where
  scope : IndexScope
  transactionId : TransactionRef
  status : ObservationDraftStatus
  movements : List ValueMovement
  fee : Option NetworkFee
  deriving DecidableEq

def isNegative (d : Decimal) : Bool :=
  match d.validateAmount with
  | .ok _ => false
  | .error _ => true

def invalidMovement (scope : IndexScope) (ids : List MovementId) (m : ValueMovement) : Bool :=
  m.id.name.isEmpty || decide (m.id ∈ ids) || decide (m.asset.chain ≠ scope.chain) ||
    isNegative m.amount || m.fromAddress.any (!·.belongsTo scope) ||
    m.toAddress.any (!·.belongsTo scope)

/-- The movement loop of `canonical`, with the ids seen so far. -/
def checkMovements (scope : IndexScope) : List MovementId → List ValueMovement → Except IndexError Unit
  | _, [] => .ok ()
  | ids, m :: rest =>
    if invalidMovement scope ids m then
      .error ⟨.invalidBlock, "transaction contains an invalid movement", false⟩
    else checkMovements scope (m.id :: ids) rest

def invalidFee (scope : IndexScope) (fee : NetworkFee) : Bool :=
  decide (fee.asset.chain ≠ scope.chain) || isNegative fee.amount ||
    fee.payer.any (!·.belongsTo scope)

def ObservationDraftStatus.canonical (block : BlockRef) : ObservationDraftStatus → CanonicalStatus
  | included => .included block
  | failed reason => .failed block reason

/-- A draft in its block. -/
def ObservationDraft.canonical (d : ObservationDraft) (scope : IndexScope) (block : BlockRef) :
    Except IndexError CanonicalTransaction := do
  if d.scope ≠ scope ∨ d.transactionId.belongsTo scope = false then
    throw ⟨.scopeMismatch, "transaction belongs to another scope", false⟩
  if d.status ≠ .included ∧ d.movements ≠ [] then
    throw ⟨.invalidBlock, "failed transaction contains movements", false⟩
  checkMovements scope [] d.movements
  if d.fee.any (invalidFee scope) then
    throw ⟨.invalidBlock, "transaction contains an invalid network fee", false⟩
  pure { scope := d.scope, transactionId := d.transactionId, status := d.status.canonical block,
         movements := d.movements, fee := d.fee }

/-! ## What a canonical transaction guarantees -/

/-- A canonical transaction belongs to its scope and block, and so does what it moves. -/
structure CanonicalTransaction.Valid (t : CanonicalTransaction) (scope : IndexScope)
    (block : BlockRef) : Prop where
  scope_eq : t.scope = scope
  id_scope : t.transactionId.scope = scope
  block_eq : t.block = block
  movements : ∀ m ∈ t.movements, isNegative m.amount = false ∧
    (∀ a ∈ m.fromAddress, a.scope = scope) ∧ ∀ a ∈ m.toAddress, a.scope = scope
  fee : ∀ f ∈ t.fee, isNegative f.amount = false ∧ ∀ a ∈ f.payer, a.scope = scope

theorem any_foreign_eq_false {scope : IndexScope} {o : Option CanonicalAddress}
    (h : (o.any fun a => !a.belongsTo scope) = false) : ∀ a ∈ o, a.scope = scope := by
  intro a ha
  obtain rfl : o = some a := ha
  simpa [CanonicalAddress.belongsTo] using h

theorem checkMovements_ok {scope : IndexScope} {ids : List MovementId} {ms : List ValueMovement}
    (h : checkMovements scope ids ms = .ok ()) :
    ∀ m ∈ ms, isNegative m.amount = false ∧ (∀ a ∈ m.fromAddress, a.scope = scope) ∧
      ∀ a ∈ m.toAddress, a.scope = scope := by
  induction ms generalizing ids with
  | nil => simp
  | cons m rest ih =>
    rw [checkMovements] at h
    split at h
    · cases h
    · rename_i hm
      simp only [invalidMovement, Bool.or_eq_true, not_or, Bool.not_eq_true] at hm
      obtain ⟨⟨⟨⟨_, _⟩, hamount⟩, hfrom⟩, hto⟩ := hm
      intro x hx
      rcases List.mem_cons.mp hx with rfl | hx
      · exact ⟨hamount, any_foreign_eq_false hfrom, any_foreign_eq_false hto⟩
      · exact ih h x hx

theorem canonical_ok {d : ObservationDraft} {scope : IndexScope} {block : BlockRef}
    {t : CanonicalTransaction} (h : d.canonical scope block = .ok t) :
    t.Valid scope block ∧ t.transactionId = d.transactionId := by
  simp only [ObservationDraft.canonical, bind, Except.bind, pure, Except.pure, throw,
    throwThe, MonadExceptOf.throw] at h
  split at h
  · cases h
  · rename_i hscope
    simp only [not_or, not_not, Bool.not_eq_false, TransactionRef.belongsTo,
      decide_eq_true_eq] at hscope
    split at h
    · cases h
    · split at h
      · cases h
      · rename_i hms
        split at h
        · cases h
        · rename_i hfee
          cases h
          refine ⟨⟨hscope.1, hscope.2, ?_, checkMovements_ok hms, ?_⟩, rfl⟩
          · cases d with
            | mk _ _ status _ _ => cases status <;> rfl
          · intro f hf
            obtain hf : d.fee = some f := hf
            simp only [hf, Option.any_some, invalidFee, Bool.or_eq_true, not_or,
              Bool.not_eq_true] at hfee
            exact ⟨hfee.1.2, any_foreign_eq_false hfee.2⟩

theorem addresses_scope {t : CanonicalTransaction} {scope : IndexScope} {block : BlockRef}
    (h : t.Valid scope block) {a : CanonicalAddress} (ha : a ∈ t.addresses) : a.scope = scope := by
  have hmoved : ∀ a ∈ t.movements.flatMap fun m => m.fromAddress.toList ++ m.toAddress.toList,
      a.scope = scope := by
    intro a ha
    simp only [List.mem_flatMap, List.mem_append, Option.mem_toList] at ha
    obtain ⟨m, hm, ha | ha⟩ := ha
    · exact (h.movements m hm).2.1 a ha
    · exact (h.movements m hm).2.2 a ha
  unfold CanonicalTransaction.addresses at ha
  split at ha
  · rename_i payer hp
    rw [ExtTreeSet.mem_insert] at ha
    rcases ha with ha | ha
    · obtain rfl : payer = a := LawfulEqCmp.eq_of_compare ha
      obtain ⟨f, hf, hpf⟩ := Option.bind_eq_some_iff.mp hp
      exact (h.fee f hf).2 payer hpf
    · exact hmoved a (by simpa using ha)
  · exact hmoved a (by simpa using ha)

/-! ## Addresses of a draft -/

/-- A movement or the fee names the address. -/
def ObservationDraft.touches (d : ObservationDraft) (a : CanonicalAddress) : Bool :=
  d.movements.any (fun m => decide (m.fromAddress = some a) || decide (m.toAddress = some a)) ||
    d.fee.any fun f => decide (f.payer = some a)

theorem mem_addresses {t : CanonicalTransaction} {a : CanonicalAddress} :
    a ∈ t.addresses ↔ (∃ m ∈ t.movements, m.fromAddress = some a ∨ m.toAddress = some a) ∨
      ∃ f, t.fee = some f ∧ f.payer = some a := by
  have hmoved : a ∈ (Std.ExtTreeSet.ofList
      (t.movements.flatMap fun m => m.fromAddress.toList ++ m.toAddress.toList) _ : AddressSet) ↔
      ∃ m ∈ t.movements, m.fromAddress = some a ∨ m.toAddress = some a := by
    simp
  unfold CanonicalTransaction.addresses
  cases hpayer : t.fee.bind (·.payer) with
  | none =>
    rw [hmoved]
    refine ⟨Or.inl, ?_⟩
    rintro (h | ⟨f, hf, hp⟩)
    · exact h
    · rw [hf, Option.bind_some, hp] at hpayer
      cases hpayer
  | some payer =>
    obtain ⟨f, hf, hp⟩ := Option.bind_eq_some_iff.mp hpayer
    rw [Std.ExtTreeSet.mem_insert, Std.LawfulEqCmp.compare_eq_iff_eq, hmoved]
    constructor
    · rintro (rfl | h)
      · exact Or.inr ⟨f, hf, hp⟩
      · exact Or.inl h
    · rintro (h | ⟨f', hf', hp'⟩)
      · exact Or.inr h
      · rw [hf] at hf'
        cases hf'
        rw [hp] at hp'
        exact Or.inl (Option.some.inj hp')

theorem canonical_fields {d : ObservationDraft} {scope : IndexScope} {block : BlockRef}
    {t : CanonicalTransaction} (h : d.canonical scope block = .ok t) :
    t.movements = d.movements ∧ t.fee = d.fee := by
  simp only [ObservationDraft.canonical, bind, Except.bind, pure, Except.pure, throw,
    throwThe, MonadExceptOf.throw] at h
  repeat' split at h
  all_goals cases h
  exact ⟨rfl, rfl⟩

theorem touches_iff {d : ObservationDraft} {scope : IndexScope} {block : BlockRef}
    {t : CanonicalTransaction} (h : d.canonical scope block = .ok t) {a : CanonicalAddress} :
    d.touches a = true ↔ a ∈ t.addresses := by
  obtain ⟨hmovements, hfee⟩ := canonical_fields h
  rw [mem_addresses, hmovements, hfee, ObservationDraft.touches]
  simp [Option.any_eq_true]

end PaymentSdk
