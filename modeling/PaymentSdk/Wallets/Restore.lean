import Mathlib.Logic.Function.Basic
import PaymentSdk.Postgres.Rows
import PaymentSdk.Wallets.Spec

/-!
# Adopting wallets and restoring them

`adopt` calls one after the other, on families whose registries are tables of PostgreSQL
databases, and the `restore` calls of the next start. A provider is deterministic: a secret
always gives the same wallet, so here it gives the text of its address.
-/

namespace PaymentSdk.Wallets

/-! ## The registry -/

/-- A row of `payments_wallet`. -/
structure WalletRow where
  id : String
  scope : IndexScope
  address : Text
  startHeight : Int
  secret : List UInt8
  createdAt : Nat
  deriving DecidableEq

/-- A PostgreSQL repository: a database, and the scope it is bound to. -/
structure Repository where
  database : Nat
  scope : IndexScope
  deriving DecidableEq

abbrev Databases := Nat → List WalletRow

def Repository.checkScope (r : Repository) (scope : IndexScope) : Except IndexError Unit :=
  if scope = r.scope then .ok ()
  else .error ⟨.scopeMismatch, "request belongs to another index scope", false⟩

/-- The insert meets a row with its identity, or with its address in the same scope. -/
def WalletRow.conflicts (row other : WalletRow) : Bool :=
  decide (other.id = row.id) || (decide (other.scope = row.scope) && decide (other.address = row.address))

/-- `fault` is a client that could not be had, or a statement that the server refused. -/
def Repository.register (r : Repository) (databases : Databases) (entry : RegisteredAddress)
    (createdAt : Nat) (fault : Option IndexError) : Except IndexError Databases := do
  r.checkScope entry.filter.address.scope
  let position ← Postgres.asI64 entry.filter.startPosition.val "start position"
  match fault with
  | some e => .error e
  | none =>
    let row : WalletRow :=
      ⟨entry.id, r.scope, entry.filter.address.value, position, entry.material, createdAt⟩
    if (databases r.database).any row.conflicts then
      .error ⟨.conflict, "an address is already registered for this identity or scope", false⟩
    else .ok (Function.update databases r.database (databases r.database ++ [row]))

/-- `ORDER BY created_at, id`. -/
def WalletRow.before (a b : WalletRow) : Bool :=
  decide (a.createdAt < b.createdAt) || (decide (a.createdAt = b.createdAt) && decide (a.id ≤ b.id))

def WalletRow.read (row : WalletRow) : Except IndexError RegisteredAddress :=
  if row.startHeight < 0 then .error ⟨.store, "stored start position is negative", false⟩
  else .ok ⟨row.id, ⟨⟨row.scope, row.address⟩, ⟨UInt64.ofNat row.startHeight.toNat⟩⟩, row.secret⟩

/-- The rows of a scope. -/
def Repository.rows (r : Repository) (databases : Databases) : List WalletRow :=
  (databases r.database).filter fun row => decide (row.scope = r.scope)

def Repository.registered (r : Repository) (databases : Databases) (scope : IndexScope) :
    Except IndexError (List RegisteredAddress) := do
  r.checkScope scope
  ((r.rows databases).mergeSort WalletRow.before).mapM WalletRow.read

/-! ## Families -/

/-- A wallet family with its provider, and with a registry of its scope if it has one. -/
structure Configured where
  scope : IndexScope
  provider : List UInt8 → Except Error (Except Error Text)
  registry : Option Repository
  bound : ∀ r, registry = some r → r.scope = scope

/-- The registered families, each under its own key. -/
structure Families (F : Type) where
  entries : List (F × Configured)
  unique : (entries.map (·.1)).Nodup

variable {I F : Type} [DecidableEq I] [DecidableEq F]

def Families.get (families : Families F) (family : F) : Option Configured :=
  (families.entries.find? fun e => decide (e.1 = family)).map (·.2)

def unknownFamily : Error :=
  { kind := .unsupported, message := "no wallet family is registered for this key" }

/-! ## Adopting -/

/-- A wallet of the collection. -/
structure Held (I F : Type) where
  info : WalletInfo I F
  filter : AddressFilter
  deriving DecidableEq

/-- `adopted` are the wallets whose call returned `Ok`. No step reads it. -/
structure Custody (I F : Type) where
  values : List (Held I F) := []
  databases : Databases := fun _ => []
  revisions : IndexScope → UInt64 := fun _ => 0
  adopted : List (Held I F) := []

/-- One call, with what it meets: the persisted checkpoint, the time of its insert, and a
fault of the registry. -/
structure Adoption (I F : Type) where
  id : I
  family : F
  secret : List UInt8
  checkpoint : Except IndexError (Option BlockRef) := .ok none
  createdAt : Nat := 0
  fault : Option IndexError := none

def Held.new (id : I) (family : F) (scope : IndexScope) (address : Text) (start : BlockPosition) :
    Held I F :=
  ⟨⟨id, family, scope, address⟩, ⟨⟨scope, address⟩, start⟩⟩

/-- The map part of `store`. -/
def insertHeld (values : List (Held I F)) (held : Held I F) : Except Error (List (Held I F)) :=
  if held.info.id ∈ values.map (·.info.id) then
    .error { kind := .duplicate, message := "a wallet is already registered for this key" }
  else .ok (values ++ [held])

/-- The wallet that a call is about, with its birthday. A publication waits for nothing here,
since no other call is under way. -/
def Adoption.held (a : Adoption I F) (configured : Configured) : Except Error (Held I F) := do
  let address ← configured.provider a.secret
  match a.checkpoint with
  | .error e => throw (.ofIndex e)
  | .ok persisted =>
    match Admission.birthday persisted with
    | none =>
      throw { kind := .unavailable, message := "checkpoint position has no successor for wallet publication" }
    | some start =>
      let address ← address
      return .new a.id a.family configured.scope address start

/-- `PublicationPermit::complete`. Its failure leaves the wallet where it is. -/
def Custody.complete (c : Custody I F) (held : Held I F) : Except Error (WalletInfo I F) × Custody I F :=
  match checkedSuccessor (c.revisions held.info.scope) with
  | none => (.error (.ofIndex ⟨.store, "address filter revision is exhausted", false⟩), c)
  | some revision =>
    (.ok held.info, { c with
      revisions := Function.update c.revisions held.info.scope revision
      adopted := c.adopted ++ [held] })

/-- The durable part of `adopt`, for a wallet that is in the map. -/
def Custody.persist (display : I → String) (c : Custody I F) (a : Adoption I F) (held : Held I F) :
    Option Repository → Except Error (WalletInfo I F) × Custody I F
  | none => c.complete held
  | some r =>
    match r.register c.databases ⟨display a.id, held.filter, a.secret⟩ a.createdAt a.fault with
    | .error e => (.error (.ofIndex e), { c with values := c.values.filter (·.info.id ≠ a.id) })
    | .ok databases => { c with databases }.complete held

def Custody.adopt (families : Families F) (display : I → String) (c : Custody I F) (a : Adoption I F) :
    Except Error (WalletInfo I F) × Custody I F :=
  match families.get a.family with
  | none => (.error unknownFamily, c)
  | some configured =>
    match a.held configured with
    | .error e => (.error e, c)
    | .ok held =>
      match insertHeld c.values held with
      | .error e => (.error e, c)
      | .ok values => { c with values }.persist display a held configured.registry

/-! ## Restoring -/

/-- One entry of a registry, and the collection with it. -/
def restoreEntry (ofString : String → I) (family : F) (configured : Configured)
    (values : List (Held I F)) (entry : RegisteredAddress) : Except Error (List (Held I F)) := do
  let address ← configured.provider entry.material
  let address ← address
  insertHeld values (.new (ofString entry.id) family configured.scope address entry.filter.startPosition)

/-- The number of restored entries, and the collection. What was restored before an error
stays. -/
def restoreEntries (ofString : String → I) (family : F) (configured : Configured) :
    Nat → List (Held I F) → List RegisteredAddress → Except Error Nat × List (Held I F)
  | restored, values, [] => (.ok restored, values)
  | restored, values, entry :: rest =>
    match restoreEntry ofString family configured values entry with
    | .error e => (.error e, values)
    | .ok values => restoreEntries ofString family configured (restored + 1) values rest

def restore (families : Families F) (ofString : String → I) (databases : Databases)
    (values : List (Held I F)) (family : F) : Except Error Nat × List (Held I F) :=
  match families.get family with
  | none => (.error unknownFamily, values)
  | some configured =>
    match configured.registry with
    | none => (.ok 0, values)
    | some r =>
      match r.registered databases configured.scope with
      | .error e => (.error (.ofIndex e), values)
      | .ok entries => restoreEntries ofString family configured 0 values entries

/-- The restore calls of a start, one family after the other. -/
def restoreAll (families : Families F) (ofString : String → I) (databases : Databases) :
    List (Held I F) → List F → List (Except Error Nat) × List (Held I F)
  | values, [] => ([], values)
  | values, family :: rest =>
    let (result, values) := restore families ofString databases values family
    let (results, values) := restoreAll families ofString databases values rest
    (result :: results, values)

end PaymentSdk.Wallets
