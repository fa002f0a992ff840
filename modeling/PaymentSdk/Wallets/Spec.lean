import PaymentSdk.Admission.Spec
import PaymentSdk.Wallets.Sender

/-!
# Generating and adopting wallets

The wallet map, the registries of its families, and every `generate` and `adopt` call that
is under way. A call is a future: it goes on when what it awaits has answered, and it can
be dropped at any await. Each lock section is one step.
-/

open Std

namespace PaymentSdk.Wallets

open Admission (SyncPlan CommitPermit)

/-! ## The collection -/

/-- `registry` says whether the family was configured with one. -/
structure Family where
  scope : IndexScope
  registry : Bool
  deriving DecidableEq

/-- What the caller learns of its wallet. -/
structure WalletInfo (I F : Type) where
  id : I
  family : F
  scope : IndexScope
  address : Text
  deriving DecidableEq

/-- A row of a registry. -/
structure RegisteredAddress where
  id : String
  filter : AddressFilter
  material : List UInt8
  deriving DecidableEq

/-- Where an entry comes from: the startup, or a call by its number. Nothing reads it. -/
inductive Origin where
  | restored
  | generated (call : Nat)
  | adopted (call : Nat)
  deriving DecidableEq

/-- A wallet in the map, with the call that put it there. -/
structure Entry (I F : Type) where
  info : WalletInfo I F
  filter : AddressFilter
  origin : Origin
  deriving DecidableEq

/-- What a family's registry holds. `origin` is only recorded. -/
structure Registered (F : Type) where
  family : F
  entry : RegisteredAddress
  origin : Origin
  deriving DecidableEq

/-! ## Calls -/

/-- How a registration has ended. -/
inductive Outcome (I F : Type) where
  | ok (info : WalletInfo I F)
  | error (error : Error)
  | dropped
  deriving DecidableEq

/-- Where a call is. The first three and `registering` are awaits. A permit is held from
`storing` on. -/
inductive Phase (I F : Type) where
  | creating
  | reading (address : Except Error Text)
  | publishing (address : Except Error Text) (reload : Option (Option BlockRef))
  | storing (address : Except Error Text) (checkpoint : Option BlockRef)
  | registering (info : WalletInfo I F) (filter : AddressFilter) (stored : Bool)
  | forgetting (error : Error)
  | releasing (error : Error)
  | completing (info : WalletInfo I F)
  | ended (outcome : Outcome I F)

/-- `secret` is there for `adopt`, and not for `generate`. -/
structure Call (I F : Type) where
  id : I
  family : F
  configured : Option Family
  secret : Option (List UInt8)
  phase : Phase I F

/-- What the awaited call answers. `wallet` is the provider's, with the text of its address. -/
structure Reply where
  wallet : Except Error (Except Error Text) := .error { kind := .unavailable, message := "" }
  checkpoint : Except IndexError (Option BlockRef) := .ok none
  register : IndexError := ⟨.store, "", false⟩

/-- What synchronizers do to a scope's admission meanwhile. -/
inductive Synchronizer where
  | plan (persisted : Option BlockRef)
  | begin (plan : SyncPlan)
  | complete (checkpoint : Option BlockRef)
  | drop (permit : CommitPermit)

/-- A call begins, goes on or is dropped, or the registry stores its entry. -/
inductive Event (I F : Type) where
  | generate (id : I) (family : F)
  | adopt (id : I) (family : F) (secret : List UInt8)
  | resume (call : Nat) (reply : Reply)
  | stores (call : Nat)
  | drop (call : Nat)
  | synchronize (scope : IndexScope) (action : Synchronizer)

/-- The map of the wallets, the registries, and the calls in progress. -/
structure Collection (I F : Type) where
  admissions : IndexScope → Admission.State := fun _ => {}
  values : List (Entry I F) := []
  registered : List (Registered F) := []
  calls : List (Call I F) := []

def Synchronizer.apply (s : Admission.State) : Synchronizer → Admission.State
  | .plan persisted => match s.enterPlan persisted with
    | .error _ => s
    | .ok (_, s) => s
  | .begin p => match s.begin p with
    | .error _ => s
    | .ok (_, s) => s
  | .complete checkpoint => s.completeCommit checkpoint
  | .drop permit => s.dropCommit permit

variable {I F : Type}

def Call.origin (call : Call I F) (n : Nat) : Origin :=
  match call.secret with
  | none => .generated n
  | some _ => .adopted n

def Call.registry (call : Call I F) (configured : Family) : Bool :=
  call.secret.isSome && configured.registry

namespace Collection

def setAdmission (c : Collection I F) (scope : IndexScope) (s : Admission.State) : Collection I F :=
  { c with admissions := fun other => if other = scope then s else c.admissions other }

def setPhase (c : Collection I F) (n : Nat) (call : Call I F) (phase : Phase I F) : Collection I F :=
  { c with calls := c.calls.set n { call with phase } }

/-- The permit of a call is dropped without completion. -/
def release (c : Collection I F) (scope : IndexScope) : Collection I F :=
  c.setAdmission scope (c.admissions scope).dropPublication

/-- One round of `publication`. A call that waits goes on only after its ticket was taken out. -/
def publish (c : Collection I F) (n : Nat) (call : Call I F) (scope : IndexScope)
    (address : Except Error Text) (reload : Option (Option BlockRef)) : Collection I F :=
  if reload = none ∧ n ∈ (c.admissions scope).waiters then c
  else match (c.admissions scope).poll (I := I) reload n with
    | (none, s) => (c.setAdmission scope s).setPhase n call (.publishing address none)
    | (some permit, s) => (c.setAdmission scope s).setPhase n call (.storing address permit.checkpoint)

/-- The end of `store`: the start position, the address, then the map. -/
def store [DecidableEq I] (c : Collection I F) (n : Nat) (call : Call I F) (configured : Family)
    (address : Except Error Text) (checkpoint : Option BlockRef) : Collection I F :=
  match Admission.birthday checkpoint with
  | none => c.setPhase n call (.releasing
      { kind := .unavailable, message := "checkpoint position has no successor for wallet publication" })
  | some start => match address with
    | .error error => c.setPhase n call (.releasing error)
    | .ok address =>
      if call.id ∈ c.values.map (·.info.id) then
        c.setPhase n call (.releasing
          { kind := .duplicate, message := "a wallet is already registered for this key" })
      else
        let info := ⟨call.id, call.family, configured.scope, address⟩
        let filter := ⟨⟨configured.scope, address⟩, start⟩
        let next := if call.registry configured then .registering info filter false else .completing info
        { c.setPhase n call next with values := c.values ++ [⟨info, filter, call.origin n⟩] }

/-- A failed durable write takes the wallet out of the map again. -/
def forget [DecidableEq I] (c : Collection I F) (id : I) : Collection I F :=
  { c with values := c.values.filter (·.info.id ≠ id) }

def complete (c : Collection I F) (n : Nat) (call : Call I F) (scope : IndexScope)
    (info : WalletInfo I F) : Collection I F :=
  match (c.admissions scope).completePublication with
  | .error error => (c.release scope).setPhase n call (.ended (.error (.ofIndex error)))
  | .ok s => (c.setAdmission scope s).setPhase n call (.ended (.ok info))

/-- A call goes on. -/
def resume [DecidableEq I] (c : Collection I F) (n : Nat) (reply : Reply) : Collection I F :=
  match c.calls[n]? with
  | none => c
  | some call => match call.configured with
    | none => match call.phase with
      | .creating => c.setPhase n call (.ended (.error
          { kind := .unsupported, message := "no wallet family is registered for this key" }))
      | _ => c
    | some configured => match call.phase with
      | .creating => match reply.wallet with
        | .error error => c.setPhase n call (.ended (.error error))
        | .ok address => c.setPhase n call (.reading address)
      | .reading address => match reply.checkpoint with
        | .error error => c.setPhase n call (.ended (.error (.ofIndex error)))
        | .ok persisted => c.publish n call configured.scope address (some persisted)
      | .publishing address reload => c.publish n call configured.scope address reload
      | .storing address checkpoint => c.store n call configured address checkpoint
      | .registering info _ stored =>
        if stored then c.setPhase n call (.completing info)
        else c.setPhase n call (.forgetting (.ofIndex reply.register))
      | .forgetting error => (c.forget call.id).setPhase n call (.releasing error)
      | .releasing error => (c.release configured.scope).setPhase n call (.ended (.error error))
      | .completing info => c.complete n call configured.scope info
      | .ended _ => c

/-- The awaited `register` stores its entry. From then on it returns `Ok`. -/
def registryStores (display : I → String) (c : Collection I F) (n : Nat) : Collection I F :=
  match c.calls[n]? with
  | none => c
  | some call => match call.phase, call.secret with
    | .registering info filter false, some material =>
      { c.setPhase n call (.registering info filter true) with
        registered := c.registered ++ [⟨call.family, ⟨display call.id, filter, material⟩, call.origin n⟩] }
    | _, _ => c

/-- A future is dropped. Between its awaits it cannot be. -/
def drop (c : Collection I F) (n : Nat) : Collection I F :=
  match c.calls[n]? with
  | none => c
  | some call => match call.phase with
    | .creating | .reading _ | .publishing _ _ => c.setPhase n call (.ended .dropped)
    | .registering _ _ _ => match call.configured with
      | none => c
      | some configured => (c.release configured.scope).setPhase n call (.ended .dropped)
    | .storing _ _ | .forgetting _ | .releasing _ | .completing _ | .ended _ => c

def begin (config : F → Option Family) (c : Collection I F) (id : I) (family : F)
    (secret : Option (List UInt8)) : Collection I F :=
  { c with calls := c.calls ++ [{ id, family, configured := config family, secret, phase := .creating }] }

def step [DecidableEq I] (config : F → Option Family) (display : I → String) (c : Collection I F) :
    Event I F → Collection I F
  | .generate id family => c.begin config id family none
  | .adopt id family secret => c.begin config id family (some secret)
  | .resume n reply => c.resume n reply
  | .stores n => c.registryStores display n
  | .drop n => c.drop n
  | .synchronize scope action => c.setAdmission scope (action.apply (c.admissions scope))

/-- What `restore` leaves: one wallet for each entry of a registry. -/
def restored (ofString : String → I) (config : F → Option Family)
    (entries : List (F × RegisteredAddress)) : Collection I F where
  values := entries.filterMap fun (family, e) =>
    ((config family).filter (·.registry)).map fun configured =>
      ⟨⟨ofString e.id, family, configured.scope, e.filter.address.value⟩, e.filter, .restored⟩
  registered := entries.map fun (family, e) => ⟨family, e, .restored⟩

end Collection

end PaymentSdk.Wallets
