import PaymentSdk.Redb.History
import PaymentSdk.Solana.Keys

/-!
# Solana RPC answers

What the client makes of a decoded answer. A request that failed, or whose answer could not
be decoded, is `none`. Only the checks of the client itself remain.
-/

namespace PaymentSdk.Solana

/-- An answer with the slot that it is for. -/
structure Context (α : Type) where
  slot : UInt64
  value : α
  deriving DecidableEq

/-- Why a read fails. -/
inductive RpcError where
  | failed
  | malformed
  | belowFloor
  | invalidConfiguration
  | simulation
  deriving DecidableEq

/-- A recent blockhash and the last height it is valid at. -/
structure Lifetime where
  blockhash : List UInt8
  lastValidBlockHeight : UInt64
  deriving DecidableEq

/-- An account as the node gives it. -/
structure AccountSnapshot where
  owner : Address
  lamports : UInt64
  executable : Bool
  data : List UInt8
  deriving DecidableEq

structure StatusWire where
  slot : UInt64
  confirmations : Option UInt64
  failed : Bool
  confirmationStatus : String
  deriving DecidableEq

structure SignatureStatus where
  slot : UInt64
  failed : Bool
  deriving DecidableEq

/-- What the awaited call answers, whichever it is. `interrupted` says that the cancellation
won the race, and `cancelled` is what the checks after the await read. -/
structure Reply where
  interrupted : Bool := false
  cancelled : Bool := false
  health : Option String := none
  slot : Option UInt64 := none
  accounts : Option (Context (List (Option AccountSnapshot))) := none
  lifetime : Option (Context Lifetime) := none
  memo : Nat → Option (List UInt8) := fun _ => none
  fee : Option (Context (Option UInt64)) := none
  simulation : Option (Context Bool) := none
  blockHeight : Option UInt64 := none
  sent : Option String := none
  status : Option (Context (List (Option StatusWire))) := none
  registered : Bool := false
  checkpoint : Except IndexError (Option BlockRef) := .ok none
  history : Except IndexError Redb.TransactionPage := .ok ⟨none, [], none⟩

namespace Reply

/-- An answer from before the floor is refused. -/
def requireFloor {α : Type} (wire : Context α) (floor : Option UInt64) : Except RpcError Unit :=
  if floor.any (wire.slot < ·) then .error .belowFloor else .ok ()

def answered {α : Type} : Option α → Except RpcError α
  | none => .error .failed
  | some value => .ok value

def getHealth (reply : Reply) : Except RpcError Unit := do
  let health ← answered reply.health
  if health ≠ "ok" then throw .malformed

def getSlot (reply : Reply) (minimum : Option UInt64) : Except RpcError UInt64 := do
  let slot ← answered reply.slot
  if minimum.any (slot < ·) then throw .belowFloor
  pure slot

def getAccounts (reply : Reply) (addresses : List Address) (minimum : Option UInt64) :
    Except RpcError (Context (List (Option AccountSnapshot))) := do
  if addresses = [] ∨ 100 < addresses.length then throw .invalidConfiguration
  let wire ← answered reply.accounts
  requireFloor wire minimum
  if wire.value.length ≠ addresses.length then throw .malformed
  pure wire

def latestBlockhash (reply : Reply) (floor : UInt64) : Except RpcError (Context Lifetime) := do
  let wire ← answered reply.lifetime
  requireFloor wire (some floor)
  pure wire

def feeForMessage (reply : Reply) (floor : UInt64) : Except RpcError (Context UInt64) := do
  let wire ← answered reply.fee
  requireFloor wire (some floor)
  match wire.value with
  | none => throw .malformed
  | some fee => pure ⟨wire.slot, fee⟩

/-- The value says whether the simulated transaction failed. -/
def simulate (reply : Reply) (floor : UInt64) : Except RpcError UInt64 := do
  let wire ← answered reply.simulation
  requireFloor wire (some floor)
  if wire.value then throw .simulation
  pure wire.slot

def getBlockHeight (reply : Reply) : Except RpcError UInt64 := answered reply.blockHeight

/-- Accepted only if the node returns the id of the envelope, in its canonical form. -/
def sendTransaction (parse : String → Option (List UInt8)) (render : List UInt8 → String) (reply : Reply)
    (id : Id) : Bool :=
  match reply.sent with
  | none => false
  | some returned => match parse returned with
    | none => false
    | some signature => render signature == returned && returned == id

/-- The status is no older than the floor and no newer than its context. -/
def validStatus (floor slot : UInt64) (status : StatusWire) : Bool :=
  !(status.slot < floor || slot < status.slot ||
    !(["processed", "confirmed", "finalized"].contains status.confirmationStatus) ||
    (status.confirmationStatus == "finalized" && status.confirmations.isSome))

def signatureStatus (reply : Reply) (floor : UInt64) :
    Except RpcError (Context (Option SignatureStatus)) := do
  let wire ← answered reply.status
  requireFloor wire (some floor)
  match wire.value with
  | [none] => pure ⟨wire.slot, none⟩
  | [some status] =>
    if validStatus floor wire.slot status then pure ⟨wire.slot, some ⟨status.slot, status.failed⟩⟩
    else throw .malformed
  | _ => throw .malformed

end Reply

end PaymentSdk.Solana
