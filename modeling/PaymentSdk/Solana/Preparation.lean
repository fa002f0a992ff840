import PaymentSdk.Lib.Task
import PaymentSdk.Solana.Rpc
import PaymentSdk.Solana.Source

/-!
# Acquiring accounts and preparing envelopes

Both functions hold the leases of their sources across every await. A poll takes at most one
lock: an error first becomes `failing`, and the leases are dropped in the next poll.
-/

open Interaction

namespace PaymentSdk.Solana

open Wallets (ErrorKind Error SendError)

/-! ## Envelopes -/

/-- A transfer and its memo, in the order of the instructions. The source pays. -/
structure Message where
  source : Address
  destination : Address
  amount : UInt64
  memo : List UInt8
  blockhash : List UInt8
  deriving DecidableEq

/-- What the Solana crates supply, with encodings and Ed25519. -/
structure Crates extends Native where
  wireBytes : Message → Option (List UInt8)
  sign : List UInt8 → List UInt8 → List UInt8
  verify : Address → List UInt8 → List UInt8 → Bool
  encode : List UInt8 → Message → Option (List UInt8)
  parseSignature : String → Option (List UInt8)
  renderSignature : List UInt8 → String

/-- A signed transaction, and what is needed to know when it has expired. -/
structure Envelope where
  source : Address
  index : Nat
  message : Message
  signature : List UInt8
  id : Id
  signed : List UInt8
  floor : UInt64
  lifetime : Lifetime
  deriving DecidableEq

/-- `none` is any of the errors, which the caller does not tell apart. -/
def Message.nativeTransfer (source destination : Address) (amount : UInt64) (memo : List UInt8)
    (lifetime : Lifetime) : Option Message :=
  if amount = 0 then none else some ⟨source, destination, amount, memo, lifetime.blockhash⟩

def Envelope.sign (crates : Crates) (source : Address) (index : Nat) (message : Message) (floor : UInt64)
    (lifetime : Lifetime) (key : Key) : Option Envelope := do
  guard (key.address = source ∧ message.source = source ∧ message.blockhash = lifetime.blockhash)
  let bytes ← crates.wireBytes message
  guard (key.secret.length = 32)
  let signature := crates.sign key.secret bytes
  guard (crates.verify key.address bytes signature)
  guard (crates.verify message.source bytes signature)
  let signed ← crates.encode signature message
  pure ⟨source, index, message, signature, crates.renderSignature signature, signed, floor, lifetime⟩

/-- What happens to the envelopes of one call, as it happens. Nothing reads it. -/
inductive Trace where
  | height (value : UInt64)
  | activated
  | sent (envelope : Envelope)
  | observed (envelope : Envelope)
  | reported (result : Except SendError (List Id))
  | returned (result : Except SendError (List Id))
  | resolved (envelope : Envelope) (present : Bool)
  deriving DecidableEq

/-! ## Cancellation -/

def ensure (reply : Reply) : Except SendError Unit :=
  if reply.cancelled then .error (.operation .unavailable "Solana account acquisition was cancelled") else .ok ()

/-- The call and the cancellation race. -/
def race {α : Type} (failed cancelled : String) (reply : Reply) (result : Except RpcError α) : Except SendError α :=
  if reply.interrupted then .error (.operation .unavailable cancelled)
  else result.mapError fun _ => .operation .unavailable failed

/-- A cancellation wins against the answer. -/
def raceAcquisition {α : Type} (reply : Reply) (result : Except RpcError α) : Except SendError α :=
  race "Solana account acquisition failed" "Solana account acquisition was cancelled" reply result

def racePreparation {α : Type} (reply : Reply) (result : Except RpcError α) : Except SendError α :=
  race "Solana transaction preparation failed" "Solana transaction preparation was cancelled" reply result

def item (index : Nat) (kind : ErrorKind) (message : String) : SendError := .item index [] { kind, message }

/-! ## Acquisition -/

def ResolvedTransfer.destinationOf (crates : Crates) (t : ResolvedTransfer) : Except SendError Address :=
  match crates.parse t.destination with
  | none => .error (item t.index .invalidAddress "invalid Solana destination")
  | some parsed =>
    if crates.render parsed ≠ t.destination then .error (item t.index .invalidAddress "invalid Solana destination")
    else if !crates.onCurve parsed then
      .error (item t.index .unsupported "unsupported Solana native destination")
    else if parsed = t.source then
      .error (item t.index .addressMismatch "Solana source and destination must differ")
    else .ok parsed

/-- The accounts of a batch once its sources are leased. -/
structure AcquiredAccounts where
  floor : UInt64
  transfers : List ResolvedTransfer
  balances : List UInt64
  destinations : List Address
  leases : Finset Address

/-- What an acquisition knows while it waits for accounts. -/
structure Acquiring where
  transfers : List ResolvedTransfer
  destinations : List Address
  query : List Address
  leases : Finset Address

def Address.zero : Address := ⟨List.replicate 32 0, by simp⟩

def AccountSnapshot.supportsNativeTransfer (a : AccountSnapshot) : Bool :=
  !a.executable && a.owner == Address.zero && a.data.isEmpty

/-- The balances of the sources, once every account can take part in a native transfer. -/
def classify (observed : List (Address × Option AccountSnapshot)) : List (ResolvedTransfer × Address) →
    Except SendError (List UInt64)
  | [] => .ok []
  | (t, destination) :: rest => do
    let source ← match observed.lookup t.source with
      | none => .error (.operation .unavailable "Solana source observation is missing")
      | some source => .ok source
    if !source.all (·.supportsNativeTransfer) then
      throw (item t.index .unsupported "unsupported Solana source account")
    let destination ← match observed.lookup destination with
      | none => .error (.operation .unavailable "Solana destination observation is missing")
      | some destination => .ok destination
    if !destination.all (·.supportsNativeTransfer) then
      throw (item t.index .unsupported "unsupported Solana destination account")
    let balances ← classify observed rest
    pure ((source.map (·.lamports)).getD 0 :: balances)

inductive Acquire where
  | leasing (transfers : List ResolvedTransfer)
  | health (a : Acquiring)
  | opening (a : Acquiring)
  | accounts (a : Acquiring) (opening : UInt64)
  | closing (a : Acquiring) (context : Context (List (Option AccountSnapshot)))
  | failing (leases : Finset Address) (error : SendError)

namespace Acquire

/-- What is computed under the lease before the first await. -/
def plan (crates : Crates) (reply : Reply) (transfers : List ResolvedTransfer) (leases : Finset Address) :
    Except SendError Acquiring := do
  ensure reply
  let destinations ← transfers.mapM (·.destinationOf crates)
  ensure reply
  let query := ((transfers.zip destinations).flatMap fun (t, destination) => [t.source, destination]).eraseDups
  pure { transfers, destinations, query, leases }

def finish (reply : Reply) (a : Acquiring) (context : Context (List (Option AccountSnapshot))) :
    Except SendError AcquiredAccounts := do
  let floor ← raceAcquisition reply (reply.getSlot (some context.slot))
  ensure reply
  let balances ← classify (a.query.zip context.value) (a.transfers.zip a.destinations)
  ensure reply
  pure { floor, transfers := a.transfers, balances, destinations := a.destinations, leases := a.leases }

/-- An await is over. The next one begins, or the leases are about to be dropped. -/
def follow {α : Type} (s : SourceState) (leases : Finset Address) (result : Except SendError α)
    (next : α → Acquire) : Progress SourceState Trace Acquire (Except SendError AcquiredAccounts) :=
  match result with
  | .error error => ⟨s, [], .inl (failing leases error)⟩
  | .ok value => ⟨s, [], .inl (next value)⟩

def poll (crates : Crates) (s : SourceState) (reply : Reply) :
    Acquire → Progress SourceState Trace Acquire (Except SendError AcquiredAccounts)
  | leasing transfers =>
    if transfers.map (·.index) ≠ List.range transfers.length then
      ⟨s, [], .inr (.error (.collection .invalidBatch "Solana transfer indices must preserve authored order"))⟩
    else match s.lease transfers (1 < transfers.length) with
      | .error error => ⟨s, [], .inr (.error error)⟩
      | .ok (leases, s) => follow s leases (plan crates reply transfers leases) health
  | health a => follow s a.leases
      (do raceAcquisition reply reply.getHealth; ensure reply) fun _ => opening a
  | opening a => follow s a.leases
      (do let slot ← raceAcquisition reply (reply.getSlot none); ensure reply; pure slot) (accounts a)
  | accounts a slot => follow s a.leases
      (do let context ← raceAcquisition reply (reply.getAccounts a.query (some slot)); ensure reply; pure context)
      (closing a)
  | closing a context => match finish reply a context with
    | .error error => ⟨s, [], .inl (failing a.leases error)⟩
    | .ok acquired => ⟨s, [], .inr (.ok acquired)⟩
  | failing leases error => ⟨s.dropLeases leases, [], .inr (.error error)⟩

/-- The leases that are held at an await. -/
def leases : Acquire → Finset Address
  | leasing _ => ∅
  | health a | opening a | accounts a _ | closing a _ => a.leases
  | failing leases _ => leases

end Acquire

/-! ## Preparation -/

def checkedAdd (a b : UInt64) : Option UInt64 :=
  if a.toNat + b.toNat < 2 ^ 64 then some (a + b) else none

/-- `available` and `required` are the maps of the loop. -/
def checkSufficiencyFrom (available required : Address → Option UInt64) :
    List ((ResolvedTransfer × UInt64) × UInt64) → Except SendError Unit
  | [] => .ok ()
  | ((t, balance), fee) :: rest =>
    if (available t.source).any (· ≠ balance) then
      .error (.operation .unavailable "Solana source balance witness is inconsistent")
    else match checkedAdd t.amount fee with
      | none => .error (item t.index .transaction "Solana source requirement overflowed")
      | some needed => match checkedAdd ((required t.source).getD 0) needed with
        | none => .error (item t.index .transaction "Solana source requirement overflowed")
        | some total =>
          if balance < total then .error (item t.index .transaction "Solana source balance is insufficient")
          else checkSufficiencyFrom (Function.update available t.source (some balance))
            (Function.update required t.source (some total)) rest

/-- Each source covers all that its own transfers need, fees included. -/
def checkSufficiency (transfers : List ResolvedTransfer) (balances fees : List UInt64) : Except SendError Unit :=
  checkSufficiencyFrom (fun _ => none) (fun _ => none) ((transfers.zip balances).zip fees)

local instance lawfulBytes : LawfulBEq (List UInt8) := inferInstance

/-- The messages with their bytes. Memos and bytes are all different. -/
def messagesFrom (crates : Crates) (reply : Reply) (lifetime : Lifetime) (memos values : List (List UInt8))
    (position : Nat) : List (ResolvedTransfer × Address) → Except SendError (List (Message × List UInt8))
  | [] => .ok []
  | (t, destination) :: rest => do
    ensure reply
    let memo ← match reply.memo position with
      | none => .error (item t.index .generation "Solana Memo generation failed")
      | some memo => .ok memo
    if memo ∈ memos then throw (item t.index .transaction "Solana Memo token must be unique")
    let message ← match Message.nativeTransfer t.source destination t.amount memo lifetime with
      | none => .error (item t.index .transaction "Solana message construction failed")
      | some message => .ok message
    let bytes ← match crates.wireBytes message with
      | none => .error (item t.index .transaction "Solana message encoding failed")
      | some bytes => .ok bytes
    if bytes ∈ values then throw (item t.index .transaction "Solana messages must be distinct")
    let messages ← messagesFrom crates reply lifetime (memo :: memos) (bytes :: values) (position + 1) rest
    pure ((message, bytes) :: messages)

/-- The signed envelopes. Ids and bytes are all different. -/
def envelopesFrom (crates : Crates) (reply : Reply) (keys : List (Address × Key)) (floor : UInt64)
    (lifetime : Lifetime) (ids : List Id) (values : List (List UInt8)) :
    List (ResolvedTransfer × (Message × List UInt8)) → Except SendError (List Envelope)
  | [] => .ok []
  | (t, message, _) :: rest => do
    ensure reply
    let key ← match keys.lookup t.source with
      | none => .error (item t.index .transaction "Solana source signing key is unavailable")
      | some key => .ok key
    let envelope ← match Envelope.sign crates t.source t.index message floor lifetime key with
      | none => .error (item t.index .transaction "Solana envelope signing failed")
      | some envelope => .ok envelope
    if envelope.id ∈ ids ∨ envelope.signed ∈ values then
      throw (item t.index .transaction "Solana signed envelopes must be distinct")
    let envelopes ← envelopesFrom crates reply keys floor lifetime (envelope.id :: ids)
      (envelope.signed :: values) rest
    pure (envelope :: envelopes)

/-- The envelopes of a batch, with the leases that go to its task. -/
structure PreparedBatch where
  floor : UInt64
  envelopes : List Envelope
  leases : Finset Address

/-- What a preparation knows once its messages are built. -/
structure Preparing where
  floor : UInt64
  acquired : AcquiredAccounts
  lifetime : Lifetime
  messages : List (Message × List UInt8)

inductive Prepare where
  | lifetime (acquired : AcquiredAccounts)
  | fees (p : Preparing) (fees : List UInt64)
  | simulating (p : Preparing) (envelopes : List Envelope) (position : Nat)
  | failing (leases : Finset Address) (error : SendError)

namespace Prepare

def leases : Prepare → Finset Address
  | lifetime acquired => acquired.leases
  | fees p _ | simulating p _ _ => p.acquired.leases
  | failing leases _ => leases

/-- Before the first await. -/
def start (reply : Reply) (acquired : AcquiredAccounts) : Prepare :=
  match ensure reply with
  | .error error => failing acquired.leases error
  | .ok _ => lifetime acquired

/-- The head of the simulation loop, or what comes after it. -/
def simulateNext (reply : Reply) (p : Preparing) (envelopes : List Envelope) (position : Nat) :
    Prepare ⊕ PreparedBatch :=
  match ensure reply with
  | .error error => .inl (failing p.acquired.leases error)
  | .ok _ =>
    if position < envelopes.length then .inl (simulating p envelopes position)
    else .inr ⟨p.floor, envelopes, p.acquired.leases⟩

def signAll (crates : Crates) (keys : List (Address × Key)) (reply : Reply) (p : Preparing) (fees : List UInt64) :
    Except SendError (List Envelope) := do
  checkSufficiency p.acquired.transfers p.acquired.balances fees
  envelopesFrom crates reply keys p.floor p.lifetime [] [] (p.acquired.transfers.zip p.messages)

/-- The head of the fee loop, or what comes after it. -/
def feeNext (crates : Crates) (keys : List (Address × Key)) (reply : Reply) (p : Preparing) (quoted : List UInt64) :
    Prepare ⊕ PreparedBatch :=
  if quoted.length < p.messages.length then
    match ensure reply with
    | .error error => .inl (failing p.acquired.leases error)
    | .ok _ => .inl (fees p quoted)
  else match signAll crates keys reply p quoted with
    | .error error => .inl (failing p.acquired.leases error)
    | .ok envelopes => simulateNext reply p envelopes 0

/-- `select!` of a simulation and the cancellation. -/
def simulation (reply : Reply) (index : Nat) (floor : UInt64) : Except SendError UInt64 :=
  if reply.interrupted then .error (.operation .unavailable "Solana transaction preparation was cancelled")
  else match reply.simulate floor with
    | .ok slot => .ok slot
    | .error .simulation => .error (item index .transaction "Solana transaction simulation failed")
    | .error _ => .error (.operation .unavailable "Solana transaction simulation is unavailable")

def onward (s : SourceState) : Prepare ⊕ PreparedBatch →
    Progress SourceState Trace Prepare (Except SendError PreparedBatch)
  | .inl task => ⟨s, [], .inl task⟩
  | .inr batch => ⟨s, [], .inr (.ok batch)⟩

def poll (crates : Crates) (keys : List (Address × Key)) (s : SourceState) (reply : Reply) :
    Prepare → Progress SourceState Trace Prepare (Except SendError PreparedBatch)
  | lifetime acquired => match racePreparation reply (reply.latestBlockhash acquired.floor) with
    | .error error => onward s (.inl (failing acquired.leases error))
    | .ok wire =>
      match messagesFrom crates reply wire.value [] [] 0 (acquired.transfers.zip acquired.destinations) with
      | .error error => onward s (.inl (failing acquired.leases error))
      | .ok messages => onward s (feeNext crates keys reply ⟨wire.slot, acquired, wire.value, messages⟩ [])
  | fees p quoted => match racePreparation reply (reply.feeForMessage p.floor) with
    | .error error => onward s (.inl (failing p.acquired.leases error))
    | .ok fee =>
      onward s (feeNext crates keys reply { p with floor := fee.slot } (quoted ++ [fee.value]))
  | simulating p envelopes position =>
    match simulation reply ((envelopes[position]?.map (·.index)).getD 0) p.floor with
    | .error error => onward s (.inl (failing p.acquired.leases error))
    | .ok slot => onward s (simulateNext reply { p with floor := slot } envelopes (position + 1))
  | failing leases error => ⟨s.dropLeases leases, [], .inr (.error error)⟩

end Prepare

end PaymentSdk.Solana
