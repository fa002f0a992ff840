import PaymentSdk.Bitcoin.Sign
import PaymentSdk.Bitcoin.Snapshot

/-!
# Preparing what is sent

A wallet's builder funds a transfer from its own outputs, and a batch funds one transaction from the
outputs of each wallet that sends. Both ask for a fee rate, and refuse one above the limit. What the
node, the index and the wallets answer are parameters.
-/

open Checked

namespace PaymentSdk.Bitcoin.Sending

open Indexer (TransactionId isP2wpkh isP2tr)
open Signing Wallets

/-! ## Sources -/

def p2wpkhSatisfactionWeight : UInt64 := 109

def p2trSatisfactionWeight : UInt64 := 67

/-- An output of the index, with its script. -/
structure Unspent where
  transactionId : TransactionId
  outputIndex : UInt32
  value : UInt64
  scriptPubkey : Script
  deriving DecidableEq

/-- The outputs of an address at one checkpoint. -/
structure UtxoSet where
  checkpoint : BlockRef
  outputs : List Unspent

def satisfactionWeight (script : Script) : Except ChainError UInt64 :=
  if isP2wpkh script then .ok p2wpkhSatisfactionWeight
  else if isP2tr script then .ok p2trSatisfactionWeight
  else .error (.invalidTransaction "Bitcoin selected output must be P2WPKH or P2TR")

/-- A source is weighed by its script. -/
def fromExactSelection (lib : Library) (address : Address) (o : Unspent) : Except ChainError SpendSource := do
  let expected ← lib.scriptPubkeyForNetwork address
  ensure (o.scriptPubkey = expected)
    (.invalidTransaction "Bitcoin selected output script does not match its address")
  return ⟨o.transactionId, o.outputIndex, o.value, o.scriptPubkey, ← satisfactionWeight o.scriptPubkey⟩

/-- What the two ways of sending are given. The index may answer each call differently. -/
structure Capabilities where
  secp : Secp
  lib : Library
  addresses : NativeAddresses
  network : Network
  estimate : UInt16 → Except SourceError FeeRate
  utxos : Nat → List Address → Except SourceError UtxoSet
  feeTargetBlocks : UInt16
  maxFeeRate : FeeRate

/-! ## One wallet -/

def transactionError (kind : TransactionErrorKind) (message : String) : TransactionError := { kind, message }

def unavailable {α : Type} (x : Except SourceError α) : Except TransactionError α :=
  x.mapError fun e => transactionError .unavailable e.message

def outputOf (address : Address) (amount : Decimal) : Except DecimalError Output := do
  return ⟨address, ← amount.toAtomicU64 8⟩

/-- What a builder asks to be built. -/
def request (c : Capabilities) (b : Builder) : Except TransactionError BuildRequest := do
  b.validate c.addresses
  require (b.recipients ≠ []) (transactionError .invalidTransaction "transaction has no recipients")
  let set ← unavailable (c.utxos 0 [b.source])
  let available ← (set.outputs.mapM (fromExactSelection c.lib b.source)).mapError fun e =>
    transactionError .invalidTransaction e.message
  let recipients ← (b.recipients.mapM fun r => outputOf r.1 r.2).mapError fun e =>
    transactionError .invalidAmount e.message
  let feeRate ← unavailable (c.estimate c.feeTargetBlocks)
  require (feeRate.satoshisPerKvb ≤ c.maxFeeRate.satoshisPerKvb)
    (transactionError .fee "estimated Bitcoin fee rate exceeds the configured maximum")
  return { available, recipients, changeAddress := b.source, feeRate, drainWallet := false }

/-- The unsigned and the signed transaction. -/
def prepare (c : Capabilities) (b : Builder) (signer : Signer) :
    Except TransactionError (UnsignedTransaction × SignedTransaction) := do
  let r ← request c b
  let t ← (r.build c.lib).mapError fun e => transactionError .signing e.message
  let signed ← (sign c.secp c.lib t signer).mapError fun e => transactionError .signing e.intoChain.message
  return (t, signed)

/-! ## A batch -/

/-- A wallet with its signer. -/
structure SigningWallet extends Wallets.Wallet where
  signer : Signer

/-- One transfer of a batch. -/
structure Transfer where
  wallet : SigningWallet
  destination : AddressText
  amount : Decimal

/-- A wallet that sends, and all that it sends. -/
structure Source where
  wallet : SigningWallet
  address : Address
  recipients : List Output

def fromWalletAddress (c : Capabilities) (address : List UInt8) : Except Error Address :=
  match fromUtf8 address with
  | none => .error { kind := .transaction, message := "Bitcoin address is not UTF-8" }
  | some value => (parseForNetwork c.addresses value c.network).mapError fun e =>
    { kind := .transaction, message := e.message }

def parse (c : Capabilities) (transfer : Transfer) : Except Error (Address × Output) := do
  let source ← fromWalletAddress c transfer.wallet.address
  let destination ← transfer.wallet.parseAddress transfer.destination
  let destination ← fromWalletAddress c destination
  let output ← (outputOf destination transfer.amount).mapError fun e =>
    { kind := .transaction, message := e.message }
  return (source, output)

/-- The first wallet of an address is the one that signs for it. -/
def addOutput (wallet : SigningWallet) (address : Address) (output : Output) : List Source → List Source
  | [] => [⟨wallet, address, [output]⟩]
  | source :: rest =>
    if source.address = address then { source with recipients := source.recipients ++ [output] } :: rest
    else source :: addOutput wallet address output rest

/-- Collects the transfers of each wallet. -/
def sourcesFrom (c : Capabilities) (sources : List Source) (index : Nat) :
    List Transfer → Except SendError (List Source)
  | [] => .ok sources
  | transfer :: rest => do
    let (address, output) ← (parse c transfer).mapError (SendError.item index [])
    sourcesFrom c (addOutput transfer.wallet address output sources) (index + 1) rest

def operation {α : Type} (x : Except String α) : Except SendError α := x.mapError (SendError.operation .transaction)

/-- The groups of a transaction, and an owner for each of their inputs. -/
def fundFrom (c : Capabilities) (checkpoint : Option BlockRef) (call : Nat) :
    List Source → Except SendError (List Funding × List Signer)
  | [] => .ok ([], [])
  | source :: rest => do
    let set ← operation ((c.utxos call [source.address]).mapError (·.message))
    require (∀ expected ∈ checkpoint, expected = set.checkpoint)
      (SendError.operation .transaction "indexed output snapshot changed while building the transaction")
    let available ← operation ((set.outputs.mapM (fromExactSelection c.lib source.address)).mapError (·.message))
    let (funding, owners) ← fundFrom c (some (checkpoint.getD set.checkpoint)) (call + 1) rest
    return (⟨available, source.recipients, source.address⟩ :: funding,
      List.replicate available.length source.wallet.signer ++ owners)

/-- What a batch gives to be built and signed. -/
structure Grouping where
  feeRate : FeeRate
  funding : List Funding
  owners : List Signer

/-- The groups that fund a batch, and its fee rate. -/
def grouping (c : Capabilities) (transfers : List Transfer) : Except SendError Grouping := do
  require (transfers ≠ []) (SendError.collection .invalidBatch "at least one transfer is required")
  require (transfers.length ≤ maxTransfers) (SendError.collection .invalidBatch "at most 50 transfers are allowed")
  let sources ← sourcesFrom c [] 0 transfers
  let feeRate ← operation ((c.estimate c.feeTargetBlocks).mapError (·.message))
  require (feeRate.satoshisPerKvb ≤ c.maxFeeRate.satoshisPerKvb)
    (SendError.operation .transaction "estimated fee rate exceeds the configured maximum")
  let (funding, owners) ← fundFrom c none 0 sources
  return ⟨feeRate, funding, owners⟩

/-- The unsigned and the signed transaction. -/
def execute (c : Capabilities) (transfers : List Transfer) :
    Except SendError (UnsignedTransaction × SignedTransaction) := do
  let g ← grouping c transfers
  let t ← operation ((buildGrouped c.lib g.funding g.feeRate).mapError (·.message))
  let signed ← operation ((signEach c.secp c.lib t g.owners).mapError (·.intoChain.message))
  return (t, signed)

/-! ## What is prepared -/

/-- A source that was selected for an address. -/
def Selected (lib : Library) (address : Address) (source : SpendSource) : Prop :=
  ∃ o, fromExactSelection lib address o = .ok source

variable {c : Capabilities} {lib : Library} {address : Address} {source : SpendSource}

theorem fromExactSelection_ok {o : Unspent} :
    fromExactSelection lib address o = .ok source ↔
      lib.scriptPubkeyForNetwork address = .ok o.scriptPubkey ∧ ∃ weight, satisfactionWeight o.scriptPubkey = .ok weight ∧
        source = ⟨o.transactionId, o.outputIndex, o.value, o.scriptPubkey, weight⟩ := by
  simp only [fromExactSelection, bind_ok, ensure_ok, pure_ok]
  constructor
  · rintro ⟨_, hscript, _, rfl, weight, hweight, rfl⟩
    exact ⟨hscript, weight, hweight, rfl⟩
  · rintro ⟨hscript, weight, hweight, rfl⟩
    exact ⟨_, hscript, (), rfl, weight, hweight, rfl⟩

theorem selected_script (h : Selected lib address source) :
    lib.scriptPubkeyForNetwork address = .ok source.scriptPubkey := by
  obtain ⟨o, h⟩ := h
  obtain ⟨hscript, weight, -, rfl⟩ := fromExactSelection_ok.mp h
  exact hscript

theorem selected_weighed (h : Selected lib address source) : Weighed source := by
  obtain ⟨o, h⟩ := h
  obtain ⟨-, weight, hweight, rfl⟩ := fromExactSelection_ok.mp h
  unfold satisfactionWeight at hweight
  split_ifs at hweight with hwpkh htr
  · cases hweight
    exact ⟨fun _ => (by decide : 108 ≤ p2wpkhSatisfactionWeight.toNat),
      fun _ => (by decide : 67 ≤ p2wpkhSatisfactionWeight.toNat)⟩
  · cases hweight
    exact ⟨fun h => absurd h hwpkh, fun _ => (by decide : 67 ≤ p2trSatisfactionWeight.toNat)⟩

theorem selected_of_mapM {outputs : List Unspent} {available : List SpendSource}
    (h : outputs.mapM (fromExactSelection lib address) = .ok available) : ∀ s ∈ available, Selected lib address s := by
  intro s hs
  obtain ⟨o, -, ho⟩ := mem_mapM h hs
  exact ⟨o, ho⟩

/-! ## One wallet -/

theorem request_ok {b : Builder} {r : BuildRequest} (h : request c b = .ok r) :
    (∀ s ∈ r.available, Selected c.lib b.source s) ∧ r.changeAddress = b.source ∧ r.drainWallet = false ∧
      r.feeRate.satoshisPerKvb ≤ c.maxFeeRate.satoshisPerKvb := by
  simp only [request, bind_ok, require_ok, unavailable, mapError_ok, pure_ok] at h
  obtain ⟨_, -, _, -, set, -, available, havailable, recipients, -, rate, -, _, hrate, rfl⟩ := h
  exact ⟨selected_of_mapM havailable, rfl, rfl, hrate⟩

/-! ## Owners -/

/-- The transfer has a wallet at the address. -/
def SentBy (c : Capabilities) (transfers : List Transfer) (wallet : SigningWallet) (address : Address) : Prop :=
  ∃ transfer ∈ transfers, transfer.wallet = wallet ∧ fromWalletAddress c wallet.address = .ok address

/-- The signer is that of a wallet whose address the script is for. -/
def Owner (c : Capabilities) (transfers : List Transfer) (script : Script) (signer : Signer) : Prop :=
  ∃ wallet address, SentBy c transfers wallet address ∧ c.lib.scriptPubkeyForNetwork address = .ok script ∧
    wallet.signer = signer

theorem addOutput_mem {wallet : SigningWallet} {address : Address} {output : Output} {sources : List Source}
    {s : Source} (h : s ∈ addOutput wallet address output sources) :
    (s.wallet = wallet ∧ s.address = address) ∨ ∃ s' ∈ sources, s.wallet = s'.wallet ∧ s.address = s'.address := by
  induction sources with
  | nil =>
    obtain rfl := List.mem_singleton.mp h
    exact .inl ⟨rfl, rfl⟩
  | cons first rest ih =>
    unfold addOutput at h
    split_ifs at h with hsame
    · obtain rfl | hs := List.mem_cons.mp h
      · exact .inr ⟨first, List.mem_cons_self, rfl, rfl⟩
      · exact .inr ⟨s, List.mem_cons_of_mem _ hs, rfl, rfl⟩
    · obtain rfl | hs := List.mem_cons.mp h
      · exact .inr ⟨s, List.mem_cons_self, rfl, rfl⟩
      · obtain hnew | ⟨s', hs', heq⟩ := ih hs
        · exact .inl hnew
        · exact .inr ⟨s', List.mem_cons_of_mem _ hs', heq⟩

/-- **Run.** Every source has the wallet of some transfer, at that wallet's own address. -/
theorem sourcesFrom_ok {transfers rest : List Transfer} {sources result : List Source} {index : Nat}
    (hrest : ∀ transfer ∈ rest, transfer ∈ transfers)
    (hsources : ∀ s ∈ sources, SentBy c transfers s.wallet s.address)
    (h : sourcesFrom c sources index rest = .ok result) : ∀ s ∈ result, SentBy c transfers s.wallet s.address := by
  induction rest generalizing sources index with
  | nil =>
    cases h
    exact hsources
  | cons transfer rest ih =>
    obtain ⟨⟨address, output⟩, hparse, hnext⟩ := bind_ok.mp h
    obtain ⟨hfirst, hrest⟩ := List.forall_mem_cons.mp hrest
    refine ih hrest ?_ hnext
    intro s hs
    obtain ⟨hwallet, haddress⟩ | ⟨s', hs', hwallet, haddress⟩ := addOutput_mem hs
    · simp only [parse, mapError_ok, bind_ok, pure_ok, Prod.mk.injEq] at hparse
      obtain ⟨source, hsource, _, -, _, -, _, -, rfl, -⟩ := hparse
      exact ⟨transfer, hfirst, hwallet.symm, hwallet ▸ haddress ▸ hsource⟩
    · rw [hwallet, haddress]
      exact hsources s' hs'

theorem forall₂_replicate {α β : Type} {R : α → β → Prop} {l : List α} {b : β} (h : ∀ a ∈ l, R a b) :
    List.Forall₂ R l (List.replicate l.length b) := by
  induction l with
  | nil => exact .nil
  | cons a l ih =>
    obtain ⟨ha, hl⟩ := List.forall_mem_cons.mp h
    exact .cons ha (ih hl)

/-- **Run.** Each input that a group adds has an owner, in the order of the inputs. -/
theorem fundFrom_ok {transfers : List Transfer} {sources : List Source} {checkpoint : Option BlockRef} {call : Nat}
    {funding : List Funding} {owners : List Signer} (hsources : ∀ s ∈ sources, SentBy c transfers s.wallet s.address)
    (h : fundFrom c checkpoint call sources = .ok (funding, owners)) :
    (∀ group ∈ funding, ∀ s ∈ group.available, Selected c.lib group.changeAddress s) ∧
      List.Forall₂ (fun (s : SpendSource) signer => Owner c transfers s.scriptPubkey signer)
        (funding.flatMap fun group => byOutpoint group.available) owners := by
  induction sources generalizing checkpoint call funding owners with
  | nil =>
    cases h
    exact ⟨by simp, .nil⟩
  | cons source rest ih =>
    simp only [fundFrom, operation, bind_ok, mapError_ok, require_ok, pure_ok, Prod.mk.injEq] at h
    obtain ⟨set, -, _, -, available, havailable, ⟨funding, owners⟩, hnext, rfl, rfl⟩ := h
    obtain ⟨hfirst, hsources⟩ := List.forall_mem_cons.mp hsources
    obtain ⟨hselected, howners⟩ := ih hsources hnext
    have hall := selected_of_mapM havailable
    refine ⟨List.forall_mem_cons.mpr ⟨hall, hselected⟩, ?_⟩
    rw [List.flatMap_cons]
    refine List.rel_append ?_ howners
    rw [← (byOutpoint_perm available).length_eq]
    apply forall₂_replicate
    intro s hs
    exact ⟨source.wallet, source.address, hfirst, selected_script (hall s ((byOutpoint_perm _).mem_iff.mp hs)), rfl⟩

theorem grouping_ok {transfers : List Transfer} {g : Grouping} (h : grouping c transfers = .ok g) :
    (∀ group ∈ g.funding, ∀ s ∈ group.available, Selected c.lib group.changeAddress s) ∧
      List.Forall₂ (fun (s : SpendSource) signer => Owner c transfers s.scriptPubkey signer)
        (g.funding.flatMap fun group => byOutpoint group.available) g.owners ∧
      g.feeRate.satoshisPerKvb ≤ c.maxFeeRate.satoshisPerKvb := by
  simp only [grouping, operation, bind_ok, mapError_ok, require_ok, pure_ok] at h
  obtain ⟨_, -, _, -, sources, hsources, rate, -, _, hrate, ⟨funding, owners⟩, hfund, rfl⟩ := h
  have hsent := sourcesFrom_ok (fun _ h => h) (by simp) hsources
  obtain ⟨hselected, howners⟩ := fundFrom_ok hsent hfund
  exact ⟨hselected, howners, hrate⟩

end PaymentSdk.Bitcoin.Sending
