import PaymentSdk.Base.Atomic
import PaymentSdk.Bitcoin.Fee
import PaymentSdk.Wallets.Snapshot

/-!
# Snapshots of Bitcoin transactions

A snapshot has texts where the builder has addresses and amounts. Reading them back goes through
the same two checks as authoring does.
-/

open Checked

namespace PaymentSdk.Bitcoin

open Wallets

/-! ## Addresses of a network -/

inductive Network where
  | mainnet
  | testnet3
  | testnet4
  | signet
  | regtest
  deriving DecidableEq

def Network.canonicalName : Network → String
  | mainnet => "mainnet"
  | testnet3 => "testnet3"
  | testnet4 => "testnet4"
  | signet => "signet"
  | regtest => "regtest"

/-- The addresses of the Bitcoin library. -/
structure NativeAddresses where
  Native : Type
  parse : String → Except String Native
  requireNetwork : Network → Native → Except String Native
  display : Native → String

/-- What a checked address is displayed as is read as that address. -/
def NativeAddresses.Exact (lib : NativeAddresses) : Prop :=
  ∀ text network a b, lib.parse text = .ok a → lib.requireNetwork network a = .ok b →
    lib.parse (lib.display b) = .ok b ∧ lib.requireNetwork network b = .ok b

def parseForNetwork (lib : NativeAddresses) (value : String) (network : Network) : Except ChainError Address := do
  let address ← (lib.parse value).mapError fun e => ⟨.invalidAddress, "invalid Bitcoin address: " ++ e⟩
  let address ← (lib.requireNetwork network address).mapError fun e =>
    ⟨.invalidAddress, "Bitcoin address is for the wrong network: " ++ e⟩
  pure ⟨lib.display address⟩

def asBytes (text : String) : List UInt8 := text.toByteArray.data.toList

/-- `str::from_utf8`. -/
def fromUtf8 (bytes : List UInt8) : Option String := String.fromUTF8? ⟨bytes.toArray⟩

/-! ## Wallets and builders -/

/-- The chain that a wallet is configured for. -/
structure Config where
  scope : IndexScope
  network : Network

structure Wallet where
  config : Config
  address : Address

/-- The fields of `BitcoinTransactionBuilder`. -/
structure Builder where
  scope : IndexScope
  network : Network
  source : Address
  recipients : List (Address × Decimal)

def Wallet.builder (w : Wallet) : Builder where
  scope := w.config.scope
  network := w.config.network
  source := w.address
  recipients := []

def snapshotKind : String := "bitcoin.transfer"

namespace Builder

def validate (lib : NativeAddresses) (b : Builder) : Except TransactionError Unit := do
  if b.scope.chain.name.str ≠ "bitcoin" ∨ b.scope.network.str ≠ b.network.canonicalName then
    .error (invalidSnapshot "Bitcoin transaction identity, chain, and network do not agree")
  else
    let _ ← (parseForNetwork lib b.source.encoded b.network).mapError fun e => invalidSnapshot e.message
    pure ()

def transfer (lib : NativeAddresses) (b : Builder) (destination : BaseAddress) (amount : Decimal) :
    Except TransactionError Builder :=
  match fromUtf8 destination with
  | none => .error { kind := .invalidAddress, message := "Bitcoin address is not UTF-8" }
  | some value => do
    let address ← (parseForNetwork lib value b.network).mapError fun e =>
      { kind := .invalidAddress, message := e.message }
    let _ ← (amount.toAtomicU64 8).mapError fun e => { kind := .invalidAmount, message := e.message }
    pure { b with recipients := b.recipients ++ [(address, amount)] }

def snapshot (lib : NativeAddresses) (b : Builder) : Except TransactionError TransactionSnapshot := do
  b.validate lib
  if b.recipients = [] then
    .error { kind := .invalidTransaction, message := "transaction has no recipients" }
  else
    let transfers := b.recipients.map fun (destination, amount) =>
      Json.object [("destination", .string destination.encoded), ("amount", .string amount.toText)]
    .ok (.new snapshotKind (.object [
      ("scope", .object [("chain", .string b.scope.chain.name.str), ("network", .string b.scope.network.str)]),
      ("source", .string b.source.encoded),
      ("asset", .object [("kind", .string "native"), ("ticker", .string "BTC"), ("decimals", jsonNumber 8)]),
      ("transfers", .array transfers),
      ("change", .string b.source.encoded)]))

end Builder

/-! ## What a snapshot is read as -/

namespace Snapshot

structure Scope where
  chain : String
  network : String

structure Asset where
  kind : String
  ticker : String
  decimals : UInt32

structure Transfer where
  destination : String
  amount : String

/-- The JSON of a snapshot. -/
structure Data where
  scope : Scope
  source : String
  asset : Asset
  transfers : List Transfer
  change : String

def Transfer.json (t : Transfer) : Json :=
  .object [("destination", .string t.destination), ("amount", .string t.amount)]

/-- The object with the fields of the data, and no others. -/
def Data.json (d : Data) : Json :=
  .object [
    ("scope", .object [("chain", .string d.scope.chain), ("network", .string d.scope.network)]),
    ("source", .string d.source),
    ("asset", .object [("kind", .string d.asset.kind), ("ticker", .string d.asset.ticker),
      ("decimals", jsonNumber d.asset.decimals)]),
    ("transfers", .array (d.transfers.map Transfer.json)),
    ("change", .string d.change)]

/-- The derived deserializer. It reads an object with exactly the fields. -/
def Reads (fromValue : Json → Except String Data) : Prop := ∀ d, fromValue d.json = .ok d

def transferOf (lib : NativeAddresses) (config : Config) (t : Transfer) : Except TransactionError (Address × Decimal) := do
  let destination ← (parseForNetwork lib t.destination config.network).mapError fun e => invalidSnapshot e.message
  let amount ← (Decimal.fromText t.amount).mapError fun e => invalidSnapshot e.message
  let _ ← (amount.toAtomicU64 8).mapError fun e => invalidSnapshot e.message
  pure (destination, amount)

/-- Reads the stored transfer and checks that it is this wallet's. -/
def decode (lib : NativeAddresses) (fromValue : Json → Except String Data) (config : Config) (wallet : Address)
    (snapshot : TransactionSnapshot) : Except TransactionError (List (Address × Decimal)) :=
  if snapshot.version ≠ TransactionSnapshot.currentVersion ∨ snapshot.kind ≠ snapshotKind then
    .error (invalidSnapshot "snapshot is not a supported Bitcoin transfer")
  else do
    let data ← (fromValue snapshot.value).mapError fun e => invalidSnapshot ("invalid Bitcoin snapshot: " ++ e)
    if data.scope.chain ≠ config.scope.chain.name.str ∨ data.scope.network ≠ config.scope.network.str ∨
        data.scope.chain ≠ "bitcoin" ∨ data.scope.network ≠ config.network.canonicalName ∨
        data.source ≠ wallet.encoded ∨ data.change ≠ wallet.encoded ∨ data.asset.kind ≠ "native" ∨
        data.asset.ticker ≠ "BTC" ∨ data.asset.decimals ≠ 8 then
      .error (invalidSnapshot "Bitcoin snapshot does not belong to this wallet, network, or asset")
    else if data.transfers = [] then .error (invalidSnapshot "Bitcoin snapshot has no transfers")
    else data.transfers.mapM (transferOf lib config)

end Snapshot

/-- A builder from its snapshot, or why it is not one. -/
def Builder.restore (lib : NativeAddresses) (fromValue : Json → Except String Snapshot.Data) (w : Wallet)
    (snapshot : TransactionSnapshot) : Except TransactionError Builder := do
  let recipients ← Snapshot.decode lib fromValue w.config w.address snapshot
  let builder := { w.builder with recipients }
  builder.validate lib
  pure builder

/-! ## Authoring and restoring meet -/

def authoring (lib : NativeAddresses) (fromValue : Json → Except String Snapshot.Data) :
    Authoring Wallet Builder TransactionError where
  builder := Wallet.builder
  transfer := Builder.transfer lib
  snapshot := Builder.snapshot lib
  restore := Builder.restore lib fromValue
  transfers b := b.recipients.map fun (a, amount) => (asBytes a.encoded, amount)

/-- The chain and the network agree, and the address is of the network. -/
structure Wallet.Valid (lib : NativeAddresses) (w : Wallet) : Prop where
  chain : w.config.scope.chain.name.str = "bitcoin"
  network : w.config.scope.network.str = w.config.network.canonicalName
  address : ∃ a, parseForNetwork lib w.address.encoded w.config.network = .ok a

/-- A wallet of another address or another network. -/
def Wallet.Foreign (w w' : Wallet) : Prop := w.address ≠ w'.address ∨ w.config.network ≠ w'.config.network

/-- What passes both checks. -/
def Authored (lib : NativeAddresses) (network : Network) (r : Address × Decimal) : Prop :=
  parseForNetwork lib r.1.encoded network = .ok r.1 ∧ ∃ satoshis, r.2.toAtomicU64 8 = .ok satoshis

section

variable {lib : NativeAddresses} {fromValue : Json → Except String Snapshot.Data} {w w' : Wallet} {b b' : Builder}
  {ts : List (BaseAddress × Decimal)}

theorem parseForNetwork_ok {text : String} {network : Network} {a : Address} :
    parseForNetwork lib text network = .ok a ↔ ∃ x y, lib.parse text = .ok x ∧
      lib.requireNetwork network x = .ok y ∧ a = ⟨lib.display y⟩ := by
  simp only [parseForNetwork, bind_ok, mapError_ok, pure_ok]
  constructor
  · rintro ⟨x, hx, y, hy, rfl⟩
    exact ⟨x, y, hx, hy, rfl⟩
  · rintro ⟨x, y, hx, hy, rfl⟩
    exact ⟨x, hx, y, hy, rfl⟩

theorem parseForNetwork_canonical (hexact : lib.Exact) {text : String} {network : Network} {a : Address}
    (h : parseForNetwork lib text network = .ok a) : parseForNetwork lib a.encoded network = .ok a := by
  obtain ⟨x, y, hx, hy, rfl⟩ := parseForNetwork_ok.mp h
  obtain ⟨hparse, hnetwork⟩ := hexact text network x y hx hy
  exact parseForNetwork_ok.mpr ⟨y, y, hparse, hnetwork, rfl⟩

theorem fromUtf8_asBytes (text : String) : fromUtf8 (asBytes text) = some text := by
  have hbytes : (⟨(asBytes text).toArray⟩ : ByteArray) = text.toByteArray := by
    rw [asBytes, Array.toArray_toList]
  rw [fromUtf8, hbytes, String.fromUTF8?, dif_pos text.isValidUTF8]
  rfl

/-! ## Authoring -/

theorem transfer_ok {destination : BaseAddress} {amount : Decimal} :
    b.transfer lib destination amount = .ok b' ↔
      ∃ value address, fromUtf8 destination = some value ∧ parseForNetwork lib value b.network = .ok address ∧
        (∃ satoshis, amount.toAtomicU64 8 = .ok satoshis) ∧
        b' = { b with recipients := b.recipients ++ [(address, amount)] } := by
  unfold Builder.transfer
  cases fromUtf8 destination with
  | none => simp
  | some value =>
    simp only [bind_ok, mapError_ok, pure_ok, Option.some.injEq]
    constructor
    · rintro ⟨address, haddress, satoshis, hsatoshis, rfl⟩
      exact ⟨value, address, rfl, haddress, ⟨satoshis, hsatoshis⟩, rfl⟩
    · rintro ⟨value', address, rfl, haddress, ⟨satoshis, hsatoshis⟩, rfl⟩
      exact ⟨address, haddress, satoshis, hsatoshis, rfl⟩

theorem author_ok (hexact : lib.Exact) (h : (authoring lib fromValue).author b ts = .ok b') :
    ∃ added, b' = { b with recipients := b.recipients ++ added } ∧ added.length = ts.length ∧
      ∀ r ∈ added, Authored lib b.network r := by
  induction ts generalizing b with
  | nil =>
    cases h
    exact ⟨[], by simp, rfl, by simp⟩
  | cons t ts ih =>
    obtain ⟨middle, hmiddle, hrest⟩ := bind_ok.mp h
    obtain ⟨value, address, -, haddress, hamount, rfl⟩ := transfer_ok.mp hmiddle
    obtain ⟨added, rfl, hlen, hall⟩ := ih hrest
    refine ⟨(address, t.2) :: added, by simp, by simp [hlen], ?_⟩
    intro r hr
    rcases List.mem_cons.mp hr with rfl | hr
    · exact ⟨parseForNetwork_canonical hexact haddress, hamount⟩
    · exact hall r hr

theorem author_of_authored {rs : List (Address × Decimal)} (h : ∀ r ∈ rs, Authored lib b.network r) :
    (authoring lib fromValue).author b (rs.map fun (a, amount) => (asBytes a.encoded, amount)) =
      .ok { b with recipients := b.recipients ++ rs } := by
  induction rs generalizing b with
  | nil => simp [Authoring.author, pure, Except.pure]
  | cons r rs ih =>
    obtain ⟨haddress, hamount⟩ := h r List.mem_cons_self
    have hfirst : b.transfer lib (asBytes r.1.encoded) r.2 =
        .ok { b with recipients := b.recipients ++ [r] } :=
      transfer_ok.mpr ⟨_, _, fromUtf8_asBytes _, haddress, hamount, rfl⟩
    have hrest := @ih { b with recipients := b.recipients ++ [r] } fun r' hr' => h r' (List.mem_cons_of_mem _ hr')
    rw [Authoring.author, List.map_cons, List.foldlM_cons]
    simp only [authoring, hfirst, bind, Except.bind]
    simpa [authoring, Authoring.author] using hrest

/-! ## Restoring -/

/-- What a snapshot of the builder says. -/
def Builder.data (b : Builder) : Snapshot.Data where
  scope := ⟨b.scope.chain.name.str, b.scope.network.str⟩
  source := b.source.encoded
  asset := ⟨"native", "BTC", 8⟩
  transfers := b.recipients.map fun (destination, amount) => ⟨destination.encoded, amount.toText⟩
  change := b.source.encoded

theorem builder_validate_ok :
    b.validate lib = .ok () ↔ b.scope.chain.name.str = "bitcoin" ∧
      b.scope.network.str = b.network.canonicalName ∧ ∃ a, parseForNetwork lib b.source.encoded b.network = .ok a := by
  unfold Builder.validate
  split_ifs with h
  · refine ⟨fun hthrow => (nomatch hthrow), ?_⟩
    rintro ⟨hchain, hnetwork, -⟩
    rcases h with h | h
    · exact absurd hchain h
    · exact absurd hnetwork h
  · simp only [not_or, not_not] at h
    simp only [bind_ok, mapError_ok, h, true_and]
    constructor
    · rintro ⟨a, ha, -⟩
      exact ⟨a, ha⟩
    · rintro ⟨a, ha⟩
      exact ⟨a, ha, rfl⟩

theorem transfers_json (b : Builder) : b.data.transfers.map Snapshot.Transfer.json =
    b.recipients.map fun (destination, amount) =>
      Json.object [("destination", .string destination.encoded), ("amount", .string amount.toText)] := by
  rw [Builder.data, List.map_map]
  rfl

theorem snapshot_ok {s : TransactionSnapshot} :
    b.snapshot lib = .ok s ↔
      b.validate lib = .ok () ∧ b.recipients ≠ [] ∧ s = .new snapshotKind b.data.json := by
  unfold Builder.snapshot
  rw [bind_ok]
  constructor
  · rintro ⟨⟨⟩, hvalid, h⟩
    split_ifs at h with hempty
    cases h
    refine ⟨hvalid, hempty, ?_⟩
    rw [Snapshot.Data.json, transfers_json]
    rfl
  · rintro ⟨hvalid, hne, rfl⟩
    refine ⟨(), hvalid, ?_⟩
    rw [if_neg hne, Snapshot.Data.json, transfers_json]
    rfl

theorem transferOf_authored {config : Config} {r : Address × Decimal} (h : Authored lib config.network r) :
    Snapshot.transferOf lib config ⟨r.1.encoded, r.2.toText⟩ = .ok r := by
  obtain ⟨haddress, satoshis, hamount⟩ := h
  simp only [Snapshot.transferOf, bind_ok, mapError_ok, pure_ok]
  exact ⟨r.1, haddress, r.2, Decimal.fromText_toText r.2, satoshis, hamount, rfl⟩

theorem authored_of_transferOf (hexact : lib.Exact) {config : Config} {t : Snapshot.Transfer}
    {r : Address × Decimal} (h : Snapshot.transferOf lib config t = .ok r) : Authored lib config.network r := by
  simp only [Snapshot.transferOf, bind_ok, mapError_ok, pure_ok] at h
  obtain ⟨a, ha, amount, -, satoshis, hsatoshis, rfl⟩ := h
  exact ⟨parseForNetwork_canonical hexact ha, satoshis, hsatoshis⟩

/-- What has to agree before the transfers are read. -/
def Belongs (config : Config) (wallet : Address) (d : Snapshot.Data) : Prop :=
  d.scope.chain = config.scope.chain.name.str ∧ d.scope.network = config.scope.network.str ∧
    d.scope.chain = "bitcoin" ∧ d.scope.network = config.network.canonicalName ∧
    d.source = wallet.encoded ∧ d.change = wallet.encoded ∧ d.asset.kind = "native" ∧
    d.asset.ticker = "BTC" ∧ d.asset.decimals = 8

theorem decode_ok {config : Config} {wallet : Address} {s : TransactionSnapshot} {rs : List (Address × Decimal)} :
    Snapshot.decode lib fromValue config wallet s = .ok rs ↔
      s.version = TransactionSnapshot.currentVersion ∧ s.kind = snapshotKind ∧
        ∃ d, fromValue s.value = .ok d ∧ Belongs config wallet d ∧ d.transfers ≠ [] ∧
          d.transfers.mapM (Snapshot.transferOf lib config) = .ok rs := by
  unfold Snapshot.decode
  by_cases hkind : s.version = TransactionSnapshot.currentVersion ∧ s.kind = snapshotKind
  · rw [if_neg (by simp [hkind]), bind_ok]
    simp only [mapError_ok, hkind, true_and]
    refine exists_congr fun d => and_congr_right fun _ => ?_
    by_cases hbelongs : Belongs config wallet d
    · rw [if_neg (by simpa [Belongs] using hbelongs)]
      simp only [hbelongs, true_and]
      split_ifs with hempty
      · simp [hempty]
      · simp [hempty]
    · rw [if_pos (by unfold Belongs at hbelongs; tauto)]
      simp [hbelongs]
  · rw [if_pos (by tauto)]
    constructor
    · intro h
      cases h
    · rintro ⟨hversion, hname, -⟩
      exact absurd ⟨hversion, hname⟩ hkind

theorem restore_ok {s : TransactionSnapshot} :
    Builder.restore lib fromValue w s = .ok b ↔
      ∃ rs, Snapshot.decode lib fromValue w.config w.address s = .ok rs ∧
        b = { w.builder with recipients := rs } ∧ b.validate lib = .ok () := by
  simp only [Builder.restore, bind_ok, pure_ok]
  refine exists_congr fun rs => and_congr_right fun _ => ?_
  constructor
  · rintro ⟨⟨⟩, hvalid, rfl⟩
    exact ⟨rfl, hvalid⟩
  · rintro ⟨rfl, hvalid⟩
    exact ⟨(), hvalid, rfl⟩

theorem validate_of_valid (h : w.Valid lib) (rs : List (Address × Decimal)) :
    Builder.validate lib { w.builder with recipients := rs } = .ok () :=
  builder_validate_ok.mpr ⟨h.chain, h.network, h.address⟩

theorem belongs_own (h : w.Valid lib) (rs : List (Address × Decimal)) :
    Belongs w.config w.address (Builder.data { w.builder with recipients := rs }) :=
  ⟨rfl, rfl, h.chain, h.network, rfl, rfl, rfl, rfl, rfl⟩

theorem canonicalName_inj {n n' : Network} (h : n.canonicalName = n'.canonicalName) : n = n' := by
  cases n <;> cases n' <;> first | rfl | exact absurd h (by decide)

theorem not_foreign (hw : w.Valid lib) {rs : List (Address × Decimal)}
    (h : Belongs w'.config w'.address (Builder.data { w.builder with recipients := rs })) : ¬ w.Foreign w' := by
  obtain ⟨-, -, -, hnetwork, hsource, -⟩ := h
  rintro (hne | hne)
  · have hencoded : w.address.encoded = w'.address.encoded := hsource
    exact hne (congrArg Address.mk hencoded)
  · exact hne (canonicalName_inj (hw.network.symm.trans hnetwork))

theorem decode_authored (hreads : Snapshot.Reads fromValue) (hw : w.Valid lib) {rs : List (Address × Decimal)}
    (hne : rs ≠ []) (h : ∀ r ∈ rs, Authored lib w.config.network r) :
    Snapshot.decode lib fromValue w.config w.address
      (.new snapshotKind (Builder.data { w.builder with recipients := rs }).json) = .ok rs := by
  refine decode_ok.mpr ⟨rfl, rfl, _, hreads _, belongs_own hw rs, by simpa [Builder.data] using hne, ?_⟩
  rw [Builder.data, mapM_ok, List.forall₂_map_left_iff, List.forall₂_same]
  exact fun r hr => transferOf_authored (h r hr)

theorem authoring_restores (hexact : lib.Exact) (hreads : Snapshot.Reads fromValue) :
    (authoring lib fromValue).Restores (Wallet.Valid lib) Wallet.Foreign where
  restored w ts b hw hne h := by
    obtain ⟨added, rfl, hlen, hall⟩ := author_ok hexact h
    have hadded : added ≠ [] := by
      rintro rfl
      exact hne (List.length_eq_zero_iff.mp hlen.symm)
    have hvalid := validate_of_valid hw added
    have hsnapshot : Builder.snapshot lib { w.builder with recipients := added } = .ok _ :=
      snapshot_ok.mpr ⟨hvalid, hadded, rfl⟩
    exact ⟨_, _, hsnapshot, restore_ok.mpr ⟨added, decode_authored hreads hw hadded hall, rfl, hvalid⟩, rfl, hsnapshot⟩
  rejected w w' ts b s hw hw' hforeign h hs b' hb' := by
    obtain ⟨added, rfl, -, -⟩ := author_ok hexact h
    obtain ⟨-, -, rfl⟩ := snapshot_ok.mp hs
    obtain ⟨rs, hdecode, -, -⟩ := restore_ok.mp hb'
    obtain ⟨-, -, d, hd, hbelongs, -, -⟩ := decode_ok.mp hdecode
    rw [TransactionSnapshot.new, hreads] at hd
    cases hd
    exact not_foreign hw hbelongs hforeign
  accepted w s b h := by
    obtain ⟨rs, hdecode, rfl, -⟩ := restore_ok.mp h
    obtain ⟨-, -, d, -, -, -, hmap⟩ := decode_ok.mp hdecode
    have hall : ∀ r ∈ rs, Authored lib w.config.network r := by
      intro r hr
      obtain ⟨t, -, ht⟩ := mem_mapM hmap hr
      exact authored_of_transferOf hexact ht
    exact author_of_authored (b := w.builder) hall

end

end PaymentSdk.Bitcoin
