import PaymentSdk.Base.Atomic
import PaymentSdk.Ethereum.Address
import PaymentSdk.Ethereum.Batch
import PaymentSdk.Wallets.Snapshot

/-!
# Snapshots of Ethereum transactions

A builder takes one transfer. Its snapshot names the asset by its kind, and a token by its address.
-/

open Checked

namespace PaymentSdk.Ethereum

open Wallets

def AddressParseError.text : AddressParseError → String
  | missingPrefix => "Ethereum address is missing its 0x prefix"
  | invalidLength => "Ethereum address must contain exactly 20 bytes"
  | invalidHexadecimal => "Ethereum address contains invalid hexadecimal"
  | wrongChain => "canonical address does not belong to Ethereum"

/-! ## Wallets and builders -/

structure Wallet where
  config : WalletConfig
  address : Address

/-- The fields of `EthereumTransactionBuilder`. It takes one transfer at most. -/
structure Builder where
  config : WalletConfig
  source : Address
  transfer : Option (Address × Decimal)

def Wallet.builder (w : Wallet) : Builder := ⟨w.config, w.address, none⟩

def snapshotKind : String := "ethereum.transfer"

namespace Builder

def validate (b : Builder) : Except TransactionError Unit :=
  b.config.validate.mapError fun e => invalidSnapshot e.message

def addTransfer (b : Builder) (destination : BaseAddress) (amount : Decimal) : Except TransactionError Builder :=
  if b.transfer.isSome then
    .error { kind := .unsupported, message := "Ethereum transaction builder supports exactly one transfer" }
  else if destination.length ≠ 20 then
    .error { kind := .invalidAddress, message := "Ethereum destination must contain exactly 20 bytes" }
  else do
    let _ ← (amount.toAtomicBeBytes 32 b.config.decimals.toNat).mapError fun e =>
      { kind := .invalidAmount, message := e.message }
    pure { b with transfer := some (destination, amount) }

def asset (c : WalletConfig) : Json :=
  match c.asset with
  | .native => .object [("kind", .string "native"), ("ticker", .string "ETH"), ("decimals", jsonNumber c.decimals)]
  | .erc20 token => .object [("kind", .string "erc20"), ("token", .string token.text), ("decimals", jsonNumber c.decimals)]

def snapshot (b : Builder) : Except TransactionError TransactionSnapshot := do
  b.validate
  match b.transfer with
  | none => .error { kind := .invalidTransaction, message := "transfer is not configured" }
  | some (destination, amount) =>
    .ok (.new snapshotKind (.object [
      ("scope", .object [("chain", .string b.config.scope.chain.name.str),
        ("network", .string b.config.scope.network.str)]),
      ("source", .string b.source.text),
      ("destination", .string destination.text),
      ("amount", .string amount.toText),
      ("asset", asset b.config)]))

end Builder

/-! ## What a snapshot is read as -/

namespace Snapshot

structure Scope where
  chain : String
  network : String

inductive Asset where
  | native (ticker : String) (decimals : UInt32)
  | erc20 (token : String) (decimals : UInt32)

/-- The JSON of a snapshot. -/
structure Data where
  scope : Scope
  source : String
  destination : String
  amount : String
  asset : Asset

def Asset.json : Asset → Json
  | native ticker decimals =>
    .object [("kind", .string "native"), ("ticker", .string ticker), ("decimals", jsonNumber decimals)]
  | erc20 token decimals =>
    .object [("kind", .string "erc20"), ("token", .string token), ("decimals", jsonNumber decimals)]

/-- The object with the fields of the data, and no others. -/
def Data.json (d : Data) : Json :=
  .object [
    ("scope", .object [("chain", .string d.scope.chain), ("network", .string d.scope.network)]),
    ("source", .string d.source),
    ("destination", .string d.destination),
    ("amount", .string d.amount),
    ("asset", d.asset.json)]

/-- The derived deserializer. It reads an object with exactly the fields. -/
def Reads (fromValue : Json → Except String Data) : Prop := ∀ d, fromValue d.json = .ok d

/-- The snapshot's asset is the wallet's own. -/
def Asset.matches : Asset → WalletConfig → Bool
  | native ticker decimals, c => c.asset = .native ∧ ticker = "ETH" ∧ decimals = c.decimals
  | erc20 token decimals, c =>
    match c.asset with
    | .native => false
    | .erc20 configured => token = configured.text ∧ decimals = c.decimals

/-- How a restoration ends without a builder. -/
inductive Stop where
  | error (e : TransactionError)
  | panic

def Stop.ofAddress : AddressStop → Stop
  | .error e => .error (invalidSnapshot e.text)
  | .panic => .panic

def invalid {α : Type} (x : Except DecimalError α) : Except Stop α :=
  x.mapError fun e => .error (invalidSnapshot e.message)

def decode (fromValue : Json → Except String Data) (config : WalletConfig) (wallet : Address)
    (snapshot : TransactionSnapshot) : Except Stop (Address × Decimal) :=
  if snapshot.version ≠ TransactionSnapshot.currentVersion ∨ snapshot.kind ≠ snapshotKind then
    .error (.error (invalidSnapshot "snapshot is not a supported Ethereum transfer"))
  else do
    let data ← (fromValue snapshot.value).mapError fun e =>
      .error (invalidSnapshot ("invalid Ethereum snapshot: " ++ e))
    if data.scope.chain ≠ config.scope.chain.name.str ∨ data.scope.network ≠ config.scope.network.str ∨
        data.scope.chain ≠ "ethereum" ∨ config.chainId = 0 ∨ data.source ≠ wallet.text ∨
        data.asset.matches config = false then
      .error (.error (invalidSnapshot "Ethereum snapshot does not belong to this wallet, network, or asset"))
    else do
      let destination ← (Address.fromStr data.destination).mapError .ofAddress
      let amount ← invalid (Decimal.fromText data.amount)
      let _ ← invalid (amount.toAtomicBeBytes 32 config.decimals.toNat)
      pure (destination, amount)

end Snapshot

def Builder.restore (fromValue : Json → Except String Snapshot.Data) (w : Wallet) (snapshot : TransactionSnapshot) :
    Except Snapshot.Stop Builder := do
  let transfer ← Snapshot.decode fromValue w.config w.address snapshot
  let builder := { w.builder with transfer := some transfer }
  builder.validate.mapError .error
  pure builder

/-! ## Authoring and restoring meet -/

def authoring (fromValue : Json → Except String Snapshot.Data) : Authoring Wallet Builder Snapshot.Stop where
  builder := Wallet.builder
  transfer := Builder.addTransfer
  snapshot := Builder.snapshot
  restore := Builder.restore fromValue
  transfers b := b.transfer.toList

/-- The configuration is one that the provider takes. Addresses have 20 bytes. -/
structure Wallet.Valid (w : Wallet) : Prop where
  config : w.config.validate = .ok ()
  address : w.address.length = 20
  token : ∀ token, w.config.asset = .erc20 token → token.length = 20

/-- A wallet of another address, chain or asset. -/
def Wallet.Foreign (w w' : Wallet) : Prop :=
  w.address ≠ w'.address ∨ w.config.scope.network ≠ w'.config.scope.network ∨
    w.config.asset ≠ w'.config.asset ∨ w.config.decimals ≠ w'.config.decimals

/-- What passes the checks of a transfer. -/
def Authored (c : WalletConfig) (r : Address × Decimal) : Prop :=
  r.1.length = 20 ∧ ∃ bytes, r.2.toAtomicBeBytes 32 c.decimals.toNat = .ok bytes

section

variable {fromValue : Json → Except String Snapshot.Data} {w w' : Wallet} {b b' : Builder}
  {ts : List (BaseAddress × Decimal)}

theorem Address.text_inj {a b : Address} (h : a.text = b.text) : a = b := by
  have htext := congrArg String.toList h
  rw [Address.text, Address.text, String.toList_ofList, String.toList_ofList] at htext
  simp only [List.cons.injEq, true_and] at htext
  exact Hex.encode_inj htext

theorem length_of_fromStr {input : String} {a : Address} (h : Address.fromStr input = .ok a) : a.length = 20 := by
  obtain ⟨pairs, -, hlen, -, rfl⟩ := fromStr_ok_iff.mp h
  rw [List.length_map, hlen]

/-! ## Authoring -/

theorem addTransfer_ok {destination : BaseAddress} {amount : Decimal} :
    b.addTransfer destination amount = .ok b' ↔ b.transfer = none ∧ Authored b.config (destination, amount) ∧
      b' = { b with transfer := some (destination, amount) } := by
  unfold Builder.addTransfer Authored
  cases htransfer : b.transfer with
  | some t => simp
  | none =>
    by_cases hlen : destination.length = 20
    · simp only [Option.isSome_none, hlen, bind_ok, mapError_ok, pure_ok, ne_eq, not_true_eq_false, if_false,
        true_and, Bool.false_eq_true]
      constructor
      · rintro ⟨bytes, hbytes, rfl⟩
        exact ⟨⟨bytes, hbytes⟩, rfl⟩
      · rintro ⟨⟨bytes, hbytes⟩, rfl⟩
        exact ⟨bytes, hbytes, rfl⟩
    · simp [hlen]

theorem author_ok (hne : ts ≠ []) (h : (authoring fromValue).author w.builder ts = .ok b) :
    ∃ t, Authored w.config t ∧ b = { w.builder with transfer := some t } := by
  cases ts with
  | nil => exact absurd rfl hne
  | cons t ts =>
    obtain ⟨middle, hmiddle, hrest⟩ := bind_ok.mp h
    have hfirst : w.builder.addTransfer t.1 t.2 = .ok middle := hmiddle
    obtain ⟨-, hauthored, rfl⟩ := addTransfer_ok.mp hfirst
    cases ts with
    | nil =>
      cases hrest
      exact ⟨t, hauthored, rfl⟩
    | cons t' ts =>
      obtain ⟨last, hlast, -⟩ := bind_ok.mp hrest
      have hsecond : Builder.addTransfer { w.builder with transfer := some t } t'.1 t'.2 = .ok last := hlast
      cases (addTransfer_ok.mp hsecond).1

/-! ## Restoring -/

/-- What a snapshot of a transfer says. -/
def Wallet.data (w : Wallet) (t : Address × Decimal) : Snapshot.Data where
  scope := ⟨w.config.scope.chain.name.str, w.config.scope.network.str⟩
  source := w.address.text
  destination := t.1.text
  amount := t.2.toText
  asset := match w.config.asset with
    | .native => .native "ETH" w.config.decimals
    | .erc20 token => .erc20 token.text w.config.decimals

theorem asset_json (w : Wallet) (t : Address × Decimal) : (w.data t).asset.json = Builder.asset w.config := by
  simp only [Wallet.data, Builder.asset]
  cases w.config.asset <;> rfl

theorem snapshot_ok {t : Address × Decimal} {s : TransactionSnapshot} :
    Builder.snapshot { w.builder with transfer := some t } = .ok s ↔
      w.config.validate = .ok () ∧ s = .new snapshotKind (w.data t).json := by
  unfold Builder.snapshot Builder.validate
  rw [bind_ok]
  simp only [mapError_ok, Snapshot.Data.json, asset_json]
  constructor
  · rintro ⟨⟨⟩, hvalid, h⟩
    cases h
    exact ⟨hvalid, rfl⟩
  · rintro ⟨hvalid, rfl⟩
    exact ⟨(), hvalid, rfl⟩

theorem not_snapshot_empty (s : TransactionSnapshot) : w.builder.snapshot ≠ .ok s := by
  intro h
  obtain ⟨_, -, hrest⟩ := bind_ok.mp h
  cases hrest

/-- What has to agree before the transfer is read. -/
def Belongs (config : WalletConfig) (wallet : Address) (d : Snapshot.Data) : Prop :=
  d.scope.chain = config.scope.chain.name.str ∧ d.scope.network = config.scope.network.str ∧
    d.scope.chain = "ethereum" ∧ config.chainId ≠ 0 ∧ d.source = wallet.text ∧ d.asset.matches config = true

theorem decode_ok {config : WalletConfig} {wallet : Address} {s : TransactionSnapshot} {t : Address × Decimal} :
    Snapshot.decode fromValue config wallet s = .ok t ↔
      s.version = TransactionSnapshot.currentVersion ∧ s.kind = snapshotKind ∧
        ∃ d, fromValue s.value = .ok d ∧ Belongs config wallet d ∧ Address.fromStr d.destination = .ok t.1 ∧
          Decimal.fromText d.amount = .ok t.2 ∧ ∃ bytes, t.2.toAtomicBeBytes 32 config.decimals.toNat = .ok bytes := by
  unfold Snapshot.decode
  by_cases hkind : s.version = TransactionSnapshot.currentVersion ∧ s.kind = snapshotKind
  · rw [if_neg (by simp [hkind]), bind_ok]
    simp only [mapError_ok, hkind, true_and]
    refine exists_congr fun d => and_congr_right fun _ => ?_
    by_cases hbelongs : Belongs config wallet d
    · rw [if_neg (by simpa [Belongs] using hbelongs)]
      simp only [hbelongs, true_and, bind_ok, mapError_ok, pure_ok, Snapshot.invalid]
      constructor
      · rintro ⟨a, ha, amount, hamount, bytes, hbytes, rfl⟩
        exact ⟨ha, hamount, bytes, hbytes⟩
      · rintro ⟨ha, hamount, bytes, hbytes⟩
        exact ⟨t.1, ha, t.2, hamount, bytes, hbytes, rfl⟩
    · rw [if_pos (by unfold Belongs at hbelongs; rw [← Bool.not_eq_true]; tauto)]
      simp [hbelongs]
  · rw [if_pos (by tauto)]
    constructor
    · intro h
      cases h
    · rintro ⟨hversion, hname, -⟩
      exact absurd ⟨hversion, hname⟩ hkind

theorem restore_ok {s : TransactionSnapshot} :
    Builder.restore fromValue w s = .ok b ↔ ∃ t, Snapshot.decode fromValue w.config w.address s = .ok t ∧
      b = { w.builder with transfer := some t } ∧ w.config.validate = .ok () := by
  simp only [Builder.restore, Builder.validate, bind_ok, mapError_ok, pure_ok]
  refine exists_congr fun t => and_congr_right fun _ => ?_
  constructor
  · rintro ⟨⟨⟩, hvalid, rfl⟩
    exact ⟨rfl, hvalid⟩
  · rintro ⟨rfl, hvalid⟩
    exact ⟨(), hvalid, rfl⟩

theorem of_validate {c : WalletConfig} (h : c.validate = .ok ()) :
    c.scope.chain.name.str = "ethereum" ∧ c.chainId ≠ 0 := by
  unfold WalletConfig.validate at h
  split_ifs at h with hbad
  simp only [not_or, not_not] at hbad
  exact ⟨hbad.1, hbad.2.2.1⟩

theorem matches_own (w : Wallet) (t : Address × Decimal) : (w.data t).asset.matches w.config = true := by
  unfold Wallet.data
  cases hasset : w.config.asset with
  | native => simp [Snapshot.Asset.matches, hasset]
  | erc20 token => simp [Snapshot.Asset.matches, hasset]

theorem belongs_own (hw : w.Valid) (t : Address × Decimal) : Belongs w.config w.address (w.data t) := by
  obtain ⟨hchain, hid⟩ := of_validate hw.config
  exact ⟨rfl, rfl, hchain, hid, rfl, matches_own w t⟩

theorem of_matches {t : Address × Decimal} (h : (w.data t).asset.matches w'.config = true) :
    w.config.asset = w'.config.asset ∧ w.config.decimals = w'.config.decimals := by
  unfold Wallet.data at h
  cases hasset : w.config.asset with
  | native =>
    simp only [hasset, Snapshot.Asset.matches, Bool.decide_and, Bool.and_eq_true, decide_eq_true_eq] at h
    exact ⟨h.1.symm, h.2.2⟩
  | erc20 token =>
    cases hasset' : w'.config.asset with
    | native => simp [hasset, hasset', Snapshot.Asset.matches] at h
    | erc20 token' =>
      simp only [hasset, hasset', Snapshot.Asset.matches, Bool.decide_and, Bool.and_eq_true, decide_eq_true_eq] at h
      rw [Address.text_inj h.1]
      exact ⟨rfl, h.2⟩

theorem not_foreign {t : Address × Decimal} (h : Belongs w'.config w'.address (w.data t)) : ¬ w.Foreign w' := by
  obtain ⟨-, hnetwork, -, -, hsource, hmatches⟩ := h
  obtain ⟨hasset, hdecimals⟩ := of_matches hmatches
  rintro (hne | hne | hne | hne)
  · exact hne (Address.text_inj hsource)
  · exact hne (Text.ext hnetwork)
  · exact hne hasset
  · exact hne hdecimals

theorem decode_authored (hreads : Snapshot.Reads fromValue) (hw : w.Valid) {t : Address × Decimal}
    (h : Authored w.config t) :
    Snapshot.decode fromValue w.config w.address (.new snapshotKind (w.data t).json) = .ok t :=
  decode_ok.mpr ⟨rfl, rfl, _, hreads _, belongs_own hw t, Address.fromStr_text h.1,
    Decimal.fromText_toText t.2, h.2⟩

theorem authoring_restores (hreads : Snapshot.Reads fromValue) :
    (authoring fromValue).Restores Wallet.Valid Wallet.Foreign where
  restored w ts b hw hne h := by
    obtain ⟨t, hauthored, rfl⟩ := author_ok hne h
    have hsnapshot : Builder.snapshot { w.builder with transfer := some t } = .ok _ :=
      snapshot_ok.mpr ⟨hw.config, rfl⟩
    exact ⟨_, _, hsnapshot, restore_ok.mpr ⟨t, decode_authored hreads hw hauthored, rfl, hw.config⟩, rfl, hsnapshot⟩
  rejected w w' ts b s _ _ hforeign h hs b' hb' := by
    by_cases hne : ts = []
    · subst hne
      cases h
      exact not_snapshot_empty s hs
    · obtain ⟨t, -, rfl⟩ := author_ok hne h
      obtain ⟨-, rfl⟩ := snapshot_ok.mp hs
      obtain ⟨t', hdecode, -, -⟩ := restore_ok.mp hb'
      obtain ⟨-, -, d, hd, hbelongs, -⟩ := decode_ok.mp hdecode
      rw [TransactionSnapshot.new, hreads] at hd
      cases hd
      exact not_foreign hbelongs hforeign
  accepted w s b h := by
    obtain ⟨t, hdecode, rfl, -⟩ := restore_ok.mp h
    obtain ⟨-, -, d, -, -, haddress, -, hamount⟩ := decode_ok.mp hdecode
    have hauthored : Authored w.config t := ⟨length_of_fromStr haddress, hamount⟩
    have hadd : w.builder.addTransfer t.1 t.2 = .ok { w.builder with transfer := some t } :=
      addTransfer_ok.mpr ⟨rfl, hauthored, rfl⟩
    exact bind_ok.mpr ⟨_, hadd, rfl⟩

end

end PaymentSdk.Ethereum
