import PaymentSdk.Bitcoin.Snapshot
import PaymentSdk.Ethereum.Snapshot

/-!
# Restoring transactions

The builders of both chains restore what they authored. A snapshot of the one chain is none of the
other.
-/

open Checked

namespace PaymentSdk.Wallets

section

variable {lib : Bitcoin.NativeAddresses} {fromBitcoin : Json → Except String Bitcoin.Snapshot.Data}
  {fromEthereum : Json → Except String Ethereum.Snapshot.Data}

theorem kind_of_snapshot {b : Bitcoin.Builder} {s : TransactionSnapshot} (h : b.snapshot lib = .ok s) :
    s.kind = Bitcoin.snapshotKind := by
  obtain ⟨-, -, rfl⟩ := Bitcoin.snapshot_ok.mp h
  rfl

theorem kind_of_snapshot_ethereum {b : Ethereum.Builder} {s : TransactionSnapshot} (h : b.snapshot = .ok s) :
    s.kind = Ethereum.snapshotKind := by
  obtain ⟨_, -, hrest⟩ := bind_ok.mp h
  split at hrest
  · cases hrest
  · cases hrest
    rfl

theorem not_restored_across {s : TransactionSnapshot} :
    (∀ b w b', Bitcoin.Builder.snapshot lib b = .ok s → Ethereum.Builder.restore fromEthereum w s ≠ .ok b') ∧
      ∀ b w b', Ethereum.Builder.snapshot b = .ok s → Bitcoin.Builder.restore lib fromBitcoin w s ≠ .ok b' := by
  constructor
  · intro b w b' hs hrestore
    obtain ⟨t, hdecode, -, -⟩ := Ethereum.restore_ok.mp hrestore
    obtain ⟨-, hkind, -⟩ := Ethereum.decode_ok.mp hdecode
    rw [kind_of_snapshot hs] at hkind
    exact absurd hkind (by decide)
  · intro b w b' hs hrestore
    obtain ⟨rs, hdecode, -, -⟩ := Bitcoin.restore_ok.mp hrestore
    obtain ⟨-, hkind, -⟩ := Bitcoin.decode_ok.mp hdecode
    rw [kind_of_snapshot_ethereum hs] at hkind
    exact absurd hkind (by decide)

/-- **Snapshots.** They restore what was authored, in the wallet that took them and in no other. -/
theorem snapshots_restore (hexact : lib.Exact) (hbitcoin : Bitcoin.Snapshot.Reads fromBitcoin)
    (hethereum : Ethereum.Snapshot.Reads fromEthereum) :
    (Bitcoin.authoring lib fromBitcoin).Restores (Bitcoin.Wallet.Valid lib) Bitcoin.Wallet.Foreign ∧
      (Ethereum.authoring fromEthereum).Restores Ethereum.Wallet.Valid Ethereum.Wallet.Foreign ∧
      ∀ s, (∀ b w b', Bitcoin.Builder.snapshot lib b = .ok s → Ethereum.Builder.restore fromEthereum w s ≠ .ok b') ∧
        ∀ b w b', Ethereum.Builder.snapshot b = .ok s → Bitcoin.Builder.restore lib fromBitcoin w s ≠ .ok b' :=
  ⟨Bitcoin.authoring_restores hexact hbitcoin, Ethereum.authoring_restores hethereum, fun _ => not_restored_across⟩

end

/-! ## Reading the objects -/

def readText (m : Json.Map) (field : String) : Option String := (m.get field).bind Json.asStr

def asU32 (j : Json) : Option UInt32 :=
  j.asU64.bind fun n => if n.toNat < 2 ^ 32 then some n.toUInt32 else none

def readU32 (m : Json.Map) (field : String) : Option UInt32 := (m.get field).bind asU32

def readObject (m : Json.Map) (field : String) : Option Json.Map := (m.get field).bind Json.asObject

def readTransfer (j : Json) : Option Bitcoin.Snapshot.Transfer := do
  let m ← j.asObject
  return ⟨← readText m "destination", ← readText m "amount"⟩

def readTransfers (j : Json) : Option (List Bitcoin.Snapshot.Transfer) := j.asArray.bind (·.mapM readTransfer)

def readBitcoin (j : Json) : Option Bitcoin.Snapshot.Data := do
  let m ← j.asObject
  let scope ← readObject m "scope"
  let asset ← readObject m "asset"
  let transfers ← (m.get "transfers").bind readTransfers
  return {
    scope := ⟨← readText scope "chain", ← readText scope "network"⟩
    source := ← readText m "source"
    asset := ⟨← readText asset "kind", ← readText asset "ticker", ← readU32 asset "decimals"⟩
    transfers
    change := ← readText m "change" }

def readAsset (m : Json.Map) : Option Ethereum.Snapshot.Asset := do
  let kind ← readText m "kind"
  if kind = "native" then return .native (← readText m "ticker") (← readU32 m "decimals")
  else if kind = "erc20" then return .erc20 (← readText m "token") (← readU32 m "decimals")
  else none

def readEthereum (j : Json) : Option Ethereum.Snapshot.Data := do
  let m ← j.asObject
  let scope ← readObject m "scope"
  let asset ← readAsset (← readObject m "asset")
  return {
    scope := ⟨← readText scope "chain", ← readText scope "network"⟩
    source := ← readText m "source"
    destination := ← readText m "destination"
    amount := ← readText m "amount"
    asset }

def fromValue {α : Type} (read : Json → Option α) (j : Json) : Except String α :=
  (read j).elim (.error "invalid data") .ok

theorem asU32_jsonNumber (n : UInt32) : asU32 (jsonNumber n) = some n := by
  have hlt : n.toUInt64.toNat < 2 ^ 32 := by
    rw [UInt32.toNat_toUInt64]
    exact n.toNat_lt
  simp only [asU32, jsonNumber, Json.asU64, Option.bind_some]
  rw [if_pos hlt, UInt32.toUInt32_toUInt64]

theorem readTransfers_json (ts : List Bitcoin.Snapshot.Transfer) :
    readTransfers (.array (ts.map Bitcoin.Snapshot.Transfer.json)) = some ts := by
  rw [readTransfers, Json.asArray, Option.bind_some]
  induction ts with
  | nil => rfl
  | cons t ts ih =>
    rw [List.map_cons, List.mapM_cons, ih]
    rfl

theorem readBitcoin_json (d : Bitcoin.Snapshot.Data) : readBitcoin d.json = some d := by
  simp [readBitcoin, Bitcoin.Snapshot.Data.json, readObject, readText, readU32, Json.Map.get, List.lookup_cons,
    Json.asObject, Json.asStr, readTransfers_json, asU32_jsonNumber]

theorem readEthereum_json (d : Ethereum.Snapshot.Data) : readEthereum d.json = some d := by
  obtain ⟨scope, source, destination, amount, asset⟩ := d
  cases asset with
  | native ticker decimals =>
    simp [readEthereum, Ethereum.Snapshot.Data.json, Ethereum.Snapshot.Asset.json, readAsset, readObject, readText,
      readU32, Json.Map.get, List.lookup_cons, Json.asObject, Json.asStr, asU32_jsonNumber]
  | erc20 token decimals =>
    simp [readEthereum, Ethereum.Snapshot.Data.json, Ethereum.Snapshot.Asset.json, readAsset, readObject, readText,
      readU32, Json.Map.get, List.lookup_cons, Json.asObject, Json.asStr, asU32_jsonNumber]

/-! ## A wallet -/

def eaterAddress : String := "1BitcoinEaterAddressDontSendf59kuE"

/-- One address is known, and it is of the main network. -/
def knownAddresses : Bitcoin.NativeAddresses where
  Native := String
  parse text := if text = eaterAddress then .ok text else .error "base58 error"
  requireNetwork network address := if network = .mainnet then .ok address else .error "required network mismatch"
  display address := address

theorem knownAddresses_exact : knownAddresses.Exact := by
  intro text network a b hparse hnetwork
  simp only [knownAddresses] at hparse hnetwork ⊢
  split_ifs at hparse with htext
  split_ifs at hnetwork with hmain
  cases hparse
  cases hnetwork
  exact ⟨if_pos htext, if_pos hmain⟩

def bitcoinScope : IndexScope := ⟨⟨.lit "bitcoin" (Eq.refl true)⟩, .lit "mainnet" (Eq.refl true)⟩

def sampleWallet : Bitcoin.Wallet := ⟨⟨bitcoinScope, .mainnet⟩, ⟨eaterAddress⟩⟩

theorem eater_parses : Bitcoin.parseForNetwork knownAddresses eaterAddress .mainnet = .ok ⟨eaterAddress⟩ := by
  simp [Bitcoin.parseForNetwork, knownAddresses, bind, Except.bind, Except.mapError, pure, Except.pure]

theorem sampleWallet_valid : sampleWallet.Valid knownAddresses := ⟨rfl, rfl, ⟨_, eater_parses⟩⟩

theorem snapshots_restore_sample :
    ∃ s b', Bitcoin.Builder.snapshot knownAddresses
        { sampleWallet.builder with recipients := [(⟨eaterAddress⟩, Decimal.normalize 15 1 (by decide))] } = .ok s ∧
      Bitcoin.Builder.restore knownAddresses (fromValue readBitcoin) sampleWallet s = .ok b' := by
  have hrestores := (snapshots_restore knownAddresses_exact
    (fun d => by rw [fromValue, readBitcoin_json]; rfl : Bitcoin.Snapshot.Reads (fromValue readBitcoin))
    (fun d => by rw [fromValue, readEthereum_json]; rfl : Ethereum.Snapshot.Reads (fromValue readEthereum))).1
  have hauthor := @Bitcoin.author_of_authored knownAddresses (fromValue readBitcoin) sampleWallet.builder
    [(⟨eaterAddress⟩, Decimal.normalize 15 1 (by decide))] (by
      intro r hr
      rw [List.mem_singleton.mp hr]
      exact ⟨eater_parses, 150000000, by decide⟩)
  obtain ⟨s, b', hs, hb', -⟩ := hrestores.restored sampleWallet _ _ sampleWallet_valid (by simp) hauthor
  exact ⟨s, b', hs, hb'⟩

end PaymentSdk.Wallets
