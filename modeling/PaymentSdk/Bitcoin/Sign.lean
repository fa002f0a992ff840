import PaymentSdk.Bitcoin.Contributions
import PaymentSdk.Bitcoin.Selection

/-!
# Signing a transfer

Each input is signed by its own signer, and its witness has to belong to the script that it spends.
A signed transaction has the inputs and outputs that were built, and weighs no more than planned.
-/

open Checked

namespace PaymentSdk.Bitcoin.Signing

open Indexer (TransactionId isP2wpkh isP2tr)

abbrev Bytes := List UInt8

/-! ## Transactions with witnesses -/

/-- An input of the native transaction. -/
structure TxIn where
  previousOutput : TransactionId × UInt32
  sequence : UInt32
  witness : List Bytes
  deriving DecidableEq

structure TxOut where
  value : UInt64
  scriptPubkey : Script
  deriving DecidableEq

structure Transaction where
  version : Int
  lockTime : UInt32
  input : List TxIn
  output : List TxOut
  deriving DecidableEq

/-- The number of items, and each after its length. -/
def witnessSize (witness : List Bytes) : Nat :=
  varIntSize witness.length + (witness.map fun item => varIntSize item.length + item.length).sum

namespace Transaction

def baseSize (t : Transaction) : Nat := Bitcoin.baseSize t.input.length (t.output.map (·.scriptPubkey))

/-- With a witness, or without inputs, a transaction is written with a marker, a flag and the
witnesses. -/
def totalSize (t : Transaction) : Nat :=
  t.baseSize + if t.input = [] ∨ ∃ i ∈ t.input, i.witness ≠ [] then 2 + (t.input.map (witnessSize ·.witness)).sum else 0

def weight (t : Transaction) : Nat := t.baseSize * 3 + t.totalSize

/-- Four weight units are one virtual byte, rounded up. -/
def vsize (t : Transaction) : Nat := (t.weight + 3) / 4

end Transaction

/-! ## Signers -/

inductive SignatureScheme where
  | ecdsaSecp256k1
  | schnorrSecp256k1
  | ed25519
  | ecdsaNistP256
  deriving DecidableEq

inductive SignatureEncoding where
  | der
  | compact
  | recoverable
  | raw
  deriving DecidableEq

inductive PublicKeyFormat where
  | compressed
  | uncompressed
  | xOnly
  | raw
  deriving DecidableEq

/-- A tag and a suffix that are hashed and added to the key. -/
structure KeyTweak where
  tag : Bytes
  suffix : Bytes
  deriving DecidableEq

/-- One digest to sign, in the form that the input needs. -/
structure SignRequest where
  digest : Bytes
  scheme : SignatureScheme
  encoding : SignatureEncoding
  publicKeyFormat : PublicKeyFormat
  keyTweak : Option KeyTweak
  deriving DecidableEq

/-- A signature with the key that made it. -/
structure SignedPayload where
  publicKey : Bytes
  scheme : SignatureScheme
  encoding : SignatureEncoding
  signature : Bytes

abbrev Signer := SignRequest → Except String SignedPayload

/-- The consensus flag of a mode. For Taproot alone, the default one has no flag. -/
def sighashFlag : SighashType → UInt8
  | .all => 0x01
  | .none => 0x02
  | .single => 0x03
  | .allAnyoneCanPay => 0x81
  | .noneAnyoneCanPay => 0x82
  | .singleAnyoneCanPay => 0x83
  | .taprootDefault => 0x00

/-- The library's keys, signatures and hashes. -/
structure Secp where
  CompressedKey : Type
  compressedFromSlice : Bytes → Except String CompressedKey
  compressedBytes : CompressedKey → Bytes
  p2wpkh : CompressedKey → Script
  p2wpkhSighash : Transaction → Nat → Script → UInt64 → UInt8 → Except String Bytes
  EcdsaSignature : Type
  ecdsaFromDer : Bytes → Except String EcdsaSignature
  verifyEcdsa : Bytes → EcdsaSignature → CompressedKey → Bool
  /-- The DER form and the flag. -/
  serializeEcdsa : EcdsaSignature → UInt8 → Bytes
  XOnlyKey : Type
  xOnlyFromSlice : Bytes → Except String XOnlyKey
  p2tr : XOnlyKey → Script
  taprootSighash : Transaction → Nat → List TxOut → UInt8 → Except String Bytes
  SchnorrSignature : Type
  schnorrFromSlice : Bytes → Except String SchnorrSignature
  verifySchnorr : Bytes → SchnorrSignature → XOnlyKey → Bool
  serializeSchnorr : SchnorrSignature → UInt8 → Bytes
  computeTxid : Transaction → TransactionId
  serialize : Transaction → Bytes
  deserialize : Bytes → Except String Transaction

/-! ## Signing -/

/-- Why a signed transaction is refused. -/
inductive SignError where
  | signerCount
  | notOwner (index : Nat)
  | notTaprootOwner (index : Nat)
  | chain (e : ChainError)
  deriving DecidableEq

def SignError.intoChain : SignError → ChainError
  | signerCount => .invalidTransaction "Bitcoin transaction needs exactly one signer per input"
  | notOwner index => ⟨.signer, s!"Bitcoin input {index} does not belong to its signing key"⟩
  | notTaprootOwner index => ⟨.signer, s!"Bitcoin Taproot input {index} does not belong to its signing key"⟩
  | chain e => e

def invalid {α : Type} (message : String) (x : Except String α) : Except SignError α :=
  x.mapError fun e => .chain (.invalidTransaction (message ++ e))

def signing {α : Type} (message : String) (x : Except String α) : Except SignError α :=
  x.mapError fun e => .chain ⟨.signer, message ++ e⟩

/-- The transaction before its inputs are signed. -/
def native (lib : Library) (t : UnsignedTransaction) : Except ChainError Transaction := do
  let output ← t.outputs.mapM fun o => do
    return ⟨o.value, ← lib.scriptPubkeyForNetwork o.address⟩
  return {
    version := t.version
    lockTime := t.lockTime
    input := t.inputs.map fun i => ⟨i.utxo.outpoint, i.sequence, []⟩
    output }

/-- What signing one input reads. -/
structure InputSigner where
  transaction : Transaction
  prevouts : List TxOut
  sighashType : SighashType
  signer : Signer

namespace InputSigner

def signP2wpkhInput (secp : Secp) (s : InputSigner) (index : Nat) (input : Input) : Except SignError (List Bytes) := do
  require (s.sighashType ≠ .taprootDefault)
    (.chain (.invalidTransaction "Taproot default sighash cannot sign a P2WPKH input"))
  let flag := sighashFlag s.sighashType
  let sighash ← invalid "could not compute Bitcoin input sighash: "
    (secp.p2wpkhSighash s.transaction index input.utxo.scriptPubkey input.utxo.value flag)
  let signed ← signing "Bitcoin signing failed: " (s.signer ⟨sighash, .ecdsaSecp256k1, .der, .compressed, none⟩)
  let publicKey ← signing "invalid compressed Bitcoin public key: " (secp.compressedFromSlice signed.publicKey)
  require (secp.p2wpkh publicKey = input.utxo.scriptPubkey) (.notOwner index)
  require (signed.scheme = .ecdsaSecp256k1 ∧ signed.encoding = .der)
    (.chain ⟨.signer, "Bitcoin signer returned an incompatible ECDSA signature"⟩)
  let signature ← signing "invalid DER Bitcoin signature: " (secp.ecdsaFromDer signed.signature)
  require (secp.verifyEcdsa sighash signature publicKey = true)
    (.chain ⟨.signer, s!"Bitcoin signer returned an ECDSA signature that failed cryptographic verification for input {index}"⟩)
  return [secp.serializeEcdsa signature flag, secp.compressedBytes publicKey]

/-- ASCII of `TapTweak`. -/
def tapTweak : Bytes := [84, 97, 112, 84, 119, 101, 97, 107]

def signP2trInput (secp : Secp) (s : InputSigner) (index : Nat) (input : Input) : Except SignError (List Bytes) := do
  let flag := sighashFlag s.sighashType
  let sighash ← invalid "could not compute Taproot input sighash: "
    (secp.taprootSighash s.transaction index s.prevouts flag)
  let signed ← signing "Bitcoin signing failed: "
    (s.signer ⟨sighash, .schnorrSecp256k1, .raw, .xOnly, some ⟨tapTweak, []⟩⟩)
  let publicKey ← signing "invalid x-only Bitcoin public key: " (secp.xOnlyFromSlice signed.publicKey)
  require (secp.p2tr publicKey = input.utxo.scriptPubkey) (.notTaprootOwner index)
  require (signed.scheme = .schnorrSecp256k1 ∧ signed.encoding = .raw)
    (.chain ⟨.signer, "Bitcoin signer returned an incompatible Schnorr signature"⟩)
  let signature ← signing "invalid raw Bitcoin Schnorr signature: " (secp.schnorrFromSlice signed.signature)
  require (secp.verifySchnorr sighash signature publicKey = true)
    (.chain ⟨.signer, s!"Bitcoin signer returned a Schnorr signature that failed cryptographic verification for input {index}"⟩)
  return [secp.serializeSchnorr signature flag]

/-- Signs for the kind of script the spent output has. -/
def signInput (secp : Secp) (s : InputSigner) (index : Nat) (input : Input) : Except SignError (List Bytes) :=
  if isP2wpkh input.utxo.scriptPubkey then s.signP2wpkhInput secp index input
  else if isP2tr input.utxo.scriptPubkey then s.signP2trInput secp index input
  else .error (.chain (.invalidTransaction s!"Bitcoin input {index} is neither P2WPKH nor P2TR"))

end InputSigner

/-- The inputs that are signed, and the ones that are not yet, each with its source and signer. -/
def signFrom (secp : Secp) (t : UnsignedTransaction) (shell : Transaction) (prevouts : List TxOut) (signed : List TxIn) :
    List (TxIn × Input × Signer) → Except SignError Transaction
  | [] => .ok { shell with input := signed }
  | (txin, input, signer) :: rest => do
    let current := { shell with input := signed ++ txin :: rest.map (·.1) }
    let witness ← InputSigner.signInput secp ⟨current, prevouts, t.sighashType, signer⟩ signed.length input
    signFrom secp t shell prevouts (signed ++ [{ txin with witness }]) rest

structure SignedTransaction where
  id : TransactionId
  consensusBytes : Bytes
  deriving DecidableEq

def SignedTransaction.fromConsensusBytes (secp : Secp) (expectedId : TransactionId) (consensusBytes : Bytes) :
    Except ChainError SignedTransaction := do
  let transaction ← (secp.deserialize consensusBytes).mapError fun e =>
    .invalidTransaction ("could not decode signed Bitcoin consensus bytes: " ++ e)
  let computedId := secp.computeTxid transaction
  ensure (computedId = expectedId) (.invalidTransaction
    s!"signed Bitcoin transaction ID mismatch: expected {expectedId.text.str}, computed {computedId.text.str}")
  return ⟨expectedId, consensusBytes⟩

/-- Signs every input, each with its own key. -/
def signEach (secp : Secp) (lib : Library) (t : UnsignedTransaction) (signers : List Signer) :
    Except SignError SignedTransaction := do
  require (t.inputs.length = signers.length) .signerCount
  let shell ← (native lib t).mapError .chain
  let prevouts := t.inputs.map fun i => ⟨i.utxo.value, i.utxo.scriptPubkey⟩
  let signed ← signFrom secp t shell prevouts [] (shell.input.zip (t.inputs.zip signers))
  (SignedTransaction.fromConsensusBytes secp (secp.computeTxid signed) (secp.serialize signed)).mapError .chain

/-- One signer for all inputs. -/
def sign (secp : Secp) (lib : Library) (t : UnsignedTransaction) (signer : Signer) : Except SignError SignedTransaction :=
  signEach secp lib t (t.inputs.map fun _ => signer)

/-! ## Witnesses -/

/-- The sizes of keys and signatures, and what the encoding is read back as. -/
structure Secp.Sized (secp : Secp) : Prop where
  compressed : ∀ key, (secp.compressedBytes key).length = 33
  ecdsa : ∀ signature flag, (secp.serializeEcdsa signature flag).length ≤ 72
  schnorr : ∀ signature flag, (secp.serializeSchnorr signature flag).length = 64 ∨
    (secp.serializeSchnorr signature flag).length = 65
  consensus : ∀ t t', secp.deserialize (secp.serialize t) = .ok t' → t' = t

/-- The planned weight is enough for a signature of the source's script. -/
def Weighed (source : SpendSource) : Prop :=
  (isP2wpkh source.scriptPubkey = true → 108 ≤ source.satisfactionWeight.toNat) ∧
    (isP2tr source.scriptPubkey = true → 67 ≤ source.satisfactionWeight.toNat)

variable {secp : Secp} {lib : Library} {t : UnsignedTransaction}

theorem invalid_ok {α : Type} {message : String} {x : Except String α} {a : α} :
    invalid message x = .ok a ↔ x = .ok a := mapError_ok

theorem signing_ok {α : Type} {message : String} {x : Except String α} {a : α} :
    signing message x = .ok a ↔ x = .ok a := mapError_ok

theorem signP2wpkhInput_ok {s : InputSigner} {index : Nat} {input : Input} {witness : List Bytes}
    (h : s.signP2wpkhInput secp index input = .ok witness) :
    ∃ key signature flag, secp.p2wpkh key = input.utxo.scriptPubkey ∧
      witness = [secp.serializeEcdsa signature flag, secp.compressedBytes key] := by
  simp only [InputSigner.signP2wpkhInput, bind_ok, require_ok, invalid_ok, signing_ok, pure_ok] at h
  obtain ⟨_, -, _, -, _, -, key, -, _, hkey, _, -, signature, -, _, -, rfl⟩ := h
  exact ⟨key, signature, _, hkey, rfl⟩

theorem signP2trInput_ok {s : InputSigner} {index : Nat} {input : Input} {witness : List Bytes}
    (h : s.signP2trInput secp index input = .ok witness) :
    ∃ key signature flag, secp.p2tr key = input.utxo.scriptPubkey ∧
      witness = [secp.serializeSchnorr signature flag] := by
  simp only [InputSigner.signP2trInput, bind_ok, require_ok, invalid_ok, signing_ok, pure_ok] at h
  obtain ⟨_, -, _, -, key, -, _, hkey, _, -, signature, -, _, -, rfl⟩ := h
  exact ⟨key, signature, _, hkey, rfl⟩

theorem varIntSize_small {n : Nat} (h : n < 0xfd) : varIntSize n = 1 := if_pos h

/-- A witness that was made for a source. -/
structure Witnesses (secp : Secp) (source : SpendSource) (witness : List Bytes) : Prop where
  nonempty : witness ≠ []
  weight : secp.Sized → Weighed source → witnessSize witness ≤ source.satisfactionWeight.toNat

theorem signInput_witnesses {s : InputSigner} {index : Nat} {input : Input} {witness : List Bytes}
    (h : s.signInput secp index input = .ok witness) : Witnesses secp input.utxo witness := by
  unfold InputSigner.signInput at h
  split_ifs at h with hwpkh htr
  · obtain ⟨key, signature, flag, -, rfl⟩ := signP2wpkhInput_ok h
    refine ⟨by simp, fun hsized hweighed => Nat.le_trans ?_ (hweighed.1 hwpkh)⟩
    have hkey := hsized.compressed key
    have hsignature := hsized.ecdsa signature flag
    simp only [witnessSize, List.length_cons, List.length_nil, List.map_cons, List.map_nil, List.sum_cons,
      List.sum_nil, hkey, varIntSize_small (show (secp.serializeEcdsa signature flag).length < 0xfd by omega),
      varIntSize_small (show 33 < 0xfd by decide), varIntSize_small (show 0 + 1 + 1 < 0xfd by decide)]
    omega
  · obtain ⟨key, signature, flag, -, rfl⟩ := signP2trInput_ok h
    refine ⟨by simp, fun hsized hweighed => Nat.le_trans ?_ (hweighed.2 htr)⟩
    have hsignature : (secp.serializeSchnorr signature flag).length ≤ 65 := by
      rcases hsized.schnorr signature flag with hlen | hlen <;> omega
    simp only [witnessSize, List.length_cons, List.length_nil, List.map_cons, List.map_nil, List.sum_cons,
      List.sum_nil, varIntSize_small (show (secp.serializeSchnorr signature flag).length < 0xfd by omega),
      varIntSize_small (show 0 + 1 < 0xfd by decide)]
    omega

/-! ## Signed transactions -/

theorem signFrom_ok {shell result : Transaction} {prevouts : List TxOut} {todo : List (TxIn × Input × Signer)}
    {signed : List TxIn} (h : signFrom secp t shell prevouts signed todo = .ok result) :
    ∃ inputs, result = { shell with input := signed ++ inputs } ∧
      List.Forall₂ (fun (p : TxIn × Input × Signer) i => i.previousOutput = p.1.previousOutput ∧
        i.sequence = p.1.sequence ∧ Witnesses secp p.2.1.utxo i.witness) todo inputs := by
  induction todo generalizing signed with
  | nil =>
    cases h
    exact ⟨[], by simp, .nil⟩
  | cons p todo ih =>
    obtain ⟨txin, input, signer⟩ := p
    obtain ⟨witness, hwitness, hrest⟩ := bind_ok.mp h
    obtain ⟨inputs, rfl, hall⟩ := ih hrest
    exact ⟨{ txin with witness } :: inputs, by simp, .cons ⟨rfl, rfl, signInput_witnesses hwitness⟩ hall⟩

/-- What was built, signed. -/
structure Signed (secp : Secp) (lib : Library) (t : UnsignedTransaction) (tx : Transaction) : Prop where
  version : tx.version = t.version
  lockTime : tx.lockTime = t.lockTime
  inputs : List.Forall₂ (fun (input : Input) i => i.previousOutput = input.utxo.outpoint ∧
    i.sequence = input.sequence ∧ Witnesses secp input.utxo i.witness) t.inputs tx.input
  outputs : List.Forall₂ (fun (o : Output) out => out.value = o.value ∧
    lib.scriptPubkeyForNetwork o.address = .ok out.scriptPubkey) t.outputs tx.output

theorem native_ok {shell : Transaction} (h : native lib t = .ok shell) :
    shell.version = t.version ∧ shell.lockTime = t.lockTime ∧
      shell.input = t.inputs.map (fun i => ⟨i.utxo.outpoint, i.sequence, []⟩) ∧
      List.Forall₂ (fun (o : Output) out => out.value = o.value ∧
        lib.scriptPubkeyForNetwork o.address = .ok out.scriptPubkey) t.outputs shell.output := by
  obtain ⟨outputs, houtputs, hshell⟩ := bind_ok.mp h
  cases pure_ok.mp hshell
  refine ⟨rfl, rfl, rfl, (mapM_ok.mp houtputs).imp ?_⟩
  intro o out hout
  obtain ⟨script, hscript, hpure⟩ := bind_ok.mp hout
  cases pure_ok.mp hpure
  exact ⟨rfl, hscript⟩

theorem signed_inputs {inputs : List Input} {signers : List Signer} {signed : List TxIn}
    (hlen : inputs.length = signers.length)
    (h : List.Forall₂ (fun (p : TxIn × Input × Signer) i => i.previousOutput = p.1.previousOutput ∧
        i.sequence = p.1.sequence ∧ Witnesses secp p.2.1.utxo i.witness)
      ((inputs.map fun i => (⟨i.utxo.outpoint, i.sequence, []⟩ : TxIn)).zip (inputs.zip signers)) signed) :
    List.Forall₂ (fun (input : Input) i => i.previousOutput = input.utxo.outpoint ∧
      i.sequence = input.sequence ∧ Witnesses secp input.utxo i.witness) inputs signed := by
  induction inputs generalizing signers signed with
  | nil =>
    cases h
    exact .nil
  | cons input inputs ih =>
    cases signers with
    | nil => simp at hlen
    | cons signer signers =>
      simp only [List.map_cons, List.zip_cons_cons] at h
      obtain _ | ⟨hfirst, hrest⟩ := h
      exact .cons hfirst (ih (by simpa using hlen) hrest)

theorem signEach_ok {signers : List Signer} {signed : SignedTransaction}
    (h : signEach secp lib t signers = .ok signed) :
    t.inputs.length = signers.length ∧ ∃ tx tx', Signed secp lib t tx ∧ signed.id = secp.computeTxid tx ∧
      signed.consensusBytes = secp.serialize tx ∧ secp.deserialize signed.consensusBytes = .ok tx' := by
  simp only [signEach, bind_ok, require_ok, mapError_ok] at h
  obtain ⟨_, hlen, shell, hshell, tx, hsigned, hbytes⟩ := h
  refine ⟨hlen, tx, ?_⟩
  obtain ⟨hversion, hlock, hinput, houtputs⟩ := native_ok hshell
  obtain ⟨inputs, rfl, hall⟩ := signFrom_ok hsigned
  simp only [SignedTransaction.fromConsensusBytes, bind_ok, ensure_ok, mapError_ok, pure_ok] at hbytes
  obtain ⟨tx', htx', _, -, rfl⟩ := hbytes
  rw [hinput] at hall
  exact ⟨tx', ⟨hversion, hlock, signed_inputs hlen hall, houtputs⟩, rfl, rfl, htx'⟩

/-! ## Weight -/

/-- What the witnesses of all inputs weigh. -/
def witnessWeight (tx : Transaction) : Nat := (tx.input.map (witnessSize ·.witness)).sum

/-- The weight that is planned for the witnesses. -/
def satisfaction (sources : List SpendSource) : Nat := Word.total (sources.map (·.satisfactionWeight))

theorem Signed.length_eq {tx : Transaction} (h : Signed secp lib t tx) : t.inputs.length = tx.input.length :=
  h.inputs.length_eq

theorem Signed.scripts {tx : Transaction} (h : Signed secp lib t tx) :
    t.outputs.mapM (fun o => lib.scriptPubkeyForNetwork o.address) = .ok (tx.output.map (·.scriptPubkey)) := by
  apply mapM_ok.mpr
  rw [List.forall₂_map_right_iff]
  exact h.outputs.imp fun _ _ hout => hout.2

theorem Signed.witnesses {tx : Transaction} (h : Signed secp lib t tx) (hsized : secp.Sized)
    (hweighed : ∀ s ∈ t.sources, Weighed s) : witnessWeight tx ≤ satisfaction t.sources := by
  have hinputs := h.inputs
  unfold witnessWeight satisfaction UnsignedTransaction.sources
  unfold UnsignedTransaction.sources at hweighed
  generalize t.inputs = inputs at hinputs hweighed
  generalize tx.input = signed at hinputs
  induction hinputs with
  | nil => simp
  | cons hfirst _ ih =>
    rw [List.map_cons, List.forall_mem_cons] at hweighed
    have hle := ih hweighed.2
    have hwitness := hfirst.2.2.weight hsized hweighed.1
    simp only [List.map_cons, List.sum_cons, Word.total_cons]
    omega

theorem Signed.weight_eq {tx : Transaction} (h : Signed secp lib t tx) (hne : t.inputs ≠ []) :
    tx.weight + satisfaction t.sources =
      signedWeight t.sources (tx.output.map (·.scriptPubkey)) + witnessWeight tx := by
  have hlen : t.sources.length = tx.input.length := by
    rw [UnsignedTransaction.sources, List.length_map, h.length_eq]
  have hcount : t.sources.length ≠ 0 := by simpa [UnsignedTransaction.sources] using hne
  have hwitness : ∃ i ∈ tx.input, i.witness ≠ [] := by
    have hinputs := h.inputs
    generalize t.inputs = inputs at hinputs hne
    generalize tx.input = signed at hinputs
    cases hinputs with
    | nil => exact absurd rfl hne
    | cons hfirst _ => exact ⟨_, List.mem_cons_self, hfirst.2.2.nonempty⟩
  unfold Transaction.weight Transaction.totalSize Transaction.baseSize signedWeight weight totalSize
    segwitMarkerFlagWeight witnessWeight satisfaction
  rw [if_pos (.inr hwitness), if_neg hcount, hlen]
  omega

/-! ## Ownership -/

/-- The keys that the signer answers with are those of the script. -/
structure Holds (secp : Secp) (script : Script) (signer : Signer) : Prop where
  ecdsa : isP2wpkh script = true → ∀ request signed key, request.scheme = .ecdsaSecp256k1 →
    signer request = .ok signed → secp.compressedFromSlice signed.publicKey = .ok key → secp.p2wpkh key = script
  schnorr : isP2tr script = true → ∀ request signed key, request.scheme = .schnorrSecp256k1 →
    signer request = .ok signed → secp.xOnlyFromSlice signed.publicKey = .ok key → secp.p2tr key = script

/-- An error that is about neither the number of signers nor who owns an input. -/
def Unowned (e : SignError) : Prop := ∀ e', e ≠ .chain e'

theorem mapError_unowned {ε α : Type} {g : ε → SignError} {x : Except ε α} {e : SignError} (howner : Unowned e)
    (hchain : ∀ m, ∃ e', g m = .chain e') : x.mapError g ≠ .error e := by
  cases x with
  | error m =>
    intro h
    obtain ⟨e', he'⟩ := hchain m
    exact howner e' ((Except.error.inj h).symm.trans he')
  | ok a => exact nofun

theorem invalid_error {α : Type} {message : String} {x : Except String α} {e : SignError} (howner : Unowned e) :
    invalid message x ≠ .error e := mapError_unowned howner fun _ => ⟨_, rfl⟩

theorem signing_error {α : Type} {message : String} {x : Except String α} {e : SignError} (howner : Unowned e) :
    signing message x ≠ .error e := mapError_unowned howner fun _ => ⟨_, rfl⟩

theorem require_chain {condition : Prop} [Decidable condition] {e' : ChainError} {e : SignError} (howner : Unowned e) :
    require condition (.chain e') ≠ .error e := by
  intro h
  exact howner e' (require_error.mp h).2.symm

theorem signInput_owned {s : InputSigner} {index : Nat} {input : Input} {e : SignError}
    (hholds : Holds secp input.utxo.scriptPubkey s.signer) (howner : Unowned e) :
    s.signInput secp index input ≠ .error e := by
  unfold InputSigner.signInput
  split_ifs with hwpkh htr
  · intro h
    simp only [InputSigner.signP2wpkhInput, bind_error, invalid_error howner, signing_error howner,
      require_chain howner, false_or, invalid_ok, signing_ok, require_error, pure, Except.pure, reduceCtorEq,
      and_false, exists_false, or_false] at h
    obtain ⟨_, -, _, -, signed, hsigned, key, hkey, hne, -⟩ := h
    exact hne (hholds.ecdsa hwpkh _ signed key rfl hsigned hkey)
  · intro h
    simp only [InputSigner.signP2trInput, bind_error, invalid_error howner, signing_error howner,
      require_chain howner, false_or, invalid_ok, signing_ok, require_error, pure, Except.pure, reduceCtorEq,
      and_false, exists_false, or_false] at h
    obtain ⟨_, -, signed, hsigned, key, hkey, hne, -⟩ := h
    exact hne (hholds.schnorr htr _ signed key rfl hsigned hkey)
  · intro h
    cases h
    exact howner _ rfl

/-- **Run.** Owners never sign what is not theirs. -/
theorem signFrom_owned {shell : Transaction} {prevouts : List TxOut} {todo : List (TxIn × Input × Signer)}
    {signed : List TxIn} {e : SignError} (hholds : ∀ p ∈ todo, Holds secp p.2.1.utxo.scriptPubkey p.2.2)
    (howner : Unowned e) : signFrom secp t shell prevouts signed todo ≠ .error e := by
  induction todo generalizing signed with
  | nil => exact nofun
  | cons p todo ih =>
    obtain ⟨txin, input, signer⟩ := p
    obtain ⟨hfirst, hrest⟩ := List.forall_mem_cons.mp hholds
    intro h
    obtain hsign | ⟨witness, -, hnext⟩ := bind_error.mp h
    · exact signInput_owned hfirst howner hsign
    · exact ih hrest hnext

theorem signEach_owned {signers : List Signer} {e : SignError}
    (hholds : List.Forall₂ (fun (s : SpendSource) signer => Holds secp s.scriptPubkey signer) t.sources signers)
    (howner : Unowned e) : signEach secp lib t signers ≠ .error e := by
  intro h
  rw [UnsignedTransaction.sources, List.forall₂_map_left_iff] at hholds
  have hall : ∀ p ∈ t.inputs.zip signers, Holds secp p.1.utxo.scriptPubkey p.2 :=
    fun p hp => (List.forall₂_iff_zip.mp hholds).2 hp
  simp only [signEach, bind_error, require_error, hholds.length_eq, not_true, false_and, false_or] at h
  obtain ⟨_, -, hnative | ⟨shell, -, hsign | ⟨tx, -, hbytes⟩⟩⟩ := h
  · exact mapError_unowned howner (fun _ => ⟨_, rfl⟩) hnative
  · refine signFrom_owned ?_ howner hsign
    intro p hp
    exact hall p.2 (List.of_mem_zip hp).2
  · exact mapError_unowned howner (fun _ => ⟨_, rfl⟩) hbytes

end PaymentSdk.Bitcoin.Signing
