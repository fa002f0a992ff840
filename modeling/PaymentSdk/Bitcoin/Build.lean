import PaymentSdk.Bitcoin.Fee

/-!
# Building a transfer

A transfer spends the most valuable sources first and stops as soon as they cover its recipients
and the fee. What is left over goes to the sender, unless it is too little to be worth an output.
-/

open Std Checked

namespace PaymentSdk.Bitcoin

open Indexer (TransactionId isP2wpkh isP2tr)

/-! ## Requests and transactions -/

/-- What a transfer is built from. -/
structure BuildRequest where
  available : List SpendSource
  recipients : List Output
  changeAddress : Address
  feeRate : FeeRate
  drainWallet : Bool

structure Input where
  utxo : SpendSource
  sequence : UInt32
  deriving DecidableEq

inductive SighashType where
  | all
  | none
  | single
  | allAnyoneCanPay
  | noneAnyoneCanPay
  | singleAnyoneCanPay
  | taprootDefault
  deriving DecidableEq

/-- The transaction that the signer gets, with the output behind every input. -/
structure UnsignedTransaction where
  version : Int
  lockTime : UInt32
  inputs : List Input
  outputs : List Output
  sighashType : SighashType
  deriving DecidableEq

/-- Replaceable by fee, with no lock time. -/
def enableRbfNoLocktime : UInt32 := 0xfffffffd

def UnsignedTransaction.fromSelected (utxos : List SpendSource) (outputs : List Output) : UnsignedTransaction where
  version := 2
  lockTime := 0
  inputs := utxos.map (⟨·, enableRbfNoLocktime⟩)
  outputs := outputs
  sighashType := .all

def UnsignedTransaction.sources (t : UnsignedTransaction) : List SpendSource := t.inputs.map (·.utxo)

@[simp]
theorem sources_fromSelected (utxos : List SpendSource) (outputs : List Output) :
    (UnsignedTransaction.fromSelected utxos outputs).sources = utxos := by
  simp [UnsignedTransaction.sources, UnsignedTransaction.fromSelected, Function.comp_def]

@[simp]
theorem outputs_fromSelected (utxos : List SpendSource) (outputs : List Output) :
    (UnsignedTransaction.fromSelected utxos outputs).outputs = outputs := rfl

/-! ## Orders -/

/-- The displayed transaction id, then the index. -/
def SpendSource.compareOutpoint (a b : SpendSource) : Ordering :=
  (compare a.transactionId.text.str b.transactionId.text.str).then (compare a.outputIndex b.outputIndex)

/-- The most valuable first, then by the outpoint's bytes. -/
def SpendSource.compareValue : SpendSource → SpendSource → Ordering :=
  compareLex (fun a b => compare b.value a.value)
    (compareLex (compareOn (·.transactionId.bytes)) (compareOn (·.outputIndex)))

/-- By transaction, then by output index. -/
def byOutpoint (sources : List SpendSource) : List SpendSource :=
  sources.mergeSort fun a b => (a.compareOutpoint b).isLE

/-- Largest first. Equal values keep their order. -/
def byValue (sources : List SpendSource) : List SpendSource :=
  sources.mergeSort fun a b => (a.compareValue b).isLE

/-! ## Validation -/

/-- An output has to be above the dust limit, unless a zero is allowed. -/
def checkedOutput (lib : Library) (output : Output) (allowZero : Bool) : Except ChainError Script := do
  let script ← lib.scriptPubkeyForNetwork output.address
  let minimum := lib.minimalNonDust script
  ensure (allowZero = true ∨ minimum ≤ output.value)
    (.invalidTransaction s!"Bitcoin recipient output is dust: minimum is {minimum} satoshis")
  return script

namespace BuildRequest

/-- The checks before any source is selected, with the scripts of the recipients and of the
change. -/
def validate (lib : Library) (r : BuildRequest) : Except ChainError (List Script × Script) := do
  ensure (r.available ≠ []) (.insufficientFunds "Bitcoin transfer has no available UTXOs")
  ensure (r.recipients ≠ []) (.invalidTransaction "Bitcoin transfer has no recipients")
  ensure (r.feeRate.satoshisPerKvb ≠ 0) ⟨.feeUnavailable, "Bitcoin fee rate must be greater than zero"⟩
  ensure (r.available.map (·.outpoint)).Nodup
    (.invalidTransaction "Bitcoin transfer contains a duplicate UTXO")
  ensure (∀ utxo ∈ r.available, isP2wpkh utxo.scriptPubkey ∨ isP2tr utxo.scriptPubkey)
    (.invalidTransaction "Bitcoin wallet supports P2WPKH and P2TR inputs only")
  let recipientScripts ← r.recipients.mapM (checkedOutput lib · r.drainWallet)
  let changeScript ← lib.scriptPubkeyForNetwork r.changeAddress
  return (recipientScripts, changeScript)

/-! ## Selection -/

/-- Everything goes to the one recipient. -/
def drain (lib : Library) (r : BuildRequest) (recipientScripts : List Script) :
    Except ChainError UnsignedTransaction :=
  match r.recipients, recipientScripts with
  | [recipient], [script] => do
    let available := byOutpoint r.available
    let selectedTotal ← okOr (.invalidTransaction "Bitcoin selected input amount overflowed u64")
      (Word.checkedSum (available.map (·.value)))
    let fee ← predictedFee available [script] r.feeRate
    let value ← okOr (.insufficientFunds "Bitcoin UTXOs cannot cover the drain transaction fee")
      (Word.checkedSub selectedTotal fee)
    let minimum := lib.minimalNonDust script
    ensure (minimum ≤ value)
      (.insufficientFunds s!"Bitcoin drain output is dust: minimum is {minimum} satoshis")
    return .fromSelected available [{ recipient with value := value }]
  | _, _ => .error (.invalidTransaction "Bitcoin drain transfer requires exactly one recipient")

/-- What the loop over the sources reads. -/
structure Selection where
  recipientScripts : List Script
  changeScript : Script
  recipientTotal : UInt64

/-- The change, when it is worth an output. -/
def changeOf (lib : Library) (c : Selection) (selectedTotal feeWithChange : UInt64) : Option UInt64 :=
  ((Word.checkedSub selectedTotal c.recipientTotal).bind (Word.checkedSub · feeWithChange)).filter
    (lib.minimalNonDust c.changeScript ≤ ·)

/-- The outputs are still missing when the sources run out. -/
def selectFrom (lib : Library) (r : BuildRequest) (c : Selection) (selected : List SpendSource)
    (selectedTotal : UInt64) : List SpendSource → Except ChainError (List SpendSource × Option (List Output))
  | [] => .ok (selected, none)
  | utxo :: rest => do
    let selectedTotal ← okOr (.invalidTransaction "Bitcoin selected input amount overflowed u64")
      (Word.checkedAdd selectedTotal utxo.value)
    let selected := selected ++ [utxo]
    let feeWithoutChange ← predictedFee selected c.recipientScripts r.feeRate
    let required ← okOr (.invalidTransaction "Bitcoin amount and fee overflowed u64")
      (Word.checkedAdd c.recipientTotal feeWithoutChange)
    if selectedTotal < required then selectFrom lib r c selected selectedTotal rest
    else
      let feeWithChange ← predictedFee selected (c.recipientScripts ++ [c.changeScript]) r.feeRate
      let change := changeOf lib c selectedTotal feeWithChange
      return (selected, some (r.recipients ++ change.toList.map (⟨r.changeAddress, ·⟩)))

/-- Takes sources until they cover the recipients and the fee. -/
def select (lib : Library) (r : BuildRequest) (recipientScripts : List Script) (changeScript : Script) :
    Except ChainError UnsignedTransaction := do
  let recipientTotal ← okOr (.invalidTransaction "Bitcoin recipient amount overflowed u64")
    (Word.checkedSum (r.recipients.map (·.value)))
  let (selected, finalOutputs) ←
    selectFrom lib r ⟨recipientScripts, changeScript, recipientTotal⟩ [] 0 (byValue r.available)
  let outputs ← okOr
    (.insufficientFunds s!"insufficient Bitcoin funds for {recipientTotal} satoshis plus network fee")
    finalOutputs
  return .fromSelected selected outputs

def build (lib : Library) (r : BuildRequest) : Except ChainError UnsignedTransaction := do
  let (recipientScripts, changeScript) ← r.validate lib
  if r.drainWallet then r.drain lib recipientScripts
  else r.select lib recipientScripts changeScript

end BuildRequest

/-! ## What validation accepts -/

/-- A request whose sources and recipients are in order, with the scripts it pays to. -/
structure BuildRequest.Valid (lib : Library) (r : BuildRequest) (recipientScripts : List Script)
    (changeScript : Script) : Prop where
  recipients : r.recipients ≠ []
  feeRate : r.feeRate.satoshisPerKvb ≠ 0
  distinct : (r.available.map (·.outpoint)).Nodup
  supported : ∀ utxo ∈ r.available, isP2wpkh utxo.scriptPubkey ∨ isP2tr utxo.scriptPubkey
  scripts : r.recipients.mapM (checkedOutput lib · r.drainWallet) = .ok recipientScripts
  change : lib.scriptPubkeyForNetwork r.changeAddress = .ok changeScript

variable {lib : Library} {r : BuildRequest} {recipientScripts : List Script} {changeScript : Script}

theorem validate_ok :
    r.validate lib = .ok (recipientScripts, changeScript) ↔
      r.available ≠ [] ∧ r.Valid lib recipientScripts changeScript := by
  simp only [BuildRequest.validate, bind_ok, ensure_ok, pure_ok, Prod.mk.injEq]
  constructor
  · rintro ⟨_, hne, _, hrecipients, _, hrate, _, hdistinct, _, hsupported, _, hscripts, _, hchange, rfl, rfl⟩
    exact ⟨hne, hrecipients, hrate, hdistinct, hsupported, hscripts, hchange⟩
  · rintro ⟨hne, hrecipients, hrate, hdistinct, hsupported, hscripts, hchange⟩
    exact ⟨(), hne, (), hrecipients, (), hrate, (), hdistinct, (), hsupported, _, hscripts, _, hchange, rfl, rfl⟩

theorem checkedOutput_ok {output : Output} {allowZero : Bool} {script : Script}
    (h : checkedOutput lib output allowZero = .ok script) :
    lib.scriptPubkeyForNetwork output.address = .ok script ∧
      (allowZero = false → lib.minimalNonDust script ≤ output.value) := by
  simp only [checkedOutput, bind_ok, ensure_ok, pure_ok] at h
  obtain ⟨_, hscript, _, hdust, rfl⟩ := h
  refine ⟨hscript, ?_⟩
  rintro rfl
  exact hdust.resolve_left (by simp)

theorem scripts_of_checked {outputs : List Output} {allowZero : Bool} {scripts : List Script}
    (h : outputs.mapM (checkedOutput lib · allowZero) = .ok scripts) :
    outputs.mapM (fun o => lib.scriptPubkeyForNetwork o.address) = .ok scripts :=
  mapM_ok.mpr ((mapM_ok.mp h).imp fun _ _ h => (checkedOutput_ok h).1)

/-! ## Sorted sources -/

theorem byOutpoint_perm (sources : List SpendSource) : (byOutpoint sources).Perm sources :=
  List.mergeSort_perm _ _

theorem byValue_perm (sources : List SpendSource) : (byValue sources).Perm sources :=
  List.mergeSort_perm _ _

instance : TransCmp SpendSource.compareValue := by
  unfold SpendSource.compareValue
  have : TransCmp fun a b : SpendSource => compare b.value a.value :=
    inferInstanceAs (TransCmp fun a b : SpendSource => compareOn (·.value) b a)
  infer_instance

theorem byValue_descending (sources : List SpendSource) :
    ((byValue sources).map (·.value)).Pairwise (· ≥ ·) := by
  have hsorted : (byValue sources).Pairwise fun a b => (a.compareValue b).isLE = true := by
    apply List.pairwise_mergeSort
    · intro a b c
      exact TransCmp.isLE_trans
    · intro a b
      have hswap : b.compareValue a = (a.compareValue b).swap := OrientedCmp.eq_swap
      rw [hswap]
      cases a.compareValue b <;> rfl
  rw [List.pairwise_map]
  refine hsorted.imp ?_
  intro a b h
  rw [SpendSource.compareValue, compareLex] at h
  have hvalue : (compare b.value a.value).isLE = true := by
    cases hc : compare b.value a.value with
    | lt | eq => rfl
    | gt =>
      rw [hc] at h
      cases h
  exact isLE_compare.mp hvalue

/-! ## A sample -/

def sampleScript (byte : UInt8) : Script := 0x00 :: 0x14 :: List.replicate 20 byte

def sampleAddress : Address := ⟨"bcrt1qqurswpc8qurswpc8qurswpc8qurswpc8dxm0gk"⟩

/-- Regtest, with one address. A witness output is dust below three satoshis for each byte that
it and its input take. -/
def sampleLibrary : Library where
  scriptPubkeyForNetwork address :=
    if address = sampleAddress then .ok (sampleScript 7)
    else .error ⟨.invalidAddress, "invalid Bitcoin address"⟩
  minimalNonDust script := .ofNat (3 * (67 + outputSize script))

def sampleSource (value : UInt64) : SpendSource :=
  ⟨⟨List.replicate 32 1, rfl⟩, 2, value, sampleScript 7, 109⟩

/-- Another output of the same transaction. -/
def sampleCoin (index : UInt32) (value : UInt64) : SpendSource := { sampleSource value with outputIndex := index }

end PaymentSdk.Bitcoin
