import PaymentSdk.Bitcoin.Block
import PaymentSdk.Lib.Checked
import PaymentSdk.Lib.Word

/-!
# The fee of a planned transaction

The fee is that of the transaction's virtual size once every input is signed. It is fixed by the
number of inputs, the weight that their signatures take, and the output scripts, and it grows
with each of them.
-/

open Checked

namespace PaymentSdk.Bitcoin

open Indexer (TransactionId)

/-! ## Errors -/

inductive ChainErrorKind where
  | invalidAddress
  | invalidTransaction
  | insufficientFunds
  | feeUnavailable
  | rpcUnavailable
  | signer
  | rejected
  | notFound
  | other
  deriving DecidableEq

structure ChainError where
  kind : ChainErrorKind
  message : String
  deriving DecidableEq

def ChainError.invalidTransaction (message : String) : ChainError := ⟨.invalidTransaction, message⟩

def ChainError.insufficientFunds (message : String) : ChainError := ⟨.insufficientFunds, message⟩

/-- A missing value is a given error. -/
def okOr {α : Type} (error : ChainError) : Option α → Except ChainError α
  | none => .error error
  | some value => .ok value

@[simp]
theorem okOr_ok {α : Type} {error : ChainError} {x : Option α} {a : α} :
    okOr error x = .ok a ↔ x = some a := by
  cases x <;> simp [okOr]

@[simp]
theorem okOr_error {α : Type} {error e : ChainError} {x : Option α} :
    okOr error x = .error e ↔ x = none ∧ e = error := by
  cases x <;> simp [okOr, eq_comm]

def ensure (condition : Prop) [Decidable condition] (error : ChainError) : Except ChainError Unit :=
  if condition then .ok () else .error error

@[simp]
theorem ensure_ok {condition : Prop} [Decidable condition] {error : ChainError} {u : Unit} :
    ensure condition error = .ok u ↔ condition := by
  by_cases h : condition <;> simp [ensure, h]

@[simp]
theorem ensure_error {condition : Prop} [Decidable condition] {error e : ChainError} :
    ensure condition error = .error e ↔ ¬ condition ∧ e = error := by
  by_cases h : condition <;> simp [ensure, h, eq_comm]

/-! ## Inputs and outputs -/

abbrev Script := List UInt8

/-- An address is its encoded text. -/
structure Address where
  encoded : String
  deriving DecidableEq

/-- Satoshis for a thousand virtual bytes. -/
structure FeeRate where
  satoshisPerKvb : UInt64
  deriving DecidableEq

/-- An output that may be spent, with the weight of its witness. -/
structure SpendSource where
  transactionId : TransactionId
  outputIndex : UInt32
  value : UInt64
  scriptPubkey : Script
  satisfactionWeight : UInt64
  deriving DecidableEq

def SpendSource.outpoint (s : SpendSource) : TransactionId × UInt32 := (s.transactionId, s.outputIndex)

structure Output where
  address : Address
  value : UInt64
  deriving DecidableEq

/-- The functions of the Bitcoin library that building calls, for one network. -/
structure Library where
  scriptPubkeyForNetwork : Address → Except ChainError Script
  minimalNonDust : Script → UInt64

/-- What some sources are worth. -/
def worth (sources : List SpendSource) : Nat := Word.total (sources.map (·.value))

/-- What some outputs pay. -/
def paid (outputs : List Output) : Nat := Word.total (outputs.map (·.value))

@[simp]
theorem worth_append (l m : List SpendSource) : worth (l ++ m) = worth l + worth m := by simp [worth]

@[simp]
theorem paid_append (l m : List Output) : paid (l ++ m) = paid l + paid m := by simp [paid]

theorem worth_perm {l m : List SpendSource} (h : l.Perm m) : worth l = worth m := Word.total_perm (h.map _)

/-! ## Weight -/

/-- The bytes of a count before its items. -/
def varIntSize (n : Nat) : Nat :=
  if n < 0xfd then 1 else if n ≤ 0xffff then 3 else if n ≤ 0xffffffff then 5 else 9

/-- An amount and a script after its length. -/
def outputSize (script : Script) : Nat := 8 + varIntSize script.length + script.length

/-- A version, the inputs, the outputs and a lock time. An input has its outpoint, the length of
an empty script and its sequence. -/
def baseSize (inputs : Nat) (scripts : List Script) : Nat :=
  4 + varIntSize inputs + 41 * inputs + varIntSize scripts.length + (scripts.map outputSize).sum + 4

/-- There are no witnesses yet; only a transaction without inputs is written with their marker. -/
def totalSize (inputs : Nat) (scripts : List Script) : Nat :=
  baseSize inputs scripts + if inputs = 0 then 2 else 0

/-- The weight of a transaction without its witnesses. -/
def weight (inputs : Nat) (scripts : List Script) : Nat :=
  baseSize inputs scripts * 3 + totalSize inputs scripts

/-! ## Fee -/

def FeeRate.forVsize (rate : FeeRate) (virtualSize : UInt64) : Except ChainError UInt64 := do
  let numerator := rate.satoshisPerKvb.toNat * virtualSize.toNat + 999
  ensure (numerator < 2 ^ 128) (.invalidTransaction "Bitcoin transaction fee overflowed u128")
  ensure (numerator / 1000 < 2 ^ 64) (.invalidTransaction "Bitcoin transaction fee overflowed u64")
  return .ofNat (numerator / 1000)

def segwitMarkerFlagWeight : Nat := 2

/-- The fee for the size the transaction will have once it is signed. -/
def predictedFee (inputs : List SpendSource) (outputScripts : List Script) (rate : FeeRate) :
    Except ChainError UInt64 := do
  let satisfactionWeight ← okOr (.invalidTransaction "Bitcoin satisfaction weight overflowed u64")
    (Word.checkedSum (inputs.map (·.satisfactionWeight)))
  let signed := weight inputs.length outputScripts + segwitMarkerFlagWeight + satisfactionWeight.toNat
  ensure (signed < 2 ^ 64) (.invalidTransaction "Bitcoin transaction weight overflowed u64")
  rate.forVsize (.ofNat ((signed + 3) / 4))

/-! ## Exact fees -/

/-- The weight of the signed transaction. -/
def signedWeight (inputs : List SpendSource) (scripts : List Script) : Nat :=
  weight inputs.length scripts + segwitMarkerFlagWeight + Word.total (inputs.map (·.satisfactionWeight))

/-- The fee in the natural numbers. -/
def exactFee (inputs : List SpendSource) (scripts : List Script) (rate : FeeRate) : Nat :=
  (rate.satoshisPerKvb.toNat * ((signedWeight inputs scripts + 3) / 4) + 999) / 1000

/-- What keeps the fee from overflowing. -/
def FeeFits (inputs : List SpendSource) (scripts : List Script) (rate : FeeRate) : Prop :=
  signedWeight inputs scripts < 2 ^ 64 ∧ exactFee inputs scripts rate < 2 ^ 64

variable {inputs inputs' : List SpendSource} {scripts scripts' : List Script} {rate : FeeRate} {fee : UInt64}

theorem forVsize_ok {virtualSize : UInt64} :
    rate.forVsize virtualSize = .ok fee ↔
      fee.toNat = (rate.satoshisPerKvb.toNat * virtualSize.toNat + 999) / 1000 := by
  have hfee := fee.toNat_lt
  -- Two words and the rounding fit in 128 bits.
  have hproduct : rate.satoshisPerKvb.toNat * virtualSize.toNat ≤ (2 ^ 64 - 1) * (2 ^ 64 - 1) :=
    Nat.mul_le_mul (Nat.le_pred_of_lt rate.satoshisPerKvb.toNat_lt) (Nat.le_pred_of_lt virtualSize.toNat_lt)
  simp only [FeeRate.forVsize, bind_ok, ensure_ok, pure_ok]
  constructor
  · rintro ⟨_, _, _, hlt, rfl⟩
    exact Word.toNat_ofNat hlt
  · intro h
    refine ⟨(), by omega, (), by omega, ?_⟩
    rw [← UInt64.toNat_inj, Word.toNat_ofNat (by omega), h]

/-- **The fee is exact**, and there is one when it fits. -/
theorem predictedFee_ok :
    predictedFee inputs scripts rate = .ok fee ↔
      signedWeight inputs scripts < 2 ^ 64 ∧ fee.toNat = exactFee inputs scripts rate := by
  simp only [predictedFee, bind_ok, okOr_ok, ensure_ok, Word.checkedSum_some, forVsize_ok, exactFee]
  constructor
  · rintro ⟨satisfaction, hsum, _, hlt, hfee⟩
    rw [hsum] at hlt hfee
    rw [Word.toNat_ofNat (by omega)] at hfee
    exact ⟨hlt, hfee⟩
  · rintro ⟨hlt, hfee⟩
    obtain ⟨satisfaction, hsum⟩ := Word.exists_toNat
      (show Word.total (inputs.map (·.satisfactionWeight)) < 2 ^ 64 by rw [signedWeight] at hlt; omega)
    refine ⟨satisfaction, hsum, (), ?_, ?_⟩
    · rw [hsum]
      exact hlt
    · rw [hsum, Word.toNat_ofNat (by rw [signedWeight] at hlt; omega)]
      exact hfee

theorem exists_predictedFee (h : FeeFits inputs scripts rate) :
    ∃ fee, predictedFee inputs scripts rate = .ok fee ∧ fee.toNat = exactFee inputs scripts rate := by
  obtain ⟨fee, hfee⟩ := Word.exists_toNat h.2
  exact ⟨fee, predictedFee_ok.mpr ⟨h.1, hfee⟩, hfee⟩

theorem feeFits_of_ok (h : predictedFee inputs scripts rate = .ok fee) : FeeFits inputs scripts rate := by
  obtain ⟨hweight, hfee⟩ := predictedFee_ok.mp h
  exact ⟨hweight, hfee ▸ fee.toNat_lt⟩

theorem predictedFee_error {e : ChainError} (h : predictedFee inputs scripts rate = .error e) :
    e.kind = .invalidTransaction := by
  simp only [predictedFee, FeeRate.forVsize, bind_error, okOr_error, ensure_error, pure, Except.pure] at h
  rcases h with ⟨_, rfl⟩ | ⟨_, _, ⟨_, rfl⟩ | ⟨_, _, ⟨_, rfl⟩ | ⟨_, _, ⟨_, rfl⟩ | ⟨_, _, ⟨⟩⟩⟩⟩⟩ <;> rfl

/-! ## The fee grows -/

theorem varIntSize_mono {m n : Nat} (h : m ≤ n) : varIntSize m ≤ varIntSize n := by
  unfold varIntSize
  split_ifs <;> omega

theorem baseSize_mono {m n : Nat} (hinputs : m ≤ n) (hscripts : scripts.Sublist scripts') :
    baseSize m scripts ≤ baseSize n scripts' := by
  have hcount := varIntSize_mono hinputs
  have hlength := varIntSize_mono hscripts.length_le
  have hsum : (scripts.map outputSize).sum ≤ (scripts'.map outputSize).sum :=
    (hscripts.map _).sum_le_sum (by simp)
  unfold baseSize
  omega

theorem signedWeight_mono (hne : inputs ≠ []) (hlength : inputs.length ≤ inputs'.length)
    (hsatisfaction : Word.total (inputs.map (·.satisfactionWeight)) ≤ Word.total (inputs'.map (·.satisfactionWeight)))
    (hscripts : scripts.Sublist scripts') : signedWeight inputs scripts ≤ signedWeight inputs' scripts' := by
  have hbase := baseSize_mono hlength hscripts
  have hpos : inputs.length ≠ 0 := by simpa using hne
  have hpos' : inputs'.length ≠ 0 := by omega
  unfold signedWeight weight totalSize
  rw [if_neg hpos, if_neg hpos']
  omega

theorem exactFee_mono (h : signedWeight inputs scripts ≤ signedWeight inputs' scripts') :
    exactFee inputs scripts rate ≤ exactFee inputs' scripts' rate := by
  unfold exactFee
  gcongr

theorem FeeFits.mono (hfits : FeeFits inputs' scripts' rate)
    (h : signedWeight inputs scripts ≤ signedWeight inputs' scripts') : FeeFits inputs scripts rate :=
  ⟨Nat.lt_of_le_of_lt h hfits.1, Nat.lt_of_le_of_lt (exactFee_mono h) hfits.2⟩

theorem signedWeight_scripts (hne : inputs ≠ []) (hscripts : scripts.Sublist scripts') :
    signedWeight inputs scripts ≤ signedWeight inputs scripts' :=
  signedWeight_mono hne (Nat.le_refl _) (Nat.le_refl _) hscripts

theorem signedWeight_perm (h : inputs.Perm inputs') : signedWeight inputs scripts = signedWeight inputs' scripts := by
  rw [signedWeight, signedWeight, h.length_eq, Word.total_perm (h.map _)]

theorem predictedFee_perm (h : inputs.Perm inputs') :
    predictedFee inputs scripts rate = .ok fee ↔ predictedFee inputs' scripts rate = .ok fee := by
  rw [predictedFee_ok, predictedFee_ok, exactFee, exactFee, signedWeight_perm h]

end PaymentSdk.Bitcoin
