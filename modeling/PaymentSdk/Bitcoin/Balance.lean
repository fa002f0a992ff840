import Mathlib.Algebra.Ring.Int.Defs
import PaymentSdk.Bitcoin.Enrichment
import PaymentSdk.Lib.Framing

/-!
# What a Bitcoin transaction balances

The fee of a transaction is what its inputs have above its outputs, and it is paid by an address
when every input is of that address. A coinbase transaction has no inputs and no fee.
-/

open Checked

namespace PaymentSdk.Bitcoin.Indexer

variable {ctx : Context} {t : Transaction}

/-! ## Payers -/

/-- What is known of the payer after some inputs. -/
def PaidBy (previous : List PreviousOutput) (payer : Option Address) (ambiguous : Bool) : Prop :=
  if ambiguous then ¬ ∃ a, ∀ p ∈ previous, p.address = some a
  else match payer with
    | none => previous = []
    | some a => previous ≠ [] ∧ ∀ p ∈ previous, p.address = some a

theorem paidBy_step {previous : List PreviousOutput} {p : PreviousOutput} {facts : TransactionFacts}
    (h : PaidBy previous facts.payer facts.ambiguousPayer) :
    PaidBy (previous ++ [p]) (recordPayer facts p.address).payer (recordPayer facts p.address).ambiguousPayer := by
  unfold recordPayer
  cases hambiguous : facts.ambiguousPayer with
  | true =>
    have hnone : ¬ ∃ a, ∀ q ∈ previous ++ [p], q.address = some a := by
      rw [hambiguous] at h
      rintro ⟨a, ha⟩
      exact h ⟨a, fun q hq => ha q (List.mem_append_left _ hq)⟩
    cases facts.payer <;> cases p.address <;> simp only [if_true] <;> (try split) <;> simpa [PaidBy, hambiguous] using hnone
  | false =>
    rw [hambiguous] at h
    cases hpayer : facts.payer with
    | none =>
      rw [hpayer] at h
      obtain rfl : previous = [] := h
      cases haddress : p.address <;> simp [PaidBy, haddress]
    | some current =>
      rw [hpayer] at h
      obtain ⟨hne, hall⟩ : previous ≠ [] ∧ ∀ q ∈ previous, q.address = some current := h
      obtain ⟨q, hq⟩ := List.exists_mem_of_ne_nil _ hne
      cases haddress : p.address with
      | none =>
        simp only [PaidBy, if_true]
        rintro ⟨a, ha⟩
        have hp := ha p (by simp)
        rw [haddress] at hp
        cases hp
      | some a =>
        simp only
        split_ifs with hsame
        · subst hsame
          simp only [PaidBy, hambiguous, hpayer, Bool.false_eq_true, if_false]
          refine ⟨by simp, ?_⟩
          rw [List.forall_mem_append]
          exact ⟨hall, by simpa using haddress⟩
        · simp only [PaidBy, if_true]
          rintro ⟨b, hb⟩
          have hfirst := hb q (List.mem_append_left _ hq)
          have hlast := hb p (by simp)
          rw [hall q hq] at hfirst
          rw [haddress] at hlast
          exact hsame (Option.some.inj (hfirst.trans hlast.symm))

theorem paidBy_reported {previous : List PreviousOutput} {payer : Option Address} {ambiguous : Bool}
    (h : PaidBy previous payer ambiguous) (a : Address) :
    (if ambiguous then none else payer) = some a ↔ previous ≠ [] ∧ ∀ p ∈ previous, p.address = some a := by
  cases ambiguous with
  | true =>
    simp only [if_true]
    exact ⟨nofun, fun hall => absurd ⟨a, hall.2⟩ h⟩
  | false =>
    cases payer with
    | none =>
      obtain rfl : previous = [] := h
      simp
    | some current =>
      obtain ⟨hne, hall⟩ : previous ≠ [] ∧ ∀ p ∈ previous, p.address = some current := h
      simp only [Bool.false_eq_true, if_false, Option.some.injEq]
      constructor
      · rintro rfl
        exact ⟨hne, hall⟩
      · rintro ⟨-, ha⟩
        obtain ⟨p, hp⟩ := List.exists_mem_of_ne_nil _ hne
        exact Option.some.inj ((hall p hp).symm.trans (ha p hp))

/-! ## Totals -/

theorem recordPayer_totals (facts : TransactionFacts) (address : Option Address) :
    (recordPayer facts address).inputTotal = facts.inputTotal ∧
      (recordPayer facts address).outputTotal = facts.outputTotal := by
  obtain ⟨payer, ambiguous, heq⟩ := recordPayer_eq facts address
  rw [heq]
  exact ⟨rfl, rfl⟩

theorem recordSpend_totals {facts out : TransactionFacts} {previous : PreviousOutput}
    (h : recordSpend ctx facts previous = .ok out) :
    out.inputTotal = facts.inputTotal ∧ out.outputTotal = facts.outputTotal ∧ out.payer = facts.payer ∧
      out.ambiguousPayer = facts.ambiguousPayer := by
  unfold recordSpend at h
  split at h
  · cases h
    exact ⟨rfl, rfl, rfl, rfl⟩
  · simp only at h
    split at h
    · cases h
      exact ⟨rfl, rfl, rfl, rfl⟩
    · split at h
      · cases h
      · split at h
        all_goals
          cases h
          exact ⟨rfl, rfl, rfl, rfl⟩

/-- What the inputs so far come to. -/
structure InputsTotal (t : Transaction) (inputs : List (Input × Nat)) (s : Spending) : Prop where
  inputTotal : s.1.inputTotal = ((inputs.filterMap (·.1.previousOutput)).map (·.value.toNat)).sum
  outputTotal : s.1.outputTotal = 0
  payer : PaidBy (inputs.filterMap (·.1.previousOutput)) s.1.payer s.1.ambiguousPayer
  resolved : t.coinbase = false → ∀ x ∈ inputs, x.1.previousOutput.isSome = true

theorem factInput_totals {front : List (Input × Nat)} {x : Input × Nat} {s out : Spending}
    (hfront : InputsTotal t front s) (h : factInput ctx t s x.1 x.2 = .ok out) : InputsTotal t (front ++ [x]) out := by
  unfold factInput at h
  cases hprevious : x.1.previousOutput with
  | none =>
    rw [hprevious] at h
    cases hcoinbase : t.coinbase <;> rw [hcoinbase] at h <;> cases h
    constructor
    · simpa [hprevious] using hfront.inputTotal
    · exact hfront.outputTotal
    · simpa [hprevious] using hfront.payer
    · exact fun hfalse => absurd hcoinbase (by simp [hfalse])
  | some previous =>
    rw [hprevious] at h
    cases hcoinbase : t.coinbase <;> rw [hcoinbase] at h
    · simp only [factPreviousOutput] at h
      split_ifs at h with hspent htotal
      obtain ⟨facts, hfacts, h⟩ := bind_ok.mp h
      cases h
      obtain ⟨hinput, houtput, hpayer, hambiguous⟩ := recordSpend_totals hfacts
      have hlist : (front ++ [x]).filterMap (·.1.previousOutput) = front.filterMap (·.1.previousOutput) ++ [previous] := by
        simp [hprevious]
      constructor
      · rw [hinput, (recordPayer_totals _ _).1, hlist, List.map_append, List.sum_append, hfront.inputTotal]
        simp
      · rw [houtput, (recordPayer_totals _ _).2]
        exact hfront.outputTotal
      · rw [hpayer, hambiguous, hlist]
        exact paidBy_step hfront.payer
      · intro hfalse
        rw [List.forall_mem_append]
        exact ⟨hfront.resolved hfalse, by simp [hprevious]⟩
    · cases h

theorem factInputs_totals {inputs : List (Input × Nat)} {before : List Outpoint} {out : Spending}
    (h : inputs.foldlM (fun s x => factInput ctx t s x.1 x.2) (({} : TransactionFacts), before) = .ok out) :
    InputsTotal t inputs out := by
  refine foldlM_keeps ?_ ?_ h
  · exact ⟨rfl, rfl, rfl, by simp⟩
  · intro front x rest middle after _ hfront hstep
    exact factInput_totals hfront hstep

theorem factOutput_totals {facts out : TransactionFacts} {output : Output} {index : Nat}
    (h : factOutput ctx t facts output index = .ok out) :
    out.outputTotal = facts.outputTotal + output.value.toNat ∧ out.inputTotal = facts.inputTotal ∧
      out.payer = facts.payer ∧ out.ambiguousPayer = facts.ambiguousPayer := by
  unfold factOutput at h
  split at h
  · cases h
  simp only at h
  split at h
  · cases h
    exact ⟨rfl, rfl, rfl, rfl⟩
  · split at h
    · cases h
      exact ⟨rfl, rfl, rfl, rfl⟩
    · split at h
      all_goals
        cases h
      exact ⟨rfl, rfl, rfl, rfl⟩

theorem factOutputs_totals {outputs : List (Output × Nat)} {facts out : TransactionFacts}
    (h : outputs.foldlM (fun facts x => factOutput ctx t facts x.1 x.2) facts = .ok out) :
    out.outputTotal = facts.outputTotal + (outputs.map (·.1.value.toNat)).sum ∧ out.inputTotal = facts.inputTotal ∧
      out.payer = facts.payer ∧ out.ambiguousPayer = facts.ambiguousPayer := by
  induction outputs generalizing facts with
  | nil =>
    cases h
    simp
  | cons x outputs ih =>
    rw [List.foldlM_cons] at h
    obtain ⟨middle, hmiddle, h⟩ := bind_ok.mp h
    obtain ⟨htotal, hinput, hpayer, hambiguous⟩ := factOutput_totals hmiddle
    obtain ⟨htotal', hinput', hpayer', hambiguous'⟩ := ih h
    rw [htotal', hinput', hpayer', hambiguous', htotal, hinput, hpayer, hambiguous, List.map_cons, List.sum_cons,
      Nat.add_assoc]
    exact ⟨rfl, rfl, rfl, rfl⟩

/-! ## Balances -/

/-- What the Input movements come to, in satoshis. -/
def inputSum (ms : List ValueMovement) : Int :=
  (ms.map fun m => match m with
    | .input _ _ amount _ => amount.coefficient
    | _ => 0).sum

/-- What the outputs' movements add up to. -/
def outputSum (ms : List ValueMovement) : Int :=
  (ms.map fun m => match m with
    | .output _ _ amount _ => amount.coefficient
    | _ => 0).sum

theorem normalize_coefficient (n : Nat) (h : 0 < 2 ^ 32) : (Decimal.normalize n 0 h).coefficient = n := by
  unfold Decimal.normalize
  split
  · rename_i hzero
    exact hzero.symm
  · rfl

theorem satoshis_coefficient (value : UInt64) : (satoshis value).coefficient = value.toNat :=
  normalize_coefficient _ _

theorem inputSum_inputs (inputs : List (Input × Nat)) :
    inputSum (inputs.filterMap fun x => x.1.previousOutput.map (ctx.inputMovement t x.2)) =
      (((inputs.filterMap (·.1.previousOutput)).map (·.value.toNat)).sum : Nat) := by
  induction inputs with
  | nil => rfl
  | cons x inputs ih =>
    rw [List.filterMap_cons, List.filterMap_cons]
    cases hprevious : x.1.previousOutput with
    | none => exact ih
    | some previous =>
      simp only [Option.map_some, List.map_cons, List.sum_cons, Int.natCast_add, ← ih, ← satoshis_coefficient]
      rfl

theorem outputSum_outputs (outputs : List (Output × Nat)) :
    outputSum (outputs.map fun x => ctx.outputMovement t x.2 x.1) = ((outputs.map (·.1.value.toNat)).sum : Nat) := by
  induction outputs with
  | nil => rfl
  | cons x outputs ih =>
    rw [List.map_cons, List.map_cons, List.sum_cons, Int.natCast_add, ← ih, ← satoshis_coefficient]
    rfl

theorem inputSum_outputs (outputs : List (Output × Nat)) :
    inputSum (outputs.map fun x => ctx.outputMovement t x.2 x.1) = 0 := by
  induction outputs with
  | nil => rfl
  | cons x outputs ih => exact (zero_add _).trans ih

theorem outputSum_inputs (inputs : List (Input × Nat)) :
    outputSum (inputs.filterMap fun x => x.1.previousOutput.map (ctx.inputMovement t x.2)) = 0 := by
  induction inputs with
  | nil => rfl
  | cons x inputs ih =>
    rw [List.filterMap_cons]
    cases x.1.previousOutput with
    | none => exact ih
    | some previous => exact (zero_add _).trans ih

theorem inputSum_append (ms ms' : List ValueMovement) : inputSum (ms ++ ms') = inputSum ms + inputSum ms' := by
  rw [inputSum, List.map_append, List.sum_append]
  rfl

theorem outputSum_append (ms ms' : List ValueMovement) : outputSum (ms ++ ms') = outputSum ms + outputSum ms' := by
  rw [outputSum, List.map_append, List.sum_append]
  rfl

/-- The fee is what the inputs have above the outputs, and an address pays it when all inputs are of
that address. -/
structure Balanced (ctx : Context) (t : Transaction) (interpreted : InterpretedTransaction) (fee : NetworkFee) :
    Prop where
  fee_eq : interpreted.fee = some fee
  sum_eq : inputSum interpreted.facts.movements = outputSum interpreted.facts.movements + fee.amount.coefficient
  payer_iff : ∀ c, fee.payer = some c ↔ ∃ a : Address, c = a.canonical ctx.scope ∧ t.inputs ≠ [] ∧
    ∀ i ∈ t.inputs, ∃ p, i.previousOutput = some p ∧ p.address = some a

theorem interpret_balanced {before : List Outpoint} {out : InterpretedTransaction × List Outpoint}
    (h : interpret ctx t before = .ok out) (hcoinbase : t.coinbase = false) : ∃ fee, Balanced ctx t out.1 fee := by
  have hmovements := (interpret_ok h).movements
  obtain ⟨⟨middle, after⟩, hinputs, h⟩ := bind_ok.mp h
  obtain ⟨facts, houtputs, h⟩ := bind_ok.mp h
  obtain ⟨fee, hfee, h⟩ := bind_ok.mp h
  cases h
  simp only at hmovements
  have hin := factInputs_totals hinputs
  obtain ⟨houtput, hinput, hpayer, hambiguous⟩ := factOutputs_totals houtputs
  unfold finishFee at hfee
  rw [if_neg (by simp [hcoinbase])] at hfee
  split at hfee
  · cases hfee
  rename_i hcovered
  cases hfee
  have hprevious : t.inputs.zipIdx.filterMap (·.1.previousOutput) = t.previous := filterMap_fst_zipIdx _ _
  refine ⟨_, rfl, ?_, ?_⟩
  · simp only [hmovements, Context.movements, inputSum_append, outputSum_append, inputSum_inputs, inputSum_outputs,
      outputSum_inputs, outputSum_outputs, normalize_coefficient]
    have hi : facts.inputTotal = ((t.inputs.zipIdx.filterMap (·.1.previousOutput)).map (·.value.toNat)).sum :=
      hinput.trans hin.inputTotal
    have ho : facts.outputTotal = (t.outputs.zipIdx.map (·.1.value.toNat)).sum := by
      rw [houtput, hin.outputTotal, Nat.zero_add]
    omega
  · intro c
    have hresolved : ∀ i ∈ t.inputs, ∃ p, i.previousOutput = some p := by
      intro i hi
      obtain ⟨n, hn, rfl⟩ := List.mem_iff_getElem.mp hi
      have hmem : (t.inputs[n], n) ∈ t.inputs.zipIdx :=
        List.mem_zipIdx_iff_getElem?.mpr (List.getElem?_eq_getElem hn)
      exact Option.isSome_iff_exists.mp (hin.resolved hcoinbase _ hmem)
    have hiff : ∀ a : Address, (t.previous ≠ [] ∧ ∀ p ∈ t.previous, p.address = some a) ↔
        t.inputs ≠ [] ∧ ∀ i ∈ t.inputs, ∃ p, i.previousOutput = some p ∧ p.address = some a := by
      intro a
      have hmem : ∀ p, p ∈ t.previous ↔ ∃ i ∈ t.inputs, i.previousOutput = some p := fun p => List.mem_filterMap
      refine and_congr ?_ ?_
      · constructor
        · intro hne
          obtain ⟨p, hp⟩ := List.exists_mem_of_ne_nil _ hne
          obtain ⟨i, hi, -⟩ := (hmem p).mp hp
          exact List.ne_nil_of_mem hi
        · intro hne
          obtain ⟨i, hi⟩ := List.exists_mem_of_ne_nil _ hne
          obtain ⟨p, hp⟩ := hresolved i hi
          exact List.ne_nil_of_mem ((hmem p).mpr ⟨i, hi, hp⟩)
      · constructor
        · intro hall i hi
          obtain ⟨p, hp⟩ := hresolved i hi
          exact ⟨p, hp, hall p ((hmem p).mpr ⟨i, hi, hp⟩)⟩
        · intro hall p hp
          obtain ⟨i, hi, hip⟩ := (hmem p).mp hp
          obtain ⟨q, hq, haddress⟩ := hall i hi
          rw [Option.some.inj (hip.symm.trans hq)]
          exact haddress
    simp only [Option.map_eq_some_iff, hpayer, hambiguous, ← hiff]
    constructor
    · rintro ⟨a, ha, rfl⟩
      exact ⟨a, rfl, (paidBy_reported (hprevious ▸ hin.payer) a).mp ha⟩
    · rintro ⟨a, rfl, ha⟩
      exact ⟨a, (paidBy_reported (hprevious ▸ hin.payer) a).mpr ha, rfl⟩

/-! ## Enrichment and balance -/

/-- A block whose inputs carry what the consensus bytes of the raw block spend. -/
def ExactBlock (lib : Library) (raw : Json) (block : Block) : Prop :=
  ∃ object values natives, raw.asObject = some object ∧ (object.get "tx").bind Json.asArray = some values ∧
    values.map (nativeOf lib) = natives.map some ∧ List.Forall₂ (TransactionExact lib) natives block.transactions

/-- **Enrichment is exact in every order.** What is written does not depend on the order of the
answers, is never missing, and stays within the bounds for any block of the allowed weight. Every
transaction but a coinbase then balances. -/
theorem enrichment_exact {lib : Library} (hfree : CollisionFree lib) :
    (∀ node order raw out, Permutes order → enrichIn lib node order raw = .ok out →
      (∀ expectedHeight expectedHash block, Block.parse lib out expectedHeight expectedHash = .ok block →
        ExactBlock lib raw block) ∧
      (∀ node' order' out', Permutes order' → enrichIn lib node' order' raw = .ok out' → out' = out) ∧
      ∀ order', Permutes order' → enrichIn lib node order' raw = .ok out) ∧
    (∀ node order values natives required resolved, Permutes order → decodeAll lib [] values = .ok natives →
      requiredPrevouts (natives.map (·.txid)) [] [] natives = .ok required →
      resolveIn lib node required (order (required.map (·.transactionId)).dedup) = .ok resolved →
      ∃ enriched, enrichAll resolved [] (natives.zip values) = .ok enriched) ∧
    (∀ weight : NativeTransaction → Nat, (∀ t, inputWeight * t.input.length ≤ weight t) →
      ∀ natives, (natives.map weight).sum ≤ maxBlockWeight → ∀ ids,
        requiredPrevouts ids [] [] natives ≠ .error boundError ∧
        ∀ required, requiredPrevouts ids [] [] natives = .ok required →
          required.length * maxCompactPrevoutJsonBytes ≤ maxCompactPrevoutTotalBytes) ∧
    ∀ ctx t before out, interpret ctx t before = .ok out → t.coinbase = false → ∃ fee, Balanced ctx t out.1 fee := by
  refine ⟨?_, ?_, ?_, fun _ _ _ _ h hcoinbase => interpret_balanced h hcoinbase⟩
  · intro node order raw out horder h
    exact ⟨fun _ _ _ hparse => delivered_exact horder h hparse,
      fun _ _ _ horder' h' => enrichIn_unique hfree horder horder' h h',
      fun _ horder' => enrichIn_reorder hfree horder horder' h⟩
  · intro node order values natives required resolved horder hdecoded hplanned hresolved
    obtain ⟨hsome, hresolves⟩ := resolveIn_ok (horder.mem required) hresolved
    exact enrichAll_total (decodeAll_shaped hdecoded) (requiredPrevouts_covers hplanned).2 hsome
      fun o r hr => (hresolves o r hr).2
  · intro weight hweight natives hsum ids
    have hinputs := inputs_of_weight hweight natives
    have hbound : ([] : List Outpoint).length + (natives.map (·.input.length)).sum ≤ maxExternalPrevoutsPerBlock := by
      simp only [inputWeight, maxBlockWeight, maxExternalPrevoutsPerBlock, List.length_nil] at hinputs hsum ⊢
      omega
    obtain ⟨hne, hlength⟩ := @requiredPrevouts_bound ids [] [] natives hbound
    refine ⟨hne, fun required hrequired => Nat.mul_le_mul_right _ ?_⟩
    exact (hlength required hrequired).trans hbound

/-! ## One block -/

def sampleScript (byte : UInt8) : List UInt8 := 0x00 :: 0x14 :: List.replicate 20 byte

def sampleSelected : Address := ⟨.lit "bcrt1qqurswpc8qurswpc8qurswpc8qurswpc8dxm0gk" (Eq.refl true)⟩

def hexOf (bytes : List UInt8) : String := String.ofList (Hex.encode bytes)

/-- One byte from two digits. -/
def decodePair (high low : Char) : Option UInt8 := do
  let high ← Hex.nibble high.toUInt8
  let low ← Hex.nibble low.toUInt8
  return UInt8.ofNat (high * 16 + low)

/-- Two digits a byte, of either case. -/
def decodeChars : List Char → Option (List UInt8)
  | [] => some []
  | high :: low :: rest => do
    let byte ← if high.toNat < 128 ∧ low.toNat < 128 then decodePair high low else none
    let bytes ← decodeChars rest
    return byte :: bytes
  | [_] => none

theorem decodeChars_encode (bytes : List UInt8) : decodeChars (Hex.encode bytes) = some bytes := by
  induction bytes with
  | nil => rfl
  | cons byte bytes ih =>
    have hpair : ∀ m n : Fin 16, ((Hex.digit m).toNat < 128 ∧ (Hex.digit n).toNat < 128) ∧
        decodePair (Hex.digit m) (Hex.digit n) = some (UInt8.ofNat (m.val * 16 + n.val)) := by decide
    have hlt := byte.toNat_lt
    obtain ⟨hascii, hbyte⟩ := hpair ⟨byte.toNat / 16, by omega⟩ ⟨byte.toNat % 16, by omega⟩
    have hcons : Hex.encode (byte :: bytes) = Hex.digit (byte.toNat / 16) :: Hex.digit (byte.toNat % 16) ::
        Hex.encode bytes := rfl
    rw [hcons, decodeChars, if_pos hascii, hbyte, ih, Nat.div_add_mod' byte.toNat 16]
    simp

def sampleId (n : Nat) : TransactionId := ⟨(Framing.bigEndian 32 n).reverse, by simp⟩

def sampleCoinbaseRaw : List UInt8 := Framing.bigEndian 84
  0x02000000010000000000000000000000000000000000000000000000000000000000000000ffffffff020105ffffffff0100f2052a01000000160014070707070707070707070707070707070707070700000000

def sampleFirstRaw : List UInt8 := Framing.bigEndian 82
  0x020000000101010101010101010101010101010101010101010101010101010101010101010000000000ffffffff017011010000000000160014070707070707070707070707070707070707070700000000

def sampleSecondRaw : List UInt8 := Framing.bigEndian 82
  0x020000000102020202020202020202020202020202020202020202020202020202020202020000000000ffffffff013075000000000000160014070707070707070707070707070707070707070700000000

def sampleJointRaw : List UInt8 := Framing.bigEndian 123
  0x02000000021c310f4e6e72bc7f6cbf65f81163ce9e631abddd53f759e52ca0ff9bbd56ec430000000000ffffffff133e3cb1dd5518b2809be40788922c46387f0c4b9630fed84a5bcb558d7585f90000000000ffffffff011873010000000000160014070707070707070707070707070707070707070700000000

def sampleOnwardRaw : List UInt8 := Framing.bigEndian 82
  0x02000000018f5e56608b3957ecfc2de2f845fd7d1361194f5dbbf40dce664834184f2a6d160000000000ffffffff01905f010000000000160014070707070707070707070707070707070707070700000000

/-- A payment to the selected address. -/
def samplePaying (id : Nat) (input : List Outpoint) (value : UInt64) : NativeTransaction where
  txid := sampleId id
  input := input
  output := [⟨value, sampleScript 7⟩]

def sampleCoinbase : NativeTransaction :=
  samplePaying 0x0eb72acee87b078fd612a3d814f5c918d461ec031e0efc11e0b9c68cb355313c
    [⟨⟨List.replicate 32 0, rfl⟩, 0xffffffff⟩] 5000000000

/-- Two transactions of earlier blocks. -/
def sampleFirst : NativeTransaction :=
  samplePaying 0x43ec56bd9bffa02ce559f753ddbd1a639ece6311f865bf6c7fbc726e4e0f311c
    [⟨sampleId 0x0101010101010101010101010101010101010101010101010101010101010101, 0⟩] 70000

def sampleSecond : NativeTransaction :=
  samplePaying 0xf985758d55cb5b4ad8fe30964b0c7f38462c928807e49b80b21855ddb13c3e13
    [⟨sampleId 0x0202020202020202020202020202020202020202020202020202020202020202, 0⟩] 30000

/-- One that spends both, and one that spends it in the same block. -/
def sampleJoint : NativeTransaction :=
  samplePaying 0x166d2a4f18344866ce0df4bb5d4f1961137dfd45f8e22dfcec57398b60565e8f
    [⟨sampleFirst.txid, 0⟩, ⟨sampleSecond.txid, 0⟩] 95000

def sampleOnward : NativeTransaction :=
  samplePaying 0x62551a0fea484ebd4c8bfc4640aad9d5de4068b49f8bdfef1de21c6ef6ad731c
    [⟨sampleJoint.txid, 0⟩] 90000

def sampleKnown : List (List UInt8 × NativeTransaction) :=
  [(sampleCoinbaseRaw, sampleCoinbase), (sampleFirstRaw, sampleFirst), (sampleSecondRaw, sampleSecond),
    (sampleJointRaw, sampleJoint), (sampleOnwardRaw, sampleOnward)]

def sampleLibrary : Library where
  parseId text := (decodeChars text.toList).bind fun bytes =>
    if h : bytes.reverse.length = 32 then some ⟨bytes.reverse, h⟩ else none
  parseBlockHash text := (decodeChars text.toList).bind fun bytes =>
    if bytes.length = 32 then some bytes.reverse else none
  fromHex text := decodeChars text.toList
  deserialize raw := sampleKnown.lookup raw
  fromScript script := if script = sampleScript 7 then some sampleSelected else none
  parseAddress text := if text = sampleSelected.encoded.str then some sampleSelected else none
  scriptPubkey a := if a = sampleSelected then some (sampleScript 7) else none

theorem sample_parseId (id : TransactionId) : sampleLibrary.parseId id.text.str = some id := by
  simp only [sampleLibrary, TransactionId.text, Text.ofString, String.toList_ofList, decodeChars_encode, Option.bind_some,
    List.reverse_reverse]
  rw [dif_pos id.size]

theorem sample_fromHex (bytes : List UInt8) : sampleLibrary.fromHex (hexOf bytes) = some bytes := by
  simp only [sampleLibrary, hexOf, String.toList_ofList, decodeChars_encode]

theorem sample_parseBlockHash {bytes : List UInt8} (h : bytes.length = 32) :
    sampleLibrary.parseBlockHash (hexOf bytes) = some bytes.reverse := by
  simp only [sampleLibrary, hexOf, String.toList_ofList, decodeChars_encode, Option.bind_some, h, if_true]

set_option maxRecDepth 2000 in
theorem sample_known : ∀ entry ∈ sampleKnown, entry.1.length ≠ 0 ∧ sampleKnown.lookup entry.1 = some entry.2 := by
  have hraws : (sampleKnown.map (·.1)).Nodup := by decide
  intro entry hmem
  constructor
  · simp only [sampleKnown, List.mem_cons, List.not_mem_nil, or_false] at hmem
    rcases hmem with rfl | rfl | rfl | rfl | rfl
    all_goals
      exact ne_of_eq_of_ne (Framing.bigEndian_length _ _) (by decide)
  · obtain ⟨front, back, hsplit⟩ := List.append_of_mem hmem
    refine List.lookup_eq_some_iff.mpr ⟨front, back, hsplit, ?_⟩
    rw [hsplit, List.map_append, List.map_cons, List.nodup_middle, List.nodup_cons] at hraws
    intro other hother
    rw [bne_iff_ne]
    rintro heq
    exact hraws.1 (List.mem_append_left _ (heq ▸ List.mem_map_of_mem hother))

theorem sample_collisionFree : CollisionFree sampleLibrary := by
  intro raw raw' t t' h h' hid
  have hids : (sampleKnown.map fun entry => entry.2.txid).Nodup := by decide
  exact congrArg Prod.snd (List.inj_on_of_nodup_map hids (lookup_mem h) (lookup_mem h') hid)

theorem sample_requiredString {object : Json.Map} {field context : String} {digits : List Char}
    (h : (object.get field).bind Json.asStr = some (String.ofList digits)) (hne : digits ≠ []) :
    requiredString object field context = .ok (String.ofList digits) := by
  have hempty : (String.ofList digits).isEmpty = false := by
    simpa using hne
  rw [requiredString, h]
  simp only [hempty, Bool.false_eq_true, if_false]

theorem encode_ne_nil {bytes : List UInt8} (h : bytes.length ≠ 0) : Hex.encode bytes ≠ [] := by
  intro hnil
  have hlength := Hex.length_encode bytes
  rw [hnil, List.length_nil] at hlength
  omega

/-! What the node gives of them. -/

def sampleInput (id : TransactionId) : Json.Map := [("txid", .string id.text.str), ("vout", .number "0" (some 0))]

def sampleFields (raw : List UInt8) (t : NativeTransaction) (vin : List Json) (amount : String) : Json.Map :=
  [("txid", .string t.txid.text.str), ("hex", .string (hexOf raw)), ("vin", .array vin),
    ("vout", .array [.object [("n", .number "0" (some 0)), ("value", .number amount none),
      ("scriptPubKey", .object [("hex", .string (hexOf (sampleScript 7)))])]]),
    ("blockhash", .string (hexOf (List.replicate 32 0xaa)))]

section

variable {raw : List UInt8} {t : NativeTransaction} {vin : List Json} {amount : String}

theorem sample_txid (context : String) : requiredString (sampleFields raw t vin amount) "txid" context =
    .ok t.txid.text.str :=
  sample_requiredString rfl (encode_ne_nil (by simp [t.txid.size]))

theorem sample_hex (hknown : (raw, t) ∈ sampleKnown) (context : String) :
    requiredString (sampleFields raw t vin amount) "hex" context = .ok (hexOf raw) :=
  sample_requiredString rfl (encode_ne_nil (sample_known _ hknown).1)

theorem sample_consensus (hknown : (raw, t) ∈ sampleKnown) :
    decodeConsensusTransaction sampleLibrary (sampleFields raw t vin amount) t.txid = .ok t := by
  simp only [decodeConsensusTransaction, bind_ok, sourced_ok, orSource_ok, else_ok]
  exact ⟨_, sample_hex hknown _, _, sample_fromHex _, _, (sample_known _ hknown).2, by simp, rfl⟩

theorem sample_decodeAll {ids : List TransactionId} {rest : List Json} {ts : List NativeTransaction}
    (hknown : (raw, t) ∈ sampleKnown)
    (hclaims : validateInputClaims sampleLibrary (sampleFields raw t vin amount) t = .ok ()) (hnew : t.txid ∉ ids)
    (hrest : decodeAll sampleLibrary (t.txid :: ids) rest = .ok ts) :
    decodeAll sampleLibrary ids (.object (sampleFields raw t vin amount) :: rest) = .ok (t :: ts) := by
  simp only [decodeAll, bind_ok, orSource_ok, sourced_ok, else_ok, pure_ok]
  exact ⟨_, rfl, _, sample_txid _, _, sample_parseId _, _, sample_consensus hknown, (), hclaims, hnew, ts, hrest, rfl⟩

theorem sample_input_txid (id : TransactionId) (context : String) :
    requiredString (sampleInput id) "txid" context = .ok id.text.str :=
  sample_requiredString rfl (encode_ne_nil (by simp [id.size]))

theorem sample_claim (id : TransactionId) (index : Nat) :
    validateInputClaim sampleLibrary t (.object (sampleInput id)) ⟨id, 0⟩ index = .ok () := by
  have hnull : (⟨id, 0⟩ : Outpoint).isNull = false := by simp [Outpoint.isNull]
  simp only [validateInputClaim, hnull, Bool.false_eq_true, if_false, bind_ok, orSource_ok, sourced_ok, else_ok]
  exact ⟨_, rfl, _, sample_input_txid id _, _, sample_parseId id, 0, rfl, by simp, trivial⟩

theorem sample_claims {ids : List TransactionId} (hinput : t.input = ids.map (⟨·, 0⟩)) :
    validateInputClaims sampleLibrary (sampleFields raw t (ids.map fun id => .object (sampleInput id)) amount) t =
      .ok () := by
  simp only [validateInputClaims, bind_ok, orSource_ok, else_ok]
  refine ⟨_, rfl, by simp [hinput], forM_ok.mpr ?_⟩
  rintro ⟨⟨input, native⟩, index⟩ hmem
  have hzip := List.fst_mem_of_mem_zipIdx hmem
  rw [hinput, List.zip_map', List.mem_map] at hzip
  obtain ⟨id, -, heq⟩ := hzip
  cases heq
  exact sample_claim id index

theorem sample_previous {node : Node} (hknown : (raw, t) ∈ sampleKnown)
    (hnode : node.previous t.txid = .ok (some (.object (sampleFields raw t vin amount)))) :
    previousTransaction sampleLibrary node t.txid = .ok t := by
  simp only [previousTransaction, bind_ok, orSource_ok, sourced_ok, else_ok, pure_ok]
  refine ⟨_, hnode, _, rfl, _, rfl, _, sample_txid _, _, sample_parseId _, by simp, _, sample_consensus hknown,
    hexOf (List.replicate 32 0xaa), sample_requiredString rfl (encode_ne_nil (by decide)), _,
    sample_parseBlockHash rfl, rfl⟩

theorem sample_compact : (sampleLibrary.fromScript (sampleScript 7)).toList.forM validateCompactPrevout = .ok () := by
  decide

theorem sample_resolve {node : Node} {value : UInt64} {required : List Outpoint}
    (hprevious : previousTransaction sampleLibrary node t.txid = .ok t) (houtput : t.output = [⟨value, sampleScript 7⟩])
    (hrequired : required.filter (·.transactionId = t.txid) = [⟨t.txid, 0⟩]) :
    resolveOutputs sampleLibrary node required t.txid =
      .ok [(⟨t.txid, 0⟩, ⟨value, some sampleSelected⟩)] := by
  simp only [resolveOutputs, bind_ok]
  refine ⟨t, hprevious, ?_⟩
  rw [hrequired]
  refine mapM_ok.mpr (.cons ?_ .nil)
  simp only [resolveOutput, bind_ok, orSource_ok, pure_ok]
  exact ⟨_, ⟨_, by rw [houtput]; rfl, (), sample_compact, rfl⟩, rfl⟩

/-! What is parsed of them. -/

theorem sample_output {value : UInt64}
    (hamount : fromBlockJson (.number amount none) "Bitcoin output value" = .ok value) :
    Output.parse sampleLibrary (.object [("n", .number "0" (some 0)), ("value", .number amount none),
      ("scriptPubKey", .object [("hex", .string (hexOf (sampleScript 7)))])]) ⟨value, sampleScript 7⟩ 0 =
        .ok ⟨value, sampleScript 7⟩ := by
  simp only [Output.parse, bind_ok, orElse_ok, else_ok]
  exact ⟨_, rfl, 0, rfl, by decide, _, rfl, value, hamount, by simp, _, rfl, _, rfl, _, sample_fromHex _, by simp, rfl⟩

theorem sample_transaction {value : UInt64} {vin' : List Json} {inputs : List Input} {height : BlockHeight}
    {locals : Locals}
    (hknown : (raw, t) ∈ sampleKnown) (houtput : t.output = [⟨value, sampleScript 7⟩])
    (hamount : fromBlockJson (.number amount none) "Bitcoin output value" = .ok value)
    (hlength : vin'.length = t.input.length)
    (hinputs : ((vin'.zip t.input).zipIdx.mapM fun ((input, nativeInput), index) =>
      Input.parse sampleLibrary input nativeInput index t.isCoinbase height locals) = .ok inputs) :
    Transaction.parse sampleLibrary (.object ((sampleFields raw t vin amount).insert "vin" (.array vin'))) height
      locals = .ok ⟨t.txid, inputs, [⟨value, sampleScript 7⟩], t.isCoinbase⟩ := by
  have htxid : requiredString ((sampleFields raw t vin amount).insert "vin" (.array vin')) "txid"
      "Bitcoin transaction ID" = .ok t.txid.text.str :=
    sample_requiredString rfl (encode_ne_nil (by simp [t.txid.size]))
  have hhex : requiredString ((sampleFields raw t vin amount).insert "vin" (.array vin')) "hex"
      "Bitcoin raw transaction" = .ok (hexOf raw) := sample_requiredString rfl (encode_ne_nil (sample_known _ hknown).1)
  simp only [Transaction.parse, bind_ok, orElse_ok, else_ok, pure_ok]
  refine ⟨_, rfl, _, htxid, _, sample_parseId _, _, hhex, _, sample_fromHex _, _, (sample_known _ hknown).2, by simp,
    vin', rfl,
    by simpa using hlength, inputs, hinputs, _, rfl, by simp [houtput], _, ?_, rfl⟩
  rw [houtput]
  exact mapM_ok.mpr (.cons (sample_output hamount) .nil)

theorem sample_local {id : TransactionId} {index : Nat} {height : BlockHeight} {locals : Locals} {p : PreviousOutput}
    (hlocal : locals.lookup ⟨id, 0⟩ = some p) :
    Input.parse sampleLibrary (.object (sampleInput id)) ⟨id, 0⟩ index false height locals = .ok ⟨some p⟩ := by
  have hnull : (⟨id, 0⟩ : Outpoint).isNull = false := by simp [Outpoint.isNull]
  simp only [Input.parse, hnull, Bool.false_eq_true, if_false, bind_ok, orElse_ok, else_ok, pure_ok]
  refine ⟨_, rfl, _, sample_input_txid id _, _, sample_parseId id, 0, rfl, by simp, p, ?_, rfl⟩
  exact orElse_ok.mpr hlocal

/-- The facts of an output that pays the selected address. -/
def sampleFacts (value : UInt64) : Json.Map :=
  [("value_satoshis", .number (toString value.toNat) (some value)), ("address", .string sampleSelected.encoded.str)]

theorem sample_external {id : TransactionId} {index : Nat} {height : BlockHeight} {locals : Locals} {value : UInt64}
    (hlocal : locals.lookup ⟨id, 0⟩ = none) :
    Input.parse sampleLibrary (.object ((sampleInput id).insert "prevout" (.object (sampleFacts value)))) ⟨id, 0⟩ index
      false height locals = .ok ⟨some ⟨⟨id, 0⟩, value, some sampleSelected⟩⟩ := by
  have hnull : (⟨id, 0⟩ : Outpoint).isNull = false := by simp [Outpoint.isNull]
  have htxid : requiredString ((sampleInput id).insert "prevout" (.object (sampleFacts value))) "txid"
      "Bitcoin input previous transaction ID" = .ok id.text.str :=
    sample_requiredString rfl (encode_ne_nil (by simp [id.size]))
  have hget : ((((sampleInput id).insert "prevout" (.object (sampleFacts value))).get "prevout").bind Json.asObject) =
      some (sampleFacts value) := rfl
  have hparsed : PreviousOutput.parse sampleLibrary (sampleFacts value) ⟨id, 0⟩ height =
      .ok ⟨⟨id, 0⟩, value, some sampleSelected⟩ := rfl
  simp only [Input.parse, hnull, Bool.false_eq_true, if_false, bind_ok, orElse_ok, else_ok, pure_ok]
  refine ⟨_, rfl, _, htxid, _, sample_parseId id, 0, rfl, by simp, ⟨⟨id, 0⟩, value, some sampleSelected⟩, ?_, rfl⟩
  simp only [Input.resolve, hget, hparsed, hlocal, bind, Except.bind, Option.any_none, Bool.false_eq_true, if_false]

end

/-! ### A block -/

def sampleJointInputs : List TransactionId := [sampleFirst.txid, sampleSecond.txid]

def sampleCoinbaseFields : Json.Map :=
  sampleFields sampleCoinbaseRaw sampleCoinbase [.object [("coinbase", .string "0105")]] "50.00000000"

def sampleJointFields : Json.Map :=
  sampleFields sampleJointRaw sampleJoint (sampleJointInputs.map fun id => .object (sampleInput id)) "0.00095000"

def sampleOnwardFields : Json.Map :=
  sampleFields sampleOnwardRaw sampleOnward ([sampleJoint.txid].map fun id => .object (sampleInput id)) "0.00090000"

def sampleBlockFields : Json.Map :=
  [("hash", .string (hexOf (List.replicate 32 0xaa))), ("height", .number "5" (some 5)),
    ("previousblockhash", .string (hexOf (List.replicate 32 0xbb))), ("time", .number "100" (some 100)),
    ("nTx", .number "3" (some 3)),
    ("tx", .array [.object sampleCoinbaseFields, .object sampleJointFields, .object sampleOnwardFields])]

/-- What the node knows of earlier transactions. -/
def samplePrevious (id : TransactionId) : Option Json :=
  if id = sampleFirst.txid then some (.object (sampleFields sampleFirstRaw sampleFirst [] "0.00070000"))
  else if id = sampleSecond.txid then some (.object (sampleFields sampleSecondRaw sampleSecond [] "0.00030000"))
  else none

def sampleNode : Node where
  firstHash := .ok (some ⟨List.replicate 32 0xaa⟩)
  secondHash := .ok (some ⟨List.replicate 32 0xaa⟩)
  block := .ok (some (.object sampleBlockFields))
  previous id := .ok (samplePrevious id)

def sampleEnriched : Json := .object (sampleBlockFields.insert "tx" (.array
  [.object (sampleCoinbaseFields.insert "vin" (.array [.object [("coinbase", .string "0105")]])),
    .object (sampleJointFields.insert "vin" (.array
      [.object ((sampleInput sampleFirst.txid).insert "prevout" (.object (sampleFacts 70000))),
        .object ((sampleInput sampleSecond.txid).insert "prevout" (.object (sampleFacts 30000)))])),
    .object (sampleOnwardFields.insert "vin" (.array [.object (sampleInput sampleJoint.txid)]))]))

theorem sample_decode : decodeAll sampleLibrary []
    [.object sampleCoinbaseFields, .object sampleJointFields, .object sampleOnwardFields] =
      .ok [sampleCoinbase, sampleJoint, sampleOnward] := by
  refine sample_decodeAll (List.mem_of_getElem? (i := 0) rfl) rfl (by simp) ?_
  refine sample_decodeAll (List.mem_of_getElem? (i := 3) rfl) (sample_claims rfl) (by decide) ?_
  exact sample_decodeAll (List.mem_of_getElem? (i := 4) rfl) (sample_claims rfl) (by decide) rfl

def sampleResolved : Resolved :=
  [(⟨sampleFirst.txid, 0⟩, ⟨70000, some sampleSelected⟩), (⟨sampleSecond.txid, 0⟩, ⟨30000, some sampleSelected⟩)]

def sampleRequired : List Outpoint := [⟨sampleFirst.txid, 0⟩, ⟨sampleSecond.txid, 0⟩]

theorem sample_resolveIn : resolveIn sampleLibrary sampleNode sampleRequired
    (sampleRequired.map (·.transactionId)).dedup = .ok sampleResolved := by
  have hids : (sampleRequired.map (·.transactionId)).dedup = [sampleFirst.txid, sampleSecond.txid] := by decide
  have hfirst : samplePrevious sampleFirst.txid = some _ := if_pos rfl
  have hsecond : samplePrevious sampleSecond.txid = some _ :=
    (if_neg (by decide)).trans (if_pos rfl)
  rw [hids]
  simp only [resolveIn, bind_ok, pure_ok]
  refine ⟨[[_], [_]], mapM_ok.mpr (.cons ?_ (.cons ?_ .nil)), rfl⟩
  · exact sample_resolve (sample_previous (List.mem_of_getElem? (i := 1) rfl) (congrArg _ hfirst)) rfl (by decide)
  · exact sample_resolve (sample_previous (List.mem_of_getElem? (i := 2) rfl) (congrArg _ hsecond)) rfl (by decide)

theorem sample_enrich : enrichIn sampleLibrary sampleNode id (.object sampleBlockFields) = .ok sampleEnriched :=
  enrichIn_ok.mpr ⟨sampleBlockFields, rfl, _, rfl, _, sample_decode, sampleRequired, by decide, by decide, _,
    sample_resolveIn, _, rfl, rfl⟩

def sampleParsed (t : NativeTransaction) (inputs : List Input) (value : UInt64) : Transaction :=
  ⟨t.txid, inputs, [⟨value, sampleScript 7⟩], t.isCoinbase⟩

def sampleSpent (t : NativeTransaction) (value : UInt64) : Input := ⟨some ⟨⟨t.txid, 0⟩, value, some sampleSelected⟩⟩

def sampleBlock : Block where
  reference := ⟨⟨5⟩, ⟨5⟩, ⟨List.replicate 32 0xaa⟩, some ⟨⟨4⟩, ⟨List.replicate 32 0xbb⟩⟩, some 100⟩
  transactions := [sampleParsed sampleCoinbase [⟨none⟩] 5000000000,
    sampleParsed sampleJoint [sampleSpent sampleFirst 70000, sampleSpent sampleSecond 30000] 95000,
    sampleParsed sampleOnward [sampleSpent sampleJoint 95000] 90000]

theorem sample_parse : Block.parse sampleLibrary sampleEnriched (some ⟨5⟩) (some ⟨List.replicate 32 0xaa⟩) =
    .ok sampleBlock := by
  have hhash : parseHash sampleLibrary (hexOf (List.replicate 32 0xaa)) = .ok ⟨List.replicate 32 0xaa⟩ :=
    bind_ok.mpr ⟨_, orElse_ok.mpr (sample_parseBlockHash rfl), rfl⟩
  have hparent : ∀ values, parseParent sampleLibrary (sampleBlockFields.insert "tx" values) 5 =
      .ok (some ⟨⟨4⟩, ⟨List.replicate 32 0xbb⟩⟩) := by
    intro values
    rw [parseParent, if_neg (by decide)]
    simp only [parseHash, bind_ok, orElse_ok, pure_ok]
    exact ⟨_, sample_requiredString rfl (encode_ne_nil (by decide)), _, ⟨_, sample_parseBlockHash rfl, rfl⟩, rfl⟩
  simp only [Block.parse, bind_ok, orElse_ok, else_ok, pure_ok]
  refine ⟨_, rfl, 5, rfl, by decide, hexOf (List.replicate 32 0xaa),
    sample_requiredString rfl (encode_ne_nil (by decide)), _, hhash, by decide, by decide, _,
    hparent _, 100, rfl, _, rfl, 3, rfl, by decide, _, ?_, rfl⟩
  -- The coinbase, the one with two external inputs, and the one that spends it.
  simp only [parseAll, bind_ok, else_ok, pure_ok]
  refine ⟨_, sample_transaction (List.mem_of_getElem? (i := 0) rfl) rfl (by decide) rfl rfl, by simp,
    by decide, _, ⟨_, ?joint, by decide, by decide, _, ⟨_, ?onward, by decide +kernel, by decide, _, rfl, rfl⟩,
      rfl⟩, rfl⟩
  case joint =>
    exact sample_transaction (List.mem_of_getElem? (i := 3) rfl) rfl (by decide) rfl
      (mapM_ok.mpr (.cons (sample_external (by decide)) (.cons (sample_external (by decide +kernel)) .nil)))
  case onward =>
    exact sample_transaction (List.mem_of_getElem? (i := 4) rfl) rfl (by decide) rfl
      (mapM_ok.mpr (.cons (sample_local (by decide)) .nil))

def sampleInterpreter : BlockInterpreter := ⟨sampleLibrary, ⟨chainId, .lit "regtest" (Eq.refl true)⟩, rfl⟩

def sampleAddresses : List CanonicalAddress := [sampleSelected.canonical sampleInterpreter.scope]

def sampleContext : Context := ⟨sampleLibrary, sampleInterpreter.scope, [sampleSelected], ⟨5⟩⟩

/-- The second transaction spends two outputs of earlier blocks, and the third one spends it. -/
theorem enrichment_exact_sample :
    ExactBlock sampleLibrary (.object sampleBlockFields) sampleBlock ∧
      (∀ order, Permutes order →
        enrichIn sampleLibrary sampleNode order (.object sampleBlockFields) = .ok sampleEnriched) ∧
      ∀ t ∈ sampleBlock.transactions, t.coinbase = false →
        ∃ out, interpret sampleContext t [] = .ok out ∧ ∃ fee, Balanced sampleContext t out.1 fee := by
  have hid : Permutes id := fun _ => .refl _
  obtain ⟨hexact, -, -, hbalanced⟩ := enrichment_exact sample_collisionFree
  obtain ⟨hparsed, -, horder⟩ := hexact sampleNode id _ _ hid sample_enrich
  refine ⟨hparsed _ _ _ sample_parse, horder, ?_⟩
  intro t ht hcoinbase
  obtain ⟨out, hout⟩ : ∃ out, interpret sampleContext t [] = .ok out := by
    simp only [sampleBlock, List.mem_cons, List.not_mem_nil, or_false] at ht
    rcases ht with rfl | rfl | rfl <;> exact ⟨_, rfl⟩
  exact ⟨out, hout, hbalanced sampleContext t [] out hout hcoinbase⟩

theorem sample_addresses :
    validatedAddresses sampleLibrary sampleInterpreter.scope sampleAddresses = .ok [sampleSelected] := by
  decide

theorem sample_inspect : ∃ out, sampleInterpreter.inspect sampleBlock sampleAddresses = .ok out :=
  ⟨_, bind_ok.mpr ⟨_, sample_addresses, rfl⟩⟩

/-- A coinbase has an Output movement, no Input movement and no fee. -/
theorem coinbase_unbalanced :
    enrichIn sampleLibrary sampleNode id (.object sampleBlockFields) = .ok sampleEnriched ∧
      Block.parse sampleLibrary sampleEnriched (some ⟨5⟩) (some ⟨List.replicate 32 0xaa⟩) = .ok sampleBlock ∧
      ∃ out, sampleInterpreter.inspect sampleBlock sampleAddresses = .ok out ∧
        ∃ d ∈ out.transactions, d.fee = none ∧ inputSum d.movements = 0 ∧ outputSum d.movements = 5000000000 :=
  ⟨sample_enrich, sample_parse, _, bind_ok.mpr ⟨_, sample_addresses, rfl⟩, _, List.mem_cons_self, rfl, rfl, rfl⟩

end PaymentSdk.Bitcoin.Indexer
