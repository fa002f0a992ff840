import PaymentSdk.Bitcoin.Build

/-!
# Funding by groups

Several sources fund one transaction, each its own recipients. The fee is taken from their
surpluses in order, and a change output stays only while the surplus left over is worth it. An
output that is dropped lowers the fee, which is then allocated again.
-/

open Checked

namespace PaymentSdk.Bitcoin

/-- What one owner puts in, what it pays, and where its change goes. -/
structure Funding where
  available : List SpendSource
  recipients : List Output
  changeAddress : Address

/-! ## Groups -/

/-- A group whose amounts are added up, with its inputs sorted. -/
structure Gathered where
  available : List SpendSource
  recipients : List Output
  changeAddress : Address
  surplus : UInt64
  change : Script

/-- Checks one source's group and adds up its two sides. -/
def Funding.gather (lib : Library) (group : Funding) : Except ChainError Gathered := do
  ensure (group.available ≠ [] ∧ group.recipients ≠ [])
    (.invalidTransaction "each Bitcoin grouped source needs inputs and recipients")
  let available := byOutpoint group.available
  let input ← okOr (.invalidTransaction "Bitcoin selected input amount overflowed u64")
    (Word.checkedSum (available.map (·.value)))
  let output ← okOr (.invalidTransaction "Bitcoin recipient amount overflowed u64")
    (Word.checkedSum (group.recipients.map (·.value)))
  let surplus ← okOr (.insufficientFunds "a Bitcoin grouped source cannot fund its requested outputs")
    (Word.checkedSub input output)
  let change ← lib.scriptPubkeyForNetwork group.changeAddress
  return ⟨available, group.recipients, group.changeAddress, surplus, change⟩

/-! ## Fee allocation -/

/-- Each surplus pays what it can of the fee that the ones before it have left. -/
def allocateFrom (fee : UInt64) : List UInt64 → List UInt64 × UInt64
  | [] => ([], fee)
  | value :: rest =>
    let contribution := min value fee
    let (remaining, left) := allocateFrom (fee - contribution) rest
    ((value - contribution) :: remaining, left)

/-- What stays of every surplus once the fee is paid. -/
def allocateFee (surplus : List UInt64) (fee : UInt64) : Except ChainError (List UInt64) := do
  let (remaining, remainingFee) := allocateFrom fee surplus
  ensure (remainingFee = 0) (.insufficientFunds "Bitcoin grouped sources cannot cover the network fee")
  return remaining

/-! ## The change loop -/

/-- What the loop reads. -/
structure Batch where
  sources : List Gathered
  recipientScripts : List Script
  feeRate : FeeRate

namespace Batch

def available (b : Batch) : List SpendSource := b.sources.flatMap (·.available)

def recipients (b : Batch) : List Output := b.sources.flatMap (·.recipients)

def surplus (b : Batch) : List UInt64 := b.sources.map (·.surplus)

def changeScripts (b : Batch) (active : List Bool) : List Script :=
  (b.sources.zip active).filterMap fun (source, active) => if active then some source.change else none

/-- Every group whose surplus is worth a change output. -/
def startActive (lib : Library) (b : Batch) : List Bool :=
  b.sources.map fun source => decide (lib.minimalNonDust source.change ≤ source.surplus)

/-- What is left of the surpluses when the given groups get their change. -/
def settle (b : Batch) (active : List Bool) : Except ChainError (List UInt64) := do
  let fee ← predictedFee b.available (b.recipientScripts ++ b.changeScripts active) b.feeRate
  allocateFee b.surplus fee

/-- The groups whose rest is still worth a change output. -/
def stillActive (lib : Library) (b : Batch) (remaining : List UInt64) (active : List Bool) : List Bool :=
  List.zipWith (fun value (p : Gathered × Bool) => p.2 && decide (lib.minimalNonDust p.1.change ≤ value))
    remaining (b.sources.zip active)

theorem stillActive_decreases {lib : Library} {b : Batch} {remaining : List UInt64} {active : List Bool}
    (h : b.stillActive lib remaining active ≠ active) :
    (b.stillActive lib remaining active).count true + (b.stillActive lib remaining active).length <
      active.count true + active.length := by
  obtain ⟨sources, _, _⟩ := b
  unfold stillActive at h ⊢
  simp only at h ⊢
  induction active generalizing remaining sources with
  | nil => simp at h
  | cons was active ih =>
    cases remaining with
    | nil => simp
    | cons value remaining =>
      cases sources with
      | nil => simp
      | cons source sources =>
        simp only [List.zip_cons_cons, List.zipWith_cons_cons, ne_eq, List.cons.injEq, not_and] at h ⊢
        have hlt := @ih remaining sources
        generalize List.zipWith _ remaining (sources.zip active) = next at h hlt ⊢
        by_cases hrest : next = active
        · subst hrest
          cases was <;> by_cases hdust : lib.minimalNonDust source.change ≤ value <;> simp_all
        · have hlt := hlt hrest
          cases was <;> by_cases hdust : lib.minimalNonDust source.change ≤ value <;> simp [hdust] <;> omega

/-- Drops change that would be dust and weighs again, until all that stays is worth keeping. -/
def changeLoop (lib : Library) (b : Batch) (active : List Bool) : Except ChainError (List UInt64 × List Bool) :=
  match b.settle active with
  | .error e => .error e
  | .ok remaining =>
    if _ : b.stillActive lib remaining active = active then .ok (remaining, active)
    else b.changeLoop lib (b.stillActive lib remaining active)
termination_by active.count true + active.length
decreasing_by exact stillActive_decreases ‹_›

/-- The change outputs, in the order of the groups. -/
def changeOutputs (b : Batch) (remaining : List UInt64) (active : List Bool) : List Output :=
  ((b.sources.zip remaining).zip active).filterMap fun ((source, value), keep) =>
    if keep then some ⟨source.changeAddress, value⟩ else none

end Batch

def buildGrouped (lib : Library) (groups : List Funding) (feeRate : FeeRate) :
    Except ChainError UnsignedTransaction := do
  ensure (groups ≠ [] ∧ feeRate.satoshisPerKvb ≠ 0)
    (.invalidTransaction "Bitcoin grouped transfer needs sources and a positive fee rate")
  let sources ← groups.mapM (Funding.gather lib)
  ensure ((sources.flatMap (·.available)).map (·.outpoint)).Nodup
    (.invalidTransaction "Bitcoin transfer contains a duplicate UTXO")
  let recipientScripts ← (sources.flatMap (·.recipients)).mapM (checkedOutput lib · false)
  let b : Batch := ⟨sources, recipientScripts, feeRate⟩
  let (remaining, active) ← b.changeLoop lib (b.startActive lib)
  return .fromSelected b.available (b.recipients ++ b.changeOutputs remaining active)

/-! ## What an allocation leaves -/

theorem min_toNat (a b : UInt64) : (min a b).toNat = min a.toNat b.toNat := UInt64.toNat_min a b

theorem sub_min_toNat (a b : UInt64) : (a - min a b).toNat = a.toNat - b.toNat := by
  rw [UInt64.toNat_sub_of_le _ _ (UInt64.le_iff_toNat_le.mpr (by rw [min_toNat]; omega)), min_toNat]
  omega

theorem min_sub_toNat (a b : UInt64) : (b - min a b).toNat = b.toNat - a.toNat := by
  rw [UInt64.toNat_sub_of_le _ _ (UInt64.le_iff_toNat_le.mpr (by rw [min_toNat]; omega)), min_toNat]
  omega

theorem allocateFrom_zero (surplus : List UInt64) : allocateFrom 0 surplus = (surplus, 0) := by
  induction surplus with
  | nil => rfl
  | cons value rest ih =>
    have hmin : min value 0 = 0 := UInt64.toNat_inj.mp (by simp [min_toNat])
    simp [allocateFrom, hmin, ih]

theorem allocateFrom_left (fee : UInt64) (surplus : List UInt64) :
    (allocateFrom fee surplus).2.toNat = fee.toNat - Word.total surplus := by
  induction surplus generalizing fee with
  | nil => simp [allocateFrom]
  | cons value rest ih =>
    simp only [allocateFrom, ih, Word.total_cons, min_sub_toNat]
    omega

theorem length_allocateFrom (fee : UInt64) (surplus : List UInt64) :
    (allocateFrom fee surplus).1.length = surplus.length := by
  induction surplus generalizing fee with
  | nil => rfl
  | cons value rest ih => simp [allocateFrom, ih]

theorem allocateFrom_shares (fee : UInt64) (surplus : List UInt64) :
    (∀ p ∈ surplus.zip (allocateFrom fee surplus).1, p.2.toNat ≤ p.1.toNat) ∧
      ((surplus.zip (allocateFrom fee surplus).1).map fun p => p.1.toNat - p.2.toNat).sum =
        min fee.toNat (Word.total surplus) := by
  induction surplus generalizing fee with
  | nil => simp [allocateFrom]
  | cons value rest ih =>
    obtain ⟨hle, hsum⟩ := ih (fee - min value fee)
    simp only [allocateFrom, List.zip_cons_cons, List.forall_mem_cons, List.map_cons, List.sum_cons, Word.total_cons]
    rw [hsum, sub_min_toNat, min_sub_toNat]
    exact ⟨⟨by omega, hle⟩, by omega⟩

theorem allocateFrom_ordered (fee : UInt64) (surplus : List UInt64) :
    (surplus.zip (allocateFrom fee surplus).1).Pairwise fun p q => q.2.toNat < q.1.toNat → p.2 = 0 := by
  induction surplus generalizing fee with
  | nil => simp [allocateFrom]
  | cons value rest ih =>
    simp only [allocateFrom, List.zip_cons_cons, List.pairwise_cons]
    refine ⟨?_, ih _⟩
    intro q hq hpays
    rcases Nat.le_total value.toNat fee.toNat with hle | hle
    · rw [← UInt64.toNat_inj, sub_min_toNat, Nat.sub_eq_zero_of_le hle]
      rfl
    · -- The fee is paid, so that the rest keeps its surplus.
      have hpaid : fee - min value fee = 0 := by
        rw [← UInt64.toNat_inj, min_sub_toNat, Nat.sub_eq_zero_of_le hle]
        rfl
      rw [hpaid, allocateFrom_zero] at hq
      have heq : q.2 = q.1 := by
        rw [List.zip_eq_zipWith, List.zipWith_self, List.mem_map] at hq
        obtain ⟨_, _, rfl⟩ := hq
        rfl
      rw [heq] at hpays
      exact absurd hpays (Nat.lt_irrefl _)

theorem allocateFee_ok {surplus remaining : List UInt64} {fee : UInt64} :
    allocateFee surplus fee = .ok remaining ↔
      fee.toNat ≤ Word.total surplus ∧ remaining = (allocateFrom fee surplus).1 := by
  have hleft := allocateFrom_left fee surplus
  simp only [allocateFee, bind_ok, ensure_ok, pure_ok, ← UInt64.toNat_inj, hleft]
  constructor
  · rintro ⟨_, hzero, h⟩
    exact ⟨by simpa [Nat.sub_eq_zero_iff_le] using hzero, h⟩
  · rintro ⟨hle, h⟩
    exact ⟨(), by simpa [Nat.sub_eq_zero_iff_le] using hle, h⟩

theorem allocateFee_error {surplus : List UInt64} {fee : UInt64} {e : ChainError} :
    allocateFee surplus fee = .error e ↔ Word.total surplus < fee.toNat ∧
      e = .insufficientFunds "Bitcoin grouped sources cannot cover the network fee" := by
  have hleft := allocateFrom_left fee surplus
  have hzero : (allocateFrom fee surplus).2 ≠ 0 ↔ Word.total surplus < fee.toNat := by
    rw [ne_eq, ← UInt64.toNat_inj, hleft]
    simp [Nat.sub_eq_zero_iff_le]
  simp only [allocateFee, bind_error, ensure_error, hzero, pure, Except.pure, reduceCtorEq, and_false,
    exists_false, or_false]

/-! ## What the loop settles on -/

/-- So many turns of the loop, to the surpluses that are left and the change outputs that stay. -/
inductive Turns (lib : Library) (b : Batch) : List Bool → Nat → List UInt64 → List Bool → Prop
  | done {active : List Bool} {remaining : List UInt64} :
    b.settle active = .ok remaining → b.stillActive lib remaining active = active →
    Turns lib b active 1 remaining active
  | again {active final : List Bool} {remaining remaining' : List UInt64} {n : Nat} :
    b.settle active = .ok remaining → b.stillActive lib remaining active ≠ active →
    Turns lib b (b.stillActive lib remaining active) n remaining' final →
    Turns lib b active (n + 1) remaining' final

theorem changeLoop_turns {lib : Library} {b : Batch} {active final : List Bool} {remaining : List UInt64}
    (h : b.changeLoop lib active = .ok (remaining, final)) : ∃ n, Turns lib b active n remaining final := by
  fun_induction Batch.changeLoop lib b active with
  | case1 active e he => cases h
  | case2 active left hsettle hsame =>
    cases h
    exact ⟨1, .done hsettle hsame⟩
  | case3 active left hsettle hnext ih =>
    obtain ⟨n, hturns⟩ := ih h
    exact ⟨n + 1, .again hsettle hnext hturns⟩

theorem length_settle {b : Batch} {active : List Bool} {remaining : List UInt64}
    (h : b.settle active = .ok remaining) : remaining.length = b.sources.length := by
  obtain ⟨fee, -, h⟩ := bind_ok.mp h
  rw [(allocateFee_ok.mp h).2, length_allocateFrom, Batch.surplus, List.length_map]

theorem length_stillActive (lib : Library) {b : Batch} {remaining : List UInt64} {active : List Bool}
    (hremaining : remaining.length = b.sources.length) (hactive : active.length = b.sources.length) :
    (b.stillActive lib remaining active).length = b.sources.length := by
  simp [Batch.stillActive, hremaining, hactive]

theorem changeScripts_sublist (lib : Library) (b : Batch) (remaining : List UInt64) (active : List Bool) :
    (b.changeScripts (b.stillActive lib remaining active)).Sublist (b.changeScripts active) := by
  obtain ⟨sources, _, _⟩ := b
  unfold Batch.changeScripts Batch.stillActive
  simp only
  induction sources generalizing remaining active with
  | nil => simp
  | cons source sources ih =>
    cases active with
    | nil => simp
    | cons keep active =>
      cases remaining with
      | nil => simp
      | cons value remaining =>
        have hrest := ih remaining active
        simp only [List.zip_cons_cons, List.zipWith_cons_cons, List.filterMap_cons]
        cases keep with
        | false => simpa using hrest
        | true =>
          by_cases hdust : lib.minimalNonDust source.change ≤ value
          · simpa [hdust] using hrest
          · simpa [hdust] using hrest.cons source.change

theorem turns_le {lib : Library} {b : Batch} {active final : List Bool} {n : Nat} {remaining : List UInt64}
    (h : Turns lib b active n remaining final) (hactive : active.length = b.sources.length) :
    n ≤ active.count true + 1 := by
  induction h with
  | done => omega
  | again hsettle hnext _ ih =>
    have hlength := length_stillActive lib (length_settle hsettle) hactive
    have hlt := Batch.stillActive_decreases hnext
    have hle := ih hlength
    rw [hlength, hactive] at hlt
    omega

theorem turns_settled {lib : Library} {b : Batch} {active final : List Bool} {n : Nat} {remaining : List UInt64}
    (h : Turns lib b active n remaining final) (hactive : active.length = b.sources.length) :
    b.settle final = .ok remaining ∧ b.stillActive lib remaining final = final ∧
      final.length = b.sources.length := by
  induction h with
  | done hsettle hsame => exact ⟨hsettle, hsame, hactive⟩
  | again hsettle _ _ ih => exact ih (length_stillActive lib (length_settle hsettle) hactive)

end PaymentSdk.Bitcoin
