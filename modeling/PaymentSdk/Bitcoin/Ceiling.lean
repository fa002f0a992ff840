import PaymentSdk.Bitcoin.Coverage

/-!
# The limit of a fee

Only the rate is compared with the limit. The fee that is paid may also hold a rest of each source
that is too little for an output, so that it is bounded by the fee at the limit and those rests.
-/

open Checked

namespace PaymentSdk.Bitcoin

variable {lib : Library} {rate rate' : FeeRate} {groups : List Funding} {t : UnsignedTransaction}

theorem exactFee_rate {inputs : List SpendSource} {scripts : List Script}
    (h : rate.satoshisPerKvb ≤ rate'.satoshisPerKvb) : exactFee inputs scripts rate ≤ exactFee inputs scripts rate' := by
  have hle := UInt64.le_iff_toNat_le.mp h
  unfold exactFee
  gcongr

/-! ## Rests -/

/-- What is left for the groups that get their change. -/
def kept (remaining : List UInt64) (active : List Bool) : Nat :=
  ((remaining.zip active).map fun p => if p.2 then p.1.toNat else 0).sum

/-- The dust limits of the groups that get no change. -/
def forgone (limits : List UInt64) (active : List Bool) : Nat :=
  ((limits.zip active).map fun p => if p.2 then 0 else p.1.toNat).sum

@[simp]
theorem kept_cons (value : UInt64) (remaining : List UInt64) (keep : Bool) (active : List Bool) :
    kept (value :: remaining) (keep :: active) = (if keep then value.toNat else 0) + kept remaining active := rfl

@[simp]
theorem forgone_cons (limit : UInt64) (limits : List UInt64) (keep : Bool) (active : List Bool) :
    forgone (limit :: limits) (keep :: active) = (if keep then 0 else limit.toNat) + forgone limits active := rfl

def Batch.limits (lib : Library) (b : Batch) : List UInt64 := b.sources.map fun source => lib.minimalNonDust source.change

theorem total_allocateFrom (fee : UInt64) (surplus : List UInt64) :
    Word.total (allocateFrom fee surplus).1 + min fee.toNat (Word.total surplus) = Word.total surplus := by
  induction surplus generalizing fee with
  | nil => simp [allocateFrom]
  | cons value rest ih =>
    have hrest := ih (fee - min value fee)
    simp only [allocateFrom, Word.total_cons, sub_min_toNat, min_sub_toNat] at hrest ⊢
    omega

theorem allocateFrom_mono {fee fee' : UInt64} (surplus : List UInt64) (h : fee'.toNat ≤ fee.toNat) :
    List.Forall₂ (fun a b : UInt64 => a.toNat ≤ b.toNat) (allocateFrom fee surplus).1 (allocateFrom fee' surplus).1 := by
  induction surplus generalizing fee fee' with
  | nil => exact .nil
  | cons value rest ih =>
    refine .cons ?_ (ih ?_)
    · rw [sub_min_toNat, sub_min_toNat]
      omega
    · rw [min_sub_toNat, min_sub_toNat]
      omega

theorem kept_mono {remaining remaining' : List UInt64} (active : List Bool)
    (h : List.Forall₂ (fun a b : UInt64 => a.toNat ≤ b.toNat) remaining remaining') :
    kept remaining active ≤ kept remaining' active := by
  induction h generalizing active with
  | nil => exact Nat.le_refl _
  | cons hfirst _ ih =>
    cases active with
    | nil => exact Nat.le_refl _
    | cons keep active =>
      have hle := ih active
      simp only [kept_cons]
      split_ifs <;> omega

theorem total_le_start {sources : List Gathered} {remaining : List UInt64}
    (h : List.Forall₂ (fun (value : UInt64) source => value.toNat ≤ source.surplus.toNat) remaining sources) :
    Word.total remaining ≤
      kept remaining (sources.map fun source => decide (lib.minimalNonDust source.change ≤ source.surplus)) +
        forgone (sources.map fun source => lib.minimalNonDust source.change)
          (sources.map fun source => decide (lib.minimalNonDust source.change ≤ source.surplus)) := by
  induction h with
  | nil => simp
  | @cons value source _ _ hfirst _ ih =>
    simp only [List.map_cons, kept_cons, forgone_cons, Word.total_cons, decide_eq_true_eq]
    split_ifs with hdust
    · omega
    · rw [UInt64.le_iff_toNat_le] at hdust
      omega

/-- A turn gives away only what is below its limit. -/
theorem kept_le_next {b : Batch} {remaining : List UInt64} {active : List Bool}
    (hremaining : remaining.length = b.sources.length) (hactive : active.length = b.sources.length) :
    kept remaining active + forgone (b.limits lib) active ≤
      kept remaining (b.stillActive lib remaining active) +
        forgone (b.limits lib) (b.stillActive lib remaining active) := by
  obtain ⟨sources, _, _⟩ := b
  unfold Batch.stillActive Batch.limits
  simp only at hremaining hactive ⊢
  induction sources generalizing remaining active with
  | nil =>
    rw [List.length_nil, List.length_eq_zero_iff] at hremaining hactive
    simp [hremaining, hactive]
  | cons source sources ih =>
    cases remaining with
    | nil => simp at hremaining
    | cons value remaining =>
      cases active with
      | nil => simp at hactive
      | cons keep active =>
        have hle := ih (by simpa using hremaining) (by simpa using hactive)
        simp only [List.zip_cons_cons, List.zipWith_cons_cons, List.map_cons, kept_cons, forgone_cons]
        generalize List.zipWith _ remaining (sources.zip active) = next at hle ⊢
        cases keep with
        | false =>
          simp only [Bool.false_and, Bool.false_eq_true, if_false]
          omega
        | true =>
          by_cases hdust : lib.minimalNonDust source.change ≤ value
          · simp only [hdust, decide_true, Bool.true_and, if_true]
            omega
          · have hlt : ¬ (lib.minimalNonDust source.change).toNat ≤ value.toNat := by
              rwa [UInt64.le_iff_toNat_le] at hdust
            simp only [hdust, decide_false, Bool.true_and, Bool.false_eq_true, if_true, if_false]
            omega

theorem signedWeight_sublist {inputs : List SpendSource} {scripts scripts' : List Script}
    (h : scripts.Sublist scripts') : signedWeight inputs scripts ≤ signedWeight inputs scripts' := by
  have hbase := @baseSize_mono scripts scripts' _ _ (Nat.le_refl inputs.length) h
  unfold signedWeight weight totalSize
  omega

/-- **Run.** Over all turns, what is neither kept nor below a limit is the first fee. -/
theorem turns_kept {b : Batch} {active final : List Bool} {n first : Nat} {remaining : List UInt64}
    (h : Turns lib b active n remaining final) (hactive : active.length = b.sources.length)
    (hfirst : ∀ remaining, b.settle active = .ok remaining →
      Word.total b.surplus ≤ kept remaining active + forgone (b.limits lib) active + first) :
    Word.total b.surplus ≤ kept remaining final + forgone (b.limits lib) final + first := by
  induction h with
  | done hsettle _ => exact hfirst _ hsettle
  | @again active final remaining remaining' n hsettle _ _ ih =>
    have hlength := length_stillActive lib (length_settle hsettle) hactive
    refine ih hlength ?_
    intro next hnext
    have hle := hfirst _ hsettle
    have hdrop := @kept_le_next lib b remaining active (length_settle hsettle) hactive
    have hmono : kept remaining (b.stillActive lib remaining active) ≤ kept next (b.stillActive lib remaining active) := by
      obtain ⟨fee, hfee, hallocated⟩ := bind_ok.mp hsettle
      obtain ⟨fee', hfee', hallocated'⟩ := bind_ok.mp hnext
      rw [(allocateFee_ok.mp hallocated).2, (allocateFee_ok.mp hallocated').2]
      refine kept_mono _ (allocateFrom_mono _ ?_)
      rw [(predictedFee_ok.mp hfee).2, (predictedFee_ok.mp hfee').2]
      exact exactFee_mono (signedWeight_sublist ((changeScripts_sublist lib b _ _).append_left _))
    omega

/-! ## The bound -/

/-- The fee of a transaction with an output for the change of every source, and the dust limit of each
source whose change has no output. -/
def ceiling (lib : Library) (rate : FeeRate) (sources : List SpendSource) (payees : List Script)
    (changes : List (Script × Bool)) : Nat :=
  exactFee sources (payees ++ changes.map (·.1)) rate +
    (changes.map fun p => if p.2 then 0 else (lib.minimalNonDust p.1).toNat).sum

/-- A transaction to the given recipients, with the change of the given addresses. -/
structure Bounded (lib : Library) (rate : FeeRate) (t : UnsignedTransaction) (recipients : List Output)
    (addresses : List Address) (payees : List Script) (changes : List (Script × Bool)) : Prop where
  payees_eq : recipients.mapM (fun o => lib.scriptPubkeyForNetwork o.address) = .ok payees
  changes_eq : List.Forall₂ (fun address p => lib.scriptPubkeyForNetwork address = .ok p.1) addresses changes
  scripts_eq : t.outputs.mapM (fun o => lib.scriptPubkeyForNetwork o.address) =
    .ok (payees ++ (changes.filter (·.2)).map (·.1))
  bounded : worth t.sources - paid t.outputs ≤ ceiling lib rate t.sources payees changes

theorem build_bounded {r : BuildRequest} (h : r.build lib = .ok t) (hdrain : r.drainWallet = false)
    (hrate : r.feeRate.satoshisPerKvb ≤ rate.satoshisPerKvb) :
    ∃ payees changes, Bounded lib rate t r.recipients [r.changeAddress] payees changes := by
  obtain ⟨_, change, changeScript, scripts, fee, hpays⟩ := build_pays h
  have hpayees := hpays.payees_eq
  rw [Payees, hdrain] at hpayees
  simp only [Bool.false_eq_true, if_false] at hpayees
  subst hpayees
  have hscripts := mapM_ok.mp hpays.scripts_eq
  have houtputs := hpays.outputs_eq
  cases change with
  | none =>
    simp only [Option.toList_none, List.map_nil, List.append_nil] at houtputs
    obtain ⟨feeWithChange, hwith, hmono, hlittle⟩ := hpays.givesLittle rfl hdrain
    have hle := @exactFee_rate r.feeRate rate t.sources (scripts ++ [changeScript]) hrate
    rw [← (predictedFee_ok.mp hwith).2] at hle
    rw [UInt64.le_iff_toNat_le] at hmono
    refine ⟨scripts, [(changeScript, false)], ?_, .cons hpays.changeScript_eq .nil, ?_, ?_⟩
    · exact mapM_ok.mpr (houtputs ▸ hscripts)
    · exact mapM_ok.mpr (by simpa using hscripts)
    · simp only [ceiling, List.map_cons, List.map_nil, List.sum_cons, List.sum_nil, Bool.false_eq_true, if_false]
      omega
  | some value =>
    simp only [Option.toList_some, List.map_cons, List.map_nil] at houtputs
    have hexact := hpays.exactly (.inl rfl)
    have hle := @exactFee_rate r.feeRate rate t.sources scripts hrate
    rw [← (predictedFee_ok.mp hpays.fee_eq).2] at hle
    have hall := hpays.scripts_eq
    rw [houtputs, List.mapM_append] at hall
    obtain ⟨payees, hpayees, hall⟩ := bind_ok.mp hall
    obtain ⟨changes, hchanges, hsplit⟩ := bind_ok.mp hall
    cases pure_ok.mp hsplit
    obtain ⟨script, _, hscript, hnil, rfl⟩ := List.forall₂_cons_left_iff.mp (mapM_ok.mp hchanges)
    obtain rfl := List.forall₂_nil_left_iff.mp hnil
    refine ⟨payees, [(script, true)], hpayees, .cons hscript .nil, hpays.scripts_eq, ?_⟩
    simp only [ceiling, List.map_cons, List.map_nil, List.sum_cons, List.sum_nil, if_true]
    omega

/-! ## Groups -/

theorem Settled.contribution_add {p : Settled} (h : p.remaining.toNat ≤ p.source.surplus.toNat) :
    p.contribution + (if p.keep then p.remaining.toNat else 0) = p.source.surplus.toNat := by
  unfold Settled.contribution Settled.change
  cases p.keep
  · simp
  · simp only [if_true, Option.map_some, Option.getD_some]
    omega

theorem total_contribution {parts : List Settled} (h : ∀ p ∈ parts, p.remaining.toNat ≤ p.source.surplus.toNat) :
    (parts.map (·.contribution)).sum + kept (parts.map (·.remaining)) (parts.map (·.keep)) =
      Word.total (parts.map (·.source.surplus)) := by
  induction parts with
  | nil => rfl
  | cons p rest ih =>
    obtain ⟨hp, hrest⟩ := List.forall_mem_cons.mp h
    have hsum := ih hrest
    have hfirst := Settled.contribution_add hp
    simp only [List.map_cons, List.sum_cons, kept_cons, Word.total_cons]
    omega

theorem sums_balanced {parts : List Settled} (h : ∀ p ∈ parts, worth p.group.available =
      paid p.group.recipients + (p.change.map UInt64.toNat).getD 0 + p.contribution) :
    (parts.map fun p => worth p.group.available).sum = (parts.map fun p => paid p.group.recipients).sum +
      (parts.map fun p => (p.change.map UInt64.toNat).getD 0).sum + (parts.map (·.contribution)).sum := by
  induction parts with
  | nil => rfl
  | cons p rest ih =>
    obtain ⟨hp, hrest⟩ := List.forall_mem_cons.mp h
    have hsum := ih hrest
    simp only [List.map_cons, List.sum_cons]
    omega

theorem changeScripts_start (b : Batch) :
    (b.changeScripts (b.startActive lib)).Sublist (b.sources.map (·.change)) := by
  obtain ⟨sources, _, _⟩ := b
  unfold Batch.changeScripts Batch.startActive
  simp only
  induction sources with
  | nil => simp
  | cons source sources ih =>
    by_cases hdust : lib.minimalNonDust source.change ≤ source.surplus
    · simpa [hdust] using ih
    · simpa [hdust] using ih.cons source.change

theorem settle_start {b : Batch} {remaining : List UInt64} (h : b.settle (b.startActive lib) = .ok remaining) :
    Word.total b.surplus ≤ kept remaining (b.startActive lib) + forgone (b.limits lib) (b.startActive lib) +
      exactFee b.available (b.recipientScripts ++ b.sources.map (·.change)) b.feeRate := by
  obtain ⟨fee, hfee, hallocated⟩ := bind_ok.mp h
  obtain ⟨-, rfl⟩ := allocateFee_ok.mp hallocated
  have hle : fee.toNat ≤ exactFee b.available (b.recipientScripts ++ b.sources.map (·.change)) b.feeRate := by
    rw [(predictedFee_ok.mp hfee).2]
    exact exactFee_mono (signedWeight_sublist ((changeScripts_start b).append_left _))
  have htotal := total_allocateFrom fee b.surplus
  have hbelow : List.Forall₂ (fun (value : UInt64) (source : Gathered) => value.toNat ≤ source.surplus.toNat)
      (allocateFrom fee b.surplus).1 b.sources := by
    have hmono := @allocateFrom_mono fee 0 b.surplus (Nat.zero_le _)
    rwa [allocateFrom_zero, Batch.surplus, List.forall₂_map_right_iff] at hmono
  have hstart := @total_le_start lib _ _ hbelow
  unfold Batch.startActive Batch.limits
  omega

theorem changes_filter (parts : List Settled) :
    ((parts.map fun p => (p.source.change, p.keep)).filter (·.2)).map (·.1) = parts.filterMap (·.changeScript) := by
  induction parts with
  | nil => rfl
  | cons p rest ih =>
    cases hkeep : p.keep <;> simp [Settled.changeScript, hkeep, ih]

theorem buildGrouped_bounded (h : buildGrouped lib groups rate = .ok t)
    (hrate : rate.satoshisPerKvb ≤ rate'.satoshisPerKvb) :
    ∃ payees changes, Bounded lib rate' t (groups.flatMap (·.recipients)) (groups.map (·.changeAddress)) payees
      changes := by
  obtain ⟨b, parts, scripts, fee, hc⟩ := buildGrouped_conserves h
  obtain ⟨hsources, rfl, hrecipients⟩ := hc.batch_eq
  obtain ⟨n, -, hturns⟩ := hc.terminates
  have hgroups := hc.groups_eq
  have hchange : ∀ p ∈ parts, lib.scriptPubkeyForNetwork p.group.changeAddress = .ok p.source.change :=
    fun p hp => (hc.notDust p hp).1
  have hpayees := scripts_of_checked hrecipients
  refine ⟨b.recipientScripts, parts.map fun p => (p.source.change, p.keep), hpayees, ?_, ?_, ?_⟩
  · rw [← hgroups, List.map_map, List.forall₂_map_left_iff, List.forall₂_map_right_iff, List.forall₂_same]
    exact hchange
  · rw [hc.outputs_eq, changes_filter]
    exact mapM_ok.mpr (List.rel_append (mapM_ok.mp hpayees) (scripts_of_changeOutputs hchange))
  · have hgathers : List.Forall₂ (Gathers lib) groups b.sources := by
      rw [← hgroups, hsources, List.forall₂_map_left_iff, List.forall₂_map_right_iff, List.forall₂_same]
      exact fun p hp => gather_ok (hc.gathered p hp)
    have hperm : b.available.Perm t.sources := (available_perm hgathers).trans hc.sources_perm.symm
    have hkept := turns_kept hturns (by simp [Batch.startActive]) fun _ hsettle => settle_start hsettle
    have hbelow := (shares_of_allocateFee hc.allocated).1
    have hsurplus : b.surplus = parts.map (·.source.surplus) := by
      rw [Batch.surplus, hsources, List.map_map]
      rfl
    have hcontributions := total_contribution hbelow
    have hworth : worth t.sources = paid t.outputs + (parts.map (·.contribution)).sum := by
      rw [worth_perm hc.sources_perm, hc.outputs_eq, paid_append, ← hgroups, List.flatMap_map, List.flatMap_map,
        worth_flatMap, paid_flatMap, paid_changeOutputs, sums_balanced hc.balanced]
    have hforgone : forgone (b.limits lib) (parts.map (·.keep)) =
        ((parts.map fun p => (p.source.change, p.keep)).map fun p =>
          if p.2 then 0 else (lib.minimalNonDust p.1).toNat).sum := by
      rw [forgone, Batch.limits, hsources, List.map_map, List.zip_map', List.map_map, List.map_map]
      rfl
    have hscripts : b.sources.map (·.change) = (parts.map fun p => (p.source.change, p.keep)).map (·.1) := by
      rw [hsources, List.map_map, List.map_map]
      rfl
    have hfee := @exactFee_rate b.feeRate rate' t.sources (b.recipientScripts ++ b.sources.map (·.change)) hrate
    rw [hsurplus, ← hcontributions, exactFee, signedWeight_perm hperm, ← exactFee] at hkept
    rw [ceiling, ← hscripts, ← hforgone, hworth]
    omega

end PaymentSdk.Bitcoin

namespace PaymentSdk.Bitcoin.Sending

open Signing Wallets

/-- What is sent is signed, and its fee is bounded at the limit of the rate. The planned weight of
the same outputs is off by what the witnesses leave of their plan. -/
structure Limited (c : Capabilities) (t : UnsignedTransaction) (signed : SignedTransaction) (tx : Transaction)
    (recipients : List Output) (addresses : List Address) (payees : List Script) (changes : List (Script × Bool)) :
    Prop where
  signed_eq : Signed c.secp c.lib t tx ∧ signed.consensusBytes = c.secp.serialize tx
  bounded : Bounded c.lib c.maxFeeRate t recipients addresses payees changes
  weight_eq : tx.weight + satisfaction t.sources =
    signedWeight t.sources (tx.output.map (·.scriptPubkey)) + witnessWeight tx

theorem limited {c : Capabilities} {rate : FeeRate} {available : List SpendSource} {t : UnsignedTransaction}
    {signers : List Signer} {signed : SignedTransaction} {recipients : List Output} {addresses : List Address}
    {payees : List Script} {changes : List (Script × Bool)} (hbuilt : Built c.lib rate available t)
    (hsign : signEach c.secp c.lib t signers = .ok signed)
    (hbounded : Bounded c.lib c.maxFeeRate t recipients addresses payees changes) :
    ∃ tx, Limited c t signed tx recipients addresses payees changes := by
  obtain ⟨⟨scripts, fee, hfunded⟩, hrate, -⟩ := built_funded hbuilt
  obtain ⟨-, tx, tx', htx, -, hbytes, -⟩ := signEach_ok hsign
  exact ⟨tx, ⟨htx, hbytes⟩, hbounded, htx.weight_eq (hfunded.nonempty hrate)⟩

/-- **The limit bounds the planned fee, and a source gives away less than its dust limit.** What is
prepared or batched under the limit pays at most the fee of its planned size at the limit, with an
output for the change of every source, and the dust limits of the sources without that output. -/
theorem fee_within_limit (c : Capabilities) :
    (∀ b signer t signed, prepare c b signer = .ok (t, signed) →
      ∃ r tx payees changes, request c b = .ok r ∧
        Limited c t signed tx r.recipients [b.source] payees changes) ∧
    ∀ transfers t signed, execute c transfers = .ok (t, signed) →
      ∃ g tx payees changes, grouping c transfers = .ok g ∧
        Limited c t signed tx (g.funding.flatMap (·.recipients)) (g.funding.map (·.changeAddress)) payees changes := by
  constructor
  · intro b signer t signed h
    simp only [prepare, bind_ok, mapError_ok, pure_ok, Prod.mk.injEq] at h
    obtain ⟨r, hr, _, hbuild, _, hsign, rfl, rfl⟩ := h
    obtain ⟨-, haddress, hdrain, hrate⟩ := request_ok hr
    obtain ⟨payees, changes, hbounded⟩ := build_bounded hbuild hdrain hrate
    obtain ⟨tx, hlimited⟩ := limited (.inl ⟨r, rfl, rfl, hbuild⟩) hsign hbounded
    exact ⟨r, tx, payees, changes, hr, haddress ▸ hlimited⟩
  · intro transfers t signed h
    simp only [execute, operation, bind_ok, mapError_ok, pure_ok, Prod.mk.injEq] at h
    obtain ⟨g, hg, _, hbuild, _, hsign, rfl, rfl⟩ := h
    obtain ⟨-, -, hrate⟩ := grouping_ok hg
    obtain ⟨payees, changes, hbounded⟩ := buildGrouped_bounded hbuild hrate
    obtain ⟨tx, hlimited⟩ := limited (.inr ⟨g.funding, rfl, hbuild⟩) hsign hbounded
    exact ⟨g, tx, payees, changes, hg, hlimited⟩

/-! ## A sample -/

def sampleBuilder (satoshis : Nat) : Builder where
  scope := ⟨⟨.lit "bitcoin" (Eq.refl true)⟩, .lit "regtest" (Eq.refl true)⟩
  network := .regtest
  source := sampleAddress
  recipients := [(sampleAddress, .normalize satoshis 8 (by decide))]

def sampleRequest (amount : UInt64) : BuildRequest :=
  ⟨[sampleSource 100000], [⟨sampleAddress, amount⟩], sampleAddress, ⟨1000⟩, false⟩

theorem sample_request (known : Transaction) :
    request (sampleCapabilities known 1000) (sampleBuilder 99700) = .ok (sampleRequest 99700) := by
  simp only [request, bind_ok, require_ok, unavailable, mapError_ok, pure_ok]
  refine ⟨(), builder_validate_ok.mpr ⟨rfl, rfl, sampleAddress, rfl⟩, (), by decide, _, rfl, [sampleSource 100000], rfl,
    [⟨sampleAddress, 99700⟩], ?_, ⟨1000⟩, rfl, (), UInt64.le_refl _, rfl⟩
  refine mapM_ok.mpr (.cons ?_ .nil)
  simp only [outputOf, bind_ok, pure_ok]
  exact ⟨99700, by decide, rfl⟩

def samplePaid : UnsignedTransaction := .fromSelected [sampleSource 100000] [⟨sampleAddress, 99700⟩]

theorem sample_prepare : prepare (sampleCapabilities (sampleSigned [99700]) 1000) (sampleBuilder 99700) sampleSigner =
    .ok (samplePaid, ⟨⟨List.replicate 32 2, rfl⟩, [1]⟩) := by
  have hbuild : (sampleRequest 99700).build sampleLibrary = .ok samplePaid := by decide +kernel
  simp only [prepare, bind_ok, mapError_ok, pure_ok]
  exact ⟨_, sample_request _, _, hbuild, _, rfl, rfl⟩

theorem fee_within_limit_sample :
    ∃ r tx payees changes, request (sampleCapabilities (sampleSigned [99700]) 1000) (sampleBuilder 99700) = .ok r ∧
      Limited (sampleCapabilities (sampleSigned [99700]) 1000) samplePaid ⟨⟨List.replicate 32 2, rfl⟩, [1]⟩ tx
        r.recipients [sampleAddress] payees changes :=
  (fee_within_limit _).1 (sampleBuilder 99700) sampleSigner samplePaid _ sample_prepare

/-- A rest of 190 satoshis is below the dust limit and goes to the fee, which is 300 satoshis for a
transaction of 110 virtual bytes. At the limit of 1000 satoshis for 1000 bytes it would be 110. -/
theorem fee_above_limit :
    (sampleSecp (sampleSigned [99700])).Sized ∧
      prepare (sampleCapabilities (sampleSigned [99700]) 1000) (sampleBuilder 99700) sampleSigner =
        .ok (samplePaid, ⟨⟨List.replicate 32 2, rfl⟩, [1]⟩) ∧
      sampleDecode (sampleSigned [99700]) [1] = .ok (sampleSigned [99700]) ∧
      (⟨1000⟩ : FeeRate).forVsize (.ofNat (sampleSigned [99700]).vsize) = .ok 110 ∧
      worth samplePaid.sources - paid samplePaid.outputs = 300 :=
  ⟨sampleSecp_sized _, sample_prepare, rfl, by decide, by decide⟩

end PaymentSdk.Bitcoin.Sending
