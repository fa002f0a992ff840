import PaymentSdk.Bitcoin.Contributions

/-!
# Batches that are refused

The loop begins with a change output for every group whose surplus is worth one, and it stops for
lack of funds when the surpluses do not cover the fee of that transaction. A batch that could only
pay for a smaller transaction is refused.
-/

open Checked

namespace PaymentSdk.Bitcoin

variable {lib : Library} {groups : List Funding} {rate : FeeRate} {recipientScripts changeScripts : List Script}

/-- Groups that pass every check but those of their funds, and whose sums and fees are words. -/
structure ValidGroups (lib : Library) (groups : List Funding) (rate : FeeRate)
    (recipientScripts changeScripts : List Script) : Prop where
  nonempty : groups ≠ []
  feeRate : rate.satoshisPerKvb ≠ 0
  filled : ∀ g ∈ groups, g.available ≠ [] ∧ g.recipients ≠ []
  distinct : ((groups.flatMap (·.available)).map (·.outpoint)).Nodup
  recipients : (groups.flatMap (·.recipients)).mapM (checkedOutput lib · false) = .ok recipientScripts
  change : groups.mapM (fun g => lib.scriptPubkeyForNetwork g.changeAddress) = .ok changeScripts
  inputs : ∀ g ∈ groups, worth g.available < 2 ^ 64
  outputs : ∀ g ∈ groups, paid g.recipients < 2 ^ 64
  fee : FeeFits (groups.flatMap (·.available)) (recipientScripts ++ changeScripts) rate

/-- Some group cannot pay its recipients, whatever the fee. -/
def Underfunded (groups : List Funding) : Prop := ∃ g ∈ groups, worth g.available < paid g.recipients

def Funding.surplus (g : Funding) : Nat := worth g.available - paid g.recipients

/-- All that the groups can pay of a fee. -/
def surpluses (groups : List Funding) : Nat := (groups.map (·.surplus)).sum

/-- The change outputs that the loop begins with. -/
def offeredChange (lib : Library) (groups : List Funding) (changeScripts : List Script) : List Script :=
  (groups.zip changeScripts).filterMap fun (g, script) =>
    if (lib.minimalNonDust script).toNat ≤ g.surplus then some script else none

/-- The batch is answered with insufficient funds. -/
def Refused (lib : Library) (groups : List Funding) (rate : FeeRate) : Prop :=
  ∃ e, buildGrouped lib groups rate = .error e ∧ e.kind = .insufficientFunds

/-! ## Gathering -/

theorem gather_of_valid (hvalid : ValidGroups lib groups rate recipientScripts changeScripts) {g : Funding}
    (hg : g ∈ groups) :
    if worth g.available < paid g.recipients then
      g.gather lib = .error (.insufficientFunds "a Bitcoin grouped source cannot fund its requested outputs")
    else ∃ source, g.gather lib = .ok source := by
  obtain ⟨input, hinput⟩ := Word.exists_toNat (hvalid.inputs g hg)
  obtain ⟨output, houtput⟩ := Word.exists_toNat (hvalid.outputs g hg)
  obtain ⟨script, -, hscript⟩ := mem_of_mapM hvalid.change hg
  have hinput_eq : Word.checkedSum ((byOutpoint g.available).map (·.value)) = some input := by
    rw [Word.checkedSum_some, hinput, ← worth_byOutpoint]
    rfl
  have houtput_eq : Word.checkedSum (g.recipients.map (·.value)) = some output := Word.checkedSum_some.mpr houtput
  have hfilled : ensure (g.available ≠ [] ∧ g.recipients ≠ [])
      (.invalidTransaction "each Bitcoin grouped source needs inputs and recipients") = .ok () :=
    ensure_ok.mpr (hvalid.filled g hg)
  simp only [Funding.gather, hfilled, hinput_eq, houtput_eq, okOr, bind, Except.bind, hscript]
  split_ifs with hlt
  · have hsub : Word.checkedSub input output = none := Word.checkedSub_none.mpr (by omega)
    rw [hsub]
  · cases hsub : Word.checkedSub input output with
    | none =>
      have := Word.checkedSub_none.mp hsub
      omega
    | some surplus => exact ⟨_, rfl⟩

theorem refused_of_underfunded (hvalid : ValidGroups lib groups rate recipientScripts changeScripts)
    (h : Underfunded groups) : Refused lib groups rate := by
  obtain ⟨g, hg, hlt⟩ := h
  have hgroup := gather_of_valid hvalid hg
  rw [if_pos hlt] at hgroup
  cases hgather : groups.mapM (Funding.gather lib) with
  | ok sources =>
    obtain ⟨source, -, hsource⟩ := mem_of_mapM hgather hg
    rw [hgroup] at hsource
    cases hsource
  | error e =>
    obtain ⟨front, x, back, rfl, hx, -⟩ := mapM_error.mp hgather
    have hfirst := gather_of_valid hvalid (g := x) (by simp)
    refine ⟨e, ?_, ?_⟩
    · have hstart : ensure (front ++ x :: back ≠ [] ∧ rate.satoshisPerKvb ≠ 0)
          (.invalidTransaction "Bitcoin grouped transfer needs sources and a positive fee rate") = .ok () :=
        ensure_ok.mpr ⟨hvalid.nonempty, hvalid.feeRate⟩
      simp only [buildGrouped, hstart, hgather, bind, Except.bind]
    · split_ifs at hfirst
      · rw [hx] at hfirst
        cases hfirst
        rfl
      · obtain ⟨source, hsource⟩ := hfirst
        rw [hx] at hsource
        cases hsource

/-! ## The loop -/

section

variable {b : Batch}

theorem changeLoop_of_covered (hne : b.available ≠ []) {active : List Bool}
    (hfits : FeeFits b.available (b.recipientScripts ++ b.changeScripts active) b.feeRate)
    (hcovered : exactFee b.available (b.recipientScripts ++ b.changeScripts active) b.feeRate ≤ Word.total b.surplus) :
    ∃ r, b.changeLoop lib active = .ok r := by
  fun_induction Batch.changeLoop lib b active with
  | case1 active e hsettle =>
    obtain ⟨fee, hfee, heq⟩ := exists_predictedFee hfits
    have hok : allocateFee b.surplus fee = .ok (allocateFrom fee b.surplus).1 :=
      allocateFee_ok.mpr ⟨by omega, rfl⟩
    simp only [Batch.settle, hfee, bind, Except.bind, hok] at hsettle
    cases hsettle
  | case2 active remaining hsettle hsame => exact ⟨_, rfl⟩
  | case3 active remaining hsettle hnext ih =>
    have hweight : signedWeight b.available (b.recipientScripts ++ b.changeScripts (b.stillActive lib remaining active)) ≤
        signedWeight b.available (b.recipientScripts ++ b.changeScripts active) :=
      signedWeight_scripts hne ((List.append_sublist_append_left _).mpr (changeScripts_sublist lib b remaining active))
    exact ih (hfits.mono hweight) (Nat.le_trans (exactFee_mono hweight) hcovered)

theorem changeLoop_error {active : List Bool} {fee : UInt64}
    (hfee : predictedFee b.available (b.recipientScripts ++ b.changeScripts active) b.feeRate = .ok fee)
    (hshort : Word.total b.surplus < fee.toNat) :
    b.changeLoop lib active =
      .error (.insufficientFunds "Bitcoin grouped sources cannot cover the network fee") := by
  have hsettle : b.settle active = .error (.insufficientFunds "Bitcoin grouped sources cannot cover the network fee") := by
    simp only [Batch.settle, hfee, bind, Except.bind]
    exact allocateFee_error.mpr ⟨hshort, rfl⟩
  rw [Batch.changeLoop, hsettle]

end

/-! ## The condition -/

theorem surplus_eq {g : Funding} {source : Gathered} (h : Gathers lib g source) :
    source.surplus.toNat = g.surplus := by
  rw [Funding.surplus, h.surplus, Nat.add_sub_cancel_left]

theorem total_surplus {b : Batch} (h : List.Forall₂ (Gathers lib) groups b.sources) :
    Word.total b.surplus = surpluses groups := by
  obtain ⟨sources, _, _⟩ := b
  unfold Batch.surplus surpluses
  simp only at h ⊢
  induction h with
  | nil => rfl
  | cons hsource _ ih => rw [List.map_cons, Word.total_cons, surplus_eq hsource, ih, List.map_cons, List.sum_cons]

theorem changeScripts_eq {sources : List Gathered} (h : List.Forall₂ (Gathers lib) groups sources)
    (hchange : groups.mapM (fun g => lib.scriptPubkeyForNetwork g.changeAddress) = .ok changeScripts) :
    changeScripts = sources.map (·.change) := by
  have hall : List.Forall₂ (fun g script => lib.scriptPubkeyForNetwork g.changeAddress = .ok script) groups
      (sources.map (·.change)) := by
    rw [List.forall₂_map_right_iff]
    exact h.imp fun _ _ h => h.change
  rw [mapM_ok.mpr hall] at hchange
  exact (Except.ok.inj hchange).symm

theorem startActive_offered {b : Batch} (h : List.Forall₂ (Gathers lib) groups b.sources) :
    b.changeScripts (b.startActive lib) = offeredChange lib groups (b.sources.map (·.change)) := by
  obtain ⟨sources, _, _⟩ := b
  unfold Batch.changeScripts Batch.startActive offeredChange
  simp only at h ⊢
  induction h with
  | nil => rfl
  | @cons g source _ _ hsource _ ih =>
    have hdust : lib.minimalNonDust source.change ≤ source.surplus ↔
        (lib.minimalNonDust source.change).toNat ≤ g.surplus := by
      rw [UInt64.le_iff_toNat_le, surplus_eq hsource]
    simp only [List.map_cons, List.zip_cons_cons, List.filterMap_cons, ih, decide_eq_true_eq, hdust]

theorem ValidGroups.available_ne (hvalid : ValidGroups lib groups rate recipientScripts changeScripts) :
    groups.flatMap (·.available) ≠ [] := by
  obtain ⟨g, hg⟩ := List.exists_mem_of_ne_nil _ hvalid.nonempty
  intro hnil
  exact (hvalid.filled g hg).1 (List.flatMap_eq_nil_iff.mp hnil g hg)

/-- A batch with its own funds is refused by the fee of its first transaction. -/
theorem refused_iff_short (hvalid : ValidGroups lib groups rate recipientScripts changeScripts)
    (hfunded : ¬ Underfunded groups) {offered : UInt64}
    (hoffered : predictedFee (groups.flatMap (·.available))
      (recipientScripts ++ offeredChange lib groups changeScripts) rate = .ok offered) :
    Refused lib groups rate ↔ surpluses groups < offered.toNat := by
  have hgroups : ∀ g ∈ groups, ∃ source, g.gather lib = .ok source := by
    intro g hg
    have hgroup := gather_of_valid hvalid hg
    rwa [if_neg fun hlt => hfunded ⟨g, hg, hlt⟩] at hgroup
  obtain ⟨sources, hgather⟩ := exists_mapM hgroups
  have hall : List.Forall₂ (Gathers lib) groups sources := (mapM_ok.mp hgather).imp fun _ _ h => gather_ok h
  have hperm := available_perm hall
  have hstart : ensure (groups ≠ [] ∧ rate.satoshisPerKvb ≠ 0)
      (.invalidTransaction "Bitcoin grouped transfer needs sources and a positive fee rate") = .ok () :=
    ensure_ok.mpr ⟨hvalid.nonempty, hvalid.feeRate⟩
  have hdistinct : ensure ((sources.flatMap (·.available)).map (·.outpoint)).Nodup
      (.invalidTransaction "Bitcoin transfer contains a duplicate UTXO") = .ok () :=
    ensure_ok.mpr ((hperm.map _).nodup_iff.mpr hvalid.distinct)
  have hrecipients : (sources.flatMap (·.recipients)).mapM (checkedOutput lib · false) = .ok recipientScripts := by
    rw [recipients_eq hall]
    exact hvalid.recipients
  generalize hb : (⟨sources, recipientScripts, rate⟩ : Batch) = b
  have hbuild : buildGrouped lib groups rate = (b.changeLoop lib (b.startActive lib)).bind fun settled =>
      .ok (.fromSelected b.available (b.recipients ++ b.changeOutputs settled.1 settled.2)) := by
    simp only [buildGrouped, hstart, hgather, hdistinct, hrecipients, bind, Except.bind, hb]
    rfl
  obtain ⟨rfl, rfl, rfl⟩ : b.sources = sources ∧ b.recipientScripts = recipientScripts ∧ b.feeRate = rate := by
    rw [← hb]
    exact ⟨rfl, rfl, rfl⟩
  change b.available.Perm _ at hperm
  rw [changeScripts_eq hall hvalid.change, ← startActive_offered hall, ← predictedFee_perm hperm] at hoffered
  rw [← total_surplus hall]
  constructor
  · rintro ⟨e, he, -⟩
    by_contra hcovered
    have hne : b.available ≠ [] := by
      intro hnil
      rw [hnil] at hperm
      exact hvalid.available_ne hperm.nil_eq.symm
    have hfee := (predictedFee_ok.mp hoffered).2
    obtain ⟨r, hloop⟩ : ∃ r, b.changeLoop lib (b.startActive lib) = .ok r :=
      changeLoop_of_covered hne (feeFits_of_ok hoffered) (by omega)
    rw [hbuild, hloop] at he
    cases he
  · intro hshort
    refine ⟨.insufficientFunds "Bitcoin grouped sources cannot cover the network fee", ?_, rfl⟩
    rw [hbuild, changeLoop_error hoffered hshort]
    rfl

theorem offeredChange_sublist (lib : Library) (groups : List Funding) (changeScripts : List Script) :
    (offeredChange lib groups changeScripts).Sublist changeScripts := by
  unfold offeredChange
  induction groups generalizing changeScripts with
  | nil => simp
  | cons g groups ih =>
    cases changeScripts with
    | nil => simp
    | cons script changeScripts =>
      rw [List.zip_cons_cons, List.filterMap_cons]
      by_cases hdust : (lib.minimalNonDust script).toNat ≤ g.surplus
      · simpa [hdust] using ih changeScripts
      · simpa [hdust] using (ih changeScripts).cons script

/-- **When a refusal is a lack of funds.** A batch is refused exactly when it cannot pay for the
transaction without change, unless its surpluses lie between the fee of that transaction and the
fee of the one with every change output that is offered first. -/
theorem grouped_refusal_iff (lib : Library) (groups : List Funding) (rate : FeeRate)
    (recipientScripts changeScripts : List Script)
    (hvalid : ValidGroups lib groups rate recipientScripts changeScripts) :
    ∃ fee offered, predictedFee (groups.flatMap (·.available)) recipientScripts rate = .ok fee ∧
      predictedFee (groups.flatMap (·.available)) (recipientScripts ++ offeredChange lib groups changeScripts) rate =
        .ok offered ∧
      (((∃ e, buildGrouped lib groups rate = .error e ∧ e.kind = .insufficientFunds) ↔
          Underfunded groups ∨ surpluses groups < fee.toNat) ↔
        (Underfunded groups ∨ surpluses groups < fee.toNat ∨ offered.toNat ≤ surpluses groups)) := by
  have hne := hvalid.available_ne
  have hless := signedWeight_scripts hne (List.sublist_append_left recipientScripts
    (offeredChange lib groups changeScripts))
  have hmore : signedWeight (groups.flatMap (·.available)) (recipientScripts ++ offeredChange lib groups changeScripts) ≤
      signedWeight (groups.flatMap (·.available)) (recipientScripts ++ changeScripts) :=
    signedWeight_scripts hne ((List.append_sublist_append_left _).mpr (offeredChange_sublist lib groups changeScripts))
  obtain ⟨offered, hoffered, hoffered_eq⟩ := exists_predictedFee (hvalid.fee.mono hmore)
  obtain ⟨fee, hfee, hfee_eq⟩ := exists_predictedFee ((hvalid.fee.mono hmore).mono hless)
  have hle : fee.toNat ≤ offered.toNat := by
    rw [hfee_eq, hoffered_eq]
    exact exactFee_mono hless
  refine ⟨fee, offered, hfee, hoffered, ?_⟩
  change (Refused lib groups rate ↔ _) ↔ _
  by_cases hfunded : Underfunded groups
  · have hrefused := refused_of_underfunded hvalid hfunded
    simp [hfunded, hrefused]
  · rw [refused_iff_short hvalid hfunded hoffered]
    simp only [hfunded, false_or]
    omega

theorem sampleAddress_script : sampleLibrary.scriptPubkeyForNetwork sampleAddress = .ok (sampleScript 7) := by
  decide

theorem sampleGroups_valid :
    ValidGroups sampleLibrary sampleGroups ⟨1000⟩ [sampleScript 7, sampleScript 7] [sampleScript 7, sampleScript 7] where
  nonempty := by simp [sampleGroups]
  feeRate := by decide
  filled := by simp [sampleGroups]
  distinct := by decide
  recipients := by decide
  change := by decide
  inputs := by decide
  outputs := by decide
  fee := ⟨by decide, by decide⟩

theorem grouped_refusal_iff_sample :
    ∃ fee offered,
      predictedFee [sampleCoin 0 30000, sampleCoin 1 50000] [sampleScript 7, sampleScript 7] ⟨1000⟩ = .ok fee ∧
      predictedFee [sampleCoin 0 30000, sampleCoin 1 50000]
        [sampleScript 7, sampleScript 7, sampleScript 7, sampleScript 7] ⟨1000⟩ = .ok offered ∧
      (((∃ e, buildGrouped sampleLibrary sampleGroups ⟨1000⟩ = .error e ∧ e.kind = .insufficientFunds) ↔
          Underfunded sampleGroups ∨ surpluses sampleGroups < fee.toNat) ↔
        (Underfunded sampleGroups ∨ surpluses sampleGroups < fee.toNat ∨ offered.toNat ≤ surpluses sampleGroups)) :=
  grouped_refusal_iff sampleLibrary sampleGroups ⟨1000⟩ [sampleScript 7, sampleScript 7]
    [sampleScript 7, sampleScript 7] sampleGroups_valid

def sampleGroup (amount : UInt64) : Funding := ⟨[sampleSource 100000], [⟨sampleAddress, amount⟩], sampleAddress⟩

theorem sampleGroup_valid {amount : UInt64} {rate : FeeRate} (hrate : rate.satoshisPerKvb ≠ 0)
    (hdust : 294 ≤ amount) (hfee : FeeFits [sampleSource 100000] [sampleScript 7, sampleScript 7] rate) :
    ValidGroups sampleLibrary [sampleGroup amount] rate [sampleScript 7] [sampleScript 7] where
  nonempty := by simp
  feeRate := hrate
  filled := by simp [sampleGroup]
  distinct := by simp [sampleGroup]
  recipients := by
    refine mapM_ok.mpr (.cons ?_ .nil)
    have hminimum : sampleLibrary.minimalNonDust (sampleScript 7) = 294 := by decide
    simp [checkedOutput, sampleAddress_script, hminimum, bind, Except.bind, ensure, hdust, pure, Except.pure]
  change := mapM_ok.mpr (.cons sampleAddress_script .nil)
  inputs := by simp [sampleGroup, worth, sampleSource]
  outputs := by
    have := amount.toNat_lt
    simpa [sampleGroup, paid] using this
  fee := hfee

/-- A surplus of 1200 pays the 1100 of a transaction without change, as the same request does
without groups, and is refused for the 1410 of one with change. -/
theorem grouped_refusal_fails :
    ValidGroups sampleLibrary [sampleGroup 98800] ⟨10000⟩ [sampleScript 7] [sampleScript 7] ∧
      predictedFee [sampleSource 100000] [sampleScript 7] ⟨10000⟩ = .ok 1100 ∧
      ¬ ((∃ e, buildGrouped sampleLibrary [sampleGroup 98800] ⟨10000⟩ = .error e ∧ e.kind = .insufficientFunds) ↔
        Underfunded [sampleGroup 98800] ∨ surpluses [sampleGroup 98800] < (1100 : UInt64).toNat) ∧
      BuildRequest.build sampleLibrary
        ⟨[sampleSource 100000], [⟨sampleAddress, 98800⟩], sampleAddress, ⟨10000⟩, false⟩ =
        .ok (.fromSelected [sampleSource 100000] [⟨sampleAddress, 98800⟩]) := by
  refine ⟨sampleGroup_valid (by decide) (by decide) ⟨by decide, by decide⟩, by decide, ?_, by decide +kernel⟩
  intro h
  have hrefused : buildGrouped sampleLibrary [sampleGroup 98800] ⟨10000⟩ =
      .error (.insufficientFunds "Bitcoin grouped sources cannot cover the network fee") := by decide +kernel
  obtain ⟨g, hg, hlt⟩ | hlt := h.mp ⟨_, hrefused, rfl⟩
  · rw [List.mem_singleton.mp hg] at hlt
    exact absurd hlt (by decide)
  · exact absurd hlt (by decide)

end PaymentSdk.Bitcoin
