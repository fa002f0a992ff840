import PaymentSdk.Bitcoin.Grouped

/-!
# What each group contributes

In a transaction that several groups fund, each of them pays for its own recipients, gets its own
change, and contributes the rest. The contributions cover the fee of the transaction that is
returned.
-/

open Checked

namespace PaymentSdk.Bitcoin

variable {lib : Library} {groups : List Funding} {rate : FeeRate} {t : UnsignedTransaction}

/-! ## Gathered groups -/

/-- A group and what was gathered of it. -/
structure Gathers (lib : Library) (group : Funding) (source : Gathered) : Prop where
  nonempty : group.available ≠ [] ∧ group.recipients ≠ []
  available : source.available = byOutpoint group.available
  recipients : source.recipients = group.recipients
  changeAddress : source.changeAddress = group.changeAddress
  surplus : worth group.available = paid group.recipients + source.surplus.toNat
  change : lib.scriptPubkeyForNetwork group.changeAddress = .ok source.change

theorem worth_byOutpoint (sources : List SpendSource) : worth (byOutpoint sources) = worth sources :=
  worth_perm (byOutpoint_perm sources)

theorem gather_ok {group : Funding} {source : Gathered} (h : group.gather lib = .ok source) :
    Gathers lib group source := by
  simp only [Funding.gather, bind_ok, okOr_ok, ensure_ok, pure_ok] at h
  obtain ⟨_, hne, input, hinput, output, houtput, surplus, hsurplus, change, hchange, rfl⟩ := h
  have hinput : input.toNat = worth (byOutpoint group.available) := Word.checkedSum_some.mp hinput
  have houtput : output.toNat = paid group.recipients := Word.checkedSum_some.mp houtput
  have hsurplus := Word.checkedSub_some.mp hsurplus
  exact ⟨hne, rfl, rfl, rfl, by rw [← worth_byOutpoint, ← hinput, hsurplus, houtput], hchange⟩

theorem available_perm {sources : List Gathered} (h : List.Forall₂ (Gathers lib) groups sources) :
    (sources.flatMap (·.available)).Perm (groups.flatMap (·.available)) := by
  induction h with
  | nil => exact .refl _
  | cons hsource _ ih =>
    rw [List.flatMap_cons, List.flatMap_cons, hsource.available]
    exact (byOutpoint_perm _).append ih

theorem recipients_eq {sources : List Gathered} (h : List.Forall₂ (Gathers lib) groups sources) :
    sources.flatMap (·.recipients) = groups.flatMap (·.recipients) := by
  induction h with
  | nil => rfl
  | cons hsource _ ih => rw [List.flatMap_cons, List.flatMap_cons, hsource.recipients, ih]

/-! ## Settled groups -/

/-- A group, what is left of its surplus in the last allocation, and whether that is its change. -/
structure Settled where
  group : Funding
  source : Gathered
  remaining : UInt64
  keep : Bool

namespace Settled

/-- What the group pays of the fee in the last allocation. -/
def share (p : Settled) : Nat := p.source.surplus.toNat - p.remaining.toNat

def change (p : Settled) : Option UInt64 := if p.keep then some p.remaining else none

/-- What the group pays to no one. -/
def contribution (p : Settled) : Nat := p.source.surplus.toNat - (p.change.map UInt64.toNat).getD 0

def changeOutput (p : Settled) : Option Output := p.change.map (⟨p.group.changeAddress, ·⟩)

def changeScript (p : Settled) : Option Script := if p.keep then some p.source.change else none

end Settled

theorem exists_settled {R : Funding → Gathered → Prop} {sources : List Gathered} {remaining : List UInt64}
    {active : List Bool} (h : List.Forall₂ R groups sources) (hremaining : remaining.length = sources.length)
    (hactive : active.length = sources.length) :
    ∃ parts : List Settled, parts.map (·.group) = groups ∧ parts.map (·.source) = sources ∧
      parts.map (·.remaining) = remaining ∧ parts.map (·.keep) = active ∧ ∀ p ∈ parts, R p.group p.source := by
  induction h generalizing remaining active with
  | nil =>
    rw [List.length_nil, List.length_eq_zero_iff] at hremaining hactive
    exact ⟨[], rfl, rfl, hremaining.symm, hactive.symm, by simp⟩
  | @cons group source _ _ hr _ ih =>
    cases remaining with
    | nil => simp at hremaining
    | cons value remaining =>
      cases active with
      | nil => simp at hactive
      | cons keep active =>
        obtain ⟨parts, hgroups, hsources, hvalues, hkeep, hall⟩ := ih (by simpa using hremaining)
          (by simpa using hactive)
        refine ⟨⟨group, source, value, keep⟩ :: parts, ?_, ?_, ?_, ?_, ?_⟩
        · rw [List.map_cons, hgroups]
        · rw [List.map_cons, hsources]
        · rw [List.map_cons, hvalues]
        · rw [List.map_cons, hkeep]
        · exact List.forall_mem_cons.mpr ⟨hr, hall⟩

/-! ## Sums over the groups -/

theorem worth_flatMap {α : Type} (f : α → List SpendSource) (l : List α) :
    worth (l.flatMap f) = (l.map fun x => worth (f x)).sum := by
  induction l with
  | nil => rfl
  | cons x rest ih =>
    rw [List.flatMap_cons, worth_append, ih, List.map_cons, List.sum_cons]

theorem paid_flatMap {α : Type} (f : α → List Output) (l : List α) :
    paid (l.flatMap f) = (l.map fun x => paid (f x)).sum := by
  induction l with
  | nil => rfl
  | cons x rest ih =>
    rw [List.flatMap_cons, paid_append, ih, List.map_cons, List.sum_cons]

theorem paid_changeOutputs (parts : List Settled) :
    paid (parts.filterMap (·.changeOutput)) = (parts.map fun p => (p.change.map UInt64.toNat).getD 0).sum := by
  induction parts with
  | nil => rfl
  | cons p rest ih =>
    rw [List.map_cons, List.sum_cons, ← ih, List.filterMap_cons]
    cases hchange : p.change <;> simp [Settled.changeOutput, hchange, paid]

theorem sums_covered {parts : List Settled}
    (h : ∀ p ∈ parts, worth p.group.available =
      paid p.group.recipients + (p.change.map UInt64.toNat).getD 0 + p.contribution ∧ p.share ≤ p.contribution) :
    (parts.map fun p => paid p.group.recipients).sum + (parts.map fun p => (p.change.map UInt64.toNat).getD 0).sum +
      (parts.map (·.share)).sum ≤ (parts.map fun p => worth p.group.available).sum := by
  induction parts with
  | nil => simp
  | cons p rest ih =>
    obtain ⟨⟨hworth, hshare⟩, hrest⟩ := List.forall_mem_cons.mp h
    have hle := ih hrest
    simp only [List.map_cons, List.sum_cons]
    omega

/-! ## The loop in terms of the groups -/

section

variable {b : Batch} {parts : List Settled} (hsources : b.sources = parts.map (·.source))

include hsources

theorem changeScripts_parts :
    b.changeScripts (parts.map (·.keep)) = parts.filterMap (·.changeScript) := by
  rw [Batch.changeScripts, hsources, List.zip_map', List.filterMap_map]
  rfl

theorem changeOutputs_parts (haddress : ∀ p ∈ parts, p.source.changeAddress = p.group.changeAddress) :
    b.changeOutputs (parts.map (·.remaining)) (parts.map (·.keep)) = parts.filterMap (·.changeOutput) := by
  rw [Batch.changeOutputs, hsources, List.zip_map', List.zip_map', List.filterMap_map]
  refine List.filterMap_congr ?_
  intro p hp
  cases hkeep : p.keep <;> simp [Settled.changeOutput, Settled.change, hkeep, haddress p hp]

theorem notDust_of_stillActive
    (h : b.stillActive lib (parts.map (·.remaining)) (parts.map (·.keep)) = parts.map (·.keep)) {p : Settled}
    (hp : p ∈ parts) {value : UInt64} (hvalue : value ∈ p.change) : lib.minimalNonDust p.source.change ≤ value := by
  rw [Batch.stillActive, hsources, List.zip_map', List.zipWith_map_left, List.zipWith_map_right, List.zipWith_self,
    List.map_inj_left] at h
  have hkeeps := h p hp
  cases hkeep : p.keep with
  | false => simp [Settled.change, hkeep] at hvalue
  | true =>
    simp only [Settled.change, hkeep, if_true, Option.mem_some_iff] at hvalue
    subst hvalue
    simpa [hkeep] using hkeeps

end

theorem scripts_of_changeOutputs {parts : List Settled}
    (h : ∀ p ∈ parts, lib.scriptPubkeyForNetwork p.group.changeAddress = .ok p.source.change) :
    List.Forall₂ (fun (o : Output) script => lib.scriptPubkeyForNetwork o.address = .ok script)
      (parts.filterMap (·.changeOutput)) (parts.filterMap (·.changeScript)) := by
  induction parts with
  | nil => exact .nil
  | cons p rest ih =>
    obtain ⟨hp, hrest⟩ := List.forall_mem_cons.mp h
    cases hkeep : p.keep with
    | false =>
      have hnone : p.changeOutput = none := by simp [Settled.changeOutput, Settled.change, hkeep]
      rw [List.filterMap_cons_none hnone, List.filterMap_cons_none (by simp [Settled.changeScript, hkeep])]
      exact ih hrest
    | true =>
      have hsome : p.changeOutput = some ⟨p.group.changeAddress, p.remaining⟩ := by
        simp [Settled.changeOutput, Settled.change, hkeep]
      have hscript : p.changeScript = some p.source.change := if_pos hkeep
      rw [List.filterMap_cons_some hsome, List.filterMap_cons_some hscript]
      exact .cons hp (ih hrest)

theorem shares_of_allocateFee {parts : List Settled} {fee : UInt64}
    (h : allocateFee (parts.map (·.source.surplus)) fee = .ok (parts.map (·.remaining))) :
    (∀ p ∈ parts, p.remaining.toNat ≤ p.source.surplus.toNat) ∧ (parts.map (·.share)).sum = fee.toNat ∧
      parts.Pairwise fun p q => 0 < q.share → p.remaining = 0 := by
  obtain ⟨hle, heq⟩ := allocateFee_ok.mp h
  obtain ⟨hremaining, hsum⟩ := allocateFrom_shares fee (parts.map (·.source.surplus))
  have hordered := allocateFrom_ordered fee (parts.map (·.source.surplus))
  rw [← heq, List.zip_map'] at hremaining hsum hordered
  refine ⟨?_, ?_, ?_⟩
  · intro p hp
    exact hremaining _ (List.mem_map_of_mem hp)
  · rw [Nat.min_eq_left hle, List.map_map] at hsum
    exact hsum
  · rw [List.pairwise_map] at hordered
    refine hordered.imp ?_
    intro p q hpays hshare
    exact hpays (Nat.lt_of_sub_pos hshare)

theorem Settled.balanced {p : Settled} (h : Gathers lib p.group p.source)
    (hle : p.remaining.toNat ≤ p.source.surplus.toNat) :
    worth p.group.available = paid p.group.recipients + (p.change.map UInt64.toNat).getD 0 + p.contribution ∧
      p.share ≤ p.contribution := by
  have hsurplus := h.surplus
  unfold Settled.contribution Settled.share Settled.change
  cases p.keep
  · simp only [Bool.false_eq_true, if_false, Option.map_none, Option.getD_none]
    omega
  · simp only [if_true, Option.map_some, Option.getD_some]
    omega

/-! ## Conservation -/

/-- The returned transaction, group by group, and the fee of exactly its inputs and outputs. -/
structure Conserves (lib : Library) (groups : List Funding) (rate : FeeRate) (t : UnsignedTransaction) (b : Batch)
    (parts : List Settled) (scripts : List Script) (fee : UInt64) : Prop where
  groups_eq : parts.map (·.group) = groups
  gathered : ∀ p ∈ parts, p.group.gather lib = .ok p.source
  sources_perm : t.sources.Perm (groups.flatMap (·.available))
  distinct : (t.sources.map (·.outpoint)).Nodup
  outputs_eq : t.outputs = groups.flatMap (·.recipients) ++ parts.filterMap (·.changeOutput)
  notDust : ∀ p ∈ parts, lib.scriptPubkeyForNetwork p.group.changeAddress = .ok p.source.change ∧
    ∀ value ∈ p.change, lib.minimalNonDust p.source.change ≤ value
  scripts_eq : t.outputs.mapM (fun o => lib.scriptPubkeyForNetwork o.address) = .ok scripts
  fee_eq : predictedFee t.sources scripts rate = .ok fee
  covered : paid t.outputs + fee.toNat ≤ worth t.sources
  balanced : ∀ p ∈ parts, worth p.group.available =
    paid p.group.recipients + (p.change.map UInt64.toNat).getD 0 + p.contribution
  /-- The last allocation of the fee, and the order in which the groups pay it. -/
  allocated : allocateFee (parts.map (·.source.surplus)) fee = .ok (parts.map (·.remaining))
  ordered : parts.Pairwise fun p q => 0 < q.share →
    p.contribution = worth p.group.available - paid p.group.recipients
  batch_eq : b.sources = parts.map (·.source) ∧ b.feeRate = rate ∧
    (groups.flatMap (·.recipients)).mapM (checkedOutput lib · false) = .ok b.recipientScripts
  terminates : ∃ n ≤ groups.length + 1,
    Turns lib b (b.startActive lib) n (parts.map (·.remaining)) (parts.map (·.keep))

theorem buildGrouped_ok (h : buildGrouped lib groups rate = .ok t) :
    ∃ (b : Batch) (remaining : List UInt64) (active : List Bool), groups.mapM (Funding.gather lib) = .ok b.sources ∧ b.feeRate = rate ∧
      (b.available.map (·.outpoint)).Nodup ∧
      b.recipients.mapM (checkedOutput lib · false) = .ok b.recipientScripts ∧
      b.changeLoop lib (b.startActive lib) = .ok (remaining, active) ∧
      t = .fromSelected b.available (b.recipients ++ b.changeOutputs remaining active) := by
  simp only [buildGrouped, bind_ok, ensure_ok, pure_ok] at h
  obtain ⟨_, _, sources, hsources, _, hdistinct, recipientScripts, hscripts, ⟨remaining, active⟩, hloop, rfl⟩ := h
  exact ⟨⟨sources, recipientScripts, rate⟩, remaining, active, hsources, rfl, hdistinct, hscripts, hloop, rfl⟩

theorem buildGrouped_conserves (h : buildGrouped lib groups rate = .ok t) :
    ∃ b parts scripts fee, Conserves lib groups rate t b parts scripts fee := by
  obtain ⟨b, remaining, active, hgather, hrate, hdistinct, hscripts, hloop, rfl⟩ := buildGrouped_ok h
  have hall := mapM_ok.mp hgather
  obtain ⟨n, hturns⟩ := changeLoop_turns hloop
  have hstart : (b.startActive lib).length = b.sources.length := by simp [Batch.startActive]
  obtain ⟨hsettle, hsame, hactive⟩ := turns_settled hturns hstart
  obtain ⟨parts, hgroups, hsources, rfl, rfl, hgathered⟩ := exists_settled hall (length_settle hsettle) hactive
  obtain ⟨fee, hfee, hallocated⟩ := bind_ok.mp hsettle
  have hgathers : ∀ p ∈ parts, Gathers lib p.group p.source := fun p hp => gather_ok (hgathered p hp)
  have hsurplus : b.surplus = parts.map (·.source.surplus) := by
    rw [Batch.surplus, ← hsources, List.map_map]
    rfl
  have hgathers₂ := hall.imp fun _ _ h => gather_ok h
  have havailable : b.available.Perm (groups.flatMap (·.available)) := available_perm hgathers₂
  have hrecipients : b.recipients = groups.flatMap (·.recipients) := recipients_eq hgathers₂
  have hchange := changeOutputs_parts hsources.symm fun p hp => (hgathers p hp).changeAddress
  have houtputs : b.recipients ++ b.changeOutputs (parts.map (·.remaining)) (parts.map (·.keep)) =
      groups.flatMap (·.recipients) ++ parts.filterMap (·.changeOutput) := by rw [hrecipients, hchange]
  rw [hsurplus] at hallocated
  obtain ⟨hremaining, hshares, hordered⟩ := shares_of_allocateFee hallocated
  have hbalanced : ∀ p ∈ parts, worth p.group.available =
      paid p.group.recipients + (p.change.map UInt64.toNat).getD 0 + p.contribution ∧ p.share ≤ p.contribution :=
    fun p hp => Settled.balanced (hgathers p hp) (hremaining p hp)
  refine ⟨b, parts, b.recipientScripts ++ b.changeScripts (parts.map (·.keep)), fee, ?_⟩
  constructor
  case groups_eq => exact hgroups
  case gathered => exact hgathered
  case sources_perm => simpa using havailable
  case distinct => simpa using hdistinct
  case outputs_eq => simpa using houtputs
  case notDust =>
    intro p hp
    exact ⟨(hgathers p hp).change, fun value hvalue => notDust_of_stillActive hsources.symm hsame hp hvalue⟩
  case scripts_eq =>
    rw [outputs_fromSelected, hchange, changeScripts_parts hsources.symm]
    refine mapM_ok.mpr (List.rel_append (mapM_ok.mp (scripts_of_checked hscripts)) ?_)
    exact scripts_of_changeOutputs fun p hp => (hgathers p hp).change
  case fee_eq =>
    rw [hrate] at hfee
    simpa using hfee
  case covered =>
    have hsums := sums_covered hbalanced
    rw [sources_fromSelected, outputs_fromSelected, houtputs, worth_perm havailable, paid_append, ← hgroups,
      List.flatMap_map, List.flatMap_map, worth_flatMap, paid_flatMap, paid_changeOutputs]
    omega
  case balanced => exact fun p hp => (hbalanced p hp).1
  case allocated => exact hallocated
  case ordered =>
    refine hordered.imp_of_mem ?_
    intro p q hp _ hzero hshare
    have hp := (hgathers p hp).surplus
    have hremaining := hzero hshare
    rw [hp, Settled.contribution, Settled.change, hremaining]
    cases p.keep <;> simp
  case batch_eq =>
    rw [← hrecipients]
    exact ⟨hsources.symm, hrate, hscripts⟩
  case terminates =>
    have hn := turns_le hturns hstart
    have hcount : (b.startActive lib).count true ≤ groups.length := by
      rw [hall.length_eq, ← hstart]
      exact List.count_le_length
    exact ⟨n, by omega, hturns⟩

/-- **Grouped funding conserves value for each source.** The loop ends, each group's inputs are its
recipients, its change and what it contributes, and the contributions cover the predicted fee in
the order of the groups. -/
theorem grouped_conserves (lib : Library) (groups : List Funding) (rate : FeeRate) (t : UnsignedTransaction)
    (h : buildGrouped lib groups rate = .ok t) :
    ∃ b parts scripts fee, Conserves lib groups rate t b parts scripts fee :=
  buildGrouped_conserves h

def sampleGroups : List Funding :=
  [⟨[sampleCoin 0 30000], [⟨sampleAddress, 29600⟩], sampleAddress⟩,
    ⟨[sampleCoin 1 50000], [⟨sampleAddress, 40000⟩], sampleAddress⟩]

/-- The first group pays the fee with all that it has left, since its change would be dust. -/
def sampleGrouped : UnsignedTransaction :=
  .fromSelected [sampleCoin 0 30000, sampleCoin 1 50000]
    [⟨sampleAddress, 29600⟩, ⟨sampleAddress, 40000⟩, ⟨sampleAddress, 10000⟩]

theorem grouped_conserves_sample :
    buildGrouped sampleLibrary sampleGroups ⟨1000⟩ = .ok sampleGrouped ∧
      ∃ b parts scripts fee, Conserves sampleLibrary sampleGroups ⟨1000⟩ sampleGrouped b parts scripts fee :=
  ⟨by decide +kernel, grouped_conserves _ _ _ _ (by decide +kernel)⟩

end PaymentSdk.Bitcoin
