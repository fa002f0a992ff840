import Mathlib.Algebra.GroupWithZero.Nat
import Mathlib.Order.Bounds.Basic
import PaymentSdk.Ethereum.Coordinator.Spec
import PaymentSdk.Lib.Checked

/-!
# Aggregate balances

A batch is checked once for each sender and asset: the amounts are grouped in an ordered map, the
groups are sorted by their first transfer, and the balances are read in that order until an
earlier failure is known. The outcome is that of checking every sum after every transfer.
-/

open Std Checked

namespace PaymentSdk.Ethereum

/-! ## Grouping -/

/-- Native before all tokens, and tokens by address. -/
def RequiredAsset.rank : RequiredAsset → List Address
  | native => []
  | erc20 token => [token]

abbrev AssetKey := Address × RequiredAsset

/-- The order of the map's keys. -/
def AssetKey.cmp : AssetKey → AssetKey → Ordering :=
  compareLex (compareOn (·.1)) (compareOn (·.2.rank))

instance : TransCmp AssetKey.cmp := by
  unfold AssetKey.cmp
  infer_instance

theorem rank_inj {a b : RequiredAsset} (h : a.rank = b.rank) : a = b := by
  cases a <;> cases b <;> simp_all [RequiredAsset.rank]

instance : LawfulEqCmp AssetKey.cmp where
  eq_of_compare {a b} h := by
    simp only [AssetKey.cmp, compareLex, compareOn, Ordering.then_eq_eq, LawfulEqCmp.compare_eq_iff_eq] at h
    exact Prod.ext h.1 (rank_inj h.2)

abbrev Contributions := Wei × List (Nat × Wei)

abbrev RequirementsByAsset := ExtTreeMap AssetKey Contributions AssetKey.cmp

namespace Requirements

/-- One more amount to pay, unless the total leaves 256 bits. -/
def add (values : RequirementsByAsset) (source : Address) (asset : RequiredAsset) (amount : Wei)
    (index : Nat) : Except PreparationError RequirementsByAsset :=
  let entry := values.getD (source, asset) (0, [])
  match Wei.checkedAdd entry.1 amount with
  | none => .error ⟨index, .insufficientFunds, "Ethereum aggregate asset requirement overflows U256"⟩
  | some total => .ok (values.insert (source, asset) (total, entry.2 ++ [(index, amount)]))

/-- What the draft takes from its sender's native balance. -/
def nativeAmount (index : Nat) (draft : Draft) : Except PreparationError Wei :=
  match Wei.checkedMul draft.context.maxFeePerGas draft.context.gasLimit with
  | none => .error ⟨index, .feeUnavailable, "Ethereum aggregate maximum fee overflows U256"⟩
  | some fee =>
    let request := draft.preparation.request
    match if request.erc20Transfer.isNone then Wei.checkedAdd fee request.value else some fee with
    | none => .error ⟨index, .insufficientFunds, "Ethereum aggregate native requirement overflows U256"⟩
    | some native => .ok native

/-- The token of a token transfer. -/
def addToken (values : RequirementsByAsset) (request : TransferRequest) (index : Nat) :
    Except PreparationError RequirementsByAsset :=
  match request.erc20Transfer with
  | none => .ok values
  | some (token, amount) => add values request.sender (.erc20 token) amount index

/-- Adds up what every draft needs. -/
def gather (index : Nat) (values : RequirementsByAsset) : List Draft →
    Except PreparationError RequirementsByAsset
  | [] => .ok values
  | draft :: rest => do
    let request := draft.preparation.request
    let native ← nativeAmount index draft
    let values ← add values request.sender .native native index
    let values ← addToken values request index
    gather (index + 1) values rest

def ofEntry (entry : AssetKey × Contributions) : Requirement :=
  ⟨entry.1.1, entry.1.2, entry.2.1, entry.2.2⟩

def fromDrafts (drafts : List Draft) : Except PreparationError (List Requirement) := do
  let values ← gather 0 ∅ drafts
  return (values.toList.map ofEntry).mergeSort fun a b => a.firstIndex ≤ b.firstIndex

end Requirements

/-! ## The check -/

/-- After the loop. -/
def concludeBalances : Option Nat → Except PreparationError Unit
  | some index =>
    .error ⟨index, .insufficientFunds, "Ethereum aggregate batch balance is insufficient"⟩
  | none => .ok ()

/-- The loop over the groups. It stops where no group can fail earlier. -/
def checkBalances (balance : Address → RequiredAsset → Except SourceError Wei) (insufficient : Option Nat) :
    List Requirement → Except PreparationError Unit
  | [] => concludeBalances insufficient
  | requirement :: rest =>
    if insufficient.any (· ≤ requirement.firstIndex) then concludeBalances insufficient
    else match balance requirement.source requirement.asset with
      | .error error => .error ⟨requirement.firstIndex, .fromRpc error⟩
      | .ok balance' =>
        if requirement.amount ≤ balance' then checkBalances balance insufficient rest
        else
          let index := requirement.failureIndex balance'
          checkBalances balance (some (insufficient.elim index (min · index))) rest

def ensureAggregateBalances (balance : Address → RequiredAsset → Except SourceError Wei)
    (drafts : List Draft) : Except PreparationError Unit := do
  let requirements ← Requirements.fromDrafts drafts
  checkBalances balance none requirements

/-! ## The naive sums -/

/-- What a draft takes from one sender's balance of one asset, if it takes anything. -/
def Draft.needs (draft : Draft) (key : AssetKey) : List Nat :=
  if key.1 ≠ draft.preparation.request.sender then []
  else match key.2, draft.preparation.request with
    | .native, .native _ _ value =>
      [draft.context.maxFeePerGas.val * draft.context.gasLimit.toNat + value.val]
    | .native, .erc20 _ _ _ _ => [draft.context.maxFeePerGas.val * draft.context.gasLimit.toNat]
    | .erc20 _, .native _ _ _ => []
    | .erc20 asset, .erc20 _ token _ amount => if asset = token then [amount.val] else []

/-- The sum over a list of drafts. -/
def required (key : AssetKey) (drafts : List Draft) : Nat := (drafts.flatMap (·.needs key)).sum

/-- The contributions to one group, with the index of each. -/
def contributed (key : AssetKey) : Nat → List Draft → List (Nat × Nat)
  | _, [] => []
  | index, draft :: rest => (draft.needs key).map (index, ·) ++ contributed key (index + 1) rest

/-- No total leaves 256 bits. -/
def NoOverflow (drafts : List Draft) : Prop := ∀ key, required key drafts < 2 ^ 256

@[simp]
theorem required_nil (key : AssetKey) : required key [] = 0 := rfl

@[simp]
theorem required_cons (key : AssetKey) (draft : Draft) (rest : List Draft) :
    required key (draft :: rest) = (draft.needs key).sum + required key rest := by
  simp [required]

theorem required_take_le (key : AssetKey) (drafts : List Draft) (n : Nat) :
    required key (drafts.take n) ≤ required key drafts := by
  induction drafts generalizing n with
  | nil => simp
  | cons draft rest ih =>
    cases n with
    | zero => simp
    | succ n =>
      rw [List.take_succ_cons, required_cons, required_cons]
      exact Nat.add_le_add_left (ih n) _

theorem sum_contributed (key : AssetKey) (index : Nat) (drafts : List Draft) :
    ((contributed key index drafts).map (·.2)).sum = required key drafts := by
  induction drafts generalizing index with
  | nil => rfl
  | cons draft rest ih => simp [contributed, ih]

/-! ## The map holds the contributions -/

/-- Each key of the map has its contributions and their sum. -/
structure Gathered (values : RequirementsByAsset) (c : AssetKey → List (Nat × Nat)) : Prop where
  absent : ∀ key, values[key]? = none → c key = []
  present : ∀ key e, values[key]? = some e →
    c key ≠ [] ∧ e.2.map (fun p => (p.1, p.2.val)) = c key ∧ e.1.val = ((c key).map (·.2)).sum

theorem gathered_getD {values : RequirementsByAsset} {c : AssetKey → List (Nat × Nat)}
    (h : Gathered values c) (key : AssetKey) :
    (values.getD key (0, [])).2.map (fun p => (p.1, p.2.val)) = c key ∧
      (values.getD key (0, [])).1.val = ((c key).map (·.2)).sum := by
  rw [ExtTreeMap.getD_eq_getD_getElem?]
  cases he : values[key]? with
  | none => simp [h.absent key he]
  | some e => exact (h.present key e he).2

theorem checkedAdd_of_lt {a b : Wei} (h : a.val + b.val < 2 ^ 256) :
    Wei.checkedAdd a b = some ⟨a.val + b.val, h⟩ := by
  rw [Wei.checkedAdd, dif_pos h]

/-- **Step.** One more contribution. -/
theorem gathered_add {values : RequirementsByAsset} {c : AssetKey → List (Nat × Nat)}
    (h : Gathered values c) {source : Address} {asset : RequiredAsset} {amount : Wei} {index : Nat}
    (hfits : ((c (source, asset)).map (·.2)).sum + amount.val < 2 ^ 256) :
    ∃ values', Requirements.add values source asset amount index = .ok values' ∧
      Gathered values' (Function.update c (source, asset) (c (source, asset) ++ [(index, amount.val)])) := by
  obtain ⟨hlist, hsum⟩ := gathered_getD h (source, asset)
  have hlt : (values.getD (source, asset) (0, [])).1.val + amount.val < 2 ^ 256 := by
    rw [hsum]
    exact hfits
  have hadd : Requirements.add values source asset amount index =
      .ok (values.insert (source, asset) (⟨_, hlt⟩,
        (values.getD (source, asset) (0, [])).2 ++ [(index, amount)])) := by
    simp only [Requirements.add, checkedAdd_of_lt hlt]
  refine ⟨_, hadd, ?_, ?_⟩
  · intro key hnone
    rw [ExtTreeMap.getElem?_insert] at hnone
    split_ifs at hnone with hkey
    rw [LawfulEqCmp.compare_eq_iff_eq] at hkey
    rw [Function.update_of_ne (Ne.symm hkey)]
    exact h.absent key hnone
  · intro key e he
    rw [ExtTreeMap.getElem?_insert] at he
    split_ifs at he with hkey
    · rw [LawfulEqCmp.compare_eq_iff_eq] at hkey
      subst hkey
      cases he
      rw [Function.update_self]
      refine ⟨by simp, ?_, ?_⟩
      · rw [List.map_append, hlist]
        rfl
      · rw [List.map_append, List.sum_append, ← hsum]
        simp
    · rw [LawfulEqCmp.compare_eq_iff_eq] at hkey
      rw [Function.update_of_ne (Ne.symm hkey)]
      exact h.present key e he

theorem nativeAmount_ok {index : Nat} {draft : Draft} {request : TransferRequest}
    (hrequest : draft.preparation.request = request)
    (h : (draft.needs (request.sender, .native)).sum < 2 ^ 256) :
    ∃ native, Requirements.nativeAmount index draft = .ok native ∧
      draft.needs (request.sender, .native) = [native.val] := by
  subst hrequest
  unfold Requirements.nativeAmount Draft.needs at *
  cases hr : draft.preparation.request with
  | native source destination value =>
    simp only [hr, TransferRequest.sender, ne_eq, not_true_eq_false, if_false, List.sum_singleton] at h ⊢
    have hfee : draft.context.maxFeePerGas.val * draft.context.gasLimit.toNat < 2 ^ 256 := by omega
    refine ⟨⟨_, h⟩, ?_, rfl⟩
    have hadd : Wei.checkedAdd ⟨_, hfee⟩ value = some ⟨_, h⟩ := checkedAdd_of_lt h
    simp only [Wei.checkedMul, dif_pos hfee, TransferRequest.erc20Transfer, Option.isNone_none, if_true,
      TransferRequest.value, hadd]
  | erc20 source token recipient amount =>
    simp only [hr, TransferRequest.sender, ne_eq, not_true_eq_false, if_false, List.sum_singleton] at h ⊢
    refine ⟨⟨_, h⟩, ?_, rfl⟩
    simp only [Wei.checkedMul, dif_pos h, TransferRequest.erc20Transfer, Option.isNone_some,
      Bool.false_eq_true, if_false]

theorem needs_erc20 {draft : Draft} {source token recipient : Address} {amount : Wei}
    (h : draft.preparation.request = .erc20 source token recipient amount) :
    draft.needs (source, .erc20 token) = [amount.val] := by
  simp [Draft.needs, h, TransferRequest.sender]

theorem needs_eq_nil {draft : Draft} {key : AssetKey}
    (hnative : key ≠ (draft.preparation.request.sender, .native))
    (htoken : ∀ token amount, draft.preparation.request.erc20Transfer = some (token, amount) →
      key ≠ (draft.preparation.request.sender, .erc20 token)) : draft.needs key = [] := by
  obtain ⟨source, asset⟩ := key
  unfold Draft.needs
  split_ifs with hsource
  · rfl
  · rw [not_not] at hsource
    subst hsource
    cases hr : draft.preparation.request with
    | native s d v =>
      rw [hr] at hnative
      cases asset with
      | native => exact absurd rfl hnative
      | erc20 t => rfl
    | erc20 s t r a =>
      rw [hr] at hnative htoken
      cases asset with
      | native => exact absurd rfl hnative
      | erc20 t' =>
        have : t' ≠ t := fun heq => htoken t a rfl (by rw [heq])
        simp [this]

/-- **Step.** One more draft. -/
theorem gathered_draft {draft : Draft} {index : Nat} {values : RequirementsByAsset}
    {c : AssetKey → List (Nat × Nat)} (h : Gathered values c)
    (hfits : ∀ key, ((c key).map (·.2)).sum + (draft.needs key).sum < 2 ^ 256) :
    ∃ native values1 values2, Requirements.nativeAmount index draft = .ok native ∧
      Requirements.add values draft.preparation.request.sender .native native index = .ok values1 ∧
      Requirements.addToken values1 draft.preparation.request index = .ok values2 ∧
      Gathered values2 fun key => c key ++ (draft.needs key).map (index, ·) := by
  set sender := draft.preparation.request.sender with hsender
  have hnativeFits := hfits (sender, .native)
  obtain ⟨native, hnative, hneeds⟩ := @nativeAmount_ok index draft _ rfl (by rw [← hsender]; omega)
  rw [← hsender] at hneeds
  rw [hneeds, List.sum_singleton] at hnativeFits
  obtain ⟨values1, hadd1, hgathered1⟩ := @gathered_add values c h sender .native native index hnativeFits
  refine ⟨native, values1, ?_⟩
  unfold Requirements.addToken
  rw [← hsender]
  cases hr : draft.preparation.request with
  | native source destination value =>
    refine ⟨values1, hnative, hadd1, rfl, ?_⟩
    convert hgathered1 using 1
    funext key
    by_cases hkey : key = (sender, .native)
    · rw [hkey, hneeds, Function.update_self]
      rfl
    · rw [Function.update_of_ne hkey, needs_eq_nil hkey (by simp [hr, TransferRequest.erc20Transfer])]
      simp
  | erc20 source token recipient amount =>
    have hsource : sender = source := by rw [hsender, hr]; rfl
    have htoken := needs_erc20 hr
    rw [← hsource] at htoken
    have hne : ((sender, .erc20 token) : AssetKey) ≠ (sender, .native) := by simp
    have htokenFits := hfits (sender, .erc20 token)
    rw [htoken, List.sum_singleton] at htokenFits
    obtain ⟨values2, hadd2, hgathered2⟩ := @gathered_add values1 _ hgathered1 sender (.erc20 token) amount
      index (by rw [Function.update_of_ne hne]; exact htokenFits)
    refine ⟨values2, hnative, hadd1, hadd2, ?_⟩
    convert hgathered2 using 1
    funext key
    by_cases hkey : key = (sender, .erc20 token)
    · rw [hkey, htoken, Function.update_self, Function.update_of_ne hne]
      rfl
    · rw [Function.update_of_ne hkey]
      by_cases hnkey : key = (sender, .native)
      · rw [hnkey, hneeds, Function.update_self]
        rfl
      · rw [Function.update_of_ne hnkey, needs_eq_nil hnkey]
        · simp
        · rw [hr]
          rintro t a hta
          cases hta
          rwa [← hr, ← hsender]

/-- **Run.** The map holds every contribution of the drafts. -/
theorem gathered_gather {drafts : List Draft} {index : Nat} {values : RequirementsByAsset}
    {c : AssetKey → List (Nat × Nat)} (h : Gathered values c)
    (hfits : ∀ key, ((c key).map (·.2)).sum + required key drafts < 2 ^ 256) :
    ∃ values', Requirements.gather index values drafts = .ok values' ∧
      Gathered values' fun key => c key ++ contributed key index drafts := by
  induction drafts generalizing index values c with
  | nil => exact ⟨values, rfl, by simpa [contributed] using h⟩
  | cons draft rest ih =>
    simp only [required_cons] at hfits
    obtain ⟨native, values1, values2, hnative, hadd, htoken, hgathered⟩ :=
      @gathered_draft draft index values c h fun key => by
        have := hfits key
        omega
    have hrestFits : ∀ key, ((c key ++ (draft.needs key).map (index, ·)).map (·.2)).sum +
        required key rest < 2 ^ 256 := by
      intro key
      have := hfits key
      simp only [List.map_append, List.sum_append, List.map_map, Function.comp_def, List.map_id']
      omega
    obtain ⟨values', hrest, hgathered'⟩ := @ih (index + 1) values2 _ hgathered hrestFits
    refine ⟨values', ?_, ?_⟩
    · rw [Requirements.gather]
      simp only [hnative, bind, Except.bind, hadd, htoken]
      exact hrest
    · convert hgathered' using 1
      funext key
      rw [contributed, List.append_assoc]

/-! ## The crossing index -/

/-- The sum of the contributions up to an index. -/
def upTo (c : List (Nat × Nat)) (i : Nat) : Nat := ((c.filter (·.1 ≤ i)).map (·.2)).sum

theorem upTo_of_lt {c : List (Nat × Nat)} {i : Nat} (h : ∀ p ∈ c, i < p.1) : upTo c i = 0 := by
  have : c.filter (·.1 ≤ i) = [] := by
    rw [List.filter_eq_nil_iff]
    intro p hp
    have := h p hp
    simp
    omega
  rw [upTo, this]
  rfl

theorem upTo_cons (k a : Nat) (c : List (Nat × Nat)) (i : Nat) :
    upTo ((k, a) :: c) i = (if k ≤ i then a else 0) + upTo c i := by
  unfold upTo
  by_cases h : k ≤ i
  · simp [h]
  · simp [h]

theorem lt_of_mem_contributed {key : AssetKey} {index : Nat} {drafts : List Draft} {p : Nat × Nat}
    (h : p ∈ contributed key index drafts) : index ≤ p.1 ∧ p.1 < index + drafts.length := by
  induction drafts generalizing index with
  | nil => simp [contributed] at h
  | cons draft rest ih =>
    rw [contributed, List.mem_append] at h
    rw [List.length_cons]
    rcases h with h | h
    · obtain ⟨n, -, rfl⟩ := List.mem_map.mp h
      simp
    · have := ih h
      omega

theorem upTo_contributed (key : AssetKey) (index : Nat) (drafts : List Draft) (i : Nat) :
    upTo (contributed key index drafts) (index + i) = required key (drafts.take (i + 1)) := by
  induction drafts generalizing index i with
  | nil => rfl
  | cons draft rest ih =>
    have hsplit : upTo (contributed key index (draft :: rest)) (index + i) =
        (draft.needs key).sum + upTo (contributed key (index + 1) rest) (index + i) := by
      unfold upTo
      rw [contributed, List.filter_append, List.filter_eq_self.mpr]
      · simp
      · intro p hp
        obtain ⟨n, -, rfl⟩ := List.mem_map.mp hp
        simp
    rw [hsplit, List.take_succ_cons, required_cons]
    cases i with
    | zero =>
      have hlater : upTo (contributed key (index + 1) rest) (index + 0) = 0 := by
        apply upTo_of_lt
        intro p hp
        have := (lt_of_mem_contributed hp).1
        omega
      rw [hlater, List.take_zero, required_nil]
    | succ i =>
      rw [show index + (i + 1) = index + 1 + i by omega, ih]

theorem contributed_ascending (key : AssetKey) (index : Nat) (drafts : List Draft) :
    (contributed key index drafts).Pairwise fun p q => p.1 < q.1 := by
  induction drafts generalizing index with
  | nil => exact List.Pairwise.nil
  | cons draft rest ih =>
    have hone : (draft.needs key).length ≤ 1 := by
      unfold Draft.needs
      split_ifs
      · simp
      · split
        · simp
        · simp
        · simp
        · split_ifs <;> simp
    rw [contributed, List.pairwise_append]
    refine ⟨?_, ih (index + 1), ?_⟩
    · match hn : draft.needs key, hone with
      | [], _ => exact List.Pairwise.nil
      | [n], _ => exact List.pairwise_singleton _ _
    · intro p hp q hq
      obtain ⟨n, -, rfl⟩ := List.mem_map.mp hp
      exact (lt_of_mem_contributed hq).1

/-- The running total first exceeds the balance at the failure index. -/
theorem failureIndexFrom_spec {c : List (Nat × Wei)} {fallback : Nat} {balance cumulative : Wei}
    (hsorted : c.Pairwise fun p q => p.1 < q.1) (hbelow : cumulative.val ≤ balance.val)
    (habove : balance.val < cumulative.val + (c.map fun p => p.2.val).sum)
    (hfits : cumulative.val + (c.map fun p => p.2.val).sum < 2 ^ 256) :
    let i := Requirement.failureIndexFrom fallback balance cumulative c
    (∃ p ∈ c, p.1 = i) ∧ balance.val < cumulative.val + upTo (c.map fun p => (p.1, p.2.val)) i ∧
      ∀ j < i, cumulative.val + upTo (c.map fun p => (p.1, p.2.val)) j ≤ balance.val := by
  induction c generalizing cumulative with
  | nil =>
    simp at habove
    omega
  | cons p rest ih =>
    obtain ⟨k, a⟩ := p
    obtain ⟨hk, hrest⟩ := List.pairwise_cons.mp hsorted
    simp only [List.map_cons, List.sum_cons] at habove hfits
    have hlater : ∀ j ≤ k, upTo (rest.map fun p => (p.1, p.2.val)) j = 0 := by
      intro j hj
      apply upTo_of_lt
      intro q hq
      obtain ⟨q', hq', rfl⟩ := List.mem_map.mp hq
      have := hk q' hq'
      omega
    have hadd : Wei.checkedAdd cumulative a = some ⟨cumulative.val + a.val, by omega⟩ :=
      checkedAdd_of_lt (by omega)
    simp only [Requirement.failureIndexFrom, hadd, List.map_cons, upTo_cons]
    by_cases hcross : balance.val < cumulative.val + a.val
    · rw [if_pos (by exact hcross)]
      refine ⟨⟨(k, a), List.mem_cons_self, rfl⟩, ?_, ?_⟩
      · rw [if_pos (Nat.le_refl k)]
        omega
      · intro j hj
        rw [hlater j (by omega), if_neg (by omega)]
        omega
    · rw [if_neg (by exact hcross)]
      have hnext := @ih ⟨cumulative.val + a.val, by omega⟩ hrest (by simp only; omega)
        (by simp only; omega) (by simp only; omega)
      simp only at hnext
      obtain ⟨⟨q, hq, hqi⟩, habove', hbelow'⟩ := hnext
      have hki := hk q hq
      rw [hqi] at hki
      refine ⟨⟨q, List.mem_cons_of_mem _ hq, hqi⟩, ?_, ?_⟩
      · rw [if_pos (by omega)]
        omega
      · intro j hj
        by_cases hkj : k ≤ j
        · rw [if_pos hkj]
          have := hbelow' j hj
          omega
        · rw [if_neg hkj, hlater j (by omega)]
          omega

/-! ## The groups of a batch -/

/-- The requirements are the groups with a contribution, in the order of the first one. -/
structure GroupsOf (drafts : List Draft) (requirements : List Requirement) : Prop where
  contributions : ∀ r ∈ requirements, contributed (r.source, r.asset) 0 drafts ≠ [] ∧
    r.contributions.map (fun p => (p.1, p.2.val)) = contributed (r.source, r.asset) 0 drafts ∧
    r.amount.val = required (r.source, r.asset) drafts
  complete : ∀ key, contributed key 0 drafts ≠ [] → ∃ r ∈ requirements, (r.source, r.asset) = key
  ascending : requirements.Pairwise fun a b => a.firstIndex ≤ b.firstIndex

theorem fromDrafts_groups {drafts : List Draft} (h : NoOverflow drafts) :
    ∃ requirements, Requirements.fromDrafts drafts = .ok requirements ∧ GroupsOf drafts requirements := by
  have hempty : Gathered ∅ fun _ => [] := ⟨fun _ _ => rfl, by simp⟩
  obtain ⟨values, hvalues, hgathered⟩ := @gathered_gather drafts 0 ∅ _ hempty (by intro key; simpa using h key)
  simp only [List.nil_append] at hgathered
  have hmem : ∀ r, r ∈ (values.toList.map Requirements.ofEntry).mergeSort
      (fun a b => a.firstIndex ≤ b.firstIndex) ↔
      ∃ key e, values[key]? = some e ∧ Requirements.ofEntry (key, e) = r := by
    intro r
    rw [List.mem_mergeSort, List.mem_map]
    constructor
    · rintro ⟨⟨key, e⟩, he, rfl⟩
      exact ⟨key, e, ExtTreeMap.mem_toList_iff_getElem?_eq_some.mp he, rfl⟩
    · rintro ⟨key, e, he, rfl⟩
      exact ⟨(key, e), ExtTreeMap.mem_toList_iff_getElem?_eq_some.mpr he, rfl⟩
  refine ⟨_, by rw [Requirements.fromDrafts, hvalues]; rfl, ?_, ?_, ?_⟩
  · intro r hr
    obtain ⟨key, e, he, rfl⟩ := (hmem r).mp hr
    obtain ⟨hne, hlist, hsum⟩ := hgathered.present key e he
    refine ⟨hne, hlist, ?_⟩
    rw [sum_contributed] at hsum
    exact hsum
  · intro key hne
    cases he : values[key]? with
    | none => exact absurd (hgathered.absent key he) hne
    | some e => exact ⟨Requirements.ofEntry (key, e), (hmem _).mpr ⟨key, e, he, rfl⟩, rfl⟩
  · have hpairwise : ((values.toList.map Requirements.ofEntry).mergeSort fun a b =>
        a.firstIndex ≤ b.firstIndex).Pairwise fun a b => decide (a.firstIndex ≤ b.firstIndex) = true := by
      apply List.pairwise_mergeSort
      · intro a b c hab hbc
        simp only [decide_eq_true_eq] at *
        omega
      · intro a b
        simp only [Bool.or_eq_true, decide_eq_true_eq]
        omega
    exact hpairwise.imp fun h => of_decide_eq_true h

/-! ## The check finds the least crossing -/

section Check

variable {balance : Address → RequiredAsset → Wei}

/-- The group's sum is above the balance. -/
def Short (balance : Address → RequiredAsset → Wei) (r : Requirement) : Prop :=
  (balance r.source r.asset).val < r.amount.val

/-- The index at which the group runs out. -/
def crossing (balance : Address → RequiredAsset → Wei) (r : Requirement) : Nat :=
  r.failureIndex (balance r.source r.asset)

theorem crossing_spec {drafts : List Draft} {requirements : List Requirement}
    (hgroups : GroupsOf drafts requirements) {r : Requirement} (hr : r ∈ requirements)
    (hshort : Short balance r) :
    r.firstIndex ≤ crossing balance r ∧ crossing balance r < drafts.length ∧
      (balance r.source r.asset).val <
        required (r.source, r.asset) (drafts.take (crossing balance r + 1)) ∧
      ∀ j < crossing balance r,
        required (r.source, r.asset) (drafts.take (j + 1)) ≤ (balance r.source r.asset).val := by
  obtain ⟨-, hlist, hamount⟩ := hgroups.contributions r hr
  have hsum : (r.contributions.map fun p => p.2.val).sum = r.amount.val := by
    have := congrArg (fun l => (l.map Prod.snd).sum) hlist
    simp only [List.map_map] at this
    rw [sum_contributed] at this
    rw [hamount, ← this]
    rfl
  have hsorted : r.contributions.Pairwise fun p q => p.1 < q.1 := by
    have := contributed_ascending (r.source, r.asset) 0 drafts
    rw [← hlist, List.pairwise_map] at this
    exact this
  unfold Short at hshort
  have hspec := @failureIndexFrom_spec r.contributions r.firstIndex (balance r.source r.asset) 0 hsorted
    (Nat.zero_le _) (by rw [hsum]; simpa using hshort) (by rw [hsum]; simp)
  rw [hlist] at hspec
  have hcross : Requirement.failureIndexFrom r.firstIndex (balance r.source r.asset) 0 r.contributions =
      crossing balance r := rfl
  simp only [hcross, Fin.val_zero, Nat.zero_add] at hspec
  obtain ⟨⟨p, hp, hpi⟩, habove, hbelow⟩ := hspec
  have hupTo : ∀ i, upTo (contributed (r.source, r.asset) 0 drafts) i =
      required (r.source, r.asset) (drafts.take (i + 1)) := by
    intro i
    have := upTo_contributed (r.source, r.asset) 0 drafts i
    rwa [Nat.zero_add] at this
  refine ⟨?_, ?_, ?_, ?_⟩
  · rw [← hpi]
    unfold Requirement.firstIndex
    cases hc : r.contributions with
    | nil =>
      rw [hc] at hp
      simp at hp
    | cons q rest =>
      rw [hc] at hp hsorted
      rcases List.mem_cons.mp hp with rfl | hp
      · exact Nat.le_refl _
      · exact Nat.le_of_lt ((List.pairwise_cons.mp hsorted).1 p hp)
  · have hmem : (p.1, p.2.val) ∈ contributed (r.source, r.asset) 0 drafts := by
      rw [← hlist]
      exact List.mem_map_of_mem hp
    have := (lt_of_mem_contributed hmem).2
    omega
  · rw [← hupTo]
    exact habove
  · intro j hj
    rw [← hupTo]
    exact hbelow j hj

/-- What the loop concludes from what it knows and from the groups that are left. -/
structure Concludes (balance : Address → RequiredAsset → Wei) (known : Option Nat)
    (rest : List Requirement) (m : Option Nat) : Prop where
  none : m = none → known = none ∧ ∀ r ∈ rest, ¬ Short balance r
  some : ∀ i, m = some i → (known = some i ∨ ∃ r ∈ rest, Short balance r ∧ crossing balance r = i) ∧
    (∀ j, known = some j → i ≤ j) ∧ ∀ r ∈ rest, Short balance r → i ≤ crossing balance r

theorem concludes_stop {r : Requirement} {rest : List Requirement} {k : Nat} (hk : k ≤ r.firstIndex)
    (hfirst : ∀ q ∈ r :: rest, Short balance q → q.firstIndex ≤ crossing balance q)
    (hsorted : (r :: rest).Pairwise fun a b => a.firstIndex ≤ b.firstIndex) :
    Concludes balance (some k) (r :: rest) (some k) := by
  refine ⟨by simp, ?_⟩
  rintro i hi
  cases hi
  refine ⟨.inl rfl, ?_, ?_⟩
  · rintro j hj
    cases hj
    exact Nat.le_refl k
  · intro q hq hshort
    have hle := hfirst q hq hshort
    rcases List.mem_cons.mp hq with rfl | hq
    · omega
    · have := (List.pairwise_cons.mp hsorted).1 q hq
      omega

theorem concludes_covered {known m : Option Nat} {r : Requirement} {rest : List Requirement}
    (h : Concludes balance known rest m) (hnot : ¬ Short balance r) :
    Concludes balance known (r :: rest) m := by
  obtain ⟨hnone, hsome⟩ := h
  refine ⟨?_, ?_⟩
  · intro hm
    obtain ⟨hknown, hall⟩ := hnone hm
    exact ⟨hknown, List.forall_mem_cons.mpr ⟨hnot, hall⟩⟩
  · intro i hi
    obtain ⟨hfrom, hleast, hall⟩ := hsome i hi
    refine ⟨hfrom.imp_right ?_, hleast, List.forall_mem_cons.mpr ⟨fun h => absurd h hnot, hall⟩⟩
    rintro ⟨q, hq, hshort⟩
    exact ⟨q, List.mem_cons_of_mem _ hq, hshort⟩

theorem concludes_crosses {known m : Option Nat} {r : Requirement} {rest : List Requirement}
    (h : Concludes balance (some (known.elim (crossing balance r) (min · (crossing balance r)))) rest m)
    (hshort : Short balance r) : Concludes balance known (r :: rest) m := by
  obtain ⟨hnone, hsome⟩ := h
  refine ⟨fun hm => absurd (hnone hm).1 (by simp), ?_⟩
  intro i hi
  obtain ⟨hfrom, hleast, hall⟩ := hsome i hi
  have hbound := hleast _ rfl
  refine ⟨?_, ?_, List.forall_mem_cons.mpr ⟨fun _ => ?_, hall⟩⟩
  · rcases hfrom with hfrom | ⟨q, hq, h⟩
    · cases known with
      | none => exact .inr ⟨r, List.mem_cons_self, hshort, Option.some.inj hfrom⟩
      | some k =>
        have hmin : min k (crossing balance r) = i := Option.some.inj hfrom
        rcases Nat.le_total k (crossing balance r) with hle | hle
        · rw [Nat.min_eq_left hle] at hmin
          exact .inl (congrArg some hmin)
        · rw [Nat.min_eq_right hle] at hmin
          exact .inr ⟨r, List.mem_cons_self, hshort, hmin⟩
    · exact .inr ⟨q, List.mem_cons_of_mem _ hq, h⟩
  · rintro j rfl
    simp only [Option.elim_some] at hbound
    omega
  · cases known with
    | none => exact hbound
    | some k =>
      simp only [Option.elim_some] at hbound
      omega

theorem checkBalances_spec {rest : List Requirement} {known : Option Nat}
    (hfirst : ∀ r ∈ rest, Short balance r → r.firstIndex ≤ crossing balance r)
    (hsorted : rest.Pairwise fun a b => a.firstIndex ≤ b.firstIndex) :
    ∃ m, checkBalances (fun s a => .ok (balance s a)) known rest = concludeBalances m ∧
      Concludes balance known rest m := by
  induction rest generalizing known with
  | nil =>
    refine ⟨known, rfl, fun h => ⟨h, by simp⟩, ?_⟩
    intro i hi
    refine ⟨.inl hi, ?_, by simp⟩
    intro j hj
    rw [hi] at hj
    cases hj
    exact Nat.le_refl i
  | cons r rest ih =>
    have hfirst' : ∀ r ∈ rest, Short balance r → r.firstIndex ≤ crossing balance r :=
      fun q hq => hfirst q (List.mem_cons_of_mem _ hq)
    have hsorted' := (List.pairwise_cons.mp hsorted).2
    by_cases hstop : known.any (· ≤ r.firstIndex) = true
    · cases known with
      | none => simp at hstop
      | some k =>
        exact ⟨some k, by rw [checkBalances, if_pos hstop], concludes_stop (by simpa using hstop) hfirst hsorted⟩
    · have hstep : checkBalances (fun s a => .ok (balance s a)) known (r :: rest) =
          if r.amount ≤ balance r.source r.asset then
            checkBalances (fun s a => .ok (balance s a)) known rest
          else checkBalances (fun s a => .ok (balance s a))
            (some (known.elim (crossing balance r) (min · (crossing balance r)))) rest := by
        rw [checkBalances, if_neg hstop]
        rfl
      rw [hstep]
      by_cases hcovered : r.amount ≤ balance r.source r.asset
      · rw [if_pos hcovered]
        obtain ⟨m, hm, hconcludes⟩ := @ih known hfirst' hsorted'
        exact ⟨m, hm, concludes_covered hconcludes (Nat.not_lt.mpr hcovered)⟩
      · rw [if_neg hcovered]
        obtain ⟨m, hm, hconcludes⟩ :=
          @ih (some (known.elim (crossing balance r) (min · (crossing balance r)))) hfirst' hsorted'
        exact ⟨m, hm, concludes_crosses hconcludes (Nat.lt_of_not_le hcovered)⟩

end Check

/-- **Aggregate balances.** With fixed balances and no overflow, the check succeeds if and only if
every sum is covered, and otherwise reports the least transfer at which some sum is not. -/
theorem aggregate_balances (drafts : List Draft) (hfits : NoOverflow drafts)
    (balance : Address → RequiredAsset → Wei) :
    (ensureAggregateBalances (fun s a => .ok (balance s a)) drafts = .ok () ↔
        ∀ s a, required (s, a) drafts ≤ (balance s a).val) ∧
      (ensureAggregateBalances (fun s a => .ok (balance s a)) drafts ≠ .ok () →
        ∃ i, ensureAggregateBalances (fun s a => .ok (balance s a)) drafts =
            .error ⟨i, .insufficientFunds, "Ethereum aggregate batch balance is insufficient"⟩ ∧
          IsLeast {i | i < drafts.length ∧
            ∃ s a, (balance s a).val < required (s, a) (drafts.take (i + 1))} i) := by
  obtain ⟨requirements, hfrom, hgroups⟩ := fromDrafts_groups hfits
  obtain ⟨m, hm, hnone, hsome⟩ := @checkBalances_spec balance requirements none
    (fun r hr hshort => (crossing_spec hgroups hr hshort).1) hgroups.ascending
  have hensure : ensureAggregateBalances (fun s a => .ok (balance s a)) drafts = concludeBalances m := by
    rw [ensureAggregateBalances, hfrom, ← hm]
    rfl
  -- A sum that is not covered belongs to a group that is short.
  have hgroup : ∀ s a, (balance s a).val < required (s, a) drafts →
      ∃ r ∈ requirements, (r.source, r.asset) = (s, a) ∧ Short balance r := by
    intro s a hlt
    have hne : contributed (s, a) 0 drafts ≠ [] := by
      intro hnil
      rw [← sum_contributed (s, a) 0, hnil] at hlt
      simp at hlt
    obtain ⟨r, hr, hkey⟩ := hgroups.complete (s, a) hne
    refine ⟨r, hr, hkey, ?_⟩
    obtain ⟨rfl, rfl⟩ := Prod.mk.inj hkey
    rw [Short, (hgroups.contributions r hr).2.2]
    exact hlt
  rw [hensure]
  cases m with
  | none =>
    obtain ⟨-, hall⟩ := hnone rfl
    refine ⟨⟨fun _ s a => ?_, fun _ => rfl⟩, fun h => absurd rfl h⟩
    by_contra hlt
    obtain ⟨r, hr, -, hshort⟩ := hgroup s a (by omega)
    exact hall r hr hshort
  | some i =>
    obtain ⟨hfound, -, hleast⟩ := hsome i rfl
    obtain ⟨r, hr, hshort, rfl⟩ := hfound.resolve_left (by simp)
    obtain ⟨-, hlength, habove, -⟩ := crossing_spec hgroups hr hshort
    refine ⟨⟨(fun h => nomatch h), ?_⟩, fun _ => ⟨_, rfl, ⟨hlength, _, _, habove⟩, ?_⟩⟩
    · intro h
      have hcovered := h r.source r.asset
      rw [← (hgroups.contributions r hr).2.2] at hcovered
      exact absurd hshort (Nat.not_lt.mpr hcovered)
    · rintro j ⟨-, s, a, hj⟩
      obtain ⟨q, hq, hkey, hqshort⟩ := hgroup s a (Nat.lt_of_lt_of_le hj (required_take_le (s, a) drafts _))
      obtain ⟨rfl, rfl⟩ := Prod.mk.inj hkey
      have hle := hleast q hq hqshort
      by_contra hlt
      have := (crossing_spec hgroups hq hqshort).2.2.2 j (by omega)
      omega

/-- A native transfer of the given value from sender `[1]`, with a fee of 1. -/
def paying (value : Wei) : Draft where
  preparation := ⟨.native [1] [2] value, 1⟩
  context := ⟨1, 0, 1, 1, 1⟩

theorem paying_noOverflow : NoOverflow [paying 4, paying 5] := by
  rintro ⟨source, asset⟩
  have hle : ∀ value : Wei, value.val ≤ 5 → ((paying value).needs (source, asset)).sum ≤ 6 := by
    intro value hvalue
    unfold Draft.needs
    split_ifs
    · simp
    · cases asset with
      | native =>
        simp [paying]
        omega
      | erc20 _ => simp [paying]
  have h4 := hle 4 (by decide)
  have h5 := hle 5 (by decide)
  simp only [required_cons, required_nil]
  omega

/-- A balance of 10 covers the first payment and its fee, but not both. -/
theorem aggregate_balances_sample :
    ∃ i, ensureAggregateBalances (fun _ _ => .ok 10) [paying 4, paying 5] =
      .error ⟨i, .insufficientFunds, "Ethereum aggregate batch balance is insufficient"⟩ := by
  obtain ⟨hiff, hleast⟩ := aggregate_balances [paying 4, paying 5] paying_noOverflow fun _ _ => 10
  have hfails : ensureAggregateBalances (fun _ _ => .ok 10) [paying 4, paying 5] ≠ .ok () := by
    intro hok
    have := hiff.mp hok [1] .native
    revert this
    decide
  obtain ⟨i, hi, -⟩ := hleast hfails
  exact ⟨i, hi⟩

end PaymentSdk.Ethereum
