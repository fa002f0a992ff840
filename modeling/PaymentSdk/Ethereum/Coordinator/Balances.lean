import PaymentSdk.Ethereum.Requirements
import PaymentSdk.Lib.StableSort

/-!
# The coordinator makes the aggregate check

A preparation keeps its groups in a list, in the order in which they appear, and reads one balance
at an await. The list is the sorted map, and the polls come to what `ensureAggregateBalances` gives.
-/

open Std Checked

namespace PaymentSdk.Ethereum

/-! ## The list is the sorted map -/

namespace Requirement

def key (r : Requirement) : AssetKey := (r.source, r.asset)

/-- Where the group stands in the order, which later contributions do not change. -/
def stamp (r : Requirement) : Nat × AssetKey := (r.firstIndex, r.key)

/-- The requirement an asset starts with. -/
def first (source : Address) (asset : RequiredAsset) (amount : Wei) (index : Nat) : Requirement :=
  ⟨source, asset, amount, [(index, amount)]⟩

/-- The requirement after one more draft. -/
def extended (r : Requirement) (total amount : Wei) (index : Nat) : Requirement :=
  { r with amount := total, contributions := r.contributions ++ [(index, amount)] }

end Requirement

theorem stamp_extended {r : Requirement} (total amount : Wei) (index : Nat) (h : r.contributions ≠ []) :
    (r.extended total amount index).stamp = r.stamp := by
  obtain ⟨source, asset, amount', contributions⟩ := r
  cases contributions with
  | nil => exact absurd rfl h
  | cons _ _ => rfl

/-- By the first transfer, and within one transfer by the key. -/
def Precedes (s t : Nat × AssetKey) : Prop := s.1 ≤ t.1 ∧ (t.1 ≤ s.1 → AssetKey.cmp s.2 t.2 = .lt)

/-- Each key once, in order, and all of them so far. -/
structure Arranged (P : Nat × AssetKey → Prop) (stamps : List (Nat × AssetKey)) : Prop where
  distinct : (stamps.map (·.2)).Nodup
  ordered : stamps.Pairwise Precedes
  within : ∀ s ∈ stamps, P s

/-- The groups of the list are the entries of the map. -/
structure Lists (P : Nat × AssetKey → Prop) (requirements : List Requirement) (values : RequirementsByAsset) :
    Prop where
  lookup : ∀ key, values[key]? =
    (requirements.find? (·.key = key)).map fun r => (r.amount, r.contributions)
  started : ∀ r ∈ requirements, r.contributions ≠ []
  arranged : Arranged P (requirements.map (·.stamp))

variable {source : Address} {asset : RequiredAsset} {amount : Wei} {index : Nat}

theorem addRequirement_new {requirements : List Requirement}
    (h : ∀ r ∈ requirements, r.key ≠ (source, asset)) :
    addRequirement source asset amount index requirements =
      .ok (requirements ++ [.first source asset amount index]) := by
  induction requirements with
  | nil => rfl
  | cons r rest ih =>
    obtain ⟨hr, hrest⟩ := List.forall_mem_cons.mp h
    have hne : ¬ (r.source = source ∧ r.asset = asset) := fun heq => hr (Prod.ext heq.1 heq.2)
    rw [addRequirement, if_neg hne, ih hrest]
    rfl

theorem addRequirement_old {front back : List Requirement} {r : Requirement} (hr : r.key = (source, asset))
    (h : ∀ q ∈ front, q.key ≠ (source, asset)) :
    addRequirement source asset amount index (front ++ r :: back) =
      match Wei.checkedAdd r.amount amount with
      | none => .error ⟨index, .insufficientFunds, "Ethereum aggregate asset requirement overflows U256"⟩
      | some total => .ok (front ++ r.extended total amount index :: back) := by
  induction front with
  | nil =>
    have heq : r.source = source ∧ r.asset = asset := Prod.mk.inj hr
    rw [List.nil_append, addRequirement, if_pos heq]
    rfl
  | cons q front ih =>
    obtain ⟨hq, hfront⟩ := List.forall_mem_cons.mp h
    have hne : ¬ (q.source = source ∧ q.asset = asset) := fun heq => hq (Prod.ext heq.1 heq.2)
    rw [List.cons_append, addRequirement, if_neg hne, ih hfront]
    cases Wei.checkedAdd r.amount amount <;> rfl

theorem Lists.getD_eq {P : Nat × AssetKey → Prop} {requirements : List Requirement} {values : RequirementsByAsset}
    (h : Lists P requirements values) (key : AssetKey) :
    values.getD key (0, []) =
      (requirements.find? (·.key = key)).elim (0, []) fun r => (r.amount, r.contributions) := by
  rw [ExtTreeMap.getD_eq_getD_getElem?, h.lookup]
  cases requirements.find? (·.key = key) <;> rfl

theorem Lists.weaken {P Q : Nat × AssetKey → Prop} {requirements : List Requirement} {values : RequirementsByAsset}
    (h : Lists P requirements values) (hP : ∀ s, P s → Q s) : Lists Q requirements values :=
  ⟨h.lookup, h.started, h.arranged.distinct, h.arranged.ordered, fun s hs => hP s (h.arranged.within s hs)⟩

theorem Arranged.append {P Q : Nat × AssetKey → Prop} {stamps : List (Nat × AssetKey)} {s : Nat × AssetKey}
    (h : Arranged P stamps) (hP : ∀ t, P t → Q t) (hs : Q s) (hne : ∀ t ∈ stamps, t.2 ≠ s.2)
    (hlast : ∀ t ∈ stamps, Precedes t s) : Arranged Q (stamps ++ [s]) := by
  refine ⟨?_, ?_, ?_⟩
  · rw [List.map_append, List.nodup_append]
    refine ⟨h.distinct, by simp, ?_⟩
    intro key hkey
    obtain ⟨t, ht, rfl⟩ := List.mem_map.mp hkey
    simpa using hne t ht
  · rw [List.pairwise_append]
    exact ⟨h.ordered, List.pairwise_singleton _ _, by simpa using hlast⟩
  · intro t ht
    rcases List.mem_append.mp ht with ht | ht
    · exact hP t (h.within t ht)
    · rw [List.mem_singleton.mp ht]
      exact hs

/-- A group starts at the end of the list. -/
theorem Lists.starts {P Q : Nat × AssetKey → Prop} {requirements : List Requirement} {values : RequirementsByAsset}
    (h : Lists P requirements values) (hP : ∀ s, P s → Q s) (hnew : Q (index, source, asset))
    (hlast : ∀ s, P s → s.2 ≠ (source, asset) → Precedes s (index, source, asset))
    (hne : ∀ r ∈ requirements, r.key ≠ (source, asset)) :
    Lists Q (requirements ++ [.first source asset amount index])
      (values.insert (source, asset) (amount, [(index, amount)])) := by
  have hfind : requirements.find? (·.key = (source, asset)) = none := by simpa using hne
  refine ⟨?_, ?_, ?_⟩
  · intro key
    rw [ExtTreeMap.getElem?_insert, List.find?_append]
    split_ifs with hkey
    · rw [LawfulEqCmp.compare_eq_iff_eq] at hkey
      subst hkey
      rw [hfind]
      simp [Requirement.first, Requirement.key]
    · rw [LawfulEqCmp.compare_eq_iff_eq] at hkey
      have hdiff : (Requirement.first source asset amount index).key ≠ key := hkey
      have hother : [Requirement.first source asset amount index].find? (·.key = key) = none := by
        simp [hdiff]
      rw [h.lookup key, hother, Option.or_none]
  · intro r hr
    rcases List.mem_append.mp hr with hr | hr
    · exact h.started r hr
    · rw [List.mem_singleton.mp hr]
      simp [Requirement.first]
  · rw [List.map_append]
    refine h.arranged.append hP hnew ?_ ?_
    · intro t ht
      obtain ⟨r, hr, rfl⟩ := List.mem_map.mp ht
      exact hne r hr
    · intro t ht
      obtain ⟨r, hr, rfl⟩ := List.mem_map.mp ht
      exact hlast _ (h.arranged.within _ ht) (hne r hr)

theorem Lists.extends {P Q : Nat × AssetKey → Prop} {front back : List Requirement} {r : Requirement}
    {values : RequirementsByAsset} (h : Lists P (front ++ r :: back) values) (hP : ∀ s, P s → Q s)
    (hr : r.key = (source, asset)) (hfront : ∀ q ∈ front, q.key ≠ (source, asset)) (total : Wei) :
    Lists Q (front ++ r.extended total amount index :: back)
      (values.insert (source, asset) (total, r.contributions ++ [(index, amount)])) := by
  have hstarted : r.contributions ≠ [] := h.started r (by simp)
  have hextended : (r.extended total amount index).key = (source, asset) := hr
  refine ⟨?_, ?_, ?_⟩
  · intro key
    rw [ExtTreeMap.getElem?_insert]
    split_ifs with hkey
    · rw [LawfulEqCmp.compare_eq_iff_eq] at hkey
      subst hkey
      have hnone : front.find? (·.key = (source, asset)) = none := by simpa using hfront
      rw [List.find?_append, hnone, Option.none_or, List.find?_cons_of_pos (by simpa using hextended)]
      rfl
    · rw [LawfulEqCmp.compare_eq_iff_eq] at hkey
      rw [h.lookup key, List.find?_append, List.find?_append, List.find?_cons_of_neg (by simpa [hr] using hkey),
        List.find?_cons_of_neg (by simpa [hextended] using hkey)]
  · intro q hq
    rcases List.mem_append.mp hq with hq | hq
    · exact h.started q (List.mem_append_left _ hq)
    · rcases List.mem_cons.mp hq with rfl | hq
      · simp [Requirement.extended]
      · exact h.started q (by simp [hq])
  · have hstamps : (front ++ r.extended total amount index :: back).map (·.stamp) =
        (front ++ r :: back).map (·.stamp) := by
      simp only [List.map_append, List.map_cons, stamp_extended total amount index hstarted]
    rw [hstamps]
    exact ⟨h.arranged.distinct, h.arranged.ordered, fun s hs => hP s (h.arranged.within s hs)⟩

/-- **Step.** One more contribution. -/
theorem addRequirement_agree {P Q : Nat × AssetKey → Prop} {requirements : List Requirement}
    {values : RequirementsByAsset} (h : Lists P requirements values) (hP : ∀ s, P s → Q s)
    (hnew : Q (index, source, asset))
    (hlast : ∀ s, P s → s.2 ≠ (source, asset) → Precedes s (index, source, asset)) :
    Agree (Lists Q) (addRequirement source asset amount index requirements)
      (Requirements.add values source asset amount index) := by
  have hentry := h.getD_eq (source, asset)
  cases hfind : requirements.find? (·.key = (source, asset)) with
  | none =>
    rw [hfind] at hentry
    have hne : ∀ r ∈ requirements, r.key ≠ (source, asset) := by simpa using hfind
    have hzero : Wei.checkedAdd 0 amount = some amount := by
      rw [checkedAdd_of_lt (by simp)]
      simp
    simp only [addRequirement_new hne, Requirements.add, hentry, Option.elim_none, hzero]
    exact h.starts hP hnew hlast hne
  | some r =>
    rw [hfind] at hentry
    obtain ⟨hr, front, back, rfl, hfront⟩ := List.find?_eq_some_iff_append.mp hfind
    replace hr : r.key = (source, asset) := of_decide_eq_true hr
    replace hfront : ∀ q ∈ front, q.key ≠ (source, asset) := fun q hq => by simpa using hfront q hq
    rw [addRequirement_old hr hfront, Requirements.add, hentry, Option.elim_some]
    cases Wei.checkedAdd r.amount amount with
    | none => rfl
    | some total => exact h.extends hP hr hfront total

theorem gather_cons (values : RequirementsByAsset) (draft : Draft) (rest : List Draft) :
    Requirements.gather index values (draft :: rest) = (do
      let native ← Requirements.nativeAmount index draft
      let values ← Requirements.add values draft.preparation.request.sender .native native index
      let values ← Requirements.addToken values draft.preparation.request index
      Requirements.gather (index + 1) values rest) := rfl

/-- The token of a token transfer. -/
def addTokenRequirement (requirements : List Requirement) (request : TransferRequest) (index : Nat) :
    Except PreparationError (List Requirement) :=
  match request.erc20Transfer with
  | none => .ok requirements
  | some (token, amount) => addRequirement request.sender (.erc20 token) amount index requirements

theorem requirementsFrom_cons (requirements : List Requirement) (draft : Draft) (rest : List Draft) :
    requirementsFrom index requirements (draft :: rest) = (do
      let native ← Requirements.nativeAmount index draft
      let requirements ← addRequirement draft.preparation.request.sender .native native index requirements
      let requirements ← addTokenRequirement requirements draft.preparation.request index
      requirementsFrom (index + 1) requirements rest) := by
  rw [requirementsFrom, Requirements.nativeAmount]
  cases Wei.checkedMul draft.context.maxFeePerGas draft.context.gasLimit with
  | none => rfl
  | some fee =>
    simp only [bind, Except.bind, addTokenRequirement]
    cases (if draft.preparation.request.erc20Transfer.isNone then
      Wei.checkedAdd fee draft.preparation.request.value else some fee) with
    | none => rfl
    | some native => cases draft.preparation.request.erc20Transfer <;> rfl

theorem precedes_of_lt {s t : Nat × AssetKey} (h : s.1 < t.1) : Precedes s t :=
  ⟨Nat.le_of_lt h, fun hle => absurd hle (Nat.not_le.mpr h)⟩

theorem precedes_token (token : Address) : Precedes (index, source, .native) (index, source, .erc20 token) := by
  refine ⟨Nat.le_refl index, fun _ => ?_⟩
  simp only [AssetKey.cmp, compareLex, compareOn, ReflCmp.compare_self]
  rfl

/-- Between the two contributions of a draft. -/
def Reached (index : Nat) (sender : Address) (s : Nat × AssetKey) : Prop :=
  s.1 < index ∨ s = (index, sender, RequiredAsset.native)

/-- **Run.** Both computations fail alike, or the list is the map. -/
theorem requirementsFrom_agree {drafts : List Draft} {requirements : List Requirement}
    {values : RequirementsByAsset} (h : Lists (·.1 < index) requirements values) :
    Agree (Lists (·.1 < index + drafts.length)) (requirementsFrom index requirements drafts)
      (Requirements.gather index values drafts) := by
  induction drafts generalizing index requirements values with
  | nil => exact h
  | cons draft rest ih =>
    have hrest : ∀ requirements values, Lists (·.1 < index + 1) requirements values →
        Agree (Lists (·.1 < index + (draft :: rest).length)) (requirementsFrom (index + 1) requirements rest)
          (Requirements.gather (index + 1) values rest) := by
      intro requirements values h
      have hcount : index + (draft :: rest).length = index + 1 + rest.length := by
        rw [List.length_cons]
        omega
      rw [hcount]
      exact ih h
    rw [requirementsFrom_cons, gather_cons]
    refine agree_bind (agree_self _) ?_
    rintro native _ rfl
    refine agree_bind (addRequirement_agree (Q := Reached index draft.preparation.request.sender) h
      (fun _ => .inl) (.inr rfl) fun s hs _ => precedes_of_lt hs) ?_
    intro requirements values h
    refine agree_bind ?_ hrest
    rw [addTokenRequirement, Requirements.addToken]
    have hweaken : ∀ s, Reached index draft.preparation.request.sender s → s.1 < index + 1 := by
      rintro s (hs | rfl)
      · omega
      · exact Nat.lt_succ_self index
    cases draft.preparation.request.erc20Transfer with
    | none => exact h.weaken hweaken
    | some transfer =>
      refine addRequirement_agree h hweaken (Nat.lt_succ_self index) ?_
      rintro s (hs | rfl) _
      · exact precedes_of_lt hs
      · exact precedes_token transfer.1

theorem lists_empty : Lists (·.1 < 0) [] ∅ :=
  ⟨by simp, by simp, ⟨by simp, by simp, by simp⟩⟩

theorem entries_ordered (values : RequirementsByAsset) :
    (values.toList.map Requirements.ofEntry).Pairwise fun a b => AssetKey.cmp a.key b.key = .lt := by
  rw [List.pairwise_map]
  exact ExtTreeMap.ordered_keys_toList

theorem Lists.perm {P : Nat × AssetKey → Prop} {requirements : List Requirement} {values : RequirementsByAsset}
    (h : Lists P requirements values) :
    requirements.Perm (values.toList.map Requirements.ofEntry) := by
  have hkeys : (requirements.map (·.key)).Nodup := by
    have := h.arranged.distinct
    rwa [List.map_map] at this
  have hnodup : (values.toList.map Requirements.ofEntry).Nodup := by
    refine (entries_ordered values).imp ?_
    rintro a _ hlt rfl
    have hself : AssetKey.cmp a.key a.key = .eq := ReflCmp.compare_self
    cases hself.symm.trans hlt
  rw [List.perm_ext_iff_of_nodup hkeys.of_map hnodup]
  intro r
  rw [List.mem_map]
  constructor
  · intro hr
    refine ⟨(r.key, r.amount, r.contributions), ?_, rfl⟩
    rw [ExtTreeMap.mem_toList_iff_getElem?_eq_some, h.lookup]
    have hsome : (requirements.find? (·.key = r.key)).isSome := List.find?_isSome.mpr ⟨r, hr, by simp⟩
    obtain ⟨q, hq⟩ := Option.isSome_iff_exists.mp hsome
    have hkey : q.key = r.key := by simpa using List.find?_some hq
    rw [hq, List.inj_on_of_nodup_map hkeys (List.mem_of_find?_eq_some hq) hr hkey]
    rfl
  · rintro ⟨⟨key, e⟩, he, rfl⟩
    rw [ExtTreeMap.mem_toList_iff_getElem?_eq_some, h.lookup] at he
    obtain ⟨q, hq, rfl⟩ := Option.map_eq_some_iff.mp he
    have hkey : q.key = key := by simpa using List.find?_some hq
    subst hkey
    exact List.mem_of_find?_eq_some hq

theorem Lists.sorted {P : Nat × AssetKey → Prop} {requirements : List Requirement} {values : RequirementsByAsset}
    (h : Lists P requirements values) :
    ((values.toList.map Requirements.ofEntry).mergeSort fun a b => a.firstIndex ≤ b.firstIndex) =
      requirements := by
  have htrans : ∀ a b c : Requirement, decide (a.firstIndex ≤ b.firstIndex) = true →
      decide (b.firstIndex ≤ c.firstIndex) = true → decide (a.firstIndex ≤ c.firstIndex) = true := by
    intro a b c hab hbc
    simp only [decide_eq_true_eq] at *
    omega
  have htotal : ∀ a b : Requirement,
      (decide (a.firstIndex ≤ b.firstIndex) || decide (b.firstIndex ≤ a.firstIndex)) = true := by
    intro a b
    simp only [Bool.or_eq_true, decide_eq_true_eq]
    omega
  have hasymm : ∀ a b : Requirement, AssetKey.cmp a.key b.key = .lt → ¬ AssetKey.cmp b.key a.key = .lt := by
    intro a b hab hba
    have hswap : AssetKey.cmp b.key a.key = (AssetKey.cmp a.key b.key).swap := OrientedCmp.eq_swap
    rw [hswap, hab] at hba
    cases hba
  have hordered := h.arranged.ordered
  rw [List.pairwise_map] at hordered
  refine StableSort.mergeSort_eq htrans htotal hasymm (entries_ordered values) (hordered.imp ?_) h.perm
  intro a b hab
  exact ⟨decide_eq_true hab.1, fun hback => hab.2 (of_decide_eq_true hback)⟩

/-- **One list.** The coordinator's groups are those of `Requirements::from_drafts`. -/
theorem requirementsFrom_eq (drafts : List Draft) :
    requirementsFrom 0 [] drafts = Requirements.fromDrafts drafts := by
  have hagree := @requirementsFrom_agree 0 drafts [] ∅ lists_empty
  rw [Requirements.fromDrafts]
  cases hlist : requirementsFrom 0 [] drafts <;> cases hmap : Requirements.gather 0 ∅ drafts <;>
    rw [hlist, hmap] at hagree
  case error.error => exact congrArg Except.error hagree
  case ok.ok => exact congrArg Except.ok hagree.sorted.symm
  all_goals exact hagree.elim

/-! ## The polls make the check -/

namespace Prepare

/-- The outcome of the check, as a task. -/
def checked (operation : UInt64) (drafts : List Draft) : Except PreparationError Unit → Prepare
  | .error error => failing operation error
  | .ok () => signing operation [] drafts

/-- Every draft is there, and balances are next. -/
def Checking : Prepare → Prop
  | contexts _ _ [] | balances _ _ _ _ => True
  | _ => False

/-- The reply has the balance that the task awaits, if it awaits one. -/
def Answers (balance : Address → RequiredAsset → Except SourceError Wei) (reply : Reply) : Prepare → Prop
  | balances _ _ insufficient (requirement :: _) =>
    insufficient.any (· ≤ requirement.firstIndex) = false →
      reply.balance = balance requirement.source requirement.asset
  | _ => True

/-- Polls up to the outcome. Other callers may change the state between two of them. -/
inductive Checks (crypto : Crypto) (preparations : List Preparation)
    (balance : Address → RequiredAsset → Except SourceError Wei) (operation : UInt64) (drafts : List Draft) :
    Prepare → Prepare → Prop
  | outcome (result : Except PreparationError Unit) :
    Checks crypto preparations balance operation drafts (checked operation drafts result)
      (checked operation drafts result)
  | poll {task next final : Prepare} (s : State) (reply : Reply) (hchecking : task.Checking)
    (hanswers : task.Answers balance reply) (hpoll : task.poll crypto preparations s reply = stay s next [])
    (hrest : Checks crypto preparations balance operation drafts next final) :
    Checks crypto preparations balance operation drafts task final

variable {crypto : Crypto} {preparations : List Preparation}
  {balance : Address → RequiredAsset → Except SourceError Wei} {operation : UInt64} {drafts : List Draft}

theorem checked_checking {result : Except PreparationError Unit} :
    ¬ (checked operation drafts result).Checking := by
  cases result <;> exact id

theorem checks_checked {result : Except PreparationError Unit} {final : Prepare} :
    Checks crypto preparations balance operation drafts (checked operation drafts result) final ↔
      final = checked operation drafts result := by
  constructor
  · intro h
    generalize htask : checked operation drafts result = task at h
    cases h with
    | outcome => rfl
    | poll _ _ hchecking =>
      rw [← htask] at hchecking
      exact absurd hchecking checked_checking
  · rintro rfl
    exact .outcome result

/-- **Step.** One poll goes to the next task, whatever the state. -/
theorem checks_poll {task next final : Prepare} (hchecking : task.Checking)
    (hreply : ∃ reply, task.Answers balance reply)
    (hpoll : ∀ s reply, task.Answers balance reply → task.poll crypto preparations s reply = stay s next []) :
    Checks crypto preparations balance operation drafts task final ↔
      Checks crypto preparations balance operation drafts next final := by
  constructor
  · intro h
    cases h with
    | outcome => exact absurd hchecking checked_checking
    | poll s reply _ hanswers hpolled hrest =>
      cases (hpoll s reply hanswers).symm.trans hpolled
      exact hrest
  · obtain ⟨reply, hanswers⟩ := hreply
    exact .poll {} reply hchecking hanswers (hpoll {} reply hanswers)

theorem settle_eq (s : State) (insufficient : Option Nat) :
    settle s operation drafts insufficient = stay s (checked operation drafts (concludeBalances insufficient)) [] := by
  cases insufficient <;> rfl

/-- **Run.** The polls over the groups. -/
theorem checks_balances {rest : List Requirement} {insufficient : Option Nat} {final : Prepare} :
    Checks crypto preparations balance operation drafts (balances operation drafts insufficient rest) final ↔
      final = checked operation drafts (checkBalances balance insufficient rest) := by
  induction rest generalizing insufficient with
  | nil =>
    rw [checkBalances, ← @checks_checked crypto preparations balance]
    exact checks_poll trivial ⟨{}, trivial⟩ fun s reply _ => settle_eq s insufficient
  | cons requirement rest ih =>
    rw [checkBalances]
    have hreply : ∃ reply, Answers balance reply (balances operation drafts insufficient (requirement :: rest)) :=
      ⟨{ balance := balance requirement.source requirement.asset }, fun _ => rfl⟩
    by_cases hstop : insufficient.any (· ≤ requirement.firstIndex) = true
    · rw [if_pos hstop, ← @checks_checked crypto preparations balance]
      refine checks_poll trivial hreply fun s reply _ => ?_
      rw [poll, if_pos hstop, settle_eq]
    · rw [if_neg hstop]
      have hread : ∀ reply, Answers balance reply (balances operation drafts insufficient (requirement :: rest)) →
          reply.balance = balance requirement.source requirement.asset :=
        fun reply hanswers => hanswers (by simpa using hstop)
      -- The awaited balance decides the next task.
      cases hbalance : balance requirement.source requirement.asset with
      | error error =>
        simp only [← @checks_checked crypto preparations balance]
        refine checks_poll trivial hreply fun s reply hanswers => ?_
        rw [poll, if_neg hstop, hread reply hanswers, hbalance]
        rfl
      | ok found =>
        simp only
        by_cases hcovered : requirement.amount ≤ found
        · rw [if_pos hcovered, ← ih]
          refine checks_poll trivial hreply fun s reply hanswers => ?_
          rw [poll, if_neg hstop, hread reply hanswers, hbalance]
          exact if_pos hcovered
        · rw [if_neg hcovered, ← ih]
          refine checks_poll trivial hreply fun s reply hanswers => ?_
          rw [poll, if_neg hstop, hread reply hanswers, hbalance]
          exact if_neg hcovered

/-- **One check.** Once its drafts are complete, a preparation polled with fixed balances comes to
what `ensure_aggregate_balances` gives for them, and to nothing else. -/
theorem checks_ensureAggregateBalances {final : Prepare} :
    Checks crypto preparations balance operation drafts (contexts operation drafts []) final ↔
      final = checked operation drafts (ensureAggregateBalances balance drafts) := by
  rw [ensureAggregateBalances, ← requirementsFrom_eq]
  cases hrequirements : requirementsFrom 0 [] drafts with
  | error error =>
    refine Iff.trans (checks_poll trivial ⟨{}, trivial⟩ fun s reply _ => ?_) checks_checked
    rw [poll, hrequirements]
    rfl
  | ok requirements =>
    refine Iff.trans (checks_poll trivial ⟨{}, trivial⟩ fun s reply _ => ?_) checks_balances
    rw [poll, hrequirements]

end Prepare

end PaymentSdk.Ethereum
