import PaymentSdk.Indexing.BlockAddition

/-!
# What an addition admits

The checks of an addition, the other way round: what an interpreted block has to satisfy for all of
them to pass.
-/

namespace PaymentSdk

variable {scope : IndexScope} {block : BlockRef}

/-! ## Drafts -/

/-- A movement of a scope, with a name and an amount. -/
structure ValueMovement.Admissible (scope : IndexScope) (m : ValueMovement) : Prop where
  named : m.id.name.isEmpty = false
  chain : m.asset.chain = scope.chain
  amount : isNegative m.amount = false
  source : ∀ a ∈ m.fromAddress, a.scope = scope
  dest : ∀ a ∈ m.toAddress, a.scope = scope

/-- A fee that the addition takes. -/
structure NetworkFee.Admissible (scope : IndexScope) (fee : NetworkFee) : Prop where
  chain : fee.asset.chain = scope.chain
  amount : isNegative fee.amount = false
  payer : ∀ a ∈ fee.payer, a.scope = scope

/-- A draft that the addition takes. -/
structure ObservationDraft.Admissible (scope : IndexScope) (d : ObservationDraft) : Prop where
  scope_eq : d.scope = scope
  id_scope : d.transactionId.scope = scope
  failed : d.status ≠ .included → d.movements = []
  ids : (d.movements.map (·.id)).Nodup
  movements : ∀ m ∈ d.movements, m.Admissible scope
  fee : ∀ f ∈ d.fee, f.Admissible scope

theorem any_foreign_of_scope {o : Option CanonicalAddress} (h : ∀ a ∈ o, a.scope = scope) :
    (o.any fun a => !a.belongsTo scope) = false := by
  cases o with
  | none => rfl
  | some a => simpa [CanonicalAddress.belongsTo] using h a rfl

theorem not_invalidMovement {ids : List MovementId} {m : ValueMovement} (h : m.Admissible scope) (hfresh : m.id ∉ ids) :
    invalidMovement scope ids m = false := by
  unfold invalidMovement
  rw [h.named, h.amount, any_foreign_of_scope h.source, any_foreign_of_scope h.dest]
  simp [hfresh, h.chain]

theorem checkMovements_admits {ids : List MovementId} {ms : List ValueMovement} (hids : (ms.map (·.id)).Nodup)
    (hfresh : ∀ m ∈ ms, m.id ∉ ids) (h : ∀ m ∈ ms, m.Admissible scope) : checkMovements scope ids ms = .ok () := by
  induction ms generalizing ids with
  | nil => rfl
  | cons m rest ih =>
    rw [List.map_cons, List.nodup_cons] at hids
    obtain ⟨hm, hrest⟩ := List.forall_mem_cons.mp h
    obtain ⟨hnew, hold⟩ := List.forall_mem_cons.mp hfresh
    rw [checkMovements, not_invalidMovement hm hnew]
    refine ih hids.2 ?_ hrest
    intro m' hm' hmem
    obtain heq | hmem := List.mem_cons.mp hmem
    · exact hids.1 (heq ▸ List.mem_map_of_mem hm')
    · exact hold m' hm' hmem

theorem canonical_admits {d : ObservationDraft} (h : d.Admissible scope) :
    d.canonical scope block = .ok ⟨d.scope, d.transactionId, d.status.canonical block, d.movements, d.fee⟩ := by
  have hfee : d.fee.any (invalidFee scope) = false := by
    cases hd : d.fee with
    | none => rfl
    | some f =>
      have hf := h.fee f hd
      rw [Option.any_some, invalidFee, hf.amount, any_foreign_of_scope hf.payer]
      simp [hf.chain]
  have hscope : ¬ (d.scope ≠ scope ∨ d.transactionId.belongsTo scope = false) := by
    simp [h.scope_eq, TransactionRef.belongsTo, h.id_scope]
  have hfailed : ¬ (d.status ≠ .included ∧ d.movements ≠ []) := fun hand => hand.2 (h.failed hand.1)
  unfold ObservationDraft.canonical
  rw [if_neg hscope, if_neg hfailed, checkMovements_admits h.ids (by simp) h.movements, hfee]
  rfl

theorem canonicalAll_admits {ids : List TransactionRef} {ds : List ObservationDraft}
    (hids : (ds.map (·.transactionId)).Nodup) (hfresh : ∀ d ∈ ds, d.transactionId ∉ ids)
    (h : ∀ d ∈ ds, d.Admissible scope) : ∃ ts, canonicalAll scope block ids ds = .ok ts := by
  induction ds generalizing ids with
  | nil => exact ⟨[], rfl⟩
  | cons d rest ih =>
    rw [List.map_cons, List.nodup_cons] at hids
    obtain ⟨hd, hrest⟩ := List.forall_mem_cons.mp h
    obtain ⟨hnew, hold⟩ := List.forall_mem_cons.mp hfresh
    have hlater : ∀ d' ∈ rest, d'.transactionId ∉ d.transactionId :: ids := by
      intro d' hd' hmem
      obtain heq | hmem := List.mem_cons.mp hmem
      · exact hids.1 (heq ▸ List.mem_map_of_mem hd')
      · exact hold d' hd' hmem
    obtain ⟨ts, hts⟩ := ih hids.2 hlater hrest
    refine ⟨⟨d.scope, d.transactionId, d.status.canonical block, d.movements, d.fee⟩ :: ts, ?_⟩
    rw [canonicalAll, if_neg hnew, canonical_admits hd, hts]
    rfl

/-! ## Amounts -/

theorem stripZeros_nonneg {c : Int} (h : 0 ≤ c) (scale : Nat) : 0 ≤ (Decimal.stripZeros c scale).1 := by
  induction scale generalizing c with
  | zero => exact h
  | succ scale ih =>
    unfold Decimal.stripZeros
    split_ifs
    · exact ih (Int.ediv_nonneg h (by decide))
    · exact h

theorem isNegative_normalize (units scale : Nat) (h : scale < 2 ^ 32) :
    isNegative (Decimal.normalize units scale h) = false := by
  have hcoefficient : ¬ (Decimal.normalize units scale h).coefficient < 0 := by
    rw [Int.not_lt]
    unfold Decimal.normalize
    split_ifs
    · exact Int.le_refl 0
    · exact stripZeros_nonneg (Int.natCast_nonneg units) scale
  unfold isNegative Decimal.validateAmount
  rw [if_neg hcoefficient]

/-! ## Outputs -/

/-- Outputs of one block of a scope: created once, spent once, and never both. -/
structure OutputChanges.Admissible (scope : IndexScope) (height : BlockHeight) (o : OutputChanges) : Prop where
  created : ∀ x ∈ o.created, x.address.scope = scope ∧ x.id.transaction.scope = scope ∧
    x.asset.chain = scope.chain ∧ isNegative x.amount = false ∧ x.createdAt = height
  ids : (o.created.map (·.id)).Nodup
  spends : ∀ k ∈ o.spends, k.address.scope = scope ∧ k.output.transaction.scope = scope
  spends_nodup : o.spends.Nodup
  disjoint : ∀ k ∈ o.spends, k ∉ o.created.map (·.key)

theorem empty_admissible (height : BlockHeight) : ({} : OutputChanges).Admissible scope height :=
  ⟨by simp, by simp, by simp [OutputChanges.spends], by simp [OutputChanges.spends], by simp [OutputChanges.spends]⟩

theorem checkCreated_admits {height : BlockHeight} {ids : List OutputId} {keys : List OutputKey} {os : List IndexedOutput}
    (h : ∀ x ∈ os, x.address.scope = scope ∧ x.id.transaction.scope = scope ∧ x.asset.chain = scope.chain ∧
      isNegative x.amount = false ∧ x.createdAt = height)
    (hids : (os.map (·.id)).Nodup) (hfresh : ∀ x ∈ os, x.id ∉ ids) (hkeys : ∀ k ∈ keys, k.output ∈ ids) :
    ∃ out, checkCreated scope height ids keys os = .ok out ∧ ∀ k ∈ out, k ∈ keys ∨ k ∈ os.map (·.key) := by
  induction os generalizing ids keys with
  | nil => exact ⟨keys, rfl, fun _ hk => .inl hk⟩
  | cons o rest ih =>
    rw [List.map_cons, List.nodup_cons] at hids
    obtain ⟨ho, hrest⟩ := List.forall_mem_cons.mp h
    obtain ⟨hnew, hold⟩ := List.forall_mem_cons.mp hfresh
    have hkey : o.key ∉ keys := fun hmem => hnew (hkeys _ hmem)
    have hlater : ∀ x ∈ rest, x.id ∉ o.id :: ids := by
      intro x hx hmem
      obtain heq | hmem := List.mem_cons.mp hmem
      · exact hids.1 (heq ▸ List.mem_map_of_mem hx)
      · exact hold x hx hmem
    have hkeys' : ∀ k ∈ o.key :: keys, k.output ∈ o.id :: ids := by
      rw [List.forall_mem_cons]
      exact ⟨List.mem_cons_self, fun k hk => List.mem_cons_of_mem _ (hkeys k hk)⟩
    obtain ⟨out, hout, hall⟩ := ih hrest hids.2 hlater hkeys'
    refine ⟨out, ?_, ?_⟩
    · rw [checkCreated, if_neg, hout]
      simp [invalidCreated, CanonicalAddress.belongsTo, TransactionRef.belongsTo, ho, hnew, hkey]
    · intro k hk
      obtain hk | hk := hall k hk
      · obtain rfl | hk := List.mem_cons.mp hk
        · exact .inr List.mem_cons_self
        · exact .inl hk
      · exact .inr (List.mem_cons_of_mem _ hk)

theorem checkSpent_admits {created spent ks : List OutputKey}
    (h : ∀ k ∈ ks, k.address.scope = scope ∧ k.output.transaction.scope = scope) (hnodup : ks.Nodup)
    (hcreated : ∀ k ∈ ks, k ∉ created) (hfresh : ∀ k ∈ ks, k ∉ spent) :
    checkSpent scope created spent ks = .ok () := by
  induction ks generalizing spent with
  | nil => rfl
  | cons key rest ih =>
    rw [List.nodup_cons] at hnodup
    obtain ⟨hkey, hrest⟩ := List.forall_mem_cons.mp h
    obtain ⟨hnew, hold⟩ := List.forall_mem_cons.mp hfresh
    obtain ⟨hother, hothers⟩ := List.forall_mem_cons.mp hcreated
    rw [checkSpent, if_neg]
    · refine ih hrest hnodup.2 hothers ?_
      intro k hk hmem
      obtain rfl | hmem := List.mem_cons.mp hmem
      · exact hnodup.1 hk
      · exact hold k hk hmem
    · simp [invalidSpent, CanonicalAddress.belongsTo, TransactionRef.belongsTo, hkey, hnew, hother]

theorem validate_admits {height : BlockHeight} {o : OutputChanges} (h : o.Admissible scope height) :
    o.validate scope height = .ok () := by
  obtain ⟨out, hout, hall⟩ := @checkCreated_admits scope height [] [] _ h.created h.ids (by simp) (by simp)
  rw [OutputChanges.validate, hout]
  refine checkSpent_admits h.spends h.spends_nodup ?_ (by simp)
  intro k hk hmem
  obtain hnil | hkey := hall k hmem
  · simp at hnil
  · exact h.disjoint k hk hkey

/-! ## Additions -/

/-- A block whose facts an addition takes, whatever the checkpoint. -/
structure InterpretedBlock.Admissible (scope : IndexScope) (b : InterpretedBlock) : Prop where
  ids : (b.transactions.map (·.transactionId)).Nodup
  transactions : ∀ d ∈ b.transactions, d.Admissible scope
  outputs : b.outputs.Admissible scope b.block.height

theorem new_admits {expected : Option BlockRef} {retention : Nat} {b : InterpretedBlock} (h : b.Admissible scope)
    (hretention : retention ≠ 0) (hconnects : checkConnection expected b.block = .ok ()) :
    ∃ a, BlockAddition.new scope expected retention b = .ok a := by
  obtain ⟨ts, hts⟩ := @canonicalAll_admits scope b.block [] _ h.ids (by simp) h.transactions
  have hout := validate_admits h.outputs
  unfold BlockAddition.new
  rw [dif_neg hretention]
  split
  · rename_i e he
    rw [hconnects] at he
    cases he
  · split
    · rename_i e he
      rw [hout] at he
      cases he
    · split
      · rename_i e he
        rw [hts] at he
        cases he
      · exact ⟨_, rfl⟩

end PaymentSdk
