import PaymentSdk.Bitcoin.Delivered
import PaymentSdk.Indexing.Admission
import PaymentSdk.Lib.Fields

/-!
# What an inspected Bitcoin block adds

An inspected block whose transactions differ and spend earlier outputs passes every check of an
addition: no output is both created and spent, and none is spent twice.
-/

open Checked

namespace PaymentSdk.Bitcoin.Indexer

variable {ctx : Context} {t : Transaction}

/-! ## Names -/

theorem text_inj {a b : TransactionId} (h : a.text = b.text) : a = b := by
  have hlist := congrArg (fun x : Text => x.str.toList) h
  simp only [TransactionId.text, Text.ofString, String.toList_ofList] at hlist
  exact TransactionId.ext (List.reverse_inj.mp (Hex.encode_inj hlist))

theorem canonical_inj {scope : IndexScope} {a b : TransactionId} (h : a.canonical scope = b.canonical scope) : a = b :=
  text_inj (congrArg TransactionRef.value h)

theorem outpoint_canonical_inj {scope : IndexScope} {a b : Outpoint} (h : a.canonical scope = b.canonical scope) :
    a = b := by
  obtain ⟨id, index⟩ := a
  obtain ⟨id', index'⟩ := b
  simp only [Outpoint.canonical, OutputId.mk.injEq] at h
  rw [canonical_inj h.1, h.2]

theorem vinId_inj {id : TransactionId} {i j : Nat} (h : vinId id i = vinId id j) : i = j := by
  have hlist := congrArg String.toList h
  simp only [vinId, String.toList_append, List.append_assoc, List.append_cancel_left_eq] at hlist
  exact Fields.toString_inj hlist

theorem voutId_inj {id : TransactionId} {i j : Nat} (h : voutId id i = voutId id j) : i = j := by
  have hlist := congrArg String.toList h
  simp only [voutId, String.toList_append, List.append_assoc, List.append_cancel_left_eq] at hlist
  exact Fields.toString_inj hlist

theorem vinId_ne_voutId (id : TransactionId) (i j : Nat) : vinId id i ≠ voutId id j := by
  intro h
  have hlist := congrArg String.toList h
  simp only [vinId, voutId, String.toList_append, List.append_assoc, List.append_cancel_left_eq] at hlist
  have hcons : ':' :: 'v' :: 'i' :: ("n:".toList ++ (toString i).toList) =
      ':' :: 'v' :: 'o' :: ("ut:".toList ++ (toString j).toList) := hlist
  simp at hcons

theorem zipIdx_pairwise {α : Type} (l : List α) : l.zipIdx.Pairwise fun x y => x.2 ≠ y.2 := by
  have hnodup : (l.zipIdx.map (·.2)).Nodup := by
    rw [List.zipIdx_map_snd]
    exact List.nodup_range'
  exact List.pairwise_map.mp hnodup

/-! ## Movements -/

theorem movements_ids : ((ctx.movements t).map (·.id)).Nodup := by
  rw [Context.movements, List.map_append, List.nodup_append]
  refine ⟨?_, ?_, ?_⟩
  · rw [List.Nodup, List.pairwise_map, List.pairwise_filterMap]
    refine (zipIdx_pairwise t.inputs).imp ?_
    intro x y hne m hm m' hm' heq
    obtain ⟨p, -, rfl⟩ := Option.map_eq_some_iff.mp hm
    obtain ⟨p', -, rfl⟩ := Option.map_eq_some_iff.mp hm'
    exact hne (vinId_inj (congrArg MovementId.name heq))
  · rw [List.Nodup, List.pairwise_map, List.pairwise_map]
    refine (zipIdx_pairwise t.outputs).imp ?_
    intro x y hne heq
    exact hne (voutId_inj (congrArg MovementId.name heq))
  · intro id hid id' hid' heq
    obtain ⟨m, hm, rfl⟩ := List.mem_map.mp hid
    obtain ⟨m', hm', rfl⟩ := List.mem_map.mp hid'
    obtain ⟨x, -, hx⟩ := List.mem_filterMap.mp hm
    obtain ⟨p, -, rfl⟩ := Option.map_eq_some_iff.mp hx
    obtain ⟨y, -, rfl⟩ := List.mem_map.mp hm'
    exact vinId_ne_voutId _ _ _ (congrArg MovementId.name heq)

theorem isNegative_satoshis (value : UInt64) : isNegative (satoshis value) = false :=
  isNegative_normalize value.toNat 0 _

theorem scope_of_map {address : Option Address} {a : CanonicalAddress}
    (h : a ∈ address.map (·.canonical ctx.scope)) : a.scope = ctx.scope := by
  obtain ⟨_, -, rfl⟩ := Option.map_eq_some_iff.mp h
  rfl

theorem movement_admissible (hchain : ctx.scope.chain = chainId) {m : ValueMovement} (h : m ∈ ctx.movements t) :
    m.Admissible ctx.scope := by
  obtain h | h := List.mem_append.mp h
  · obtain ⟨x, -, hx⟩ := List.mem_filterMap.mp h
    obtain ⟨p, -, rfl⟩ := Option.map_eq_some_iff.mp hx
    refine ⟨?_, hchain.symm, isNegative_satoshis _, fun _ ha => scope_of_map ha, fun _ ha => nomatch ha⟩
    simp [Context.inputMovement, ValueMovement.id, vinId]
  · obtain ⟨x, -, rfl⟩ := List.mem_map.mp h
    refine ⟨?_, hchain.symm, isNegative_satoshis _, (fun _ ha => nomatch ha), fun _ ha => scope_of_map ha⟩
    simp [Context.outputMovement, ValueMovement.id, voutId]

theorem fee_admissible (hchain : ctx.scope.chain = chainId) {facts : TransactionFacts} {fee : Option NetworkFee}
    (h : finishFee ctx t facts = .ok fee) {f : NetworkFee} (hf : f ∈ fee) : f.Admissible ctx.scope := by
  unfold finishFee at h
  split at h
  · cases h
    cases hf
  split at h
  · cases h
  · cases h
    cases hf
    exact ⟨hchain.symm, isNegative_normalize _ 0 (by decide), fun _ ha => scope_of_map ha⟩

theorem draft_admissible (hchain : ctx.scope.chain = chainId) {d : ObservationDraft} (h : DraftOf ctx t d) :
    d.Admissible ctx.scope := by
  obtain ⟨facts, hfee⟩ := h.fee
  have heq := h.eq
  refine ⟨by rw [heq], by rw [heq]; rfl, ?_, ?_, ?_, fun f hf => fee_admissible hchain hfee hf⟩
  · intro hstatus
    rw [heq] at hstatus
    exact absurd rfl hstatus
  · rw [heq]
    exact movements_ids
  · rw [heq]
    exact fun m hm => movement_admissible hchain hm

/-! ## Outputs -/

theorem created_nodup (hbounded : ∀ x ∈ t.outputs.zipIdx, (ctx.createdOutput t x.2 x.1).isSome → x.2 < 2 ^ 32) :
    ((ctx.created t).map (·.outpoint)).Nodup := by
  rw [List.Nodup, List.pairwise_map, Context.created, List.pairwise_filterMap]
  refine (zipIdx_pairwise t.outputs).imp_of_mem ?_
  intro x y hx hy hne c hc c' hc' heq
  have hxlt := hbounded x hx (by rw [hc]; rfl)
  have hylt := hbounded y hy (by rw [hc']; rfl)
  rw [(createdOutput_some hc).2.2, (createdOutput_some hc').2.2, Outpoint.mk.injEq] at heq
  have hnat := congrArg UInt32.toNat heq.2
  rw [UInt32.toNat_ofNat_of_lt' hxlt, UInt32.toNat_ofNat_of_lt' hylt] at hnat
  exact hne hnat

theorem allCreated_nodup {ts : List Transaction} (hids : (ts.map (·.id)).Nodup)
    (hbounded : ∀ t ∈ ts, ∀ x ∈ t.outputs.zipIdx, (ctx.createdOutput t x.2 x.1).isSome → x.2 < 2 ^ 32) :
    ((ts.flatMap ctx.created).map (·.outpoint)).Nodup := by
  rw [List.map_flatMap, List.nodup_flatMap]
  refine ⟨fun t ht => created_nodup (hbounded t ht), ?_⟩
  refine (List.pairwise_map.mp hids).imp ?_
  intro a b hne o ho ho'
  obtain ⟨c, hc, rfl⟩ := List.mem_map.mp ho
  obtain ⟨c', hc', heq⟩ := List.mem_map.mp ho'
  exact hne (by rw [← outpoint_of_created hc, ← outpoint_of_created hc', heq])

theorem allSpent_nodup {ts : List Transaction} (h : (ts.flatMap Transaction.spent).Nodup) :
    ((ts.flatMap ctx.required ++ ts.flatMap ctx.tracked).map (·.outpoint)).Nodup := by
  have hperm : (ts.flatMap ctx.required ++ ts.flatMap ctx.tracked).Perm
      (ts.flatMap fun t => ctx.required t ++ ctx.tracked t) := List.flatMap_append_perm ..
  rw [(hperm.map _).nodup_iff, List.map_flatMap, List.nodup_flatMap]
  rw [List.nodup_flatMap] at h
  refine ⟨fun t ht => keys_nodup (h.1 t ht), h.2.imp ?_⟩
  intro a b hdisjoint o ho ho'
  have hspent : ∀ t, o ∈ (ctx.required t ++ ctx.tracked t).map (·.outpoint) → o ∈ t.spent := by
    intro t ho
    obtain ⟨k, hk, rfl⟩ := List.mem_map.mp ho
    exact (List.mem_append.mp hk).elim mem_required mem_tracked
  exact hdisjoint (hspent a ho) (hspent b ho')

theorem outputs_admissible (hchain : ctx.scope.chain = chainId) {ts : List Transaction} {g : Gathered}
    (hids : (ts.map (·.id)).Nodup) (h : GatheredFrom ctx ts g) :
    (g.outputs.canonical ctx.scope).Admissible ctx.scope ctx.height := by
  have hspends : (g.outputs.canonical ctx.scope).spends =
      (external (ts.flatMap ctx.created) (ts.flatMap ctx.required ++ ts.flatMap ctx.tracked)).map
        (·.canonical ctx.scope) := by
    rw [OutputChanges.spends, Outputs.canonical, h.spends, h.tracked, ← List.map_append]
    exact congrArg _ (List.filter_append ..).symm
  constructor
  case created =>
    intro x hx
    obtain ⟨c, hc, rfl⟩ := List.mem_map.mp hx
    rw [h.creates] at hc
    obtain ⟨t, -, hc⟩ := List.mem_flatMap.mp (List.mem_of_mem_filter hc)
    obtain ⟨y, -, hy⟩ := List.mem_filterMap.mp hc
    refine ⟨rfl, rfl, hchain.symm, isNegative_satoshis _, ?_⟩
    rw [(createdOutput_some hy).2.2]
    rfl
  case ids =>
    have hnodup : (g.outputs.creates.map (·.outpoint)).Nodup := by
      rw [h.creates]
      exact (allCreated_nodup hids h.bounded).sublist (List.filter_sublist.map _)
    have hmap : (g.outputs.canonical ctx.scope).created.map (·.id) =
        (g.outputs.creates.map (·.outpoint)).map (·.canonical ctx.scope) := by
      simp [Outputs.canonical, CreatedOutput.canonical, Function.comp_def]
    rw [hmap]
    exact hnodup.map fun _ _ => outpoint_canonical_inj
  case spends =>
    intro k hk
    rw [hspends] at hk
    obtain ⟨k, -, rfl⟩ := List.mem_map.mp hk
    exact ⟨rfl, rfl⟩
  case spends_nodup =>
    have hspent : (ts.flatMap Transaction.spent).Nodup := List.nodup_reverse.mp (h.spent ▸ h.nodup)
    have hnodup : ((external (ts.flatMap ctx.created) (ts.flatMap ctx.required ++ ts.flatMap ctx.tracked)).map
        (·.outpoint)).Nodup := (allSpent_nodup hspent).sublist (List.filter_sublist.map _)
    rw [hspends]
    refine List.Nodup.of_map (·.output) ?_
    rw [List.map_map]
    have hmap := hnodup.map fun _ _ => @outpoint_canonical_inj ctx.scope _ _
    rw [List.map_map] at hmap
    exact hmap
  case disjoint =>
    intro k hk hmem
    rw [hspends] at hk
    obtain ⟨spent, hspent, rfl⟩ := List.mem_map.mp hk
    obtain ⟨x, hx, hkey⟩ := List.mem_map.mp hmem
    obtain ⟨c, hc, rfl⟩ := List.mem_map.mp hx
    rw [h.creates] at hc
    have hout : c.outpoint = spent.outpoint := outpoint_canonical_inj (congrArg OutputKey.output hkey)
    have hexternal := (List.mem_filter.mp hspent).2
    rw [decide_eq_true_eq] at hexternal
    exact hexternal (hout ▸ List.mem_map_of_mem (List.mem_of_mem_filter hc))

/-! ## The block -/

theorem exists_of_forall₂ {α β : Type} {R : α → β → Prop} {l : List α} {r : List β} (h : List.Forall₂ R l r) {y : β}
    (hy : y ∈ r) : ∃ x ∈ l, R x y := by
  induction h with
  | nil => simp at hy
  | cons hx _ ih =>
    obtain rfl | hy := List.mem_cons.mp hy
    · exact ⟨_, List.mem_cons_self, hx⟩
    · obtain ⟨x, hmem, hx⟩ := ih hy
      exact ⟨x, List.mem_cons_of_mem _ hmem, hx⟩

theorem gathered_admissible (hchain : ctx.scope.chain = chainId) {ts : List Transaction} {g : Gathered}
    {reference : BlockRef} (hheight : reference.height = ctx.height) (hids : (ts.map (·.id)).Nodup)
    (h : GatheredFrom ctx ts g) :
    InterpretedBlock.Admissible ctx.scope ⟨reference, g.transactions, g.outputs.canonical ctx.scope⟩ := by
  constructor
  case ids =>
    have hmap : g.transactions.map (·.transactionId) =
        ((ts.filter ctx.relevant).map (·.id)).map (·.canonical ctx.scope) := by
      rw [List.map_map, ← List.forall₂_eq_eq_eq, List.forall₂_map_left_iff, List.forall₂_map_right_iff]
      refine h.transactions.flip.imp ?_
      intro d t hd
      rw [hd.eq]
      rfl
    rw [hmap]
    exact (hids.sublist (List.filter_sublist.map _)).map fun _ _ => canonical_inj
  case transactions =>
    intro d hd
    obtain ⟨t, -, hdraft⟩ := exists_of_forall₂ h.transactions hd
    exact draft_admissible hchain hdraft
  case outputs => exact hheight ▸ outputs_admissible hchain hids h

/-- **Admission.** What is read from a block with different transactions that spend earlier outputs
is added wherever the block connects. -/
theorem inspect_admissible {interpreter : BlockInterpreter} {block : Block} {addresses : List CanonicalAddress}
    {out : InterpretedBlock} (hids : (block.transactions.map (·.id)).Nodup)
    (hearlier : SpendsEarlier block.transactions) (h : interpreter.inspect block addresses = .ok out) :
    out.Admissible interpreter.scope := by
  obtain ⟨validated, -, h⟩ := bind_ok.mp h
  obtain ⟨gathered, hgathered, h⟩ := bind_ok.mp h
  cases h
  exact gathered_admissible interpreter.chain_eq rfl hids (gather_ok hearlier hgathered)

end PaymentSdk.Bitcoin.Indexer
