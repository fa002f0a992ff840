import Mathlib.Data.List.Induction
import PaymentSdk.Postgres.Read
import PaymentSdk.Redb.Record

/-!
# What a page of history lists

Every page is the next run of the transactions that touch the address, in the order of their
positions, and each of them is what its block had, with its own movements in their order.
-/

open Relational Checked Std

namespace PaymentSdk.Postgres

open Redb (HistoryQuery HistoryCursor HistoryPosition CanonicalPage)

/-! ## What is listed for an address -/

/-- The transactions of the blocks that touch the address. -/
def listed (blocks : List BlockAddition) (address : CanonicalAddress) : List CanonicalTransaction :=
  blocks.flatMap fun a => a.transactions.filter fun t => address ∈ t.addresses

def positionOf (t : CanonicalTransaction) : Position := (t.block.height.val.toNat, t.transactionId.value)

def historyRow (address : CanonicalAddress) (t : CanonicalTransaction) : HistoryRow :=
  (historyEntry t address).row address.scope (columns t.block)

def movementRows (address : CanonicalAddress) (t : CanonicalTransaction) : List MovementRow :=
  t.movements.zipIdx.map fun (m, i) => (movementEntry t address m i).row address.scope t.block.height.val.toNat

section Listed

variable {db : Db} {blocks : List BlockAddition} {a : BlockAddition} {t : CanonicalTransaction}
  {address : CanonicalAddress}

theorem addresses_filter (t : CanonicalTransaction) (address : CanonicalAddress) :
    t.addresses.toList.filter (· = address) = if address ∈ t.addresses then [address] else [] := by
  have hnodup : t.addresses.toList.Nodup := by
    refine Std.ExtTreeSet.distinct_toList.imp fun hne heq => hne ?_
    rw [heq]
    exact Std.ReflCmp.compare_self
  rw [List.filter_eq]
  split_ifs with hmem
  · rw [List.count_eq_one_of_mem hnodup (Std.ExtTreeSet.mem_toList.mpr hmem), List.replicate_one]
  · rw [List.count_eq_zero_of_not_mem (fun h => hmem (Std.ExtTreeSet.mem_toList.mp h)), List.replicate_zero]

theorem touched_filter (a : BlockAddition) (address : CanonicalAddress) :
    (touched a).filter (fun p => p.2 = address) =
      (a.transactions.filter fun t => address ∈ t.addresses).map (·, address) := by
  unfold touched
  induction a.transactions with
  | nil => rfl
  | cons t rest ih =>
    rw [List.flatMap_cons, List.filter_append, ih, List.filter_map]
    have hcomp : ((fun p : CanonicalTransaction × CanonicalAddress => decide (p.2 = address)) ∘ fun x => (t, x)) =
        fun x => decide (x = address) := rfl
    rw [hcomp, addresses_filter]
    by_cases hmem : address ∈ t.addresses
    · rw [if_pos hmem, List.filter_cons_of_pos (by simpa using hmem)]
      rfl
    · rw [if_neg hmem, List.filter_cons_of_neg (by simpa using hmem)]
      rfl

theorem address_iff {p : CanonicalTransaction × CanonicalAddress} (hp : p ∈ touched a) :
    (a.scope = address.scope ∧ p.2.value = address.value) ↔ p.2 = address := by
  obtain ⟨ht, haddress⟩ := mem_touched hp
  have hscope := addresses_scope (a.valid.canonical _ ht) haddress
  obtain ⟨t, s, value⟩ := p
  obtain ⟨s', value'⟩ := address
  obtain rfl : s = a.scope := hscope
  simp

theorem mem_listed : t ∈ listed blocks address ↔ ∃ a ∈ blocks, t ∈ a.transactions ∧ address ∈ t.addresses := by
  simp only [listed, List.mem_flatMap, List.mem_filter, decide_eq_true_eq]

theorem valid_of_listed (h : t ∈ listed blocks address) : t.Valid address.scope t.block := by
  obtain ⟨a, -, ht, haddress⟩ := mem_listed.mp h
  have hvalid := a.valid.canonical t ht
  rw [addresses_scope hvalid haddress, hvalid.block_eq]
  exact hvalid

theorem historyOf_filter (a : BlockAddition) (address : CanonicalAddress) :
    (historyOf a.scope a).filter (fun r => r.scope = address.scope ∧ r.address = address.value) =
      (a.transactions.filter fun t => address ∈ t.addresses).map (historyRow address) := by
  unfold historyOf
  rw [List.filter_map]
  have hcongr : (touched a).filter ((fun r : HistoryRow => decide (r.scope = address.scope ∧ r.address = address.value)) ∘
      fun p => (historyEntry p.1 p.2).row a.scope (columns a.block)) = (touched a).filter (fun p => p.2 = address) :=
    List.filter_congr fun p hp => decide_eq_decide.mpr (address_iff hp)
  rw [hcongr, touched_filter, List.map_map]
  refine List.map_congr_left fun t ht => ?_
  obtain ⟨ht, haddress⟩ := List.mem_filter.mp ht
  have hvalid := a.valid.canonical t ht
  simp only [Function.comp_apply, historyRow, hvalid.block_eq,
    addresses_scope hvalid (of_decide_eq_true haddress)]

theorem movementOf_filter (a : BlockAddition) (address : CanonicalAddress) :
    (movementOf a.scope a).filter (fun r => r.scope = address.scope ∧ r.address = address.value) =
      (a.transactions.filter fun t => address ∈ t.addresses).flatMap (movementRows address) := by
  unfold movementOf
  rw [filter_flatMap_of (c := fun p => decide (p.2 = address)), touched_filter, List.flatMap_map]
  · refine List.flatMap_congr fun t ht => ?_
    obtain ⟨ht, haddress⟩ := List.mem_filter.mp ht
    have hvalid := a.valid.canonical t ht
    simp only [movementRows, hvalid.block_eq, addresses_scope hvalid (of_decide_eq_true haddress)]
  · intro p hp r hr
    obtain ⟨x, -, rfl⟩ := List.mem_map.mp hr
    exact decide_eq_decide.mpr (address_iff hp)

theorem Db.Stores.history_rows (h : db.Stores blocks) (address : CanonicalAddress) :
    db.history.filter (fun r => r.scope = address.scope ∧ r.address = address.value) =
      (listed blocks address).map (historyRow address) := by
  rw [h.history, List.filter_flatMap, listed, List.map_flatMap]
  exact List.flatMap_congr fun a _ => historyOf_filter a address

theorem Db.Stores.movement_rows (h : db.Stores blocks) (address : CanonicalAddress) :
    db.movement.filter (fun r => r.scope = address.scope ∧ r.address = address.value) =
      (listed blocks address).flatMap (movementRows address) := by
  rw [h.movement, List.filter_flatMap, listed, List.flatMap_assoc]
  exact List.flatMap_congr fun a _ => movementOf_filter a address

theorem Db.Stores.positions_nodup (h : db.Stores blocks) (address : CanonicalAddress) :
    ((listed blocks address).map positionOf).Nodup := by
  have hkeys : (((listed blocks address).map (historyRow address)).map historySchema.key).Nodup := by
    rw [← h.history_rows address]
    exact h.keys.sublist (List.filter_sublist.map _)
  rw [List.map_map] at hkeys
  refine List.Nodup.of_map (fun p : Position => (address.scope, address.value, p.1, p.2)) ?_
  rw [List.map_map]
  exact hkeys

end Listed

/-! ## The movements of a page -/

theorem group_ok {self : IndexScope} {rows : List MovementRow} (h : ∀ r ∈ rows, ∃ m, movement self r = .ok m) :
    ∃ g, group self rows = .ok g ∧ ∀ p, (rows.filter (·.position = p)).mapM (movement self) = .ok (g p) := by
  induction rows using List.reverseRecOn with
  | nil => exact ⟨_, rfl, fun _ => rfl⟩
  | append_singleton rows r ih =>
    obtain ⟨g, hg, hgroup⟩ := ih fun r' hr' => h r' (List.mem_append_left _ hr')
    obtain ⟨m, hm⟩ := h r (List.mem_append_right _ List.mem_cons_self)
    refine ⟨g.push r.position m, ?_, fun p => ?_⟩
    · unfold group at hg ⊢
      rw [List.foldlM_append, hg]
      simp [hm, bind, Except.bind, pure, Except.pure]
    · rw [List.filter_append, List.mapM_append, hgroup p, Grouped.push]
      by_cases hp : r.position = p
      · rw [List.filter_cons_of_pos (by simpa using hp), if_pos hp.symm]
        simp [hm, bind, Except.bind, pure, Except.pure]
      · rw [List.filter_cons_of_neg (by simpa using hp), if_neg (fun h => hp h.symm)]
        simp [bind, Except.bind, pure, Except.pure]

section Movements

variable {t : CanonicalTransaction} {address : CanonicalAddress}

theorem position_movementRows {r : MovementRow} (h : r ∈ movementRows address t) : r.position = positionOf t := by
  obtain ⟨x, -, rfl⟩ := List.mem_map.mp h
  rfl

theorem movementRows_read {block : BlockRef} (hvalid : t.Valid address.scope block) :
    (movementRows address t).mapM (movement address.scope) = .ok t.movements := by
  unfold movementRows
  rw [List.mapM_map, mapM_list_ok (p := fun _ => True) (g := Prod.fst)]
  · exact ⟨fun _ _ => trivial, (List.zipIdx_map_fst 0 _).symm⟩
  · intro x hx y
    have hm := hvalid.movements x.1 (List.fst_mem_of_mem_zipIdx hx)
    rw [Function.comp_apply, movement_row x.1 hm.2.1 hm.2.2, Except.ok.injEq, true_and, eq_comm]

theorem movementRows_pairwise (collate : Text → Text → Ordering) [TransCmp collate] (address : CanonicalAddress)
    (t : CanonicalTransaction) :
    (movementRows address t).Pairwise fun r s => (compareMovement collate r s).isLE = true := by
  unfold movementRows
  rw [List.pairwise_map, List.pairwise_iff_getElem]
  intro i j hi hj hij
  have hsame : comparePosition collate (positionOf t) (positionOf t) = .eq := ReflCmp.compare_self
  have hordinal : (compare (i : Int) (j : Int)).isLE = true := Std.isLE_compare.mpr (by omega)
  rw [List.getElem_zipIdx, List.getElem_zipIdx, Nat.zero_add, Nat.zero_add]
  change ((comparePosition collate (positionOf t) (positionOf t)).then (compare (i : Int) (j : Int))).isLE = true
  rw [hsame]
  exact hordinal

theorem movement_of_row {block : BlockRef} (hvalid : t.Valid address.scope block) {r : MovementRow}
    (h : r ∈ movementRows address t) : ∃ m, movement address.scope r = .ok m := by
  obtain ⟨x, hx, rfl⟩ := List.mem_map.mp h
  have hm := hvalid.movements x.1 (List.fst_mem_of_mem_zipIdx hx)
  exact ⟨x.1, movement_row x.1 hm.2.1 hm.2.2⟩

end Movements

section Pages

variable {collate : Text → Text → Ordering} [TransCmp collate] {db : Db} {blocks : List BlockAddition}
  {request : HistoryQuery} {ts : List CanonicalTransaction}

theorem movementsBetween_filter (h : db.Stores blocks) {address : CanonicalAddress} {first last : Position}
    {t : CanonicalTransaction} (ht : t ∈ listed blocks address)
    (hfirst : (comparePosition collate first (positionOf t)).isLE = true)
    (hlast : (comparePosition collate (positionOf t) last).isLE = true) :
    (movementsBetween collate db address.scope address.value first last).filter (·.position = positionOf t) =
      movementRows address t := by
  have hone : (listed blocks address).filter (fun t' => positionOf t' = positionOf t) = [t] :=
    @filter_key _ _ _ ⟨positionOf, fun _ => true⟩ _ _ (h.positions_nodup address) ht
  have hrows : (db.movement.filter fun r => r.scope = address.scope ∧ r.address = address.value ∧
      (comparePosition collate first r.position).isLE ∧ (comparePosition collate r.position last).isLE).filter
        (·.position = positionOf t) = movementRows address t := by
    have hbetween : (db.movement.filter fun r => r.scope = address.scope ∧ r.address = address.value ∧
        (comparePosition collate first r.position).isLE ∧ (comparePosition collate r.position last).isLE).filter
          (·.position = positionOf t) = (db.movement.filter fun r =>
            r.scope = address.scope ∧ r.address = address.value).filter (·.position = positionOf t) := by
      rw [List.filter_filter, List.filter_filter]
      refine List.filter_congr fun r _ => ?_
      by_cases hp : r.position = positionOf t
      · simp [hp, hfirst, hlast]
      · simp [hp]
    rw [hbetween, h.movement_rows address, filter_flatMap_of (c := fun t' => decide (positionOf t' = positionOf t)),
      hone, List.flatMap_singleton]
    intro t' _ r hr
    rw [position_movementRows hr]
  rw [movementsBetween, filter_orderBy, hrows]
  rw [hrows]
  exact movementRows_pairwise collate address t

omit [TransCmp collate] in
theorem movement_of_between (h : db.Stores blocks) {address : CanonicalAddress} {first last : Position}
    {r : MovementRow} (hr : r ∈ movementsBetween collate db address.scope address.value first last) :
    ∃ m, movement address.scope r = .ok m := by
  obtain ⟨hmem, hkey⟩ := List.mem_filter.mp ((orderBy_perm _ _).mem_iff.mp hr)
  obtain ⟨hscope, haddress, -⟩ := of_decide_eq_true hkey
  have hrow : r ∈ db.movement.filter fun r => r.scope = address.scope ∧ r.address = address.value :=
    List.mem_filter.mpr ⟨hmem, decide_eq_true ⟨hscope, haddress⟩⟩
  rw [h.movement_rows address] at hrow
  obtain ⟨t, ht, hr⟩ := List.mem_flatMap.mp hrow
  exact movement_of_row (valid_of_listed ht) hr

theorem pageMovements_ok (h : db.Stores blocks) (hscope : request.scope = request.address.scope)
    (hlisted : ∀ t ∈ ts, t ∈ listed blocks request.address)
    (hsorted : ts.Pairwise fun t t' => (comparePosition collate (positionOf t) (positionOf t')).isLE = true) :
    ∃ g, pageMovements collate request.scope db request (ts.map (historyRow request.address)) = .ok g ∧
      ∀ t ∈ ts, g (positionOf t) = t.movements := by
  unfold pageMovements
  rw [List.head?_map, List.getLast?_map, hscope]
  cases hhead : ts.head? with
  | none =>
    obtain rfl := List.head?_eq_none_iff.mp hhead
    exact ⟨_, rfl, by simp⟩
  | some first =>
    cases hlast : ts.getLast? with
    | none =>
      obtain rfl := List.getLast?_eq_none_iff.mp hlast
      cases hhead
    | some last =>
      simp only [Option.map_some]
      have hread : ∀ r ∈ movementsBetween collate db request.address.scope request.address.value
          (historyRow request.address first).position (historyRow request.address last).position,
          ∃ m, movement request.address.scope r = .ok m := fun r hr => movement_of_between h hr
      obtain ⟨g, hg, hgroup⟩ := group_ok hread
      refine ⟨g, hg, fun t ht => ?_⟩
      have := transCmp_comap (comparePosition collate) positionOf
      obtain ⟨hlow, hhigh⟩ := between_of_pairwise hsorted hhead hlast ht
      have hown := hgroup (positionOf t)
      have hfilter : _ = movementRows request.address t := movementsBetween_filter h (hlisted t ht) hlow hhigh
      have hread := movementRows_read (valid_of_listed (hlisted t ht))
      rw [← hfilter] at hread
      exact Except.ok.inj (hown.symm.trans hread)

theorem assemble_ok {address : CanonicalAddress} {g : Grouped} (hnodup : (ts.map positionOf).Nodup)
    (hts : ∀ t ∈ ts, t.Valid address.scope t.block ∧ FeeNative t address.scope ∧ g (positionOf t) = t.movements) :
    assemble address.scope g (ts.map (historyRow address)) = .ok ts := by
  induction ts generalizing g with
  | nil => rfl
  | cons t rest ih =>
    rw [List.map_cons, List.nodup_cons] at hnodup
    obtain ⟨hvalid, hfee, hown⟩ := hts t List.mem_cons_self
    have hread : canonical address.scope (historyRow address t) (g (positionOf t)) = .ok t := by
      rw [hown]
      exact canonical_row hvalid hfee
    -- The rest have other positions, so they keep their movements.
    have hrest : assemble address.scope (g.remove (positionOf t)) (rest.map (historyRow address)) = .ok rest := by
      refine ih hnodup.2 fun t' ht' => ?_
      obtain ⟨hvalid', hfee', hown'⟩ := hts t' (List.mem_cons_of_mem _ ht')
      have hne : positionOf t' ≠ positionOf t := fun heq => hnodup.1 (heq ▸ List.mem_map_of_mem ht')
      exact ⟨hvalid', hfee', by rw [Grouped.remove, if_neg hne, hown']⟩
    rw [List.map_cons, assemble]
    exact bind_ok.mpr ⟨t, hread, bind_ok.mpr ⟨rest, hrest, rfl⟩⟩

/-! ## Pages of what is stored -/

/-- Where a page starts, for a cursor whose height fits its column. -/
def startPosition : Option HistoryCursor → Position
  | some cursor => (cursor.position.height.val.toNat, cursor.position.transaction.value)
  | none => (-1, .lit "" (Eq.refl true))

/-- The listed transactions after a position, in order. -/
def following (collate : Text → Text → Ordering) (blocks : List BlockAddition) (address : CanonicalAddress)
    (after : Position) : List CanonicalTransaction :=
  orderBy (fun t t' => comparePosition collate (positionOf t) (positionOf t')) ((listed blocks address).filter fun t =>
    comparePosition collate after (positionOf t) = .lt)

def pageOf (collate : Text → Text → Ordering) (blocks : List BlockAddition) (checkpoint : Option BlockRef)
    (request : HistoryQuery) : CanonicalPage :=
  let all := following collate blocks request.address (startPosition request.after)
  let transactions := all.take request.limit
  let last := if request.limit < all.length then transactions.getLast? else none
  { checkpoint, transactions, next := last.map fun t => ⟨checkpoint, ⟨t.block.height, t.transactionId⟩⟩ }

omit [TransCmp collate] in
theorem historyPage_eq (h : db.Stores blocks) (address : CanonicalAddress) (after : Position) (limit : Nat) :
    historyPage collate db address.scope address.value after limit =
      ((following collate blocks address after).take limit).map (historyRow address) := by
  have hfilter : (db.history.filter fun r => r.scope = address.scope ∧ r.address = address.value ∧
      comparePosition collate after r.position = .lt) = ((listed blocks address).filter fun t =>
        comparePosition collate after (positionOf t) = .lt).map (historyRow address) := by
    have hcomp : ((fun r : HistoryRow => decide (comparePosition collate after r.position = .lt)) ∘ historyRow address) =
        fun t => decide (comparePosition collate after (positionOf t) = .lt) := rfl
    rw [← hcomp, ← List.filter_map, ← h.history_rows address, List.filter_filter]
    refine List.filter_congr fun r _ => ?_
    by_cases hafter : comparePosition collate after r.position = .lt <;> simp [hafter]
  unfold historyPage following
  rw [hfilter, List.map_take, ← map_orderBy]
  rfl

omit [TransCmp collate] in
theorem mem_following {after : Position} {address : CanonicalAddress} {t : CanonicalTransaction}
    (h : t ∈ following collate blocks address after) : t ∈ listed blocks address :=
  (List.mem_filter.mp ((orderBy_perm _ _).mem_iff.mp h)).1

/-- A request that the repository serves. -/
structure Served (checkpoint : Option BlockRef) (request : HistoryQuery) : Prop where
  scope : request.scope = request.address.scope
  limit : 0 < request.limit ∧ request.limit ≤ maxPage
  cursor : ∀ c ∈ request.after, c.checkpoint = checkpoint ∧ c.position.height.val.toNat < 2 ^ 63

theorem listHistory_ok (h : db.Stores blocks) (hfees : ∀ t ∈ listed blocks request.address, FeeNative t request.scope)
    {checkpoint : Option BlockRef} (hcheckpoint : lockedCheckpoint db request.scope = .ok checkpoint)
    (hserved : Served checkpoint request) :
    listHistory collate request.scope db request = .ok (pageOf collate blocks checkpoint request) := by
  have hscope : checkScope request.scope request.scope = .ok () := if_pos rfl
  have haddress : checkAddress request.scope request.address = .ok () :=
    if_pos (decide_eq_true hserved.scope.symm)
  have hlimit : checkLimit request.limit = .ok () := if_neg (by have := hserved.limit; omega)
  have hcursor : checkCursor checkpoint request.after = .ok () := by
    refine if_neg fun hany => ?_
    obtain ⟨c, hc, hne⟩ := (Option.any_eq_true ..).mp hany
    exact of_decide_eq_true hne (hserved.cursor c hc).1
  have hstart : startOf request.after = .ok (startPosition request.after) := by
    cases hafter : request.after with
    | none => rfl
    | some c => exact bind_ok.mpr ⟨_, asI64_ok.mpr ⟨(hserved.cursor c hafter).2, rfl⟩, rfl⟩
  set all := following collate blocks request.address (startPosition request.after) with hall
  have hrows : historyPage collate db request.scope request.address.value (startPosition request.after)
      (request.limit + 1) = (all.take (request.limit + 1)).map (historyRow request.address) := by
    rw [hserved.scope]
    exact historyPage_eq h ..
  have hpage : ((all.take (request.limit + 1)).map (historyRow request.address)).take request.limit =
      (all.take request.limit).map (historyRow request.address) := by
    rw [← List.map_take, List.take_take, Nat.min_eq_left (Nat.le_succ _)]
  have hmore : request.limit < ((all.take (request.limit + 1)).map (historyRow request.address)).length ↔
      request.limit < all.length := by
    rw [List.length_map, List.length_take]
    omega
  have hlisted : ∀ t ∈ all.take request.limit, t ∈ listed blocks request.address := fun t ht =>
    mem_following (List.mem_of_mem_take ht)
  have hsorted : (all.take request.limit).Pairwise fun t t' =>
      (comparePosition collate (positionOf t) (positionOf t')).isLE = true := by
    have := transCmp_comap (comparePosition collate) positionOf
    exact (orderBy_pairwise _).sublist (List.take_sublist ..)
  have hnodup : ((all.take request.limit).map positionOf).Nodup := by
    have hfollowing : (all.map positionOf).Nodup := ((orderBy_perm _ _).map positionOf).nodup_iff.mpr
      ((h.positions_nodup request.address).sublist (List.filter_sublist.map _))
    exact hfollowing.sublist ((List.take_sublist ..).map _)
  obtain ⟨g, hg, hown⟩ := pageMovements_ok h hserved.scope hlisted hsorted
  have htransactions : assemble request.scope g ((all.take request.limit).map (historyRow request.address)) =
      .ok (all.take request.limit) := by
    rw [hserved.scope] at hfees ⊢
    exact assemble_ok hnodup fun t ht =>
      ⟨valid_of_listed (hlisted t ht), hfees t (hlisted t ht), hown t ht⟩
  unfold listHistory
  refine bind_ok.mpr ⟨(), hscope, bind_ok.mpr ⟨(), haddress, bind_ok.mpr ⟨(), hlimit, bind_ok.mpr
    ⟨checkpoint, hcheckpoint, bind_ok.mpr ⟨(), hcursor, bind_ok.mpr ⟨_, hstart, ?_⟩⟩⟩⟩⟩⟩
  rw [hrows]
  dsimp only
  rw [hpage]
  refine bind_ok.mpr ⟨g, hg, bind_ok.mpr ⟨_, htransactions, bind_ok.mpr ⟨checkpoint, hcheckpoint, ?_⟩⟩⟩
  rw [if_neg (by simp)]
  simp only [hmore, pageOf, ← hall]

/-! ## In every state -/

theorem exists_checkpoint (hsound : db.Sound) (scope : IndexScope) :
    ∃ checkpoint, lockedCheckpoint db scope = .ok checkpoint := by
  by_cases hmem : scope ∈ db.checkpoint.map checkpointSchema.key
  · obtain ⟨⟨s, block⟩, hr, rfl⟩ := List.mem_map.mp hmem
    obtain ⟨b, -, rfl⟩ := hsound.stored _ hr
    exact ⟨some b, lockedCheckpoint_of_mem hsound.keys hr⟩
  · have hfilter : db.checkpoint.filter (fun r => decide (r.scope = scope)) = [] :=
      List.filter_eq_nil_iff.mpr fun r hr hs => hmem (List.mem_map.mpr ⟨r, hr, of_decide_eq_true hs⟩)
    unfold lockedCheckpoint
    rw [hfilter]
    exact ⟨none, rfl⟩

/-- What interpretation hands over, and the checks take. -/
def Interpreted (a : BlockAddition) : Prop :=
  ∃ block, BlockAddition.new a.scope a.expectedCheckpoint a.retention block = .ok a

theorem Interpreted.feeNative {a : BlockAddition} (h : Interpreted a) : ∀ t ∈ a.transactions, FeeNative t a.scope := by
  obtain ⟨block, hnew⟩ := h
  intro t ht
  obtain ⟨d, -, hd⟩ := (mem_canonicalAll (new_transactions hnew)).2 t ht
  exact canonical_feeNative hd

theorem feeNative_of_listed (h : ∀ a ∈ blocks, Interpreted a) {address : CanonicalAddress} {t : CanonicalTransaction}
    (ht : t ∈ listed blocks address) : FeeNative t address.scope := by
  obtain ⟨a, ha, hmem, haddress⟩ := mem_listed.mp ht
  rw [addresses_scope (a.valid.canonical t hmem) haddress]
  exact (h a ha).feeNative t hmem

end Pages

/-- An input with an owner, an output without one, and a fee. -/
def sampleTransfer : ObservationDraft where
  scope := sampleScope
  transactionId := ⟨sampleScope, .lit "transfer" (Eq.refl true)⟩
  status := .included
  movements := [.input ⟨"input"⟩ sampleOutput.asset sampleOutput.amount (some sampleOutput.address),
    .output ⟨"output"⟩ sampleOutput.asset sampleOutput.amount none]
  fee := some ⟨sampleOutput.asset, sampleOutput.amount, some sampleOutput.address⟩

def sampleInterpreted : InterpretedBlock := ⟨sampleGenesis, [sampleTransfer], { created := [sampleOutput] }⟩

theorem sampleInterpreted_ok : ∃ a, BlockAddition.new sampleScope none 6 sampleInterpreted = .ok a := by
  have hok : (BlockAddition.new sampleScope none 6 sampleInterpreted).isOk = true := by decide
  cases hnew : BlockAddition.new sampleScope none 6 sampleInterpreted with
  | ok a => exact ⟨a, rfl⟩
  | error e =>
    rw [hnew] at hok
    cases hok

end PaymentSdk.Postgres
