import PaymentSdk.Lib.Checked
import PaymentSdk.Postgres.Repository

/-!
# What each statement of a commit needs, and what it leaves

Every function is described once: when it succeeds, and the database after it. Proofs about
commits and rollbacks do not unfold the functions again.
-/

open Relational Checked

namespace PaymentSdk.Postgres

/-! ## Results -/

section Except

variable {ε α β : Type} {x : Except ε α} {f : α → Except ε β} {a : α} {b : β}

theorem mapM_list_ok {l : List α} {g : α → β} {p : α → Prop} {r : List β}
    (hf : ∀ x ∈ l, ∀ y, f x = .ok y ↔ p x ∧ y = g x) : l.mapM f = .ok r ↔ (∀ x ∈ l, p x) ∧ r = l.map g := by
  induction l generalizing r with
  | nil => simp [pure_ok]
  | cons x rest ih =>
    rw [List.mapM_cons, bind_ok]
    have hrest := fun r => ih (r := r) fun y hy => hf y (List.mem_cons_of_mem _ hy)
    simp only [hf x List.mem_cons_self, bind_ok, hrest, pure_ok, List.mem_cons, forall_eq_or_imp, List.map_cons]
    constructor
    · rintro ⟨_, ⟨hx, rfl⟩, _, ⟨hall, rfl⟩, rfl⟩
      exact ⟨⟨hx, hall⟩, rfl⟩
    · rintro ⟨⟨hx, hall⟩, rfl⟩
      exact ⟨_, ⟨hx, rfl⟩, _, ⟨hall, rfl⟩, rfl⟩

theorem execute_ok {x : Except Refused α} {error : Refused → IndexError} : execute error x = .ok a ↔ x = .ok a := by
  cases x <;> simp [execute, Except.mapError]

end Except

theorem asI64_ok {v : UInt64} {what : String} {n : Int} : asI64 v what = .ok n ↔ v.toNat < 2 ^ 63 ∧ n = v.toNat := by
  by_cases h : v.toNat < 2 ^ 63
  · rw [asI64, if_pos h, Except.ok.injEq]
    exact ⟨fun e => ⟨h, e.symm⟩, fun e => e.2.symm⟩
  · rw [asI64, if_neg h]
    exact ⟨(nomatch ·), fun e => absurd e.1 h⟩

theorem asI32_ok {v : Nat} {message : String} {n : Int} : asI32 v message = .ok n ↔ v < 2 ^ 31 ∧ n = v := by
  by_cases h : v < 2 ^ 31
  · rw [asI32, if_pos h, Except.ok.injEq]
    exact ⟨fun e => ⟨h, e.symm⟩, fun e => e.2.symm⟩
  · rw [asI32, if_neg h]
    exact ⟨(nomatch ·), fun e => absurd e.1 h⟩

theorem mapM_asI64 {α : Type} {o : Option α} {f : α → UInt64} {what : String} {r : Option Int} :
    o.mapM (fun x => asI64 (f x) what) = .ok r ↔
      (∀ x ∈ o, (f x).toNat < 2 ^ 63) ∧ r = o.map fun x => ((f x).toNat : Int) := by
  cases o with
  | none => simp [pure, Except.pure, eq_comm]
  | some x =>
    rw [Option.mapM_some, map_ok]
    simp only [asI64_ok, Option.mem_some_iff, forall_eq', Option.map_some]
    constructor
    · rintro ⟨_, ⟨hfits, rfl⟩, rfl⟩
      exact ⟨hfits, rfl⟩
    · rintro ⟨hfits, rfl⟩
      exact ⟨_, ⟨hfits, rfl⟩, rfl⟩

/-! ## Blocks -/

def columns (b : BlockRef) : BlockColumns where
  position := b.position.val.toNat
  height := b.height.val.toNat
  hash := b.hash
  parentPosition := b.parent.map fun p => (p.position.val.toNat : Int)
  parent := b.parent.map (·.hash)
  timestamp := b.timestamp.map fun t => (t.toNat : Int)

/-- The numbers fit their columns, and a block has a parent below it unless it is at position 0. -/
structure Storable (b : BlockRef) : Prop where
  position : b.position.val.toNat < 2 ^ 63
  height : b.height.val.toNat < 2 ^ 63
  parentPosition : ∀ p ∈ b.parent, p.position.val.toNat < 2 ^ 63
  timestamp : ∀ t ∈ b.timestamp, t.toNat < 2 ^ 63
  complete : match b.parent with
    | none => b.position.val.toNat = 0
    | some p => p.position.val.toNat < b.position.val.toNat

theorem parentComplete_columns (b : BlockRef) : (columns b).parentComplete = true ↔ match b.parent with
    | none => b.position.val.toNat = 0
    | some p => p.position.val.toNat < b.position.val.toNat := by
  unfold columns BlockColumns.parentComplete
  cases b.parent with
  | none => simp
  | some p =>
    simp only [Option.map_some, Bool.and_eq_true, decide_eq_true_eq]
    omega

theorem unsigned_ofNat (v : UInt64) (message : String) : unsigned v.toNat message = .ok v := by
  simp [unsigned]

theorem block_columns (b : BlockRef) : (columns b).block = .ok b := by
  obtain ⟨position, height, hash, parent, timestamp⟩ := b
  cases parent <;> cases timestamp <;>
    simp [columns, BlockColumns.block, unsigned_ofNat, bind, Except.bind, pure, Except.pure, Functor.map, Except.map]

theorem columns_inj {b c : BlockRef} (h : columns b = columns c) : b = c := by
  have hread := block_columns b
  rw [h, block_columns] at hread
  exact (Except.ok.inj hread).symm

/-! ## The statements of a commit -/

def oldest (a : BlockAddition) : Int :=
  if a.retention ≤ a.block.height.toNat then a.block.height.toNat - a.retention else -1

/-- The journal without what has aged out, and with the new block. -/
def journalled (db : Db) (scope : IndexScope) (a : BlockAddition) : Db :=
  let pruned := deleteJournal db fun r => r.scope = scope ∧ r.block.height ≤ oldest a
  { pruned with journal := pruned.journal ++ [⟨scope, columns a.block, a.expectedCheckpoint.map columns⟩] }

def historyOf (scope : IndexScope) (a : BlockAddition) : List HistoryRow :=
  (touched a).map fun (t, address) => (historyEntry t address).row scope (columns a.block)

def movementEntry (t : CanonicalTransaction) (address : CanonicalAddress) (m : ValueMovement) (ordinal : Nat) :
    MovementEntry where
  address := address.value
  transactionId := t.transactionId.value
  ordinal := ordinal
  kind := .of m
  movementId := m.id
  asset := m.asset
  amount := m.amount
  fromAddress := m.fromAddress.map (·.value)
  toAddress := m.toAddress.map (·.value)

def movementOf (scope : IndexScope) (a : BlockAddition) : List MovementRow :=
  (touched a).flatMap fun (t, address) => t.movements.zipIdx.map fun (m, i) =>
    (movementEntry t address m i).row scope a.block.height.val.toNat

def outputRow (scope : IndexScope) (height : Int) (o : IndexedOutput) : OutputRow where
  scope := scope
  transactionId := o.id.transaction.value
  outputIndex := o.id.index.toNat
  address := o.address.value
  asset := o.asset
  amount := o.amount
  evidence := o.evidence
  createdAt := height
  coinbase := o.coinbase

def createdOf (scope : IndexScope) (a : BlockAddition) : List OutputRow :=
  a.outputs.created.map (outputRow scope a.block.height.val.toNat)

/-- No transaction that touches an address has more movements than ordinals. -/
def FewMovements (a : BlockAddition) : Prop := ∀ p ∈ touched a, p.1.movements.length ≤ 2 ^ 31

def SmallIndices (a : BlockAddition) : Prop := ∀ o ∈ a.outputs.created, o.id.index.toNat < 2 ^ 31

section Statements

variable {db db' : Db} {scope : IndexScope} {height : Int} {a : BlockAddition}

theorem oldestOf_ok (h : a.block.height.val.toNat < 2 ^ 63) {n : Int} : oldestOf a = .ok n ↔ n = oldest a := by
  unfold oldestOf oldest
  split
  · rename_i hle
    have hle' : a.retention ≤ a.block.height.val.toNat := hle
    rw [asI64_ok]
    have hval : (UInt64.ofNat (a.block.height.toNat - a.retention)).toNat = a.block.height.toNat - a.retention := by
      rw [UInt64.toNat_ofNat_of_lt']
      have := a.block.height.toNat_lt
      simp only [UInt64.size]
      omega
    rw [hval]
    have hcast : ((a.block.height.toNat - a.retention : Nat) : Int) = a.block.height.toNat - a.retention := by omega
    rw [hcast]
    have hlt : a.block.height.toNat - a.retention < 2 ^ 63 := Nat.lt_of_le_of_lt (Nat.sub_le _ _) h
    simp only [hlt, true_and]
  · simp [eq_comm]

theorem writeJournal_ok (hheight : height = a.block.height.val.toNat) (hfits : a.block.height.val.toNat < 2 ^ 63)
    (hprevious : ∀ c ∈ a.expectedCheckpoint, Storable c) :
    writeJournal db scope height a = .ok db' ↔
      Storable a.block ∧ (scope, height) ∉ db.journal.map journalSchema.key ∧ db' = journalled db scope a := by
  subst hheight
  have hrow : journalSchema.check ⟨scope, columns a.block, a.expectedCheckpoint.map columns⟩ = true ↔
      (columns a.block).parentComplete = true := by
    have hprev : (a.expectedCheckpoint.map columns).all
        (fun p => decide (0 ≤ p.height) && p.parentComplete) = true := by
      cases hexpected : a.expectedCheckpoint with
      | none => rfl
      | some c =>
        have hcomplete := (parentComplete_columns c).mpr (hprevious c hexpected).complete
        have hheight : 0 ≤ (columns c).height := Int.natCast_nonneg _
        rw [Option.map_some, Option.all_some, hcomplete, Bool.and_true, decide_eq_true hheight]
    simp [journalSchema, hprev]
  have hcolumns : (a.expectedCheckpoint.bind fun b => do
      pure (BlockColumns.mk (← a.expectedCheckpoint.map fun x => (x.position.val.toNat : Int))
        (← a.expectedCheckpoint.map fun x => (x.height.val.toNat : Int)) b.hash
        ((a.expectedCheckpoint.bind fun x => x.parent).map fun p => (p.position.val.toNat : Int))
        (b.parent.map (·.hash))
        ((a.expectedCheckpoint.bind fun x => x.timestamp).map fun t => (t.toNat : Int)))) =
      a.expectedCheckpoint.map columns := by
    cases a.expectedCheckpoint <;> rfl
  unfold writeJournal
  simp only [bind_ok, mapM_asI64, asI64_ok, oldestOf_ok hfits, execute_ok, insertRow_ok, pure_ok]
  constructor
  · rintro ⟨_, ⟨-, rfl⟩, _, ⟨-, rfl⟩, _, ⟨-, rfl⟩, _, ⟨-, rfl⟩, _, rfl, _, ⟨htimestamp, rfl⟩, _, ⟨hposition, rfl⟩,
      _, ⟨hparent, rfl⟩, _, ⟨hcheck, hkey, -⟩, rfl⟩
    rw [hcolumns] at hcheck ⊢
    refine ⟨⟨hposition, hfits, hparent, htimestamp, ?_⟩, hkey, rfl⟩
    exact (parentComplete_columns a.block).mp (hrow.mp hcheck)
  · rintro ⟨hstorable, hkey, rfl⟩
    refine ⟨_, ⟨fun c hc => (hprevious c hc).height, rfl⟩, _, ⟨fun c hc => (hprevious c hc).position, rfl⟩,
      _, ⟨fun p hp => ?_, rfl⟩, _, ⟨fun t ht => ?_, rfl⟩, _, rfl, _, ⟨hstorable.timestamp, rfl⟩,
      _, ⟨hstorable.position, rfl⟩, _, ⟨hstorable.parentPosition, rfl⟩, _, ⟨?_, hkey, rfl⟩, ?_⟩
    · obtain ⟨c, hc, hp⟩ := Option.bind_eq_some_iff.mp hp
      exact (hprevious c hc).parentPosition p hp
    · obtain ⟨c, hc, ht⟩ := Option.bind_eq_some_iff.mp ht
      exact (hprevious c hc).timestamp t ht
    · rw [hcolumns]
      exact hrow.mpr ((parentComplete_columns a.block).mpr hstorable.complete)
    · rw [hcolumns]
      rfl

theorem moveCheckpoint_ok {b : BlockRef} : moveCheckpoint db scope b = .ok db' ↔
    Storable b ∧ db' = { db with checkpoint := replaceRow checkpointSchema db.checkpoint ⟨scope, columns b⟩ } := by
  unfold moveCheckpoint
  simp only [bind_ok, mapM_asI64, asI64_ok, execute_ok, upsert_ok, pure_ok]
  constructor
  · rintro ⟨_, ⟨hposition, rfl⟩, _, ⟨hheight, rfl⟩, _, ⟨htimestamp, rfl⟩, _, ⟨hparent, rfl⟩, _, ⟨hcheck, rfl⟩, rfl⟩
    exact ⟨⟨hposition, hheight, hparent, htimestamp, (parentComplete_columns b).mp hcheck⟩, rfl⟩
  · rintro ⟨h, rfl⟩
    exact ⟨_, ⟨h.position, rfl⟩, _, ⟨h.height, rfl⟩, _, ⟨h.timestamp, rfl⟩, _, ⟨h.parentPosition, rfl⟩, _,
      ⟨(parentComplete_columns b).mpr h.complete, rfl⟩, rfl⟩

theorem movementsOf_ok {t : CanonicalTransaction} {address : CanonicalAddress} {r : List MovementEntry} :
    movementsOf t address = .ok r ↔ t.movements.length ≤ 2 ^ 31 ∧ r = t.movements.zipIdx.map fun (m, i) =>
      movementEntry t address m i := by
  unfold movementsOf
  rw [mapM_list_ok (p := fun x => x.2 < 2 ^ 31)]
  · refine and_congr_left fun _ => ?_
    constructor
    · intro h
      by_contra hlong
      have hlt : 2 ^ 31 < t.movements.length := by omega
      have hmem : (t.movements[2 ^ 31], 2 ^ 31) ∈ t.movements.zipIdx :=
        List.mem_zipIdx_iff_getElem?.mpr (List.getElem?_eq_getElem hlt)
      exact absurd (h _ hmem) (Nat.lt_irrefl _)
    · intro h x hx
      have := List.snd_lt_of_mem_zipIdx hx
      omega
  · rintro ⟨m, i⟩ - y
    simp only [bind_ok, asI32_ok, pure_ok]
    constructor
    · rintro ⟨_, ⟨hi, rfl⟩, rfl⟩
      exact ⟨hi, rfl⟩
    · rintro ⟨hi, rfl⟩
      exact ⟨_, ⟨hi, rfl⟩, rfl⟩

theorem historyRows_ok {r : List HistoryEntry × List MovementEntry} : historyRows a = .ok r ↔
    FewMovements a ∧ r = ((touched a).map fun (t, address) => historyEntry t address,
      (touched a).flatMap fun (t, address) => t.movements.zipIdx.map fun (m, i) =>
        movementEntry t address m i) := by
  unfold historyRows
  simp only [bind_ok, mapM_list_ok (fun x _ _ => movementsOf_ok), pure_ok, FewMovements, List.flatMap]
  constructor
  · rintro ⟨_, ⟨hfew, rfl⟩, rfl⟩
    exact ⟨hfew, rfl⟩
  · rintro ⟨hfew, rfl⟩
    exact ⟨_, ⟨hfew, rfl⟩, rfl⟩

theorem outputRows_ok {r : List OutputRow} {outputs : List IndexedOutput} : outputRows scope height outputs = .ok r ↔
    (∀ o ∈ outputs, o.id.index.toNat < 2 ^ 31) ∧ r = outputs.map (outputRow scope height) := by
  unfold outputRows
  refine mapM_list_ok fun o _ y => ?_
  simp only [bind_ok, index, asI32_ok, pure_ok]
  constructor
  · rintro ⟨_, ⟨hi, rfl⟩, rfl⟩
    exact ⟨hi, rfl⟩
  · rintro ⟨hi, rfl⟩
    exact ⟨_, ⟨hi, rfl⟩, rfl⟩

/-! ### Keys of the new rows -/

theorem mem_touched {p : CanonicalTransaction × CanonicalAddress} (h : p ∈ touched a) :
    p.1 ∈ a.transactions ∧ p.2 ∈ p.1.addresses := by
  obtain ⟨t, ht, hp⟩ := List.mem_flatMap.mp h
  obtain ⟨address, haddress, rfl⟩ := List.mem_map.mp hp
  exact ⟨ht, Std.ExtTreeSet.mem_toList.mp haddress⟩

theorem touched_nodup (a : BlockAddition) :
    ((touched a).map fun p => (p.2.value, p.1.transactionId.value)).Nodup := by
  rw [touched, List.map_flatMap, List.nodup_flatMap]
  constructor
  · intro t ht
    rw [List.map_map]
    refine List.Nodup.map_on ?_ ?_
    · intro x hx y hy hxy
      have hx' := addresses_scope (a.valid.canonical t ht) (Std.ExtTreeSet.mem_toList.mp hx)
      have hy' := addresses_scope (a.valid.canonical t ht) (Std.ExtTreeSet.mem_toList.mp hy)
      obtain ⟨scope, value⟩ := x
      obtain ⟨scope', value'⟩ := y
      simp_all
    · refine Std.ExtTreeSet.distinct_toList.imp fun hne heq => hne ?_
      rw [heq]
      exact Std.ReflCmp.compare_self
  · have hids : a.transactions.Pairwise fun t t' => t.transactionId ≠ t'.transactionId :=
      List.pairwise_map.mp a.valid.ids
    refine hids.imp_of_mem fun {t t'} ht ht' hne => ?_
    intro x hx hx'
    obtain ⟨p, hp, rfl⟩ := List.mem_map.mp hx
    obtain ⟨p', hp', heq⟩ := List.mem_map.mp hx'
    obtain ⟨address, -, rfl⟩ := List.mem_map.mp hp
    obtain ⟨address', -, rfl⟩ := List.mem_map.mp hp'
    refine hne ?_
    have hscope := (a.valid.canonical t ht).id_scope
    have hscope' := (a.valid.canonical t' ht').id_scope
    have hvalue : t'.transactionId.value = t.transactionId.value := (Prod.mk.inj heq).2
    cases hid : t.transactionId
    cases hid' : t'.transactionId
    simp_all

theorem historyKeys_nodup (scope : IndexScope) (a : BlockAddition) :
    ((historyOf scope a).map historySchema.key).Nodup := by
  rw [historyOf, List.map_map]
  refine List.Nodup.of_map (fun k => (k.2.1, k.2.2.2)) ?_
  rw [List.map_map]
  exact touched_nodup a

theorem movementKeys_nodup (scope : IndexScope) (a : BlockAddition) :
    ((movementOf scope a).map movementSchema.key).Nodup := by
  rw [movementOf, List.map_flatMap, List.nodup_flatMap]
  constructor
  · rintro ⟨t, address⟩ -
    rw [List.map_map]
    have hordinals : ((t.movements.zipIdx.map Prod.snd).map fun (i : Nat) => (i : Int)).Nodup := by
      rw [List.zipIdx_map_snd]
      exact List.Nodup.map (fun _ _ => Int.ofNat.inj) List.nodup_range'
    refine List.Nodup.of_map (fun k => k.2.2.2.2) ?_
    rwa [List.map_map] at hordinals ⊢
  · have hpairs := List.pairwise_map.mp (touched_nodup a)
    refine hpairs.imp fun {p p'} hne => ?_
    intro x hx hx'
    obtain ⟨r, hr, rfl⟩ := List.mem_map.mp hx
    obtain ⟨r', hr', heq⟩ := List.mem_map.mp hx'
    obtain ⟨m, -, rfl⟩ := List.mem_map.mp hr
    obtain ⟨m', -, rfl⟩ := List.mem_map.mp hr'
    simp only [movementSchema, MovementEntry.row, movementEntry, Prod.mk.injEq] at heq
    exact hne (Prod.ext heq.2.1.symm heq.2.2.2.1.symm)

theorem createdKeys_nodup (scope : IndexScope) (a : BlockAddition) :
    ((createdOf scope a).map outputSchema.key).Nodup := by
  rw [createdOf, List.map_map]
  refine List.Nodup.map_on ?_ (List.Nodup.of_map _ a.valid.changes.ids)
  intro x hx y hy hkey
  refine List.inj_on_of_nodup_map a.valid.changes.ids hx hy ?_
  have hx' := (a.valid.changes.created x hx).2.1
  have hy' := (a.valid.changes.created y hy).2.1
  simp only [Function.comp, outputSchema, outputRow, Prod.mk.injEq, true_and] at hkey
  obtain ⟨⟨⟨scope, value⟩, index⟩, _⟩ := x
  obtain ⟨⟨⟨scope', value'⟩, index'⟩, _⟩ := y
  have hindex : index = index' := UInt32.toNat_inj.mp (Int.ofNat.inj hkey.2)
  simp_all

/-! ### The other statements -/

theorem unnestEntry_prepare : unnestEntry.prepare = .ok () := rfl

theorem writeMovements_ok {movements : List MovementEntry} : writeMovements db scope height movements = .ok db' ↔
    ∃ t, insertRows movementSchema db.movement (movements.map (·.row scope height)) = .ok t ∧
      db' = { db with movement := t } := by
  unfold writeMovements
  cases movements with
  | nil =>
    have hnil : insertRows movementSchema db.movement [] = .ok db.movement := rfl
    simp [hnil, pure_ok]
  | cons e rest =>
    simp only [List.isEmpty_cons, Bool.false_eq_true, if_false, bind_ok, execute_ok, unnestEntry_prepare, true_and,
      pure_ok, exists_const]

theorem writeHistory_ok (hheight : height = a.block.height.val.toNat) (hblock : Storable a.block) :
    writeHistory db scope height a = .ok db' ↔ FewMovements a ∧
      (∀ r ∈ historyOf scope a, historySchema.key r ∉ db.history.map historySchema.key) ∧
      (∀ r ∈ movementOf scope a, movementSchema.key r ∉ db.movement.map movementSchema.key) ∧
      db' = { db with history := db.history ++ historyOf scope a, movement := db.movement ++ movementOf scope a } := by
  subst hheight
  have hchecks : ∀ r ∈ historyOf scope a, historySchema.check r = true := by
    intro r hr
    obtain ⟨p, -, rfl⟩ := List.mem_map.mp hr
    exact (parentComplete_columns a.block).mpr hblock.complete
  unfold writeHistory
  simp only [bind_ok, historyRows_ok, and_assoc, exists_and_left, exists_eq_left]
  refine and_congr_right fun _ => ?_
  by_cases hempty : touched a = []
  · have hhistory : historyOf scope a = [] := by rw [historyOf, hempty]; rfl
    have hmovement : movementOf scope a = [] := by rw [movementOf, hempty]; rfl
    simp [hempty, hhistory, hmovement, pure_ok]
  · have hsome : ((touched a).map fun (t, address) => historyEntry t address).isEmpty = false := by simp [hempty]
    have hrows : ((touched a).map fun x => historyEntry x.1 x.2).map (·.row scope (columns a.block)) =
        historyOf scope a := List.map_map
    have hmovements : ((touched a).flatMap fun x => x.1.movements.zipIdx.map fun y =>
        movementEntry x.1 x.2 y.1 y.2).map (·.row scope a.block.height.val.toNat) = movementOf scope a := by
      rw [List.map_flatMap, movementOf]
      simp only [List.map_map, Function.comp_def]
    simp only [hsome, Bool.false_eq_true, if_false, bind_ok, asI64_ok, mapM_asI64, execute_ok, unnestEntry_prepare,
      writeMovements_ok, hmovements]
    constructor
    · rintro ⟨_, ⟨-, rfl⟩, _, ⟨-, rfl⟩, _, ⟨-, rfl⟩, _, -, history, hhistory, movement, hmovement, rfl⟩
      obtain ⟨-, -, hfresh, rfl⟩ := insertRows_ok.mp (hrows ▸ hhistory)
      obtain ⟨-, -, hfresh', rfl⟩ := insertRows_ok.mp hmovement
      exact ⟨hfresh, hfresh', rfl⟩
    · rintro ⟨hfresh, hfresh', rfl⟩
      refine ⟨_, ⟨hblock.position, rfl⟩, _, ⟨hblock.parentPosition, rfl⟩, _, ⟨hblock.timestamp, rfl⟩, (), trivial, _,
        ?_, _, insertRows_ok.mpr ⟨fun _ _ => rfl, movementKeys_nodup scope a, hfresh', rfl⟩, rfl⟩
      refine Eq.trans (congrArg _ hrows) (insertRows_ok.mpr ⟨hchecks, historyKeys_nodup scope a, hfresh, rfl⟩)

theorem writeCreated_ok (hheight : height = a.block.height.val.toNat) :
    writeCreated db scope height a = .ok db' ↔ SmallIndices a ∧
      (∀ r ∈ createdOf scope a, outputSchema.key r ∉ db.output.map outputSchema.key) ∧
      db' = { db with output := db.output ++ createdOf scope a } := by
  subst hheight
  unfold writeCreated
  simp only [bind_ok, outputRows_ok, and_assoc, exists_and_left, exists_eq_left]
  refine and_congr_right fun _ => ?_
  change (if (createdOf scope a).isEmpty = true then _ else _) = _ ↔ _
  by_cases hempty : createdOf scope a = []
  · simp [hempty, pure_ok]
  · have hsome : (createdOf scope a).isEmpty = false := by simp [hempty]
    simp only [hsome, Bool.false_eq_true, if_false, bind_ok, execute_ok, unnestEntry_prepare, insertRows_ok, pure_ok]
    constructor
    · rintro ⟨_, -, _, ⟨-, -, hfresh, rfl⟩, rfl⟩
      exact ⟨hfresh, rfl⟩
    · rintro ⟨hfresh, rfl⟩
      exact ⟨(), trivial, _, ⟨fun _ _ => rfl, createdKeys_nodup scope a, hfresh, rfl⟩, rfl⟩

theorem spend_fails (keys : List SpendKey) : spend db scope height keys = .error (storeError (.undefinedTable "output")) :=
  rfl

theorem spendKeys_ok {keys : List OutputKey} {r : List SpendKey} : spendKeys keys = .ok r ↔
    (∀ k ∈ keys, k.output.index.toNat < 2 ^ 31) ∧
      r = keys.map fun k => ⟨k.address.value, k.output.transaction.value, k.output.index.toNat⟩ := by
  unfold spendKeys
  refine mapM_list_ok fun k _ y => ?_
  simp only [bind_ok, index, asI32_ok, pure_ok]
  constructor
  · rintro ⟨_, ⟨hi, rfl⟩, rfl⟩
    exact ⟨hi, rfl⟩
  · rintro ⟨hi, rfl⟩
    exact ⟨_, ⟨hi, rfl⟩, rfl⟩

theorem spendRequired_ok {keys : List SpendKey} : spendRequired db scope height keys = .ok db' ↔
    keys = [] ∧ db' = db := by
  cases keys with
  | nil => simp [spendRequired, pure_ok]
  | cons k rest => simp [spendRequired, spend_fails, bind, Except.bind]

theorem spendTracked_ok {keys : List SpendKey} : spendTracked db scope height keys = .ok db' ↔
    keys = [] ∧ db' = db := by
  cases keys with
  | nil => simp [spendTracked, pure_ok]
  | cons k rest => simp [spendTracked, spend_fails, bind, Except.bind]

theorem writeSpent_ok : writeSpent db scope height a = .ok db' ↔ a.outputs.spends = [] ∧ db' = db := by
  unfold writeSpent
  simp only [bind_ok, spendKeys_ok, spendRequired_ok, spendTracked_ok, OutputChanges.spends, List.append_eq_nil_iff]
  constructor
  · rintro ⟨_, ⟨-, rfl⟩, _, ⟨-, rfl⟩, _, ⟨hspent, rfl⟩, htracked, rfl⟩
    exact ⟨⟨List.map_eq_nil_iff.mp hspent, List.map_eq_nil_iff.mp htracked⟩, rfl⟩
  · rintro ⟨⟨hspent, htracked⟩, rfl⟩
    rw [hspent, htracked]
    exact ⟨[], ⟨by simp, rfl⟩, [], ⟨by simp, rfl⟩, _, ⟨rfl, rfl⟩, rfl, rfl⟩

end Statements

end PaymentSdk.Postgres
