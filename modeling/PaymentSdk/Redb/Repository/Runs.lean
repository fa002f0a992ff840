import PaymentSdk.Redb.Repository.Spec

/-!
# What the repository's calls do alone

`writeBlock` and `removeTip` succeed exactly when the store meets a list of plain
conditions, and then they write a list of operations computed from the values read.
-/

open Interaction KvStore

namespace PaymentSdk.Redb

variable {size : Value → Bool} {s s' : Store Value} {self scope : IndexScope}

abbrev Facts := Key → Option Value

/-! ## Single calls -/

theorem decode_ok {T : Type} [Record T] {v : Value} {r : T} :
    decode T v = .ok r ↔ v = Record.encode r := by
  unfold decode
  constructor
  · intro h
    split at h
    · cases h
      exact Record.encode_decode _ _ (by assumption)
    · cases h
  · rintro rfl
    rw [Record.decode_encode]

theorem run_get_ok {T : Type} [Record T] {k : Key} {out : Option (VersionedRecord T)} :
    Prog.run (serve size) (get T k) s = (.ok out, s') ↔
      s' = s ∧ s.get k = out.map fun r => ⟨Record.encode r.value, r.version⟩ := by
  unfold get
  rw [run_get]
  cases hk : s.get k with
  | none => cases out <;> simp [eq_comm]
  | some e =>
    cases hd : decode T e.value with
    | error err =>
      simp only [hd, Prog.run_done, Prod.mk.injEq, reduceCtorEq, false_and, false_iff, not_and]
      rintro rfl
      cases out with
      | none => simp
      | some r =>
        intro h
        cases h
        rw [decode_ok.mpr rfl] at hd
        cases hd
    | ok v =>
      simp only [hd, Prog.run_done, Prod.mk.injEq, Except.ok.injEq]
      obtain ⟨value, version⟩ := e
      obtain rfl := decode_ok.mp hd
      cases out with
      | none => simp
      | some r =>
        obtain ⟨value, version'⟩ := r
        simp only [Option.some.injEq, VersionedRecord.mk.injEq, Option.map_some, Stored.mk.injEq]
        constructor
        · rintro ⟨⟨rfl, rfl⟩, rfl⟩
          exact ⟨rfl, rfl, rfl⟩
        · rintro ⟨rfl, he, rfl⟩
          refine ⟨⟨?_, rfl⟩, rfl⟩
          have h := hd.symm.trans (decode_ok.mpr he)
          exact Except.ok.inj h

theorem run_commit_ok {b : WriteBatch Value} {u : Unit} :
    Prog.run (serve size) (commit b) s = (.ok u, s') ↔
      (∀ c ∈ b.conditions, s.check c = none) ∧ s.version + 1 ≤ maxVersion ∧
        (∀ op ∈ b.operations, op.fits size = true) ∧ s' = s.write b.operations := by
  unfold commit
  rw [run_commit]
  rcases hc : s.commit size b with ⟨e | v, t⟩
  · simp only [Prog.run_done, Prod.mk.injEq, reduceCtorEq, false_and, false_iff]
    rintro ⟨h1, h2, h3, -⟩
    rw [commit_ok_iff.mpr ⟨h1, h2, h3, rfl, rfl⟩] at hc
    cases hc
  · obtain ⟨h1, h2, h3, -, rfl⟩ := commit_ok_iff.mp hc
    simp only [Prog.run_done, Prod.mk.injEq, true_and]
    constructor
    · rintro rfl
      exact ⟨h1, h2, h3, rfl⟩
    · rintro ⟨-, -, -, rfl⟩
      rfl

theorem run_checkScope_ok {u : Unit} :
    Prog.run (serve size) (checkScope self scope) s = (.ok u, s') ↔ s' = s ∧ self = scope := by
  unfold checkScope
  split <;> simp_all [eq_comm]

theorem run_lift_ok {T : Type} {r : Except IndexError T} {a : T} :
    Prog.run (serve size) (ExceptT.mk (Prog.done r) : Call T) s = (.ok a, s') ↔ s' = s ∧ r = .ok a := by
  show Prog.run (serve size) (Prog.done r) s = _ ↔ _
  rw [Prog.run_done]
  simp only [Prod.mk.injEq]
  tauto

/-! ## Reading a block -/

theorem run_get_snd {T : Type} [Record T] {k : Key} :
    (Prog.run (serve size) (get T k) s).2 = s := by
  unfold get
  rw [run_get]
  cases s.get k with
  | none => rfl
  | some stored => cases hd : decode T stored.value <;> simp only [hd, Prog.run_done]

theorem run_bind_snd {α β : Type} {p : Call α} {f : α → Call β}
    (hp : (Prog.run (serve size) p s).2 = s) (hf : ∀ a, (Prog.run (serve size) (f a) s).2 = s) :
    (Prog.run (serve size) (p >>= f : Call β) s).2 = s := by
  rw [Prog.run_except_bind]
  rcases hr : Prog.run (serve size) p s with ⟨e | a, t⟩ <;> rw [hr] at hp
  · exact hp
  · obtain rfl : t = s := hp
    exact hf a

theorem run_checkScope_snd : (Prog.run (serve size) (checkScope self scope) s).2 = s := by
  unfold checkScope
  split <;> rfl

theorem run_readBlock_snd (selector : BlockSelector) :
    (Prog.run (serve size) (readBlock self selector) s).2 = s := by
  cases selector with
  | tip scope | height scope h =>
    exact run_bind_snd run_checkScope_snd fun _ => run_bind_snd run_get_snd fun _ => rfl

theorem run_readBlock_height {h : BlockHeight} {out : Option BlockRef} :
    Prog.run (serve size) (readBlock self (.height self h)) s = (.ok out, s') ↔
      s' = s ∧ ∃ j : Option JournalRecord, s.valueAt (Keys.journal self h) = j.map .journal ∧
        out = j.map (·.blockRef) := by
  unfold readBlock
  simp only [Prog.run_bind_ok, run_checkScope_ok, run_get_ok, Prog.run_pure_ok]
  constructor
  · rintro ⟨_, _, ⟨rfl, _⟩, stored, _, ⟨rfl, hget⟩, rfl, rfl⟩
    refine ⟨rfl, stored.map (·.value), ?_, by cases stored <;> rfl⟩
    rw [Store.valueAt, hget]
    cases stored <;> rfl
  · rintro ⟨rfl, j, hj, rfl⟩
    unfold Store.valueAt at hj
    cases hk : s'.get (Keys.journal self h) with
    | none =>
      rw [hk] at hj
      cases j with
      | none => exact ⟨(), s', ⟨rfl, trivial⟩, none, s', ⟨rfl, hk⟩, rfl, rfl⟩
      | some j => cases hj
    | some stored =>
      obtain ⟨value, version⟩ := stored
      rw [hk] at hj
      cases j with
      | none => cases hj
      | some j =>
        obtain rfl : value = .journal j := Option.some.inj hj
        exact ⟨(), s', ⟨rfl, trivial⟩, some ⟨j, version⟩, s', ⟨rfl, hk⟩, rfl, rfl⟩

/-! ## Loops that build a batch -/

def extend (b : WriteBatch Value) (conditions : List Condition) (operations : List (Operation Value)) :
    WriteBatch Value :=
  ⟨b.conditions ++ conditions, b.operations ++ operations⟩

theorem foldl_extend {ι : Type} (conds : ι → List Condition) (ops : ι → List (Operation Value))
    (xs : List ι) (b : WriteBatch Value) :
    xs.foldl (fun b x => extend b (conds x) (ops x)) b = extend b (xs.flatMap conds) (xs.flatMap ops) := by
  induction xs generalizing b with
  | nil => simp [extend]
  | cons x xs ih =>
    rw [List.foldl_cons, ih]
    simp [extend]

theorem foldl_extend_pair {ι K : Type} (conds : ι → List Condition)
    (ops : ι → List (Operation Value)) (out : ι → List K) (xs : List ι)
    (acc : WriteBatch Value × List K) :
    xs.foldl (fun acc x => (extend acc.1 (conds x) (ops x), acc.2 ++ out x)) acc =
      (extend acc.1 (xs.flatMap conds) (xs.flatMap ops), acc.2 ++ xs.flatMap out) := by
  induction xs generalizing acc with
  | nil => simp [extend]
  | cons x xs ih =>
    rw [List.foldl_cons, ih]
    simp [extend]

def historyPut (self : IndexScope) (p : CanonicalTransaction × CanonicalAddress) : Operation Value :=
  .put (historyKey self p) (.transaction (TransactionRecord.fromDomain p.1))

def createdPut (self : IndexScope) (o : IndexedOutput) : Operation Value :=
  .put (Keys.output self o.key) (.output (OutputRecord.fromDomain o))

/-- What spending `output` takes out of the live outputs `F`. -/
def restored (self : IndexScope) (F : Facts) (output : OutputKey) : List RestoredOutput :=
  match F (Keys.output self output) with
  | some (.output r) => [⟨Keys.output self output, r⟩]
  | _ => []

/-- The outputs a rollback of this block brings back. -/
def restores (self : IndexScope) (a : BlockAddition) (F : Facts) : List RestoredOutput :=
  a.outputs.spends.flatMap (restored self F)

/-- The value at an output key is absent or an output. -/
def IsOutputValue : Option Value → Prop
  | none => True
  | some (.output _) => True
  | _ => False

theorem run_addMissing_ok {T : Type} [Record T] {message : String} {key : Key} {value : T}
    {acc acc' : WriteBatch Value × List Key} :
    Prog.run (serve size) (addMissing message key value acc) s = (.ok acc', s') ↔
      s' = s ∧ s.get key = none ∧
        acc' = (extend acc.1 [.missing key] [.put key (Record.encode value)], acc.2 ++ [key]) := by
  unfold addMissing
  simp only [Prog.run_bind_ok, run_get_ok]
  constructor
  · rintro ⟨out, t, ⟨rfl, hget⟩, hrest⟩
    split at hrest
    · simp at hrest
    · rename_i hnone
      obtain rfl : out = none := by simpa using hnone
      obtain ⟨rfl, rfl⟩ := (Prog.run_pure_ok _).mp hrest
      exact ⟨rfl, hget, rfl⟩
  · rintro ⟨rfl, hget, rfl⟩
    exact ⟨none, _, ⟨rfl, hget⟩, rfl⟩

/-- The version condition of a key that is there. -/
def versionCondition (s : Store Value) (k : Key) : List Condition :=
  match s.get k with
  | some e => [.version k e.version]
  | none => []

theorem check_versionCondition (s : Store Value) (k : Key) :
    ∀ c ∈ versionCondition s k, s.check c = none := by
  unfold versionCondition
  split
  · rename_i e he
    simp only [List.mem_singleton, forall_eq]
    exact check_version.mpr ⟨e, he, rfl⟩
  · simp

theorem run_addSpend_ok {acc acc' : WriteBatch Value × List RestoredOutput} {x : OutputKey × Bool} :
    Prog.run (serve size) (addSpend self acc x) s = (.ok acc', s') ↔
      s' = s ∧ (IsOutputValue (s.valueAt (Keys.output self x.1)) ∧
          (x.2 = true → s.valueAt (Keys.output self x.1) ≠ none)) ∧
        acc' = (extend acc.1 (versionCondition s (Keys.output self x.1))
            ((restored self s.valueAt x.1).map fun r => .delete r.key),
          acc.2 ++ restored self s.valueAt x.1) := by
  obtain ⟨output, required⟩ := x
  unfold addSpend
  simp only [Prog.run_bind_ok, run_get_ok]
  constructor
  · rintro ⟨out, t, ⟨rfl, hget⟩, hrest⟩
    cases out with
    | none =>
      have hget : t.get (Keys.output self output) = none := hget
      cases required with
      | true => simp at hrest
      | false =>
        obtain ⟨rfl, rfl⟩ := (Prog.run_pure_ok _).mp hrest
        refine ⟨rfl, ⟨?_, by simp⟩, ?_⟩
        · simp [Store.valueAt, hget, IsOutputValue]
        · simp [extend, versionCondition, restored, Store.valueAt, hget]
    | some e =>
      have hget : t.get (Keys.output self output) = some ⟨.output e.value, e.version⟩ := hget
      obtain ⟨rfl, rfl⟩ := (Prog.run_pure_ok _).mp hrest
      refine ⟨rfl, ⟨?_, ?_⟩, ?_⟩
      · simp [Store.valueAt, hget, IsOutputValue]
      · simp [Store.valueAt, hget]
      · simp [extend, versionCondition, restored, Store.valueAt, hget, delete, expect, condition]
  · rintro ⟨rfl, ⟨htyped, hreq⟩, rfl⟩
    cases hget : s'.get (Keys.output self output) with
    | none =>
      have hvalue : s'.valueAt (Keys.output self output) = none := by simp [Store.valueAt, hget]
      obtain rfl : required = false := by
        cases required
        · rfl
        · exact absurd hvalue (hreq rfl)
      refine ⟨none, _, ⟨rfl, rfl⟩, ?_⟩
      simp [extend, versionCondition, restored, hvalue, hget]
    | some e =>
      have hvalue : s'.valueAt (Keys.output self output) = some e.value := by simp [Store.valueAt, hget]
      obtain ⟨value, version⟩ := e
      rw [hvalue] at htyped
      cases value with
      | output r =>
        refine ⟨some ⟨r, version⟩, _, ⟨rfl, rfl⟩, ?_⟩
        simp [extend, versionCondition, restored, hvalue, hget, delete, expect, condition]
      | block | journal | transaction => exact htyped.elim

/-! ## Adding a block -/

def journalOf (self : IndexScope) (a : BlockAddition) (F : Facts) : JournalRecord :=
  journalRecord a ((historyPairs a).map (historyKey self))
    (a.outputs.created.map fun o => Keys.output self o.key) (restores self a F)

/-- The operations on history, outputs and checkpoint. -/
def factOps (self : IndexScope) (a : BlockAddition) (F : Facts) : List (Operation Value) :=
  (historyPairs a).map (historyPut self) ++ a.outputs.created.map (createdPut self) ++
    (restores self a F).map (fun r => .delete r.key)

def journalOps (self : IndexScope) (a : BlockAddition) (F : Facts) : List (Operation Value) :=
  [.put (Keys.journal self a.block.height) (.journal (journalOf self a F)),
    .put (Keys.checkpoint self) (.block (BlockRecord.fromDomain a.block))] ++
  (agedOut a).toList.map fun h => .delete (Keys.journal self h)

def additionOps (self : IndexScope) (a : BlockAddition) (F : Facts) : List (Operation Value) :=
  factOps self a F ++ journalOps self a F

/-- When an addition is written: everything that `writeBlock` checks, about one store. -/
structure Accepts (size : Value → Bool) (scope : IndexScope) (a : BlockAddition) (s : Store Value) :
    Prop where
  history : ∀ p ∈ historyPairs a, s.get (historyKey scope p) = none
  created : ∀ o ∈ a.outputs.created, s.get (Keys.output scope o.key) = none
  typed : ∀ k ∈ a.outputs.spends, IsOutputValue (s.valueAt (Keys.output scope k))
  required : ∀ k ∈ a.outputs.spent, s.valueAt (Keys.output scope k) ≠ none
  room : s.version + 1 ≤ maxVersion
  fits : ∀ op ∈ additionOps scope a s.valueAt, op.fits size = true

theorem spends_fine_iff {o : OutputChanges} {P Q : OutputKey → Prop} :
    (∀ x ∈ requiredThenTracked o, P x.1 ∧ (x.2 = true → Q x.1)) ↔
      (∀ k ∈ o.spends, P k) ∧ ∀ k ∈ o.spent, Q k := by
  simp only [requiredThenTracked, OutputChanges.spends, List.mem_append, List.mem_map]
  constructor
  · intro h
    refine ⟨?_, ?_⟩
    · rintro k (hk | hk)
      · exact (h (k, true) (Or.inl ⟨k, hk, rfl⟩)).1
      · exact (h (k, false) (Or.inr ⟨k, hk, rfl⟩)).1
    · intro k hk
      exact (h (k, true) (Or.inl ⟨k, hk, rfl⟩)).2 rfl
  · rintro ⟨hall, hreq⟩ _ (⟨k, hk, rfl⟩ | ⟨k, hk, rfl⟩)
    · exact ⟨hall k (Or.inl hk), fun _ => hreq k hk⟩
    · exact ⟨hall k (Or.inr hk), by simp⟩

theorem flatMap_requiredThenTracked {T : Type} (o : OutputChanges) (f : OutputKey → List T) :
    (requiredThenTracked o).flatMap (fun x => f x.1) = o.spends.flatMap f := by
  simp [requiredThenTracked, OutputChanges.spends, List.flatMap_append, List.flatMap_map]

theorem run_history_loop {ps : List (CanonicalTransaction × CanonicalAddress)} {b : WriteBatch Value}
    {acc : WriteBatch Value × List Key} :
    Prog.run (serve size) (ps.foldlM (addHistory self) (b, []) : Call _) s = (.ok acc, s') ↔
      s' = s ∧ (∀ p ∈ ps, s.get (historyKey self p) = none) ∧
        acc = (extend b (ps.map fun p => .missing (historyKey self p)) (ps.map (historyPut self)),
          ps.map (historyKey self)) := by
  rw [Prog.run_foldlM_ok (serve size) (f := addHistory self) (fun b x b' s' => run_addMissing_ok), foldl_extend_pair]
  simp only [← List.map_eq_flatMap, List.nil_append]
  rfl

theorem run_created_loop {os : List IndexedOutput} {b : WriteBatch Value}
    {acc : WriteBatch Value × List Key} :
    Prog.run (serve size) (os.foldlM (addCreated self) (b, []) : Call _) s = (.ok acc, s') ↔
      s' = s ∧ (∀ o ∈ os, s.get (Keys.output self o.key) = none) ∧
        acc = (extend b (os.map fun o => .missing (Keys.output self o.key)) (os.map (createdPut self)),
          os.map fun o => Keys.output self o.key) := by
  rw [Prog.run_foldlM_ok (serve size) (f := addCreated self) (fun b x b' s' => run_addMissing_ok), foldl_extend_pair]
  simp only [← List.map_eq_flatMap, List.nil_append]
  rfl

theorem run_spend_loop {o : OutputChanges} {b : WriteBatch Value}
    {acc : WriteBatch Value × List RestoredOutput} :
    Prog.run (serve size) ((requiredThenTracked o).foldlM (addSpend self) (b, []) : Call _) s =
        (.ok acc, s') ↔
      s' = s ∧ ((∀ k ∈ o.spends, IsOutputValue (s.valueAt (Keys.output self k))) ∧
          ∀ k ∈ o.spent, s.valueAt (Keys.output self k) ≠ none) ∧
        acc = (extend b (o.spends.flatMap (fun k => versionCondition s (Keys.output self k)))
            ((o.spends.flatMap (restored self s.valueAt)).map fun r => .delete r.key),
          o.spends.flatMap (restored self s.valueAt)) := by
  rw [Prog.run_foldlM_ok (serve size) (f := addSpend self) (fun b x b' s' => run_addSpend_ok), foldl_extend_pair,
    spends_fine_iff (P := fun k => IsOutputValue (s.valueAt (Keys.output self k)))
      (Q := fun k => s.valueAt (Keys.output self k) ≠ none),
    flatMap_requiredThenTracked o fun k => versionCondition s (Keys.output self k),
    flatMap_requiredThenTracked o (restored self s.valueAt),
    flatMap_requiredThenTracked o
      (fun k => (restored self s.valueAt k).map fun r => Operation.delete (V := Value) r.key),
    List.map_flatMap]
  rfl

/-- The whole batch, from the conditions that the checks of `writeBlock` put first. -/
def additionBatch (self : IndexScope) (a : BlockAddition) (s : Store Value) (conds : List Condition) :
    WriteBatch Value where
  conditions := conds ++ (historyPairs a).map (fun p => .missing (historyKey self p)) ++
    a.outputs.created.map (fun o => .missing (Keys.output self o.key)) ++
    a.outputs.spends.flatMap (fun k => versionCondition s (Keys.output self k))
  operations := additionOps self a s.valueAt

theorem check_additionBatch {a : BlockAddition} {conds : List Condition}
    (hconds : ∀ c ∈ conds, s.check c = none)
    (hhistory : ∀ p ∈ historyPairs a, s.get (historyKey self p) = none)
    (hcreated : ∀ o ∈ a.outputs.created, s.get (Keys.output self o.key) = none) :
    ∀ c ∈ (additionBatch self a s conds).conditions, s.check c = none := by
  intro c hc
  simp only [additionBatch, List.mem_append, List.mem_map, List.mem_flatMap] at hc
  rcases hc with ((hc | ⟨p, hp, rfl⟩) | ⟨o, ho, rfl⟩) | ⟨k, -, hc⟩
  · exact hconds c hc
  · exact check_missing.mpr (hhistory p hp)
  · exact check_missing.mpr (hcreated o ho)
  · exact check_versionCondition s _ c hc

theorem putJournal_eq (a : BlockAddition) (b : WriteBatch Value) :
    putJournal self a b (journalOf self a s.valueAt) = extend b [] (journalOps self a s.valueAt) := by
  unfold putJournal journalOps
  cases agedOut a <;> simp [extend, put, delete] <;> exact ⟨rfl, rfl⟩

theorem run_writeFacts_ok {a : BlockAddition} {conds : List Condition} {out : BlockOutcome}
    (hconds : ∀ c ∈ conds, s.check c = none) :
    Prog.run (serve size) (writeFacts self a ⟨conds, []⟩) s = (.ok out, s') ↔
      Accepts size self a s ∧ out = .applied ∧ s' = s.write (additionOps self a s.valueAt) := by
  have hbatch : extend (extend (extend (extend ⟨conds, []⟩
      ((historyPairs a).map fun p => .missing (historyKey self p)) ((historyPairs a).map (historyPut self)))
      (a.outputs.created.map fun o => .missing (Keys.output self o.key))
      (a.outputs.created.map (createdPut self)))
      (a.outputs.spends.flatMap (fun k => versionCondition s (Keys.output self k)))
      ((restores self a s.valueAt).map fun r => .delete r.key))
      [] (journalOps self a s.valueAt) = additionBatch self a s conds := by
    simp [additionBatch, additionOps, factOps, extend]
  unfold writeFacts
  simp only [Prog.run_bind_ok, run_history_loop]
  constructor
  · rintro ⟨_, _, ⟨rfl, hhistory, rfl⟩, _, _, hc, _, _, hsp, u, t, hcommit, hpure⟩
    obtain ⟨rfl, hcreated, rfl⟩ := run_created_loop.mp hc
    obtain ⟨rfl, ⟨htyped, hreq⟩, rfl⟩ := run_spend_loop.mp hsp
    obtain ⟨rfl, rfl⟩ := (Prog.run_pure_ok _).mp hpure
    have hops := (putJournal_eq a _).trans hbatch
    obtain ⟨-, hroom, hfits, rfl⟩ := run_commit_ok.mp
      ((congrArg (fun b => Prog.run (serve size) (commit b) _) hops).symm.trans hcommit)
    exact ⟨⟨hhistory, hcreated, htyped, hreq, hroom, hfits⟩, rfl, rfl⟩
  · rintro ⟨h, rfl, rfl⟩
    refine ⟨_, _, ⟨rfl, h.history, rfl⟩, _, _, run_created_loop.mpr ⟨rfl, h.created, rfl⟩, _, _,
      run_spend_loop.mpr ⟨rfl, ⟨h.typed, h.required⟩, rfl⟩, (), _, ?_, rfl⟩
    have hops := (putJournal_eq a _).trans hbatch
    refine Eq.trans (congrArg (fun b => Prog.run (serve size) (commit b) s) hops) ?_
    exact run_commit_ok.mpr ⟨check_additionBatch hconds h.history h.created, h.room, h.fits, rfl⟩

/-- The value under the checkpoint key when `b` is the checkpoint. -/
def checkpointValue (b : Option BlockRef) : Option Value := b.map fun b => .block (BlockRecord.fromDomain b)

theorem checkpoint_read {k : Key} {out : Option (VersionedRecord BlockRecord)}
    (h : s.get k = out.map fun r => ⟨Record.encode r.value, r.version⟩) :
    s.valueAt k = checkpointValue (out.map (·.value.intoDomain)) := by
  rw [Store.valueAt, h]
  cases out with
  | none => rfl
  | some r =>
    simp only [Option.map_some, checkpointValue, BlockRecord.fromDomain_intoDomain]
    rfl

theorem checkpointValue_inj {b c : Option BlockRef} (h : checkpointValue b = checkpointValue c) :
    b = c := by
  cases b <;> cases c <;> simp only [checkpointValue, Option.map_none, Option.map_some,
    reduceCtorEq, Option.some.injEq, Value.block.injEq] at h ⊢
  rename_i b c
  rw [← BlockRecord.intoDomain_fromDomain b, h, BlockRecord.intoDomain_fromDomain]

theorem exists_checkpoint_read {k : Key} {b : Option BlockRef} (h : s.valueAt k = checkpointValue b) :
    ∃ out : Option (VersionedRecord BlockRecord), out.map (·.value.intoDomain) = b ∧
      s.get k = out.map fun r => ⟨Record.encode r.value, r.version⟩ := by
  unfold Store.valueAt at h
  cases hk : s.get k with
  | none =>
    rw [hk] at h
    refine ⟨none, ?_, rfl⟩
    exact checkpointValue_inj h
  | some e =>
    obtain ⟨value, version⟩ := e
    rw [hk] at h
    cases b with
    | none => cases h
    | some b =>
      obtain rfl : value = .block (BlockRecord.fromDomain b) := Option.some.inj h
      exact ⟨some ⟨BlockRecord.fromDomain b, version⟩, by simp, rfl⟩

theorem check_condition {T : Type} [Record T] {k : Key} {out : Option (VersionedRecord T)}
    (h : s.get k = out.map fun r => ⟨Record.encode r.value, r.version⟩) :
    s.check (condition k out) = none := by
  cases out with
  | none => exact check_missing.mpr h
  | some r => exact check_version.mpr ⟨_, h, rfl⟩

theorem check_first {a : BlockAddition} {checkpoint : Option (VersionedRecord BlockRecord)}
    (hck : s.get (Keys.checkpoint self) =
      checkpoint.map fun r => ⟨Record.encode r.value, r.version⟩)
    (hj : s.get (Keys.journal self a.block.height) = none) :
    ∀ c ∈ [condition (Keys.checkpoint self) checkpoint,
      .missing (Keys.journal self a.block.height)], s.check c = none := by
  intro c hc
  rcases List.mem_pair.mp hc with rfl | rfl
  · exact check_condition hck
  · exact check_missing.mpr hj

theorem not_current_of_expected {a : BlockAddition} : a.expectedCheckpoint ≠ some a.block := by
  intro h
  have := (a.follows h).1
  omega

/-- `writeBlock` applies an addition exactly when it is for this scope, follows the stored
checkpoint, finds its height unjournalled, and the facts accept it. -/
theorem run_writeBlock_applied {a : BlockAddition} :
    Prog.run (serve size) (writeBlock self a) s = (.ok .applied, s') ↔
      self = a.scope ∧ s.valueAt (Keys.checkpoint self) = checkpointValue a.expectedCheckpoint ∧
        s.get (Keys.journal self a.block.height) = none ∧ Accepts size self a s ∧
        s' = s.write (additionOps self a s.valueAt) := by
  unfold writeBlock
  simp only [Prog.run_bind_ok, run_checkScope_ok, run_get_ok]
  constructor
  · rintro ⟨_, _, ⟨rfl, hscope⟩, checkpoint, _, ⟨rfl, hck⟩, journal, t, ⟨rfl, hj⟩, hrest⟩
    split at hrest
    · split at hrest <;> simp at hrest
    · split at hrest
      · simp at hrest
      · rename_i hnone
        split at hrest
        · simp at hrest
        · rename_i hexp
          obtain rfl : journal = none := by simpa using hnone
          obtain ⟨haccepts, -, rfl⟩ := (run_writeFacts_ok (check_first hck hj)).mp hrest
          refine ⟨hscope, ?_, hj, haccepts, rfl⟩
          rw [checkpoint_read hck, not_not.mp hexp]
  · rintro ⟨hscope, hck, hj, haccepts, rfl⟩
    obtain ⟨out, hout, hget⟩ := exists_checkpoint_read hck
    refine ⟨(), s, ⟨rfl, hscope⟩, out, s, ⟨rfl, hget⟩, none, s, ⟨rfl, hj⟩, ?_⟩
    rw [hout, if_neg not_current_of_expected, if_neg (by simp), if_neg (by simp)]
    exact (run_writeFacts_ok (check_first hget hj)).mpr ⟨haccepts, rfl, rfl⟩

theorem run_writeBlock_alreadyApplied {a : BlockAddition}
    (h : Prog.run (serve size) (writeBlock self a) s = (.ok .alreadyApplied, s')) :
    s' = s ∧ s.valueAt (Keys.checkpoint self) = checkpointValue (some a.block) := by
  unfold writeBlock at h
  simp only [Prog.run_bind_ok, run_checkScope_ok, run_get_ok] at h
  obtain ⟨_, _, ⟨rfl, -⟩, checkpoint, _, ⟨rfl, hck⟩, journal, t, ⟨rfl, hj⟩, hrest⟩ := h
  split at hrest
  · rename_i hcurrent
    split at hrest
    · obtain ⟨-, rfl⟩ := (Prog.run_pure_ok _).mp hrest
      exact ⟨rfl, by rw [checkpoint_read hck, hcurrent]⟩
    · simp at hrest
  · split at hrest
    · simp at hrest
    · rename_i hnone
      split at hrest
      · simp at hrest
      · obtain rfl : journal = none := by simpa using hnone
        obtain ⟨-, hout, -⟩ := (run_writeFacts_ok (check_first hck hj)).mp hrest
        cases hout

/-! ## Removing the tip -/

/-- A stored value that `removeHistory` takes out. -/
def HistoryOk (scope : IndexScope) (s : Store Value) (k : Key) : Prop :=
  Keys.isHistory scope k = true ∧
    ∃ r t, s.valueAt k = some (.transaction r) ∧ r.intoDomain = .ok t

/-- A created output that a rollback may take out. -/
def OutputOk (scope : IndexScope) (s : Store Value) (k : Key) : Prop :=
  Keys.isOutput scope k = true ∧
    ∃ r o, s.valueAt k = some (.output r) ∧ r.intoDomain = .ok o ∧ Keys.output scope o.key = k

/-- A spent output that a rollback may put back. -/
def RestoreOk (scope : IndexScope) (s : Store Value) (x : RestoredOutput) : Prop :=
  Keys.isOutput scope x.key = true ∧ s.get x.key = none ∧
    ∃ o, x.value.intoDomain = .ok o ∧ Keys.output scope o.key = x.key

theorem run_removeHistory_ok {b b' : WriteBatch Value} {k : Key} :
    Prog.run (serve size) (removeHistory scope b k) s = (.ok b', s') ↔
      s' = s ∧ HistoryOk scope s k ∧ b' = extend b (versionCondition s k) [.delete k] := by
  unfold removeHistory HistoryOk
  by_cases hkey : Keys.isHistory scope k = true
  · simp only [hkey, Bool.true_eq_false, if_false, Prog.run_bind_ok, run_get_ok, true_and]
    constructor
    · rintro ⟨out, t, ⟨rfl, hget⟩, hrest⟩
      cases out with
      | none => simp at hrest
      | some e =>
        simp only [Prog.run_bind_ok, run_lift_ok] at hrest
        obtain ⟨x, _, ⟨rfl, hx⟩, hpure⟩ := hrest
        obtain ⟨rfl, rfl⟩ := (Prog.run_pure_ok _).mp hpure
        refine ⟨rfl, ⟨e.value, x, ?_, hx⟩, ?_⟩
        · simp [Store.valueAt, hget, Record.encode]
        · simp [versionCondition, hget, extend, delete, expect, condition]
    · rintro ⟨rfl, ⟨r, x, hvalue, hx⟩, rfl⟩
      obtain ⟨⟨value, version⟩, hget, rfl⟩ := Option.map_eq_some_iff.mp hvalue
      refine ⟨some ⟨r, version⟩, _, ⟨rfl, hget⟩, ?_⟩
      simp only [Prog.run_bind_ok, run_lift_ok]
      refine ⟨x, _, ⟨rfl, hx⟩, ?_⟩
      simp [versionCondition, hget, extend, delete, expect, condition]
  · simp [hkey]

theorem run_removeOutput_ok {b b' : WriteBatch Value} {k : Key} :
    Prog.run (serve size) (removeOutput scope b k) s = (.ok b', s') ↔
      s' = s ∧ OutputOk scope s k ∧ b' = extend b (versionCondition s k) [.delete k] := by
  unfold removeOutput OutputOk
  by_cases hkey : Keys.isOutput scope k = true
  · simp only [hkey, Bool.true_eq_false, if_false, Prog.run_bind_ok, run_get_ok, true_and]
    constructor
    · rintro ⟨out, t, ⟨rfl, hget⟩, hrest⟩
      cases out with
      | none => simp at hrest
      | some e =>
        simp only [Prog.run_bind_ok, run_lift_ok] at hrest
        obtain ⟨o, _, ⟨rfl, ho⟩, hrest⟩ := hrest
        split at hrest
        · simp at hrest
        · rename_i hmatch
          obtain ⟨rfl, rfl⟩ := (Prog.run_pure_ok _).mp hrest
          refine ⟨rfl, ⟨e.value, o, ?_, ho, not_not.mp hmatch⟩, ?_⟩
          · simp [Store.valueAt, hget, Record.encode]
          · simp [versionCondition, hget, extend, delete, expect, condition]
    · rintro ⟨rfl, ⟨r, o, hvalue, ho, hmatch⟩, rfl⟩
      obtain ⟨⟨value, version⟩, hget, rfl⟩ := Option.map_eq_some_iff.mp hvalue
      refine ⟨some ⟨r, version⟩, _, ⟨rfl, hget⟩, ?_⟩
      simp only [Prog.run_bind_ok, run_lift_ok]
      refine ⟨o, _, ⟨rfl, ho⟩, ?_⟩
      rw [if_neg (not_not.mpr hmatch)]
      simp [versionCondition, hget, extend, delete, expect, condition]
  · simp [hkey]

theorem run_restoreOutput_ok {b b' : WriteBatch Value} {x : RestoredOutput} :
    Prog.run (serve size) (restoreOutput scope b x) s = (.ok b', s') ↔
      s' = s ∧ RestoreOk scope s x ∧ b' = extend b [.missing x.key] [.put x.key (.output x.value)] := by
  unfold restoreOutput RestoreOk
  by_cases hkey : Keys.isOutput scope x.key = true
  · simp only [hkey, Bool.true_eq_false, if_false, Prog.run_bind_ok, run_lift_ok, true_and]
    constructor
    · rintro ⟨o, _, ⟨rfl, ho⟩, hrest⟩
      split at hrest
      · simp at hrest
      · rename_i hmatch
        simp only [Prog.run_bind_ok, run_get_ok] at hrest
        obtain ⟨out, _, ⟨rfl, hget⟩, hrest⟩ := hrest
        cases out with
        | some e => simp at hrest
        | none =>
          obtain ⟨rfl, rfl⟩ := (Prog.run_pure_ok _).mp hrest
          exact ⟨rfl, ⟨hget, o, ho, not_not.mp hmatch⟩, rfl⟩
    · rintro ⟨rfl, ⟨hget, o, ho, hmatch⟩, rfl⟩
      refine ⟨o, _, ⟨rfl, ho⟩, ?_⟩
      rw [if_neg (not_not.mpr hmatch)]
      simp only [Prog.run_bind_ok, run_get_ok]
      exact ⟨none, _, ⟨rfl, hget⟩, rfl⟩
  · simp [hkey]

/-- The operations that take a journalled block back. -/
def removalOps (j : JournalRecord) : List (Operation Value) :=
  j.historyKeys.map Operation.delete ++ j.removeOutputKeys.map Operation.delete ++
    j.restoreOutputs.map fun x => .put x.key (.output x.value)

/-- What a removal leaves under the checkpoint key. -/
def checkpointOp (scope : IndexScope) : Option BlockRecord → Operation Value
  | some value => .put (Keys.checkpoint scope) (.block value)
  | none => .delete (Keys.checkpoint scope)

def unjournalOps (scope : IndexScope) (tip : BlockRef) (j : JournalRecord) : List (Operation Value) :=
  [.delete (Keys.journal scope tip.height), checkpointOp scope j.previousCheckpoint]

/-- When a journalled tip is removed: everything that `removeTip` checks after its journal. -/
structure Removable (size : Value → Bool) (scope : IndexScope) (tip : BlockRef) (j : JournalRecord)
    (s : Store Value) : Prop where
  history : ∀ k ∈ j.historyKeys, HistoryOk scope s k
  outputs : ∀ k ∈ j.removeOutputKeys, OutputOk scope s k
  restores : ∀ x ∈ j.restoreOutputs, RestoreOk scope s x
  room : s.version + 1 ≤ maxVersion
  fits : ∀ op ∈ removalOps j ++ unjournalOps scope tip j, op.fits size = true

theorem dropJournal_eq (scope : IndexScope) (tip : BlockRef) (b : WriteBatch Value) (j : JournalRecord) :
    dropJournal scope tip b j.previousCheckpoint = extend b [] (unjournalOps scope tip j) := by
  unfold dropJournal unjournalOps
  cases j.previousCheckpoint <;> simp [extend, put, delete, checkpointOp, Record.encode]

theorem run_removal_loop {f : WriteBatch Value → Key → Call (WriteBatch Value)} {fine : Key → Prop}
    (hf : ∀ b k b' s', Prog.run (serve size) (f b k) s = (.ok b', s') ↔
      s' = s ∧ fine k ∧ b' = extend b (versionCondition s k) [.delete k])
    {ks : List Key} {b b' : WriteBatch Value} :
    Prog.run (serve size) (ks.foldlM f b : Call _) s = (.ok b', s') ↔
      s' = s ∧ (∀ k ∈ ks, fine k) ∧
        b' = extend b (ks.flatMap (versionCondition s)) (ks.map .delete) := by
  rw [Prog.run_foldlM_ok (serve size) hf, foldl_extend]
  simp only [← List.map_eq_flatMap]

theorem run_restore_loop {xs : List RestoredOutput} {b b' : WriteBatch Value} :
    Prog.run (serve size) (xs.foldlM (restoreOutput scope) b : Call _) s = (.ok b', s') ↔
      s' = s ∧ (∀ x ∈ xs, RestoreOk scope s x) ∧
        b' = extend b (xs.map fun x => .missing x.key)
          (xs.map fun x => .put x.key (.output x.value)) := by
  rw [Prog.run_foldlM_ok (serve size) (f := restoreOutput scope) (fun b x b' s' => run_restoreOutput_ok),
    foldl_extend]
  simp only [← List.map_eq_flatMap]

/-- The whole batch of a removal, from the conditions that its checks put first. -/
def removalBatch (scope : IndexScope) (tip : BlockRef) (j : JournalRecord) (s : Store Value)
    (conds : List Condition) : WriteBatch Value where
  conditions := conds ++ j.historyKeys.flatMap (versionCondition s) ++
    j.removeOutputKeys.flatMap (versionCondition s) ++ j.restoreOutputs.map fun x => .missing x.key
  operations := removalOps j ++ unjournalOps scope tip j

theorem check_removalBatch {tip : BlockRef} {j : JournalRecord} {conds : List Condition}
    (hconds : ∀ c ∈ conds, s.check c = none)
    (hrestores : ∀ x ∈ j.restoreOutputs, RestoreOk scope s x) :
    ∀ c ∈ (removalBatch scope tip j s conds).conditions, s.check c = none := by
  intro c hc
  simp only [removalBatch, List.mem_append, List.mem_map, List.mem_flatMap] at hc
  rcases hc with ((hc | ⟨k, -, hc⟩) | ⟨k, -, hc⟩) | ⟨x, hx, rfl⟩
  · exact hconds c hc
  · exact check_versionCondition s k c hc
  · exact check_versionCondition s k c hc
  · exact check_missing.mpr (hrestores x hx).2.1

theorem run_takeBack_ok {tip : BlockRef} {j : JournalRecord} {conds : List Condition}
    {out : Option BlockRef} (hconds : ∀ c ∈ conds, s.check c = none) :
    Prog.run (serve size) (takeBack scope tip j ⟨conds, []⟩) s = (.ok out, s') ↔
      Removable size scope tip j s ∧ out = j.previousCheckpoint.map BlockRecord.intoDomain ∧
        s' = s.write (removalOps j ++ unjournalOps scope tip j) := by
  have hbatch : extend (extend (extend (extend ⟨conds, []⟩
      (j.historyKeys.flatMap (versionCondition s)) (j.historyKeys.map .delete))
      (j.removeOutputKeys.flatMap (versionCondition s)) (j.removeOutputKeys.map .delete))
      (j.restoreOutputs.map fun x => .missing x.key)
      (j.restoreOutputs.map fun x => .put x.key (.output x.value)))
      [] (unjournalOps scope tip j) = removalBatch scope tip j s conds := by
    simp [extend, removalOps, removalBatch]
  have hops := (dropJournal_eq scope tip _ j).trans hbatch
  unfold takeBack
  simp only [Prog.run_bind_ok, run_removal_loop (f := removeHistory scope) fun b k b' s' =>
    run_removeHistory_ok]
  constructor
  · rintro ⟨_, _, ⟨rfl, hhistory, rfl⟩, _, _, hout, _, _, hre, u, t, hcommit, hpure⟩
    obtain ⟨rfl, houtputs, rfl⟩ := (run_removal_loop fun b k b' s' => run_removeOutput_ok).mp hout
    obtain ⟨rfl, hrestores, rfl⟩ := run_restore_loop.mp hre
    obtain ⟨rfl, rfl⟩ := (Prog.run_pure_ok _).mp hpure
    rw [hops] at hcommit
    obtain ⟨-, hroom, hfits, rfl⟩ := run_commit_ok.mp hcommit
    exact ⟨⟨hhistory, houtputs, hrestores, hroom, hfits⟩, rfl, rfl⟩
  · rintro ⟨h, rfl, rfl⟩
    refine ⟨_, _, ⟨rfl, h.history, rfl⟩, _, _,
      (run_removal_loop fun b k b' s' => run_removeOutput_ok).mpr ⟨rfl, h.outputs, rfl⟩, _, _,
      run_restore_loop.mpr ⟨rfl, h.restores, rfl⟩, (), _, ?_, rfl⟩
    rw [hops]
    exact run_commit_ok.mpr ⟨check_removalBatch hconds h.restores, h.room, h.fits, rfl⟩

/-- `removeTip` removes the stored checkpoint, if its journal is there and undoes cleanly. -/
theorem run_removeTip_ok {tip : BlockRef} {out : Option BlockRef} :
    Prog.run (serve size) (removeTip self scope tip) s = (.ok out, s') ↔
      self = scope ∧ s.valueAt (Keys.checkpoint scope) = checkpointValue (some tip) ∧
        ∃ j, s.valueAt (Keys.journal scope tip.height) = some (.journal j) ∧ j.blockRef = tip ∧
          Removable size scope tip j s ∧ out = j.previousCheckpoint.map BlockRecord.intoDomain ∧
          s' = s.write (removalOps j ++ unjournalOps scope tip j) := by
  unfold removeTip
  simp only [Prog.run_bind_ok, run_checkScope_ok, run_get_ok]
  constructor
  · rintro ⟨_, _, ⟨rfl, hscope⟩, checkpoint, _, ⟨rfl, hck⟩, hrest⟩
    split at hrest
    · simp at hrest
    · rename_i htip
      simp only [Prog.run_bind_ok, run_get_ok] at hrest
      obtain ⟨journal, t, ⟨rfl, hj⟩, hrest⟩ := hrest
      cases journal with
      | none => simp at hrest
      | some stored =>
        dsimp only at hrest
        split at hrest
        · simp at hrest
        · rename_i hblock
          have hconds : ∀ c ∈ [condition (Keys.checkpoint scope) checkpoint,
              condition (Keys.journal scope tip.height) (some stored)], t.check c = none := by
            intro c hc
            rcases List.mem_pair.mp hc with rfl | rfl
            · exact check_condition hck
            · exact check_condition hj
          obtain ⟨hrem, rfl, rfl⟩ := (run_takeBack_ok hconds).mp hrest
          refine ⟨hscope, ?_, stored.value, ?_, not_not.mp hblock, hrem, rfl, rfl⟩
          · rw [checkpoint_read hck, not_not.mp htip]
          · simp [Store.valueAt, hj, Record.encode]
  · rintro ⟨hscope, hck, j, hj, hblock, hrem, rfl, rfl⟩
    obtain ⟨out, hout, hget⟩ := exists_checkpoint_read hck
    obtain ⟨⟨value, version⟩, hjget, rfl⟩ := Option.map_eq_some_iff.mp hj
    refine ⟨(), s, ⟨rfl, hscope⟩, out, s, ⟨rfl, hget⟩, ?_⟩
    rw [hout, if_neg (by simp)]
    simp only [Prog.run_bind_ok, run_get_ok]
    refine ⟨some ⟨j, version⟩, s, ⟨rfl, hjget⟩, ?_⟩
    dsimp only
    rw [if_neg (not_not.mpr hblock)]
    refine (run_takeBack_ok ?_).mpr ⟨hrem, rfl, rfl⟩
    intro c hc
    rcases List.mem_pair.mp hc with rfl | rfl
    · exact check_condition hget
    · exact check_version.mpr ⟨_, hjget, rfl⟩

end PaymentSdk.Redb
