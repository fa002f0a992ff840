import PaymentSdk.Sync.Chain

/-!
# Batches and interruptions do not matter

A pass adds the next blocks of what is to be stored, one at a time, and ends at the first
error. So an interrupted pass stops at a state that the undisturbed one goes through, and
the store is always some front part of the whole.
-/

open Interaction KvStore

namespace PaymentSdk.Sync

open Redb
open Admission (leastPosition SyncPlan)
open SourceBlock (blockRef)

variable {B : Type} [SourceBlock B] {env : Environment B} {chain : SourceChain B}
  {size : Value → Bool} {scope : IndexScope} {retention : Nat} {filters : List AddressFilter}
  {blocks : List B} {s s' : Store Value}

/-! ## Adding the next block -/

theorem checkpoint_of_stored {n : Nat} (h : Stored env size scope retention filters blocks n s) :
    s.valueAt (Keys.checkpoint scope) = checkpointValue ((blocks.take n).getLast?.map blockRef) := by
  obtain ⟨branch, -, hstack, hj⟩ := h
  rw [holds_checkpoint hj.holds, stackOf_head hstack]

theorem stored_add {n : Nat} {b : B} (h : Stored env size scope retention filters blocks n s)
    (hb : blocks[n]? = some b) {a : BlockAddition}
    (ha : additionOf env scope retention filters ((blocks.take n).getLast?.map blockRef) b = .ok a)
    {r : Except IndexError BlockOutcome}
    (hr : Prog.run (serve size) (writeBlock scope a) s = (r, s')) :
    (∃ e, r = .error e ∧ s' = s) ∨
      Stored env size scope retention filters blocks (n + 1) s' ∧ s'.version = s.version + 1 := by
  obtain ⟨branch, -, hstack, hj⟩ := h
  obtain ⟨-, hexpected, hretention, hblock⟩ := block_of_additionOf ha
  cases r with
  | error e => exact Or.inl ⟨e, rfl, optimistic_run_error (optimistic_writeBlock a) hr⟩
  | ok outcome =>
    cases outcome with
    | alreadyApplied =>
      obtain ⟨-, hck⟩ := run_writeBlock_alreadyApplied hr
      rw [holds_checkpoint hj.holds, stackOf_head hstack, ← hexpected] at hck
      exact absurd (checkpointValue_inj hck) not_current_of_expected
    | applied =>
      have hlt := (List.getElem?_eq_some_iff.mp hb).1
      have htake : blocks.take (n + 1) = blocks.take n ++ [b] := by
        rw [List.take_add_one, hb]
        rfl
      refine Or.inr ⟨⟨a :: branch, hlt, ?_, ?_⟩, (holds_add hj.holds hr).2.1⟩
      · rw [htake, stackOf_snoc]
        exact ⟨branch, a, hstack, by rw [stackOf_head hstack]; exact ha, rfl⟩
      · have := journalled_add hj hretention hr
        rwa [show min (min n retention + 1) retention = min (n + 1) retention by omega] at this

/-! ## A pass that nothing disturbs -/

section Undisturbed

variable {α β : Type} {inv : Store Value → Prop}

omit [SourceBlock B]

/-- `inv` holds at every call of the undisturbed run, and `post` where it succeeds. -/
def Leads (env : Environment B) (size : Value → Bool) (scope : IndexScope) (inv : Store Value → Prop)
    (post : α → Store Value → Prop) (p : Pass B α) (s : Store Value) : Prop :=
  Prog.Always (Prog.Answered (env.handle size scope)) inv (fun r t => ∀ a, r = .ok a → post a t) p s

theorem leads_pure {post : α → Store Value → Prop} {a : α} (hs : inv s) (h : post a s) :
    Leads env size scope inv post (pure a : Pass B α) s := by
  refine ⟨hs, ?_⟩
  rintro _ ⟨⟩
  exact h

theorem leads_fail {post : α → Store Value → Prop} {e : IndexError} (hs : inv s) :
    Leads env size scope inv post (fail e : Pass B α) s := by
  refine ⟨hs, ?_⟩
  rintro a ⟨⟩

theorem leads_bind {Q : α → Store Value → Prop} {post : β → Store Value → Prop} {p : Pass B α}
    {f : α → Pass B β} (hp : Leads env size scope inv Q p s)
    (hf : ∀ a t, inv t → Q a t → Leads env size scope inv post (f a) t) :
    Leads env size scope inv post (p >>= f) s := by
  apply Prog.always_except_bind
  apply Prog.always_mono hp fun _ ht => ht
  intro r t ht hr
  cases r with
  | ok a => exact hf a t ht (hr a rfl)
  | error e => rintro a ⟨⟩

theorem leads_ask {op : Op B} {post : op.Ans → Store Value → Prop} (hs : inv s)
    (hnext : inv (env.handle size scope op s).2)
    (h : ∀ a, (env.handle size scope op s).1 = .ok a → post a (env.handle size scope op s).2) :
    Leads env size scope inv post (ask op) s := by
  refine ⟨hs, fun r t hr => ?_⟩
  have hanswer : (env.handle size scope op s).1 = r := by rw [← hr]
  have hstate : (env.handle size scope op s).2 = t := by rw [← hr]
  rw [hstate] at hnext h
  cases r with
  | ok a =>
    refine ⟨hnext, ?_⟩
    rintro _ ⟨⟩
    exact h a hanswer
  | error e =>
    refine ⟨hnext, ?_⟩
    rintro a ⟨⟩

theorem leads_ask_bind {op : Op B} {post : β → Store Value → Prop} {f : op.Ans → Pass B β} (hs : inv s)
    (hquiet : (env.handle size scope op s).2 = s)
    (hf : ∀ a, (env.handle size scope op s).1 = .ok a → Leads env size scope inv post (f a) s) :
    Leads env size scope inv post (ask op >>= f) s := by
  refine leads_bind (Q := fun a t => t = s ∧ (env.handle size scope op s).1 = .ok a)
    (leads_ask hs (by rw [hquiet]; exact hs) fun a ha => ⟨hquiet, ha⟩) ?_
  rintro a t - ⟨rfl, ha⟩
  exact hf a ha

theorem leads_check_bind {post : β → Store Value → Prop} {x : Except IndexError α} {f : α → Pass B β}
    (hs : inv s) (hf : ∀ a, x = .ok a → Leads env size scope inv post (f a) s) :
    Leads env size scope inv post (check x >>= f : Pass B β) s := by
  cases x with
  | ok a => exact hf a rfl
  | error e => exact leads_fail hs

end Undisturbed

/-! ## What one pass adds -/

section Pass

variable {config : SyncConfig} {n v budget m : Nat}

/-- The store has `m` blocks, one version after another since it had `n` at version `v`. -/
def Grown (env : Environment B) (size : Value → Bool) (config : SyncConfig)
    (filters : List AddressFilter) (blocks : List B) (n v m : Nat) (s : Store Value) : Prop :=
  Stored env size config.scope config.reorgRetention filters blocks m s ∧ s.version + n = v + m

/-- At most `budget` blocks more than at the start. -/
def Within (env : Environment B) (size : Value → Bool) (config : SyncConfig)
    (filters : List AddressFilter) (blocks : List B) (n v budget : Nat) (s : Store Value) : Prop :=
  ∃ m, n ≤ m ∧ m ≤ n + budget ∧ Grown env size config filters blocks n v m s

theorem leads_apply {b : B} {addresses : List CanonicalAddress} {checkpoint : Option BlockRef}
    {plan : SyncPlan} (hn : n ≤ m) (hm : m + 1 ≤ n + budget)
    (hs : Grown env size config filters blocks n v m s) (hb : blocks[m]? = some b)
    (haddresses : addresses = activeAt filters (blockRef b).position)
    (hck : checkpoint = (blocks.take m).getLast?.map blockRef) :
    Leads env size config.scope (Within env size config filters blocks n v budget)
      (fun r t => Grown env size config filters blocks n v (m + 1) t ∧ r.1 = blockRef b ∧
        r.2.filters = plan.filters)
      (apply config b addresses checkpoint plan) s := by
  have hwithin : Within env size config filters blocks n v budget s := ⟨m, hn, by omega, hs⟩
  unfold apply
  refine leads_check_bind hwithin fun _ _ => leads_check_bind hwithin fun _ _ => ?_
  refine leads_ask_bind hwithin rfl fun interpreted hinterpreted => ?_
  refine leads_check_bind hwithin fun _ hvalid => ?_
  refine leads_ask_bind hwithin rfl fun canonical _ => ?_
  split
  · exact leads_fail hwithin
  refine leads_check_bind hwithin fun a ha => ?_
  refine leads_ask_bind hwithin rfl fun _ _ => ?_
  have haddition : additionOf env config.scope config.reorgRetention filters
      ((blocks.take m).getLast?.map blockRef) b = .ok a := by
    refine additionOf_ok.mpr ⟨interpreted, haddresses ▸ hinterpreted, ?_, hck ▸ ha⟩
    unfold validateBlock at hvalid
    split at hvalid
    · assumption
    · cases hvalid
  have hrun : Prog.run (serve size) (writeBlock config.scope a) s =
      (_, (env.handle size config.scope (.add a) s).2) := rfl
  have hadd := stored_add hs.1 hb haddition hrun
  have hgrown : Stored env size config.scope config.reorgRetention filters blocks (m + 1)
      (env.handle size config.scope (.add a) s).2 ∧
      (env.handle size config.scope (.add a) s).2.version = s.version + 1 →
      Grown env size config filters blocks n v (m + 1) (env.handle size config.scope (.add a) s).2 := by
    rintro ⟨hstored, hversion⟩
    have := hs.2
    exact ⟨hstored, by omega⟩
  refine leads_bind (Q := fun _ t => Grown env size config filters blocks n v (m + 1) t)
    (leads_ask hwithin ?_ ?_) fun _ t _ ht => ?_
  · rcases hadd with ⟨e, -, hsame⟩ | hadd
    · rw [hsame]
      exact hwithin
    · exact ⟨m + 1, by omega, hm, hgrown hadd⟩
  · intro outcome houtcome
    rcases hadd with ⟨e, herror, -⟩ | hadd
    · exact absurd (herror.symm.trans houtcome) (by rintro ⟨⟩)
    · exact hgrown hadd
  · have hwithin' : Within env size config filters blocks n v budget t := ⟨m + 1, by omega, hm, ht⟩
    exact leads_ask_bind hwithin' rfl fun _ _ => leads_pure hwithin' ⟨ht, rfl, rfl⟩

theorem take_getLast {m : Nat} {b : B} (hb : blocks[m]? = some b) :
    (blocks.take (m + 1)).getLast?.map blockRef = some (blockRef b) := by
  rw [List.take_add_one, hb]
  simp

theorem leads_applyAll {k : Nat} {acc : Option BlockRef × SyncPlan} (hn : n ≤ m)
    (hm : m + k ≤ n + budget) (hs : Grown env size config filters blocks n v m s)
    (hck : acc.1 = (blocks.take m).getLast?.map blockRef) (hplan : acc.2.filters = filters) :
    Leads env size config.scope (Within env size config filters blocks n v budget) (fun _ _ => True)
      (((blocks.drop m).take k).foldlM (applyNext config) acc) s := by
  induction k generalizing m acc s with
  | zero => exact leads_pure ⟨m, hn, by omega, hs⟩ trivial
  | succ k ih =>
    cases hb : blocks[m]? with
    | none =>
      rw [List.drop_eq_nil_of_le (List.getElem?_eq_none_iff.mp hb), List.take_nil]
      exact leads_pure ⟨m, hn, by omega, hs⟩ trivial
    | some b =>
      obtain ⟨hlt, hget⟩ := List.getElem?_eq_some_iff.mp hb
      rw [List.drop_eq_getElem_cons hlt, hget, List.take_succ_cons, List.foldlM_cons]
      refine leads_bind (Q := fun acc' t => Grown env size config filters blocks n v (m + 1) t ∧
        acc'.1 = some (blockRef b) ∧ acc'.2.filters = filters) ?_ ?_
      · refine leads_bind (leads_apply hn (by omega) hs hb ?_ hck) ?_
        · rw [SyncPlan.activeAddresses, hplan, activeAt]
        · rintro ⟨block, plan⟩ t ht ⟨hgrown, hblock, hfilters⟩
          exact leads_pure ht ⟨hgrown, by rw [← hblock], by rw [← hplan]; exact hfilters⟩
      · rintro acc' t - ⟨hgrown, hblock, hfilters⟩
        exact ih (by omega) (by omega) hgrown (by rw [hblock, take_getLast hb]) hfilters

theorem leads_fetchBlocks {inv : Store Value → Prop} (hs : inv s) (start last : BlockPosition) (limit : Nat) :
    Leads env size config.scope inv (fun found t => t = s ∧ found = env.blocks start last limit)
      (fetchBlocks start last limit) s := by
  refine leads_ask_bind hs rfl fun found hfound => ?_
  obtain rfl : env.blocks start last limit = found := Except.ok.inj hfound
  unfold checkBlocks
  split_ifs
  · exact leads_fail hs
  · exact leads_pure hs ⟨rfl, rfl⟩
  · exact leads_fail hs

theorem leads_oneBlock {inv : Store Value → Prop} (hs : inv s) (start last : BlockPosition) :
    Leads env size config.scope inv (fun b t => t = s ∧ env.blocks start last 1 = [b])
      (oneBlock start last) s := by
  refine leads_bind (leads_fetchBlocks hs start last 1) ?_
  rintro found t ht ⟨rfl, hfound⟩
  match found, hfound with
  | [], _ => exact leads_fail ht
  | [b], hfound => exact leads_pure ht ⟨rfl, hfound.symm⟩
  | _ :: _ :: _, _ => exact leads_fail ht

theorem run_readBlock_tip {out : Option BlockRef}
    (hr : (Prog.run (serve size) (readBlock scope (.tip scope)) s).1 = .ok out) :
    s.valueAt (Keys.checkpoint scope) = checkpointValue out := by
  have hrun : Prog.run (serve size) (readBlock scope (.tip scope)) s = (.ok out, s) :=
    Prod.ext hr (run_readBlock_snd _)
  obtain ⟨_, t, hscope, hread⟩ := (Prog.run_bind_ok _).mp hrun
  obtain ⟨rfl, -⟩ := run_checkScope_ok.mp hscope
  obtain ⟨stored, t, hget, hpure⟩ := (Prog.run_bind_ok _).mp hread
  obtain ⟨rfl, hstored⟩ := run_get_ok.mp hget
  obtain ⟨rfl, -⟩ := (Prog.run_pure_ok _).mp hpure
  exact checkpoint_read hstored

section Covered

variable {start : BlockPosition} (h : Honours env chain filters)

include h

theorem leads_catchUp {checkpoint : Option BlockRef} {applied : Nat} {plan : SyncPlan} (hn : n ≤ m)
    (hm : m ≤ n + applied) (hs : Grown env size config filters (chain.covered start) n v m s)
    (hck : checkpoint = ((chain.covered start).take m).getLast?.map blockRef)
    (hplan : plan.filters = filters) (happlied : applied ≤ config.batchSize) :
    Leads env size config.scope
      (Within env size config filters (chain.covered start) n v config.batchSize) (fun _ _ => True)
      (catchUp (B := B) config (blockRef chain.tip) checkpoint applied plan) s := by
  have hwithin : Within env size config filters (chain.covered start) n v config.batchSize s :=
    ⟨m, hn, by omega, hs⟩
  unfold catchUp
  cases checkpoint with
  | none => exact leads_pure hwithin trivial
  | some tip =>
    dsimp only
    split_ifs with hmore
    · cases hnext : tip.position.checkedSuccessor with
      | none => exact leads_fail hwithin
      | some next =>
        -- The checkpoint is a covered block, and the source goes on after it.
        obtain ⟨b, hlast, rfl⟩ := Option.map_eq_some_iff.mp hck.symm
        obtain ⟨front, hfront⟩ := List.getLast?_eq_some_iff.mp hlast
        have hcovered : chain.covered start = front ++ b :: (chain.covered start).drop m := by
          have := List.take_append_drop m (chain.covered start)
          rw [hfront, List.append_assoc] at this
          exact this.symm
        refine leads_bind (leads_fetchBlocks hwithin _ _ _) ?_
        rintro found t ht ⟨rfl, rfl⟩
        rw [h.blocks, blocks_after hcovered (BlockPosition.checkedSuccessor_eq_some hnext)]
        split_ifs
        · exact leads_fail hwithin
        · refine leads_bind (leads_applyAll hn (by omega) hs hck hplan) fun acc t ht _ => ?_
          exact leads_pure ht trivial
    · exact leads_pure hwithin trivial

/-- The anchor is stored first, where the first covered block has a parent. -/
theorem leads_applyAnchor {plan : SyncPlan} {first : B} {rest : List B}
    (hstart : leastPosition (filters.map (·.startPosition)) = some start)
    (hfirst : first ∈ chain.blocks) (hplan : plan.filters = filters)
    (hcases : (∃ anchor, chain.covered start = anchor :: first :: rest ∧
        (blockRef anchor).position < start ∧
        (blockRef first).parent = some ⟨(blockRef anchor).position, (blockRef anchor).hash⟩) ∨
      chain.covered start = first :: rest ∧ ∀ b ∈ chain.blocks, positionOf first ≤ positionOf b)
    (hs : Grown env size config filters (chain.covered start) 0 v 0 s) :
    Leads env size config.scope
      (Within env size config filters (chain.covered start) 0 v config.batchSize)
      (fun r t => Grown env size config filters (chain.covered start) 0 v r.2.1 t ∧
        r.1 = ((chain.covered start).take r.2.1).getLast?.map blockRef ∧ r.2.1 ≤ 1 ∧
        (chain.covered start)[r.2.1]? = some first ∧ r.2.2.filters = filters)
      (applyAnchor (B := B) config plan (blockRef first).parent) s := by
  have hpos := config.batch_pos
  have hwithin : Within env size config filters (chain.covered start) 0 v config.batchSize s :=
    ⟨0, Nat.le_refl _, by omega, hs⟩
  cases hparent : (blockRef first).parent with
  | none =>
    rcases hcases with ⟨anchor, -, -, hlink⟩ | ⟨hcovered, -⟩
    · rw [hparent] at hlink
      cases hlink
    · exact leads_pure hwithin ⟨hs, rfl, Nat.zero_le _, by rw [hcovered]; rfl, hplan⟩
  | some parent =>
    refine leads_bind (leads_oneBlock hwithin _ _) ?_
    rintro b t - ⟨rfl, hone⟩
    dsimp only
    split_ifs with hmismatch
    · exact leads_fail hwithin
    rw [h.blocks] at hone
    rcases hcases with ⟨anchor, hcovered, hbefore, hlink⟩ | ⟨-, hleast⟩
    · rw [hparent] at hlink
      obtain rfl := Option.some.inj hlink
      have hanchor : anchor ∈ chain.blocks := mem_of_covered (by rw [hcovered]; simp)
      rw [blocks_at hanchor] at hone
      obtain rfl : anchor = b := by simpa using hone
      have hget : (chain.covered start)[0]? = some anchor := by rw [hcovered]; rfl
      refine leads_bind (leads_apply (Nat.le_refl _) (by omega) hs hget ?_ rfl) ?_
      · rw [activeAt_before hstart hbefore]
      · rintro ⟨block, plan'⟩ t ht ⟨hgrown, hblock, hfilters⟩
        refine leads_pure ht ⟨hgrown, ?_, Nat.le_refl _, by rw [hcovered]; rfl, ?_⟩
        · dsimp only at hblock ⊢
          rw [hblock, take_getLast hget]
        · rw [← hplan]
          exact hfilters
    · -- The source has nothing below the first block.
      have hmem : b ∈ chain.blocks.filter fun c => parent.position ≤ (blockRef c).position ∧
          (blockRef c).position ≤ parent.position := List.mem_of_mem_take (by rw [hone]; simp)
      obtain ⟨hb, hat⟩ := List.mem_filter.mp hmem
      have hbelow := chain.parent_lt first hfirst parent hparent
      have hle := hleast b hb
      simp only [decide_eq_true_eq, BlockPosition.le_def] at hat
      rw [BlockPosition.lt_def] at hbelow
      unfold positionOf at hle
      omega

theorem leads_initializeCheckpoint {plan : SyncPlan}
    (hstart : leastPosition (filters.map (·.startPosition)) = some start)
    (hcover : start ≤ (blockRef chain.tip).position) (hplan : plan.filters = filters)
    (hs : Grown env size config filters (chain.covered start) 0 v 0 s) :
    Leads env size config.scope
      (Within env size config filters (chain.covered start) 0 v config.batchSize)
      (fun r t => Grown env size config filters (chain.covered start) 0 v r.2.1 t ∧
        r.1 = ((chain.covered start).take r.2.1).getLast?.map blockRef ∧
        r.2.1 ≤ config.batchSize ∧ r.2.2.filters = filters)
      (initializeCheckpoint (B := B) config (blockRef chain.tip) plan) s := by
  have hpos := config.batch_pos
  have hwithin : Within env size config filters (chain.covered start) 0 v config.batchSize s :=
    ⟨0, Nat.le_refl _, by omega, hs⟩
  obtain ⟨first, rest, hfound, hcases⟩ := covered_cases chain hcover
  have hearliest : plan.earliestPosition.filter (fun p => decide (p ≤ (blockRef chain.tip).position)) =
      some start := by
    rw [SyncPlan.earliestPosition, hplan, hstart]
    simp [hcover]
  unfold initializeCheckpoint
  rw [hearliest]
  refine leads_bind (leads_oneBlock hwithin _ _) ?_
  rintro b t - ⟨rfl, hone⟩
  rw [h.blocks, hfound] at hone
  obtain rfl : first = b := by simpa using hone
  refine leads_bind (Q := fun r t => Grown env size config filters (chain.covered start) 0 v r.2.1 t ∧
    r.1 = ((chain.covered start).take r.2.1).getLast?.map blockRef ∧ r.2.1 ≤ 1 ∧
    (chain.covered start)[r.2.1]? = some first ∧ r.2.2.filters = filters) ?_ ?_
  · have hmem : first ∈ first :: rest := List.mem_cons_self
    rw [← hfound] at hmem
    exact leads_applyAnchor h hstart (List.mem_filter.mp hmem).1 hplan hcases hs
  · rintro ⟨checkpoint, applied, plan⟩ t ht ⟨hgrown, hck, hle, hget, hfilters⟩
    dsimp only at hgrown hck hle hget hfilters ⊢
    split_ifs with hbudget
    · refine leads_bind (leads_apply (Nat.zero_le _) (by omega) hgrown hget ?_ hck) ?_
      · rw [SyncPlan.activeAddresses, hfilters, activeAt]
      · rintro ⟨block, plan'⟩ t' ht' ⟨hgrown', hblock, hfilters'⟩
        refine leads_pure ht' ⟨hgrown', ?_, by dsimp only; omega, by rw [← hfilters]; exact hfilters'⟩
        dsimp only at hblock ⊢
        rw [hblock, take_getLast hget]
    · exact leads_pure ht ⟨hgrown, hck, by dsimp only; omega, hfilters⟩

theorem leads_sync (fuel : Nat)
    (hstart : leastPosition (filters.map (·.startPosition)) = some start)
    (hcover : start ≤ (blockRef chain.tip).position)
    (hs : Stored env size config.scope config.reorgRetention filters (chain.covered start) n s) :
    Leads env size config.scope
      (Within env size config filters (chain.covered start) n s.version config.batchSize)
      (fun _ _ => True) (sync (B := B) config fuel) s := by
  have hgrown : Grown env size config filters (chain.covered start) n s.version n s := ⟨hs, rfl⟩
  have hwithin : Within env size config filters (chain.covered start) n s.version config.batchSize s :=
    ⟨n, Nat.le_refl _, by omega, hgrown⟩
  unfold sync
  refine leads_ask_bind hwithin rfl fun found _ => leads_check_bind hwithin fun _ _ => ?_
  refine leads_ask_bind hwithin rfl fun observedTip htip => ?_
  obtain rfl : blockRef chain.tip = observedTip := Except.ok.inj (h.tip.symm.trans htip)
  refine leads_ask_bind hwithin (run_readBlock_snd _) fun checkpoint hcheckpoint => ?_
  have hck : checkpoint = ((chain.covered start).take n).getLast?.map blockRef :=
    checkpointValue_inj ((run_readBlock_tip hcheckpoint).symm.trans (checkpoint_of_stored hs))
  refine leads_ask_bind hwithin rfl fun plan hplan => leads_check_bind hwithin fun _ _ => ?_
  have hfilters := h.plan _ _ hplan
  -- The chain does not change, so there is nothing to settle.
  refine leads_bind (Q := fun r t => t = s ∧ r = (checkpoint, plan)) ?_ ?_
  · unfold settle
    cases checkpoint with
    | none => exact leads_pure hwithin ⟨rfl, rfl⟩
    | some tip =>
      obtain ⟨b, hlast, rfl⟩ := Option.map_eq_some_iff.mp hck.symm
      have hb : b ∈ chain.blocks := mem_of_covered (List.mem_of_mem_take (List.mem_of_getLast? hlast))
      refine leads_ask_bind hwithin rfl fun canonical hcanonical => ?_
      obtain rfl := Except.ok.inj hcanonical
      rw [if_pos (canonicalAt_of_mem h hb)]
      exact leads_pure hwithin ⟨rfl, rfl⟩
  rintro settled t - ⟨hsame, rfl⟩
  obtain rfl := hsame.symm
  refine leads_bind (Q := fun r t =>
    Grown env size config filters (chain.covered start) n s.version (n + r.2.1) t ∧
    r.1 = ((chain.covered start).take (n + r.2.1)).getLast?.map blockRef ∧
    r.2.1 ≤ config.batchSize ∧ r.2.2.filters = filters) ?_ ?_
  · unfold startCheckpoint
    cases hempty : checkpoint with
    | some tip => exact leads_pure hwithin ⟨hgrown, by rw [← hempty]; exact hck, Nat.zero_le _, hfilters⟩
    | none =>
      obtain rfl : n = 0 := by
        obtain ⟨branch, hle, -⟩ := hs
        rw [hempty, eq_comm, Option.map_eq_none_iff, List.getLast?_eq_none_iff, List.take_eq_nil_iff] at hck
        rcases hck with hzero | hnil
        · exact hzero
        · rw [hnil] at hle
          exact Nat.le_zero.mp hle
      simp only [Nat.zero_add]
      exact leads_initializeCheckpoint h hstart hcover hfilters hgrown
  · rintro ⟨checkpoint', applied, plan'⟩ t ht ⟨hgrown', hck', hle, hfilters'⟩
    refine leads_bind (leads_catchUp h (by omega) (Nat.le_refl _) hgrown' hck' hfilters' hle) ?_
    exact fun _ t ht _ => leads_pure ht trivial

end Covered

end Pass

/-! ## A pass that is disturbed -/

section Disturbed

variable {α β : Type} {config : SyncConfig}

/-- The answers after which a pass ends. -/
def Refused (op : Op B) (r : Except IndexError op.Ans) : Prop := ∃ e, r = .error e

omit [SourceBlock B] in
theorem strict_ask (op : Op B) : Prog.Strict Refused (ask op) := by
  intro r
  cases r with
  | ok a => exact ⟨(fun ⟨e, he⟩ => nomatch he), trivial⟩
  | error e => exact ⟨fun _ => ⟨_, rfl⟩, trivial⟩

omit [SourceBlock B] in
theorem strict_check (x : Except IndexError α) : Prog.Strict Refused (check x : Pass B α) := by
  cases x <;> trivial

theorem strict_fetchBlocks (start last : BlockPosition) (limit : Nat) :
    Prog.Strict Refused (fetchBlocks (B := B) start last limit) :=
  Prog.strict_except_bind (strict_ask _) fun _ => strict_check _

theorem strict_oneBlock (start last : BlockPosition) : Prog.Strict Refused (oneBlock (B := B) start last) := by
  refine Prog.strict_except_bind (strict_fetchBlocks start last 1) fun blocks => ?_
  split <;> trivial

theorem strict_apply (b : B) (addresses : List CanonicalAddress) (checkpoint : Option BlockRef)
    (plan : SyncPlan) : Prog.Strict Refused (apply config b addresses checkpoint plan) := by
  unfold apply
  refine Prog.strict_except_bind (strict_check _) fun _ => ?_
  refine Prog.strict_except_bind (strict_check _) fun _ => ?_
  refine Prog.strict_except_bind (strict_ask _) fun interpreted => ?_
  refine Prog.strict_except_bind (strict_check _) fun _ => ?_
  refine Prog.strict_except_bind (strict_ask _) fun canonical => ?_
  split
  · trivial
  refine Prog.strict_except_bind (strict_check _) fun a => ?_
  refine Prog.strict_except_bind (strict_ask _) fun _ => ?_
  refine Prog.strict_except_bind (strict_ask _) fun _ => ?_
  exact Prog.strict_except_bind (strict_ask _) fun _ => trivial

omit [SourceBlock B] in
theorem strict_findAncestor (oldest : BlockHeight) (fuel : Nat) (height : BlockHeight) :
    Prog.Strict Refused (findAncestor (B := B) config oldest fuel height) := by
  induction fuel generalizing height with
  | zero => trivial
  | succ fuel ih =>
    refine Prog.strict_except_bind (strict_ask _) fun kept => ?_
    refine Prog.strict_except_bind ?_ fun remote => ?_
    · cases kept with
      | none => trivial
      | some block => exact strict_ask _
    · split_ifs
      · trivial
      · trivial
      · exact ih _

omit [SourceBlock B] in
theorem strict_removeAbove (ancestor : BlockRef) (fuel : Nat) (current : Option BlockRef) :
    Prog.Strict Refused (removeAbove (B := B) config ancestor fuel current) := by
  induction fuel generalizing current with
  | zero => trivial
  | succ fuel ih =>
    cases current with
    | none => trivial
    | some tip =>
      rw [removeAbove]
      split_ifs
      · refine Prog.strict_except_bind (strict_ask _) fun _ => ?_
        exact Prog.strict_except_bind (strict_ask _) fun _ => ih _
      · trivial

omit [SourceBlock B] in
theorem strict_settle (fuel : Nat) (checkpoint : Option BlockRef) (plan : SyncPlan) :
    Prog.Strict Refused (settle (B := B) config fuel checkpoint plan) := by
  cases checkpoint with
  | none => trivial
  | some tip =>
    refine Prog.strict_except_bind (strict_ask _) fun canonical => ?_
    split_ifs
    · trivial
    refine Prog.strict_except_bind (strict_findAncestor _ fuel _) fun ancestor => ?_
    cases ancestor with
    | none => trivial
    | some ancestor =>
      refine Prog.strict_except_bind (strict_ask _) fun _ => ?_
      refine Prog.strict_except_bind (strict_removeAbove _ fuel _) fun current => ?_
      refine Prog.strict_except_bind (strict_ask _) fun _ => ?_
      cases current <;> trivial

theorem strict_initializeCheckpoint (observedTip : BlockRef) (plan : SyncPlan) :
    Prog.Strict Refused (initializeCheckpoint (B := B) config observedTip plan) := by
  unfold initializeCheckpoint
  split
  · refine Prog.strict_except_bind (strict_oneBlock _ _) fun anchor => ?_
    exact Prog.strict_except_bind (strict_apply _ _ _ _) fun _ => trivial
  · refine Prog.strict_except_bind (strict_oneBlock _ _) fun first => ?_
    refine Prog.strict_except_bind ?_ fun acc => ?_
    · cases (blockRef first).parent with
      | none => trivial
      | some parent =>
        refine Prog.strict_except_bind (strict_oneBlock _ _) fun anchor => ?_
        dsimp only
        split_ifs
        · trivial
        · exact Prog.strict_except_bind (strict_apply _ _ _ _) fun _ => trivial
    · dsimp only
      split_ifs
      · exact Prog.strict_except_bind (strict_apply _ _ _ _) fun _ => trivial
      · trivial

theorem strict_catchUp (observedTip : BlockRef) (checkpoint : Option BlockRef) (applied : Nat)
    (plan : SyncPlan) :
    Prog.Strict Refused (catchUp (B := B) config observedTip checkpoint applied plan) := by
  unfold catchUp
  split
  · trivial
  split_ifs
  · split
    · trivial
    refine Prog.strict_except_bind (strict_fetchBlocks _ _ _) fun blocks => ?_
    split_ifs
    · trivial
    refine Prog.strict_except_bind (Prog.strict_foldlM (fun acc b => ?_) _ _) fun _ => trivial
    exact Prog.strict_except_bind (strict_apply _ _ _ _) fun _ => trivial
  · trivial

theorem strict_sync (fuel : Nat) : Prog.Strict Refused (sync (B := B) config fuel) := by
  unfold sync
  refine Prog.strict_except_bind (strict_ask _) fun _ => ?_
  refine Prog.strict_except_bind (strict_check _) fun _ => ?_
  refine Prog.strict_except_bind (strict_ask _) fun observedTip => ?_
  refine Prog.strict_except_bind (strict_ask _) fun checkpoint => ?_
  refine Prog.strict_except_bind (strict_ask _) fun plan => ?_
  refine Prog.strict_except_bind (strict_check _) fun _ => ?_
  refine Prog.strict_except_bind (strict_settle fuel _ _) fun settled => ?_
  refine Prog.strict_except_bind ?_ fun started => ?_
  · unfold startCheckpoint
    split
    · exact strict_initializeCheckpoint _ _
    · trivial
  · exact Prog.strict_except_bind (strict_catchUp _ _ _ _) fun _ => trivial

omit [SourceBlock B] in
theorem version_le_handle (p : Pass B α) (s : Store Value) :
    s.version ≤ (Prog.run (env.handle size scope) p s).2.version := by
  induction (show Prog _ _ from p) generalizing s with
  | done a => exact Nat.le_refl _
  | call op next ih =>
    refine Nat.le_trans ?_ (ih _ _)
    cases op with
    | get | add | remove => exact version_le_run _ _ _
    | filters | tip | plan | canonicalAt | blocks | inspect | begin | persist | complete =>
      exact Nat.le_refl _

end Disturbed

/-! ## Runs of passes -/

variable {start : BlockPosition}

theorem pass_cuts_undisturbed (h : Honours env chain filters)
    (hstart : leastPosition (filters.map (·.startPosition)) = some start)
    (hcover : start ≤ (blockRef chain.tip).position) {config : SyncConfig} {fuel n : Nat}
    (hs : Stored env size config.scope config.reorgRetention filters (chain.covered start) n s)
    {q : Pass B SyncStatus} {t : Store Value}
    (hr : Prog.Reaches (Disturbed env size config.scope) (sync config fuel) s q t) :
    ∃ m n', n ≤ m ∧ m ≤ n' ∧ n' ≤ n + config.batchSize ∧
      Stored env size config.scope config.reorgRetention filters (chain.covered start) m t ∧
      Stored env size config.scope config.reorgRetention filters (chain.covered start) n'
        (Prog.run (env.handle size config.scope) (sync (B := B) config fuel) s).2 := by
  obtain ⟨q', hq'⟩ := Prog.reaches_along (env.handle size config.scope) (strict_sync fuel)
    (fun _ _ _ _ hstep => hstep) hr
  have hleads := leads_sync h fuel hstart hcover hs
  obtain ⟨m, hn, -, hstored, hversion⟩ := Prog.always_inv (Prog.always_reaches hleads hq')
  obtain ⟨n', -, hbatch, hstored', hversion'⟩ := Prog.always_inv (Prog.always_reaches hleads
    (Prog.reaches_run (env.handle size config.scope) (fun _ _ => rfl) _ _))
  have hle : t.version ≤ (Prog.run (env.handle size config.scope) q' t).2.version :=
    version_le_handle q' t
  rw [← Prog.run_of_answered _ hq'] at hle
  exact ⟨m, n', hn, by omega, hbatch, hstored, hstored'⟩

theorem exists_stored (h : Honours env chain filters)
    (hstart : leastPosition (filters.map (·.startPosition)) = some start)
    (hcover : start ≤ (blockRef chain.tip).position) (hs : Synced env size scope retention s) :
    ∃ n, Stored env size scope retention filters (chain.covered start) n s := by
  induction hs with
  | start hempty => exact ⟨0, [], Nat.zero_le _, rfl, by simpa using journalled_empty hempty⟩
  | pass config fuel _ hscope hretention hreaches ih =>
    subst hscope hretention
    obtain ⟨n, hn⟩ := ih
    obtain ⟨m, -, -, -, -, hm, -⟩ := pass_cuts_undisturbed h hstart hcover hn hreaches
    exact ⟨m, hm⟩

/-- The checkpoint says how many blocks are stored. -/
theorem stored_count {n n' : Nat} {t : Store Value}
    (hs : Stored env size scope retention filters (chain.covered start) n s)
    (ht : Stored env size scope retention filters (chain.covered start) n' t)
    (hck : s.valueAt (Keys.checkpoint scope) = t.valueAt (Keys.checkpoint scope)) : n = n' := by
  rw [checkpoint_of_stored hs, checkpoint_of_stored ht] at hck
  have hlast := checkpointValue_inj hck
  obtain ⟨-, hle, -⟩ := hs
  obtain ⟨-, hle', -⟩ := ht
  have hget : ∀ {i}, i + 1 ≤ (chain.covered start).length → ∃ b, (chain.covered start)[i]? = some b :=
    fun hi => ⟨_, List.getElem?_eq_getElem hi⟩
  have hsorted := covered_ascending chain start
  cases n with
  | zero =>
    cases n' with
    | zero => rfl
    | succ j =>
      obtain ⟨b, hb⟩ := hget hle'
      rw [take_getLast hb] at hlast
      cases hlast
  | succ i =>
    obtain ⟨b, hb⟩ := hget hle
    rw [take_getLast hb] at hlast
    cases n' with
    | zero => cases hlast
    | succ j =>
      obtain ⟨c, hc⟩ := hget hle'
      rw [take_getLast hc] at hlast
      have hposition : positionOf b = positionOf c := by
        rw [positionOf, positionOf, Option.some.inj hlast]
      obtain ⟨hi, rfl⟩ := List.getElem?_eq_some_iff.mp hb
      obtain ⟨hj, rfl⟩ := List.getElem?_eq_some_iff.mp hc
      rcases Nat.lt_trichotomy i j with hlt | rfl | hlt
      · have := List.pairwise_iff_getElem.mp hsorted i j hi hj hlt
        omega
      · rfl
      · have := List.pairwise_iff_getElem.mp hsorted j i hj hi hlt
        omega

theorem valueAt_of_journalled {branch : List BlockAddition} {n : Nat} {t : Store Value}
    (hs : Journalled size scope retention branch n s) (ht : Journalled size scope retention branch n t)
    {k : Key} (hk : Area scope k) : s.valueAt k = t.valueAt k := by
  have hfact : isFact scope k = true → s.valueAt k = t.valueAt k := by
    intro hf
    rw [← facts_eq hf, ← facts_eq hf, hs.holds.stored, ht.holds.stored]
  rcases hk with rfl | ⟨height, rfl⟩ | hk | hk
  · exact hfact isFact_checkpoint
  · apply Option.ext
    intro v
    rw [hs.journal, ht.journal]
  · exact hfact (isFact_history hk)
  · exact hfact (isFact_output hk)

/-- A fixed chain, fixed filters and one retention. Every state is a front part of what is to
be stored. A pass, wherever it stops, leaves a front part of what it would have added, and
adds at most its batch. Two runs with the same checkpoint have the same state. -/
theorem sync_independent_of_batches (env : Environment B) (chain : SourceChain B) (size : Value → Bool)
    (scope : IndexScope) (retention : Nat) (filters : List AddressFilter) (start : BlockPosition)
    (h : Honours env chain filters)
    (hstart : leastPosition (filters.map (·.startPosition)) = some start)
    (hcover : start ≤ (blockRef chain.tip).position) :
    (∀ s, Synced env size scope retention s →
      ∃ n, Stored env size scope retention filters (chain.covered start) n s) ∧
    (∀ s n config fuel q t, Stored env size scope retention filters (chain.covered start) n s →
      config.scope = scope → config.reorgRetention = retention →
      Prog.Reaches (Disturbed env size scope) (sync config fuel) s q t →
      ∃ m n', n ≤ m ∧ m ≤ n' ∧ n' ≤ n + config.batchSize ∧
        Stored env size scope retention filters (chain.covered start) m t ∧
        Stored env size scope retention filters (chain.covered start) n'
          (Prog.run (env.handle size scope) (sync (B := B) config fuel) s).2) ∧
    ∀ s₁ s₂, Synced env size scope retention s₁ → Synced env size scope retention s₂ →
      s₁.valueAt (Keys.checkpoint scope) = s₂.valueAt (Keys.checkpoint scope) →
      ∀ k, Area scope k → s₁.valueAt k = s₂.valueAt k := by
  refine ⟨fun s hs => exists_stored h hstart hcover hs, ?_, ?_⟩
  · rintro s n config fuel q t hs rfl rfl hr
    exact pass_cuts_undisturbed h hstart hcover hs hr
  · intro s₁ s₂ h₁ h₂ hck k hk
    obtain ⟨n₁, hs₁⟩ := exists_stored h hstart hcover h₁
    obtain ⟨n₂, hs₂⟩ := exists_stored h hstart hcover h₂
    obtain rfl := stored_count hs₁ hs₂ hck
    obtain ⟨branch₁, -, hstack₁, hj₁⟩ := hs₁
    obtain ⟨branch₂, -, hstack₂, hj₂⟩ := hs₂
    obtain rfl := Except.ok.inj (hstack₁.symm.trans hstack₂)
    exact valueAt_of_journalled hj₁ hj₂ hk

/-! Three blocks, and one address from the second on: one pass, or three of one block each. -/

theorem honours_fixedChain (chain : SourceChain BlockRef) (filters : List AddressFilter)
    (inspect : BlockRef → List CanonicalAddress → Except IndexError InterpretedBlock) :
    Honours { fixedChain filters chain.blocks with inspect } chain filters where
  tip := by
    simp only [fixedChain, chain.last]
    rfl
  plan := by
    rintro checkpoint plan ⟨⟩
    rfl
  canonicalAt p := by
    show chain.blocks.find? _ = (chain.blocks.find? _).map id
    rw [Option.map_id]
    rfl
  blocks start last limit := rfl

def sampleThird : BlockRef := sampleBlock 2 (some ⟨⟨1⟩, ⟨[1]⟩⟩)

def sampleChainOfThree : SourceChain BlockRef where
  blocks := [sampleGenesis, sampleNext, sampleThird]
  tip := sampleThird
  last := rfl
  linked := .cons_cons rfl (.cons_cons rfl (.singleton _))
  parent_lt := by decide

/-- Every active address pays a fee in every block. -/
def sampleFees (block : BlockRef) (addresses : List CanonicalAddress) :
    Except IndexError InterpretedBlock :=
  .ok ⟨block, addresses.map fun address => ⟨sampleScope, ⟨sampleScope, address.value⟩, .included, [],
    some ⟨⟨sampleScope.chain, .lit "coin" (Eq.refl true)⟩, Decimal.normalize 1 0 Decimal.zero_lt_scale, some address⟩⟩, {}⟩

def sampleLate : List AddressFilter := [⟨sampleAddress, ⟨1⟩⟩]

def sampleSource : Environment BlockRef :=
  { fixedChain sampleLate sampleChainOfThree.blocks with inspect := sampleFees }

def samplePasses (batchSize : Nat) (h : 0 < batchSize) : Nat → Store Value
  | 0 => Store.empty
  | k + 1 => (Prog.run (sampleSource.handle (fun _ => true) sampleScope)
      (sync (B := BlockRef) ⟨sampleScope, 1, 2, batchSize, by decide, by decide, h⟩ 0)
      (samplePasses batchSize h k)).2

theorem synced_samplePasses (batchSize : Nat) (h : 0 < batchSize) (k : Nat) :
    Synced sampleSource (fun _ => true) sampleScope 2 (samplePasses batchSize h k) := by
  induction k with
  | zero => exact .start (empty_empty _)
  | succ k ih =>
    exact .pass ⟨sampleScope, 1, 2, batchSize, by decide, by decide, h⟩ 0 ih rfl rfl
      (Prog.reaches_run _ (fun _ _ => Or.inl rfl) _ _)

theorem sync_independent_of_batches_sample :
    (samplePasses 10 (by decide) 1).valueAt (Keys.checkpoint sampleScope) =
        checkpointValue (some sampleThird) ∧
      (samplePasses 1 (by decide) 2).valueAt (Keys.checkpoint sampleScope) =
        checkpointValue (some sampleNext) ∧
      ∀ k, Area sampleScope k →
        (samplePasses 10 (by decide) 1).valueAt k = (samplePasses 1 (by decide) 3).valueAt k :=
  ⟨by decide, by decide +kernel,
    (sync_independent_of_batches sampleSource sampleChainOfThree (fun _ => true) sampleScope 2
      sampleLate ⟨1⟩ (honours_fixedChain _ _ _) rfl (by decide)).2.2 _ _
      (synced_samplePasses 10 (by decide) 1) (synced_samplePasses 1 (by decide) 3) (by decide)⟩

end PaymentSdk.Sync
