import PaymentSdk.Sync.Integrity

/-!
# Reconciling with a reorg

The search looks at the heights from the tip down to `retention` below it, and the journal
holds the top of the branch, so the search sees everything that is journalled. What it then
removes is all journalled, so no removal can fail midway.
-/

open Interaction KvStore

namespace PaymentSdk.Sync

open Redb

variable {B : Type} {size : Value → Bool} {scope : IndexScope} {retention n : Nat}
  {s s' : Store Value} {config : SyncConfig} {env : Environment B}

/-- The block still has its journal entry. -/
def Retained (scope : IndexScope) (s : Store Value) (block : BlockRef) : Prop :=
  ∃ j, s.valueAt (Keys.journal scope block.height) = some (.journal j) ∧ j.blockRef = block

instance (scope : IndexScope) (s : Store Value) (block : BlockRef) :
    Decidable (Retained scope s block) :=
  match h : s.valueAt (Keys.journal scope block.height) with
  | some (.journal j) => decidable_of_iff (j.blockRef = block) (by
      simp [Retained, h])
  | some (.block _) => isFalse (by simp [Retained, h])
  | some (.transaction _) => isFalse (by simp [Retained, h])
  | some (.output _) => isFalse (by simp [Retained, h])
  | none => isFalse (by simp [Retained, h])

/-- The source reports the block at its own position. -/
def Environment.Canonical (env : Environment B) (block : BlockRef) : Prop :=
  env.canonicalAt block.position = some block

instance (env : Environment B) (block : BlockRef) : Decidable (env.Canonical block) :=
  inferInstanceAs (Decidable (_ = _))

theorem retained_iff {branch : List BlockAddition} {block : BlockRef}
    (h : Journalled size scope retention branch n s) :
    Retained scope s block ↔ ∃ upper a lower, branch = upper ++ a :: lower ∧ upper.length < n ∧
      a.block = block := by
  constructor
  · rintro ⟨j, hj, rfl⟩
    obtain ⟨j', hmem, -, he⟩ := (h.journal _ _).mp hj
    cases he
    obtain ⟨upper, a, lower, rfl, hlt, rfl⟩ := mem_journals.mp hmem
    exact ⟨upper, a, lower, rfl, hlt, by simp⟩
  · rintro ⟨upper, a, lower, rfl, hlt, rfl⟩
    refine ⟨journalOf scope a (factsOf scope lower), (h.journal _ _).mpr ⟨_, ?_, by simp, rfl⟩, by simp⟩
    exact mem_journals.mpr ⟨upper, a, lower, rfl, hlt, rfl⟩

/-! ## The search -/

theorem run_ask (op : Op B) (s : Store Value) :
    Prog.run (env.handle size scope) (ask op) s =
      ((env.handle size scope op s).1.mapError .failed, (env.handle size scope op s).2) := by
  rw [ask, Prog.run_call]
  cases (env.handle size scope op s).1 <;> rfl

/-- What the journal says under a height, in a store that journals nothing else there. -/
theorem run_ask_height (env : Environment B) {branch : List BlockAddition}
    (h : Journalled size config.scope retention branch n s) (height : BlockHeight) :
    ∃ kept : Option BlockRef,
      Prog.run (env.handle size config.scope) (ask (.get (.height config.scope height))) s =
        (.ok kept, s) ∧
      ∀ block, kept = some block ↔ block.height = height ∧ Retained config.scope s block := by
  have hread : ∀ j : Option JournalRecord,
      s.valueAt (Keys.journal config.scope height) = j.map .journal →
      Prog.run (env.handle size config.scope) (ask (.get (.height config.scope height))) s =
        (.ok (j.map (·.blockRef)), s) := by
    intro j hj
    rw [run_ask]
    simp only [Environment.handle]
    rw [run_readBlock_height.mpr ⟨rfl, j, hj, rfl⟩]
    rfl
  cases hv : s.valueAt (Keys.journal config.scope height) with
  | none =>
    refine ⟨none, hread none hv, ?_⟩
    rintro block
    simp only [reduceCtorEq, false_iff]
    rintro ⟨rfl, j, hj, -⟩
    rw [hv] at hj
    cases hj
  | some v =>
    obtain ⟨j, -, rfl, rfl⟩ := (h.journal height v).mp hv
    refine ⟨some j.blockRef, hread (some j) hv, ?_⟩
    intro block
    simp only [Option.some.injEq]
    constructor
    · rintro rfl
      exact ⟨rfl, j, hv, rfl⟩
    · rintro ⟨he, j', hj', rfl⟩
      rw [he, hv] at hj'
      cases hj'
      rfl

/-- The answer of a search from `height` down to `oldest`. -/
def Searched (env : Environment B) (scope : IndexScope) (s : Store Value) (oldest height : BlockHeight) :
    Option BlockRef → Prop
  | none => ∀ b, Retained scope s b → oldest.toNat ≤ b.height.toNat → b.height.toNat ≤ height.toNat →
      ¬ env.Canonical b
  | some a => Retained scope s a ∧ a.height.toNat ≤ height.toNat ∧ env.Canonical a ∧
      ∀ b, Retained scope s b → a.height.toNat < b.height.toNat → b.height.toNat ≤ height.toNat →
        ¬ env.Canonical b

theorem toNat_pred {height : BlockHeight} : (pred height).toNat = height.toNat - 1 := by
  have := height.toNat_lt
  simp only [pred, BlockHeight.toNat, UInt64.toNat_ofNat'] at this ⊢
  omega

theorem searched_lower {oldest height : BlockHeight} {out : Option BlockRef}
    (hhere : ∀ b, Retained scope s b → b.height = height → ¬ env.Canonical b)
    (h : Searched env scope s oldest (pred height) out) : Searched env scope s oldest height out := by
  have hpred : (pred height).toNat = height.toNat - 1 := toNat_pred
  have hsplit : ∀ b : BlockRef, b.height.toNat ≤ height.toNat →
      b.height = height ∨ b.height.toNat ≤ (pred height).toNat := by
    intro b hb
    by_cases he : b.height.toNat = height.toNat
    · exact Or.inl (BlockHeight.toNat_inj he)
    · exact Or.inr (by omega)
  cases out with
  | none =>
    intro b hb hold hle
    rcases hsplit b hle with he | hle
    · exact hhere b hb he
    · exact h b hb hold hle
  | some a =>
    obtain ⟨hretained, hle, hcanonical, hnone⟩ := h
    refine ⟨hretained, by omega, hcanonical, ?_⟩
    intro b hb hlt hle
    rcases hsplit b hle with he | hle
    · exact hhere b hb he
    · exact hnone b hb hlt hle

/-- The search ends, reads only, and finds the highest canonical block of its range. -/
theorem run_findAncestor (env : Environment B) {branch : List BlockAddition} {oldest height : BlockHeight} {fuel : Nat}
    (h : Journalled size config.scope retention branch n s)
    (hle : oldest.toNat ≤ height.toNat) (hfuel : height.toNat - oldest.toNat < fuel) :
    ∃ out, Prog.run (env.handle size config.scope) (findAncestor config oldest fuel height) s =
      (.ok out, s) ∧ Searched env config.scope s oldest height out := by
  induction fuel generalizing height with
  | zero => omega
  | succ fuel ih =>
    obtain ⟨kept, hrun, hkept⟩ := run_ask_height env h height
    have hremote : ∃ remote, Prog.run (env.handle size config.scope) (remoteOf kept) s =
        (.ok remote, s) ∧ ∀ b, kept = some b → (kept = remote ↔ env.Canonical b) := by
      cases kept with
      | none => exact ⟨none, rfl, by rintro b ⟨⟩⟩
      | some b =>
        refine ⟨env.canonicalAt b.position, ?_, ?_⟩
        · rw [remoteOf, run_ask]
          rfl
        · rintro _ ⟨⟩
          exact eq_comm
    obtain ⟨remote, hremote, hmatch⟩ := hremote
    rw [findAncestor, Prog.run_except_bind, hrun]
    dsimp only
    rw [Prog.run_except_bind, hremote]
    dsimp only
    split_ifs with hfound hlast
    · obtain ⟨b, rfl⟩ := Option.isSome_iff_exists.mp hfound.1
      obtain ⟨hb, hretained⟩ := (hkept b).mp rfl
      refine ⟨some b, rfl, hretained, Nat.le_of_eq (by rw [hb]), (hmatch b rfl).mp hfound.2, ?_⟩
      intro c _ hlt hle'
      rw [hb] at hlt
      omega
    all_goals
      have hhere : ∀ b, Retained config.scope s b → b.height = height → ¬ env.Canonical b := by
        intro b hb he hcanonical
        have hsome := (hkept b).mpr ⟨he, hb⟩
        exact hfound ⟨by rw [hsome]; rfl, (hmatch b hsome).mpr hcanonical⟩
    · subst hlast
      refine ⟨none, rfl, ?_⟩
      intro b hb hlow hhigh
      exact hhere b hb (BlockHeight.toNat_inj (by omega))
    · have hne : height.toNat ≠ oldest.toNat := fun he => hlast (BlockHeight.toNat_inj he)
      have hpred : (pred height).toNat = height.toNat - 1 := toNat_pred
      obtain ⟨out, hout, hsearched⟩ := ih (show oldest.toNat ≤ (pred height).toNat by omega) (by omega)
      exact ⟨out, hout, searched_lower hhere hsearched⟩

/-! ## The removals -/

theorem run_removeAbove (env : Environment B) {upper lower : List BlockAddition} {a : BlockAddition} {fuel : Nat}
    (h : Journalled size config.scope retention (upper ++ a :: lower) n s) (hn : upper.length < n)
    (hroom : s.version + upper.length ≤ maxVersion) (hfuel : upper.length < fuel) :
    ∃ s', Prog.run (env.handle size config.scope)
        (removeAbove config a.block fuel ((upper ++ a :: lower).head?.map (·.block))) s =
        (.ok (some a.block), s') ∧
      Journalled size config.scope retention (a :: lower) (n - upper.length) s' ∧
      s'.version = s.version + upper.length := by
  induction upper generalizing s n fuel with
  | nil =>
    obtain ⟨fuel, rfl⟩ : ∃ m, fuel = m + 1 := ⟨fuel - 1, by omega⟩
    refine ⟨s, ?_, by simpa using h, by simp⟩
    simp [removeAbove]
  | cons c upper ih =>
    rw [List.length_cons] at hn hroom hfuel
    obtain ⟨fuel, rfl⟩ : ∃ m, fuel = m + 1 := ⟨fuel - 1, by omega⟩
    have hheight := branch_height_add h.holds.written
    obtain ⟨t, hremove⟩ := remove_succeeds h (by omega)
    obtain ⟨_, _, he, -, -, hj⟩ := journalled_remove h (by omega) hremove
    obtain ⟨rfl, rfl⟩ := List.cons.inj he
    have hversion : t.version = s.version + 1 := by
      obtain ⟨-, -, -, -, -, -, hv, -⟩ := holds_remove h.holds hremove
      exact hv
    obtain ⟨s', hrun, hj', hv'⟩ := ih hj (by omega) (by omega) (by omega : upper.length < fuel)
    refine ⟨s', ?_, ?_, ?_⟩
    · simp only [List.cons_append, List.head?_cons, Option.map_some, removeAbove]
      rw [if_pos (by omega), Prog.run_except_bind, run_ask]
      simp only [Environment.handle]
      rw [hremove]
      simp only [Except.mapError]
      rw [Prog.run_except_bind, run_ask]
      exact hrun
    · rw [List.length_cons, show n - (upper.length + 1) = n - 1 - upper.length by omega]
      exact hj'
    · rw [List.length_cons]
      omega

/-! ## The whole call -/

def reorgTooDeep : IndexError :=
  ⟨.reorgTooDeep, "reorg exceeds rollback journal; rescan required", false⟩

theorem toNat_oldest (config : SyncConfig) (tip : BlockRef) :
    (oldest config tip).toNat = tip.height.toNat - config.reorgRetention := by
  have := tip.height.toNat_lt
  simp only [oldest, BlockHeight.toNat, UInt64.toNat_ofNat'] at this ⊢
  omega

/-- The block is the highest retained one that the source has. -/
structure CommonAncestor (env : Environment B) (scope : IndexScope) (s : Store Value)
    (block : BlockRef) : Prop where
  retained : Retained scope s block
  canonical : env.Canonical block
  highest : ∀ b, Retained scope s b → block.height.toNat < b.height.toNat → ¬ env.Canonical b

/-- A call from an intact store, with the tip of its branch. -/
theorem run_reconcile {branch : List BlockAddition} {tip : BlockRef} {fuel : Nat}
    {plan : Admission.SyncPlan}
    (h : Journalled size config.scope config.reorgRetention branch n s)
    (htip : branch.head?.map (·.block) = some tip) (hbegin : env.begin plan = .ok ())
    (hroom : s.version + config.reorgRetention ≤ maxVersion) (hfuel : config.reorgRetention < fuel) :
    ((∀ b, Retained config.scope s b → ¬ env.Canonical b) ∧
      Prog.run (env.handle size config.scope) (reconcile config fuel tip plan) s =
        (.error (.failed reorgTooDeep), s)) ∨
    ∃ upper a lower s', branch = upper ++ a :: lower ∧ upper.length < n ∧
      CommonAncestor env config.scope s a.block ∧
      Prog.run (env.handle size config.scope) (reconcile config fuel tip plan) s =
        (.ok (some a.block, plan.advance a.block), s') ∧
      Journalled size config.scope config.reorgRetention (a :: lower) (n - upper.length) s' ∧
      s'.version = s.version + upper.length := by
  have hbound := h.bound
  have hlow := toNat_oldest config tip
  -- Every retained block is in the range of the search.
  have hrange : ∀ b, Retained config.scope s b →
      (oldest config tip).toNat ≤ b.height.toNat ∧ b.height.toNat ≤ tip.height.toNat := by
    intro b hb
    obtain ⟨upper, a, lower, rfl, hlt, rfl⟩ := (retained_iff h).mp hb
    cases upper with
    | nil =>
      obtain rfl : a.block = tip := Option.some.inj htip
      omega
    | cons c upper =>
      obtain rfl : c.block = tip := Option.some.inj htip
      have := branch_height_add h.holds.written
      rw [List.length_cons] at hlt
      omega
  obtain ⟨out, hsearch, hout⟩ := run_findAncestor env h
    (show (oldest config tip).toNat ≤ tip.height.toNat by omega) (by omega : _ < fuel)
  rw [reconcile, Prog.run_except_bind, hsearch]
  cases out with
  | none =>
    refine Or.inl ⟨?_, rfl⟩
    intro b hb
    exact hout b hb (hrange b hb).1 (hrange b hb).2
  | some ancestor =>
    obtain ⟨hretained, -, hcanonical, hhighest⟩ := hout
    obtain ⟨upper, a, lower, rfl, hlt, rfl⟩ := (retained_iff h).mp hretained
    obtain ⟨s', hremove, hj, hversion⟩ := run_removeAbove env h hlt (by omega)
      (by omega : upper.length < fuel)
    refine Or.inr ⟨upper, a, lower, s', rfl, hlt, ⟨hretained, hcanonical, ?_⟩, ?_, hj, hversion⟩
    · exact fun b hb hhigh => hhighest b hb hhigh (hrange b hb).2
    · rw [htip] at hremove
      dsimp only
      rw [Prog.run_except_bind, run_ask]
      simp only [Environment.handle, hbegin, Except.mapError]
      rw [Prog.run_except_bind, hremove]
      dsimp only
      rw [Prog.run_except_bind, run_ask]
      rfl

variable [SourceBlock B]

/-- From any state that passes reach, with a source that does not change, an admitted plan
and versions left: the call ends, and either changes nothing at all, or lands on the highest
retained block that the source has, with exactly the blocks above it removed. -/
theorem reconcile_all_or_nothing (env : Environment B) (config : SyncConfig) (s : Store Value)
    (hreached : Reached B size config.scope config.reorgRetention s) (tip : BlockRef)
    (htip : s.valueAt (Keys.checkpoint config.scope) = checkpointValue (some tip))
    (plan : Admission.SyncPlan) (hbegin : env.begin plan = .ok ())
    (hroom : s.version + config.reorgRetention ≤ maxVersion) (fuel : Nat)
    (hfuel : config.reorgRetention < fuel) :
    let result := Prog.run (env.handle size config.scope) (reconcile config fuel tip plan) s
    (result = (.error (.failed reorgTooDeep), s) ∧
      ∀ b, Retained config.scope s b → ¬ env.Canonical b) ∨
    ∃ upper a lower, Holds size config.scope (upper ++ a :: lower) s ∧
      CommonAncestor env config.scope s a.block ∧
      result.1 = .ok (some a.block, plan.advance a.block) ∧
      Holds size config.scope (a :: lower) result.2 ∧
      result.2.version = s.version + upper.length := by
  intro result
  obtain ⟨branch, n, h⟩ := intact_reached hreached
  have hhead : branch.head?.map (·.block) = some tip :=
    checkpointValue_inj ((holds_checkpoint h.holds).symm.trans htip)
  rcases run_reconcile h hhead hbegin hroom hfuel with
    ⟨hnone, hrun⟩ | ⟨upper, a, lower, s', rfl, -, hancestor, hrun, hj, hversion⟩
  · exact Or.inl ⟨hrun, hnone⟩
  · refine Or.inr ⟨upper, a, lower, h.holds, hancestor, ?_, ?_, ?_⟩
    · rw [show result = _ from hrun]
    · rw [show result = _ from hrun]
      exact hj.holds
    · rw [show result = _ from hrun]
      exact hversion

/-! A source that replaces the second of two blocks. -/

def sampleOther : BlockRef := ⟨⟨1⟩, ⟨1⟩, ⟨[9]⟩, some ⟨⟨0⟩, ⟨[0]⟩⟩, none⟩

def sampleReorg : Environment BlockRef := fixedChain sampleFilters [sampleGenesis, sampleOther]

def samplePlan : Admission.SyncPlan := ⟨sampleFilters, some sampleNext, 0, false⟩

/-- Both blocks of the old chain, stored with the given retention. -/
def sampleStore (retention : Nat) (h : 0 < retention) : Store Value :=
  afterPass (sampleConfig retention h) [sampleGenesis, sampleNext] Store.empty

theorem reached_sampleStore (retention : Nat) (h : 0 < retention) :
    Reached BlockRef (fun _ => true) (sampleConfig retention h).scope
      (sampleConfig retention h).reorgRetention (sampleStore retention h) :=
  reached_afterPass (sampleConfig retention h) _ (.start (empty_empty _))

theorem reconcile_all_or_nothing_sample :
    let s := sampleStore 2 (by decide)
    let result := Prog.run (sampleReorg.handle (fun _ => true) sampleScope)
      (reconcile (sampleConfig 2 (by decide)) 3 sampleNext samplePlan) s
    result.1 = .ok (some sampleGenesis, samplePlan.advance sampleGenesis) ∧
    ((result = (.error (.failed reorgTooDeep), s) ∧
      ∀ b, Retained sampleScope s b → ¬ sampleReorg.Canonical b) ∨
    ∃ upper a lower, Holds (fun _ => true) sampleScope (upper ++ a :: lower) s ∧
      CommonAncestor sampleReorg sampleScope s a.block ∧
      result.1 = .ok (some a.block, samplePlan.advance a.block) ∧
      Holds (fun _ => true) sampleScope (a :: lower) result.2 ∧
      result.2.version = s.version + upper.length) :=
  ⟨by decide, reconcile_all_or_nothing sampleReorg (sampleConfig 2 (by decide)) _
    (reached_sampleStore 2 (by decide)) sampleNext (by decide) samplePlan rfl (by decide) 3 (by decide)⟩

/-! ## The depth that is reached -/

section depth

variable {B : Type}

/-- The stored blocks `upper` were replaced at the source, which still has `a` below them. They
are at most `retention` many, and all of them are journalled. -/
structure Reorg (env : Environment B) (size : Value → Bool) (config : SyncConfig) (s : Store Value)
    (upper : List BlockAddition) (a : BlockAddition) (lower : List BlockAddition) : Prop where
  stored : Holds size config.scope (upper ++ a :: lower) s
  depth : upper.length ≤ config.reorgRetention
  canonical : env.Canonical a.block
  orphaned : ∀ b ∈ upper, ¬ env.Canonical b.block
  journalled : ∀ b ∈ upper, Retained config.scope s b.block

/-- The call removes `upper` and lands on `a`. -/
def Recovers (env : Environment B) (size : Value → Bool) (config : SyncConfig) (s : Store Value)
    (upper : List BlockAddition) (a : BlockAddition) (lower : List BlockAddition) (fuel : Nat)
    (tip : BlockRef) (plan : Admission.SyncPlan) : Prop :=
  ∃ s', Prog.run (env.handle size config.scope) (reconcile config fuel tip plan) s =
      (.ok (some a.block, plan.advance a.block), s') ∧
    Holds size config.scope (a :: lower) s' ∧ s'.version = s.version + upper.length

end depth

omit [SourceBlock B] in
/-- The search finds the block below a reorg if it is journalled, and nothing else. -/
theorem recovers_iff_journalled {upper lower : List BlockAddition} {a : BlockAddition}
    {tip : BlockRef} {fuel : Nat} {plan : Admission.SyncPlan}
    (h : Journalled size config.scope config.reorgRetention (upper ++ a :: lower) n s)
    (hreorg : Reorg env size config s upper a lower)
    (htip : s.valueAt (Keys.checkpoint config.scope) = checkpointValue (some tip))
    (hbegin : env.begin plan = .ok ()) (hroom : s.version + config.reorgRetention ≤ maxVersion)
    (hfuel : config.reorgRetention < fuel) :
    (Recovers env size config s upper a lower fuel tip plan ↔ upper.length < n) ∧
      (Retained config.scope s a.block ↔ upper.length < n) := by
  have hhead : (upper ++ a :: lower).head?.map (·.block) = some tip :=
    checkpointValue_inj ((holds_checkpoint h.holds).symm.trans htip)
  -- A block of the branch is known by its height.
  have hplace : ∀ {upper' b lower'}, upper ++ a :: lower = upper' ++ b :: lower' →
      b.block.height.toNat + upper'.length = a.block.height.toNat + upper.length := by
    intro upper' b lower' he
    rw [branch_height_top h.holds.written hhead]
    exact branch_height_top (he ▸ h.holds.written) (he ▸ hhead)
  have hretained : Retained config.scope s a.block ↔ upper.length < n := by
    rw [retained_iff h]
    constructor
    · rintro ⟨upper', b, lower', he, hlt, hb⟩
      have := hplace he
      rw [hb] at this
      omega
    · exact fun hlt => ⟨upper, a, lower, rfl, hlt, rfl⟩
  refine ⟨?_, hretained⟩
  rcases run_reconcile h hhead hbegin hroom hfuel with
    ⟨hnone, hrun⟩ | ⟨upper', b, lower', s', he, hlt, hancestor, hrun, hj', hversion⟩
  · constructor
    · rintro ⟨s', hs', -⟩
      rw [hrun] at hs'
      cases hs'
    · exact fun hr => absurd hreorg.canonical (hnone _ (hretained.mpr hr))
  · constructor
    · rintro ⟨t, ht, -⟩
      rw [hrun] at ht
      obtain ⟨hb, -⟩ := Prod.mk.inj ht
      obtain ⟨hb, -⟩ := Prod.mk.inj (Except.ok.inj hb)
      rw [← hretained, ← Option.some.inj hb]
      exact hancestor.retained
    · intro hr
      -- The ancestor that was found is not above `a`, where nothing is canonical, nor below it.
      have hlen : upper'.length = upper.length := by
        have hheight := hplace he
        by_contra hne
        rcases Nat.lt_or_gt_of_ne hne with hlt' | hgt
        · apply hreorg.orphaned b _ hancestor.canonical
          have hget : (upper ++ a :: lower)[upper'.length]? = some b := by
            rw [he, List.getElem?_append_right (Nat.le_refl _)]
            simp
          rw [List.getElem?_append_left hlt'] at hget
          exact List.mem_of_getElem? hget
        · exact hancestor.highest a.block (hretained.mpr hr) (by omega) hreorg.canonical
      obtain ⟨rfl, hcons⟩ := List.append_inj he hlen.symm
      cases hcons
      exact ⟨s', hrun, hj'.holds, hversion⟩

/-- A reorg is recovered from exactly when the block below it still has a journal entry of its
own. A block `retention` below the tip never has one, as its entry is pruned by the tip. -/
theorem recovers_iff_ancestor_retained (env : Environment B) (config : SyncConfig) (s : Store Value)
    (hreached : Reached B size config.scope config.reorgRetention s)
    (upper : List BlockAddition) (a : BlockAddition) (lower : List BlockAddition)
    (hreorg : Reorg env size config s upper a lower) (tip : BlockRef)
    (htip : s.valueAt (Keys.checkpoint config.scope) = checkpointValue (some tip))
    (plan : Admission.SyncPlan) (hbegin : env.begin plan = .ok ())
    (hroom : s.version + config.reorgRetention ≤ maxVersion) (fuel : Nat)
    (hfuel : config.reorgRetention < fuel) :
    (Recovers env size config s upper a lower fuel tip plan ↔ Retained config.scope s a.block) ∧
      (upper.length = config.reorgRetention → ¬ Retained config.scope s a.block) := by
  obtain ⟨branch, n, hj⟩ := intact_reached hreached
  have h := journalled_of_holds hj hreorg.stored
  have hbound := h.bound
  obtain ⟨hrecovers, hretained⟩ := recovers_iff_journalled h hreorg htip hbegin hroom hfuel
  exact ⟨hrecovers.trans hretained.symm, by rw [hretained]; omega⟩

/-- The checkpoint that the journal restores under the tip. -/
def previousOf (scope : IndexScope) (s : Store Value) (tip : BlockRef) : Option BlockRef :=
  match s.valueAt (Keys.journal scope tip.height) with
  | some (.journal j) => j.previousCheckpoint.map BlockRecord.intoDomain
  | _ => none

omit [SourceBlock B] in
theorem exists_branch_of_previous (hi : Intact size scope retention s) {tip previous : BlockRef}
    (htip : s.valueAt (Keys.checkpoint scope) = checkpointValue (some tip))
    (hprevious : previousOf scope s tip = some previous) :
    ∃ a b lower, Holds size scope ([a] ++ b :: lower) s ∧ a.block = tip ∧ b.block = previous := by
  obtain ⟨branch, n, h⟩ := hi
  have hhead : branch.head?.map (·.block) = some tip :=
    checkpointValue_inj ((holds_checkpoint h.holds).symm.trans htip)
  unfold previousOf at hprevious
  split at hprevious
  · rename_i j hj
    cases branch with
    | nil => cases hhead
    | cons a rest =>
      obtain rfl : a.block = tip := Option.some.inj hhead
      obtain rfl := holds_tip_journal h.holds hj
      have hexpected : a.expectedCheckpoint = some previous := by
        simpa [journalOf, journalRecord, Function.comp_def] using hprevious
      have hbelow := (branch_expected h.holds.written).symm.trans hexpected
      cases rest with
      | nil => cases hbelow
      | cons b lower => exact ⟨a, b, lower, h.holds, rfl, Option.some.inj hbelow⟩
  · cases hprevious

theorem exists_sampleReorg (retention : Nat) (h : 0 < retention)
    (htip : (sampleStore retention h).valueAt (Keys.checkpoint sampleScope) =
      checkpointValue (some sampleNext))
    (hprevious : previousOf sampleScope (sampleStore retention h) sampleNext = some sampleGenesis)
    (hjournalled : Retained sampleScope (sampleStore retention h) sampleNext) :
    ∃ a b lower, b.block = sampleGenesis ∧
      Reorg sampleReorg (fun _ => true) (sampleConfig retention h) (sampleStore retention h) [a] b lower := by
  obtain ⟨a, b, lower, hholds, ha, hb⟩ :=
    exists_branch_of_previous (intact_reached (reached_sampleStore retention h)) htip hprevious
  refine ⟨a, b, lower, hb, hholds, h, ?_, ?_, ?_⟩
  · rw [hb]
    decide
  · intro c hc
    rw [List.mem_singleton.mp hc, ha]
    decide
  · intro c hc
    rw [List.mem_singleton.mp hc, ha]
    exact hjournalled

theorem recovers_from_one_of_two : ∃ a b lower,
    Reorg sampleReorg (fun _ => true) (sampleConfig 2 (by decide)) (sampleStore 2 (by decide)) [a] b lower ∧
      Recovers sampleReorg (fun _ => true) (sampleConfig 2 (by decide)) (sampleStore 2 (by decide))
        [a] b lower 3 sampleNext samplePlan := by
  obtain ⟨a, b, lower, hb, hreorg⟩ :=
    exists_sampleReorg 2 (by decide) (by decide) (by decide) (by decide)
  refine ⟨a, b, lower, hreorg, ?_⟩
  apply (recovers_iff_ancestor_retained sampleReorg (sampleConfig 2 (by decide)) _
    (reached_sampleStore 2 (by decide)) [a] b lower hreorg sampleNext (by decide) samplePlan rfl
    (by decide) 3 (by decide)).1.mpr
  rw [hb]
  decide

/-- With a retention of one block, the replacement of one block is already too deep. -/
theorem not_recovers_from_one_of_one : ∃ a b lower,
    Reached BlockRef (fun _ => true) sampleScope 1 (sampleStore 1 (by decide)) ∧
    Reorg sampleReorg (fun _ => true) (sampleConfig 1 (by decide)) (sampleStore 1 (by decide)) [a] b lower ∧
      ∀ fuel, 1 < fuel → ¬ Recovers sampleReorg (fun _ => true) (sampleConfig 1 (by decide))
        (sampleStore 1 (by decide)) [a] b lower fuel sampleNext samplePlan := by
  obtain ⟨a, b, lower, -, hreorg⟩ :=
    exists_sampleReorg 1 (by decide) (by decide) (by decide) (by decide)
  refine ⟨a, b, lower, reached_sampleStore 1 (by decide), hreorg, ?_⟩
  obtain ⟨branch, n, hj⟩ := intact_reached (reached_sampleStore 1 (by decide))
  have h := journalled_of_holds hj hreorg.stored
  have hbound : n ≤ 1 := h.bound
  intro fuel hfuel hrecovers
  have hbegin : sampleReorg.begin samplePlan = .ok () := rfl
  have hlt := (recovers_iff_journalled h hreorg (by decide) hbegin (by decide) hfuel).1.mp hrecovers
  rw [List.length_singleton] at hlt
  omega

end PaymentSdk.Sync
