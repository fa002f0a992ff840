import PaymentSdk.Redb.Repository.Journal
import PaymentSdk.Redb.Repository.Rollback
import PaymentSdk.Sync.Spec

/-!
# The stored chain stays intact

Whatever the source, the selection and the interpreter answer, and wherever a pass stops.
The checks are spread over `apply`, `BlockAddition.new` and the repository. The one thing
that no check covers is that `reconcile` leaves a journalled block at the top, and that
holds because it removes only what is above a journalled ancestor.
-/

open Interaction KvStore

namespace PaymentSdk.Sync

open Redb

variable {B : Type} {size : Value → Bool} {scope : IndexScope} {retention : Nat}
  {s s' : Store Value} {config : SyncConfig}

/-! ## The invariant -/

def Intact (size : Value → Bool) (scope : IndexScope) (retention : Nat) (s : Store Value) : Prop :=
  ∃ branch n, Journalled size scope retention branch n s

/-- The block is journalled, with its branch around it. -/
def Anchored (size : Value → Bool) (scope : IndexScope) (retention : Nat) (block : BlockRef)
    (s : Store Value) : Prop :=
  ∃ upper a lower n, Journalled size scope retention (upper ++ a :: lower) n s ∧
    upper.length < n ∧ a.block = block

theorem intact_of_anchored {block : BlockRef} (h : Anchored size scope retention block s) :
    Intact size scope retention s := by
  obtain ⟨upper, a, lower, n, hj, -, -⟩ := h
  exact ⟨_, n, hj⟩

/-! ## Repository calls -/

theorem intact_writeBlock {a : BlockAddition} (h : Intact size scope retention s)
    (hretention : a.retention = retention) :
    Intact size scope retention (Prog.run (serve size) (writeBlock scope a) s).2 := by
  obtain ⟨branch, n, hj⟩ := h
  rcases hr : Prog.run (serve size) (writeBlock scope a) s with ⟨e | outcome, s'⟩
  · obtain rfl := optimistic_run_error (optimistic_writeBlock a) hr
    exact ⟨branch, n, hj⟩
  · cases outcome with
    | applied => exact ⟨_, _, journalled_add hj hretention hr⟩
    | alreadyApplied =>
      obtain ⟨rfl, -⟩ := run_writeBlock_alreadyApplied hr
      exact ⟨branch, n, hj⟩

theorem anchored_removeTip {anchor tip : BlockRef} (h : Anchored size scope retention anchor s)
    (hlt : anchor.height.toNat < tip.height.toNat) :
    Anchored size scope retention anchor (Prog.run (serve size) (removeTip scope scope tip) s).2 := by
  obtain ⟨upper, a, lower, n, hj, hn, rfl⟩ := h
  rcases hr : Prog.run (serve size) (removeTip scope scope tip) s with ⟨e | out, s'⟩
  · obtain rfl := optimistic_run_error (optimistic_removeTip tip) hr
    exact ⟨upper, a, lower, n, hj, hn, rfl⟩
  · cases upper with
    | nil =>
      obtain ⟨b, rest, he, rfl, -⟩ := holds_remove hj.holds hr
      cases he
      omega
    | cons c upper =>
      rw [List.length_cons] at hn
      obtain ⟨b, rest, he, rfl, -, hrest⟩ := journalled_remove hj (by omega) hr
      obtain ⟨rfl, rfl⟩ := List.cons.inj he
      exact ⟨upper, a, lower, n - 1, hrest, by omega, rfl⟩

/-! ## Calls -/

theorem serves_cases {op : Op B} {r : Except IndexError op.Ans} (h : Serves size scope op s r s') :
    s' = s ∨ ∃ result, served size scope s op = some result ∧ s' = result.2 := by
  unfold Serves at h
  split at h
  · rename_i result hresult
    rcases h with h | ⟨-, h | h⟩
    · exact Or.inr ⟨result, hresult, by rw [← h]⟩
    · exact Or.inl h
    · exact Or.inr ⟨result, hresult, h⟩
  · exact Or.inl h

/-- Calls that never change the store. -/
def Op.isQuiet : Op B → Bool
  | .add _ => false
  | .remove .. => false
  | _ => true

theorem serves_quiet {op : Op B} {r : Except IndexError op.Ans} (hq : op.isQuiet = true)
    (h : Serves size scope op s r s') : s' = s := by
  rcases serves_cases h with h | ⟨result, hresult, rfl⟩
  · exact h
  · cases op with
    | get selector =>
      cases hresult
      exact run_readBlock_snd selector
    | add | remove => cases hq
    | filters | tip | plan | canonicalAt | blocks | inspect | begin | persist | complete =>
      cases hresult

theorem anchored_of_get {h : BlockHeight} {block : BlockRef} (hi : Intact size scope retention s)
    (hr : Serves (B := B) size scope (.get (.height scope h)) s (.ok (some block)) s') :
    Anchored size scope retention block s' := by
  obtain rfl := serves_quiet (B := B) rfl hr
  rcases hr with hr | ⟨⟨e, he⟩, -⟩
  · obtain ⟨-, j, hj, hb⟩ := run_readBlock_height.mp hr.symm
    cases j with
    | none => cases hb
    | some j =>
      obtain ⟨branch, n, hjournalled⟩ := hi
      obtain ⟨j', hmem, -, he⟩ := (hjournalled.journal h _).mp hj
      cases he
      obtain ⟨upper, a, lower, rfl, hlt, rfl⟩ := mem_journals.mp hmem
      refine ⟨upper, a, lower, n, hjournalled, hlt, ?_⟩
      simpa using hb.symm
  · cases he

variable {α : Type} {inv : Store Value → Prop}

theorem always_ask {op : Op B} {post : Except Halt op.Ans → Store Value → Prop} (hs : inv s)
    (h : ∀ r s', Serves size scope op s r s' → inv s' ∧ post (r.mapError .failed) s') :
    Prog.Always (Serves size scope) inv post (ask op) s := by
  refine ⟨hs, fun r s' hr => ?_⟩
  cases r with
  | ok a => exact h _ _ hr
  | error e => exact h _ _ hr

theorem keeps_ask {op : Op B} (hq : op.isQuiet = true) :
    Prog.Keeps (Serves size scope) inv (ask op) := by
  intro s hs
  refine always_ask hs fun r s' hr => ⟨?_, trivial⟩
  rw [serves_quiet hq hr]
  exact hs

theorem keeps_pure (a : α) : Prog.Keeps (Serves size scope) inv (pure a : Pass B α) :=
  Prog.keeps_done _

theorem keeps_fail (e : IndexError) : Prog.Keeps (Serves size scope) inv (fail e : Pass B α) :=
  Prog.keeps_done _

theorem keeps_check {β : Type} {x : Except IndexError α} {f : α → Pass B β}
    (hf : ∀ a, x = .ok a → Prog.Keeps (Serves size scope) inv (f a)) :
    Prog.Keeps (Serves size scope) inv (check x >>= f : Pass B β) := by
  cases x with
  | ok a => exact hf a rfl
  | error e => exact keeps_fail e

/-! ## Reconciling -/

theorem keeps_remoteOf (kept : Option BlockRef) :
    Prog.Keeps (Serves (B := B) size scope) inv (remoteOf kept) := by
  cases kept with
  | none => exact keeps_pure _
  | some block => exact keeps_ask rfl

theorem always_findAncestor (oldest : BlockHeight) (fuel : Nat) (height : BlockHeight)
    (h : Intact size config.scope retention s) :
    Prog.Always (Serves (B := B) size config.scope) (Intact size config.scope retention)
      (fun r t => ∀ block, r = .ok (some block) → Anchored size config.scope retention block t)
      (findAncestor config oldest fuel height) s := by
  induction fuel generalizing s height with
  | zero =>
    refine ⟨h, ?_⟩
    rintro block ⟨⟩
  | succ fuel ih =>
    rw [findAncestor]
    apply Prog.always_except_bind
    refine always_ask h fun r t hr => ?_
    obtain rfl := serves_quiet (B := B) rfl hr
    refine ⟨h, ?_⟩
    cases r with
    | error e => rintro block ⟨⟩
    | ok kept =>
      -- Asking the source changes nothing.
      apply Prog.always_except_bind
      have hquiet : Prog.Keeps (Serves (B := B) size config.scope) (· = t) (remoteOf kept) :=
        keeps_remoteOf kept
      apply Prog.always_mono (hquiet t rfl)
      · rintro u rfl
        exact h
      · rintro r u rfl -
        cases r with
        | error e => rintro block ⟨⟩
        | ok remote =>
          dsimp only
          split_ifs
          · refine ⟨h, ?_⟩
            rintro block ⟨⟩
            exact anchored_of_get h hr
          · refine ⟨h, ?_⟩
            rintro block ⟨⟩
          · exact ih _ h

theorem always_removeAbove {ancestor : BlockRef} (fuel : Nat) (current : Option BlockRef)
    (h : Anchored size config.scope retention ancestor s) :
    Prog.Always (Serves (B := B) size config.scope) (Intact size config.scope retention)
      (fun _ _ => True) (removeAbove config ancestor fuel current) s := by
  induction fuel generalizing s current with
  | zero => exact ⟨intact_of_anchored h, trivial⟩
  | succ fuel ih =>
    cases current with
    | none => exact ⟨intact_of_anchored h, trivial⟩
    | some tip =>
      rw [removeAbove]
      split_ifs with hlt
      · apply Prog.always_except_bind
        refine always_ask (intact_of_anchored h) fun r t hr => ?_
        have ht : Anchored size config.scope retention ancestor t := by
          rcases serves_cases hr with rfl | ⟨result, hresult, rfl⟩
          · exact h
          · cases hresult
            exact anchored_removeTip h hlt
        refine ⟨intact_of_anchored ht, ?_⟩
        cases r with
        | error e => trivial
        | ok current =>
          apply Prog.always_except_bind
          refine always_ask (intact_of_anchored ht) fun r' t' hr' => ?_
          obtain rfl := serves_quiet (B := B) rfl hr'
          refine ⟨intact_of_anchored ht, ?_⟩
          cases r' with
          | error e => trivial
          | ok _ => exact ih current ht
      · exact ⟨intact_of_anchored h, trivial⟩

theorem keeps_reconcile (fuel : Nat) (tip : BlockRef) (plan : Admission.SyncPlan) :
    Prog.Keeps (Serves (B := B) size config.scope) (Intact size config.scope retention)
      (reconcile config fuel tip plan) := by
  intro s h
  apply Prog.always_except_bind
  apply Prog.always_mono (always_findAncestor _ fuel tip.height h) fun _ ht => ht
  intro r t ht hr
  match r, hr with
  | .error e, _ => trivial
  | .ok none, _ => exact keeps_fail _ t ht
  | .ok (some ancestor), hr =>
    apply Prog.always_except_bind
    refine always_ask ht fun r' t' hr' => ?_
    obtain rfl := serves_quiet (B := B) rfl hr'
    refine ⟨ht, ?_⟩
    cases r' with
    | error e => trivial
    | ok _ =>
      apply Prog.always_except_bind
      apply Prog.always_mono (always_removeAbove fuel (some tip) (hr ancestor rfl)) fun _ ht => ht
      intro r'' t'' ht'' _
      cases r'' with
      | error e => trivial
      | ok current =>
        refine Prog.keeps_except_bind (keeps_ask rfl) (fun _ => ?_) t'' ht''
        cases current <;> exact keeps_pure _

/-! ## A pass -/

theorem keeps_settle (fuel : Nat) (checkpoint : Option BlockRef) (plan : Admission.SyncPlan) :
    Prog.Keeps (Serves (B := B) size config.scope) (Intact size config.scope retention)
      (settle config fuel checkpoint plan) := by
  cases checkpoint with
  | none => exact keeps_pure _
  | some tip =>
    refine Prog.keeps_except_bind (keeps_ask rfl) fun canonical => ?_
    split_ifs
    · exact keeps_pure _
    · exact keeps_reconcile fuel tip plan

variable [SourceBlock B]

theorem keeps_apply (hretention : config.reorgRetention = retention) (block : B)
    (addresses : List CanonicalAddress) (checkpoint : Option BlockRef) (plan : Admission.SyncPlan) :
    Prog.Keeps (Serves (B := B) size config.scope) (Intact size config.scope retention)
      (apply config block addresses checkpoint plan) := by
  refine keeps_check fun _ _ => keeps_check fun _ _ => ?_
  refine Prog.keeps_except_bind (keeps_ask rfl) fun interpreted => keeps_check fun _ _ => ?_
  refine Prog.keeps_except_bind (keeps_ask rfl) fun canonical => ?_
  split_ifs
  · exact keeps_fail _
  · refine keeps_check fun addition hnew => ?_
    have haddition : addition.retention = retention := (new_ok hnew).2.2.1.trans hretention
    refine Prog.keeps_except_bind (keeps_ask rfl) fun _ => ?_
    refine Prog.keeps_except_bind ?_ fun _ => ?_
    · intro s hs
      refine always_ask hs fun r t hr => ⟨?_, trivial⟩
      rcases serves_cases hr with rfl | ⟨result, hresult, rfl⟩
      · exact hs
      · cases hresult
        exact intact_writeBlock hs haddition
    · exact Prog.keeps_except_bind (keeps_ask rfl) fun _ => keeps_pure _

theorem keeps_fetchBlocks (start last : BlockPosition) (limit : Nat) :
    Prog.Keeps (Serves size scope) inv (fetchBlocks (B := B) start last limit) := by
  refine Prog.keeps_except_bind (keeps_ask rfl) fun blocks => ?_
  cases checkBlocks start last limit blocks with
  | ok blocks => exact keeps_pure _
  | error e => exact keeps_fail _

theorem keeps_oneBlock (start last : BlockPosition) :
    Prog.Keeps (Serves size scope) inv (oneBlock (B := B) start last) := by
  refine Prog.keeps_except_bind (keeps_fetchBlocks start last 1) fun blocks => ?_
  split
  · exact keeps_pure _
  · exact keeps_fail _

theorem keeps_applyAnchor (hretention : config.reorgRetention = retention)
    (plan : Admission.SyncPlan) (parent : Option BlockParent) :
    Prog.Keeps (Serves (B := B) size config.scope) (Intact size config.scope retention)
      (applyAnchor config plan parent) := by
  cases parent with
  | none => exact keeps_pure _
  | some parent =>
    refine Prog.keeps_except_bind (keeps_oneBlock _ _) fun anchor => ?_
    dsimp only
    split_ifs
    · exact keeps_fail _
    · exact Prog.keeps_except_bind (keeps_apply hretention _ _ _ _) fun _ => keeps_pure _

theorem keeps_initializeCheckpoint (hretention : config.reorgRetention = retention)
    (observedTip : BlockRef) (plan : Admission.SyncPlan) :
    Prog.Keeps (Serves (B := B) size config.scope) (Intact size config.scope retention)
      (initializeCheckpoint config observedTip plan) := by
  unfold initializeCheckpoint
  split
  · refine Prog.keeps_except_bind (keeps_oneBlock _ _) fun anchor => ?_
    exact Prog.keeps_except_bind (keeps_apply hretention _ _ _ _) fun _ => keeps_pure _
  · refine Prog.keeps_except_bind (keeps_oneBlock _ _) fun first => ?_
    refine Prog.keeps_except_bind (keeps_applyAnchor hretention _ _) fun acc => ?_
    dsimp only
    split_ifs
    · exact Prog.keeps_except_bind (keeps_apply hretention _ _ _ _) fun _ => keeps_pure _
    · exact keeps_pure _

theorem keeps_catchUp (hretention : config.reorgRetention = retention) (observedTip : BlockRef)
    (checkpoint : Option BlockRef) (applied : Nat) (plan : Admission.SyncPlan) :
    Prog.Keeps (Serves (B := B) size config.scope) (Intact size config.scope retention)
      (catchUp (B := B) config observedTip checkpoint applied plan) := by
  unfold catchUp
  split
  · exact keeps_pure _
  · split_ifs
    · split
      · exact keeps_fail _
      · refine Prog.keeps_except_bind (keeps_fetchBlocks _ _ _) fun blocks => ?_
        split_ifs
        · exact keeps_fail _
        · refine Prog.keeps_except_bind (Prog.keeps_foldlM (fun acc block => ?_) _ _)
            fun _ => keeps_pure _
          exact Prog.keeps_except_bind (keeps_apply hretention _ _ _ _) fun _ => keeps_pure _
    · exact keeps_pure _

theorem keeps_sync (hretention : config.reorgRetention = retention) (fuel : Nat) :
    Prog.Keeps (Serves (B := B) size config.scope) (Intact size config.scope retention)
      (sync (B := B) config fuel) := by
  unfold sync
  refine Prog.keeps_except_bind (keeps_ask rfl) fun filters => keeps_check fun _ _ => ?_
  refine Prog.keeps_except_bind (keeps_ask rfl) fun observedTip => ?_
  refine Prog.keeps_except_bind (keeps_ask rfl) fun checkpoint => ?_
  refine Prog.keeps_except_bind (keeps_ask rfl) fun plan => keeps_check fun _ _ => ?_
  refine Prog.keeps_except_bind (keeps_settle fuel _ _) fun settled => ?_
  refine Prog.keeps_except_bind ?_ fun started => ?_
  · unfold startCheckpoint
    split
    · exact keeps_initializeCheckpoint hretention _ _
    · exact keeps_pure _
  · exact Prog.keeps_except_bind (keeps_catchUp hretention _ _ _ _) fun _ => keeps_pure _

/-! ## Runs of passes -/

/-- What passes can reach from an empty scope. A pass may stop anywhere, and the settings
other than scope and retention may differ from pass to pass. -/
inductive Reached (B : Type) [SourceBlock B] (size : Value → Bool) (scope : IndexScope)
    (retention : Nat) : Store Value → Prop where
  | start {s : Store Value} : Empty scope s → Reached B size scope retention s
  | pass {s t : Store Value} {q : Pass B SyncStatus} (config : SyncConfig) (fuel : Nat) :
      Reached B size scope retention s → config.scope = scope → config.reorgRetention = retention →
        Prog.Reaches (Serves size scope) (sync config fuel) s q t → Reached B size scope retention t

theorem intact_reached (h : Reached B size scope retention s) : Intact size scope retention s := by
  induction h with
  | start hempty => exact ⟨[], 0, journalled_empty hempty⟩
  | pass config fuel _ hscope hretention hreaches ih =>
    subst hscope
    exact Prog.keeps_reaches (keeps_sync hretention fuel) ih hreaches

/-- Two journal entries, one on top of the other. -/
structure Linked (upper lower : JournalRecord) : Prop where
  height : upper.blockRef.height.toNat = lower.blockRef.height.toNat + 1
  position : lower.blockRef.position < upper.blockRef.position
  parent : upper.blockRef.parent = some ⟨lower.blockRef.position, lower.blockRef.hash⟩
  previous : upper.previousCheckpoint.map BlockRecord.intoDomain = some lower.blockRef

theorem journals_linked {branch : List BlockAddition} (h : Branch size scope branch) (n : Nat) :
    (journals scope n branch).IsChain Linked := by
  induction n generalizing branch with
  | zero => exact .nil
  | succ n ih =>
    match branch, n with
    | [], _ => exact .nil
    | [a], 0 | [a], n + 1 => exact .singleton _
    | a :: b :: lower, 0 => exact .singleton _
    | a :: b :: lower, n + 1 =>
      have hlower := ih h.1
      have hexpected : a.expectedCheckpoint = some b.block := branch_expected h
      obtain ⟨hheight, hposition, hparent⟩ := a.follows hexpected
      refine .cons_cons ⟨?_, ?_, ?_, ?_⟩ hlower
      · simpa using hheight
      · simpa using hposition
      · simpa using hparent
      · simp [journalOf, journalRecord, hexpected, JournalRecord.blockRef]

theorem journals_length_le (n : Nat) (branch : List BlockAddition) :
    (journals scope n branch).length ≤ n := by
  induction n generalizing branch with
  | zero => simp [journals]
  | succ n ih =>
    cases branch with
    | nil => simp [journals]
    | cons a lower => simpa [journals] using ih lower

/-- In every state that passes can reach, the journal is a chain of at most `retention`
entries, tip first: nothing else is journalled, and the checkpoint is the block of the first
entry. -/
theorem stored_chain_intact (h : Reached B size scope retention s) :
    ∃ entries : List JournalRecord, entries.length ≤ retention ∧
      (∀ height v, s.valueAt (Keys.journal scope height) = some v ↔
        ∃ j ∈ entries, j.blockRef.height = height ∧ v = .journal j) ∧
      s.valueAt (Keys.checkpoint scope) = checkpointValue (entries.head?.map (·.blockRef)) ∧
      entries.IsChain Linked := by
  obtain ⟨branch, n, hj⟩ := intact_reached h
  refine ⟨journals scope n branch, Nat.le_trans (journals_length_le n branch) hj.bound, hj.journal,
    ?_, journals_linked hj.holds.written n⟩
  rw [holds_checkpoint hj.holds]
  cases branch with
  | nil => cases n <;> rfl
  | cons a lower =>
    have hpos := hj.top (by simp)
    obtain ⟨m, rfl⟩ : ∃ m, n = m + 1 := ⟨n - 1, by omega⟩
    simp [journals]

/-! One pass over a source of two blocks, with room for one journal entry. -/

/-- A source whose chain does not change, and an interpreter that finds nothing. -/
def fixedChain (filters : List AddressFilter) (chain : List BlockRef) : Environment BlockRef where
  filters := filters
  tip := match chain.getLast? with
    | some tip => .ok tip
    | none => .error ⟨.source, "no block", true⟩
  plan checkpoint := .ok ⟨filters, checkpoint, 0, false⟩
  begin _ := .ok ()
  canonicalAt position := chain.find? (·.position = position)
  blocks start last limit :=
    (chain.filter fun b => start ≤ b.position ∧ b.position ≤ last).take limit
  inspect block _ := .ok ⟨block, [], {}⟩

omit [SourceBlock B] in
theorem serves_handle (env : Environment B) (op : Op B) (s : Store Value) :
    Serves size scope op s (env.handle size scope op s).1 (env.handle size scope op s).2 := by
  cases op with
  | get | add | remove => exact Or.inl rfl
  | filters | tip | plan | canonicalAt | blocks | inspect | begin | persist | complete => rfl

theorem sampleBatch_pos : 0 < 10 := by decide

def sampleConfig (retention : Nat) (h : 0 < retention) : SyncConfig :=
  ⟨sampleScope, 1, retention, 10, Nat.one_pos, h, sampleBatch_pos⟩

def sampleFilters : List AddressFilter := [⟨sampleAddress, ⟨0⟩⟩]

/-- The store after a pass over this chain. -/
def afterPass (config : SyncConfig) (chain : List BlockRef) (s : Store Value) : Store Value :=
  (Prog.run ((fixedChain sampleFilters chain).handle (fun _ => true) config.scope)
    (sync (B := BlockRef) config 5) s).2

theorem reached_afterPass (config : SyncConfig) (chain : List BlockRef)
    (h : Reached BlockRef (fun _ => true) config.scope config.reorgRetention s) :
    Reached BlockRef (fun _ => true) config.scope config.reorgRetention (afterPass config chain s) :=
  .pass config 5 h rfl rfl (Prog.reaches_run _ (serves_handle _) _ _)

theorem stored_chain_intact_sample :
    let s := afterPass (sampleConfig 1 (by decide)) [sampleGenesis, sampleNext] Store.empty
    s.valueAt (Keys.checkpoint sampleScope) = checkpointValue (some sampleNext) ∧
      ∃ entries : List JournalRecord, entries.length ≤ 1 ∧
        (∀ height v, s.valueAt (Keys.journal sampleScope height) = some v ↔
          ∃ j ∈ entries, j.blockRef.height = height ∧ v = .journal j) ∧
        s.valueAt (Keys.checkpoint sampleScope) = checkpointValue (entries.head?.map (·.blockRef)) ∧
        entries.IsChain Linked := by
  have hreached : Reached BlockRef (fun _ => true) sampleScope 1
      (afterPass (sampleConfig 1 (by decide)) [sampleGenesis, sampleNext] Store.empty) :=
    reached_afterPass (sampleConfig 1 (by decide)) _ (.start (empty_empty _))
  exact ⟨by decide, stored_chain_intact hreached⟩

end PaymentSdk.Sync
