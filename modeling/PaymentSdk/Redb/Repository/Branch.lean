import PaymentSdk.Redb.Repository.Runs
import PaymentSdk.Redb.Repository.Optimistic

/-!
# The stored branch

The branch is the stack of additions not yet taken back, tip first. The stored facts
are a function of the branch alone, and every journal entry is the one its addition
wrote over the facts below it. So removing the tip restores the facts below.
-/

open Interaction KvStore

namespace PaymentSdk.Redb

variable {size : Value → Bool} {scope : IndexScope} {s s' : Store Value} {a : BlockAddition}
  {branch : List BlockAddition} {F : Facts}

/-! ## Facts -/

/-- Checkpoint, history and live outputs: what readers of the index see. -/
def isFact (scope : IndexScope) (k : Key) : Bool :=
  decide (k = Keys.checkpoint scope) || Keys.isHistory scope k || Keys.isOutput scope k

/-- The facts of one scope, as a map from keys to values. -/
def facts (scope : IndexScope) (s : Store Value) : Facts := fun k =>
  if isFact scope k then s.valueAt k else none

/-- The facts after one more block. -/
def Facts.add (scope : IndexScope) (a : BlockAddition) (F : Facts) : Facts := fun k =>
  if k = Keys.checkpoint scope then checkpointValue (some a.block)
  else (effect (factOps scope a F) k).getD (F k)

def factsOf (scope : IndexScope) : List BlockAddition → Facts
  | [] => fun _ => none
  | a :: lower => (factsOf scope lower).add scope a

theorem isFact_checkpoint : isFact scope (Keys.checkpoint scope) = true := by simp [isFact]

theorem isFact_history {k : Key} (h : Keys.isHistory scope k = true) : isFact scope k = true := by
  simp [isFact, h]

theorem isFact_output {k : Key} (h : Keys.isOutput scope k = true) : isFact scope k = true := by
  simp [isFact, h]

theorem facts_eq {k : Key} (h : isFact scope k = true) : facts scope s k = s.valueAt k := by
  simp [facts, h]

theorem not_isFact_journal (h : BlockHeight) : isFact scope (Keys.journal scope h) = false := by
  have htag : ∀ b, Keys.tagByte (Keys.journal scope h) = some b → b = Keys.Tag.journal.byte := by
    intro b hb
    rw [Keys.tagByte_journal] at hb
    exact (Option.some.inj hb).symm
  simp only [isFact, Bool.or_eq_false_iff, decide_eq_false_iff_not]
  refine ⟨⟨?_, ?_⟩, ?_⟩
  · intro he
    have := htag _ (by rw [he]; exact Keys.tagByte_checkpoint scope)
    exact absurd this (by decide)
  · by_contra hk
    exact absurd (htag _ (Keys.tagByte_isHistory (by simpa using hk))) (by decide)
  · by_contra hk
    exact absurd (htag _ (Keys.tagByte_isOutput (by simpa using hk))) (by decide)

theorem checkpoint_ne_history {k : Key} (h : Keys.isHistory scope k = true) :
    k ≠ Keys.checkpoint scope := by
  rintro rfl
  have := (Keys.tagByte_checkpoint scope).symm.trans (Keys.tagByte_isHistory h)
  exact absurd this (by decide)

theorem checkpoint_ne_output {k : Key} (h : Keys.isOutput scope k = true) :
    k ≠ Keys.checkpoint scope := by
  rintro rfl
  have := (Keys.tagByte_checkpoint scope).symm.trans (Keys.tagByte_isOutput h)
  exact absurd this (by decide)

/-! ## The operations of one block -/

theorem mem_restores {x : RestoredOutput} :
    x ∈ restores scope a F ↔ ∃ k ∈ a.outputs.spends, x.key = Keys.output scope k ∧
      F x.key = some (.output x.value) := by
  simp only [restores, List.mem_flatMap, restored]
  constructor
  · rintro ⟨k, hk, hx⟩
    split at hx
    · rename_i r hr
      obtain rfl := List.mem_singleton.mp hx
      exact ⟨k, hk, rfl, hr⟩
    · cases hx
  · rintro ⟨k, hk, hkey, hF⟩
    refine ⟨k, hk, ?_⟩
    rw [← hkey, hF]
    simp

theorem restores_congr {G : Facts} (h : ∀ k, Keys.isOutput scope k = true → F k = G k) :
    restores scope a F = restores scope a G := by
  unfold restores
  congr 1
  funext k
  rw [restored, restored, h _ (Keys.isOutput_output scope k)]

theorem restores_facts : restores scope a s.valueAt = restores scope a (facts scope s) :=
  restores_congr fun _ hk => (facts_eq (isFact_output hk)).symm

theorem journalOf_facts : journalOf scope a s.valueAt = journalOf scope a (facts scope s) := by
  rw [journalOf, journalOf, restores_facts]

theorem factOps_facts : factOps scope a s.valueAt = factOps scope a (facts scope s) := by
  rw [factOps, factOps, restores_facts]

theorem additionOps_facts : additionOps scope a s.valueAt = additionOps scope a (facts scope s) := by
  rw [additionOps, additionOps, factOps_facts, journalOps, journalOps, journalOf_facts]

theorem isFact_factOps {op : Operation Value} (h : op ∈ factOps scope a F) :
    (Keys.isHistory scope op.key = true ∧ op.key ∈ (historyPairs a).map (historyKey scope)) ∨
      Keys.isOutput scope op.key = true := by
  simp only [factOps, List.mem_append, List.mem_map] at h
  rcases h with (⟨p, hp, rfl⟩ | ⟨o, _, rfl⟩) | ⟨x, hx, rfl⟩
  · exact Or.inl ⟨Keys.isHistory_history _ _ _ _, List.mem_map_of_mem hp⟩
  · exact Or.inr (Keys.isOutput_output _ _)
  · obtain ⟨k, _, hkey, _⟩ := mem_restores.mp hx
    exact Or.inr (by rw [Operation.key, hkey]; exact Keys.isOutput_output _ _)

theorem effect_factOps_of_not_fact {k : Key} (hk : isFact scope k = false) :
    effect (factOps scope a F) k = none := by
  rw [effect_eq_none_iff]
  rintro op hop rfl
  rcases isFact_factOps hop with ⟨h, -⟩ | h
  · rw [isFact_history h] at hk
    cases hk
  · rw [isFact_output h] at hk
    cases hk

theorem journal_ne_fact {k : Key} (hk : isFact scope k = true) (h : BlockHeight) :
    Keys.journal scope h ≠ k := by
  rintro rfl
  rw [not_isFact_journal] at hk
  cases hk

theorem effect_pruned (o : Option BlockHeight) (k : Key) :
    effect (o.toList.map fun h => (.delete (Keys.journal scope h) : Operation Value)) k =
      if ∃ h ∈ o, Keys.journal scope h = k then some none else none := by
  cases o with
  | none => simp
  | some h =>
    by_cases hk : Keys.journal scope h = k <;> simp [effect_cons, Operation.key, Operation.leaves, hk]

theorem effect_journalOps_fact {k : Key} (hk : isFact scope k = true) :
    effect (journalOps scope a F) k =
      if k = Keys.checkpoint scope then some (checkpointValue (some a.block)) else none := by
  have hpruned : ¬ ∃ h ∈ agedOut a, Keys.journal scope h = k := by
    rintro ⟨h, -, he⟩
    exact journal_ne_fact hk h he
  rw [journalOps, effect_append, effect_pruned, if_neg hpruned]
  by_cases hck : k = Keys.checkpoint scope
  · subst hck
    simp [effect_cons, Operation.key, Operation.leaves, checkpointValue]
  · simp [effect_cons, Operation.key, hck, Ne.symm hck, journal_ne_fact hk]

theorem facts_write_addition :
    facts scope (s.write (additionOps scope a s.valueAt)) = (facts scope s).add scope a := by
  funext k
  unfold Facts.add
  by_cases hk : isFact scope k = true
  · rw [facts_eq hk, valueAt_write, additionOps, effect_append, effect_journalOps_fact hk,
      factOps_facts, facts_eq hk]
    by_cases hck : k = Keys.checkpoint scope <;> simp [hck]
  · have hk' : isFact scope k = false := by simpa using hk
    have hck : k ≠ Keys.checkpoint scope := by
      rintro rfl
      exact hk isFact_checkpoint
    rw [if_neg hck, effect_factOps_of_not_fact hk']
    simp [facts, hk']

theorem agedOut_ne_height : agedOut a ≠ some a.block.height := by
  unfold agedOut
  split
  · rename_i hle
    intro he
    have hnat := congrArg BlockHeight.toNat (Option.some.inj he)
    have hlt := a.block.height.toNat_lt
    have hpos := a.valid.retention_pos
    simp only [BlockHeight.toNat, UInt64.toNat_ofNat'] at hnat hlt hle
    omega
  · simp

theorem effect_factOps_journal (h : BlockHeight) :
    effect (factOps scope a F) (Keys.journal scope h) = none :=
  effect_factOps_of_not_fact (not_isFact_journal h)

theorem effect_additionOps_journal (h : BlockHeight) :
    effect (additionOps scope a F) (Keys.journal scope h) =
      if h = a.block.height then some (some (.journal (journalOf scope a F)))
      else if agedOut a = some h then some none else none := by
  have hck : Keys.checkpoint scope ≠ Keys.journal scope h :=
    (journal_ne_fact isFact_checkpoint h).symm
  have hpruned : (∃ h' ∈ agedOut a, Keys.journal scope h' = Keys.journal scope h) ↔
      agedOut a = some h := by
    constructor
    · rintro ⟨h', hmem, he⟩
      rw [← Keys.journal_inj he]
      exact hmem
    · intro he
      exact ⟨h, he, rfl⟩
  rw [additionOps, effect_append, effect_factOps_journal, journalOps, effect_append, effect_pruned]
  simp only [hpruned]
  by_cases hh : h = a.block.height
  · subst hh
    simp [agedOut_ne_height, effect_cons, Operation.key, Operation.leaves, hck]
  · have hne : Keys.journal scope a.block.height ≠ Keys.journal scope h := by
      intro he
      exact hh (Keys.journal_inj he).symm
    by_cases haged : agedOut a = some h <;>
      simp [hh, haged, effect_cons, Operation.key, hck, hne]

/-! ## Undoing one block -/

/-- The addition can be written over the facts `F`. -/
structure Admits (size : Value → Bool) (scope : IndexScope) (a : BlockAddition) (F : Facts) : Prop where
  scope_eq : a.scope = scope
  checkpoint : F (Keys.checkpoint scope) = checkpointValue a.expectedCheckpoint
  history : ∀ p ∈ historyPairs a, F (historyKey scope p) = none
  created : ∀ o ∈ a.outputs.created, F (Keys.output scope o.key) = none
  typed : ∀ k ∈ a.outputs.spends, IsOutputValue (F (Keys.output scope k))
  required : ∀ k ∈ a.outputs.spent, F (Keys.output scope k) ≠ none
  fits : ∀ op ∈ additionOps scope a F, op.fits size = true

theorem valueAt_eq_none {k : Key} : s.valueAt k = none ↔ s.get k = none := by
  simp [Store.valueAt]

theorem accepts_iff_admits :
    (scope = a.scope ∧ s.valueAt (Keys.checkpoint scope) = checkpointValue a.expectedCheckpoint ∧
      Accepts size scope a s) ↔ Admits size scope a (facts scope s) ∧ s.version + 1 ≤ maxVersion := by
  have hhistory : ∀ p, facts scope s (historyKey scope p) = s.valueAt (historyKey scope p) :=
    fun p => facts_eq (isFact_history (Keys.isHistory_history _ _ _ _))
  have houtput : ∀ k, facts scope s (Keys.output scope k) = s.valueAt (Keys.output scope k) :=
    fun k => facts_eq (isFact_output (Keys.isOutput_output _ _))
  constructor
  · rintro ⟨hscope, hck, h⟩
    refine ⟨⟨hscope.symm, ?_, ?_, ?_, ?_, ?_, ?_⟩, h.room⟩
    · rw [facts_eq isFact_checkpoint, hck]
    · intro p hp
      rw [hhistory, valueAt_eq_none.mpr (h.history p hp)]
    · intro o ho
      rw [houtput, valueAt_eq_none.mpr (h.created o ho)]
    · intro k hk
      rw [houtput]
      exact h.typed k hk
    · intro k hk
      rw [houtput]
      exact h.required k hk
    · rw [← additionOps_facts]
      exact h.fits
  · rintro ⟨h, hroom⟩
    refine ⟨h.scope_eq.symm, ?_, ⟨?_, ?_, ?_, ?_, hroom, ?_⟩⟩
    · rw [← facts_eq isFact_checkpoint, h.checkpoint]
    · intro p hp
      rw [← valueAt_eq_none, ← hhistory, h.history p hp]
    · intro o ho
      rw [← valueAt_eq_none, ← houtput, h.created o ho]
    · intro k hk
      rw [← houtput]
      exact h.typed k hk
    · intro k hk
      rw [← houtput]
      exact h.required k hk
    · rw [additionOps_facts]
      exact h.fits

theorem effect_unjournalOps_fact {k : Key} {tip : BlockRef} (hk : isFact scope k = true) :
    effect (unjournalOps scope tip (journalOf scope a F)) k =
      if k = Keys.checkpoint scope then some (checkpointValue a.expectedCheckpoint) else none := by
  have hj := journal_ne_fact hk tip.height
  have hprevious : (journalOf scope a F).previousCheckpoint =
      a.expectedCheckpoint.map BlockRecord.fromDomain := rfl
  rw [unjournalOps, hprevious]
  by_cases hck : k = Keys.checkpoint scope
  · subst hck
    cases a.expectedCheckpoint <;> simp [effect_cons, checkpointOp, Operation.key, Operation.leaves,
      checkpointValue]
  · cases a.expectedCheckpoint <;> simp [effect_cons, checkpointOp, Operation.key, hj, hck, Ne.symm hck]

/-- What a removal does under a fact key other than the checkpoint: it restores what was
spent, and deletes what was created. -/
theorem effect_removalOps (k : Key) :
    effect (removalOps (journalOf scope a F)) k =
      if ∃ x ∈ restores scope a F, x.key = k then some (F k)
      else if k ∈ (historyPairs a).map (historyKey scope) ∨
        k ∈ a.outputs.created.map (fun o => Keys.output scope o.key) then some none
      else none := by
  have hrestores : effect ((restores scope a F).map fun x =>
      (.put x.key (.output x.value) : Operation Value)) k =
      if ∃ x ∈ restores scope a F, x.key = k then some (F k) else none := by
    split
    · rename_i h
      obtain ⟨x, hx, rfl⟩ := h
      apply effect_of_agree ⟨_, List.mem_map_of_mem hx, rfl⟩
      intro op hop hkey
      obtain ⟨y, hy, rfl⟩ := List.mem_map.mp hop
      obtain ⟨_, _, _, hF⟩ := mem_restores.mp hy
      have hkey : y.key = x.key := hkey
      rw [← hkey, hF]
      rfl
    · rename_i h
      rw [effect_eq_none_iff]
      rintro op hop hkey
      obtain ⟨y, hy, rfl⟩ := List.mem_map.mp hop
      exact h ⟨y, hy, hkey⟩
  rw [removalOps, effect_append, effect_append]
  simp only [journalOf, journalRecord]
  rw [hrestores, effect_deletes, effect_deletes]
  by_cases h1 : ∃ x ∈ restores scope a F, x.key = k
  · simp only [if_pos h1, Option.some_or]
  · by_cases h2 : k ∈ a.outputs.created.map (fun o => Keys.output scope o.key)
    · simp only [if_neg h1, if_pos h2, Option.none_or, Option.some_or, if_pos (Or.inr h2)]
    · by_cases h3 : k ∈ (historyPairs a).map (historyKey scope)
      · simp only [if_neg h1, if_neg h2, if_pos h3, Option.none_or, if_pos (Or.inl h3)]
      · simp only [if_neg h1, if_neg h2, if_neg h3, Option.none_or, if_neg (not_or.mpr ⟨h3, h2⟩)]

theorem effect_factOps_untouched {k : Key} (h1 : ¬ ∃ x ∈ restores scope a F, x.key = k)
    (h2 : ¬ (k ∈ (historyPairs a).map (historyKey scope) ∨
      k ∈ a.outputs.created.map (fun o => Keys.output scope o.key))) :
    effect (factOps scope a F) k = none := by
  rw [effect_eq_none_iff]
  rintro op hop rfl
  simp only [factOps, List.mem_append, List.mem_map] at hop
  rcases hop with (⟨p, hp, rfl⟩ | ⟨o, ho, rfl⟩) | ⟨x, hx, rfl⟩
  · exact h2 (Or.inl (List.mem_map_of_mem hp))
  · exact h2 (Or.inr (List.mem_map_of_mem ho))
  · exact h1 ⟨x, hx, rfl⟩

theorem facts_write_removal {tip : BlockRef} (h : Admits size scope a F)
    (hF : ∀ k, isFact scope k = false → F k = none) (hs : facts scope s = F.add scope a) :
    facts scope (s.write (removalOps (journalOf scope a F) ++
      unjournalOps scope tip (journalOf scope a F))) = F := by
  funext k
  by_cases hk : isFact scope k = true
  · rw [facts_eq hk, valueAt_write, effect_append, effect_unjournalOps_fact hk, ← facts_eq hk, hs]
    by_cases hck : k = Keys.checkpoint scope
    · rw [if_pos hck, Option.some_or, Option.getD_some, hck, h.checkpoint]
    · rw [if_neg hck, Option.none_or, effect_removalOps, Facts.add, if_neg hck]
      split_ifs with h1 h2
      · rfl
      · -- Created by the block, so there was nothing here before.
        rcases h2 with h2 | h2
        · obtain ⟨p, hp, rfl⟩ := List.mem_map.mp h2
          exact (h.history p hp).symm
        · obtain ⟨o, ho, rfl⟩ := List.mem_map.mp h2
          exact (h.created o ho).symm
      · rw [effect_factOps_untouched h1 h2]
        rfl
  · have hk' : isFact scope k = false := by simpa using hk
    rw [hF k hk']
    simp [facts, hk']

theorem isFact_restores {x : RestoredOutput} (hx : x ∈ restores scope a F) :
    isFact scope x.key = true := by
  obtain ⟨k, _, hkey, _⟩ := mem_restores.mp hx
  rw [hkey]
  exact isFact_output (Keys.isOutput_output _ _)

theorem effect_unjournal (tip : BlockRef) (h : BlockHeight) :
    effect (removalOps (journalOf scope a F) ++ unjournalOps scope tip (journalOf scope a F))
        (Keys.journal scope h) = if h = tip.height then some none else none := by
  have hck : Keys.checkpoint scope ≠ Keys.journal scope h :=
    (journal_ne_fact isFact_checkpoint h).symm
  have hinj : Keys.journal scope tip.height = Keys.journal scope h ↔ h = tip.height :=
    ⟨fun he => (Keys.journal_inj he).symm, fun he => by rw [he]⟩
  have hremoval : effect (removalOps (journalOf scope a F)) (Keys.journal scope h) = none := by
    rw [effect_removalOps, if_neg, if_neg]
    · rintro (hmem | hmem) <;> obtain ⟨x, -, hx⟩ := List.mem_map.mp hmem
      · exact journal_ne_fact (isFact_history (Keys.isHistory_history _ _ _ _)) h hx.symm
      · exact journal_ne_fact (isFact_output (Keys.isOutput_output _ _)) h hx.symm
    · rintro ⟨x, hx, he⟩
      exact journal_ne_fact (isFact_restores hx) h he.symm
  rw [effect_append, hremoval, Option.or_none, unjournalOps]
  cases (journalOf scope a F).previousCheckpoint <;>
    simp [effect_cons, checkpointOp, Operation.key, Operation.leaves, hck, hinj]

/-! ## Branches -/

/-- Every addition was written over the facts of those below it. -/
def Branch (size : Value → Bool) (scope : IndexScope) : List BlockAddition → Prop
  | [] => True
  | a :: lower => Branch size scope lower ∧ Admits size scope a (factsOf scope lower)

theorem factsOf_checkpoint (branch : List BlockAddition) :
    factsOf scope branch (Keys.checkpoint scope) = checkpointValue (branch.head?.map (·.block)) := by
  cases branch with
  | nil => rfl
  | cons a lower => simp [factsOf, Facts.add]

theorem factsOf_not_fact {k : Key} (hk : isFact scope k = false) (branch : List BlockAddition) :
    factsOf scope branch k = none := by
  induction branch with
  | nil => rfl
  | cons a lower ih =>
    have hck : k ≠ Keys.checkpoint scope := by
      rintro rfl
      rw [isFact_checkpoint] at hk
      cases hk
    rw [factsOf, Facts.add, if_neg hck, effect_factOps_of_not_fact hk, ih]
    rfl

theorem branch_expected {lower : List BlockAddition} (h : Branch size scope (a :: lower)) :
    a.expectedCheckpoint = lower.head?.map (·.block) := by
  apply checkpointValue_inj
  rw [← h.2.checkpoint, factsOf_checkpoint]

theorem branch_height_lt {lower : List BlockAddition} (h : Branch size scope (a :: lower)) :
    ∀ b ∈ lower, b.block.height.toNat < a.block.height.toNat := by
  induction lower generalizing a with
  | nil => simp
  | cons c lower ih =>
    have hnext : a.block.height.toNat = c.block.height.toNat + 1 := (a.follows (branch_expected h)).1
    intro b hb
    rcases List.mem_cons.mp hb with rfl | hb
    · omega
    · have := ih h.1 b hb
      omega

/-- The store holds exactly this branch, and journals only blocks of it. -/
structure Holds (size : Value → Bool) (scope : IndexScope) (branch : List BlockAddition)
    (s : Store Value) : Prop where
  written : Branch size scope branch
  stored : facts scope s = factsOf scope branch
  journal : ∀ h v, s.valueAt (Keys.journal scope h) = some v → ∃ upper a lower,
    branch = upper ++ a :: lower ∧ a.block.height = h ∧
      v = .journal (journalOf scope a (factsOf scope lower))

/-- Nothing is stored for the scope. -/
def Empty (scope : IndexScope) (s : Store Value) : Prop := ∀ k, Area scope k → s.get k = none

theorem area_of_isFact {k : Key} (h : isFact scope k = true) : Area scope k := by
  simp only [isFact, Bool.or_eq_true, decide_eq_true_eq] at h
  rcases h with (h | h) | h
  · exact Or.inl h
  · exact area_history h
  · exact area_output h

theorem holds_nil_iff_empty : Holds size scope [] s ↔ Empty scope s := by
  constructor
  · rintro h k (rfl | ⟨height, rfl⟩ | hk | hk)
    · rw [← valueAt_eq_none, ← facts_eq isFact_checkpoint, h.stored]
      rfl
    · rw [← valueAt_eq_none]
      by_contra hne
      obtain ⟨v, hv⟩ := Option.ne_none_iff_exists'.mp hne
      obtain ⟨upper, a, lower, he, -⟩ := h.journal height v hv
      simp at he
    · rw [← valueAt_eq_none, ← facts_eq (isFact_history hk), h.stored]
      rfl
    · rw [← valueAt_eq_none, ← facts_eq (isFact_output hk), h.stored]
      rfl
  · intro h
    refine ⟨trivial, ?_, ?_⟩
    · funext k
      by_cases hk : isFact scope k = true
      · rw [facts_eq hk, valueAt_eq_none.mpr (h k (area_of_isFact hk))]
        rfl
      · simp [facts, hk, factsOf]
    · intro height v hv
      rw [valueAt_eq_none.mpr (h _ (area_journal height))] at hv
      cases hv

theorem holds_checkpoint (h : Holds size scope branch s) :
    s.valueAt (Keys.checkpoint scope) = checkpointValue (branch.head?.map (·.block)) := by
  rw [← facts_eq isFact_checkpoint, h.stored, factsOf_checkpoint]

theorem empty_of_unanchored (h : Holds size scope branch s)
    (hck : s.get (Keys.checkpoint scope) = none) : Empty scope s := by
  have hhead := (holds_checkpoint h).symm.trans (valueAt_eq_none.mpr hck)
  cases branch with
  | nil => exact holds_nil_iff_empty.mp h
  | cons a lower => cases hhead

/-! ## One call -/

theorem holds_add (h : Holds size scope branch s)
    (hr : Prog.run (serve size) (writeBlock scope a) s = (.ok .applied, s')) :
    Holds size scope (a :: branch) s' ∧ s'.version = s.version + 1 ∧ s.version + 1 ≤ maxVersion := by
  obtain ⟨hscope, hck, -, haccepts, rfl⟩ := run_writeBlock_applied.mp hr
  obtain ⟨hadmits, hroom⟩ := accepts_iff_admits.mp ⟨hscope, hck, haccepts⟩
  rw [h.stored] at hadmits
  refine ⟨⟨⟨h.written, hadmits⟩, ?_, ?_⟩, rfl, hroom⟩
  · rw [facts_write_addition, h.stored, factsOf]
  · intro height v hv
    rw [valueAt_write, effect_additionOps_journal] at hv
    split_ifs at hv with hnew haged
    · obtain rfl := Option.some.inj hv
      exact ⟨[], a, branch, rfl, hnew.symm, by rw [journalOf_facts, h.stored]⟩
    · cases hv
    · obtain ⟨upper, b, lower, rfl, hb, rfl⟩ := h.journal height v hv
      exact ⟨a :: upper, b, lower, rfl, hb, rfl⟩

theorem holds_tip_journal {lower : List BlockAddition} {j : JournalRecord}
    (h : Holds size scope (a :: lower) s)
    (hj : s.valueAt (Keys.journal scope a.block.height) = some (.journal j)) :
    j = journalOf scope a (factsOf scope lower) := by
  obtain ⟨upper, b, lower', he, hb, hv⟩ := h.journal _ _ hj
  cases upper with
  | nil =>
    cases he
    exact Value.journal.inj hv
  | cons c upper =>
    obtain ⟨rfl, rfl⟩ := List.cons.inj he
    have := branch_height_lt h.written b (by simp)
    rw [hb] at this
    omega

theorem holds_remove {tip : BlockRef} {out : Option BlockRef} {self : IndexScope}
    (h : Holds size self branch s)
    (hr : Prog.run (serve size) (removeTip self scope tip) s = (.ok out, s')) :
    ∃ a lower, branch = a :: lower ∧ a.block = tip ∧ out = lower.head?.map (·.block) ∧
      Holds size self lower s' ∧ s'.version = s.version + 1 ∧ s.version + 1 ≤ maxVersion := by
  obtain ⟨rfl, hck, j, hj, -, hrem, rfl, rfl⟩ := run_removeTip_ok.mp hr
  have htip : branch.head?.map (·.block) = some tip :=
    checkpointValue_inj ((holds_checkpoint h).symm.trans hck)
  cases branch with
  | nil => cases htip
  | cons a lower =>
    obtain rfl : a.block = tip := Option.some.inj htip
    obtain rfl := holds_tip_journal h hj
    refine ⟨a, lower, rfl, rfl, ?_, ⟨h.written.1, ?_, ?_⟩, rfl, hrem.room⟩
    · rw [← branch_expected h.written]
      simp [journalOf, journalRecord, Function.comp_def]
    · exact facts_write_removal h.written.2 (fun k hk => factsOf_not_fact hk lower) h.stored
    · intro height v hv
      rw [valueAt_write, effect_unjournal] at hv
      split_ifs at hv with hgone
      · cases hv
      · obtain ⟨upper, b, lower', he, hb, rfl⟩ := h.journal height v hv
        cases upper with
        | nil =>
          cases he
          exact absurd hb.symm hgone
        | cons c upper =>
          obtain ⟨rfl, rfl⟩ := List.cons.inj he
          exact ⟨upper, b, lower', rfl, hb, rfl⟩

end PaymentSdk.Redb
