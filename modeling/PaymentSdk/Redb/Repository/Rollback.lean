import Mathlib.Data.List.Induction
import PaymentSdk.Redb.Repository.Branch

/-!
# Rollback refines replay

A run of additions and removals leaves the facts that the surviving additions leave
alone. The journal that a removal reads was written long before it, and other blocks
came and went in between.
-/

open Interaction KvStore

namespace PaymentSdk.Redb

variable {size : Value → Bool} {scope : IndexScope} {s s' s₀ : Store Value}
  {branch : List BlockAddition}

/-! ## Runs -/

/-- One call alone, from start to end. -/
def BlockCall.perform (size : Value → Bool) (self : IndexScope) (c : BlockCall) (s : Store Value) :
    Except IndexError BlockReply × Store Value :=
  Prog.run (serve size) (c.program self) s

/-- The surviving additions after a call: an applied addition is pushed, and a successful
removal undoes the last one. -/
def survive (branch : List BlockAddition) : BlockCall → Except IndexError BlockReply → List BlockAddition
  | .add a, .ok (.added .applied) => a :: branch
  | .remove _ _, .ok (.removed _) => branch.tail
  | _, _ => branch

/-- A run, as its store and its surviving additions, tip first. -/
def execute (size : Value → Bool) (self : IndexScope) (calls : List BlockCall) (s : Store Value) :
    Store Value × List BlockAddition :=
  calls.foldl (fun st c =>
    let r := c.perform size self st.1
    (r.2, survive st.2 c r.1)) (s, [])

/-! ## One call -/

theorem perform_cases (h : Holds size scope branch s) {c : BlockCall}
    {r : Except IndexError BlockReply} (hr : c.perform size scope s = (r, s')) :
    (s' = s ∧ survive branch c r = branch) ∨
    (s'.version = s.version + 1 ∧ s.version + 1 ≤ maxVersion ∧
      ((∃ a, survive branch c r = a :: branch ∧ Holds size scope (a :: branch) s') ∨
        ∃ a lower, branch = a :: lower ∧ survive branch c r = lower ∧ Holds size scope lower s')) := by
  cases r with
  | error e =>
    obtain rfl := optimistic_run_error (optimistic_program c) hr
    cases c <;> exact Or.inl ⟨rfl, rfl⟩
  | ok reply =>
    cases c with
    | add a =>
      obtain ⟨o, t, hrun, hpure⟩ := (Prog.run_bind_ok _).mp hr
      obtain ⟨rfl, rfl⟩ := (Prog.run_pure_ok _).mp hpure
      cases o with
      | applied =>
        obtain ⟨hholds, hversion, hroom⟩ := holds_add h hrun
        exact Or.inr ⟨hversion, hroom, Or.inl ⟨a, rfl, hholds⟩⟩
      | alreadyApplied => exact Or.inl ⟨(run_writeBlock_alreadyApplied hrun).1, rfl⟩
    | remove scope' tip =>
      obtain ⟨o, t, hrun, hpure⟩ := (Prog.run_bind_ok _).mp hr
      obtain ⟨rfl, rfl⟩ := (Prog.run_pure_ok _).mp hpure
      obtain ⟨a, lower, rfl, -, -, hlower, hversion, hroom⟩ := holds_remove h hrun
      exact Or.inr ⟨hversion, hroom, Or.inr ⟨a, lower, rfl, rfl, hlower⟩⟩

theorem holds_perform (h : Holds size scope branch s) (c : BlockCall) :
    Holds size scope (survive branch c (c.perform size scope s).1) (c.perform size scope s).2 := by
  rcases hr : c.perform size scope s with ⟨r, s'⟩
  dsimp only
  rcases perform_cases h hr with ⟨hs, hb⟩ | ⟨-, -, ⟨a, hb, hs⟩ | ⟨a, lower, -, hb, hs⟩⟩
  · rw [hs, hb]
    exact h
  · rw [hb]
    exact hs
  · rw [hb]
    exact hs

/-- Every surviving addition has used a version, so a replay has enough of them. -/
structure Counted (s₀ : Store Value) (branch : List BlockAddition) (s : Store Value) : Prop where
  used : s₀.version + branch.length ≤ s.version
  left : branch = [] ∨ s.version ≤ maxVersion

theorem counted_perform (h : Holds size scope branch s) (hn : Counted s₀ branch s) (c : BlockCall) :
    Counted s₀ (survive branch c (c.perform size scope s).1) (c.perform size scope s).2 := by
  have hused := hn.used
  rcases hr : c.perform size scope s with ⟨r, s'⟩
  dsimp only
  rcases perform_cases h hr with
    ⟨hs, hb⟩ | ⟨hv, hroom, ⟨a, hb, -⟩ | ⟨a, lower, rfl, hb, -⟩⟩
  · rw [hs, hb]
    exact hn
  · rw [hb]
    exact ⟨by rw [List.length_cons]; omega, Or.inr (by omega)⟩
  · rw [hb]
    rw [List.length_cons] at hused
    exact ⟨by omega, Or.inr (by omega)⟩

/-! ## Whole runs -/

theorem execute_append (size : Value → Bool) (self : IndexScope) (calls : List BlockCall)
    (c : BlockCall) (s : Store Value) :
    execute size self (calls ++ [c]) s =
      ((c.perform size self (execute size self calls s).1).2,
        survive (execute size self calls s).2 c (c.perform size self (execute size self calls s).1).1) := by
  rw [execute, List.foldl_append]
  rfl

theorem holds_execute (size : Value → Bool) (h : Empty scope s₀) (calls : List BlockCall) :
    Holds size scope (execute size scope calls s₀).2 (execute size scope calls s₀).1 ∧
      Counted s₀ (execute size scope calls s₀).2 (execute size scope calls s₀).1 := by
  induction calls using List.reverseRecOn with
  | nil => exact ⟨holds_nil_iff_empty.mpr h, ⟨Nat.le_refl _, Or.inl rfl⟩⟩
  | append_singleton calls c ih =>
    rw [execute_append]
    exact ⟨holds_perform ih.1 c, counted_perform ih.1 ih.2 c⟩

theorem perform_add_applied {a : BlockAddition} (h : Holds size scope branch s)
    (hbranch : Branch size scope (a :: branch)) (hroom : s.version + 1 ≤ maxVersion) :
    (BlockCall.add a).perform size scope s =
      (.ok (.added .applied), s.write (additionOps scope a s.valueAt)) := by
  have hadmits := hbranch.2
  rw [← h.stored] at hadmits
  obtain ⟨hscope, hck, haccepts⟩ := accepts_iff_admits.mpr ⟨hadmits, hroom⟩
  have hjournal : s.get (Keys.journal scope a.block.height) = none := by
    rw [← valueAt_eq_none]
    by_contra hne
    obtain ⟨v, hv⟩ := Option.ne_none_iff_exists'.mp hne
    obtain ⟨upper, b, lower, rfl, hb, -⟩ := h.journal _ v hv
    have := branch_height_lt hbranch b (by simp)
    rw [hb] at this
    omega
  apply (Prog.run_bind_ok _).mpr
  exact ⟨_, _, run_writeBlock_applied.mpr ⟨hscope, hck, hjournal, haccepts, rfl⟩, rfl⟩

theorem execute_replay (h : Empty scope s₀) (hbranch : Branch size scope branch)
    (hroom : branch = [] ∨ s₀.version + branch.length ≤ maxVersion) :
    (execute size scope (branch.reverse.map .add) s₀).2 = branch ∧
      Holds size scope branch (execute size scope (branch.reverse.map .add) s₀).1 ∧
      (execute size scope (branch.reverse.map .add) s₀).1.version = s₀.version + branch.length := by
  induction branch with
  | nil => exact ⟨rfl, holds_nil_iff_empty.mpr h, rfl⟩
  | cons a lower ih =>
    have hroom : s₀.version + lower.length + 1 ≤ maxVersion := by
      rcases hroom with hnil | hle
      · cases hnil
      · rw [List.length_cons] at hle
        omega
    obtain ⟨hb, hholds, hv⟩ := ih hbranch.1 (Or.inr (by omega))
    rw [List.reverse_cons, List.map_append, List.map_singleton, execute_append]
    have hadd := perform_add_applied hholds hbranch (by omega)
    have hstep := holds_perform hholds (.add a)
    rw [hadd] at hstep ⊢
    rw [hb]
    refine ⟨rfl, hstep, ?_⟩
    rw [version_write, hv, List.length_cons]
    omega

/-- Rollback refines replay: after any calls from an empty scope, the facts are those of the
surviving additions alone, applied in order to the empty scope. -/
theorem rollback_refines_replay (size : Value → Bool) (scope : IndexScope) (s₀ : Store Value)
    (hempty : Empty scope s₀) (calls : List BlockCall) :
    let run := execute size scope calls s₀
    let replay := execute size scope (run.2.reverse.map .add) s₀
    replay.2 = run.2 ∧ facts scope run.1 = facts scope replay.1 := by
  intro run replay
  obtain ⟨hholds, hcounted⟩ := holds_execute size hempty calls
  have hroom : run.2 = [] ∨ s₀.version + run.2.length ≤ maxVersion := by
    rcases hcounted.left with hnil | hle
    · exact Or.inl hnil
    · exact Or.inr (Nat.le_trans hcounted.used hle)
  obtain ⟨hbranch, hreplay, -⟩ := execute_replay hempty hholds.written hroom
  exact ⟨hbranch, by rw [hholds.stored, hreplay.stored]⟩

theorem empty_empty (scope : IndexScope) : Empty scope Store.empty := by
  intro k _
  simp [Store.get, Store.empty]

/-! Two blocks on a new database. -/

def sampleScope : IndexScope := ⟨⟨⟨"chain", by decide⟩⟩, ⟨"net", by decide⟩⟩

def sampleAddress : CanonicalAddress := ⟨sampleScope, ⟨"a", by decide⟩⟩

def sampleBlock (n : UInt64) (parent : Option BlockParent) : BlockRef :=
  ⟨⟨n⟩, ⟨n⟩, ⟨[n.toUInt8]⟩, parent, none⟩

/-- A block without transactions, kept for `retention` blocks. -/
def sampleAddition (retention : Nat) (expected : Option BlockRef) (block : BlockRef)
    (hretention : 0 < retention)
    (hconnects : ∀ c ∈ expected, ∃ next, c.height.checkedSuccessor = some next ∧
      block.connects c next = true) : BlockAddition where
  scope := sampleScope
  expectedCheckpoint := expected
  retention := retention
  block := block
  transactions := []
  outputs := {}
  valid :=
    { retention_pos := hretention
      connects := hconnects
      canonical := by simp
      ids := by simp
      changes := ⟨by simp, by simp, by simp [OutputChanges.spends], by simp [OutputChanges.spends],
        by simp [OutputChanges.spends]⟩ }

def sampleGenesis : BlockRef := sampleBlock 0 none

def sampleNext : BlockRef := sampleBlock 1 (some ⟨⟨0⟩, ⟨[0]⟩⟩)

def sampleAnchor (block : BlockRef) : BlockAddition :=
  sampleAddition 2 none block (by decide) (by simp)

def sampleFollow : BlockAddition :=
  sampleAddition 2 (some sampleGenesis) sampleNext (by decide)
    (by rintro c ⟨⟩; exact ⟨⟨1⟩, by decide, by decide⟩)

/-! The first block pays an output to the address. The second one spends it and leaves change. -/

def sampleAmount : Decimal := Decimal.normalize 5 0 Decimal.zero_lt_scale

theorem sampleAmount_positive : isNegative sampleAmount = false := by decide

def samplePaidOutput (block : BlockRef) (id : Text) : IndexedOutput where
  id := ⟨⟨sampleScope, id⟩, 0⟩
  address := sampleAddress
  asset := ⟨sampleScope.chain, .lit "coin" (Eq.refl true)⟩
  amount := sampleAmount
  evidence := [1]
  createdAt := block.height
  coinbase := false

def samplePaying (block : BlockRef) (id : Text) : CanonicalTransaction :=
  ⟨sampleScope, ⟨sampleScope, id⟩, .included block,
    [.output ⟨"paid"⟩ (samplePaidOutput block id).asset sampleAmount (some sampleAddress)], none⟩

theorem samplePaying_valid (block : BlockRef) (id : Text) : (samplePaying block id).Valid sampleScope block where
  scope_eq := rfl
  id_scope := rfl
  block_eq := rfl
  movements := by
    intro m hm
    obtain rfl := List.mem_singleton.mp hm
    refine ⟨sampleAmount_positive, by rintro a ⟨⟩, ?_⟩
    rintro a ⟨⟩
    rfl
  fee := by simp [samplePaying]

def sampleEarned : IndexedOutput := samplePaidOutput sampleGenesis (.lit "first" (Eq.refl true))

def sampleChange : IndexedOutput := samplePaidOutput sampleNext (.lit "second" (Eq.refl true))

theorem samplePaying_changes {block : BlockRef} {id : Text} {spent : List OutputKey}
    (hspent : spent = [] ∨ spent = [sampleEarned.key] ∧ id ≠ .lit "first" (Eq.refl true)) :
    ({ created := [samplePaidOutput block id], spent := spent } : OutputChanges).Valid sampleScope block.height where
  created := by
    intro o ho
    obtain rfl := List.mem_singleton.mp ho
    exact ⟨rfl, rfl, sampleAmount_positive, rfl⟩
  ids := by simp
  spends := by
    rcases hspent with rfl | ⟨rfl, -⟩
    · simp [OutputChanges.spends]
    · intro k hk
      obtain rfl := List.mem_singleton.mp hk
      exact ⟨rfl, rfl⟩
  disjoint := by
    rcases hspent with rfl | ⟨rfl, hid⟩
    · simp [OutputChanges.spends]
    · intro k hk hcreated
      obtain rfl := List.mem_singleton.mp hk
      have hkey := List.mem_singleton.mp hcreated
      exact hid (congrArg (·.output.transaction.value) hkey).symm
  spends_nodup := by rcases hspent with rfl | ⟨rfl, -⟩ <;> simp [OutputChanges.spends]

def sampleEarns : BlockAddition :=
  { sampleAnchor sampleGenesis with
    transactions := [samplePaying sampleGenesis sampleEarned.id.transaction.value]
    outputs := { created := [sampleEarned] }
    valid :=
      { (sampleAnchor sampleGenesis).valid with
        canonical := by
          intro t ht
          obtain rfl := List.mem_singleton.mp ht
          exact samplePaying_valid _ _
        ids := by decide
        changes := samplePaying_changes (.inl rfl) } }

def sampleSpends : BlockAddition :=
  { sampleFollow with
    transactions := [samplePaying sampleNext sampleChange.id.transaction.value]
    outputs := { created := [sampleChange], spent := [sampleEarned.key] }
    valid :=
      { sampleFollow.valid with
        canonical := by
          intro t ht
          obtain rfl := List.mem_singleton.mp ht
          exact samplePaying_valid _ _
        ids := by decide
        changes := samplePaying_changes (.inr ⟨rfl, by decide⟩) } }

def sampleCalls : List BlockCall := [.add sampleEarns, .add sampleSpends, .remove sampleScope sampleNext]

/-- Which of the two outputs a store has, and which of the two entries of the history. -/
def sampleFacts (s : Store Value) : List Bool :=
  [Keys.output sampleScope sampleEarned.key, Keys.output sampleScope sampleChange.key,
    Keys.history sampleScope sampleAddress ⟨0⟩ sampleEarned.id.transaction,
    Keys.history sampleScope sampleAddress ⟨1⟩ sampleChange.id.transaction].map fun key => (s.get key).isSome

theorem rollback_refines_replay_sample :
    Empty sampleScope Store.empty ∧
      let run := execute (fun _ => true) sampleScope sampleCalls Store.empty
      let replay := execute (fun _ => true) sampleScope (run.2.reverse.map .add) Store.empty
      sampleFacts (execute (fun _ => true) sampleScope (sampleCalls.take 2) Store.empty).1 =
          [false, true, true, true] ∧
        sampleFacts run.1 = [true, false, true, false] ∧ run.2.length = 1 ∧ replay.2 = run.2 ∧
        facts sampleScope run.1 = facts sampleScope replay.1 :=
  ⟨empty_empty _, by decide, by decide +kernel, by decide,
    rollback_refines_replay _ _ _ (empty_empty _) sampleCalls⟩

end PaymentSdk.Redb
