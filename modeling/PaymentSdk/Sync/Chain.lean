import PaymentSdk.Lib.Window
import PaymentSdk.Sync.Integrity

/-!
# Synchronizing a chain that does not change

The source is one fixed chain, with a fixed filter set. What is to be stored is then known
from the start: the block before the first one that a filter covers, and every block from
there on.
-/

open Interaction KvStore

namespace PaymentSdk.Sync

open Redb
open Admission (leastPosition SyncPlan)
open SourceBlock (blockRef)

variable {B : Type} [SourceBlock B]

/-! ## The chain -/

/-- Produced blocks, oldest first. Each names the one before it as its parent. The first one
may have a parent that the source no longer has. -/
structure SourceChain (B : Type) [SourceBlock B] where
  blocks : List B
  tip : B
  last : blocks.getLast? = some tip
  linked : blocks.IsChain fun a b =>
    (blockRef b).parent = some ⟨(blockRef a).position, (blockRef a).hash⟩
  parent_lt : ∀ b ∈ blocks, ∀ p ∈ (blockRef b).parent, p.position < (blockRef b).position

/-- The environment answers from the chain and the filters, and its interpreter always gives
the same result for the same block and addresses. -/
structure Honours (env : Environment B) (chain : SourceChain B) (filters : List AddressFilter) :
    Prop where
  tip : env.tip = .ok (blockRef chain.tip)
  plan : ∀ checkpoint plan, env.plan checkpoint = .ok plan → plan.filters = filters
  canonicalAt : ∀ p, env.canonicalAt p =
    (chain.blocks.find? fun b => (blockRef b).position = p).map blockRef
  blocks : ∀ start last limit, env.blocks start last limit =
    (chain.blocks.filter fun b => start ≤ (blockRef b).position ∧ (blockRef b).position ≤ last).take limit

/-- The calls of a pass, each of which may also fail. A repository call may fail after its
commit. -/
def Disturbed (env : Environment B) (size : Value → Bool) (scope : IndexScope) (op : Op B)
    (s : Store Value) (r : Except IndexError op.Ans) (s' : Store Value) : Prop :=
  (r, s') = env.handle size scope op s ∨
    (∃ e, r = .error e) ∧ (s' = s ∨ s' = (env.handle size scope op s).2)

/-- Passes over the chain from an empty scope, each stopped anywhere, with one retention and
any batch sizes. -/
inductive Synced (env : Environment B) (size : Value → Bool) (scope : IndexScope) (retention : Nat) :
    Store Value → Prop where
  | start {s : Store Value} : Empty scope s → Synced env size scope retention s
  | pass {s t : Store Value} {q : Pass B SyncStatus} (config : SyncConfig) (fuel : Nat) :
      Synced env size scope retention s → config.scope = scope → config.reorgRetention = retention →
        Prog.Reaches (Disturbed env size scope) (sync config fuel) s q t →
        Synced env size scope retention t

/-! ## What is to be stored -/

def activeAt (filters : List AddressFilter) (position : BlockPosition) : List CanonicalAddress :=
  (filters.filter fun f => f.startPosition ≤ position).map (·.address)

/-- The anchor, if there is a block before the first covered one, and the covered blocks. -/
def SourceChain.covered (chain : SourceChain B) (start : BlockPosition) : List B :=
  (chain.blocks.filter fun b => (blockRef b).position < start).getLast?.toList ++
    chain.blocks.filter fun b => start ≤ (blockRef b).position

/-- One block over a checkpoint. -/
def additionOf (env : Environment B) (scope : IndexScope) (retention : Nat)
    (filters : List AddressFilter) (checkpoint : Option BlockRef) (block : B) :
    Except IndexError BlockAddition := do
  let interpreted ← env.inspect block (activeAt filters (blockRef block).position)
  validateBlock (blockRef block) interpreted
  BlockAddition.new scope checkpoint retention interpreted

/-- Blocks on top of each other, tip first. -/
def stackOf (env : Environment B) (scope : IndexScope) (retention : Nat)
    (filters : List AddressFilter) (blocks : List B) : Except IndexError (List BlockAddition) :=
  blocks.foldlM (fun branch block => do
    let a ← additionOf env scope retention filters (branch.head?.map (·.block)) block
    pure (a :: branch)) []

/-- The store has the first `n` of the blocks, and journals the top of them. -/
def Stored (env : Environment B) (size : Value → Bool) (scope : IndexScope) (retention : Nat)
    (filters : List AddressFilter) (blocks : List B) (n : Nat) (s : Store Value) : Prop :=
  ∃ branch, n ≤ blocks.length ∧ stackOf env scope retention filters (blocks.take n) = .ok branch ∧
    Journalled size scope retention branch (min n retention) s

variable {env : Environment B} {chain : SourceChain B} {scope : IndexScope} {retention : Nat}
  {filters : List AddressFilter}

/-! ## The chain as a list -/

/-- The position a source block stands at. -/
def positionOf (b : B) : Nat := (blockRef b).position.toNat

theorem ascending_of_linked {l : List B}
    (hlinked : l.IsChain fun a b => (blockRef b).parent = some ⟨(blockRef a).position, (blockRef a).hash⟩)
    (hlt : ∀ b ∈ l, ∀ p ∈ (blockRef b).parent, p.position < (blockRef b).position) :
    l.Pairwise fun a b => positionOf a < positionOf b := by
  rw [← List.isChain_iff_pairwise]
  induction hlinked with
  | nil => exact .nil
  | singleton a => exact .singleton a
  | cons_cons hab hrest ih =>
    refine .cons_cons ?_ (ih fun b hb => hlt b (List.mem_cons_of_mem _ hb))
    exact hlt _ (by simp) _ hab

theorem ascending (chain : SourceChain B) :
    chain.blocks.Pairwise fun a b => positionOf a < positionOf b :=
  ascending_of_linked chain.linked chain.parent_lt

theorem position_le_tip {b : B} (hb : b ∈ chain.blocks) : positionOf b ≤ positionOf chain.tip :=
  Sorted.key_le_getLast (ascending chain) chain.last hb

theorem split_at (chain : SourceChain B) (start : BlockPosition) :
    chain.blocks = (chain.blocks.filter fun b => (blockRef b).position < start) ++
      chain.blocks.filter fun b => start ≤ (blockRef b).position := by
  have hsorted := ascending chain
  generalize chain.blocks = l at hsorted
  induction l with
  | nil => rfl
  | cons b rest ih =>
    obtain ⟨hb, hrest⟩ := List.pairwise_cons.mp hsorted
    by_cases hlt : (blockRef b).position < start
    · have hge : ¬ start ≤ (blockRef b).position := Nat.not_le.mpr hlt
      rw [List.filter_cons_of_pos (by simpa using hlt), List.filter_cons_of_neg (by simpa using hge),
        List.cons_append, ← ih hrest]
    · have hge : start ≤ (blockRef b).position := Nat.not_lt.mp hlt
      have hnone : (rest.filter fun b => (blockRef b).position < start) = [] := by
        rw [List.filter_eq_nil_iff]
        intro c hc
        have := hb c hc
        simp only [decide_eq_true_eq]
        exact Nat.not_lt.mpr (Nat.le_of_lt (Nat.lt_of_le_of_lt hge this))
      rw [List.filter_cons_of_neg (by simpa using hlt), List.filter_cons_of_pos (by simpa using hge),
        hnone, List.nil_append, List.cons.injEq]
      refine ⟨rfl, ?_⟩
      have := ih hrest
      rw [hnone, List.nil_append] at this
      exact this

theorem covered_suffix (chain : SourceChain B) (start : BlockPosition) :
    ∃ front, chain.blocks = front ++ chain.covered start := by
  have hsplit := split_at chain start
  unfold SourceChain.covered
  cases hlast : (chain.blocks.filter fun b => (blockRef b).position < start).getLast? with
  | none =>
    rw [List.getLast?_eq_none_iff] at hlast
    rw [hlast] at hsplit
    exact ⟨[], hsplit⟩
  | some anchor =>
    obtain ⟨front, hfront⟩ := List.getLast?_eq_some_iff.mp hlast
    rw [hfront, List.append_assoc] at hsplit
    exact ⟨front, hsplit⟩

theorem covered_ascending (chain : SourceChain B) (start : BlockPosition) :
    (chain.covered start).Pairwise fun a b => positionOf a < positionOf b := by
  obtain ⟨front, hfront⟩ := covered_suffix chain start
  have hsorted := ascending chain
  rw [hfront] at hsorted
  exact (List.pairwise_append.mp hsorted).2.1

theorem mem_of_covered {start : BlockPosition} {b : B} (hb : b ∈ chain.covered start) :
    b ∈ chain.blocks := by
  obtain ⟨front, hfront⟩ := covered_suffix chain start
  rw [hfront]
  exact List.mem_append_right _ hb

theorem canonicalAt_of_mem (h : Honours env chain filters) {b : B} (hb : b ∈ chain.blocks) :
    env.canonicalAt (blockRef b).position = some (blockRef b) := by
  rw [h.canonicalAt]
  cases hfind : chain.blocks.find? fun c => (blockRef c).position = (blockRef b).position with
  | none =>
    have := List.find?_eq_none.mp hfind b hb
    simp at this
  | some c =>
    have hc := List.mem_of_find?_eq_some hfind
    have hsame : (blockRef c).position = (blockRef b).position := by
      simpa using List.find?_some hfind
    rw [Sorted.eq_of_key_eq (ascending chain) hc hb (congrArg BlockPosition.toNat hsame)]
    rfl

theorem blocks_after {start : BlockPosition} {front rest : List B} {b : B}
    (hcovered : chain.covered start = front ++ b :: rest) {next : BlockPosition}
    (hnext : next.toNat = positionOf b + 1) :
    (chain.blocks.filter fun c => next ≤ (blockRef c).position ∧
      (blockRef c).position ≤ (blockRef chain.tip).position) = rest := by
  obtain ⟨before, hchain⟩ := covered_suffix chain start
  rw [hcovered, ← List.append_assoc] at hchain
  have hsorted := ascending chain
  have htip : ∀ c ∈ chain.blocks, positionOf c ≤ positionOf chain.tip := fun c hc => position_le_tip hc
  rw [hchain] at hsorted htip ⊢
  obtain ⟨-, hrest, hbefore⟩ := List.pairwise_append.mp hsorted
  rw [List.filter_append, List.filter_eq_nil_iff.mpr, List.nil_append, List.filter_cons_of_neg,
    List.filter_eq_self]
  · intro c hc
    have habove := (List.pairwise_cons.mp hrest).1 c hc
    have hle := htip c (List.mem_append_right _ (List.mem_cons_of_mem _ hc))
    simp only [decide_eq_true_eq, BlockPosition.le_def]
    unfold positionOf at *
    omega
  · simp only [decide_eq_true_eq, BlockPosition.le_def]
    unfold positionOf at *
    omega
  · intro c hc
    have hbelow := hbefore c hc b List.mem_cons_self
    simp only [decide_eq_true_eq, BlockPosition.le_def]
    unfold positionOf at *
    omega

/-! ## Initial coverage -/

/-- From the earliest birthday on, the first produced block is the first covered one, or comes
right after the anchor, which is its parent. -/
theorem covered_cases (chain : SourceChain B) {start : BlockPosition}
    (hstart : start ≤ (blockRef chain.tip).position) :
    ∃ first rest, (chain.blocks.filter fun b => start ≤ (blockRef b).position ∧
        (blockRef b).position ≤ (blockRef chain.tip).position) = first :: rest ∧
      ((∃ anchor, chain.covered start = anchor :: first :: rest ∧ (blockRef anchor).position < start ∧
          (blockRef first).parent = some ⟨(blockRef anchor).position, (blockRef anchor).hash⟩) ∨
        chain.covered start = first :: rest ∧ ∀ b ∈ chain.blocks, positionOf first ≤ positionOf b) := by
  have hafter : (chain.blocks.filter fun b => start ≤ (blockRef b).position ∧
      (blockRef b).position ≤ (blockRef chain.tip).position) =
      chain.blocks.filter fun b => start ≤ (blockRef b).position := by
    apply List.filter_congr
    intro b hb
    have : (blockRef b).position ≤ (blockRef chain.tip).position := position_le_tip hb
    simp [this]
  have hsplit := split_at chain start
  rw [hafter]
  cases hsuffix : chain.blocks.filter fun b => start ≤ (blockRef b).position with
  | nil =>
    have htip := List.filter_eq_nil_iff.mp hsuffix chain.tip (List.mem_of_getLast? chain.last)
    simp only [decide_eq_true_eq] at htip
    exact absurd hstart htip
  | cons first rest =>
    rw [hsuffix] at hsplit
    refine ⟨first, rest, rfl, ?_⟩
    unfold SourceChain.covered
    rw [hsuffix]
    cases hlast : (chain.blocks.filter fun b => (blockRef b).position < start).getLast? with
    | none =>
      rw [List.getLast?_eq_none_iff.mp hlast, List.nil_append] at hsplit
      refine Or.inr ⟨rfl, fun b hb => ?_⟩
      have hsorted := ascending chain
      rw [hsplit] at hsorted hb
      rcases List.mem_cons.mp hb with rfl | hb
      · exact Nat.le_refl _
      · exact Nat.le_of_lt ((List.pairwise_cons.mp hsorted).1 b hb)
    | some anchor =>
      obtain ⟨front, hfront⟩ := List.getLast?_eq_some_iff.mp hlast
      have hmem := List.mem_of_getLast? hlast
      rw [hfront, List.append_assoc] at hsplit
      have hlinked := chain.linked
      rw [hsplit] at hlinked
      have hpair := (List.isChain_append.mp hlinked).2.1
      exact Or.inl ⟨anchor, rfl, by simpa using (List.mem_filter.mp hmem).2, hpair.rel⟩

theorem blocks_at {b : B} (hb : b ∈ chain.blocks) :
    (chain.blocks.filter fun c => (blockRef b).position ≤ (blockRef c).position ∧
      (blockRef c).position ≤ (blockRef b).position) = [b] := by
  obtain ⟨front, rest, hchain⟩ := List.append_of_mem hb
  have hsorted := ascending chain
  rw [hchain] at hsorted ⊢
  obtain ⟨-, hrest, hbefore⟩ := List.pairwise_append.mp hsorted
  rw [List.filter_append, List.filter_eq_nil_iff.mpr, List.nil_append, List.filter_cons_of_pos (by simp [BlockPosition.le_def]),
    List.filter_eq_nil_iff.mpr]
  · intro c hc
    have habove := (List.pairwise_cons.mp hrest).1 c hc
    simp only [decide_eq_true_eq, BlockPosition.le_def]
    unfold positionOf at *
    omega
  · intro c hc
    have hbelow := hbefore c hc b List.mem_cons_self
    simp only [decide_eq_true_eq, BlockPosition.le_def]
    unfold positionOf at *
    omega

theorem leastPosition_le {ps : List BlockPosition} {start p : BlockPosition}
    (h : leastPosition ps = some start) (hp : p ∈ ps) : start ≤ p := by
  induction ps generalizing start with
  | nil => cases hp
  | cons q rest ih =>
    rw [leastPosition] at h
    cases hrest : leastPosition rest with
    | none =>
      rw [hrest] at h
      cases h
      cases rest with
      | nil =>
        obtain rfl := List.mem_singleton.mp hp
        exact Nat.le_refl _
      | cons r rest =>
        rw [leastPosition] at hrest
        split at hrest <;> cases hrest
    | some least =>
      rw [hrest] at h
      have hle := ih hrest
      dsimp only at h
      obtain rfl := Option.some.inj h
      rcases List.mem_cons.mp hp with rfl | hp
      · split_ifs with hlt
        · exact Nat.le_of_lt hlt
        · exact Nat.le_refl _
      · split_ifs with hlt
        · exact hle hp
        · exact Nat.le_trans (Nat.not_lt.mp hlt) (hle hp)

theorem activeAt_before {start position : BlockPosition}
    (hstart : leastPosition (filters.map (·.startPosition)) = some start) (hlt : position < start) :
    activeAt filters position = [] := by
  rw [activeAt, List.map_eq_nil_iff, List.filter_eq_nil_iff]
  intro f hf
  have hle := leastPosition_le hstart (List.mem_map_of_mem (f := (·.startPosition)) hf)
  simp only [decide_eq_true_eq]
  exact Nat.not_le.mpr (Nat.lt_of_lt_of_le hlt hle)

/-! ## The stack of additions -/

theorem stackOf_snoc {xs : List B} {b : B} {stack : List BlockAddition} :
    stackOf env scope retention filters (xs ++ [b]) = .ok stack ↔
      ∃ branch a, stackOf env scope retention filters xs = .ok branch ∧
        additionOf env scope retention filters (branch.head?.map (·.block)) b = .ok a ∧
        stack = a :: branch := by
  have hsplit : stackOf env scope retention filters (xs ++ [b]) =
      (stackOf env scope retention filters xs >>= fun branch => List.foldlM _ branch [b]) :=
    List.foldlM_append
  rw [hsplit]
  cases stackOf env scope retention filters xs with
  | error e => simp [bind, Except.bind]
  | ok branch =>
    simp only [bind, Except.bind, List.foldlM_cons, List.foldlM_nil, pure, Except.pure]
    cases ha : additionOf env scope retention filters (branch.head?.map (·.block)) b with
    | error e => simp [ha]
    | ok a => simp [ha, eq_comm]

theorem additionOf_ok {checkpoint : Option BlockRef} {b : B} {a : BlockAddition} :
    additionOf env scope retention filters checkpoint b = .ok a ↔
      ∃ interpreted, env.inspect b (activeAt filters (blockRef b).position) = .ok interpreted ∧
        interpreted.block = blockRef b ∧
        BlockAddition.new scope checkpoint retention interpreted = .ok a := by
  unfold additionOf validateBlock
  cases env.inspect b (activeAt filters (blockRef b).position) with
  | error e => simp [bind, Except.bind]
  | ok interpreted =>
    by_cases hblock : interpreted.block = blockRef b <;> simp [bind, Except.bind, hblock]

theorem block_of_additionOf {checkpoint : Option BlockRef} {b : B} {a : BlockAddition}
    (h : additionOf env scope retention filters checkpoint b = .ok a) :
    a.scope = scope ∧ a.expectedCheckpoint = checkpoint ∧ a.retention = retention ∧
      a.block = blockRef b := by
  obtain ⟨interpreted, -, hblock, hnew⟩ := additionOf_ok.mp h
  obtain ⟨hscope, hexpected, hretention, hsame, -⟩ := new_ok hnew
  exact ⟨hscope, hexpected, hretention, hsame.trans hblock⟩

theorem stackOf_head {xs : List B} {stack : List BlockAddition}
    (h : stackOf env scope retention filters xs = .ok stack) :
    stack.head?.map (·.block) = xs.getLast?.map blockRef := by
  induction xs using List.reverseRecOn with
  | nil =>
    cases h
    rfl
  | append_singleton xs b _ =>
    obtain ⟨branch, a, -, ha, rfl⟩ := stackOf_snoc.mp h
    simp [(block_of_additionOf ha).2.2.2]

end PaymentSdk.Sync
