import PaymentSdk.Bitcoin.Utxos
import PaymentSdk.Sync.Integrity

/-!
# Readers see right depths

Whatever passes did to the store, and wherever they stopped. The settings of a pass may
differ from those of the one before, its retention too.
-/

open Interaction KvStore

namespace PaymentSdk.Sync

open Redb Bitcoin

variable {B : Type} {size : Value → Bool} {scope : IndexScope} {s s' : Store Value}

/-- A branch is held, and has used one version of the store for each of its blocks. -/
def Held (size : Value → Bool) (scope : IndexScope) (s : Store Value) : Prop :=
  ∃ branch, Holds size scope branch s ∧
    (branch = [] ∨ branch.length ≤ s.version ∧ s.version ≤ maxVersion)

theorem held_writeBlock {a : BlockAddition} (h : Held size scope s) :
    Held size scope (Prog.run (serve size) (writeBlock scope a) s).2 := by
  obtain ⟨branch, hholds, hlength⟩ := h
  rcases hr : Prog.run (serve size) (writeBlock scope a) s with ⟨e | outcome, s'⟩
  · obtain rfl := optimistic_run_error (optimistic_writeBlock a) hr
    exact ⟨branch, hholds, hlength⟩
  · cases outcome with
    | applied =>
      obtain ⟨hadded, hversion, hroom⟩ := holds_add hholds hr
      refine ⟨_, hadded, Or.inr ?_⟩
      dsimp only
      rcases hlength with rfl | hlength
      · exact ⟨by rw [List.length_singleton]; omega, by omega⟩
      · exact ⟨by rw [List.length_cons]; omega, by omega⟩
    | alreadyApplied =>
      obtain ⟨rfl, -⟩ := run_writeBlock_alreadyApplied hr
      exact ⟨branch, hholds, hlength⟩

theorem held_removeTip {scope' : IndexScope} {tip : BlockRef} (h : Held size scope s) :
    Held size scope (Prog.run (serve size) (removeTip scope scope' tip) s).2 := by
  obtain ⟨branch, hholds, hlength⟩ := h
  rcases hr : Prog.run (serve size) (removeTip scope scope' tip) s with ⟨e | out, s'⟩
  · obtain rfl := optimistic_run_error (optimistic_removeTip tip) hr
    exact ⟨branch, hholds, hlength⟩
  · obtain ⟨a, lower, rfl, -, -, hlower, hversion, hroom⟩ := holds_remove hholds hr
    refine ⟨lower, hlower, Or.inr ?_⟩
    rcases hlength with hnil | hlength
    · cases hnil
    · rw [List.length_cons] at hlength
      dsimp only
      exact ⟨by omega, by omega⟩

theorem held_serves {op : Op B} {r : Except IndexError op.Ans} (h : Held size scope s)
    (hr : Serves size scope op s r s') : Held size scope s' := by
  rcases serves_cases hr with rfl | ⟨result, hresult, rfl⟩
  · exact h
  · cases op with
    | get selector =>
      cases hresult
      rw [run_readBlock_snd]
      exact h
    | add addition =>
      cases hresult
      exact held_writeBlock h
    | remove scope' tip =>
      cases hresult
      exact held_removeTip h
    | filters | tip | plan | canonicalAt | blocks | inspect | begin | persist | complete =>
      cases hresult

/-! ## Runs of passes -/

/-- What passes can reach from an empty scope, with any settings for each of them. -/
inductive Visited (B : Type) [SourceBlock B] (size : Value → Bool) (scope : IndexScope) :
    Store Value → Prop where
  | start {s : Store Value} : Empty scope s → Visited B size scope s
  | pass {s t : Store Value} {q : Pass B SyncStatus} (config : SyncConfig) (fuel : Nat) :
      Visited B size scope s → config.scope = scope →
        Prog.Reaches (Serves size scope) (sync config fuel) s q t → Visited B size scope t

variable [SourceBlock B]

theorem held_visited (h : Visited B size scope s) : Held size scope s := by
  induction h with
  | start hempty => exact ⟨[], holds_nil_iff_empty.mpr hempty, Or.inl rfl⟩
  | pass config fuel _ _ hreaches ih =>
    exact Prog.keeps_reaches (Prog.keeps_of_step (fun _ _ _ _ hstep hs => held_serves hs hstep) _)
      ih hreaches

theorem height_le_checkpoint {branch : List BlockAddition} (h : Holds size scope branch s)
    {a : BlockAddition} {n : Nat} (hdepth : Depth branch a n) :
    ∃ tip, s.valueAt (Keys.checkpoint scope) = checkpointValue (some tip) ∧
      a.block.height.toNat ≤ tip.height.toNat := by
  obtain ⟨tip, htip, hheight⟩ := depth_height h.written hdepth
  have hpos := depth_pos hdepth
  exact ⟨tip, by rw [holds_checkpoint h, htip], by omega⟩

/-- In every state that passes can reach: what is stored decodes and is not above the
checkpoint, and the two readers find nothing amiss and report the depth of each block. -/
theorem readers_report_depth (h : Visited B size scope s) :
    ∃ branch, Holds size scope branch s ∧
      (∀ k v, Keys.isHistory scope k = true → s.valueAt k = some v →
        ∃ t tip, decodeTransaction v = .ok t ∧
          s.valueAt (Keys.checkpoint scope) = checkpointValue (some tip) ∧
          t.block.height.toNat ≤ tip.height.toNat) ∧
      (∀ k v, Keys.isOutput scope k = true → s.valueAt k = some v →
        ∃ o tip, decodeOutput v = .ok o ∧
          s.valueAt (Keys.checkpoint scope) = checkpointValue (some tip) ∧
          o.createdAt.toNat ≤ tip.height.toNat) ∧
      (∀ (index : Index) request, index.scope = scope →
        match Prog.run (serve size) (index.history request) s with
        | (.ok page, _) => page.checkpoint = branch.head?.map (·.block) ∧
            ∀ o ∈ page.transactions, Reported index.confirmations branch o
        | (.error e, _) => e.kind ≠ .store) ∧
      ∀ (view : IndexUtxos) fuel addresses, view.scope = scope →
        match Prog.run (serve size) (view.utxos fuel addresses) s with
        | (.ok set, _) => branch.head?.map (·.block) = some set.checkpoint ∧
            ∀ u ∈ set.outputs, view.Shown branch u
        | (.error halt, _) => halt ≠ .failed .createdAfter := by
  obtain ⟨branch, hholds, hversions⟩ := held_visited h
  have hlength : branch.length < 2 ^ 64 := by
    rcases hversions with rfl | ⟨hle, hmax⟩
    · decide
    · unfold maxVersion at hmax
      omega
  refine ⟨branch, hholds, ?_, ?_, ?_, ?_⟩
  · intro k v hk hv
    obtain ⟨a, n, t, hdepth, ht, hdecode⟩ := history_origin hholds hk hv
    obtain ⟨tip, htip, hle⟩ := height_le_checkpoint hholds hdepth
    exact ⟨t, tip, hdecode, htip, by rw [(a.valid.canonical t ht).block_eq]; exact hle⟩
  · intro k v hk hv
    obtain ⟨a, n, o, hdepth, ho, hdecode⟩ := output_origin hholds hk hv
    obtain ⟨tip, htip, hle⟩ := height_le_checkpoint hholds hdepth
    exact ⟨o, tip, hdecode, htip, by rw [(a.valid.changes.created o ho).2.2.2]; exact hle⟩
  · rintro index request rfl
    rcases hr : Prog.run (serve size) (index.history request) s with ⟨e | page, t⟩
    · obtain ⟨-, hkind⟩ := Index.history_refused hholds hlength hr
      rcases hkind with hkind | hkind | hkind <;> simp [hkind]
    · exact (Index.history_held hholds hlength hr).2
  · rintro view fuel addresses rfl
    have hruns := IndexUtxos.runs_utxos hholds hlength fuel addresses
    unfold IndexUtxos.Runs at hruns
    rcases hr : Prog.run (serve size) (view.utxos fuel addresses) s with ⟨e | set, t⟩ <;>
      rw [hr] at hruns <;> exact hruns.2

/-! One transaction and one output in the lower of two blocks. -/

def samplePaid : IndexScope := ⟨chainId, .lit "regtest" (Eq.refl true)⟩

def samplePayee : CanonicalAddress := ⟨samplePaid, .lit "b" (Eq.refl true)⟩

def samplePayment : TransactionRef := ⟨samplePaid, .lit "t" (Eq.refl true)⟩

/-- A source of two blocks, and an interpreter that finds a payment in the first. -/
def samplePayments : Environment BlockRef :=
  { fixedChain [⟨samplePayee, ⟨0⟩⟩] [sampleGenesis, sampleNext] with
    inspect := fun block _ => .ok (if block = sampleGenesis then
      { block
        transactions := [⟨samplePaid, samplePayment, .included, [], some
          ⟨nativeAsset, Decimal.normalize 1 0 Decimal.zero_lt_scale, some samplePayee⟩⟩]
        outputs := { created := [⟨⟨samplePayment, 0⟩, samplePayee, nativeAsset,
          Decimal.normalize 5 0 Decimal.zero_lt_scale, [1], ⟨0⟩, false⟩] } }
      else ⟨block, [], {}⟩) }

def samplePaidStore : Store Value :=
  (Prog.run (samplePayments.handle (fun _ => true) samplePaid)
    (sync (B := BlockRef) ⟨samplePaid, 1, 2, 10, Nat.one_pos, Nat.two_pos, sampleBatch_pos⟩ 5) Store.empty).2

def sampleReader : Index := ⟨samplePaid, 2⟩

def sampleView : IndexUtxos := ⟨samplePaid, fun _ => .ok [1], fun _ => some [7]⟩

theorem readers_report_depth_sample :
    ((Prog.run (serve fun _ => true) (sampleReader.history ⟨samplePaid, samplePayee, none, 10⟩)
        samplePaidStore).1.toOption.map fun page => page.transactions.map (·.status)) =
      some [.confirmed sampleGenesis 2] ∧
    ((Prog.run (serve fun _ => true) (sampleView.utxos 3 [samplePayee.value])
        samplePaidStore).1.toOption.map fun set => set.outputs.map (·.confirmations)) =
      some [2] ∧
    ∃ branch, Holds (fun _ => true) samplePaid branch samplePaidStore := by
  have hvisited : Visited BlockRef (fun _ => true) samplePaid samplePaidStore :=
    .pass _ 5 (.start (empty_empty _)) rfl (Prog.reaches_run _ (serves_handle _) _ _)
  obtain ⟨branch, hholds, -⟩ := readers_report_depth hvisited
  exact ⟨by decide, by decide +kernel, branch, hholds⟩

end PaymentSdk.Sync
