import Mathlib.Data.Finset.SDiff
import Mathlib.Data.Finset.Union
import PaymentSdk.Solana.Keys

/-!
# Who uses a Solana source

A source is in the first set while it is being prepared and in the second one from its
registration on. A lease or a guard gives its sources back when it is dropped. An ambiguous
source has no owner, and stays in the set until its transaction has been found.
-/

namespace PaymentSdk.Solana

open Wallets (ErrorKind Error SendError)

/-- A transfer whose addresses have been read. -/
structure ResolvedTransfer where
  index : Nat
  source : Address
  destination : String
  amount : UInt64
  deriving DecidableEq

/-- The sources that are leased, and those that a submission guards. -/
structure SourceState where
  preparing : Finset Address := ∅
  guarded : Finset Address := ∅
  deriving DecidableEq

namespace SourceState

/-- The sources that a lease of these transfers takes. -/
def sourcesOf (transfers : List ResolvedTransfer) : Finset Address := (transfers.map (·.source)).toFinset

/-- The transfers whose source somebody else holds. -/
def busy (s : SourceState) (transfers : List ResolvedTransfer) : List Nat :=
  (transfers.filter fun t => t.source ∈ s.preparing ∨ t.source ∈ s.guarded).map (·.index)

def busyError (batch : Bool) (index : Nat) : SendError :=
  let error : Error := { kind := .sourceBusy, message := "Solana source is already in use" }
  if batch then .item index [] error else .operation .sourceBusy error.message

/-- All sources, or none and the least index of a busy one. -/
def lease (s : SourceState) (transfers : List ResolvedTransfer) (batch : Bool) :
    Except SendError (Finset Address × SourceState) :=
  match (s.busy transfers).min? with
  | some index => .error (busyError batch index)
  | none =>
    .ok (sourcesOf transfers, { s with preparing := s.preparing ∪ sourcesOf transfers })

/-- A `SourceLeases` is dropped. -/
def dropLeases (s : SourceState) (sources : Finset Address) : SourceState :=
  { s with preparing := s.preparing \ sources }

/-- The leases become a `GuardedSources`. -/
def guard (s : SourceState) (sources : Finset Address) : SourceState :=
  ⟨s.preparing \ sources, s.guarded ∪ sources⟩

/-- A `GuardedSources` is dropped. -/
def dropGuard (s : SourceState) (sources : Finset Address) : SourceState :=
  { s with guarded := s.guarded \ sources }

/-- The other sources are given back, and nobody owns this one. -/
def retainAmbiguity (s : SourceState) (sources : Finset Address) (source : Address) : SourceState :=
  { s with guarded := s.guarded \ sources.erase source }

def releaseGuard (s : SourceState) (source : Address) : SourceState :=
  { s with guarded := s.guarded.erase source }

variable {s s' : SourceState}

theorem lease_ok {transfers : List ResolvedTransfer} {batch : Bool} {sources : Finset Address}
    (h : s.lease transfers batch = .ok (sources, s')) :
    sources = sourcesOf transfers ∧ s' = { s with preparing := s.preparing ∪ sources } ∧
      Disjoint sources s.preparing ∧ Disjoint sources s.guarded := by
  unfold lease at h
  split at h
  · cases h
  · rename_i hnone
    cases h
    have hfree : ∀ t ∈ transfers, t.source ∉ s.preparing ∧ t.source ∉ s.guarded := by
      intro t ht
      rw [List.min?_eq_none_iff, busy, List.map_eq_nil_iff, List.filter_eq_nil_iff] at hnone
      simpa using hnone t ht
    refine ⟨rfl, rfl, ?_, ?_⟩
    all_goals
      rw [Finset.disjoint_left]
      intro a ha
      simp only [sourcesOf, List.mem_toFinset, List.mem_map] at ha
      obtain ⟨t, ht, rfl⟩ := ha
    · exact (hfree t ht).1
    · exact (hfree t ht).2

end SourceState

end PaymentSdk.Solana
