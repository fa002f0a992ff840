import Mathlib.Algebra.GroupWithZero.Nat
import Mathlib.Order.Bounds.Basic
import PaymentSdk.Solana.Preparation

/-!
# Sources can pay their transfers

The amounts and fees of a source are added up in the order of the transfers. The first transfer
at which a sum exceeds the balance of its source is the one that fails.
-/

namespace PaymentSdk.Solana

open Wallets (ErrorKind Error SendError)

/-! ## Running requirements -/

/-- What the transfers take from a source, with their fees. -/
def required (a : Address) (quoted : List (ResolvedTransfer × UInt64)) : Nat :=
  ((quoted.filter (·.1.source = a)).map fun p => p.1.amount.toNat + p.2.toNat).sum

/-- After the transfer at `k` some requirement overflows or exceeds its balance. -/
def Exceeds (balance : Address → UInt64) (quoted : List (ResolvedTransfer × UInt64)) (k : Nat) : Prop :=
  ∃ a, 2 ^ 64 ≤ required a (quoted.take (k + 1)) ∨ (balance a).toNat < required a (quoted.take (k + 1))

/-- All sources can pay. -/
def Covered (balance : Address → UInt64) (quoted : List (ResolvedTransfer × UInt64)) : Prop :=
  ∀ a, required a quoted ≤ (balance a).toNat

theorem required_append (a : Address) (l m : List (ResolvedTransfer × UInt64)) :
    required a (l ++ m) = required a l + required a m := by
  simp [required]

theorem required_singleton (a : Address) (t : ResolvedTransfer) (fee : UInt64) :
    required a [(t, fee)] = if t.source = a then t.amount.toNat + fee.toNat else 0 := by
  by_cases h : t.source = a <;> simp [required, h]

theorem exceeds_iff {balance : Address → UInt64} {quoted : List (ResolvedTransfer × UInt64)} {k : Nat} :
    Exceeds balance quoted k ↔ ¬ Covered balance (quoted.take (k + 1)) := by
  simp only [Exceeds, Covered, not_forall, not_le]
  constructor
  · rintro ⟨a, hover | hlt⟩
    · exact ⟨a, Nat.lt_of_lt_of_le (balance a).toNat_lt hover⟩
    · exact ⟨a, hlt⟩
  · rintro ⟨a, hlt⟩
    exact ⟨a, .inr hlt⟩

theorem Covered.front {balance : Address → UInt64} {l m : List (ResolvedTransfer × UInt64)}
    (h : Covered balance (l ++ m)) : Covered balance l := by
  intro a
  have hall := h a
  rw [required_append] at hall
  omega

/-! ## The check -/

theorem checkedAdd_eq_some {a b c : UInt64} : checkedAdd a b = some c ↔ c.toNat = a.toNat + b.toNat := by
  have hc := c.toNat_lt
  rw [checkedAdd, Option.ite_none_right_eq_some, Option.some.injEq, ← UInt64.toNat_inj, UInt64.toNat_add]
  omega

theorem checkedAdd_eq_none {a b : UInt64} : checkedAdd a b = none ↔ 2 ^ 64 ≤ a.toNat + b.toNat := by
  rw [checkedAdd, ite_eq_right_iff]
  simp

/-- What the loop says about the transfers that are left. -/
def Verdict (balance : Address → UInt64) (past left : List (ResolvedTransfer × UInt64))
    (result : Except SendError Unit) : Prop :=
  (Covered balance (past ++ left) ∧ result = .ok ()) ∨
    ∃ front t fee back, left = front ++ (t, fee) :: back ∧ Covered balance (past ++ front) ∧
      ¬ Covered balance (past ++ front ++ [(t, fee)]) ∧
      ∃ message, result = .error (item t.index .transaction message)

theorem verdict_cons {balance : Address → UInt64} {past left : List (ResolvedTransfer × UInt64)}
    {p : ResolvedTransfer × UInt64} {result : Except SendError Unit} (h : Verdict balance (past ++ [p]) left result) :
    Verdict balance past (p :: left) result := by
  rcases h with ⟨hcovered, hok⟩ | ⟨front, t, fee, back, rfl, hcovered, hexceeds, herror⟩
  · exact .inl ⟨by simpa using hcovered, hok⟩
  · exact .inr ⟨p :: front, t, fee, back, rfl, by simpa using hcovered, by simpa using hexceeds, herror⟩

/-- **Run.** The loop keeps the requirements of the transfers that it has seen. -/
theorem checkSufficiencyFrom_verdict {balance : Address → UInt64} {available needed : Address → Option UInt64}
    {past left : List (ResolvedTransfer × UInt64)} (havailable : ∀ a v, available a = some v → v = balance a)
    (hneeded : ∀ a, ((needed a).getD 0).toNat = required a past) (hcovered : Covered balance past) :
    Verdict balance past left (checkSufficiencyFrom available needed
      (left.map fun p => ((p.1, balance p.1.source), p.2))) := by
  induction left generalizing available needed past with
  | nil => exact .inl ⟨by simpa using hcovered, rfl⟩
  | cons p left ih =>
    obtain ⟨t, fee⟩ := p
    have hconsistent : ¬ (available t.source).any (· ≠ balance t.source) = true := by
      cases hv : available t.source with
      | none => simp
      | some v => simp [havailable _ _ hv]
    have htotal : ∀ a, required a (past ++ [(t, fee)]) =
        required a past + if t.source = a then t.amount.toNat + fee.toNat else 0 := by
      intro a
      rw [required_append, required_singleton]
    have hself := htotal t.source
    rw [if_pos rfl] at hself
    have hbound := (balance t.source).toNat_lt
    -- Each failure is at this transfer: its source cannot pay, and all could before it.
    have hfails : (balance t.source).toNat < required t.source (past ++ [(t, fee)]) → ∀ message,
        Verdict balance past ((t, fee) :: left) (.error (item t.index .transaction message)) := by
      intro hlt message
      refine .inr ⟨[], t, fee, left, rfl, by simpa using hcovered, ?_, message, rfl⟩
      intro hall
      have := hall t.source
      simp only [List.append_nil] at this
      omega
    rw [List.map_cons, checkSufficiencyFrom, if_neg hconsistent]
    cases hadd : checkedAdd t.amount fee with
    | none =>
      have hover := checkedAdd_eq_none.mp hadd
      exact hfails (by omega) _
    | some amount =>
      have hamount := checkedAdd_eq_some.mp hadd
      have hpast := hneeded t.source
      simp only
      cases hsum : checkedAdd ((needed t.source).getD 0) amount with
      | none =>
        have hover := checkedAdd_eq_none.mp hsum
        exact hfails (by omega) _
      | some total =>
        have htotal_eq := checkedAdd_eq_some.mp hsum
        simp only
        split_ifs with hlt
        · rw [UInt64.lt_iff_toNat_lt] at hlt
          exact hfails (by omega) _
        · rw [UInt64.lt_iff_toNat_lt] at hlt
          apply verdict_cons
          apply ih
          · intro a v hv
            by_cases ha : a = t.source
            · subst ha
              rw [Function.update_self] at hv
              exact (Option.some.inj hv).symm
            · rw [Function.update_of_ne ha] at hv
              exact havailable a v hv
          · intro a
            by_cases ha : a = t.source
            · subst ha
              rw [Function.update_self, Option.getD_some]
              omega
            · rw [Function.update_of_ne ha, hneeded, htotal, if_neg (Ne.symm ha), Nat.add_zero]
          · intro a
            have hpast := hcovered a
            rw [htotal]
            split_ifs with ha
            · subst ha
              omega
            · simpa using hpast

theorem zip_balances (transfers : List ResolvedTransfer) (balance : Address → UInt64) (fees : List UInt64) :
    (transfers.zip (transfers.map fun t => balance t.source)).zip fees =
      (transfers.zip fees).map fun p => ((p.1, balance p.1.source), p.2) := by
  induction transfers generalizing fees with
  | nil => rfl
  | cons t rest ih =>
    cases fees with
    | nil => simp
    | cons fee fees => simp [ih]

/-- **The check names the first transfer that cannot be paid**, and only such a one. -/
theorem checkSufficiency_verdict (transfers : List ResolvedTransfer) (balance : Address → UInt64)
    (fees : List UInt64) :
    Verdict balance [] (transfers.zip fees)
      (checkSufficiency transfers (transfers.map fun t => balance t.source) fees) := by
  rw [checkSufficiency, zip_balances]
  apply checkSufficiencyFrom_verdict
  · simp
  · simp [required]
  · intro a
    simp [required]

theorem checkSufficiency_ok {transfers : List ResolvedTransfer} {balance : Address → UInt64} {fees : List UInt64} :
    checkSufficiency transfers (transfers.map fun t => balance t.source) fees = .ok () ↔
      Covered balance (transfers.zip fees) := by
  rcases checkSufficiency_verdict transfers balance fees with ⟨hcovered, hok⟩ | ⟨front, t, fee, back, heq, -, hnot, m, he⟩
  · simp only [hok, true_iff]
    simpa using hcovered
  · rw [he, heq, List.append_cons]
    simp only [reduceCtorEq, false_iff]
    intro hall
    exact hnot (by simpa using hall.front)

theorem isLeast_exceeds {balance : Address → UInt64} {front : List (ResolvedTransfer × UInt64)}
    {p : ResolvedTransfer × UInt64} (back : List (ResolvedTransfer × UInt64)) (hcovered : Covered balance front) (hnot : ¬ Covered balance (front ++ [p])) :
    IsLeast {k | Exceeds balance (front ++ p :: back) k} front.length := by
  constructor
  · refine exceeds_iff.mpr ?_
    rw [List.append_cons, List.take_left' (by simp)]
    exact hnot
  · intro k hk
    by_contra hlt
    apply exceeds_iff.mp hk
    rw [List.take_append_of_le_length (by omega)]
    rw [← List.take_append_drop (k + 1) front] at hcovered
    exact hcovered.front

theorem checkSufficiency_item {transfers : List ResolvedTransfer} {balance : Address → UInt64} {fees : List UInt64}
    (i : Nat) :
    (∃ message, checkSufficiency transfers (transfers.map fun t => balance t.source) fees =
        .error (item i .transaction message)) ↔
      ∃ k, IsLeast {k | Exceeds balance (transfers.zip fees) k} k ∧
        ((transfers.zip fees)[k]?).map (·.1.index) = some i := by
  rcases checkSufficiency_verdict transfers balance fees with ⟨hcovered, hok⟩ | ⟨front, t, fee, back, heq, hcovered, hnot, m, he⟩
  · rw [hok]
    simp only [reduceCtorEq, exists_false, false_iff, not_exists, not_and]
    intro k hk
    have hexceeds := exceeds_iff.mp hk.1
    rw [List.nil_append, ← List.take_append_drop (k + 1) (transfers.zip fees)] at hcovered
    exact absurd hcovered.front hexceeds
  · have hleast := isLeast_exceeds back (by simpa using hcovered) (by simpa using hnot)
    rw [he, heq]
    constructor
    · rintro ⟨message, herror⟩
      have herror := congrArg SendError.failedIndex (Except.error.inj herror)
      obtain rfl : t.index = i := Option.some.inj herror
      exact ⟨front.length, hleast, by simp⟩
    · rintro ⟨k, hk, hindex⟩
      obtain rfl : k = front.length := hk.unique hleast
      refine ⟨m, ?_⟩
      simp only [List.getElem?_append_right (Nat.le_refl _), Nat.sub_self, List.getElem?_cons_zero, Option.map_some,
        Option.some.injEq] at hindex
      rw [hindex]

end PaymentSdk.Solana
