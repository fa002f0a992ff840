import Std.Data.ExtTreeMap.Lemmas
import Mathlib.Algebra.Group.Nat.Defs
import PaymentSdk.Lib.Prog

/-!
# A versioned store with conditional batches

A table of byte-string keys in byte order. A batch commits only if all of its
conditions hold, and then every key it puts carries one new version. Versions
only grow, so a version read for a key identifies the write that made it.
-/

open Std Interaction

namespace KvStore

abbrev Key := List UInt8

/-- A value with the version of the commit that wrote it. -/
structure Stored (V : Type) where
  value : V
  version : Nat
  deriving DecidableEq

abbrev Table (V : Type) := ExtTreeMap Key (Stored V) compare

/-- No entry is newer than the last commit. -/
structure Store (V : Type) where
  table : Table V
  version : Nat
  bounded : ∀ (k : Key) (e : Stored V), table[k]? = some e → e.version ≤ version

/-- A new database. -/
def Store.empty {V : Type} : Store V := ⟨∅, 0, by simp⟩

/-- What has to hold for a batch to be committed. -/
inductive Condition where
  | missing (key : Key)
  | version (key : Key) (expected : Nat)
  deriving DecidableEq

inductive Operation (V : Type) where
  | put (key : Key) (value : V)
  | delete (key : Key)
  deriving DecidableEq

/-- Operations that are committed together, under all of the conditions. -/
structure WriteBatch (V : Type) where
  conditions : List Condition := []
  operations : List (Operation V) := []

/-- Why a batch was refused. Nothing is written then. -/
inductive CommitError where
  | exists
  | absent
  | version (expected found : Nat)
  | exhausted
  | oversize
  deriving DecidableEq

variable {V : Type}

/-! ## Operations on the table -/

def Operation.key : Operation V → Key
  | put k _ => k
  | delete k => k

/-- What the operation leaves at its own key. -/
def Operation.leaves : Operation V → Option V
  | put _ v => some v
  | delete _ => none

def Operation.apply (version : Nat) (t : Table V) : Operation V → Table V
  | put k v => t.insert k ⟨v, version⟩
  | delete k => t.erase k

/-- The operations of a batch, in order. -/
def applyAll (version : Nat) (ops : List (Operation V)) (t : Table V) : Table V :=
  ops.foldl (Operation.apply version) t

/-- What a list of operations leaves at `k`, or `none` when it does not touch `k`.
The last operation on a key wins. -/
def effect : List (Operation V) → Key → Option (Option V)
  | [], _ => none
  | op :: rest, k => (effect rest k).or (if op.key = k then some op.leaves else none)

@[simp]
theorem effect_nil (k : Key) : effect ([] : List (Operation V)) k = none := rfl

theorem effect_cons (op : Operation V) (rest : List (Operation V)) (k : Key) :
    effect (op :: rest) k = (effect rest k).or (if op.key = k then some op.leaves else none) := rfl

theorem effect_append (xs ys : List (Operation V)) (k : Key) :
    effect (xs ++ ys) k = (effect ys k).or (effect xs k) := by
  induction xs with
  | nil => simp
  | cons op rest ih => rw [List.cons_append, effect_cons, ih, effect_cons, Option.or_assoc]

theorem effect_eq_none_iff (ops : List (Operation V)) (k : Key) :
    effect ops k = none ↔ ∀ op ∈ ops, op.key ≠ k := by
  induction ops with
  | nil => simp
  | cons op rest ih =>
    rw [effect_cons, Option.or_eq_none_iff, ih]
    by_cases h : op.key = k <;> simp [h]

theorem effect_of_agree {ops : List (Operation V)} {k : Key} {x : Option V}
    (hmem : ∃ op ∈ ops, op.key = k) (hall : ∀ op ∈ ops, op.key = k → op.leaves = x) :
    effect ops k = some x := by
  induction ops with
  | nil => simp at hmem
  | cons op rest ih =>
    rw [effect_cons]
    by_cases hrest : ∃ o ∈ rest, o.key = k
    · rw [ih hrest fun o ho => hall o (List.mem_cons_of_mem _ ho)]
      rfl
    · have hnone : effect rest k = none := by
        rw [effect_eq_none_iff]
        intro o ho hk
        exact hrest ⟨o, ho, hk⟩
      have hop : op.key = k := by
        obtain ⟨o, ho, hk⟩ := hmem
        rcases List.mem_cons.mp ho with rfl | ho
        · exact hk
        · exact absurd ⟨o, ho, hk⟩ hrest
      rw [hnone, if_pos hop, hall op List.mem_cons_self hop]
      rfl

theorem exists_of_effect {ops : List (Operation V)} {k : Key} {x : Option V}
    (h : effect ops k = some x) : ∃ op ∈ ops, op.key = k ∧ op.leaves = x := by
  induction ops with
  | nil => simp at h
  | cons op rest ih =>
    rw [effect_cons] at h
    cases hrest : effect rest k with
    | some y =>
      rw [hrest, Option.some_or] at h
      obtain ⟨o, ho, hkey, hleaves⟩ := ih (hrest.trans h)
      exact ⟨o, List.mem_cons_of_mem _ ho, hkey, hleaves⟩
    | none =>
      rw [hrest, Option.none_or] at h
      split_ifs at h with hkey
      exact ⟨op, List.mem_cons_self, hkey, Option.some.inj h⟩

theorem effect_deletes (keys : List Key) (k : Key) :
    effect (keys.map (Operation.delete (V := V))) k = if k ∈ keys then some none else none := by
  split
  · rename_i h
    apply effect_of_agree ⟨_, List.mem_map_of_mem h, rfl⟩
    intro op hop _
    obtain ⟨_, _, rfl⟩ := List.mem_map.mp hop
    rfl
  · rename_i h
    rw [effect_eq_none_iff]
    intro op hop hk
    obtain ⟨k', hk', rfl⟩ := List.mem_map.mp hop
    exact h (by rw [← hk]; exact hk')

theorem getElem?_apply (version : Nat) (t : Table V) (op : Operation V) (k : Key) :
    (op.apply version t)[k]? =
      if op.key = k then op.leaves.map (⟨·, version⟩) else t[k]? := by
  cases op with
  | put key v =>
    rw [Operation.apply, ExtTreeMap.getElem?_insert]
    by_cases h : key = k <;> simp [Operation.key, Operation.leaves, h]
  | delete key =>
    rw [Operation.apply, ExtTreeMap.getElem?_erase]
    by_cases h : key = k <;> simp [Operation.key, Operation.leaves, h]

theorem getElem?_applyAll (version : Nat) (ops : List (Operation V)) (t : Table V) (k : Key) :
    (applyAll version ops t)[k]? = match effect ops k with
      | some left => left.map (⟨·, version⟩)
      | none => t[k]? := by
  induction ops generalizing t with
  | nil => rfl
  | cons op rest ih =>
    have hfold : applyAll version (op :: rest) t = applyAll version rest (op.apply version t) := rfl
    rw [hfold, ih, effect_cons]
    cases he : effect rest k with
    | some left => rfl
    | none =>
      rw [getElem?_apply]
      by_cases hk : op.key = k <;> simp [hk]

/-! ## Commits -/

def Store.get (s : Store V) (k : Key) : Option (Stored V) := s.table[k]?

def Store.valueAt (s : Store V) (k : Key) : Option V := (s.get k).map (·.value)

/-- The first thing wrong with a condition, if any. -/
def Store.check (s : Store V) : Condition → Option CommitError
  | .missing k => match s.get k with
    | some _ => some .exists
    | none => none
  | .version k expected => match s.get k with
    | none => some .absent
    | some e => if e.version ≠ expected then some (.version expected e.version) else none

/-- Versions are 64-bit, and the counter never wraps. -/
def maxVersion : Nat := 2 ^ 64 - 1

def Operation.fits (size : V → Bool) : Operation V → Bool
  | put _ v => size v
  | delete _ => true

/-- Writes a batch whose conditions are known to hold. -/
def Store.write (s : Store V) (ops : List (Operation V)) : Store V where
  table := applyAll (s.version + 1) ops s.table
  version := s.version + 1
  bounded := by
    intro k e he
    rw [getElem?_applyAll] at he
    cases hk : effect ops k with
    | none =>
      rw [hk] at he
      have := s.bounded k e he
      omega
    | some left =>
      simp only [hk, Option.map_eq_some_iff] at he
      obtain ⟨v, _, rfl⟩ := he
      exact Nat.le_refl _

/-- Conditions first, then the version counter, then the operations in order. A value
that is too large aborts the whole batch. -/
def Store.commit (size : V → Bool) (b : WriteBatch V) (s : Store V) :
    Except CommitError Nat × Store V :=
  match b.conditions.findSome? s.check with
  | some e => (.error e, s)
  | none =>
    if s.version + 1 > maxVersion then (.error .exhausted, s)
    else if b.operations.all (·.fits size) then (.ok (s.version + 1), s.write b.operations)
    else (.error .oversize, s)

theorem get_write (s : Store V) (ops : List (Operation V)) (k : Key) :
    (s.write ops).get k = match effect ops k with
      | some left => left.map (⟨·, s.version + 1⟩)
      | none => s.get k := getElem?_applyAll _ _ _ _

theorem valueAt_write (s : Store V) (ops : List (Operation V)) (k : Key) :
    (s.write ops).valueAt k = (effect ops k).getD (s.valueAt k) := by
  rw [Store.valueAt, get_write]
  cases effect ops k with
  | none => rfl
  | some left => cases left <;> rfl

@[simp]
theorem version_write (s : Store V) (ops : List (Operation V)) :
    (s.write ops).version = s.version + 1 := rfl

theorem commit_ok_iff {size : V → Bool} {b : WriteBatch V} {s s' : Store V} {v : Nat} :
    s.commit size b = (.ok v, s') ↔
      (∀ c ∈ b.conditions, s.check c = none) ∧ s.version + 1 ≤ maxVersion ∧
        (∀ op ∈ b.operations, op.fits size = true) ∧ v = s.version + 1 ∧
        s' = s.write b.operations := by
  unfold Store.commit
  cases hc : b.conditions.findSome? s.check with
  | some e =>
    obtain ⟨c, hmem, hce⟩ := List.exists_of_findSome?_eq_some hc
    simp only [Prod.mk.injEq, reduceCtorEq, false_and, false_iff, not_and]
    intro h
    rw [h c hmem] at hce
    cases hce
  | none =>
    rw [List.findSome?_eq_none_iff] at hc
    split_ifs with hv hf
    · simp only [Prod.mk.injEq, reduceCtorEq, false_and, false_iff, not_and]
      intro _ h
      omega
    · simp only [List.all_eq_true] at hf
      simp only [Prod.mk.injEq, Except.ok.injEq]
      constructor
      · rintro ⟨rfl, rfl⟩
        exact ⟨hc, by omega, hf, rfl, rfl⟩
      · rintro ⟨-, -, -, rfl, rfl⟩
        exact ⟨rfl, rfl⟩
    · simp only [Prod.mk.injEq, reduceCtorEq, false_and, false_iff, not_and]
      intro _ _ h
      exact absurd (List.all_eq_true.mpr h) hf

theorem commit_error {size : V → Bool} {b : WriteBatch V} {s s' : Store V} {e : CommitError}
    (h : s.commit size b = (.error e, s')) : s' = s := by
  unfold Store.commit at h
  split at h
  · cases h; rfl
  · split_ifs at h <;> cases h <;> rfl

theorem check_missing {s : Store V} {k : Key} : s.check (.missing k) = none ↔ s.get k = none := by
  simp only [Store.check]
  cases s.get k <;> simp

theorem check_version {s : Store V} {k : Key} {v : Nat} :
    s.check (.version k v) = none ↔ ∃ e, s.get k = some e ∧ e.version = v := by
  simp only [Store.check]
  cases s.get k with
  | none => simp
  | some e => by_cases h : e.version = v <;> simp [h]

theorem get_write_fresh {s : Store V} {ops : List (Operation V)} {k : Key} {e : Stored V}
    (hk : ∃ op ∈ ops, op.key = k) (h : (s.write ops).get k = some e) : e.version = s.version + 1 := by
  rw [get_write] at h
  cases he : effect ops k with
  | none =>
    obtain ⟨op, hop, rfl⟩ := hk
    exact absurd rfl ((effect_eq_none_iff ops op.key).mp he op hop)
  | some left =>
    simp only [he, Option.map_eq_some_iff] at h
    obtain ⟨v, _, rfl⟩ := h
    rfl

/-! ## Scans -/

/-- The entries of one page, and the key to go on from. -/
structure ScanPage (V : Type) where
  entries : List (Key × Stored V)
  next : Option Key

/-- Why a scan was refused. -/
inductive ScanError where
  | zeroLimit
  | largeLimit
  | foreignCursor
  deriving DecidableEq

/-- One page of the keys that start with `pre`, after the cursor. It reads one entry
more than the limit to learn whether anything is left. -/
def Store.scan (s : Store V) (pre : Key) (after : Option Key) (limit : Nat) :
    Except ScanError (ScanPage V) :=
  if limit = 0 then .error .zeroLimit
  else if limit + 1 ≥ 2 ^ 64 then .error .largeLimit
  else if after.any fun key => !pre.isPrefixOf key then .error .foreignCursor
  else
    let range := s.table.toList.filter fun e => (compare (after.getD pre) e.1).isLE
    let inside := range.takeWhile fun e => pre.isPrefixOf e.1
    let fresh := inside.filter fun e => !after.any fun key => (compare e.1 key).isLE
    let entries := fresh.take (limit + 1)
    if limit < entries.length then
      .ok { entries := entries.dropLast, next := entries.dropLast.getLast?.map (·.1) }
    else .ok { entries, next := none }

/-! ## The store as an environment -/

/-- What can be asked of a store. -/
inductive StoreOp (V : Type) where
  | get (key : Key)
  | scan (pre : Key) (after : Option Key) (limit : Nat)
  | commit (batch : WriteBatch V)

abbrev storeCalls (V : Type) : Calls where
  Op := StoreOp V
  Ans
    | .get _ => Option (Stored V)
    | .scan _ _ _ => Except ScanError (ScanPage V)
    | .commit _ => Except CommitError Nat

def serve (size : V → Bool) : (op : (storeCalls V).Op) → Store V → (storeCalls V).Ans op × Store V
  | .get k, s => (s.get k, s)
  | .scan pre after limit, s => (s.scan pre after limit, s)
  | .commit b, s => s.commit size b

section Run

variable {α : Type} (size : V → Bool)

@[simp]
theorem run_get (k : Key) (next : Option (Stored V) → Prog (storeCalls V) α) (s : Store V) :
    Prog.run (serve size) (.call (.get k) next) s = (next (s.get k)).run (serve size) s := rfl

@[simp]
theorem run_scan (pre : Key) (after : Option Key) (limit : Nat)
    (next : Except ScanError (ScanPage V) → Prog (storeCalls V) α) (s : Store V) :
    Prog.run (serve size) (.call (.scan pre after limit) next) s =
      (next (s.scan pre after limit)).run (serve size) s := rfl

@[simp]
theorem run_commit (b : WriteBatch V) (next : Except CommitError Nat → Prog (storeCalls V) α)
    (s : Store V) :
    Prog.run (serve size) (.call (.commit b) next) s =
      (next (s.commit size b).1).run (serve size) (s.commit size b).2 := rfl

theorem version_le_run (p : Prog (storeCalls V) α) (s : Store V) :
    s.version ≤ (p.run (serve size) s).2.version := by
  induction p generalizing s with
  | done a => exact Nat.le_refl _
  | call op next ih =>
    cases op with
    | get k => exact ih _ s
    | scan pre after limit => exact ih _ s
    | commit b =>
      rw [run_commit]
      rcases hc : s.commit size b with ⟨e | v, t⟩
      · obtain rfl := commit_error hc
        exact ih _ t
      · obtain ⟨-, -, -, -, rfl⟩ := commit_ok_iff.mp hc
        have hwritten : s.version + 1 ≤ _ := ih (.ok v) (s.write b.operations)
        exact Nat.le_trans (Nat.le_succ _) hwritten

end Run

end KvStore
