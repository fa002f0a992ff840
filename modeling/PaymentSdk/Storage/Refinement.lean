import Mathlib.Data.List.Induction
import PaymentSdk.Storage.Backend

/-!
# The backend as a versioned store

Over physical keys, the frames of the data table are the entries of the abstract store. Every
database that batches can write is such a picture of a store, and a batch that commits is a write
to it.
-/

open Std KvStore Checked

namespace PaymentSdk.Storage

/-- The frame of an entry. -/
def frameOf (e : Stored Bytes) : Bytes := StoredRecord.encode ⟨UInt64.ofNat e.version, e.value⟩

/-- An entry that a commit can have written. -/
structure Writable (key : Key) (e : Stored Bytes) : Prop where
  key_length : key.length < 2 ^ 64
  pos : 0 < e.version
  fits : e.version < 2 ^ 64
  length : e.value.length ≤ maxStoredPayloadBytes

/-- The backend's bytes are the frames of the store. -/
structure Represents (b : Backend) (s : Store Bytes) : Prop where
  data : b.data = s.table.map fun _ e => frameOf e
  version : b.globalVersion =
    if s.version = 0 then none else some (GlobalVersion.encode ⟨UInt64.ofNat s.version⟩)
  bound : s.version < 2 ^ 64
  writable : ∀ k e, s.get k = some e → Writable k e

theorem toNat_ofNat_lt {n : Nat} (h : n < 2 ^ 64) : (UInt64.ofNat n).toNat = n :=
  UInt64.toNat_ofNat_of_lt' h

theorem tryFrom_frameOf {k : Key} {e : Stored Bytes} (h : Writable k e) :
    ∃ r, StoredRecord.tryFrom (frameOf e) = .ok r ∧ r.stored = e := by
  have hversion : UInt64.ofNat e.version ≠ 0 := by
    intro hzero
    have := congrArg UInt64.toNat hzero
    rw [toNat_ofNat_lt h.fits] at this
    have hpos := h.pos
    simp at this
    omega
  have hnew : StoredRecord.new e.value (UInt64.ofNat e.version) = .ok ⟨UInt64.ofNat e.version, e.value⟩ := by
    rw [StoredRecord.new, if_neg hversion, if_neg (Nat.not_lt.mpr h.length)]
  refine ⟨_, tryFrom_encode hnew, ?_⟩
  rw [StoredRecord.stored, toNat_ofNat_lt h.fits]

theorem represents_fresh : Represents Backend.fresh Store.empty := by
  refine ⟨?_, rfl, by decide, by simp [Store.get, Store.empty]⟩
  apply ExtTreeMap.ext_getElem?
  intro k
  simp [Backend.fresh, Store.empty]

/-! ## Operations -/

/-- An operation with its physical key. -/
def physical : Operation → Except Error (KvStore.Operation Bytes)
  | .put ns key value => return .put (← encodePhysicalKey ns key) value
  | .delete ns key => return .delete (← encodePhysicalKey ns key)

theorem map_insert (t : Table Bytes) (k : Key) (e : Stored Bytes) :
    (t.insert k e).map (fun _ e => frameOf e) = (t.map fun _ e => frameOf e).insert k (frameOf e) := by
  apply ExtTreeMap.ext_getElem?
  intro k'
  simp only [ExtTreeMap.getElem?_map, ExtTreeMap.getElem?_insert]
  split <;> rfl

theorem map_erase (t : Table Bytes) (k : Key) :
    (t.erase k).map (fun _ e => frameOf e) = (t.map fun _ e => frameOf e).erase k := by
  apply ExtTreeMap.ext_getElem?
  intro k'
  simp only [ExtTreeMap.getElem?_map, ExtTreeMap.getElem?_erase]
  split <;> rfl

theorem encodePhysicalKey_length {ns : Namespace} {key : Key} {k : Bytes}
    (h : encodePhysicalKey ns key = .ok k) : k.length < 2 ^ 64 := by
  obtain ⟨header, -, hlt, rfl⟩ := encodePhysicalKey_ok_iff.mp h
  rw [List.length_append]
  exact hlt

/-- What an operation may leave under its key. -/
def Fits (op : KvStore.Operation Bytes) : Prop :=
  op.key.length < 2 ^ 64 ∧ ∀ v ∈ op.leaves, v.length ≤ maxStoredPayloadBytes

theorem applyOperation_ok {version : UInt64} {t : Table Bytes} {op : Operation} {data : DataTable}
    (h : applyOperation version (t.map fun _ e => frameOf e) op = .ok data) :
    ∃ op', physical op = .ok op' ∧ data = (op'.apply version.toNat t).map (fun _ e => frameOf e) ∧
      Fits op' := by
  cases op with
  | put ns key value =>
    rw [applyOperation, bind_ok] at h
    obtain ⟨k, hk, h⟩ := h
    obtain ⟨record, hrecord, h⟩ := bind_ok.mp h
    rw [pure_ok] at h
    unfold StoredRecord.new at hrecord
    split_ifs at hrecord with hzero hmax
    cases hrecord
    refine ⟨.put k value, by simp [physical, hk, pure, Except.pure, bind, Except.bind], ?_, ?_⟩
    · rw [h, KvStore.Operation.apply, map_insert, frameOf, UInt64.ofNat_toNat]
    · refine ⟨encodePhysicalKey_length hk, ?_⟩
      intro v hv
      cases hv
      exact Nat.not_lt.mp hmax
  | delete ns key =>
    rw [applyOperation, bind_ok] at h
    obtain ⟨k, hk, h⟩ := h
    rw [pure_ok] at h
    refine ⟨.delete k, by simp [physical, hk, pure, Except.pure, bind, Except.bind], ?_, ?_⟩
    · rw [h, KvStore.Operation.apply, map_erase]
    · exact ⟨encodePhysicalKey_length hk, by simp [KvStore.Operation.leaves]⟩

theorem applyOperations_ok {version : UInt64} {ops : List Operation} {t : Table Bytes} {data : DataTable}
    (h : ops.foldlM (applyOperation version) (t.map fun _ e => frameOf e) = .ok data) :
    ∃ ops', ops.mapM physical = .ok ops' ∧
      data = (applyAll version.toNat ops' t).map (fun _ e => frameOf e) ∧ ∀ op ∈ ops', Fits op := by
  induction ops generalizing t with
  | nil =>
    rw [List.foldlM_nil, pure_ok] at h
    exact ⟨[], rfl, h, by simp⟩
  | cons op rest ih =>
    rw [List.foldlM_cons, bind_ok] at h
    obtain ⟨data', hop, hrest⟩ := h
    obtain ⟨op', hop', rfl, hfits⟩ := applyOperation_ok hop
    obtain ⟨rest', hrest', hdata, hall⟩ := ih hrest
    refine ⟨op' :: rest', ?_, hdata, ?_⟩
    · rw [mapM_ok] at *
      exact .cons hop' hrest'
    · intro o ho
      rcases List.mem_cons.mp ho with rfl | ho
      · exact hfits
      · exact hall o ho

/-! ## Batches -/

theorem currentVersion_eq {b : Backend} {s : Store Bytes} (h : Represents b s) :
    b.currentVersion = .ok (UInt64.ofNat s.version) := by
  unfold Backend.currentVersion
  rw [h.version]
  split_ifs with hzero
  · rw [hzero]
    rfl
  · have hne : UInt64.ofNat s.version ≠ 0 := by
      intro heq
      have := congrArg UInt64.toNat heq
      rw [toNat_ofNat_lt h.bound] at this
      exact hzero this
    simp [globalVersion_tryFrom_encode hne, bind, Except.bind, pure, Except.pure]

theorem writable_write {s : Store Bytes} {ops : List (KvStore.Operation Bytes)}
    (h : ∀ k e, s.get k = some e → Writable k e) (hbound : s.version + 1 < 2 ^ 64)
    (hfits : ∀ op ∈ ops, Fits op) {k : Key} {e : Stored Bytes} (he : (s.write ops).get k = some e) :
    Writable k e := by
  rw [get_write] at he
  cases heffect : effect ops k with
  | none =>
    rw [heffect] at he
    exact h k e he
  | some left =>
    rw [heffect] at he
    obtain ⟨v, rfl, rfl⟩ := Option.map_eq_some_iff.mp he
    obtain ⟨op, hop, rfl, hleaves⟩ := exists_of_effect heffect
    obtain ⟨hkey, hvalue⟩ := hfits op hop
    exact ⟨hkey, Nat.succ_pos _, hbound, hvalue v hleaves⟩

/-- **Step.** A batch that commits is a write to the store, under the next version. -/
theorem commitOnce_ok {b b' : Backend} {s : Store Bytes} {batch : WriteBatch} {v : UInt64}
    (hrep : Represents b s) (h : b.commitOnce batch = .ok (v, b')) :
    ∃ ops, batch.operations.mapM physical = .ok ops ∧ v.toNat = s.version + 1 ∧
      Represents b' (s.write ops) := by
  unfold Backend.commitOnce at h
  obtain ⟨-, -, h⟩ := bind_ok.mp h
  rw [currentVersion_eq hrep] at h
  simp only [bind, Except.bind, throw, throwThe, MonadExceptOf.throw] at h
  rw [toNat_ofNat_lt hrep.bound] at h
  split_ifs at h with hexhausted
  have hbound : s.version + 1 < 2 ^ 64 := by
    have := hrep.bound
    omega
  have hnext : (UInt64.ofNat s.version + 1).toNat = s.version + 1 := by
    rw [UInt64.toNat_add, toNat_ofNat_lt hrep.bound]
    exact Nat.mod_eq_of_lt hbound
  rw [hrep.data] at h
  cases hops : batch.operations.foldlM (applyOperation (UInt64.ofNat s.version + 1))
      (s.table.map fun _ e => frameOf e) with
  | error e =>
    rw [hops] at h
    cases h
  | ok data =>
    rw [hops] at h
    obtain ⟨ops, hphysical, hdata, hfits⟩ := applyOperations_ok hops
    have hne : UInt64.ofNat s.version + 1 ≠ 0 := by
      intro heq
      have := congrArg UInt64.toNat heq
      rw [hnext] at this
      simp at this
    simp only [GlobalVersion.new, if_neg hne, pure, Except.pure, Except.ok.injEq, Prod.mk.injEq] at h
    obtain ⟨rfl, rfl⟩ := h
    refine ⟨ops, hphysical, hnext, ?_, ?_, hbound, ?_⟩
    · rw [hdata, hnext]
      rfl
    · simp only [version_write, Nat.succ_ne_zero, if_false]
      rw [show UInt64.ofNat (s.version + 1) = UInt64.ofNat s.version + 1 from
        UInt64.toNat_inj.mp (by rw [hnext, toNat_ofNat_lt hbound])]
    · intro k e he
      exact writable_write hrep.writable hbound hfits he

theorem represents_commit {b : Backend} {s : Store Bytes} (hrep : Represents b s) (batch : WriteBatch) :
    ∃ s', Represents (b.commit batch).2 s' := by
  unfold Backend.commit
  cases h : b.commitOnce batch with
  | error e => exact ⟨s, hrep⟩
  | ok r =>
    obtain ⟨v, b'⟩ := r
    obtain ⟨ops, -, -, hrep'⟩ := commitOnce_ok hrep h
    exact ⟨_, hrep'⟩

/-- **Run.** Every database that batches can write represents a store. -/
theorem represents_run (batches : List WriteBatch) : ∃ s, Represents (Backend.fresh.run batches) s := by
  unfold Backend.run
  induction batches using List.reverseRecOn with
  | nil => exact ⟨_, represents_fresh⟩
  | append_singleton batches batch ih =>
    obtain ⟨s, hs⟩ := ih
    rw [List.foldl_append]
    exact represents_commit hs batch

end PaymentSdk.Storage
