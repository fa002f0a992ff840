import PaymentSdk.Storage.Paging

/-!
# Commits as compare-and-set

A batch commits exactly if its conditions hold, and then it is applied as a whole under the next
version. Versions only grow. So a version that was read for a key still stands exactly as long as
no commit has written that key, even if the key was deleted and made again.
-/

open Std Framing KvStore Checked

namespace PaymentSdk.Storage

/-! ## What readers find -/

def Operation.ns : Operation → Namespace
  | put ns _ _ | delete ns _ => ns

def Operation.key : Operation → Key
  | put _ key _ | delete _ key => key

/-- What the key holds afterwards. -/
def Operation.leaves : Operation → Option Bytes
  | put _ _ value => some value
  | delete _ _ => none

def Condition.ns : Condition → Namespace
  | missing ns _ | version ns _ _ => ns

def Condition.key : Condition → Key
  | missing _ key | version _ key _ => key

abbrev Contents := Namespace → Key → Option (Stored Bytes)

/-- A key that cannot be encoded is under no record. -/
def Backend.contents (b : Backend) : Contents := fun ns key => (b.get ns key).toOption.join

/-- The global version. A fresh database has none, and counts from zero. -/
def Backend.version (b : Backend) : Nat := (b.currentVersion.toOption.map UInt64.toNat).getD 0

def Contents.apply (version : Nat) (c : Contents) (op : Operation) : Contents := fun ns key =>
  if op.ns = ns ∧ op.key = key then op.leaves.map (⟨·, version⟩) else c ns key

/-- The length of the namespace has four bytes, and the length of the whole key eight. -/
def Encodable (ns : Namespace) (key : Key) : Prop :=
  ns.asBytes.length < 2 ^ 32 ∧ 4 + ns.asBytes.length + key.length < 2 ^ 64

/-- Every key of the batch has an encoding. -/
def WriteBatch.Encodable (batch : WriteBatch) : Prop :=
  (∀ c ∈ batch.conditions, Storage.Encodable c.ns c.key) ∧
    ∀ op ∈ batch.operations, Storage.Encodable op.ns op.key

def Condition.Holds (c : Contents) : Condition → Prop
  | missing ns key => c ns key = none
  | version ns key expected => ∃ e, c ns key = some e ∧ e.version = expected.toNat

/-- No put is larger than a record may be. -/
def Operation.Small (op : Operation) : Prop := ∀ value ∈ op.leaves, value.length ≤ maxStoredPayloadBytes

/-! ## Physical keys -/

theorem encodable_iff {ns : Namespace} {key : Key} :
    Encodable ns key ↔ ∃ k, encodePhysicalKey ns key = .ok k := by
  simp only [encodePhysicalKey_ok_iff, namespacePrefix_ok_iff]
  constructor
  · rintro ⟨hns, hlen⟩
    exact ⟨_, _, ⟨hns, rfl⟩, by simpa using hlen, rfl⟩
  · rintro ⟨k, header, ⟨hns, rfl⟩, hlen, -⟩
    exact ⟨hns, by simpa using hlen⟩

theorem encodePhysicalKey_inj {a b : Namespace} {x y : Key} {k : Bytes}
    (ha : encodePhysicalKey a x = .ok k) (hb : encodePhysicalKey b y = .ok k) : a = b ∧ x = y := by
  obtain ⟨_, hprefix, -, rfl⟩ := encodePhysicalKey_ok_iff.mp ha
  obtain ⟨_, hprefix', -, heq⟩ := encodePhysicalKey_ok_iff.mp hb
  obtain ⟨hlen, rfl⟩ := namespacePrefix_ok_iff.mp hprefix
  obtain ⟨hlen', rfl⟩ := namespacePrefix_ok_iff.mp hprefix'
  rw [List.append_assoc, List.append_assoc] at heq
  obtain ⟨hsize, hrest⟩ := List.append_inj heq (by simp)
  have hlength : a.asBytes.length = b.asBytes.length :=
    bigEndian_inj (by simpa using hlen) (by simpa using hlen') hsize
  obtain ⟨hbytes, hkey⟩ := List.append_inj hrest hlength
  exact ⟨asBytes_inj hbytes, hkey⟩

/-- The records of a table, by namespace and logical key. -/
def tableContents (t : Table Bytes) : Contents := fun ns key =>
  (encodePhysicalKey ns key).toOption.bind fun k => t[k]?

theorem contents_eq {b : Backend} {s : Store Bytes} (hrep : Represents b s) :
    b.contents = tableContents s.table := by
  funext ns key
  unfold Backend.contents tableContents Backend.get
  cases hk : encodePhysicalKey ns key with
  | error e => rfl
  | ok k =>
    have hdata : b.data[k]? = (s.get k).map frameOf := by
      rw [hrep.data, ExtTreeMap.getElem?_map]
      rfl
    simp only [hdata, bind, Except.bind, Except.toOption, Option.bind]
    cases hs : s.get k with
    | none => exact hs.symm
    | some e =>
      obtain ⟨r, hr, hstored⟩ := tryFrom_frameOf (hrep.writable _ _ hs)
      simp only [Option.map_some, hr, hstored]
      exact hs.symm

theorem version_eq {b : Backend} {s : Store Bytes} (hrep : Represents b s) : b.version = s.version := by
  rw [Backend.version, currentVersion_eq hrep]
  exact toNat_ofNat_lt hrep.bound

theorem tableContents_apply {version : Nat} {t : Table Bytes} {op : Operation} {op' : KvStore.Operation Bytes}
    (h : physical op = .ok op') :
    tableContents (op'.apply version t) = (tableContents t).apply version op := by
  have hop : encodePhysicalKey op.ns op.key = .ok op'.key ∧ op'.leaves = op.leaves := by
    cases op with
    | put ns key value =>
      obtain ⟨k, hk, hput⟩ := bind_ok.mp h
      cases hput
      exact ⟨hk, rfl⟩
    | delete ns key =>
      obtain ⟨k, hk, hdelete⟩ := bind_ok.mp h
      cases hdelete
      exact ⟨hk, rfl⟩
  obtain ⟨hphysical, hleaves⟩ := hop
  funext ns key
  unfold tableContents Contents.apply
  by_cases hsame : op.ns = ns ∧ op.key = key
  · obtain ⟨rfl, rfl⟩ := hsame
    rw [if_pos ⟨rfl, rfl⟩, hphysical]
    simp only [Except.toOption, Option.bind]
    rw [getElem?_apply, if_pos rfl, hleaves]
  · rw [if_neg hsame]
    dsimp only
    cases hk : encodePhysicalKey ns key with
    | error e => rfl
    | ok k =>
      have hne : op'.key ≠ k := by
        rintro rfl
        exact hsame (encodePhysicalKey_inj hphysical hk)
      simp only [Except.toOption, Option.bind]
      rw [getElem?_apply, if_neg hne]

theorem tableContents_applyAll {version : Nat} {t : Table Bytes} {ops : List Operation}
    {ops' : List (KvStore.Operation Bytes)} (h : ops.mapM physical = .ok ops') :
    tableContents (applyAll version ops' t) = ops.foldl (Contents.apply version) (tableContents t) := by
  rw [mapM_ok] at h
  induction h generalizing t with
  | nil => rfl
  | cons hop hrest ih =>
    rw [List.foldl_cons, ← tableContents_apply hop, ← ih]
    rfl

/-! ## One commit -/

theorem evaluateCondition_ok_iff {b : Backend} {s : Store Bytes} (hrep : Represents b s) {c : Condition} :
    b.evaluateCondition c = .ok () ↔ Encodable c.ns c.key ∧ c.Holds b.contents := by
  rw [contents_eq hrep, encodable_iff]
  have hdata : ∀ k : Key, b.data[k]? = (s.get k).map frameOf := by
    intro k
    rw [hrep.data, ExtTreeMap.getElem?_map]
    rfl
  cases c with
  | missing ns key =>
    simp only [Backend.evaluateCondition, Condition.ns, Condition.key, Condition.Holds, tableContents]
    cases hk : encodePhysicalKey ns key with
    | error e => simp [bind, Except.bind]
    | ok k =>
      simp only [bind, Except.bind, hdata, Option.isSome_map, Except.toOption, Option.bind]
      change _ ↔ _ ∧ s.get k = none
      cases s.get k with
      | none => simp [pure, Except.pure]
      | some e => simp [throw, throwThe, MonadExceptOf.throw]
  | version ns key expected =>
    simp only [Backend.evaluateCondition, Condition.ns, Condition.key, Condition.Holds, tableContents]
    cases hk : encodePhysicalKey ns key with
    | error e => simp [bind, Except.bind]
    | ok k =>
      simp only [bind, Except.bind, hdata, Except.toOption, Option.bind]
      change _ ↔ _ ∧ ∃ e, s.get k = some e ∧ _
      cases hs : s.get k with
      | none => simp [throw, throwThe, MonadExceptOf.throw]
      | some e =>
        obtain ⟨r, hr, rfl⟩ := tryFrom_frameOf (hrep.writable _ _ hs)
        simp only [Option.map_some, hr, throw, throwThe, MonadExceptOf.throw]
        have hversion : r.stored.version = expected.toNat ↔ r.storageVersion = expected :=
          UInt64.toNat_inj
        split_ifs with hne
        · simp [hversion, hne]
        · simp [hversion, not_not.mp hne, pure, Except.pure]

theorem applyOperation_ok_iff {version : UInt64} (hversion : version ≠ 0) {data : DataTable} {op : Operation} :
    (∃ data', applyOperation version data op = .ok data') ↔ Encodable op.ns op.key ∧ op.Small := by
  rw [encodable_iff]
  cases op with
  | put ns key value =>
    simp only [applyOperation, Operation.ns, Operation.key, Operation.Small, Operation.leaves,
      StoredRecord.new, if_neg hversion]
    cases encodePhysicalKey ns key with
    | error e => simp [bind, Except.bind]
    | ok k =>
      by_cases hmax : maxStoredPayloadBytes < value.length
      · simp [bind, Except.bind, hmax]
      · simp [bind, Except.bind, hmax, pure, Except.pure, Nat.not_lt.mp hmax]
  | delete ns key =>
    simp only [applyOperation, Operation.ns, Operation.key, Operation.Small, Operation.leaves]
    cases encodePhysicalKey ns key with
    | error e => simp [bind, Except.bind]
    | ok k => simp [bind, Except.bind, pure, Except.pure]

theorem applyOperations_ok_iff {version : UInt64} (hversion : version ≠ 0) (data : DataTable)
    {ops : List Operation} :
    (∃ data', ops.foldlM (applyOperation version) data = .ok data') ↔
      ∀ op ∈ ops, Encodable op.ns op.key ∧ op.Small := by
  induction ops generalizing data with
  | nil => simp [pure, Except.pure]
  | cons op rest ih =>
    rw [List.forall_mem_cons, ← applyOperation_ok_iff hversion]
    constructor
    · rintro ⟨data', h⟩
      obtain ⟨next, hop, hrest⟩ := bind_ok.mp h
      exact ⟨⟨next, hop⟩, (ih next).mp ⟨data', hrest⟩⟩
    · rintro ⟨⟨next, hop⟩, hrest⟩
      obtain ⟨data', h⟩ := (ih next).mpr hrest
      exact ⟨data', bind_ok.mpr ⟨next, hop, h⟩⟩

/-- What one commit does. -/
structure CompareAndSet (b : Backend) (batch : WriteBatch) : Prop where
  succeeds : (∃ v, (b.commit batch).1 = .ok v) ↔
    batch.Encodable ∧ (∀ c ∈ batch.conditions, c.Holds b.contents) ∧
      (∀ op ∈ batch.operations, op.Small) ∧ b.version + 1 < 2 ^ 64
  applies : ∀ v, (b.commit batch).1 = .ok v →
    (b.commit batch).2.contents = batch.operations.foldl (Contents.apply v.toNat) b.contents
  carries : ∀ v, (b.commit batch).1 = .ok v → ∀ op ∈ batch.operations, ∀ e,
    (b.commit batch).2.contents op.ns op.key = some e → e.version = v.toNat
  next : ∀ v, (b.commit batch).1 = .ok v → v.toNat = b.version + 1 ∧ (b.commit batch).2.version = v.toNat
  keeps : ∀ e, (b.commit batch).1 = .error e → (b.commit batch).2 = b

theorem foldl_apply_touched {version : Nat} {ops : List Operation} {c : Contents} {op : Operation}
    (hop : op ∈ ops) {e : Stored Bytes} (he : ops.foldl (Contents.apply version) c op.ns op.key = some e) :
    e.version = version := by
  induction ops using List.reverseRecOn with
  | nil => cases hop
  | append_singleton ops last ih =>
    rw [List.foldl_append, List.foldl_cons, List.foldl_nil, Contents.apply] at he
    split_ifs at he with hlast
    · obtain ⟨value, -, rfl⟩ := Option.map_eq_some_iff.mp he
      rfl
    · rcases List.mem_append.mp hop with hop | hop
      · exact ih hop he
      · obtain rfl := List.mem_singleton.mp hop
        exact absurd ⟨rfl, rfl⟩ hlast

theorem foldl_apply_untouched {version : Nat} {ops : List Operation} {c : Contents} {ns : Namespace} {key : Key}
    (h : ∀ op ∈ ops, ¬ (op.ns = ns ∧ op.key = key)) : ops.foldl (Contents.apply version) c ns key = c ns key := by
  induction ops using List.reverseRecOn with
  | nil => rfl
  | append_singleton ops last ih =>
    rw [List.foldl_append, List.foldl_cons, List.foldl_nil, Contents.apply,
      if_neg (h last (by simp)), ih fun op hop => h op (by simp [hop])]

theorem commitOnce_ok_iff {b : Backend} {s : Store Bytes} (hrep : Represents b s) (batch : WriteBatch) :
    (∃ r, b.commitOnce batch = .ok r) ↔
      batch.Encodable ∧ (∀ c ∈ batch.conditions, c.Holds b.contents) ∧
        (∀ op ∈ batch.operations, op.Small) ∧ s.version + 1 < 2 ^ 64 := by
  have hbound := hrep.bound
  have hconditions : batch.conditions.forM b.evaluateCondition = .ok () ↔
      ∀ c ∈ batch.conditions, Encodable c.ns c.key ∧ c.Holds b.contents := by
    rw [forM_ok]
    exact forall₂_congr fun c _ => evaluateCondition_ok_iff hrep
  have hnext : s.version + 1 < 2 ^ 64 → UInt64.ofNat s.version + 1 ≠ 0 := by
    intro hlt heq
    have hnat := congrArg UInt64.toNat heq
    rw [UInt64.toNat_add, toNat_ofNat_lt hbound, UInt64.toNat_one, Nat.mod_eq_of_lt hlt] at hnat
    cases hnat
  unfold Backend.commitOnce
  simp only [currentVersion_eq hrep]
  constructor
  · rintro ⟨r, h⟩
    obtain ⟨⟨⟩, hforM, h⟩ := bind_ok.mp h
    obtain ⟨_, hcurrent, h⟩ := bind_ok.mp h
    cases hcurrent
    rw [toNat_ofNat_lt hbound] at h
    split_ifs at h with hexhausted
    · cases h
    · have hlt : s.version + 1 < 2 ^ 64 := by omega
      obtain ⟨data, hops, -⟩ := bind_ok.mp h
      have hall := (applyOperations_ok_iff (hnext hlt) _).mp ⟨data, hops⟩
      have hheld := hconditions.mp hforM
      exact ⟨⟨fun c hc => (hheld c hc).1, fun op hop => (hall op hop).1⟩, fun c hc => (hheld c hc).2,
        fun op hop => (hall op hop).2, hlt⟩
  · rintro ⟨⟨hkeys, hops⟩, hholds, hsmall, hlt⟩
    have hforM := hconditions.mpr fun c hc => ⟨hkeys c hc, hholds c hc⟩
    obtain ⟨data, hdata⟩ := (applyOperations_ok_iff (hnext hlt) b.data).mpr
      fun op hop => ⟨hops op hop, hsmall op hop⟩
    refine ⟨(UInt64.ofNat s.version + 1,
      ⟨data, some (GlobalVersion.encode ⟨UInt64.ofNat s.version + 1⟩)⟩), ?_⟩
    rw [hforM]
    simp only [bind, Except.bind]
    rw [toNat_ofNat_lt hbound, if_neg (by omega)]
    simp only [pure, Except.pure, hdata, GlobalVersion.new, if_neg (hnext hlt)]

theorem compareAndSet {b : Backend} {s : Store Bytes} (hrep : Represents b s) (batch : WriteBatch) :
    CompareAndSet b batch := by
  have hiff := commitOnce_ok_iff hrep batch
  rw [← version_eq hrep] at hiff
  cases h : b.commitOnce batch with
  | error e =>
    have hcommit : b.commit batch = (.error e, b) := by rw [Backend.commit, h]
    rw [h] at hiff
    refine ⟨?_, ?_, ?_, ?_, fun _ _ => by rw [hcommit]⟩
    · rw [← hiff, hcommit]
      simp
    all_goals
      intro v hv
      rw [hcommit] at hv
      cases hv
  | ok r =>
    obtain ⟨v, b'⟩ := r
    have hcommit : b.commit batch = (.ok v, b') := by rw [Backend.commit, h]
    obtain ⟨ops, hphysical, hversion, hrep'⟩ := commitOnce_ok hrep h
    have hcontents : b'.contents = batch.operations.foldl (Contents.apply v.toNat) b.contents := by
      rw [contents_eq hrep', contents_eq hrep, hversion]
      exact tableContents_applyAll hphysical
    rw [h] at hiff
    refine ⟨?_, ?_, ?_, ?_, ?_⟩
    · rw [← hiff, hcommit]
      simp
    · rintro _ hv
      rw [hcommit] at hv ⊢
      cases hv
      exact hcontents
    · intro _ hv op hop e he
      rw [hcommit] at hv he
      cases hv
      rw [hcontents] at he
      exact foldl_apply_touched hop he
    · intro _ hv
      rw [hcommit] at hv ⊢
      cases hv
      rw [version_eq hrep, version_eq hrep', version_write]
      exact ⟨hversion, hversion.symm⟩
    · intro _ hv
      rw [hcommit] at hv
      cases hv

/-! ## Runs -/

/-- What the successful commits of a run returned. -/
def Backend.versions (b : Backend) : List WriteBatch → List UInt64
  | [] => []
  | batch :: rest => (b.commit batch).1.toOption.toList ++ (b.commit batch).2.versions rest

/-- A commit of the run that succeeded had an operation on the key. -/
def Backend.Written (b : Backend) (ns : Namespace) (key : Key) : List WriteBatch → Prop
  | [] => False
  | batch :: rest =>
    ((∃ v, (b.commit batch).1 = .ok v) ∧ ∃ op ∈ batch.operations, op.ns = ns ∧ op.key = key) ∨
      (b.commit batch).2.Written ns key rest

theorem contents_version_le {b : Backend} {s : Store Bytes} (hrep : Represents b s) {ns : Namespace} {key : Key}
    {e : Stored Bytes} (h : b.contents ns key = some e) : e.version ≤ b.version := by
  rw [contents_eq hrep, tableContents] at h
  obtain ⟨k, -, hk⟩ := Option.bind_eq_some_iff.mp h
  rw [version_eq hrep]
  exact s.bounded k e hk

theorem commit_version {b : Backend} {s : Store Bytes} (hrep : Represents b s) (batch : WriteBatch) :
    b.version ≤ (b.commit batch).2.version := by
  have hset := compareAndSet hrep batch
  cases h : (b.commit batch).1 with
  | error e => rw [hset.keeps e h]
  | ok v =>
    obtain ⟨hnext, hversion⟩ := hset.next v h
    omega

theorem versions_ascending {b : Backend} {s : Store Bytes} (hrep : Represents b s) (batches : List WriteBatch) :
    (b.versions batches).Pairwise (· < ·) ∧
      ∀ v ∈ b.versions batches, b.version < v.toNat ∧ v.toNat ≤ (b.run batches).version := by
  induction batches generalizing b s with
  | nil => simp [Backend.versions]
  | cons batch rest ih =>
    obtain ⟨s', hrep'⟩ := represents_commit hrep batch
    obtain ⟨hrest, hbounds⟩ := ih hrep'
    have hset := compareAndSet hrep batch
    have hrun : b.run (batch :: rest) = (b.commit batch).2.run rest := rfl
    have hgrows : ∀ (bs : List WriteBatch) {c : Backend} {t : Store Bytes}, Represents c t →
        c.version ≤ (c.run bs).version := by
      intro bs
      induction bs with
      | nil => exact fun _ => Nat.le_refl _
      | cons batch bs ihbs =>
        intro c t hc
        obtain ⟨t', hc'⟩ := represents_commit hc batch
        exact (commit_version hc batch).trans (ihbs hc')
    rw [Backend.versions, hrun]
    cases h : (b.commit batch).1 with
    | error e =>
      have hsame := hset.keeps e h
      refine ⟨hrest, fun v hv => ?_⟩
      obtain ⟨hlt, hle⟩ := hbounds v hv
      rw [hsame] at hlt
      exact ⟨hlt, hle⟩
    | ok v =>
      obtain ⟨hnext, hversion⟩ := hset.next v h
      have hle := hgrows rest hrep'
      simp only [Except.toOption, Option.toList_some, List.singleton_append, List.pairwise_cons,
        List.mem_cons]
      refine ⟨⟨fun w hw => ?_, hrest⟩, ?_⟩
      · obtain ⟨hlt, -⟩ := hbounds w hw
        rw [hversion] at hlt
        exact UInt64.lt_iff_toNat_lt.mpr hlt
      · rintro w (rfl | hw)
        · omega
        · obtain ⟨hlt, hle'⟩ := hbounds w hw
          omega

/-- What is under the key, if anything, is newer than version `n`. -/
def Backend.Newer (b : Backend) (ns : Namespace) (key : Key) (n : Nat) : Prop :=
  n ≤ b.version ∧ ∀ e, b.contents ns key = some e → n < e.version

theorem newer_commit {b : Backend} {s : Store Bytes} (hrep : Represents b s) {ns : Namespace} {key : Key} {n : Nat}
    (h : b.Newer ns key n) (batch : WriteBatch) : (b.commit batch).2.Newer ns key n := by
  have hset := compareAndSet hrep batch
  refine ⟨h.1.trans (commit_version hrep batch), ?_⟩
  intro e he
  cases hc : (b.commit batch).1 with
  | error e' =>
    rw [hset.keeps e' hc] at he
    exact h.2 e he
  | ok v =>
    by_cases htouched : ∃ op ∈ batch.operations, op.ns = ns ∧ op.key = key
    · obtain ⟨op, hop, rfl, rfl⟩ := htouched
      rw [hset.carries v hc op hop e he, (hset.next v hc).1]
      have := h.1
      omega
    · rw [hset.applies v hc, foldl_apply_untouched fun op hop hsame => htouched ⟨op, hop, hsame⟩] at he
      exact h.2 e he

theorem newer_run {b : Backend} {s : Store Bytes} (hrep : Represents b s) {ns : Namespace} {key : Key} {n : Nat}
    (h : b.Newer ns key n) (later : List WriteBatch) : (b.run later).Newer ns key n := by
  induction later generalizing b s with
  | nil => exact h
  | cons batch later ih =>
    obtain ⟨s', hrep'⟩ := represents_commit hrep batch
    exact ih hrep' (newer_commit hrep h batch)

theorem holds_iff_unwritten {b : Backend} {s : Store Bytes} (hrep : Represents b s) {ns : Namespace} {key : Key}
    {e : Stored Bytes} {expected : UInt64} (he : b.contents ns key = some e) (hexpected : expected.toNat = e.version)
    (later : List WriteBatch) :
    (Condition.version ns key expected).Holds (b.run later).contents ↔ ¬ b.Written ns key later := by
  induction later generalizing b s with
  | nil =>
    refine ⟨fun _ h => h, fun _ => ?_⟩
    exact ⟨e, he, hexpected.symm⟩
  | cons batch later ih =>
    obtain ⟨s', hrep'⟩ := represents_commit hrep batch
    have hset := compareAndSet hrep batch
    have hrun : b.run (batch :: later) = (b.commit batch).2.run later := rfl
    rw [hrun, Backend.Written]
    cases hc : (b.commit batch).1 with
    | error e' =>
      have hsame := hset.keeps e' hc
      rw [ih hrep' (hsame.symm ▸ he)]
      simp
    | ok v =>
      by_cases htouched : ∃ op ∈ batch.operations, op.ns = ns ∧ op.key = key
      · -- From here on, whatever is under the key has a later version.
        have hnewer : (b.commit batch).2.Newer ns key e.version := by
          obtain ⟨hnext, hversion⟩ := hset.next v hc
          have hle := contents_version_le hrep he
          refine ⟨by omega, ?_⟩
          obtain ⟨op, hop, rfl, rfl⟩ := htouched
          intro e' he'
          rw [hset.carries v hc op hop e' he']
          omega
        have hrest := newer_run hrep' hnewer later
        refine ⟨?_, fun h => absurd (.inl ⟨⟨v, rfl⟩, htouched⟩) h⟩
        rintro ⟨e', he', hversion⟩
        have := hrest.2 e' he'
        omega
      · have hkept : (b.commit batch).2.contents ns key = some e := by
          rw [hset.applies v hc, foldl_apply_untouched fun op hop hsame => htouched ⟨op, hop, hsame⟩]
          exact he
        rw [ih hrep' hkept]
        simp [htouched]

def samplePut : WriteBatch := ⟨[], [.put ⟨"index"⟩ [1] [7]]⟩

end PaymentSdk.Storage
