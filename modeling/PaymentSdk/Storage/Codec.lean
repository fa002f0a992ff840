import PaymentSdk.Lib.BigEndian
import PaymentSdk.Lib.Store

/-!
# Physical keys and frames

All namespaces share one table. A physical key is the length of the namespace, its name, and the
logical key. A value is stored in a frame with the version of the commit that wrote it.
-/

open BigEndian Framing KvStore

namespace PaymentSdk.Storage

inductive ErrorKind where
  | conflict
  | unavailable
  | corruptData
  | invalidRequest
  | other
  deriving DecidableEq

/-- The error of a storage call. -/
structure Error where
  kind : ErrorKind
  message : String
  deriving DecidableEq

def Error.corrupt (message : String) : Error := ⟨.corruptData, message⟩

def Error.invalid (message : String) : Error := ⟨.invalidRequest, message⟩

abbrev Bytes := List UInt8

structure Namespace where
  name : String
  deriving DecidableEq

def Namespace.asBytes (n : Namespace) : Bytes := n.name.toByteArray.data.toList

/-! ## Keys -/

/-- The length and the name. -/
def namespacePrefix (n : Namespace) : Except Error Bytes :=
  if 2 ^ 32 ≤ n.asBytes.length then
    .error (.invalid "namespace length exceeds the storage key format limit")
  else if 2 ^ 64 ≤ 4 + n.asBytes.length then
    .error (.invalid "namespace length overflows the storage key format")
  else .ok (bigEndian 4 n.asBytes.length ++ n.asBytes)

def encodePhysicalKey (n : Namespace) (key : Key) : Except Error Bytes := do
  let encoded ← namespacePrefix n
  if 2 ^ 64 ≤ encoded.length + key.length then
    throw (.invalid "logical key length overflows the storage key format")
  return encoded ++ key

def decodePhysicalKey (physical : Bytes) (expected : Namespace) : Except Error Key :=
  if physical.length < 4 then .error (.corrupt "physical key is shorter than its header")
  else
    let offset := 4 + number (physical.take 4)
    if 2 ^ 64 ≤ offset then .error (.corrupt "physical key namespace length overflows")
    else if physical.length < offset then
      .error (.corrupt "physical key namespace length exceeds the encoded key")
    else if (physical.take offset).drop 4 ≠ expected.asBytes then
      .error (.corrupt "physical key does not belong to the requested namespace")
    else .ok (physical.drop offset)

/-! ## Frames -/

def valueMagic : Bytes := "W3KV".toUTF8.data.toList

def globalVersionMagic : Bytes := "W3GV".toUTF8.data.toList

def maxStoredPayloadBytes : Nat := 256 * 1024 * 1024

def validateFramePrefix (frame magic : Bytes) (description : String) : Except Error Bytes :=
  if frame.length < 4 then .error (.corrupt s!"{description} frame is shorter than its header")
  else if frame.take 4 ≠ magic then
    .error (.corrupt s!"{description} frame has invalid magic bytes")
  else .ok (frame.drop 4)

/-- A frame: the version of the write, and the payload. -/
structure StoredRecord where
  storageVersion : UInt64
  payload : Bytes
  deriving DecidableEq

namespace StoredRecord

def new (value : Bytes) (version : UInt64) : Except Error StoredRecord :=
  if version = 0 then
    .error (.invalid "storage version zero is reserved for an uninitialized database")
  else if maxStoredPayloadBytes < value.length then
    .error (.invalid "storage value exceeds the physical record size limit")
  else .ok ⟨version, value⟩

/-- The big-endian, fixed-width form: version, payload length, payload. -/
def body (r : StoredRecord) : Bytes :=
  bigEndian 8 r.storageVersion.toNat ++ bigEndian 8 r.payload.length ++ r.payload

def encode (r : StoredRecord) : Bytes := valueMagic ++ r.body

/-- The record at the start of a body, and how many bytes it takes. -/
def ofBody (body : Bytes) : Option (StoredRecord × Nat) :=
  let length := number ((body.drop 8).take 8)
  if body.length < 16 + length then none
  else some (⟨UInt64.ofNat (number (body.take 8)), (body.drop 16).take length⟩, 16 + length)

def tryFrom (frame : Bytes) : Except Error StoredRecord := do
  let body ← validateFramePrefix frame valueMagic "storage value"
  if body.length < 16 then
    throw (.corrupt "storage value record is shorter than its fixed fields")
  let declared := number ((body.drop 8).take 8)
  let actual := body.length - 16
  if maxStoredPayloadBytes < declared then
    throw (.corrupt "storage value record exceeds the physical record size limit")
  if declared ≠ actual then
    throw (.corrupt s!"storage value record payload length is {declared}, actual length is {actual}")
  match ofBody body with
  | none => throw (.corrupt "failed to decode storage value record: UnexpectedEnd")
  | some (record, bytesRead) =>
    if bytesRead ≠ body.length then
      throw (.corrupt "storage value record contains trailing bytes")
    if record.storageVersion = 0 then
      throw (.corrupt "storage value record has an invalid commit version")
    return record

/-- The stored value that callers see. -/
def stored (r : StoredRecord) : Stored Bytes := ⟨r.payload, r.storageVersion.toNat⟩

end StoredRecord

/-- The frame of the version counter. -/
structure GlobalVersion where
  version : UInt64
  deriving DecidableEq

namespace GlobalVersion

def new (version : UInt64) : Except Error GlobalVersion :=
  if version = 0 then .error (.invalid "persisted global version zero is not a valid commit version")
  else .ok ⟨version⟩

def encode (g : GlobalVersion) : Bytes := globalVersionMagic ++ bigEndian 8 g.version.toNat

def tryFrom (frame : Bytes) : Except Error GlobalVersion := do
  let body ← validateFramePrefix frame globalVersionMagic "global version"
  if body.length ≠ 8 then
    throw (.corrupt s!"global version record has length {body.length}, expected 8")
  let record : GlobalVersion := ⟨UInt64.ofNat (number body)⟩
  if record.version = 0 then
    throw (.corrupt "global version record has an invalid commit version")
  return record

end GlobalVersion

/-! ## Keys round trip -/

theorem asBytes_inj {n n' : Namespace} (h : n.asBytes = n'.asBytes) : n = n' := by
  have hbytes : n.name.toByteArray = n'.name.toByteArray := by
    ext1
    exact Array.toList_inj.mp h
  obtain ⟨name⟩ := n
  obtain ⟨name'⟩ := n'
  rw [show name = name' from String.toByteArray_inj.mp hbytes]

theorem namespacePrefix_ok {n : Namespace} (h : n.asBytes.length < 2 ^ 32) :
    namespacePrefix n = .ok (bigEndian 4 n.asBytes.length ++ n.asBytes) := by
  rw [namespacePrefix, if_neg (by omega), if_neg (by omega)]

theorem namespacePrefix_ok_iff {n : Namespace} {header : Bytes} :
    namespacePrefix n = .ok header ↔
      n.asBytes.length < 2 ^ 32 ∧ header = bigEndian 4 n.asBytes.length ++ n.asBytes := by
  by_cases h : n.asBytes.length < 2 ^ 32
  · rw [namespacePrefix_ok h, Except.ok.injEq, eq_comm]
    exact ⟨fun heq => ⟨h, heq⟩, And.right⟩
  · rw [namespacePrefix, if_pos (by omega)]
    exact ⟨fun heq => (nomatch heq), fun heq => absurd heq.1 h⟩

theorem encodePhysicalKey_ok_iff {n : Namespace} {key : Key} {physical : Bytes} :
    encodePhysicalKey n key = .ok physical ↔
      ∃ header, namespacePrefix n = .ok header ∧ header.length + key.length < 2 ^ 64 ∧
        physical = header ++ key := by
  unfold encodePhysicalKey
  cases namespacePrefix n with
  | error e => simp [bind, Except.bind]
  | ok header =>
    simp only [bind, Except.bind, pure, Except.pure, throw, throwThe, MonadExceptOf.throw]
    split_ifs with h
    · constructor
      · rintro ⟨⟩
      · rintro ⟨header', heq, hlt, -⟩
        cases heq
        omega
    · constructor
      · intro heq
        cases heq
        exact ⟨header, rfl, by omega, rfl⟩
      · rintro ⟨header', heq, -, rfl⟩
        cases heq
        rfl

theorem decodePhysicalKey_append {n : Namespace} {header : Bytes} (h : namespacePrefix n = .ok header)
    (key : Key) : decodePhysicalKey (header ++ key) n = .ok key := by
  obtain ⟨hlen, rfl⟩ := namespacePrefix_ok_iff.mp h
  have hsize : (bigEndian 4 n.asBytes.length).length = 4 := bigEndian_length 4 _
  have htake : ((bigEndian 4 n.asBytes.length ++ n.asBytes) ++ key).take 4 =
      bigEndian 4 n.asBytes.length := by
    rw [List.append_assoc, List.take_left' hsize]
  have hnumber : number (bigEndian 4 n.asBytes.length) = n.asBytes.length :=
    number_bigEndian (by simpa using hlen)
  have hheader : (bigEndian 4 n.asBytes.length ++ n.asBytes).length = 4 + n.asBytes.length := by simp
  have hoffset : ((bigEndian 4 n.asBytes.length ++ n.asBytes) ++ key).take (4 + n.asBytes.length) =
      bigEndian 4 n.asBytes.length ++ n.asBytes := List.take_left' hheader
  unfold decodePhysicalKey
  simp only [htake, hnumber]
  rw [if_neg (by simp), if_neg (by omega), if_neg (by simp), hoffset,
    List.drop_left' hsize, if_neg (by simp), List.drop_left' hheader]

/-! ## Frames round trip -/

theorem validateFramePrefix_append {magic : Bytes} (h : magic.length = 4) (body : Bytes)
    (description : String) : validateFramePrefix (magic ++ body) magic description = .ok body := by
  unfold validateFramePrefix
  rw [if_neg (by simp; omega), List.take_left' h, if_neg (by simp), List.drop_left' h]

theorem ofBody_append {r : StoredRecord} (h : r.payload.length < 2 ^ 64) (rest : Bytes) :
    StoredRecord.ofBody (r.body ++ rest) = some (r, r.body.length) := by
  have h8 (x : Nat) : (bigEndian 8 x).length = 8 := bigEndian_length 8 x
  have hversion : r.storageVersion.toNat < 256 ^ 8 := r.storageVersion.toNat_lt
  have hlen : number (bigEndian 8 r.payload.length) = r.payload.length := number_bigEndian h
  have hbody : r.body ++ rest =
      bigEndian 8 r.storageVersion.toNat ++ (bigEndian 8 r.payload.length ++ (r.payload ++ rest)) := by
    simp [StoredRecord.body]
  have hsize : r.body.length = 16 + r.payload.length := by
    simp [StoredRecord.body]
    omega
  have hmid : ((r.body ++ rest).drop 8).take 8 = bigEndian 8 r.payload.length := by
    rw [hbody, List.drop_left' (h8 _), List.take_left' (h8 _)]
  have hdrop : (r.body ++ rest).drop 16 = r.payload ++ rest := by
    rw [hbody, ← List.append_assoc, List.drop_left' (by simp)]
  have htake : (r.body ++ rest).take 8 = bigEndian 8 r.storageVersion.toNat := by
    rw [hbody, List.take_left' (h8 _)]
  unfold StoredRecord.ofBody
  simp only [hmid, hlen, htake, hdrop, number_bigEndian hversion, List.take_left, UInt64.ofNat_toNat]
  rw [if_neg (by rw [List.length_append]; omega), hsize]

theorem tryFrom_encode {value : Bytes} {version : UInt64} {r : StoredRecord}
    (h : StoredRecord.new value version = .ok r) : StoredRecord.tryFrom r.encode = .ok r := by
  unfold StoredRecord.new at h
  split_ifs at h with hzero hmax
  cases h
  have hmax' : value.length ≤ maxStoredPayloadBytes := by omega
  have hfits : value.length < 2 ^ 64 := by
    unfold maxStoredPayloadBytes at hmax'
    omega
  set r : StoredRecord := ⟨version, value⟩ with hr
  have hsize : r.body.length = 16 + value.length := by simp [hr, StoredRecord.body]; omega
  have hmid : number ((r.body.drop 8).take 8) = value.length := by
    have h8 (x : Nat) : (bigEndian 8 x).length = 8 := bigEndian_length 8 x
    rw [StoredRecord.body, List.append_assoc, List.drop_left' (h8 _), List.take_left' (h8 _)]
    exact number_bigEndian hfits
  have hbody := @ofBody_append r hfits []
  rw [List.append_nil] at hbody
  unfold StoredRecord.tryFrom
  rw [StoredRecord.encode, validateFramePrefix_append (by decide)]
  simp only [bind, Except.bind, hmid, hsize, hbody, pure, Except.pure]
  rw [if_neg (by omega), if_neg (by omega), if_neg (by simp), if_neg (by simp), if_neg hzero]

theorem globalVersion_tryFrom_encode {version : UInt64} (h : version ≠ 0) :
    GlobalVersion.tryFrom (GlobalVersion.encode ⟨version⟩) = .ok ⟨version⟩ := by
  have hlt : version.toNat < 256 ^ 8 := version.toNat_lt
  unfold GlobalVersion.tryFrom
  rw [GlobalVersion.encode, validateFramePrefix_append (by decide)]
  simp [bind, Except.bind, number_bigEndian hlt, h, pure, Except.pure]

end PaymentSdk.Storage
