import PaymentSdk.Lib.Checked
import PaymentSdk.Storage.Codec

/-!
# Exact keys and frames

The decoders with every slice that they take, on any bytes. They end with the key or the record
that the bytes are the encoding of, or with an error, and never out of bounds.
-/

open BigEndian Framing KvStore Checked

namespace PaymentSdk.Storage

/-- The library's codec for one type. Its errors are texts. -/
structure Bincode (α : Type) where
  encodeToVec : α → Except String Bytes
  decodeFromSlice : Bytes → Except String (α × Nat)

/-- What is written for a value is known, and is read back whatever follows it. -/
structure Bincode.Writes {α : Type} (b : Bincode α) (wire : α → Bytes) (Sized : α → Prop) : Prop where
  encode : ∀ a, Sized a → b.encodeToVec a = .ok (wire a)
  decode : ∀ a rest, Sized a → b.decodeFromSlice (wire a ++ rest) = .ok (a, (wire a).length)

/-- The big-endian, fixed-width form. -/
def GlobalVersion.body (g : GlobalVersion) : Bytes := bigEndian 8 g.version.toNat

def StoredRecord.Sized (r : StoredRecord) : Prop := r.payload.length < 2 ^ 64

/-- How a decoding ends without a result. -/
inductive DecodeStop where
  | error (e : Error)
  | outOfBounds
  deriving DecidableEq

namespace Sliced

def corrupt {α : Type} (message : String) : Except DecodeStop α := .error (.error (.corrupt message))

/-- Indexing a range, which panics outside the bytes. -/
def slice (bytes : Bytes) (start stop : Nat) : Except DecodeStop Bytes :=
  if start ≤ stop ∧ stop ≤ bytes.length then .ok ((bytes.take stop).drop start) else .error .outOfBounds

/-- A number that takes exactly so many bytes. -/
def fixed (width : Nat) (bytes : Bytes) (message : String) : Except DecodeStop Nat :=
  if bytes.length = width then .ok (number bytes) else corrupt message

def decodePhysicalKey (physical : Bytes) (expected : Namespace) : Except DecodeStop Key := do
  if physical.length < 4 then corrupt "physical key is shorter than its header"
  let namespaceLen ← fixed 4 (← slice physical 0 4) "invalid encoded u32 length"
  let offset := 4 + namespaceLen
  if 2 ^ 64 ≤ offset then corrupt "physical key namespace length overflows"
  if physical.length < offset then corrupt "physical key namespace length exceeds the encoded key"
  if (← slice physical 4 offset) ≠ expected.asBytes then
    corrupt "physical key does not belong to the requested namespace"
  slice physical offset physical.length

def validateFramePrefix (frame magic : Bytes) (description : String) : Except DecodeStop Bytes := do
  if frame.length < 4 then corrupt s!"{description} frame is shorter than its header"
  if (← slice frame 0 4) ≠ magic then corrupt s!"{description} frame has invalid magic bytes"
  slice frame 4 frame.length

def encodeRecord (b : Bincode StoredRecord) (r : StoredRecord) : Except Error Bytes :=
  match b.encodeToVec r with
  | .error e => .error ⟨.other, s!"failed to encode the storage value frame: {e}"⟩
  | .ok body => .ok (valueMagic ++ body)

def tryFromRecord (b : Bincode StoredRecord) (frame : Bytes) : Except DecodeStop StoredRecord := do
  let body ← validateFramePrefix frame valueMagic "storage value"
  if body.length < 16 then corrupt "storage value record is shorter than its fixed fields"
  let declared ← fixed 8 (← slice body 8 16) "invalid encoded u64 length"
  let actual := body.length - 16
  if maxStoredPayloadBytes < declared then
    corrupt "storage value record exceeds the physical record size limit"
  if declared ≠ actual then
    corrupt s!"storage value record payload length is {declared}, actual length is {actual}"
  match b.decodeFromSlice body with
  | .error e => corrupt s!"failed to decode storage value record: {e}"
  | .ok (record, bytesRead) => do
    if bytesRead ≠ body.length then corrupt "storage value record contains trailing bytes"
    if record.storageVersion = 0 then corrupt "storage value record has an invalid commit version"
    return record

def encodeVersion (b : Bincode GlobalVersion) (g : GlobalVersion) : Except Error Bytes :=
  match b.encodeToVec g with
  | .error e => .error ⟨.other, s!"failed to encode the global version frame: {e}"⟩
  | .ok body => .ok (globalVersionMagic ++ body)

def tryFromVersion (b : Bincode GlobalVersion) (frame : Bytes) : Except DecodeStop GlobalVersion := do
  let body ← validateFramePrefix frame globalVersionMagic "global version"
  if body.length ≠ 8 then corrupt s!"global version record has length {body.length}, expected 8"
  match b.decodeFromSlice body with
  | .error e => corrupt s!"failed to decode global version record: {e}"
  | .ok (record, bytesRead) => do
    if bytesRead ≠ body.length then corrupt "global version record contains trailing bytes"
    if record.version = 0 then corrupt "global version record has an invalid commit version"
    return record

/-! ## Steps -/

theorem slice_ok {bytes : Bytes} {start stop : Nat} (hle : start ≤ stop) (hstop : stop ≤ bytes.length) :
    slice bytes start stop = .ok ((bytes.take stop).drop start) := if_pos ⟨hle, hstop⟩

theorem slice_end (bytes : Bytes) {start : Nat} (h : start ≤ bytes.length) :
    slice bytes start bytes.length = .ok (bytes.drop start) := by
  rw [slice_ok h le_rfl, List.take_length]

theorem fixed_ok {width : Nat} {bytes : Bytes} (h : bytes.length = width) (message : String) :
    fixed width bytes message = .ok (number bytes) := if_pos h

theorem decodePhysicalKey_eq (physical : Bytes) (expected : Namespace) :
    decodePhysicalKey physical expected = (Storage.decodePhysicalKey physical expected).mapError .error := by
  unfold decodePhysicalKey Storage.decodePhysicalKey
  by_cases hshort : physical.length < 4
  · simp [hshort, corrupt, bind, Except.bind, Except.mapError]
  · have hheader := slice_ok (Nat.zero_le 4) (Nat.not_lt.mp hshort)
    rw [List.drop_zero] at hheader
    have hlen : (physical.take 4).length = 4 := by
      rw [List.length_take]
      omega
    simp only [hshort, if_false, hheader, fixed_ok hlen, bind, Except.bind]
    by_cases hwide : 2 ^ 64 ≤ 4 + number (physical.take 4)
    · rw [if_pos hwide, if_pos hwide]
      rfl
    · rw [if_neg hwide, if_neg hwide]
      by_cases hlong : physical.length < 4 + number (physical.take 4)
      · rw [if_pos hlong, if_pos hlong]
        rfl
      · rw [if_neg hlong, if_neg hlong, slice_ok (by omega) (by omega), slice_end _ (by omega)]
        dsimp only
        split_ifs <;> rfl

theorem validateFramePrefix_eq (frame magic : Bytes) (description : String) :
    validateFramePrefix frame magic description =
      (Storage.validateFramePrefix frame magic description).mapError .error := by
  unfold validateFramePrefix Storage.validateFramePrefix
  by_cases hshort : frame.length < 4
  · simp [hshort, corrupt, bind, Except.bind, Except.mapError]
  · have hheader := slice_ok (Nat.zero_le 4) (Nat.not_lt.mp hshort)
    rw [List.drop_zero] at hheader
    simp only [hshort, if_false, hheader, bind, Except.bind, slice_end _ (Nat.not_lt.mp hshort)]
    split_ifs <;> rfl

end Sliced

/-! ## Bodies -/

theorem body_of_declared {body : Bytes} (hsize : 16 ≤ body.length)
    (hdeclared : number ((body.drop 8).take 8) = body.length - 16) :
    (StoredRecord.mk (.ofNat (number (body.take 8))) (body.drop 16)).body = body := by
  have hversion : (body.take 8).length = 8 := by
    rw [List.length_take]
    omega
  have hlength : ((body.drop 8).take 8).length = 8 := by
    rw [List.length_take, List.length_drop]
    omega
  have hnumber : (UInt64.ofNat (number (body.take 8))).toNat = number (body.take 8) := by
    have hlt := number_lt (body.take 8)
    rw [hversion] at hlt
    exact UInt64.toNat_ofNat_of_lt' hlt
  have hfirst : bigEndian 8 (number (body.take 8)) = body.take 8 := by
    conv_rhs => rw [← bigEndian_number (body.take 8), hversion]
  have hsecond : bigEndian 8 (body.length - 16) = (body.drop 8).take 8 := by
    conv_rhs => rw [← bigEndian_number ((body.drop 8).take 8), hlength, hdeclared]
  rw [StoredRecord.body, hnumber, hfirst, List.length_drop, hsecond, ← List.drop_drop (i := 8) (j := 8),
    List.append_assoc, List.take_append_drop, List.take_append_drop]

theorem ofBody_of_declared {body : Bytes} (hsize : 16 ≤ body.length)
    (hdeclared : number ((body.drop 8).take 8) = body.length - 16) :
    StoredRecord.ofBody body = some (⟨.ofNat (number (body.take 8)), body.drop 16⟩, body.length) := by
  unfold StoredRecord.ofBody
  simp only [hdeclared]
  have htake : (body.drop 16).take (body.length - 16) = body.drop 16 :=
    List.take_of_length_le (by rw [List.length_drop])
  rw [if_neg (by omega), Nat.add_sub_cancel' hsize, htake]

/-- The length checks leave the library nothing to refuse. -/
theorem Sliced.tryFromRecord_eq {b : Bincode StoredRecord} (h : b.Writes StoredRecord.body StoredRecord.Sized)
    (frame : Bytes) : tryFromRecord b frame = (StoredRecord.tryFrom frame).mapError .error := by
  unfold tryFromRecord StoredRecord.tryFrom
  rw [validateFramePrefix_eq]
  cases Storage.validateFramePrefix frame valueMagic "storage value" with
  | error e => rfl
  | ok body =>
    by_cases hshort : body.length < 16
    · simp [hshort, corrupt, bind, Except.bind, Except.mapError, throw, throwThe, MonadExceptOf.throw]
    · have hlen : ((body.take 16).drop 8).length = 8 := by
        rw [List.length_drop, List.length_take]
        omega
      have hslice : (body.take 16).drop 8 = (body.drop 8).take 8 := by rw [List.drop_take]
      rw [hslice] at hlen
      simp only [bind, Except.bind, Except.mapError, hshort, if_false,
        slice_ok (show 8 ≤ 16 by omega) (Nat.not_lt.mp hshort), hslice, fixed_ok hlen]
      by_cases hmax : maxStoredPayloadBytes < number ((body.drop 8).take 8)
      · simp only [hmax, if_true]
        rfl
      · simp only [hmax, if_false]
        by_cases hdeclared : number ((body.drop 8).take 8) = body.length - 16
        · have hsized : (StoredRecord.mk (.ofNat (number (body.take 8))) (body.drop 16)).Sized := by
            have := Nat.not_lt.mp hmax
            rw [hdeclared] at this
            unfold maxStoredPayloadBytes at this
            rw [StoredRecord.Sized, List.length_drop]
            omega
          have hread := h.decode _ [] hsized
          rw [List.append_nil, body_of_declared (Nat.not_lt.mp hshort) hdeclared] at hread
          rw [if_neg (not_not.mpr hdeclared), if_neg (not_not.mpr hdeclared)]
          simp only [hread, ofBody_of_declared (Nat.not_lt.mp hshort) hdeclared, ne_eq, not_true_eq_false,
            if_false]
          split_ifs <;> rfl
        · rw [if_pos hdeclared, if_pos hdeclared]
          rfl

theorem Sliced.tryFromVersion_eq {b : Bincode GlobalVersion} (h : b.Writes GlobalVersion.body fun _ => True)
    (frame : Bytes) : tryFromVersion b frame = (GlobalVersion.tryFrom frame).mapError .error := by
  unfold tryFromVersion GlobalVersion.tryFrom
  rw [validateFramePrefix_eq]
  cases Storage.validateFramePrefix frame globalVersionMagic "global version" with
  | error e => rfl
  | ok body =>
    by_cases hsize : body.length = 8
    · have hlt := number_lt body
      rw [hsize] at hlt
      have hbody : (GlobalVersion.mk (.ofNat (number body))).body = body := by
        rw [GlobalVersion.body, UInt64.toNat_ofNat_of_lt' hlt, ← hsize, bigEndian_number]
      have hread := h.decode ⟨.ofNat (number body)⟩ [] trivial
      rw [List.append_nil, hbody] at hread
      simp only [bind, Except.bind, Except.mapError, hsize, ne_eq, not_true_eq_false, if_false, hread]
      split_ifs <;> rfl
    · simp only [bind, Except.bind, Except.mapError, hsize, ne_eq, not_false_eq_true, if_true]
      rfl

/-! ## What is accepted -/

theorem validateFramePrefix_ok_iff {frame magic body : Bytes} {description : String} (h : magic.length = 4) :
    validateFramePrefix frame magic description = .ok body ↔ frame = magic ++ body := by
  constructor
  · intro hok
    unfold validateFramePrefix at hok
    split_ifs at hok with hshort hmagic
    cases hok
    rw [← not_not.mp hmagic, List.take_append_drop]
  · rintro rfl
    exact validateFramePrefix_append h body description

theorem StoredRecord.tryFrom_ok_iff {frame : Bytes} {r : StoredRecord} :
    tryFrom frame = .ok r ↔
      r.storageVersion ≠ 0 ∧ r.payload.length ≤ maxStoredPayloadBytes ∧ frame = r.encode := by
  constructor
  · intro h
    unfold tryFrom at h
    obtain ⟨body, hbody, hrest⟩ := bind_ok.mp h
    obtain rfl := (validateFramePrefix_ok_iff (by decide)).mp hbody
    simp only [bind, Except.bind, pure, Except.pure, throw, throwThe, MonadExceptOf.throw] at hrest
    split_ifs at hrest with hshort hmax hdeclared
    rw [ofBody_of_declared (Nat.not_lt.mp hshort) (not_not.mp hdeclared)] at hrest
    simp only [ne_eq, not_true_eq_false, if_false] at hrest
    split_ifs at hrest with hzero
    cases hrest
    refine ⟨hzero, ?_, ?_⟩
    · have := not_not.mp hdeclared
      rw [List.length_drop]
      omega
    · rw [encode, body_of_declared (Nat.not_lt.mp hshort) (not_not.mp hdeclared)]
  · rintro ⟨hzero, hmax, rfl⟩
    have hnew : StoredRecord.new r.payload r.storageVersion = .ok r := by
      rw [StoredRecord.new, if_neg hzero, if_neg (Nat.not_lt.mpr hmax)]
    exact tryFrom_encode hnew

theorem GlobalVersion.tryFrom_ok_iff {frame : Bytes} {g : GlobalVersion} :
    tryFrom frame = .ok g ↔ g.version ≠ 0 ∧ frame = g.encode := by
  constructor
  · intro h
    unfold tryFrom at h
    obtain ⟨body, hbody, hrest⟩ := bind_ok.mp h
    obtain rfl := (validateFramePrefix_ok_iff (by decide)).mp hbody
    simp only [bind, Except.bind, pure, Except.pure, throw, throwThe, MonadExceptOf.throw] at hrest
    split_ifs at hrest with hsize hzero
    cases hrest
    refine ⟨hzero, ?_⟩
    have hlt := number_lt body
    rw [not_not.mp hsize] at hlt
    rw [encode, UInt64.toNat_ofNat_of_lt' hlt]
    conv_lhs => rw [← bigEndian_number body, not_not.mp hsize]
  · rintro ⟨hzero, rfl⟩
    exact globalVersion_tryFrom_encode hzero

theorem mapError_ne_outOfBounds {α : Type} (x : Except Error α) :
    x.mapError DecodeStop.error ≠ .error .outOfBounds := by
  cases x <;> simp [Except.mapError]

theorem not_decoded {n n' : Namespace} {key : Key} {physical : Bytes}
    (h : encodePhysicalKey n key = .ok physical) (hne : n ≠ n') (key' : Key) :
    decodePhysicalKey physical n' ≠ .ok key' := by
  obtain ⟨header, hheader, -, rfl⟩ := encodePhysicalKey_ok_iff.mp h
  obtain ⟨hlen, rfl⟩ := namespacePrefix_ok_iff.mp hheader
  have hfour : (bigEndian 4 n.asBytes.length).length = 4 := bigEndian_length 4 _
  have hnumber : number (bigEndian 4 n.asBytes.length) = n.asBytes.length :=
    number_bigEndian (by simpa using hlen)
  have hname : ((bigEndian 4 n.asBytes.length ++ n.asBytes ++ key).take (4 + n.asBytes.length)).drop 4 =
      n.asBytes := by
    have hsize : (bigEndian 4 n.asBytes.length ++ n.asBytes).length = 4 + n.asBytes.length := by simp
    rw [List.take_left' hsize, List.drop_left' hfour]
  intro hok
  unfold decodePhysicalKey at hok
  simp only [List.append_assoc, List.take_left' hfour, hnumber] at hok hname
  rw [hname] at hok
  split_ifs at hok with hshort hwide hlong hother
  exact hne (asBytes_inj (not_not.mp hother))

/-! ## Both ways -/

/-- Decoding ends in bounds. What it accepts is what the encoder writes for a valid value, and the
result is written as the same bytes again. -/
structure ReadsBack {α : Type} (decode : Bytes → Except DecodeStop α) (encode : α → Except Error Bytes)
    (Valid : α → Prop) : Prop where
  inBounds : ∀ frame, decode frame ≠ .error .outOfBounds
  accepts : ∀ frame, (∃ a, decode frame = .ok a) ↔ ∃ a, Valid a ∧ encode a = .ok frame
  again : ∀ frame a, decode frame = .ok a → encode a = .ok frame

theorem readsBack_of_ok_iff {α : Type} {decode : Bytes → Except DecodeStop α} {encode : α → Except Error Bytes}
    {Valid : α → Prop} (hbounds : ∀ frame, decode frame ≠ .error .outOfBounds)
    (hok : ∀ frame a, decode frame = .ok a ↔ Valid a ∧ encode a = .ok frame) : ReadsBack decode encode Valid where
  inBounds := hbounds
  accepts frame := exists_congr (hok frame)
  again frame a h := ((hok frame a).mp h).2

variable {records : Bincode StoredRecord} {versions : Bincode GlobalVersion}

theorem records_readBack (h : records.Writes StoredRecord.body StoredRecord.Sized) :
    ReadsBack (Sliced.tryFromRecord records) (Sliced.encodeRecord records) fun r =>
      r.storageVersion ≠ 0 ∧ r.payload.length ≤ maxStoredPayloadBytes := by
  apply readsBack_of_ok_iff
  · intro frame
    rw [Sliced.tryFromRecord_eq h]
    exact mapError_ne_outOfBounds _
  · intro frame r
    rw [Sliced.tryFromRecord_eq h, mapError_ok, StoredRecord.tryFrom_ok_iff, ← and_assoc]
    refine and_congr_right fun hvalid => ?_
    have hsized : r.Sized := Nat.lt_of_le_of_lt hvalid.2 (by decide)
    rw [Sliced.encodeRecord, h.encode r hsized, StoredRecord.encode, Except.ok.injEq, eq_comm]

theorem versions_readBack (h : versions.Writes GlobalVersion.body fun _ => True) :
    ReadsBack (Sliced.tryFromVersion versions) (Sliced.encodeVersion versions) fun g => g.version ≠ 0 := by
  apply readsBack_of_ok_iff
  · intro frame
    rw [Sliced.tryFromVersion_eq h]
    exact mapError_ne_outOfBounds _
  · intro frame g
    rw [Sliced.tryFromVersion_eq h, mapError_ok, GlobalVersion.tryFrom_ok_iff, Sliced.encodeVersion,
      h.encode g trivial, GlobalVersion.encode, GlobalVersion.body, Except.ok.injEq, eq_comm (a := frame)]

theorem keys_readBack {n : Namespace} {key : Key} {physical : Bytes}
    (h : encodePhysicalKey n key = .ok physical) (n' : Namespace) :
    ((∃ key', Sliced.decodePhysicalKey physical n' = .ok key') ↔ n = n') ∧
      Sliced.decodePhysicalKey physical n = .ok key := by
  have hown : Sliced.decodePhysicalKey physical n = .ok key := by
    obtain ⟨header, hheader, -, rfl⟩ := encodePhysicalKey_ok_iff.mp h
    rw [Sliced.decodePhysicalKey_eq, mapError_ok]
    exact decodePhysicalKey_append hheader key
  refine ⟨⟨?_, ?_⟩, hown⟩
  · rintro ⟨key', hkey'⟩
    by_contra hne
    rw [Sliced.decodePhysicalKey_eq, mapError_ok] at hkey'
    exact not_decoded h hne key' hkey'
  · rintro rfl
    exact ⟨key, hown⟩

/-- **Frames and keys.** Of all bytes, exactly the encodings of valid records and versions are
accepted, and a physical key is read back under its own namespace only. -/
theorem codecs_exact (hrecords : records.Writes StoredRecord.body StoredRecord.Sized)
    (hversions : versions.Writes GlobalVersion.body fun _ => True) :
    (ReadsBack (Sliced.tryFromRecord records) (Sliced.encodeRecord records) fun r =>
        r.storageVersion ≠ 0 ∧ r.payload.length ≤ maxStoredPayloadBytes) ∧
      (ReadsBack (Sliced.tryFromVersion versions) (Sliced.encodeVersion versions) fun g => g.version ≠ 0) ∧
      (∀ physical n, Sliced.decodePhysicalKey physical n ≠ .error .outOfBounds) ∧
      ∀ n n' key physical, encodePhysicalKey n key = .ok physical →
        ((∃ key', Sliced.decodePhysicalKey physical n' = .ok key') ↔ n = n') ∧
          Sliced.decodePhysicalKey physical n = .ok key := by
  refine ⟨records_readBack hrecords, versions_readBack hversions, ?_, ?_⟩
  · intro physical n
    rw [Sliced.decodePhysicalKey_eq]
    exact mapError_ne_outOfBounds _
  · intro n n' key physical h
    exact keys_readBack h n'

/-! ## The library's format -/

def standardRecords : Bincode StoredRecord where
  encodeToVec r := .ok r.body
  decodeFromSlice body := (StoredRecord.ofBody body).elim (.error "UnexpectedEnd") .ok

def standardVersions : Bincode GlobalVersion where
  encodeToVec g := .ok g.body
  decodeFromSlice body :=
    if body.length < 8 then .error "UnexpectedEnd" else .ok (⟨.ofNat (number (body.take 8))⟩, 8)

theorem standardRecords_writes : standardRecords.Writes StoredRecord.body StoredRecord.Sized where
  encode _ _ := rfl
  decode r rest h := by simp only [standardRecords, ofBody_append h rest, Option.elim_some]

theorem standardVersions_writes : standardVersions.Writes GlobalVersion.body fun _ => True where
  encode _ _ := rfl
  decode g rest _ := by
    have h8 : g.body.length = 8 := bigEndian_length 8 _
    have hversion : g.version.toNat < 256 ^ 8 := g.version.toNat_lt
    simp only [standardVersions]
    rw [if_neg (by rw [List.length_append]; omega), List.take_left' h8, GlobalVersion.body,
      number_bigEndian hversion, UInt64.ofNat_toNat, bigEndian_length]

theorem codecs_exact_standard :
    (∃ r, Sliced.tryFromRecord standardRecords
        [87, 51, 75, 86, 0, 0, 0, 0, 0, 0, 0, 42, 0, 0, 0, 0, 0, 0, 0, 3, 0, 1, 255] = .ok r) ∧
      (∃ g, Sliced.tryFromVersion standardVersions [87, 51, 71, 86, 0, 0, 0, 0, 0, 0, 0, 42] = .ok g) ∧
      Sliced.decodePhysicalKey [0, 0, 0, 1, 97, 98, 99] ⟨"a"⟩ = .ok [98, 99] := by
  obtain ⟨hrecords, hversions, -, hkeys⟩ := codecs_exact standardRecords_writes standardVersions_writes
  refine ⟨(hrecords.accepts _).mpr ⟨⟨42, [0, 1, 255]⟩, by decide, by decide⟩,
    (hversions.accepts _).mpr ⟨⟨42⟩, by decide, by decide⟩, ?_⟩
  exact (hkeys ⟨"a"⟩ ⟨"a"⟩ [98, 99] _ (by decide)).2

end PaymentSdk.Storage
