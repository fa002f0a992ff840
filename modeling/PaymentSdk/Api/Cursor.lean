import PaymentSdk.Ethereum.Wire
import PaymentSdk.Lib.Base64
import PaymentSdk.Redb.Repository.Spec

/-!
# The cursor of a history

A page of a history names where the next one begins. The client has it as a text, and sends it
back as it is.
-/

open Checked

namespace PaymentSdk.Api

open Ethereum.Wire (utf8)

inductive ErrorKind where
  | invalidRequest
  | notFound
  | conflict
  | transaction
  | unavailable
  | invalidResponse
  deriving DecidableEq

/-- The error of a request, with what is known of the transactions that it was about. -/
structure ApiError where
  kind : ErrorKind
  message : String
  transactionIds : List String := []
  failedIndex : Option Nat := none
  ambiguousTransactionId : Option String := none
  deriving DecidableEq

def ApiError.invalidRequest (message : String) : ApiError := { kind := .invalidRequest, message }

def ApiError.invalidResponse (message : String) : ApiError := { kind := .invalidResponse, message }

/-! ## On the wire -/

structure ParentBlock where
  position : UInt64
  hash : String
  deriving DecidableEq

structure Block where
  position : UInt64
  height : UInt64
  hash : String
  parent : Option ParentBlock
  deriving DecidableEq

/-- `hex::encode`. -/
def hexText (bytes : List UInt8) : String := String.ofList (Hex.encode bytes)

/-- `Block::from`. -/
def Block.ofRef (value : BlockRef) : Block where
  position := value.position.val
  height := value.height.val
  hash := hexText value.hash.bytes
  parent := value.parent.map fun parent => ⟨parent.position.val, hexText parent.hash.bytes⟩

/-- A block as a cursor carries it: the fields of the API, and the timestamp besides. -/
structure CursorBlock where
  block : Block
  timestamp : Option UInt64
  deriving DecidableEq

/-- What the text of a cursor stands for. -/
structure HistoryCursor where
  chain : Text
  network : Text
  transaction : Text
  height : UInt64
  checkpoint : Option CursorBlock
  deriving DecidableEq

/-- The JSON of a cursor, which another crate derives. -/
structure Codec where
  toVec : HistoryCursor → Option (List UInt8)
  fromSlice : List UInt8 → Option HistoryCursor

/-- What is written is read back. -/
def Codec.Exact (codec : Codec) : Prop := ∀ c bytes, codec.toVec c = some bytes → codec.fromSlice bytes = some c

def invalidCursor : ApiError := .invalidRequest "history cursor is invalid"

/-- Every defect of a cursor is told in the same words. -/
def orInvalid {α : Type} : Option α → Except ApiError α
  | some a => .ok a
  | none => .error invalidCursor

namespace CursorBlock

def decodeHash (value : String) : Except ApiError BlockHash := do
  let bytes ← orInvalid (Hex.decodePairs (utf8 value.toList))
  require (bytes ≠ []) invalidCursor
  pure ⟨bytes⟩

def decodeParent : Option ParentBlock → Except ApiError (Option BlockParent)
  | none => .ok none
  | some parent => do
    let hash ← decodeHash parent.hash
    pure (some ⟨⟨parent.position⟩, hash⟩)

def decodeBlock : Option CursorBlock → Except ApiError (Option BlockRef)
  | none => .ok none
  | some checkpoint => do
    let hash ← decodeHash checkpoint.block.hash
    let parent ← decodeParent checkpoint.block.parent
    pure (some ⟨⟨checkpoint.block.position⟩, ⟨checkpoint.block.height⟩, hash, parent, checkpoint.timestamp⟩)

end CursorBlock

namespace HistoryCursor

def ofIndex (cursor : Redb.HistoryCursor) : HistoryCursor where
  chain := cursor.position.transaction.scope.chain.name
  network := cursor.position.transaction.scope.network
  transaction := cursor.position.transaction.value
  height := cursor.position.height.val
  checkpoint := cursor.checkpoint.map fun block => ⟨.ofRef block, block.timestamp⟩

def encode (codec : Codec) (cursor : Redb.HistoryCursor) : Except ApiError String :=
  match codec.toVec (ofIndex cursor) with
  | some bytes => .ok (String.ofList (Base64.encode bytes))
  | none => .error (.invalidResponse "history cursor could not be encoded")

/-- What a cursor on the wire stands for. -/
def toIndex (cursor : HistoryCursor) : Except ApiError Redb.HistoryCursor := do
  require (cursor.chain.str ≠ "" ∧ cursor.network.str ≠ "" ∧ cursor.transaction.str ≠ "") invalidCursor
  let checkpoint ← CursorBlock.decodeBlock cursor.checkpoint
  pure ⟨checkpoint, ⟨cursor.height⟩, ⟨⟨cursor.chain⟩, cursor.network⟩, cursor.transaction⟩

def decode (codec : Codec) (value : String) : Except ApiError Redb.HistoryCursor := do
  let bytes ← orInvalid (Base64.decode value.toList)
  let cursor ← orInvalid (codec.fromSlice bytes)
  cursor.toIndex

end HistoryCursor

/-! ## Pages -/

/-- The query of a history request, as the client writes it. -/
structure HistoryQuery where
  cursor : Option String
  limit : Nat

/-- The query once its cursor has been read. -/
structure HistoryRequest where
  after : Option Redb.HistoryCursor
  limit : Nat
  deriving DecidableEq

/-- No text, no cursor. -/
def decodeCursor (codec : Codec) : Option String → Except ApiError (Option Redb.HistoryCursor)
  | none => .ok none
  | some value => some <$> HistoryCursor.decode codec value

/-- `HistoryRequest::try_from`. -/
def HistoryQuery.request (codec : Codec) (query : HistoryQuery) : Except ApiError HistoryRequest := do
  require (¬ (query.limit = 0 ∨ 1000 < query.limit)) (.invalidRequest "history limit must be between 1 and 1000")
  let after ← decodeCursor codec query.cursor
  pure ⟨after, query.limit⟩

/-- The cursor of `TransactionPage::try_from`. -/
def nextCursor (codec : Codec) : Option Redb.HistoryCursor → Except ApiError (Option String)
  | none => .ok none
  | some cursor => some <$> HistoryCursor.encode codec cursor

/-! ## What is accepted -/

/-- The parts that a cursor on the wire must not leave empty. -/
structure Whole (cursor : Redb.HistoryCursor) : Prop where
  chain : cursor.position.transaction.scope.chain.name.str ≠ ""
  network : cursor.position.transaction.scope.network.str ≠ ""
  transaction : cursor.position.transaction.value.str ≠ ""
  hash : ∀ block, cursor.checkpoint = some block → block.hash.bytes ≠ []
  parent : ∀ block parent, cursor.checkpoint = some block → block.parent = some parent → parent.hash.bytes ≠ []

theorem orInvalid_ok {α : Type} {x : Option α} {a : α} : orInvalid x = .ok a ↔ x = some a := by
  cases x <;> simp [orInvalid]

theorem orInvalid_error {α : Type} {x : Option α} {e : ApiError} (h : orInvalid x = .error e) : e = invalidCursor := by
  cases x with
  | none =>
    cases h
    rfl
  | some _ => cases h

theorem decodePairs_encode (bytes : List UInt8) : Hex.decodePairs (utf8 (Hex.encode bytes)) = some bytes := by
  have hdigit : ∀ n < 16, String.utf8EncodeChar (Hex.digit n) = [.ofNat (Hex.digit n).toNat] ∧
      Hex.nibble (.ofNat (Hex.digit n).toNat) = some n := by decide
  induction bytes with
  | nil => rfl
  | cons byte bytes ih =>
    have hbyte := byte.toNat_lt
    obtain ⟨hhigh, hm⟩ := hdigit (byte.toNat / 16) (by omega)
    obtain ⟨hlow, hn⟩ := hdigit (byte.toNat % 16) (by omega)
    have hutf8 : utf8 (Hex.encode (byte :: bytes)) = .ofNat (Hex.digit (byte.toNat / 16)).toNat ::
        .ofNat (Hex.digit (byte.toNat % 16)).toNat :: utf8 (Hex.encode bytes) := by
      simp [utf8, Hex.encode, hhigh, hlow]
    have hvalue : 16 * (byte.toNat / 16) + byte.toNat % 16 = byte.toNat := by omega
    rw [hutf8, Hex.decodePairs, hm, hn, ih]
    simp only [Option.bind_eq_bind, Option.bind_some, Option.pure_def]
    rw [hvalue, UInt8.ofNat_toNat]

namespace CursorBlock

theorem decodeHash_ok {value : String} {hash : BlockHash} : decodeHash value = .ok hash ↔
    Hex.decodePairs (utf8 value.toList) = some hash.bytes ∧ hash.bytes ≠ [] := by
  unfold decodeHash
  simp only [bind_ok, orInvalid_ok, require_ok, pure_ok]
  constructor
  · rintro ⟨bytes, hbytes, _, hne, rfl⟩
    exact ⟨hbytes, hne⟩
  · rintro ⟨hbytes, hne⟩
    exact ⟨_, hbytes, (), hne, rfl⟩

theorem decodeHash_hexText {hash : BlockHash} {bytes : List UInt8} :
    decodeHash (hexText bytes) = .ok hash ↔ hash = ⟨bytes⟩ ∧ bytes ≠ [] := by
  rw [decodeHash_ok, hexText, String.toList_ofList, decodePairs_encode, Option.some.injEq]
  constructor
  · rintro ⟨rfl, hne⟩
    exact ⟨rfl, hne⟩
  · rintro ⟨rfl, hne⟩
    exact ⟨rfl, hne⟩

theorem decodeHash_ne {value : String} {hash : BlockHash} (h : decodeHash value = .ok hash) : hash.bytes ≠ [] :=
  (decodeHash_ok.mp h).2

theorem decodeHash_error {value : String} {e : ApiError} (h : decodeHash value = .error e) : e = invalidCursor := by
  unfold decodeHash at h
  rcases bind_error.mp h with h | ⟨bytes, -, h⟩
  · exact orInvalid_error h
  · rcases bind_error.mp h with h | ⟨_, -, h⟩
    · exact (require_error.mp h).2.symm
    · cases h

theorem decodeParent_ofRef {parent : Option BlockParent} {read : Option BlockParent} :
    decodeParent (parent.map fun p => ⟨p.position.val, hexText p.hash.bytes⟩) = .ok read ↔
      read = parent ∧ ∀ p, parent = some p → p.hash.bytes ≠ [] := by
  cases parent with
  | none => simp [decodeParent, eq_comm]
  | some p =>
    rw [Option.map_some, decodeParent]
    simp only [bind_ok, decodeHash_hexText, pure_ok, Option.some.injEq, forall_eq']
    constructor
    · rintro ⟨_, ⟨rfl, hne⟩, rfl⟩
      exact ⟨rfl, hne⟩
    · rintro ⟨rfl, hne⟩
      exact ⟨p.hash, ⟨rfl, hne⟩, rfl⟩

theorem decodeBlock_ofRef {block : Option BlockRef} {read : Option BlockRef} :
    decodeBlock (block.map fun b => ⟨.ofRef b, b.timestamp⟩) = .ok read ↔ read = block ∧
      ∀ b, block = some b → b.hash.bytes ≠ [] ∧ ∀ p, b.parent = some p → p.hash.bytes ≠ [] := by
  cases block with
  | none => simp [decodeBlock, eq_comm]
  | some b =>
    rw [Option.map_some, decodeBlock]
    simp only [bind_ok, Block.ofRef, decodeHash_hexText, decodeParent_ofRef, pure_ok, Option.some.injEq, forall_eq']
    constructor
    · rintro ⟨_, ⟨rfl, hne⟩, _, ⟨rfl, hparent⟩, rfl⟩
      exact ⟨rfl, hne, hparent⟩
    · rintro ⟨rfl, hne, hparent⟩
      exact ⟨b.hash, ⟨rfl, hne⟩, b.parent, ⟨rfl, hparent⟩, rfl⟩

theorem decodeParent_ne {parent : Option ParentBlock} {read : BlockParent} (h : decodeParent parent = .ok (some read)) :
    read.hash.bytes ≠ [] := by
  cases parent with
  | none => cases h
  | some p =>
    obtain ⟨hash, hhash, hread⟩ := bind_ok.mp h
    obtain rfl := Option.some.inj (pure_ok.mp hread)
    exact decodeHash_ne hhash

theorem decodeBlock_ne {checkpoint : Option CursorBlock} {read : BlockRef}
    (h : decodeBlock checkpoint = .ok (some read)) :
    read.hash.bytes ≠ [] ∧ ∀ p, read.parent = some p → p.hash.bytes ≠ [] := by
  cases checkpoint with
  | none => cases h
  | some b =>
    obtain ⟨hash, hhash, hrest⟩ := bind_ok.mp h
    obtain ⟨parent, hparent, hread⟩ := bind_ok.mp hrest
    obtain rfl := Option.some.inj (pure_ok.mp hread)
    refine ⟨decodeHash_ne hhash, fun p hp => ?_⟩
    dsimp only at hp
    subst hp
    exact decodeParent_ne hparent

theorem decodeParent_error {parent : Option ParentBlock} {e : ApiError} (h : decodeParent parent = .error e) :
    e = invalidCursor := by
  cases parent with
  | none => cases h
  | some p =>
    rcases bind_error.mp h with h | ⟨_, -, h⟩
    · exact decodeHash_error h
    · cases h

theorem decodeBlock_error {checkpoint : Option CursorBlock} {e : ApiError} (h : decodeBlock checkpoint = .error e) :
    e = invalidCursor := by
  cases checkpoint with
  | none => cases h
  | some b =>
    rcases bind_error.mp h with h | ⟨_, -, h⟩
    · exact decodeHash_error h
    · rcases bind_error.mp h with h | ⟨_, -, h⟩
      · exact decodeParent_error h
      · cases h

end CursorBlock

namespace HistoryCursor

variable {codec : Codec}

theorem toIndex_ofIndex {cursor read : Redb.HistoryCursor} :
    (ofIndex cursor).toIndex = .ok read ↔ read = cursor ∧ Whole cursor := by
  unfold toIndex ofIndex
  simp only [bind_ok, require_ok, CursorBlock.decodeBlock_ofRef, pure_ok]
  constructor
  · rintro ⟨_, ⟨hchain, hnetwork, htransaction⟩, checkpoint, ⟨rfl, hblock⟩, rfl⟩
    exact ⟨rfl, hchain, hnetwork, htransaction, fun b hb => (hblock b hb).1, fun b p hb => (hblock b hb).2 p⟩
  · rintro ⟨rfl, hwhole⟩
    refine ⟨(), ⟨hwhole.chain, hwhole.network, hwhole.transaction⟩, read.checkpoint, ⟨rfl, fun b hb => ?_⟩, rfl⟩
    exact ⟨hwhole.hash b hb, fun p hp => hwhole.parent b p hb hp⟩

theorem whole_of_toIndex {cursor : HistoryCursor} {read : Redb.HistoryCursor} (h : cursor.toIndex = .ok read) :
    Whole read := by
  obtain ⟨_, hnames, hrest⟩ := bind_ok.mp h
  obtain ⟨hchain, hnetwork, htransaction⟩ := require_ok.mp hnames
  obtain ⟨checkpoint, hcheckpoint, hread⟩ := bind_ok.mp hrest
  obtain rfl := pure_ok.mp hread
  refine ⟨hchain, hnetwork, htransaction, fun b hb => ?_, fun b p hb => ?_⟩
  · dsimp only at hb
    subst hb
    exact (CursorBlock.decodeBlock_ne hcheckpoint).1
  · dsimp only at hb
    subst hb
    exact (CursorBlock.decodeBlock_ne hcheckpoint).2 p

theorem toIndex_error {cursor : HistoryCursor} {e : ApiError} (h : cursor.toIndex = .error e) : e = invalidCursor := by
  rcases bind_error.mp h with h | ⟨_, -, h⟩
  · exact (require_error.mp h).2.symm
  · rcases bind_error.mp h with h | ⟨_, -, h⟩
    · exact CursorBlock.decodeBlock_error h
    · cases h

theorem decode_encode (hexact : codec.Exact) {cursor : Redb.HistoryCursor} {value : String}
    (h : encode codec cursor = .ok value) : decode codec value = (ofIndex cursor).toIndex := by
  unfold encode at h
  split at h
  · rename_i bytes hbytes
    cases h
    rw [decode, String.toList_ofList, Base64.decode_encode]
    change (do let wire ← orInvalid (codec.fromSlice bytes); wire.toIndex) = _
    rw [hexact _ _ hbytes]
    rfl
  · cases h

theorem decode_of_whole (hexact : codec.Exact) {cursor : Redb.HistoryCursor} {value : String}
    (h : encode codec cursor = .ok value) (hwhole : Whole cursor) : decode codec value = .ok cursor := by
  rw [decode_encode hexact h]
  exact toIndex_ofIndex.mpr ⟨rfl, hwhole⟩

theorem decode_whole {value : String} {read : Redb.HistoryCursor} (h : decode codec value = .ok read) : Whole read := by
  obtain ⟨_, -, hrest⟩ := bind_ok.mp h
  obtain ⟨_, -, hread⟩ := bind_ok.mp hrest
  exact whole_of_toIndex hread

theorem decode_error {value : String} {e : ApiError} (h : decode codec value = .error e) : e = invalidCursor := by
  rcases bind_error.mp h with h | ⟨_, -, h⟩
  · exact orInvalid_error h
  · rcases bind_error.mp h with h | ⟨_, -, h⟩
    · exact orInvalid_error h
    · exact toIndex_error h

end HistoryCursor

/-- The next page begins exactly where the page before it said, for every cursor without an empty
part. No other is accepted, whoever wrote it, and its error says only that it is invalid. -/
theorem history_resumes (codec : Codec) (hexact : codec.Exact) :
    (∀ next value limit, nextCursor codec next = .ok value → 0 < limit → limit ≤ 1000 → (∀ c, next = some c → Whole c) →
      HistoryQuery.request codec ⟨value, limit⟩ = .ok ⟨next, limit⟩) ∧
    (∀ cursor value, HistoryCursor.encode codec cursor = .ok value → ¬ Whole cursor →
      HistoryCursor.decode codec value = .error invalidCursor) ∧
    (∀ value e, HistoryCursor.decode codec value = .error e → e = invalidCursor) ∧
    ∀ query request, HistoryQuery.request codec query = .ok request →
      request.limit = query.limit ∧ 0 < request.limit ∧ request.limit ≤ 1000 ∧
        ∀ c, request.after = some c → Whole c := by
  refine ⟨fun next value limit hnext hpos hle hwhole => ?_, fun cursor value hvalue hnot => ?_,
    fun value e => HistoryCursor.decode_error, fun query request hrequest => ?_⟩
  · have hafter : decodeCursor codec value = .ok next := by
      cases next with
      | none =>
        cases hnext
        rfl
      | some c =>
        obtain ⟨text, htext, rfl⟩ := map_ok.mp hnext
        exact map_ok.mpr ⟨c, HistoryCursor.decode_of_whole hexact htext (hwhole c rfl), rfl⟩
    refine bind_ok.mpr ⟨(), require_ok.mpr ?_, bind_ok.mpr ⟨next, hafter, rfl⟩⟩
    dsimp only
    omega
  · cases hread : HistoryCursor.decode codec value with
    | error e => rw [HistoryCursor.decode_error hread]
    | ok read =>
      rw [HistoryCursor.decode_encode hexact hvalue] at hread
      exact absurd (HistoryCursor.toIndex_ofIndex.mp hread).2 hnot
  · obtain ⟨_, hlimit, hrest⟩ := bind_ok.mp hrequest
    obtain ⟨after, hafter, hdone⟩ := bind_ok.mp hrest
    obtain rfl := pure_ok.mp hdone
    have hbounds := require_ok.mp hlimit
    refine ⟨rfl, ?_, ?_, fun c hc => ?_⟩
    · dsimp only
      omega
    · dsimp only
      omega
    · dsimp only at hc
      subst hc
      cases hcursor : query.cursor with
      | none =>
        rw [hcursor] at hafter
        cases hafter
      | some value =>
        rw [hcursor] at hafter
        obtain ⟨read, hread, heq⟩ := map_ok.mp hafter
        obtain rfl := Option.some.inj heq
        exact HistoryCursor.decode_whole hread

/-! ### The end of one page -/

def sampleCursor : Redb.HistoryCursor where
  checkpoint := some ⟨⟨9⟩, ⟨9⟩, ⟨[0xcd]⟩, some ⟨⟨8⟩, ⟨[0xab]⟩⟩, none⟩
  position := ⟨⟨7⟩, ⟨⟨⟨.lit "ethereum" (Eq.refl true)⟩, .lit "mainnet" (Eq.refl true)⟩, .lit "0xaa" (Eq.refl true)⟩⟩

def sampleJson : List UInt8 := utf8 (String.toList (
  "\x7b\"chain\":\"ethereum\",\"network\":\"mainnet\",\"transaction\":\"0xaa\",\"height\":7," ++
  "\"checkpoint\":\x7b\"block\":\x7b\"position\":9,\"height\":9,\"hash\":\"cd\"," ++
  "\"parent\":\x7b\"position\":8,\"hash\":\"ab\"\x7d\x7d,\"timestamp\":null\x7d\x7d"))

/-- A codec that knows one cursor. -/
def Codec.knowing (cursor : HistoryCursor) (json : List UInt8) : Codec where
  toVec c := if c = cursor then some json else none
  fromSlice bytes := if bytes = json then some cursor else none

theorem Codec.knowing_toVec (cursor : HistoryCursor) (json : List UInt8) :
    (knowing cursor json).toVec cursor = some json := if_pos rfl

theorem Codec.knowing_exact (cursor : HistoryCursor) (json : List UInt8) : (knowing cursor json).Exact := by
  intro c bytes h
  simp only [knowing] at h ⊢
  split_ifs at h with hc
  obtain rfl := Option.some.inj h
  rw [if_pos rfl, hc]

def sampleCodec : Codec := .knowing (.ofIndex sampleCursor) sampleJson

theorem sampleCursor_whole : Whole sampleCursor where
  chain := by decide
  network := by decide
  transaction := by decide
  hash := by
    rintro _ ⟨⟩
    exact List.cons_ne_nil _ _
  parent := by
    rintro _ _ ⟨⟩ ⟨⟩
    exact List.cons_ne_nil _ _

theorem history_resumes_sample : ∃ value, nextCursor sampleCodec (some sampleCursor) = .ok (some value) ∧
    HistoryQuery.request sampleCodec ⟨some value, 100⟩ = .ok ⟨some sampleCursor, 100⟩ := by
  have hnext : nextCursor sampleCodec (some sampleCursor) = .ok (some (String.ofList (Base64.encode sampleJson))) := by
    rw [nextCursor, HistoryCursor.encode, sampleCodec, Codec.knowing_toVec]
    rfl
  refine ⟨_, hnext, ?_⟩
  refine (history_resumes sampleCodec (Codec.knowing_exact _ _)).1 _ _ 100 hnext (by decide) (by decide) fun c hc => ?_
  obtain rfl := Option.some.inj hc
  exact sampleCursor_whole

end PaymentSdk.Api
