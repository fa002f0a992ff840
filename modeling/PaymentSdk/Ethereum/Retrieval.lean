import PaymentSdk.Ethereum.Address
import PaymentSdk.Ethereum.Recorded

/-!
# Which Ethereum transactions are retrieved

History entries are those of a transaction's movements and its sender alone. A recipient or a
created contract that nothing moves to has none, though its transaction is recorded for it.
-/

open Checked

namespace PaymentSdk.Ethereum.Indexer

variable {codec : Codec} {scope : IndexScope}

/-- Value or tokens move from or to the account. -/
def Endpoint (t : ParsedTransaction) (r : ParsedReceipt) (a : Account) : Prop :=
  r.succeeded = true ∧
    ((t.value.val ≠ 0 ∧ ∃ recipient, t.recipient.or r.contractAddress = some recipient ∧
        (a = t.sender ∨ a = recipient)) ∨
      ∃ log ∈ r.logs, ∃ source destination, Transferred log source destination ∧ a ≠ zeroAddress ∧
        (a = source ∨ a = destination))

theorem mem_endpointAccounts {t : ParsedTransaction} {r : ParsedReceipt} {a : Account} :
    a ∈ endpointAccounts t r ↔ Endpoint t r a := by
  unfold endpointAccounts Endpoint
  split_ifs with hsucceeded hvalue
  · simp only [List.nil_append, List.mem_flatMap, mem_logAccounts, hsucceeded, hvalue, ne_eq, not_true, false_and,
      false_or, true_and]
  · simp only [List.mem_append, List.mem_flatMap, Option.mem_toList, mem_logAccounts, hsucceeded, hvalue, ne_eq,
      not_false_eq_true, true_and, List.mem_cons, List.not_mem_nil, or_false]
  · simp [hsucceeded]

/-- What is said of an interpreted block: what is recorded, that each log is read by its shape alone,
that a narrower selection records what is relevant to it, and that a selected address retrieves what
is recorded. -/
structure Interprets (codec : Codec) (interpreter : BlockInterpreter) (block : Block) (selection : List Account)
    (out : InterpretedBlock) (pairs : List (ParsedTransaction × ParsedReceipt)) : Prop where
  block_eq : out.block = block.reference
  recorded : out.transactions = (pairs.filter fun p => Selected selection p.1 p.2).map fun p =>
    observation interpreter.scope p.1 p.2
  relevant : ∀ p ∈ pairs, Selected selection p.1 p.2 ↔ ∃ a ∈ selection, a = p.1.sender ∨ p.1.recipient = some a ∨
    p.2.contractAddress = some a ∨ Endpoint p.1 p.2 a
  logs : ∀ p ∈ pairs, ∀ log ∈ p.2.logs,
    (∀ source destination, Transferred log source destination → log.movement p.1.hash interpreter.scope =
      tokenMovement interpreter.scope (logId p.1.hash log.logIndex) ⟨chainId, accountText log.address⟩
        (atomicDecimal (BigEndian.number log.data)) source destination) ∧
    ((¬ ∃ source destination, Transferred log source destination) → log.movement p.1.hash interpreter.scope = none)
  narrower : ∀ selection', selection' ⊆ selection → ∀ out',
    inspect codec interpreter block (selection'.map (canonicalAccount interpreter.scope)) = .ok out' →
    out'.transactions = ((pairs.filter fun p => Selected selection p.1 p.2).filter fun p =>
      Selected selection' p.1 p.2).map fun p => observation interpreter.scope p.1 p.2
  retrievable : ∀ p ∈ pairs, Selected selection p.1 p.2 →
    ∃ c, (observation interpreter.scope p.1 p.2).canonical interpreter.scope block.reference = .ok c ∧
      ∃ a ∈ selection, canonicalAccount interpreter.scope a ∈ c.addresses

/-- A transaction with a selected recipient or created contract has a selected sender or a movement
of a selected address. -/
def Reached (selection : List Account) (pairs : List (ParsedTransaction × ParsedReceipt)) : Prop :=
  ∀ p ∈ pairs, (∃ a ∈ selection, p.1.recipient = some a ∨ p.2.contractAddress = some a) →
    ∃ a ∈ selection, a = p.1.sender ∨ Endpoint p.1 p.2 a

theorem selected_iff {selection : List Account} {t : ParsedTransaction} {r : ParsedReceipt} :
    Selected selection t r ↔ ∃ a ∈ selection, a = t.sender ∨ t.recipient = some a ∨ r.contractAddress = some a ∨
      Endpoint t r a := by
  unfold Selected parties
  simp only [List.mem_append, List.mem_cons, Option.mem_toList, mem_endpointAccounts, or_assoc]

theorem Selected.mono {selection selection' : List Account} (hsub : selection' ⊆ selection) {t : ParsedTransaction}
    {r : ParsedReceipt} (h : Selected selection' t r) : Selected selection t r := by
  obtain ⟨a, ha, hparty⟩ := h
  exact ⟨a, hsub ha, hparty⟩

/-- **A recorded transaction is retrieved unless its recipient alone is selected.** Everything else
holds of every block that is read, and every recorded transaction has a selected address among its
history entries exactly when no selected recipient or created contract stands without a selected
sender or a movement. -/
theorem interprets_iff {codec : Codec} (hexact : codec.Exact) {interpreter : BlockInterpreter} {block : Block}
    {selection : List Account} {out : InterpretedBlock}
    (h : inspect codec interpreter block (selection.map (canonicalAccount interpreter.scope)) = .ok out) :
    ∃ pairs, Parsed codec block pairs ∧
      (Interprets codec interpreter block selection out pairs ↔ Reached selection pairs) := by
  obtain ⟨pairs, hparsed, hblock, -, hrecorded⟩ := inspect_selected hexact h
  refine ⟨pairs, hparsed, ?_, ?_⟩
  · rintro hinterprets p hp ⟨a, ha, hparty⟩
    have hselected : Selected selection p.1 p.2 := selected_iff.mpr ⟨a, ha, hparty.elim (.inr ∘ .inl) (.inr ∘ .inr ∘ .inl)⟩
    obtain ⟨c, hc, b, hb, hmem⟩ := hinterprets.retrievable p hp hselected
    obtain ⟨c', hc', haddresses⟩ := observation_addresses interpreter.chain_eq (hparsed.logs_of hp) block.reference
    obtain rfl := Except.ok.inj (hc.symm.trans hc')
    exact ⟨b, hb, (haddresses b).mp hmem |>.imp_right mem_endpointAccounts.mp⟩
  · intro hreached
    constructor
    case block_eq => exact hblock
    case recorded => exact hrecorded
    case relevant => exact fun _ _ => selected_iff
    case logs =>
      exact fun p _ log _ => ⟨fun _ _ htransfer => movement_transferred htransfer _, fun hnone => movement_none hnone _⟩
    case narrower =>
      intro selection' hsub out' hout'
      obtain ⟨pairs', hparsed', -, -, hrecorded'⟩ := inspect_selected hexact hout'
      rw [hrecorded', parsed_unique hparsed' hparsed, List.filter_filter]
      congr 1
      refine List.filter_congr ?_
      intro p _
      by_cases hselected : Selected selection' p.1 p.2
      · simp [hselected, hselected.mono hsub]
      · simp [hselected]
    case retrievable =>
      intro p hp hselected
      obtain ⟨c, hc, haddresses⟩ := observation_addresses interpreter.chain_eq (hparsed.logs_of hp) block.reference
      have hreach : ∃ a ∈ selection, a = p.1.sender ∨ Endpoint p.1 p.2 a := by
        obtain ⟨a, ha, hsender | hrecipient | hcontract | hendpoint⟩ := selected_iff.mp hselected
        · exact ⟨a, ha, .inl hsender⟩
        · exact hreached p hp ⟨a, ha, .inl hrecipient⟩
        · exact hreached p hp ⟨a, ha, .inr hcontract⟩
        · exact ⟨a, ha, .inr hendpoint⟩
      obtain ⟨a, ha, hparty⟩ := hreach
      exact ⟨c, hc, a, ha, (haddresses a).mpr (hparty.imp_right mem_endpointAccounts.mpr)⟩

/-! ## A call without value -/

def sampleHash (byte : UInt8) : Hash := .replicate 32 byte

def sampleAccount (byte : UInt8) : Account := .replicate 20 byte

/-- Fields whose values are texts, null and empty lists. -/
def fieldsText (fields : Json.Map) : String :=
  String.intercalate "," <| fields.map fun f => "\"" ++ f.1 ++ "\":" ++ match f.2 with
    | .string text => "\"" ++ text ++ "\""
    | .array _ => "[]"
    | _ => "null"

def sampleTransaction : Json.Map :=
  [("hash", .string (hashText (sampleHash 0xcc)).str), ("from", .string (accountText (sampleAccount 0x11)).str),
    ("to", .string (accountText (sampleAccount 0x22)).str), ("value", .string "0x0"),
    ("transactionIndex", .string "0x0"), ("blockHash", .string (hashText (sampleHash 0xaa)).str),
    ("blockNumber", .string "0xa")]

def sampleReceipt : Json.Map :=
  [("transactionHash", .string (hashText (sampleHash 0xcc)).str), ("transactionIndex", .string "0x0"),
    ("blockHash", .string (hashText (sampleHash 0xaa)).str), ("blockNumber", .string "0xa"),
    ("from", .string (accountText (sampleAccount 0x11)).str), ("to", .string (accountText (sampleAccount 0x22)).str),
    ("contractAddress", .null), ("status", .string "0x1"), ("gasUsed", .string "0x5208"),
    ("effectiveGasPrice", .string "0x3"), ("logs", .array [])]

def sampleHeader : Json.Map :=
  [("hash", .string (hashText (sampleHash 0xaa)).str), ("parentHash", .string (hashText (sampleHash 0xbb)).str),
    ("sha3Uncles", .string (hashText (sampleHash 0xdd)).str), ("miner", .string (accountText zeroAddress).str),
    ("stateRoot", .string (hashText (sampleHash 0xee)).str),
    ("transactionsRoot", .string (hashText (sampleHash 0xff)).str),
    ("receiptsRoot", .string (hashText (sampleHash 0xab)).str),
    ("logsBloom", .string (String.ofList ('0' :: 'x' :: List.replicate 512 '0'))), ("difficulty", .string "0x0"),
    ("number", .string "0xa"), ("gasLimit", .string "0x1c9c380"), ("gasUsed", .string "0x5208"),
    ("timestamp", .string "0x64"), ("extraData", .string "0x"), ("mixHash", .string (hashText (sampleHash 0xcd)).str),
    ("nonce", .string "0x0000000000000000"), ("uncles", .array [])]

def sampleRawBlock : List UInt8 :=
  ("\x7b" ++ fieldsText sampleHeader ++ ",\"transactions\":[\x7b" ++ fieldsText sampleTransaction ++
    "\x7d]\x7d").toUTF8.toList

def sampleRawReceipt : List UInt8 := ("\x7b" ++ fieldsText sampleReceipt ++ "\x7d").toUTF8.toList

def sampleCodec : Codec where
  block raw :=
    if raw = sampleRawBlock then
      some ⟨10, sampleHash 0xaa, sampleHash 0xbb, 100, .full [.object sampleTransaction]⟩
    else none
  json raw := if raw = sampleRawReceipt then some (.object sampleReceipt) else none
  hash text := (TransactionId.fromStr text).toOption.bind (toVector 32)
  account text := (Address.fromStr text).toOption.bind (toVector 20)
  hexNumber digits := do
    let value ← digits.foldlM (fun value c => (toDigit c).map (value * 16 + ·)) 0
    if h : value < 2 ^ 256 then some ⟨value, h⟩ else none

def sampleBlock : Block where
  reference := ⟨⟨10⟩, ⟨10⟩, ⟨List.replicate 32 0xaa⟩, some ⟨⟨9⟩, ⟨List.replicate 32 0xbb⟩⟩, some 100⟩
  rawBlock := sampleRawBlock
  rawReceipts := [sampleRawReceipt]

def sampleInterpreter : BlockInterpreter := ⟨⟨chainId, .lit "mainnet" (Eq.refl true)⟩, rfl⟩

theorem sampleCodec_exact : sampleCodec.Exact := by
  intro a
  have hparsed : Address.fromStr (accountText a).str = .ok a.toList := Address.fromStr_text Vector.length_toList
  simp only [sampleCodec, hparsed, Except.toOption, Option.bind_some]
  have hsize : a.toList.toArray.size = 20 := by simp
  rw [toVector, dif_pos hsize]
  exact congrArg some (Vector.toList_inj.mp rfl)

def sampleParsed : ParsedBlock :=
  ⟨sampleBlock.reference, [⟨sampleHash 0xcc, sampleAccount 0x11, some (sampleAccount 0x22), ⟨0, by decide⟩, 0⟩]⟩

def sampleParsedReceipt : ParsedReceipt := ⟨sampleHash 0xcc, 0, true, 21000, ⟨3, by decide⟩, none, []⟩

theorem sample_hash (hash : Hash) : sampleCodec.hash (hashText hash).str = some hash := by
  have hparsed : TransactionId.fromStr (hashText hash).str = .ok hash.toList := fromStr_text Vector.length_toList
  simp only [sampleCodec, hparsed, Except.toOption, Option.bind_some]
  have hsize : hash.toList.toArray.size = 32 := by simp
  rw [toVector, dif_pos hsize]
  exact congrArg some (Vector.toList_inj.mp rfl)

theorem sample_optionalAddress {object : Json.Map} {field label : String} {a : Account}
    (h : object.get field = some (.string (accountText a).str)) :
    optionalAddress sampleCodec object field label = .ok (some a) := by
  rw [optionalAddress, h]
  simp only [sampleCodec_exact a, bind_ok, okOr_ok, pure_ok]
  exact ⟨a, rfl, rfl⟩

theorem sample_transaction : ParsedTransaction.parse sampleCodec (.object sampleTransaction) 0 10 (sampleHash 0xaa) =
    .ok ⟨sampleHash 0xcc, sampleAccount 0x11, some (sampleAccount 0x22), ⟨0, by decide⟩, 0⟩ := by
  simp only [ParsedTransaction.parse, requiredHash, requiredAddress, requiredText, requiredQuantityU64, requiredQuantity,
    bind_ok, okOr_ok, require_ok, pure_ok]
  exact ⟨_, rfl, _, ⟨_, rfl, sample_hash _⟩, _, ⟨_, rfl, sampleCodec_exact _⟩, _, sample_optionalAddress rfl, _,
    ⟨_, rfl, rfl⟩, _, ⟨_, ⟨_, rfl, rfl⟩, (), by decide, rfl⟩, (), by decide, (), by decide, _, ⟨_, rfl, sample_hash _⟩,
    (), rfl, _, ⟨_, ⟨_, rfl, rfl⟩, (), by decide, rfl⟩, (), by decide, rfl⟩

theorem sample_block : ParsedBlock.parse sampleCodec sampleRawBlock (some ⟨10⟩) true = .ok sampleParsed := by
  have hblock : sampleCodec.block sampleRawBlock = _ := if_pos rfl
  simp only [ParsedBlock.parse, hblock, bind_ok, okOr_ok, require_ok, pure_ok]
  refine ⟨_, rfl, (), by decide, _, rfl, sampleParsed.transactions, ?_, rfl⟩
  simp only [parseTransactions, Json.asObject, Bool.true_eq_false, false_and, if_false, bind_ok, require_ok, pure_ok]
  exact ⟨_, sample_transaction, (), by simp, [], rfl, rfl⟩

theorem sample_receipt : ParsedReceipt.parse sampleCodec sampleRawReceipt
    ⟨sampleHash 0xcc, sampleAccount 0x11, some (sampleAccount 0x22), ⟨0, by decide⟩, 0⟩ 0 10 (sampleHash 0xaa) {} =
      .ok (sampleParsedReceipt, {}) := by
  have hjson : sampleCodec.json sampleRawReceipt = some (.object sampleReceipt) := if_pos rfl
  simp only [ParsedReceipt.parse, requiredHash, requiredAddress, requiredText, requiredQuantityU64, requiredQuantity,
    bind_ok, okOr_ok, require_ok, pure_ok]
  exact ⟨_, hjson, _, rfl, _, ⟨_, rfl, sample_hash _⟩, (), rfl, _, ⟨_, ⟨_, rfl, rfl⟩, (), by decide, rfl⟩, (), by decide,
    (), by decide, (), by decide, _, ⟨_, rfl, sample_hash _⟩, (), rfl, _, ⟨_, ⟨_, rfl, rfl⟩, (), by decide, rfl⟩, (),
    by decide, _, ⟨_, rfl, sampleCodec_exact _⟩, (), rfl, _, sample_optionalAddress rfl, (), rfl, _, ⟨_, rfl, rfl⟩, _, rfl,
    _, ⟨_, ⟨_, rfl, rfl⟩, (), by decide, rfl⟩, _, ⟨_, rfl, rfl⟩, none, rfl, (), by decide, (), by decide, _, rfl, _, rfl,
    rfl⟩

theorem sample_receipts : ParsedReceipt.parseAll sampleCodec [sampleRawReceipt] sampleParsed =
    .ok [sampleParsedReceipt] := by
  simp only [ParsedReceipt.parseAll, bind_ok, okOr_ok, require_ok]
  refine ⟨(), rfl, sampleHash 0xaa, by decide, ?_⟩
  simp only [sampleParsed, List.zip_cons_cons, List.zip_nil_left, parseReceipts, sampleBlock, bind_ok, pure_ok]
  exact ⟨_, sample_receipt, [], rfl, rfl⟩

/-- What is recorded for the recipient. -/
def sampleDraft : ObservationDraft where
  scope := sampleInterpreter.scope
  transactionId := canonicalHash sampleInterpreter.scope (sampleHash 0xcc)
  status := .included
  movements := []
  fee := some ⟨nativeAsset, .fromAtomic 63000 0,
    some (canonicalAccount sampleInterpreter.scope (sampleAccount 0x11))⟩

theorem sample_inspect : inspect sampleCodec sampleInterpreter sampleBlock
    ([sampleAccount 0x22].map (canonicalAccount sampleInterpreter.scope)) =
      .ok ⟨sampleBlock.reference, [sampleDraft], {}⟩ := by
  simp only [inspect, bind_ok, mapError_ok, require_ok, pure_ok]
  exact ⟨sampleParsed, sample_block, (), rfl, _, sample_receipts, [some sampleDraft], by decide, rfl⟩

theorem interprets_iff_sample : ∃ pairs, Parsed sampleCodec sampleBlock pairs ∧
    (Interprets sampleCodec sampleInterpreter sampleBlock [sampleAccount 0x22]
      ⟨sampleBlock.reference, [sampleDraft], {}⟩ pairs ↔ Reached [sampleAccount 0x22] pairs) :=
  interprets_iff sampleCodec_exact sample_inspect

/-- A call without value is recorded for its selected recipient, which gets no history entry. -/
theorem recipient_not_retrieved :
    inspect sampleCodec sampleInterpreter sampleBlock
        ([sampleAccount 0x22].map (canonicalAccount sampleInterpreter.scope)) =
      .ok ⟨sampleBlock.reference, [sampleDraft], {}⟩ ∧
    ∃ c, sampleDraft.canonical sampleInterpreter.scope sampleBlock.reference = .ok c ∧
      ∀ a ∈ [sampleAccount 0x22], canonicalAccount sampleInterpreter.scope a ∉ c.addresses :=
  ⟨sample_inspect, _, rfl, List.forall_mem_singleton.mpr (by decide)⟩

end PaymentSdk.Ethereum.Indexer
