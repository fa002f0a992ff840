import Mathlib.Data.List.ReduceOption
import PaymentSdk.Ethereum.Interpreter
import PaymentSdk.Indexing.Admission

/-!
# What is recorded of an Ethereum block

A transaction is recorded when a selected address is one of its parties, with the movements of its
native value and its logs. What is recorded passes the checks of a block's addition.
-/

open Checked

namespace PaymentSdk.Ethereum.Indexer

/-- A displayed address is read as that address. -/
def Codec.Exact (codec : Codec) : Prop := ∀ a, codec.account (accountText a).str = some a

variable {codec : Codec} {scope : IndexScope}

/-! ## Texts -/

theorem hexText_inj {n : Nat} {a b : Vector UInt8 n} {h : n ≤ 64} (heq : hexText a h = hexText b h) : a = b := by
  have hstr : String.ofList ('0' :: 'x' :: Hex.encode a.toList) = String.ofList ('0' :: 'x' :: Hex.encode b.toList) :=
    congrArg Text.str heq
  have hlist := congrArg String.toList hstr
  simp only [String.toList_ofList, List.cons.injEq, true_and] at hlist
  exact Vector.toList_inj.mp (Hex.encode_inj hlist)

theorem canonicalAccount_inj {a b : Account} : canonicalAccount scope a = canonicalAccount scope b ↔ a = b :=
  ⟨fun h => @hexText_inj 20 a b (by decide) (congrArg CanonicalAddress.value h), congrArg _⟩

theorem parse_canonicalAccount (hexact : codec.Exact) (hchain : scope.chain = chainId) (a : Account) :
    parseCanonicalAddress codec (canonicalAccount scope a) = .ok a := by
  simp only [parseCanonicalAddress, canonicalAccount, hchain, ne_eq, not_true, if_false, hexact a]

/-! ## Logs -/

/-- A topic that holds an address. -/
def padded (a : Account) : Hash := ⟨(List.replicate 12 0 ++ a.toList).toArray, by simp⟩

/-- A Transfer-shaped log: three topics with padded addresses, and 32 bytes of data. -/
structure Transferred (log : ParsedLog) (source destination : Account) : Prop where
  topics : log.topics = [transferTopic, padded source, padded destination]
  data : log.data.length = 32

theorem toList_padded (a : Account) : (padded a).toList = List.replicate 12 0 ++ a.toList := by
  simp [padded, Vector.toList]

theorem toList_tail (topic : Hash) : (ParsedLog.tail topic).toList = topic.toList.drop 12 := rfl

theorem isPadded_padded (a : Account) : ParsedLog.isPadded (padded a) = true := by
  simp [ParsedLog.isPadded, toList_padded]

theorem tail_padded (a : Account) : ParsedLog.tail (padded a) = a := by
  apply Vector.toList_inj.mp
  rw [toList_tail, toList_padded]
  rfl

theorem padded_tail {topic : Hash} (h : ParsedLog.isPadded topic = true) : padded (ParsedLog.tail topic) = topic := by
  apply Vector.toList_inj.mp
  rw [ParsedLog.isPadded, decide_eq_true_eq] at h
  rw [toList_padded, ← h, toList_tail, List.take_append_drop]

theorem movement_transferred {log : ParsedLog} {source destination : Account} (h : Transferred log source destination)
    (hash : Hash) : log.movement hash scope = tokenMovement scope (logId hash log.logIndex)
      ⟨chainId, accountText log.address⟩ (atomicDecimal (BigEndian.number log.data)) source destination := by
  unfold ParsedLog.movement
  rw [h.topics]
  simp only [h.data, isPadded_padded, tail_padded, ne_eq, not_true, Bool.true_eq_false, or_self, if_false]

theorem transferred_unique {log : ParsedLog} {a b a' b' : Account} (h : Transferred log a b)
    (h' : Transferred log a' b') : a = a' ∧ b = b' := by
  have htopics := h.topics.symm.trans h'.topics
  simp only [List.cons.injEq, and_true, true_and] at htopics
  exact ⟨by rw [← tail_padded a, htopics.1, tail_padded], by rw [← tail_padded b, htopics.2, tail_padded]⟩

theorem movement_none {log : ParsedLog} (h : ¬ ∃ source destination, Transferred log source destination) (hash : Hash) :
    log.movement hash scope = none := by
  unfold ParsedLog.movement
  split
  · rename_i signature source destination htopics
    split_ifs with hshape
    · rfl
    · simp only [ne_eq, not_or, not_not, Bool.not_eq_false] at hshape
      obtain ⟨rfl, hdata, hsource, hdestination⟩ := hshape
      refine absurd ⟨ParsedLog.tail source, ParsedLog.tail destination, ?_, hdata⟩ h
      rw [htopics, padded_tail hsource, padded_tail hdestination]
  · rfl

/-! ## Parties -/

def logAccounts (log : ParsedLog) : List Account :=
  match log.topics with
  | [signature, source, destination] =>
    if signature = transferTopic ∧ log.data.length = 32 ∧ ParsedLog.isPadded source = true ∧
        ParsedLog.isPadded destination = true then
      [ParsedLog.tail source, ParsedLog.tail destination].filter (· ≠ zeroAddress)
    else []
  | _ => []

/-- The accounts that value or tokens move between. -/
def endpointAccounts (t : ParsedTransaction) (r : ParsedReceipt) : List Account :=
  if r.succeeded then
    (if t.value.val = 0 then [] else
      (t.recipient.or r.contractAddress).toList.flatMap fun recipient => [t.sender, recipient]) ++
        r.logs.flatMap logAccounts
  else []

/-- Everybody the chain says took part. -/
def parties (t : ParsedTransaction) (r : ParsedReceipt) : List Account :=
  t.sender :: t.recipient.toList ++ r.contractAddress.toList ++ endpointAccounts t r

/-- A selected account is a party. -/
def Selected (selection : List Account) (t : ParsedTransaction) (r : ParsedReceipt) : Prop :=
  ∃ a ∈ selection, a ∈ parties t r

instance (selection : List Account) (t : ParsedTransaction) (r : ParsedReceipt) : Decidable (Selected selection t r) :=
  decidable_of_iff (selection.any (parties t r).contains = true) (by simp [Selected])

def nativeMovements (scope : IndexScope) (t : ParsedTransaction) (r : ParsedReceipt) : List ValueMovement :=
  if t.value.val = 0 then []
  else (t.recipient.or r.contractAddress).toList.map fun recipient =>
    .transfer (valueId t.hash) nativeAsset (atomicDecimal t.value.val) (canonicalAccount scope t.sender)
      (canonicalAccount scope recipient)

/-- The native value, and then one movement for each log that is a transfer. -/
def movements (scope : IndexScope) (t : ParsedTransaction) (r : ParsedReceipt) : List ValueMovement :=
  if r.succeeded then nativeMovements scope t r ++ r.logs.filterMap (·.movement t.hash scope) else []

/-- What is recorded of a transaction. The fee is a product of natural numbers. -/
def observation (scope : IndexScope) (t : ParsedTransaction) (r : ParsedReceipt) : ObservationDraft :=
  draft scope t r (movements scope t r) (r.effectiveGasPrice.val * r.gasUsed.toNat)

theorem mem_logAccounts {log : ParsedLog} {a : Account} :
    a ∈ logAccounts log ↔ ∃ source destination, Transferred log source destination ∧ a ≠ zeroAddress ∧
      (a = source ∨ a = destination) := by
  constructor
  · intro h
    unfold logAccounts at h
    split at h
    · rename_i signature source destination htopics
      split_ifs at h with hshape
      · obtain ⟨rfl, hdata, hsource, hdestination⟩ := hshape
        simp only [List.mem_filter, List.mem_cons, List.not_mem_nil, or_false, decide_eq_true_eq] at h
        refine ⟨_, _, ⟨?_, hdata⟩, h.2, h.1⟩
        rw [htopics, padded_tail hsource, padded_tail hdestination]
      · simp at h
    · simp at h
  · rintro ⟨source, destination, ⟨htopics, hdata⟩, hzero, hmem⟩
    simp only [logAccounts, htopics, hdata, isPadded_padded, tail_padded, and_self, if_true, List.mem_filter,
      List.mem_cons, List.not_mem_nil, or_false, decide_eq_true_eq]
    exact ⟨hmem, hzero⟩

theorem mem_endpoints_tokenMovement {id : MovementId} {asset : AssetId} {amount : Decimal} {source destination : Account}
    {address : CanonicalAddress} :
    address ∈ endpoints (tokenMovement scope id asset amount source destination).toList ↔
      ∃ a, a ≠ zeroAddress ∧ (a = source ∨ a = destination) ∧ address = canonicalAccount scope a := by
  unfold tokenMovement
  split_ifs with hsource hdestination hdestination
  · subst hsource
    simp only [Option.toList_some, endpoints, List.flatMap_cons, List.flatMap_nil, ValueMovement.fromAddress,
      ValueMovement.toAddress, Option.toList_none, List.nil_append, List.append_nil, List.mem_singleton]
    constructor
    · rintro rfl
      exact ⟨destination, hdestination, .inr rfl, rfl⟩
    · rintro ⟨a, ha, rfl | rfl, rfl⟩
      · exact absurd rfl ha
      · rfl
  · rw [not_not] at hdestination
    subst hsource hdestination
    simp [endpoints]
  · subst hdestination
    simp only [Option.toList_some, endpoints, List.flatMap_cons, List.flatMap_nil, ValueMovement.fromAddress,
      ValueMovement.toAddress, Option.toList_none, List.append_nil, List.mem_singleton]
    constructor
    · rintro rfl
      exact ⟨source, hsource, .inl rfl, rfl⟩
    · rintro ⟨a, ha, rfl | rfl, rfl⟩
      · rfl
      · exact absurd rfl ha
  · simp only [Option.toList_some, endpoints, List.flatMap_cons, List.flatMap_nil, ValueMovement.fromAddress,
      ValueMovement.toAddress, List.append_nil, List.cons_append, List.nil_append, List.mem_cons, List.not_mem_nil,
      or_false]
    constructor
    · rintro (rfl | rfl)
      · exact ⟨source, hsource, .inl rfl, rfl⟩
      · exact ⟨destination, hdestination, .inr rfl, rfl⟩
    · rintro ⟨a, -, rfl | rfl, rfl⟩
      · exact .inl rfl
      · exact .inr rfl

theorem mem_endpoints_log {log : ParsedLog} {hash : Hash} {address : CanonicalAddress} :
    address ∈ endpoints (log.movement hash scope).toList ↔ ∃ a ∈ logAccounts log, address = canonicalAccount scope a := by
  by_cases hlog : ∃ source destination, Transferred log source destination
  · obtain ⟨source, destination, htransfer⟩ := hlog
    rw [movement_transferred htransfer, mem_endpoints_tokenMovement]
    constructor
    · rintro ⟨a, hzero, hmem, rfl⟩
      exact ⟨a, mem_logAccounts.mpr ⟨source, destination, htransfer, hzero, hmem⟩, rfl⟩
    · rintro ⟨a, ha, rfl⟩
      obtain ⟨source', destination', htransfer', hzero, hmem⟩ := mem_logAccounts.mp ha
      obtain ⟨rfl, rfl⟩ := transferred_unique htransfer htransfer'
      exact ⟨a, hzero, hmem, rfl⟩
  · rw [movement_none hlog]
    constructor
    · simp [endpoints]
    · rintro ⟨a, ha, -⟩
      obtain ⟨source, destination, htransfer, -⟩ := mem_logAccounts.mp ha
      exact absurd ⟨source, destination, htransfer⟩ hlog

@[simp]
theorem endpoints_append (ms ms' : List ValueMovement) : endpoints (ms ++ ms') = endpoints ms ++ endpoints ms' := by
  simp [endpoints]

theorem mem_endpoints_logs {logs : List ParsedLog} {hash : Hash} {address : CanonicalAddress} :
    address ∈ endpoints (logs.filterMap (·.movement hash scope)) ↔
      ∃ a ∈ logs.flatMap logAccounts, address = canonicalAccount scope a := by
  induction logs with
  | nil => simp [endpoints]
  | cons log rest ih =>
    have hcons : (log :: rest).filterMap (·.movement hash scope) =
        (log.movement hash scope).toList ++ rest.filterMap (·.movement hash scope) := by
      rw [List.filterMap_cons]
      cases log.movement hash scope <;> rfl
    rw [hcons, endpoints_append, List.mem_append, ih, mem_endpoints_log, List.flatMap_cons]
    simp only [List.mem_append, or_and_right, exists_or]

theorem mem_endpoints {t : ParsedTransaction} {r : ParsedReceipt} {address : CanonicalAddress} :
    address ∈ endpoints (movements scope t r) ↔ ∃ a ∈ endpointAccounts t r, address = canonicalAccount scope a := by
  unfold movements endpointAccounts
  split_ifs with hsucceeded hvalue
  · simp [nativeMovements, hvalue, mem_endpoints_logs]
  · rw [endpoints_append, List.mem_append, mem_endpoints_logs]
    simp only [List.mem_append, or_and_right, exists_or]
    refine or_congr_left ?_
    unfold nativeMovements
    rw [if_neg hvalue]
    cases t.recipient.or r.contractAddress with
    | none => simp [endpoints]
    | some recipient => simp [endpoints, ValueMovement.fromAddress, ValueMovement.toAddress]
  · simp [endpoints]

/-! ## Matching -/

theorem matchesAny_canonical (hexact : codec.Exact) (hchain : scope.chain = chainId) (touched selection : List Account) :
    matchesAny codec scope touched (selection.map (canonicalAccount scope)) =
      .ok (selection.any fun a => decide (a ∈ touched)) := by
  induction selection with
  | nil => rfl
  | cons a rest ih =>
    have hbelongs : (canonicalAccount scope a).belongsTo scope = true := by
      simp [CanonicalAddress.belongsTo, canonicalAccount]
    rw [List.map_cons, matchesAny, require, if_pos hbelongs, parse_canonicalAccount hexact hchain, ih]
    by_cases htouched : a ∈ touched
    · simp [bind, Except.bind, pure, Except.pure, htouched]
    · simp [bind, Except.bind, htouched]

theorem touchedAddresses_ok (hexact : codec.Exact) (hchain : scope.chain = chainId) {t : ParsedTransaction}
    {r : ParsedReceipt} : ∃ touched, touchedAddresses codec t r (movements scope t r) = .ok touched ∧
      ∀ a, a ∈ touched ↔ a ∈ parties t r := by
  have hparse : ∀ address ∈ endpoints (movements scope t r), ∃ a, parseCanonicalAddress codec address = .ok a := by
    intro address haddress
    obtain ⟨a, -, rfl⟩ := mem_endpoints.mp haddress
    exact ⟨a, parse_canonicalAccount hexact hchain a⟩
  obtain ⟨moved, hmoved⟩ := exists_mapM hparse
  refine ⟨_, by rw [touchedAddresses, hmoved]; rfl, ?_⟩
  intro a
  have hmem : a ∈ moved ↔ a ∈ endpointAccounts t r := by
    constructor
    · intro ha
      obtain ⟨address, haddress, hparsed⟩ := mem_mapM hmoved ha
      obtain ⟨b, hb, rfl⟩ := mem_endpoints.mp haddress
      rw [parse_canonicalAccount hexact hchain] at hparsed
      exact Except.ok.inj hparsed ▸ hb
    · intro ha
      obtain ⟨b, hb, hparsed⟩ := mem_of_mapM hmoved (mem_endpoints.mpr ⟨a, ha, rfl⟩)
      rw [parse_canonicalAccount hexact hchain] at hparsed
      exact Except.ok.inj hparsed ▸ hb
  simp only [parties, List.mem_append, List.mem_cons, hmem]

theorem matchesAddress_ok (hexact : codec.Exact) (hchain : scope.chain = chainId) (t : ParsedTransaction)
    (r : ParsedReceipt) (selection : List Account) :
    matchesAddress codec scope t r (movements scope t r) (selection.map (canonicalAccount scope)) =
      .ok (decide (Selected selection t r)) := by
  obtain ⟨touched, htouched, hmem⟩ := @touchedAddresses_ok codec scope hexact hchain t r
  rw [matchesAddress, htouched]
  simp only [bind, Except.bind, matchesAny_canonical hexact hchain, Except.ok.injEq]
  rw [Bool.eq_iff_iff, List.any_eq_true, decide_eq_true_eq]
  simp only [decide_eq_true_eq, hmem, Selected]

theorem movementsOf_ok {t : ParsedTransaction} {r : ParsedReceipt} {ms : List ValueMovement}
    (h : movementsOf scope t r = .ok ms) : ms = movements scope t r := by
  unfold movementsOf at h
  unfold movements
  split_ifs at h ⊢ with hsucceeded
  · obtain ⟨native, hnative, hms⟩ := bind_ok.mp h
    rw [pure_ok.mp hms]
    unfold nativeMovement at hnative
    unfold nativeMovements
    split_ifs at hnative ⊢ with hvalue
    · cases hnative
      rfl
    · cases hrecipient : t.recipient.or r.contractAddress with
      | none =>
        rw [hrecipient] at hnative
        cases hnative
      | some recipient =>
        rw [hrecipient] at hnative
        cases hnative
        rfl
  · cases h
    rfl

theorem feeAmount_ok {r : ParsedReceipt} {fee : Wei} (h : feeAmount r = .ok fee) :
    fee.val = r.effectiveGasPrice.val * r.gasUsed.toNat := by
  unfold feeAmount Wei.checkedMul at h
  split at h
  · cases h
  · rename_i fee' hfee
    cases h
    split_ifs at hfee
    cases hfee
    rfl

theorem inspectTransaction_ok (hexact : codec.Exact) (hchain : scope.chain = chainId) {selection : List Account}
    {p : ParsedTransaction × ParsedReceipt} {o : Option ObservationDraft}
    (h : inspectTransaction codec scope (selection.map (canonicalAccount scope)) p = .ok o) :
    o = if Selected selection p.1 p.2 then some (observation scope p.1 p.2) else none := by
  simp only [inspectTransaction, bind_ok, pure_ok] at h
  obtain ⟨fee, hfee, ms, hms, touches, htouches, rfl⟩ := h
  obtain rfl := movementsOf_ok hms
  rw [matchesAddress_ok hexact hchain] at htouches
  obtain rfl := Except.ok.inj htouches
  simp only [decide_eq_true_eq, feeAmount_ok hfee, observation]

/-! ## Blocks -/

theorem mapM_filter {α β : Type} {f : α → Except IndexError (Option β)} {P : α → Prop} [DecidablePred P] {g : α → β}
    {l : List α} {r : List (Option β)} (hf : ∀ a ∈ l, ∀ o, f a = .ok o → o = if P a then some (g a) else none)
    (h : l.mapM f = .ok r) : r.reduceOption = (l.filter P).map g := by
  have hall := mapM_ok.mp h
  clear h
  induction hall with
  | nil => rfl
  | @cons a o l r hfirst _ ih =>
    obtain ⟨ha, hl⟩ := List.forall_mem_cons.mp hf
    rw [ha o hfirst]
    split_ifs with hP
    · rw [List.reduceOption_cons_of_some, ih hl, List.filter_cons_of_pos (by simpa using hP), List.map_cons]
    · rw [List.reduceOption_cons_of_none, ih hl, List.filter_cons_of_neg (by simpa using hP)]

/-- The transactions of a block, each with its receipt. -/
structure Parsed (codec : Codec) (block : Block) (pairs : List (ParsedTransaction × ParsedReceipt)) : Prop where
  parsed : ∃ b receipts, ParsedBlock.parse codec block.rawBlock (some block.reference.height) true = .ok b ∧
    b.reference = block.reference ∧ ParsedReceipt.parseAll codec block.rawReceipts b = .ok receipts ∧
    b.transactions.length = receipts.length ∧ pairs = b.transactions.zip receipts
  receipts : ∀ p ∈ pairs, ReceiptOf p.1 p.2
  hashes : (pairs.map (·.1.hash)).Nodup
  logs : ((pairs.flatMap (·.2.logs)).map (·.logIndex)).Pairwise (· < ·)

theorem Parsed.logs_of {block : Block} {pairs : List (ParsedTransaction × ParsedReceipt)} (h : Parsed codec block pairs)
    {p : ParsedTransaction × ParsedReceipt} (hp : p ∈ pairs) : (p.2.logs.map (·.logIndex)).Pairwise (· < ·) := by
  have hall := h.logs
  rw [List.map_flatMap, List.pairwise_flatMap] at hall
  exact hall.1 p hp

theorem inspect_ok {interpreter : BlockInterpreter} {block : Block} {addresses : List CanonicalAddress}
    {out : InterpretedBlock} (h : inspect codec interpreter block addresses = .ok out) :
    ∃ pairs transactions, Parsed codec block pairs ∧
      pairs.mapM (inspectTransaction codec interpreter.scope addresses) = .ok transactions ∧
      out = { block := block.reference, transactions := transactions.reduceOption, outputs := {} } := by
  simp only [inspect, bind_ok, mapError_ok, require_ok, pure_ok] at h
  obtain ⟨b, hb, _, href, receipts, hreceipts, transactions, htransactions, rfl⟩ := h
  obtain ⟨hall, hlogs⟩ := parseAll_ok hreceipts
  have hlen := hall.length_eq
  refine ⟨_, transactions, ⟨⟨b, receipts, hb, href, hreceipts, hlen, rfl⟩, ?_, ?_, ?_⟩, htransactions, rfl⟩
  · intro p hp
    exact (List.forall₂_iff_zip.mp hall).2 hp
  · have hfst : (b.transactions.zip receipts).map (·.1.hash) = b.transactions.map (·.hash) := by
      conv_rhs => rw [← List.map_fst_zip (Nat.le_of_eq hlen), List.map_map]
      rfl
    rw [hfst]
    exact parseBlock_nodup hb
  · have hsnd : (b.transactions.zip receipts).flatMap (·.2.logs) = receipts.flatMap (·.logs) := by
      conv_rhs => rw [← List.map_snd_zip (Nat.le_of_eq hlen.symm), List.flatMap_map]
    rw [hsnd]
    exact hlogs

theorem parsed_unique {block : Block} {pairs pairs' : List (ParsedTransaction × ParsedReceipt)}
    (h : Parsed codec block pairs) (h' : Parsed codec block pairs') : pairs = pairs' := by
  obtain ⟨b, receipts, hb, -, hreceipts, -, rfl⟩ := h.parsed
  obtain ⟨b', receipts', hb', -, hreceipts', -, rfl⟩ := h'.parsed
  obtain rfl := Except.ok.inj (hb.symm.trans hb')
  obtain rfl := Except.ok.inj (hreceipts.symm.trans hreceipts')
  rfl

theorem inspect_selected (hexact : codec.Exact) {interpreter : BlockInterpreter} {block : Block}
    {selection : List Account} {out : InterpretedBlock}
    (h : inspect codec interpreter block (selection.map (canonicalAccount interpreter.scope)) = .ok out) :
    ∃ pairs, Parsed codec block pairs ∧ out.block = block.reference ∧ out.outputs = {} ∧
      out.transactions = (pairs.filter fun p => Selected selection p.1 p.2).map fun p =>
        observation interpreter.scope p.1 p.2 := by
  obtain ⟨pairs, transactions, hparsed, htransactions, rfl⟩ := inspect_ok h
  refine ⟨pairs, hparsed, rfl, rfl, ?_⟩
  refine @mapM_filter _ _ _ (fun p => Selected selection p.1 p.2) _ (fun p => observation interpreter.scope p.1 p.2)
    _ _ ?_ htransactions
  intro p _ o ho
  exact inspectTransaction_ok hexact interpreter.chain_eq ho

/-! ## Admission -/

theorem logId_name (hash : Hash) (logIndex : UInt64) : (logId hash logIndex).name.toList =
    (hashText hash).str.toList ++ ':' :: Nat.toDigits 10 logIndex.toNat := by
  have hdigits : (toString logIndex).toList = Nat.toDigits 10 logIndex.toNat := by
    rw [show toString logIndex = Nat.repr logIndex.toNat from rfl, Nat.repr_eq_ofList_toDigits, String.toList_ofList]
  simp only [logId, String.toList_append, hdigits, List.append_assoc]
  rfl

theorem logId_inj {hash : Hash} {i j : UInt64} (h : logId hash i = logId hash j) : i = j := by
  have hlist := congrArg (fun id => id.name.toList) h
  simp only [logId_name, List.append_cancel_left_eq, List.cons.injEq, true_and] at hlist
  have hvalue := congrArg (Nat.ofDigitChars 10 · 0) hlist
  simp only [Nat.ofDigitChars_ten_toDigits] at hvalue
  exact UInt64.toNat_inj.mp hvalue

theorem valueId_ne_logId (hash : Hash) (logIndex : UInt64) : valueId hash ≠ logId hash logIndex := by
  intro h
  have hlist := congrArg (fun id => id.name.toList) h
  simp only [logId_name, valueId, String.toList_append, List.append_cancel_left_eq] at hlist
  have hdigit : ':' :: 'v' :: "alue".toList = ':' :: Nat.toDigits 10 logIndex.toNat := hlist
  have hmem : 'v' ∈ Nat.toDigits 10 logIndex.toNat := by
    rw [← (List.cons.inj hdigit).2]
    exact List.mem_cons_self
  have hv := Nat.isDigit_of_mem_toDigits (by decide) (by decide) hmem
  exact absurd hv (by decide)

theorem tokenMovement_some {id : MovementId} {asset : AssetId} {amount : Decimal} {source destination : Account}
    {m : ValueMovement} (h : tokenMovement scope id asset amount source destination = some m) :
    m.id = id ∧ m.asset = asset ∧ m.amount = amount := by
  unfold tokenMovement at h
  split_ifs at h
  all_goals
    cases h
    exact ⟨rfl, rfl, rfl⟩

theorem movement_some {log : ParsedLog} {hash : Hash} {m : ValueMovement} (h : log.movement hash scope = some m) :
    m.id = logId hash log.logIndex ∧ m.asset = ⟨chainId, accountText log.address⟩ ∧
      m.amount = atomicDecimal (BigEndian.number log.data) := by
  by_cases hlog : ∃ source destination, Transferred log source destination
  · obtain ⟨source, destination, htransfer⟩ := hlog
    rw [movement_transferred htransfer] at h
    exact tokenMovement_some h
  · rw [movement_none hlog] at h
    cases h

theorem nativeMovements_mem {t : ParsedTransaction} {r : ParsedReceipt} {m : ValueMovement}
    (h : m ∈ nativeMovements scope t r) :
    m.id = valueId t.hash ∧ m.asset = nativeAsset ∧ m.amount = atomicDecimal t.value.val := by
  unfold nativeMovements at h
  split_ifs at h
  · cases h
  · obtain ⟨recipient, -, rfl⟩ := List.mem_map.mp h
    exact ⟨rfl, rfl, rfl⟩

theorem nativeMovements_nodup {t : ParsedTransaction} {r : ParsedReceipt} :
    ((nativeMovements scope t r).map (·.id)).Nodup := by
  unfold nativeMovements
  split_ifs
  · exact List.nodup_nil
  · cases t.recipient.or r.contractAddress <;> simp

theorem logMovements_nodup {logs : List ParsedLog} {hash : Hash} (h : (logs.map (·.logIndex)).Pairwise (· < ·)) :
    ((logs.filterMap (·.movement hash scope)).map (·.id)).Nodup := by
  rw [List.Nodup, List.pairwise_map, List.pairwise_filterMap]
  rw [List.pairwise_map] at h
  refine h.imp ?_
  intro log log' hlt m hm m' hm' heq
  rw [(movement_some hm).1, (movement_some hm').1] at heq
  rw [logId_inj heq] at hlt
  exact UInt64.lt_irrefl _ hlt

theorem movements_nodup {t : ParsedTransaction} {r : ParsedReceipt} (h : (r.logs.map (·.logIndex)).Pairwise (· < ·)) :
    ((movements scope t r).map (·.id)).Nodup := by
  unfold movements
  split_ifs
  · rw [List.map_append, List.nodup_append]
    refine ⟨nativeMovements_nodup, logMovements_nodup h, ?_⟩
    intro id hid id' hid' heq
    obtain ⟨m, hm, rfl⟩ := List.mem_map.mp hid
    obtain ⟨m', hm', rfl⟩ := List.mem_map.mp hid'
    obtain ⟨log, -, hlog⟩ := List.mem_filterMap.mp hm'
    rw [(nativeMovements_mem hm).1, (movement_some hlog).1] at heq
    exact valueId_ne_logId _ _ heq
  · exact List.nodup_nil

theorem isNegative_atomicDecimal (value : Nat) : isNegative (atomicDecimal value) = false :=
  isNegative_normalize value _ (UInt32.toNat_lt 0)

theorem movements_mem {t : ParsedTransaction} {r : ParsedReceipt} {m : ValueMovement} (h : m ∈ movements scope t r) :
    m.id.name.isEmpty = false ∧ m.asset.chain = chainId ∧ isNegative m.amount = false := by
  unfold movements at h
  split_ifs at h
  · obtain h | h := List.mem_append.mp h
    · obtain ⟨hid, hasset, hamount⟩ := nativeMovements_mem h
      rw [hid, hasset, hamount]
      exact ⟨by simp [valueId], rfl, isNegative_atomicDecimal _⟩
    · obtain ⟨log, -, hlog⟩ := List.mem_filterMap.mp h
      obtain ⟨hid, hasset, hamount⟩ := movement_some hlog
      rw [hid, hasset, hamount]
      exact ⟨by simp [logId], rfl, isNegative_atomicDecimal _⟩
  · cases h

theorem movements_scope {t : ParsedTransaction} {r : ParsedReceipt} {m : ValueMovement} (h : m ∈ movements scope t r)
    {address : CanonicalAddress} (haddress : m.fromAddress = some address ∨ m.toAddress = some address) :
    ∃ a ∈ endpointAccounts t r, address = canonicalAccount scope a := by
  apply mem_endpoints.mp
  refine List.mem_flatMap.mpr ⟨m, h, List.mem_append.mpr ?_⟩
  simpa [Option.mem_toList] using haddress

theorem observation_admissible (hchain : scope.chain = chainId) {t : ParsedTransaction} {r : ParsedReceipt}
    (hlogs : (r.logs.map (·.logIndex)).Pairwise (· < ·)) : (observation scope t r).Admissible scope where
  scope_eq := rfl
  id_scope := rfl
  failed h := by
    simp only [observation, draft, movements] at h ⊢
    split_ifs at h ⊢
    · exact absurd rfl h
    · rfl
  ids := movements_nodup hlogs
  movements m hm := by
    obtain ⟨hname, hasset, hamount⟩ := movements_mem hm
    refine ⟨hname, hasset.trans hchain.symm, hamount, ?_, ?_⟩
    · intro address haddress
      obtain ⟨a, -, rfl⟩ := movements_scope hm (.inl haddress)
      rfl
    · intro address haddress
      obtain ⟨a, -, rfl⟩ := movements_scope hm (.inr haddress)
      rfl
  fee f hf := by
    obtain rfl := Option.some.inj hf
    exact ⟨hchain.symm, isNegative_atomicDecimal _, fun a ha => by cases ha; rfl⟩

theorem observation_addresses (hchain : scope.chain = chainId) {t : ParsedTransaction} {r : ParsedReceipt}
    (hlogs : (r.logs.map (·.logIndex)).Pairwise (· < ·)) (block : BlockRef) :
    ∃ c, (observation scope t r).canonical scope block = .ok c ∧
      ∀ a, canonicalAccount scope a ∈ c.addresses ↔ a = t.sender ∨ a ∈ endpointAccounts t r := by
  refine ⟨_, canonical_admits (observation_admissible hchain hlogs), ?_⟩
  intro a
  rw [mem_addresses, Or.comm]
  refine or_congr ?_ ?_
  · constructor
    · rintro ⟨f, hf, hpayer⟩
      obtain rfl := Option.some.inj hf
      exact (canonicalAccount_inj.mp (Option.some.inj hpayer)).symm
    · rintro rfl
      exact ⟨_, rfl, rfl⟩
  · constructor
    · rintro ⟨m, hm, haddress⟩
      obtain ⟨b, hb, heq⟩ := movements_scope hm haddress
      rw [canonicalAccount_inj.mp heq]
      exact hb
    · intro ha
      have hmem := (@mem_endpoints scope t r _).mpr ⟨a, ha, rfl⟩
      obtain ⟨m, hm, haddress⟩ := List.mem_flatMap.mp hmem
      refine ⟨m, hm, ?_⟩
      simpa [Option.mem_toList] using haddress

theorem inspectTransaction_some {addresses : List CanonicalAddress} {p : ParsedTransaction × ParsedReceipt}
    {o : Option ObservationDraft} (h : inspectTransaction codec scope addresses p = .ok o) {d : ObservationDraft}
    (hd : o = some d) : d = observation scope p.1 p.2 := by
  simp only [inspectTransaction, bind_ok, pure_ok] at h
  obtain ⟨fee, hfee, ms, hms, touches, -, rfl⟩ := h
  split_ifs at hd
  cases hd
  rw [movementsOf_ok hms, feeAmount_ok hfee, observation]

theorem recorded_sublist {addresses : List CanonicalAddress} {pairs : List (ParsedTransaction × ParsedReceipt)}
    {transactions : List (Option ObservationDraft)}
    (h : pairs.mapM (inspectTransaction codec scope addresses) = .ok transactions) :
    transactions.reduceOption.Sublist (pairs.map fun p => observation scope p.1 p.2) := by
  have hall := mapM_ok.mp h
  clear h
  induction hall with
  | nil => exact .slnil
  | @cons p o _ _ hfirst _ ih =>
    cases o with
    | none =>
      rw [List.reduceOption_cons_of_none]
      exact ih.cons _
    | some d =>
      rw [List.reduceOption_cons_of_some, List.map_cons, inspectTransaction_some hfirst rfl]
      exact ih.cons_cons _

/-- **Admission.** What is read from a block is added wherever the block connects. -/
theorem inspect_admissible {interpreter : BlockInterpreter} {block : Block} {addresses : List CanonicalAddress}
    {out : InterpretedBlock} (h : inspect codec interpreter block addresses = .ok out) :
    out.Admissible interpreter.scope := by
  obtain ⟨pairs, transactions, hparsed, htransactions, rfl⟩ := inspect_ok h
  have hsub := recorded_sublist htransactions
  constructor
  case ids =>
    have hids : ((pairs.map fun p => observation interpreter.scope p.1 p.2).map (·.transactionId)).Nodup := by
      have hmap : (pairs.map fun p => observation interpreter.scope p.1 p.2).map (·.transactionId) =
          (pairs.map (·.1.hash)).map (canonicalHash interpreter.scope) := by
        rw [List.map_map, List.map_map]
        rfl
      rw [hmap]
      exact hparsed.hashes.map fun _ _ heq => @hexText_inj 32 _ _ (by decide) (congrArg TransactionRef.value heq)
    exact hids.sublist (hsub.map _)
  case transactions =>
    intro d hd
    obtain ⟨p, hp, rfl⟩ := List.mem_map.mp (hsub.subset hd)
    exact observation_admissible interpreter.chain_eq (hparsed.logs_of hp)
  case outputs => exact empty_admissible _

end PaymentSdk.Ethereum.Indexer
