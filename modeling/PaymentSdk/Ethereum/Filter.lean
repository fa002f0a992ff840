import PaymentSdk.Ethereum.Recorded
import PaymentSdk.Sync.Isolation

/-!
# The Ethereum interpreter as a filter

The selection decides which transactions are recorded and nothing of what is said about them. A
transaction is relevant to its parties, and those include a recipient and a created contract that
nothing moves to.
-/

open Checked
open PaymentSdk.Sync (SourceBlock PureFilter SelectsBy Environment)

namespace PaymentSdk.Ethereum.Indexer

instance : SourceBlock Block := ⟨Block.reference⟩

variable {codec : Codec} {scope : IndexScope}

/-- The transactions of a block with their receipts, none where it does not parse. -/
def pairsOf (codec : Codec) (block : Block) : List (ParsedTransaction × ParsedReceipt) :=
  match ParsedBlock.parse codec block.rawBlock (some block.reference.height) true with
  | .error _ => []
  | .ok parsed =>
    match ParsedReceipt.parseAll codec block.rawReceipts parsed with
    | .error _ => []
    | .ok receipts => parsed.transactions.zip receipts

theorem pairsOf_eq {block : Block} {pairs : List (ParsedTransaction × ParsedReceipt)} (h : Parsed codec block pairs) :
    pairsOf codec block = pairs := by
  obtain ⟨parsed, receipts, hparsed, -, hreceipts, -, rfl⟩ := h.parsed
  simp only [pairsOf, hparsed, hreceipts]

/-- A selected address reads as a party. -/
def isParty (codec : Codec) (addresses : List CanonicalAddress) (p : ParsedTransaction × ParsedReceipt) : Bool :=
  addresses.any fun address => (parseCanonicalAddress codec address).toOption.any fun a => (parties p.1 p.2).contains a

/-! ## The loop over the selection -/

theorem matchesAny_eq {touched : List Account} {addresses : List CanonicalAddress} {found : Bool}
    (h : matchesAny codec scope touched addresses = .ok found) :
    found = addresses.any fun address =>
      (parseCanonicalAddress codec address).toOption.any fun a => decide (a ∈ touched) := by
  induction addresses with
  | nil =>
    cases h
    rfl
  | cons address rest ih =>
    rw [matchesAny] at h
    obtain ⟨-, -, h⟩ := bind_ok.mp h
    obtain ⟨a, ha, h⟩ := bind_ok.mp h
    rw [List.any_cons, ha]
    split_ifs at h with htouched
    · -- It stops here, and what comes after is not even read.
      rw [pure_ok.mp h]
      simp [Except.toOption, htouched]
    · rw [ih h]
      simp [Except.toOption, htouched]

theorem matchesAddress_eq (hexact : codec.Exact) (hchain : scope.chain = chainId) {t : ParsedTransaction}
    {r : ParsedReceipt} {addresses : List CanonicalAddress} {found : Bool}
    (h : matchesAddress codec scope t r (movements scope t r) addresses = .ok found) :
    found = isParty codec addresses (t, r) := by
  obtain ⟨touched, htouched, hmem⟩ := @touchedAddresses_ok codec scope hexact hchain t r
  rw [matchesAddress, htouched] at h
  rw [matchesAny_eq h, isParty]
  simp only [hmem, List.contains_eq_mem]

theorem inspectTransaction_eq (hexact : codec.Exact) (hchain : scope.chain = chainId)
    {addresses : List CanonicalAddress} {p : ParsedTransaction × ParsedReceipt} {o : Option ObservationDraft}
    (h : inspectTransaction codec scope addresses p = .ok o) :
    o = if isParty codec addresses p = true then some (observation scope p.1 p.2) else none := by
  simp only [inspectTransaction, bind_ok, pure_ok] at h
  obtain ⟨fee, hfee, ms, hms, touches, htouches, rfl⟩ := h
  obtain rfl := movementsOf_ok hms
  rw [← matchesAddress_eq hexact hchain htouches]
  simp only [feeAmount_ok hfee, observation]

/-! ## The filter -/

/-- A draft is relevant by the transaction that it is about. -/
def isRelevant (codec : Codec) (block : Block) (addresses : List CanonicalAddress) (d : ObservationDraft) : Bool :=
  (pairsOf codec block).any fun p =>
    decide (canonicalHash d.scope p.1.hash = d.transactionId) && isParty codec addresses p

theorem isRelevant_observation {block : Block} {p : ParsedTransaction × ParsedReceipt}
    (hp : p ∈ pairsOf codec block) {addresses : List CanonicalAddress}
    (h : isParty codec addresses p = true) : isRelevant codec block addresses (observation scope p.1 p.2) = true :=
  List.any_eq_true.mpr ⟨p, hp, by simpa [observation, draft] using h⟩

theorem isParty_of_touches (hexact : codec.Exact) (hchain : scope.chain = chainId)
    {p : ParsedTransaction × ParsedReceipt} {addresses : List CanonicalAddress}
    (h : addresses.any (observation scope p.1 p.2).touches = true) : isParty codec addresses p = true := by
  obtain ⟨address, haddress, htouches⟩ := List.any_eq_true.mp h
  have hparty : ∃ a ∈ parties p.1 p.2, address = canonicalAccount scope a := by
    rw [ObservationDraft.touches, Bool.or_eq_true] at htouches
    rcases htouches with hmoved | hpaid
    · obtain ⟨m, hm, hends⟩ := List.any_eq_true.mp hmoved
      obtain ⟨a, ha, rfl⟩ := movements_scope hm (by simpa using hends)
      exact ⟨a, List.mem_append_right _ ha, rfl⟩
    · have hpayer : some (canonicalAccount scope p.1.sender) = some address := of_decide_eq_true hpaid
      exact ⟨p.1.sender, by simp [parties], (Option.some.inj hpayer).symm⟩
  obtain ⟨a, ha, rfl⟩ := hparty
  refine List.any_eq_true.mpr ⟨_, haddress, ?_⟩
  rw [parse_canonicalAccount hexact hchain]
  simpa [Except.toOption] using ha

/-- A block's observations, each relevant to the parties of its transaction. -/
def blockFilter (hexact : codec.Exact) (interpreter : BlockInterpreter) : PureFilter Block where
  observe block := (pairsOf codec block).map fun p => observation interpreter.scope p.1 p.2
  relevant := isRelevant codec
  touched := by
    intro block addresses d hd htouched
    obtain ⟨p, hp, rfl⟩ := List.mem_map.mp hd
    exact isRelevant_observation hp (isParty_of_touches hexact interpreter.chain_eq htouched)

theorem isRelevant_iff {block : Block} {pairs : List (ParsedTransaction × ParsedReceipt)}
    (h : Parsed codec block pairs) {addresses : List CanonicalAddress} {p : ParsedTransaction × ParsedReceipt}
    (hp : p ∈ pairs) :
    isRelevant codec block addresses (observation scope p.1 p.2) = true ↔ isParty codec addresses p = true := by
  constructor
  · intro hrelevant
    obtain ⟨q, hq, hmatch⟩ := List.any_eq_true.mp hrelevant
    rw [pairsOf_eq h] at hq
    rw [Bool.and_eq_true, decide_eq_true_eq] at hmatch
    have hhash : q.1.hash = p.1.hash := @hexText_inj 32 _ _ (by decide) (congrArg TransactionRef.value hmatch.1)
    rw [← List.inj_on_of_nodup_map h.hashes hq hp hhash]
    exact hmatch.2
  · intro hparty
    exact isRelevant_observation (by rwa [pairsOf_eq h]) hparty

/-- **The interpreter filters.** Where it returns, it returns the observations of the block that
are relevant to the selection. -/
theorem selectsBy_inspect (hexact : codec.Exact) (interpreter : BlockInterpreter) {env : Environment Block}
    (henv : env.inspect = inspect codec interpreter) : SelectsBy env (blockFilter hexact interpreter) := by
  intro block addresses out hout
  rw [henv] at hout
  obtain ⟨pairs, transactions, hparsed, htransactions, rfl⟩ := inspect_ok hout
  change transactions.reduceOption =
    ((pairsOf codec block).map fun p => observation interpreter.scope p.1 p.2).filter (isRelevant codec block addresses)
  have hselected : transactions.reduceOption =
      (pairs.filter fun p => isParty codec addresses p = true).map fun p => observation interpreter.scope p.1 p.2 :=
    mapM_filter (fun p _ o ho => inspectTransaction_eq hexact interpreter.chain_eq ho) htransactions
  rw [hselected, pairsOf_eq hparsed, List.filter_map]
  congr 1
  refine List.filter_congr fun p hp => ?_
  rw [Function.comp_apply, Bool.eq_iff_iff, isRelevant_iff hparsed hp, decide_eq_true_eq]

end PaymentSdk.Ethereum.Indexer
