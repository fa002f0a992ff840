import PaymentSdk.Bitcoin.Sending

/-!
# What a signed transaction pays

The fee is planned before anything is signed. A source that was selected for its address is planned
with room for every signature, so that the fee covers the size of the signed transaction, and each
input of a batch is signed by the wallet at its address.
-/

open Checked

namespace PaymentSdk.Bitcoin.Sending

open Signing Wallets

variable {secp : Secp} {lib : Library} {rate : FeeRate} {available : List SpendSource} {t : UnsignedTransaction}

/-! ## Funded transactions -/

/-- What either way of building returns for the given sources. -/
def Built (lib : Library) (rate : FeeRate) (available : List SpendSource) (t : UnsignedTransaction) : Prop :=
  (∃ r : BuildRequest, r.feeRate = rate ∧ r.available = available ∧ r.build lib = .ok t) ∨
    ∃ groups, groups.flatMap (·.available) = available ∧ buildGrouped lib groups rate = .ok t

/-- The inputs pay for the outputs and for the fee that is planned for them. -/
structure Funded (lib : Library) (rate : FeeRate) (t : UnsignedTransaction) (scripts : List Script) (fee : UInt64) :
    Prop where
  scripts_eq : t.outputs.mapM (fun o => lib.scriptPubkeyForNetwork o.address) = .ok scripts
  fee_eq : predictedFee t.sources scripts rate = .ok fee
  covered : paid t.outputs + fee.toNat ≤ worth t.sources

theorem exactFee_pos {inputs : List SpendSource} {scripts : List Script} (hrate : rate.satoshisPerKvb ≠ 0) :
    0 < exactFee inputs scripts rate := by
  have hpos : 0 < rate.satoshisPerKvb.toNat := Nat.pos_of_ne_zero fun h => hrate (UInt64.toNat_inj.mp h)
  have hsize : 0 < (signedWeight inputs scripts + 3) / 4 := by
    unfold signedWeight weight totalSize baseSize
    omega
  have hproduct := Nat.mul_pos hpos hsize
  unfold exactFee
  omega

theorem Funded.nonempty {scripts : List Script} {fee : UInt64} (h : Funded lib rate t scripts fee)
    (hrate : rate.satoshisPerKvb ≠ 0) : t.inputs ≠ [] := by
  intro hnil
  have hfee := (predictedFee_ok.mp h.fee_eq).2
  have hpos := @exactFee_pos rate t.sources scripts hrate
  have hcovered := h.covered
  rw [UnsignedTransaction.sources, hnil] at hcovered
  simp only [List.map_nil, worth, Word.total_nil] at hcovered
  omega

theorem built_funded (h : Built lib rate available t) :
    (∃ scripts fee, Funded lib rate t scripts fee) ∧ rate.satoshisPerKvb ≠ 0 ∧ ∀ s ∈ t.sources, s ∈ available := by
  obtain ⟨r, rfl, rfl, hbuild⟩ | ⟨groups, rfl, hbuild⟩ := h
  · obtain ⟨payees, change, changeScript, scripts, fee, hpays⟩ := build_pays hbuild
    obtain ⟨_, hvalidate, -⟩ := bind_ok.mp hbuild
    exact ⟨⟨scripts, fee, hpays.scripts_eq, hpays.fee_eq, hpays.covered⟩, (validate_ok.mp hvalidate).2.feeRate,
      fun s hs => hpays.subperm.subset hs⟩
  · obtain ⟨b, parts, scripts, fee, hconserves⟩ := buildGrouped_conserves hbuild
    obtain ⟨_, hchecked, -⟩ := bind_ok.mp hbuild
    exact ⟨⟨scripts, fee, hconserves.scripts_eq, hconserves.fee_eq, hconserves.covered⟩, (ensure_ok.mp hchecked).2,
      fun s hs => hconserves.sources_perm.mem_iff.mp hs⟩

/-! ## Signed transactions -/

/-- The transaction that is sent is the one that was built, with a witness within its plan for each
input, and pays for its own size. -/
structure Covers (secp : Secp) (lib : Library) (rate : FeeRate) (t : UnsignedTransaction) (tx : Transaction)
    (minimum : UInt64) : Prop where
  signed : Signed secp lib t tx
  witnesses : List.Forall₂ (fun (s : SpendSource) i => witnessSize i.witness ≤ s.satisfactionWeight.toNat)
    t.sources tx.input
  vsize_lt : tx.vsize < 2 ^ 64
  minimum_eq : rate.forVsize (.ofNat tx.vsize) = .ok minimum
  covered : minimum.toNat ≤ worth t.sources - paid t.outputs

theorem signed_covers {tx : Transaction} (hbuilt : Built lib rate available t) (hsized : secp.Sized)
    (hweighed : ∀ s ∈ available, Weighed s) (h : Signed secp lib t tx) :
    ∃ minimum, Covers secp lib rate t tx minimum := by
  obtain ⟨⟨scripts, fee, hfunded⟩, hrate, hsources⟩ := built_funded hbuilt
  have hweighed' : ∀ s ∈ t.sources, Weighed s := fun s hs => hweighed s (hsources s hs)
  obtain rfl : scripts = tx.output.map (·.scriptPubkey) :=
    Except.ok.inj (hfunded.scripts_eq.symm.trans h.scripts)
  obtain ⟨hlt, hfee⟩ := predictedFee_ok.mp hfunded.fee_eq
  have hle := h.witnesses hsized hweighed'
  have hweight := h.weight_eq (hfunded.nonempty hrate)
  have hvsize : tx.vsize ≤ (signedWeight t.sources (tx.output.map (·.scriptPubkey)) + 3) / 4 := by
    unfold Transaction.vsize
    omega
  have hvsize_lt : tx.vsize < 2 ^ 64 := by omega
  have hminimum : (rate.satoshisPerKvb.toNat * tx.vsize + 999) / 1000 ≤ fee.toNat := by
    rw [hfee, exactFee]
    gcongr
  obtain ⟨minimum, hminimum_eq⟩ := Word.exists_toNat (Nat.lt_of_le_of_lt hminimum fee.toNat_lt)
  have hcovered := hfunded.covered
  refine ⟨minimum, h, ?_, hvsize_lt, ?_, by omega⟩
  · rw [UnsignedTransaction.sources, List.forall₂_map_left_iff]
    refine ((List.forall₂_and_left _ _).mpr ⟨fun _ hi => hi, h.inputs⟩).imp ?_
    intro input i hi
    exact hi.2.2.2.weight hsized (hweighed' _ (List.mem_map_of_mem hi.1))
  · rw [forVsize_ok, hminimum_eq, Word.toNat_ofNat hvsize_lt]

/-! ## Owners of a batch -/

theorem grouped_sources {groups : List Funding} (h : buildGrouped lib groups rate = .ok t) :
    t.sources = groups.flatMap fun group => byOutpoint group.available := by
  obtain ⟨b, remaining, active, hgather, -, -, -, -, rfl⟩ := buildGrouped_ok h
  rw [sources_fromSelected, Batch.available]
  have hall := mapM_ok.mp hgather
  clear hgather h
  generalize b.sources = sources at hall
  induction hall with
  | nil => rfl
  | cons hsource _ ih => rw [List.flatMap_cons, List.flatMap_cons, ih, (gather_ok hsource).available]

/-- Each wallet signs with the keys of its own address. -/
def KeysAtAddresses (c : Capabilities) (transfers : List Transfer) : Prop :=
  ∀ wallet address script, SentBy c transfers wallet address → c.lib.scriptPubkeyForNetwork address = .ok script →
    Holds c.secp script wallet.signer

theorem owner_holds {c : Capabilities} {transfers : List Transfer} {script : Script} {signer : Signer}
    (hkeys : KeysAtAddresses c transfers) (h : Owner c transfers script signer) : Holds c.secp script signer := by
  obtain ⟨wallet, address, hsent, hscript, rfl⟩ := h
  exact hkeys wallet address script hsent hscript

/-- **The planned fee covers the signed transaction, and owners sign their own inputs.** Whatever is
built from sources that weigh enough, as all selected ones do, and then signed pays at least the
fee of its actual size. The owners of a batch are those of its inputs in order, so that no error
about an owner is met. -/
theorem signed_for_fee (c : Capabilities) (hsized : c.secp.Sized) :
    (∀ rate available t signers signed, Built c.lib rate available t →
      (∀ s ∈ available, Weighed s) → signEach c.secp c.lib t signers = .ok signed →
      ∃ tx minimum, c.secp.deserialize signed.consensusBytes = .ok tx ∧ signed.id = c.secp.computeTxid tx ∧
        Covers c.secp c.lib rate t tx minimum) ∧
    (∀ address s, Selected c.lib address s → Weighed s) ∧
    ∀ transfers g t, grouping c transfers = .ok g → buildGrouped c.lib g.funding g.feeRate = .ok t →
      (∀ s ∈ t.sources, ∃ address, Selected c.lib address s) ∧
      List.Forall₂ (fun (s : SpendSource) signer => Owner c transfers s.scriptPubkey signer) t.sources g.owners ∧
      (KeysAtAddresses c transfers → ∀ e, signEach c.secp c.lib t g.owners = .error e →
        e ≠ .signerCount ∧ (∀ index, e ≠ .notOwner index) ∧ ∀ index, e ≠ .notTaprootOwner index) := by
  refine ⟨?_, fun _ _ => selected_weighed, ?_⟩
  · intro rate available t signers signed hbuilt hweighed hsign
    obtain ⟨-, tx, tx', htx, hid, hbytes, hread⟩ := signEach_ok hsign
    obtain ⟨minimum, hcovers⟩ := signed_covers hbuilt hsized hweighed htx
    obtain rfl : tx' = tx := hsized.consensus tx tx' (hbytes ▸ hread)
    exact ⟨tx', minimum, hread, hid, hcovers⟩
  · intro transfers g t hgroup hbuild
    obtain ⟨hselected, howners, -⟩ := grouping_ok hgroup
    have hsources := grouped_sources hbuild
    rw [← hsources] at howners
    refine ⟨?_, howners, ?_⟩
    · intro s hs
      rw [hsources, List.mem_flatMap] at hs
      obtain ⟨group, hgroup, hs⟩ := hs
      exact ⟨_, hselected group hgroup s ((byOutpoint_perm _).mem_iff.mp hs)⟩
    · intro hkeys e he
      have hholds := howners.imp fun _ _ h => owner_holds hkeys h
      refine ⟨?_, fun index => ?_, fun index => ?_⟩
      all_goals
        rintro rfl
        refine signEach_owned hholds ?_ he
        rintro e' ⟨⟩

/-! ## A sample -/

/-- The sample source spent with the longest signature. -/
def sampleSigned (values : List UInt64) : Transaction where
  version := 2
  lockTime := 0
  input := [⟨(sampleSource 0).outpoint, enableRbfNoLocktime, [List.replicate 71 0x30 ++ [0x01], List.replicate 33 2]⟩]
  output := values.map (⟨·, sampleScript 7⟩)

def sampleEncode (known tx : Transaction) : Bytes := if tx = known then [1] else []

def sampleDecode (known : Transaction) (bytes : Bytes) : Except String Transaction :=
  if bytes = [1] then .ok known else .error "unexpected end of file"

/-- One key, with the one signature that it makes, and the encoding of one transaction. -/
def sampleSecp (known : Transaction) : Secp where
  CompressedKey := Unit
  compressedFromSlice bytes := if bytes = List.replicate 33 2 then .ok () else .error "malformed public key"
  compressedBytes _ := List.replicate 33 2
  p2wpkh _ := sampleScript 7
  p2wpkhSighash _ _ _ _ _ := .ok []
  EcdsaSignature := Unit
  ecdsaFromDer bytes := if bytes = List.replicate 71 0x30 then .ok () else .error "malformed signature"
  verifyEcdsa _ _ _ := true
  serializeEcdsa _ flag := List.replicate 71 0x30 ++ [flag]
  XOnlyKey := Unit
  xOnlyFromSlice _ := .error "malformed public key"
  p2tr _ := 0x51 :: 0x20 :: List.replicate 32 7
  taprootSighash _ _ _ _ := .ok []
  SchnorrSignature := Unit
  schnorrFromSlice _ := .error "malformed signature"
  verifySchnorr _ _ _ := false
  serializeSchnorr _ flag := List.replicate 64 0 ++ [flag]
  computeTxid _ := ⟨List.replicate 32 2, rfl⟩
  serialize := sampleEncode known
  deserialize := sampleDecode known

theorem sampleSecp_sized (known : Transaction) : (sampleSecp known).Sized where
  compressed _ := rfl
  ecdsa _ _ := by simp [sampleSecp]
  schnorr _ _ := .inr (by simp [sampleSecp])
  consensus t t' h := by
    have hread : sampleDecode known (sampleEncode known t) = .ok t' := h
    unfold sampleEncode at hread
    split_ifs at hread with hknown
    · exact (Except.ok.inj hread).symm.trans hknown.symm
    · cases hread

def sampleSigner : Signer := fun r => .ok ⟨List.replicate 33 2, r.scheme, r.encoding, List.replicate 71 0x30⟩

def sampleAddresses : NativeAddresses where
  Native := String
  parse text := if text = sampleAddress.encoded then .ok text else .error "base58 error"
  requireNetwork _ address := .ok address
  display address := address

def sampleCapabilities (known : Transaction) (rate : UInt64) : Capabilities where
  secp := sampleSecp known
  lib := sampleLibrary
  addresses := sampleAddresses
  network := .regtest
  estimate _ := .ok ⟨rate⟩
  utxos _ _ := .ok ⟨⟨⟨0⟩, ⟨0⟩, ⟨[]⟩, none, none⟩, [⟨(sampleSource 0).transactionId, 2, 100000, sampleScript 7⟩]⟩
  feeTargetBlocks := 1
  maxFeeRate := ⟨1000⟩

def sampleTransfer (amount : Decimal) : Transfer where
  wallet := ⟨⟨asBytes sampleAddress.encoded, fun text => .ok (asBytes text.text)⟩, sampleSigner⟩
  destination := ⟨.bech32, sampleAddress.encoded⟩
  amount

/-- Two transfers from one wallet. -/
def sampleBatch : List Transfer :=
  [sampleTransfer (.normalize 4 4 (by decide)), sampleTransfer (.normalize 5 4 (by decide))]

def sampleSender : Source where
  wallet := (sampleTransfer (.normalize 4 4 (by decide))).wallet
  address := sampleAddress
  recipients := [⟨sampleAddress, 40000⟩, ⟨sampleAddress, 50000⟩]

def sampleGrouping : Grouping where
  feeRate := ⟨1000⟩
  funding := [⟨[sampleSource 100000], [⟨sampleAddress, 40000⟩, ⟨sampleAddress, 50000⟩], sampleAddress⟩]
  owners := [sampleSigner]

def sampleUnsigned : UnsignedTransaction :=
  .fromSelected [sampleSource 100000] [⟨sampleAddress, 40000⟩, ⟨sampleAddress, 50000⟩, ⟨sampleAddress, 9828⟩]

theorem sample_address (known : Transaction) (rate : UInt64) :
    fromWalletAddress (sampleCapabilities known rate) (asBytes sampleAddress.encoded) = .ok sampleAddress := by
  rw [fromWalletAddress, fromUtf8_asBytes]
  simp only [sampleCapabilities, parseForNetwork, sampleAddresses, if_pos]
  rfl

theorem sample_parse (known : Transaction) (rate : UInt64) {amount : Decimal} {satoshis : UInt64}
    (h : amount.toAtomicU64 8 = .ok satoshis) :
    parse (sampleCapabilities known rate) (sampleTransfer amount) = .ok (sampleAddress, ⟨sampleAddress, satoshis⟩) := by
  simp only [parse, sampleTransfer, bind_ok, mapError_ok, pure_ok, outputOf]
  exact ⟨_, sample_address known rate, _, rfl, _, sample_address known rate, _, ⟨_, h, rfl⟩, rfl⟩

theorem sample_grouping (known : Transaction) :
    grouping (sampleCapabilities known 1000) sampleBatch = .ok sampleGrouping := by
  simp only [grouping, operation, bind_ok, mapError_ok, require_ok, pure_ok]
  refine ⟨(), by decide, (), by decide, [sampleSender], ?_, ⟨1000⟩, rfl, (), UInt64.le_refl _, (_, _), rfl, rfl⟩
  simp only [sampleBatch, sourcesFrom, bind_ok, mapError_ok]
  exact ⟨_, @sample_parse known 1000 _ 40000 (by decide), _,
    @sample_parse known 1000 _ 50000 (by decide), rfl⟩

theorem sample_keys (known : Transaction) : KeysAtAddresses (sampleCapabilities known 1000) sampleBatch := by
  rintro wallet address script ⟨transfer, htransfer, rfl, -⟩ hscript
  obtain ⟨-, rfl⟩ : address = sampleAddress ∧ script = sampleScript 7 := by
    simp only [sampleCapabilities, sampleLibrary] at hscript
    split_ifs at hscript with haddress
    exact ⟨haddress, (Except.ok.inj hscript).symm⟩
  exact ⟨fun _ _ _ _ _ _ _ => rfl, fun _ _ _ _ _ _ hkey => nomatch hkey⟩

theorem sample_selected (known : Transaction) :
    Selected (sampleCapabilities known 1000).lib sampleAddress (sampleSource 100000) :=
  ⟨⟨(sampleSource 0).transactionId, 2, 100000, sampleScript 7⟩, by rfl⟩

theorem signed_for_fee_sample :
    (∃ tx minimum, sampleDecode (sampleSigned [40000, 50000, 9828]) [1] = .ok tx ∧
      Covers (sampleSecp (sampleSigned [40000, 50000, 9828])) sampleLibrary ⟨1000⟩ sampleUnsigned tx minimum) ∧
    ∀ e, signEach (sampleSecp (sampleSigned [])) sampleLibrary sampleUnsigned sampleGrouping.owners = .error e →
      e ≠ .signerCount := by
  constructor
  · obtain ⟨hmain, hweighed, -⟩ :=
      signed_for_fee (sampleCapabilities (sampleSigned [40000, 50000, 9828]) 1000) (sampleSecp_sized _)
    obtain ⟨tx, minimum, hread, -, hcovers⟩ := hmain ⟨1000⟩ [sampleSource 100000] sampleUnsigned [sampleSigner]
      ⟨⟨List.replicate 32 2, rfl⟩, [1]⟩ (.inr ⟨sampleGrouping.funding, rfl, by decide +kernel⟩)
      (by simpa using hweighed _ _ (sample_selected _)) (by rfl)
    exact ⟨tx, minimum, hread, hcovers⟩
  · have hmain := (signed_for_fee (sampleCapabilities (sampleSigned []) 1000) (sampleSecp_sized _)).2.2
    obtain ⟨-, -, howners⟩ := hmain sampleBatch sampleGrouping sampleUnsigned (sample_grouping _) (by decide +kernel)
    exact fun e he => (howners (sample_keys _) e he).1

def unweighedRequest : BuildRequest where
  available := [{ sampleSource 100000 with satisfactionWeight := 0 }]
  recipients := [⟨sampleAddress, 99917⟩]
  changeAddress := sampleAddress
  feeRate := ⟨1000⟩
  drainWallet := false

def unweighedUnsigned : UnsignedTransaction :=
  .fromSelected unweighedRequest.available unweighedRequest.recipients

/-- The weight of a source is a public field, and building does not check it. A source that claims
no weight gets a witness that is heavier, and the fee of 83 does not cover 110 virtual bytes. -/
theorem unweighed_source :
    (sampleSecp (sampleSigned [99917])).Sized ∧ unweighedRequest.build sampleLibrary = .ok unweighedUnsigned ∧
      sign (sampleSecp (sampleSigned [99917])) sampleLibrary unweighedUnsigned sampleSigner =
        .ok ⟨⟨List.replicate 32 2, rfl⟩, [1]⟩ ∧
      sampleDecode (sampleSigned [99917]) [1] = .ok (sampleSigned [99917]) ∧
      (∃ s ∈ unweighedUnsigned.sources, ∃ i ∈ (sampleSigned [99917]).input,
        i.previousOutput = s.outpoint ∧ s.satisfactionWeight.toNat < witnessSize i.witness) ∧
      (⟨1000⟩ : FeeRate).forVsize (.ofNat (sampleSigned [99917]).vsize) = .ok 110 ∧
      worth unweighedUnsigned.sources - paid unweighedUnsigned.outputs = 83 := by
  refine ⟨sampleSecp_sized _, by decide +kernel, by rfl, by rfl, ?_, by decide +kernel, by decide +kernel⟩
  exact ⟨_, List.mem_cons_self, _, List.mem_cons_self, rfl, by decide⟩

end PaymentSdk.Bitcoin.Sending
