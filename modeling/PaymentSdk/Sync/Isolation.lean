import PaymentSdk.Redb.Listing
import PaymentSdk.Sync.Independence

/-!
# One address's history and the other addresses

The interpreter records what is relevant to the active addresses, and the repository files it
under every address that it touches. So what an address has in its history may come from the
others that are watched.
-/

open Interaction KvStore

namespace PaymentSdk.Sync

open Redb
open Admission (leastPosition)
open SourceBlock (blockRef)

/-! ## What a run records -/

/-- What a block has to say does not depend on the selection, which only decides what of it is
relevant. That is at least what touches a selected address, and may be more: a call can be
relevant to a contract that it moves nothing to. -/
structure PureFilter (B : Type) where
  observe : B → List ObservationDraft
  relevant : B → List CanonicalAddress → ObservationDraft → Bool
  touched : ∀ b addresses, ∀ d ∈ observe b, addresses.any d.touches = true → relevant b addresses d = true

variable {B : Type} [SourceBlock B] {env : Environment B} {chain : SourceChain B}
  {size : Value → Bool} {scope : IndexScope} {retention : Nat} {filters : List AddressFilter}
  {filter : PureFilter B} {start birthday : BlockPosition} {s : Store Value}
  {address : CanonicalAddress} {checkpoint : Option BlockRef}

/-- The interpreter selects by the filter. -/
def SelectsBy (env : Environment B) (filter : PureFilter B) : Prop :=
  ∀ b addresses interpreted, env.inspect b addresses = .ok interpreted →
    interpreted.transactions = (filter.observe b).filter (filter.relevant b addresses)

/-- A draft of the block that is relevant to the addresses active there. -/
def Recorded (filter : PureFilter B) (filters : List AddressFilter) (b : B) (d : ObservationDraft) : Prop :=
  d ∈ filter.observe b ∧ filter.relevant b (activeAt filters (blockRef b).position) d = true

/-- The branch has the recorded transactions of its blocks, and no others. -/
theorem mem_stack (hpure : SelectsBy env filter) {blocks : List B} {branch : List BlockAddition}
    (h : stackOf env scope retention filters blocks = .ok branch) :
    (∀ b ∈ blocks, ∀ d, Recorded filter filters b d →
      ∃ a ∈ branch, ∃ t ∈ a.transactions, d.canonical scope (blockRef b) = .ok t) ∧
    ∀ a ∈ branch, ∀ t ∈ a.transactions, ∃ b ∈ blocks, ∃ d, Recorded filter filters b d ∧
      d.canonical scope (blockRef b) = .ok t := by
  induction blocks using List.reverseRecOn generalizing branch with
  | nil =>
    cases h
    simp
  | append_singleton blocks b ih =>
    obtain ⟨lower, a, hlower, ha, rfl⟩ := stackOf_snoc.mp h
    obtain ⟨hall, hback⟩ := ih hlower
    obtain ⟨interpreted, hinspect, hblock, hnew⟩ := additionOf_ok.mp ha
    have hts := new_transactions hnew
    rw [hblock] at hts
    obtain ⟨hdrafts, hfrom⟩ := mem_canonicalAll hts
    rw [hpure _ _ _ hinspect] at hdrafts hfrom
    constructor
    · intro c hc d hd
      rcases List.mem_append.mp hc with hc | hc
      · obtain ⟨a', ha', t, ht, hcanonical⟩ := hall c hc d hd
        exact ⟨a', List.mem_cons_of_mem _ ha', t, ht, hcanonical⟩
      · obtain rfl := List.mem_singleton.mp hc
        obtain ⟨t, ht, hcanonical⟩ := hdrafts d (List.mem_filter.mpr hd)
        exact ⟨a, List.mem_cons_self, t, ht, hcanonical⟩
    · intro a' ha' t ht
      rcases List.mem_cons.mp ha' with rfl | ha'
      · obtain ⟨d, hd, hcanonical⟩ := hfrom t ht
        exact ⟨b, by simp, d, List.mem_filter.mp hd, hcanonical⟩
      · obtain ⟨c, hc, d, hd, hcanonical⟩ := hback a' ha' t ht
        exact ⟨c, List.mem_append_left _ hc, d, hd, hcanonical⟩

/-! ## What a checkpoint covers -/

/-- The blocks through the checkpoint. -/
def upTo (checkpoint : Option BlockRef) (blocks : List B) : List B :=
  blocks.filter fun b => checkpoint.any fun c => decide ((blockRef b).position ≤ c.position)

theorem take_eq_upTo {n : Nat} (hsorted : (chain.covered start).Pairwise fun a b => positionOf a < positionOf b) :
    (chain.covered start).take n =
      upTo (((chain.covered start).take n).getLast?.map blockRef) (chain.covered start) := by
  generalize chain.covered start = blocks at hsorted
  rw [← List.take_append_drop n blocks] at hsorted
  obtain ⟨hfront, -, hcross⟩ := List.pairwise_append.mp hsorted
  cases hlast : (blocks.take n).getLast? with
  | none =>
    rw [List.getLast?_eq_none_iff] at hlast
    simp [upTo, hlast]
  | some last =>
    have hle : ∀ b ∈ blocks.take n, positionOf b ≤ positionOf last :=
      fun b hb => Sorted.key_le_getLast hfront hlast hb
    have hgt : ∀ b ∈ blocks.drop n, positionOf last < positionOf b :=
      fun b hb => hcross last (List.mem_of_getLast? hlast) b hb
    unfold upTo
    conv_rhs => rw [← List.take_append_drop n blocks]
    rw [List.filter_append, List.filter_eq_self.mpr, List.filter_eq_nil_iff.mpr, List.append_nil]
    · intro b hb
      have := hgt b hb
      simp only [Option.map_some, Option.any_some, decide_eq_true_eq, BlockPosition.le_def]
      unfold positionOf at this
      omega
    · intro b hb
      simpa [BlockPosition.le_def, positionOf] using hle b hb

/-- One run: a chain watched with a filter set. -/
structure Watched (chain : SourceChain B) (filter : PureFilter B) (scope : IndexScope)
    (env : Environment B) (size : Value → Bool) (retention : Nat) (filters : List AddressFilter)
    (start : BlockPosition) (s : Store Value) : Prop where
  honours : Honours env chain filters
  selects : SelectsBy env filter
  within : ∀ f ∈ filters, f.address.scope = scope
  earliest : leastPosition (filters.map (·.startPosition)) = some start
  cover : start ≤ (blockRef chain.tip).position
  synced : Synced env size scope retention s

theorem watched_branch (h : Watched chain filter scope env size retention filters start s)
    (hck : s.valueAt (Keys.checkpoint scope) = checkpointValue checkpoint) :
    ∃ branch, Holds size scope branch s ∧
      stackOf env scope retention filters (upTo checkpoint (chain.covered start)) = .ok branch := by
  obtain ⟨n, hstored⟩ := exists_stored h.honours h.earliest h.cover h.synced
  have hcheckpoint := checkpointValue_inj (hck.symm.trans (checkpoint_of_stored hstored))
  obtain ⟨branch, -, hstack, hj⟩ := hstored
  refine ⟨branch, hj.holds, ?_⟩
  rw [hcheckpoint, ← take_eq_upTo (covered_ascending chain start)]
  exact hstack

/-! ## Two runs -/

variable {env₁ env₂ : Environment B} {size₁ size₂ : Value → Bool} {retention₁ retention₂ : Nat}
  {filters₁ filters₂ : List AddressFilter} {start₁ start₂ : BlockPosition} {s₁ s₂ : Store Value}

/-- The history of the address is the same in both runs and starts at its birthday, and nobody
has one who is in no filter of the run. -/
def Separate (scope : IndexScope) (address : CanonicalAddress) (birthday : BlockPosition)
    (filters₁ filters₂ : List AddressFilter) (s₁ s₂ : Store Value) : Prop :=
  (∃ items, Lists scope s₁ address items ∧ Lists scope s₂ address items ∧
    ∀ t ∈ items, birthday ≤ t.block.position) ∧
  (∀ z, z.scope = scope → z ∉ filters₁.map (·.address) → Lists scope s₁ z []) ∧
  ∀ z, z.scope = scope → z ∉ filters₂.map (·.address) → Lists scope s₂ z []

/-- What is recorded in these blocks touches the address only from its birthday on, and no
address without a filter. -/
def Contained (filter : PureFilter B) (filters : List AddressFilter)
    (address : CanonicalAddress) (birthday : BlockPosition) (blocks : List B) : Prop :=
  ∀ b ∈ blocks, ∀ d, Recorded filter filters b d →
    (d.touches address = true → birthday ≤ (blockRef b).position) ∧
    ∀ z, d.touches z = true → z ∈ filters.map (·.address)

theorem contained_of_lists (h : Watched chain filter scope env size retention filters start s)
    (hck : s.valueAt (Keys.checkpoint scope) = checkpointValue checkpoint)
    (haddress : address.scope = scope) {items : List CanonicalTransaction}
    (hitems : Lists scope s address items) (hlate : ∀ t ∈ items, birthday ≤ t.block.position)
    (hothers : ∀ z, z.scope = scope → z ∉ filters.map (·.address) → Lists scope s z []) :
    Contained filter filters address birthday (upTo checkpoint (chain.covered start)) := by
  obtain ⟨branch, hholds, hstack⟩ := watched_branch h hck
  intro b hb d hd
  obtain ⟨a, ha, t, ht, hcanonical⟩ := (mem_stack h.selects hstack).1 b hb d hd
  have hvalid := (canonical_ok hcanonical).1
  constructor
  · intro htouches
    have hlisted := (mem_lists hholds haddress hitems).mpr ⟨a, ha, ht, (touches_iff hcanonical).mp htouches⟩
    have := hlate t hlisted
    rwa [hvalid.block_eq] at this
  · intro z htouches
    by_contra hz
    have hmem := (touches_iff hcanonical).mp htouches
    have hscope := addresses_scope hvalid hmem
    have hempty := (mem_lists hholds hscope (hothers z hscope hz)).mpr ⟨a, ha, ht, hmem⟩
    cases hempty

theorem mem_activeAt (h : (⟨address, birthday⟩ : AddressFilter) ∈ filters) {position : BlockPosition}
    (hle : birthday ≤ position) : address ∈ activeAt filters position := by
  rw [activeAt, List.mem_map]
  exact ⟨⟨address, birthday⟩, List.mem_filter.mpr ⟨h, by simpa using hle⟩, rfl⟩

theorem touching_of_contained (h₁ : Watched chain filter scope env₁ size₁ retention₁ filters₁ start₁ s₁)
    (h₂ : Watched chain filter scope env₂ size₂ retention₂ filters₂ start₂ s₂)
    (hin₂ : (⟨address, birthday⟩ : AddressFilter) ∈ filters₂)
    (hcontained : Contained filter filters₁ address birthday (upTo checkpoint (chain.covered start₁)))
    {branch₁ branch₂ : List BlockAddition}
    (hstack₁ : stackOf env₁ scope retention₁ filters₁ (upTo checkpoint (chain.covered start₁)) = .ok branch₁)
    (hstack₂ : stackOf env₂ scope retention₂ filters₂ (upTo checkpoint (chain.covered start₂)) = .ok branch₂)
    {t : CanonicalTransaction} (ht : Touching branch₁ address t) : Touching branch₂ address t := by
  obtain ⟨a, ha, hta, hmem⟩ := ht
  obtain ⟨b, hb, d, hd, hcanonical⟩ := (mem_stack h₁.selects hstack₁).2 a ha t hta
  have htouches := (touches_iff hcanonical).mpr hmem
  have hlate := (hcontained b hb d hd).1 htouches
  obtain ⟨hcovered, hupTo⟩ := List.mem_filter.mp hb
  have hstart : start₂ ≤ birthday :=
    leastPosition_le h₂.earliest (List.mem_map_of_mem (f := (·.startPosition)) hin₂)
  -- The block is covered in the other run too, with the address active.
  have hb₂ : b ∈ upTo checkpoint (chain.covered start₂) := by
    refine List.mem_filter.mpr ⟨List.mem_append_right _ (List.mem_filter.mpr ⟨mem_of_covered hcovered, ?_⟩),
      hupTo⟩
    have hle : start₂ ≤ (blockRef b).position := Nat.le_trans hstart hlate
    simpa using hle
  have hd₂ : Recorded filter filters₂ b d :=
    ⟨hd.1, filter.touched _ _ d hd.1 (List.any_eq_true.mpr ⟨address, mem_activeAt hin₂ hlate, htouches⟩)⟩
  obtain ⟨a₂, ha₂, t₂, ht₂, hcanonical₂⟩ := (mem_stack h₂.selects hstack₂).1 b hb₂ d hd₂
  rw [hcanonical] at hcanonical₂
  cases hcanonical₂
  exact ⟨a₂, ha₂, ht₂, hmem⟩

theorem lists_nil_of_contained (h : Watched chain filter scope env size retention filters start s)
    (hck : s.valueAt (Keys.checkpoint scope) = checkpointValue checkpoint)
    (hcontained : Contained filter filters address birthday (upTo checkpoint (chain.covered start)))
    {z : CanonicalAddress} (hscope : z.scope = scope) (hz : z ∉ filters.map (·.address)) :
    Lists scope s z [] := by
  obtain ⟨branch, hholds, hstack⟩ := watched_branch h hck
  obtain ⟨items, hitems⟩ := exists_lists hholds z
  have hnone : items = [] := by
    apply List.eq_nil_iff_forall_not_mem.mpr
    intro t ht
    obtain ⟨a, ha, hta, hmem⟩ := (mem_lists hholds hscope hitems).mp ht
    obtain ⟨b, hb, d, hd, hcanonical⟩ := (mem_stack h.selects hstack).2 a ha t hta
    exact hz ((hcontained b hb d hd).2 z ((touches_iff hcanonical).mpr hmem))
  rwa [hnone] at hitems

/-- Two runs over one chain that both watch an address from its birthday on, at the same
checkpoint. Histories are separate if and only if nothing recorded in either of them touches
the address before its birthday, or an address without a filter. -/
theorem separate_iff_contained (h₁ : Watched chain filter scope env₁ size₁ retention₁ filters₁ start₁ s₁)
    (h₂ : Watched chain filter scope env₂ size₂ retention₂ filters₂ start₂ s₂)
    (hin₁ : (⟨address, birthday⟩ : AddressFilter) ∈ filters₁)
    (hin₂ : (⟨address, birthday⟩ : AddressFilter) ∈ filters₂)
    (hck₁ : s₁.valueAt (Keys.checkpoint scope) = checkpointValue checkpoint)
    (hck₂ : s₂.valueAt (Keys.checkpoint scope) = checkpointValue checkpoint) :
    Separate scope address birthday filters₁ filters₂ s₁ s₂ ↔
      Contained filter filters₁ address birthday (upTo checkpoint (chain.covered start₁)) ∧
      Contained filter filters₂ address birthday (upTo checkpoint (chain.covered start₂)) := by
  have haddress : address.scope = scope := h₁.within _ hin₁
  constructor
  · rintro ⟨⟨items, hitems₁, hitems₂, hlate⟩, hothers₁, hothers₂⟩
    exact ⟨contained_of_lists h₁ hck₁ haddress hitems₁ hlate hothers₁,
      contained_of_lists h₂ hck₂ haddress hitems₂ hlate hothers₂⟩
  · rintro ⟨hc₁, hc₂⟩
    obtain ⟨branch₁, hholds₁, hstack₁⟩ := watched_branch h₁ hck₁
    obtain ⟨branch₂, hholds₂, hstack₂⟩ := watched_branch h₂ hck₂
    obtain ⟨items, hitems⟩ := exists_lists hholds₁ address
    have hsame : ∀ t, Touching branch₁ address t ↔ Touching branch₂ address t := fun t =>
      ⟨touching_of_contained h₁ h₂ hin₂ hc₁ hstack₁ hstack₂,
        touching_of_contained h₂ h₁ hin₁ hc₂ hstack₂ hstack₁⟩
    refine ⟨⟨items, hitems, (lists_congr hholds₁ hholds₂ haddress hsame).mp hitems, ?_⟩,
      fun z hscope hz => lists_nil_of_contained h₁ hck₁ hc₁ hscope hz,
      fun z hscope hz => lists_nil_of_contained h₂ hck₂ hc₂ hscope hz⟩
    intro t ht
    obtain ⟨a, ha, hta, hmem⟩ := (mem_lists hholds₁ haddress hitems).mp ht
    obtain ⟨b, hb, d, hd, hcanonical⟩ := (mem_stack h₁.selects hstack₁).2 a ha t hta
    rw [(canonical_ok hcanonical).1.block_eq]
    exact (hc₁ b hb d hd).1 ((touches_iff hcanonical).mpr hmem)

/-! One address pays another in the second of three blocks. -/

def samplePayer : CanonicalAddress := ⟨sampleScope, .lit "c" (Eq.refl true)⟩

def sampleDraft : ObservationDraft :=
  ⟨sampleScope, ⟨sampleScope, .lit "t" (Eq.refl true)⟩, .included,
    [.transfer ⟨"m"⟩ ⟨sampleScope.chain, .lit "coin" (Eq.refl true)⟩ (Decimal.normalize 1 0 Decimal.zero_lt_scale)
      samplePayer sampleAddress], none⟩

def sampleObserve (block : BlockRef) : List ObservationDraft :=
  if block = sampleNext then [sampleDraft] else []

def sampleFilter : PureFilter BlockRef :=
  ⟨sampleObserve, fun _ addresses d => addresses.any d.touches, fun _ _ _ _ h => h⟩

def sampleWatching (filters : List AddressFilter) : Environment BlockRef :=
  { fixedChain filters sampleChainOfThree.blocks with
    inspect := fun block addresses =>
      .ok ⟨block, (sampleObserve block).filter fun d => addresses.any d.touches, {}⟩ }

def sampleWatchedStore (filters : List AddressFilter) : Store Value :=
  (Prog.run ((sampleWatching filters).handle (fun _ => true) sampleScope)
    (sync (B := BlockRef) ⟨sampleScope, 1, 2, 10, Nat.one_pos, Nat.two_pos, sampleBatch_pos⟩ 0) Store.empty).2

theorem watched_sample {filters : List AddressFilter} {start : BlockPosition}
    (hwithin : ∀ f ∈ filters, f.address.scope = sampleScope)
    (hstart : leastPosition (filters.map (·.startPosition)) = some start)
    (hcover : start ≤ sampleThird.position) :
    Watched sampleChainOfThree sampleFilter sampleScope (sampleWatching filters) (fun _ => true) 2
      filters start (sampleWatchedStore filters) where
  honours := honours_fixedChain _ _ _
  selects := by
    rintro b addresses interpreted ⟨⟩
    rfl
  within := hwithin
  earliest := hstart
  cover := hcover
  synced := .pass ⟨sampleScope, 1, 2, 10, Nat.one_pos, Nat.two_pos, sampleBatch_pos⟩ 0 (.start (empty_empty _))
    rfl rfl (Prog.reaches_run _ (fun _ _ => Or.inl rfl) _ _)

def sampleAlone : List AddressFilter := [⟨sampleAddress, ⟨2⟩⟩]

def sampleWithPayer : List AddressFilter := [⟨sampleAddress, ⟨2⟩⟩, ⟨samplePayer, ⟨1⟩⟩]

/-- The payment is before the payee's birthday. Its history has it if the payer is watched. -/
theorem histories_not_separate :
    (sampleWatchedStore sampleAlone).valueAt (Keys.checkpoint sampleScope) =
        checkpointValue (some sampleThird) ∧
      (sampleWatchedStore sampleWithPayer).valueAt (Keys.checkpoint sampleScope) =
        checkpointValue (some sampleThird) ∧
      Watched sampleChainOfThree sampleFilter sampleScope (sampleWatching sampleAlone) (fun _ => true) 2
        sampleAlone ⟨2⟩ (sampleWatchedStore sampleAlone) ∧
      Watched sampleChainOfThree sampleFilter sampleScope (sampleWatching sampleWithPayer)
        (fun _ => true) 2 sampleWithPayer ⟨1⟩ (sampleWatchedStore sampleWithPayer) ∧
      ¬ Separate sampleScope sampleAddress ⟨2⟩ sampleAlone sampleWithPayer
        (sampleWatchedStore sampleAlone) (sampleWatchedStore sampleWithPayer) := by
  refine ⟨by decide, by decide +kernel, watched_sample (by decide) rfl (by decide),
    watched_sample (by decide) rfl (by decide), ?_⟩
  rintro ⟨⟨items, h₁, h₂, -⟩, -⟩
  have hnone : (decodeEntries decodeTransaction ((sampleWatchedStore sampleAlone).under
      (Keys.historyPrefix sampleScope sampleAddress))).toOption.map List.length = some 0 := by
    decide
  have hone : (decodeEntries decodeTransaction ((sampleWatchedStore sampleWithPayer).under
      (Keys.historyPrefix sampleScope sampleAddress))).toOption.map List.length = some 1 := by
    decide
  rw [isListing_iff.mp h₁] at hnone
  rw [isListing_iff.mp h₂, hnone] at hone
  cases hone

/-- From the block of the payment on, and with the payer, in either order. -/
def samplePair (first second : CanonicalAddress) : List AddressFilter :=
  [⟨first, ⟨1⟩⟩, ⟨second, ⟨1⟩⟩]

theorem contained_samplePair {filters : List AddressFilter}
    (hpayee : sampleAddress ∈ filters.map (·.address)) (hpayer : samplePayer ∈ filters.map (·.address))
    (blocks : List BlockRef) : Contained sampleFilter filters sampleAddress ⟨1⟩ blocks := by
  rintro b - d ⟨hd, -⟩
  dsimp only [sampleFilter, sampleObserve] at hd
  split_ifs at hd with hb
  · obtain rfl := List.mem_singleton.mp hd
    subst hb
    refine ⟨fun _ => by decide, fun z hz => ?_⟩
    simp only [ObservationDraft.touches, sampleDraft, List.any_cons, List.any_nil, Option.any_none,
      ValueMovement.fromAddress, ValueMovement.toAddress, Option.some.injEq, Bool.or_false,
      Bool.or_eq_true, decide_eq_true_eq] at hz
    rcases hz with rfl | rfl
    · exact hpayer
    · exact hpayee
  · cases hd

theorem separate_samplePair :
    Separate sampleScope sampleAddress ⟨1⟩ (samplePair sampleAddress samplePayer)
      (samplePair samplePayer sampleAddress)
      (sampleWatchedStore (samplePair sampleAddress samplePayer))
      (sampleWatchedStore (samplePair samplePayer sampleAddress)) :=
  have hck : ∀ filters ∈ [samplePair sampleAddress samplePayer, samplePair samplePayer sampleAddress],
      (sampleWatchedStore filters).valueAt (Keys.checkpoint sampleScope) =
        checkpointValue (some sampleThird) := by
    decide
  (separate_iff_contained (watched_sample (by decide) rfl (by decide))
    (watched_sample (by decide) rfl (by decide)) (by decide) (by decide) (hck _ (by decide))
    (hck _ (by decide))).mpr
    ⟨contained_samplePair (by decide) (by decide) _, contained_samplePair (by decide) (by decide) _⟩

end PaymentSdk.Sync
