import PaymentSdk.Redb.Listing

/-!
# Reading the index while blocks are committed

A reader makes its storage calls one by one, and blocks are added in between. Heights only go
up, so a read that ends at the checkpoint it began at has read one store.
-/

open Interaction KvStore

namespace PaymentSdk.Redb

variable {size : Value → Bool} {scope : IndexScope} {α : Type}

/-! ## What is committed -/

/-- The store and the blocks that were added to it, tip first. -/
structure Committed where
  store : Store Value
  branch : List BlockAddition

namespace Committed

/-- `Blocks::add`. -/
def add (size : Value → Bool) (scope : IndexScope) (c : Committed) (a : BlockAddition) : Committed :=
  let r := (BlockCall.add a).perform size scope c.store
  ⟨r.2, survive c.branch (.add a) r.1⟩

def tip (c : Committed) : Option BlockRef := c.branch.head?.map (·.block)

/-- One storage call. -/
def serve (size : Value → Bool) (op : (storeCalls Value).Op) (c : Committed) :
    (storeCalls Value).Ans op × Committed :=
  ((KvStore.serve size op c.store).1, { c with store := (KvStore.serve size op c.store).2 })

/-- What the store holds after these commits. -/
def Held (size : Value → Bool) (scope : IndexScope) (c : Committed) : Prop := Holds size scope c.branch c.store

/-- Nothing was committed in between, or blocks were put on top. -/
def Grows (size : Value → Bool) (scope : IndexScope) (c c' : Committed) : Prop :=
  c' = c ∨ Held size scope c' ∧ ∃ a upper, c'.branch = a :: upper ++ c.branch

variable {b c c' c'' : Committed}

theorem grows_refl (c : Committed) : Grows size scope c c := Or.inl rfl

theorem grows_trans (h : Grows size scope c c') (h' : Grows size scope c' c'') : Grows size scope c c'' := by
  rcases h with rfl | ⟨hheld, a, upper, hbranch⟩
  · exact h'
  · rcases h' with rfl | ⟨hheld', a', upper', hbranch'⟩
    · exact Or.inr ⟨hheld, a, upper, hbranch⟩
    · refine Or.inr ⟨hheld', a', upper' ++ a :: upper, ?_⟩
      rw [hbranch', hbranch]
      simp

theorem grows_antisymm (h : Grows size scope c c') (h' : Grows size scope c' c) : c' = c := by
  rcases h with rfl | ⟨-, a, upper, hbranch⟩
  · rfl
  · rcases h' with rfl | ⟨-, a', upper', hbranch'⟩
    · rfl
    · have := congrArg List.length hbranch
      have := congrArg List.length hbranch'
      simp only [List.length_append, List.length_cons] at *
      omega

theorem held_of_grows (hc : Held size scope c) (h : Grows size scope c c') : Held size scope c' := by
  rcases h with rfl | ⟨hheld, -⟩
  · exact hc
  · exact hheld

theorem branch_of_grows (h : Grows size scope c c') : ∃ upper, c'.branch = upper ++ c.branch := by
  rcases h with rfl | ⟨-, a, upper, hbranch⟩
  · exact ⟨[], rfl⟩
  · exact ⟨a :: upper, hbranch⟩

theorem eq_of_tip (h : Grows size scope c c') (htip : c'.tip = c.tip) (hsome : c.tip ≠ none) : c' = c := by
  rcases h with rfl | ⟨hheld, a, upper, hbranch⟩
  · rfl
  · cases hlower : c.branch with
    | nil => exact absurd (by rw [tip, hlower]; rfl) hsome
    | cons b lower =>
      have hwritten : Branch size scope (a :: (upper ++ c.branch)) := by
        rw [← List.cons_append, ← hbranch]
        exact hheld.written
      have hlt := branch_height_lt hwritten b (by simp [hlower])
      rw [tip, tip, hbranch, hlower] at htip
      have hblock : a.block = b.block := Option.some.inj htip
      rw [hblock] at hlt
      omega

theorem survive_add (branch : List BlockAddition) (a : BlockAddition) (r : Except IndexError BlockReply) :
    survive branch (.add a) r = branch ∨ survive branch (.add a) r = a :: branch := by
  rcases r with e | (_ | _) | o
  · exact Or.inl rfl
  · exact Or.inr rfl
  · exact Or.inl rfl
  · exact Or.inl rfl

theorem add_grows (h : Held size scope c) (a : BlockAddition) : Grows size scope c (c.add size scope a) := by
  have hheld := holds_perform h (.add a)
  have hsurvive := survive_add c.branch a ((BlockCall.add a).perform size scope c.store).1
  rcases hr : (BlockCall.add a).perform size scope c.store with ⟨r, s'⟩
  rw [hr] at hheld hsurvive
  simp only [add, hr]
  rcases hsurvive with hb | hb
  · -- The call was refused or had nothing to do.
    rcases perform_cases h hr with ⟨rfl, -⟩ | ⟨-, -, ⟨a', hb', -⟩ | ⟨a', lower, hlower, hb', -⟩⟩
    · exact Or.inl (by rw [hb])
    · exact absurd (congrArg List.length (hb.symm.trans hb')) (by simp)
    · exact absurd (congrArg List.length (hlower.symm.trans (hb.symm.trans hb'))) (by simp)
  · exact Or.inr ⟨hheld, a, [], by rw [hb]; rfl⟩

/-! ## Single reads -/

/-- The calls of a reader, each among the additions of others. -/
abbrev Reading (size : Value → Bool) (scope : IndexScope) := Prog.Watched (serve size) (Grows size scope)

/-- Whatever is added meanwhile, a result of the program meets `post` where the program ends. -/
abbrev Returns (size : Value → Bool) (scope : IndexScope) (post : α → Committed → Prop) (p : Call α) (c : Committed) :
    Prop :=
  Prog.Always (Reading size scope) (Held size scope) (fun r c => ∀ a, r = .ok a → post a c) p c

variable {post : α → Committed → Prop}

theorem returns_get {T : Type} [Record T] {k : Key} {post : Option (VersionedRecord T) → Committed → Prop}
    (hc : Held size scope c)
    (h : ∀ c', Held size scope c' → ∀ out : Option (VersionedRecord T),
      c'.store.get k = out.map (fun r => ⟨Record.encode r.value, r.version⟩) → post out c') :
    Returns size scope post (get T k) c := by
  refine ⟨hc, ?_⟩
  rintro r c' ⟨hgrows, hserved⟩
  have hheld := held_of_grows hc hgrows
  obtain rfl : r = c'.store.get k := congrArg Prod.fst hserved
  cases hk : c'.store.get k with
  | none =>
    refine ⟨hheld, ?_⟩
    rintro a ⟨⟩
    exact h c' hheld none hk
  | some stored =>
    dsimp only
    cases hdecode : decode T stored.value with
    | error e => exact ⟨hheld, by rintro a ⟨⟩⟩
    | ok value =>
      refine ⟨hheld, ?_⟩
      rintro a ⟨⟩
      refine h c' hheld (some ⟨value, stored.version⟩) ?_
      rw [hk, Option.map_some, ← decode_ok.mp hdecode]

theorem returns_scan {pre : Key} {after : Option Key} {limit : Nat} (hc : Held size scope c) :
    Returns size scope (fun _ _ => True) (scan pre after limit) c := by
  refine ⟨hc, ?_⟩
  rintro r c' ⟨hgrows, -⟩
  have hheld := held_of_grows hc hgrows
  cases r with
  | ok page => exact ⟨hheld, fun _ _ => trivial⟩
  | error e => exact ⟨hheld, fun _ _ => trivial⟩

theorem returns_bind {β : Type} {p : Call α} {f : α → Call β} {post : β → Committed → Prop}
    (mid : α → Committed → Prop) (hp : Returns size scope mid p c)
    (hf : ∀ a c', Held size scope c' → mid a c' → Returns size scope post (f a) c') :
    Returns size scope post (p >>= f) c := by
  apply Prog.always_except_bind
  apply Prog.always_mono hp fun _ hc => hc
  intro r c' hheld hr
  cases r with
  | ok a => exact hf a c' hheld (hr a rfl)
  | error e => rintro a ⟨⟩

theorem returns_quiet {p : Call α} (hc : Held size scope c) (hp : ∃ r, p = ExceptT.mk (.done r)) :
    Returns size scope (fun _ _ => True) p c := by
  obtain ⟨r, rfl⟩ := hp
  exact ⟨hc, fun _ _ => trivial⟩

theorem tip_of_get (hc : Held size scope c) {out : Option (VersionedRecord BlockRecord)}
    (h : c.store.get (Keys.checkpoint scope) = out.map fun r => ⟨Record.encode r.value, r.version⟩) :
    out.map (·.value.intoDomain) = c.tip :=
  checkpointValue_inj ((checkpoint_read h).symm.trans (holds_checkpoint hc))

theorem returns_currentCheckpoint (hc : Held size scope c) :
    Returns size scope (fun out c' => out = c'.tip) (currentCheckpoint scope) c := by
  apply returns_bind fun out c' => out.map (·.value.intoDomain) = c'.tip
  · exact returns_get hc fun c' hheld out hget => tip_of_get hheld hget
  · rintro out c' hheld htip
    refine ⟨hheld, ?_⟩
    rintro a ⟨⟩
    exact htip

theorem returns_ensureCheckpoint (hc : Held size scope c) (expected : Option BlockRef) :
    Returns size scope (fun _ c' => expected = c'.tip) (ensureCheckpoint scope expected) c := by
  refine returns_bind _ (returns_currentCheckpoint hc) ?_
  rintro current c' hheld htip
  split
  · rename_i he
    exact ⟨hheld, fun _ _ => he.symm.trans htip⟩
  · exact ⟨hheld, by rintro a ⟨⟩⟩

theorem returns_checkpoint (index : Index) (requested : IndexScope) (hc : Held size index.scope c) :
    Returns size index.scope (fun out c' => out = c'.tip) (index.checkpoint requested) c := by
  unfold Index.checkpoint readBlock
  by_cases hscope : index.scope = requested
  · subst hscope
    refine returns_bind _ (returns_quiet hc quiet_checkScope) fun _ c' hheld _ => ?_
    apply returns_bind fun out c' => out.map (·.value.intoDomain) = c'.tip
    · exact returns_get hheld fun c' hheld out hget => tip_of_get hheld hget
    · rintro out c' hheld htip
      refine ⟨hheld, ?_⟩
      rintro a ⟨⟩
      exact htip
  · refine returns_bind (fun _ _ => False) ?_ fun _ _ _ hfalse => hfalse.elim
    unfold checkScope
    rw [if_neg hscope]
    exact ⟨hc, by rintro a ⟨⟩⟩

/-! ## Pages -/

theorem returns_listTransactions (hc : Held size scope c) (request : HistoryQuery) :
    Returns size scope (fun page c' => page.checkpoint = c'.tip) (listTransactions scope request) c := by
  unfold listTransactions
  refine returns_bind _ (returns_quiet hc quiet_checkScope) fun _ c hc _ => ?_
  refine returns_bind _ (returns_quiet hc (quiet_checkAddress _)) fun _ c hc _ => ?_
  refine returns_bind _ (returns_quiet hc (quiet_validateLimit _)) fun _ c hc _ => ?_
  refine returns_bind _ (returns_currentCheckpoint hc) fun checkpoint c hc _ => ?_
  split
  · exact ⟨hc, by rintro a ⟨⟩⟩
  · refine returns_bind _ (returns_scan hc) fun page c hc _ => ?_
    refine returns_bind _ (returns_quiet hc ⟨_, rfl⟩) fun transactions c hc _ => ?_
    refine returns_bind _ (returns_ensureCheckpoint hc checkpoint) fun _ c hc htip => ⟨hc, ?_⟩
    rintro a ⟨⟩
    exact htip

theorem observe_ok {index : Index} {page : CanonicalPage} {observed : TransactionPage}
    (h : index.observe page = .ok observed) : observed.checkpoint = page.checkpoint ∧ observed.next = page.next ∧
      observed.transactions.map (·.transactionId) = page.transactions.map (·.transactionId) := by
  simp only [Index.observe, bind, Except.bind, pure, Except.pure] at h
  cases hall : index.observeAll page.checkpoint page.transactions with
  | error e =>
    rw [hall] at h
    cases h
  | ok transactions =>
    rw [hall] at h
    cases h
    exact ⟨rfl, rfl, Index.ids_of_observeAll hall⟩

theorem returns_history (index : Index) (hc : Held size index.scope c) (request : HistoryQuery) :
    Returns size index.scope (fun page c' => page.checkpoint = c'.tip) (index.history request) c := by
  unfold Index.history
  split
  · exact ⟨hc, by rintro a ⟨⟩⟩
  · refine returns_bind _ (returns_listTransactions hc request) fun page c hc htip => ?_
    split
    · exact ⟨hc, by rintro a ⟨⟩⟩
    · refine ⟨hc, ?_⟩
      intro observed hobserved
      rw [← htip]
      exact (observe_ok hobserved).1

/-! ## Readers only read -/

theorem readOnly_quiet {p : Call α} (hp : ∃ r, p = ExceptT.mk (.done r)) : Prog.ReadOnly (serve size) p := by
  obtain ⟨r, rfl⟩ := hp
  trivial

theorem readOnly_get (T : Type) [Record T] (k : Key) : Prog.ReadOnly (serve size) (get T k) := by
  refine ⟨fun _ => rfl, fun r => ?_⟩
  cases r with
  | none => trivial
  | some stored =>
    dsimp only
    split <;> trivial

theorem readOnly_scan (pre : Key) (after : Option Key) (limit : Nat) :
    Prog.ReadOnly (serve size) (scan pre after limit) := by
  refine ⟨fun _ => rfl, fun r => ?_⟩
  cases r <;> trivial

theorem readOnly_currentCheckpoint : Prog.ReadOnly (serve size) (currentCheckpoint scope) :=
  Prog.readOnly_except_bind (readOnly_get _ _) fun _ => trivial

theorem readOnly_ensureCheckpoint (expected : Option BlockRef) :
    Prog.ReadOnly (serve size) (ensureCheckpoint scope expected) := by
  refine Prog.readOnly_except_bind readOnly_currentCheckpoint fun current => ?_
  split <;> trivial

theorem readOnly_checkpoint (index : Index) (requested : IndexScope) :
    Prog.ReadOnly (serve size) (index.checkpoint requested) :=
  Prog.readOnly_except_bind (readOnly_quiet quiet_checkScope) fun _ =>
    Prog.readOnly_except_bind (readOnly_get _ _) fun _ => trivial

theorem readOnly_listTransactions (request : HistoryQuery) :
    Prog.ReadOnly (serve size) (listTransactions scope request) := by
  refine Prog.readOnly_except_bind (readOnly_quiet quiet_checkScope) fun _ => ?_
  refine Prog.readOnly_except_bind (readOnly_quiet (quiet_checkAddress _)) fun _ => ?_
  refine Prog.readOnly_except_bind (readOnly_quiet (quiet_validateLimit _)) fun _ => ?_
  refine Prog.readOnly_except_bind readOnly_currentCheckpoint fun checkpoint => ?_
  split
  · trivial
  · refine Prog.readOnly_except_bind (readOnly_scan _ _ _) fun page => ?_
    refine Prog.readOnly_except_bind (readOnly_quiet ⟨_, rfl⟩) fun transactions => ?_
    exact Prog.readOnly_except_bind (readOnly_ensureCheckpoint _) fun _ => trivial

theorem readOnly_history (index : Index) (request : HistoryQuery) :
    Prog.ReadOnly (serve size) (index.history request) := by
  unfold Index.history
  split
  · trivial
  · refine Prog.readOnly_except_bind (readOnly_listTransactions request) fun page => ?_
    split <;> trivial

theorem run_serve (p : Prog (storeCalls Value) α) (c : Committed) :
    p.run (KvStore.serve size) c.store = ((p.run (serve size) c).1, (p.run (serve size) c).2.store) := by
  induction p generalizing c with
  | done a => rfl
  | call op next ih => exact ih _ (serve size op c).2

theorem readOnly_reaches {p q : Prog (storeCalls Value) α} (hp : p.ReadOnly (serve size))
    (h : Prog.Reaches (Reading size scope) p c q c') : q.ReadOnly (serve size) := by
  induction h with
  | here p c => exact hp
  | answer r _ _ ih => exact ih (hp.2 r)

theorem reading_grows {p q : Prog (storeCalls Value) α} (h : Prog.Reaches (Reading size scope) p c q c') :
    Grows size scope c c' :=
  Prog.grows_of_watched grows_refl (fun _ _ _ => grows_trans) h

/-! ## Pages of one store -/

theorem page_read_at {index : Index} {request : HistoryQuery} {page : TransactionPage}
    (hb : Held size index.scope b) (hgrows : Grows size index.scope b c)
    (h : Prog.Reaches (Reading size index.scope) (index.history request) c (.done (.ok page)) c')
    (hpage : page.checkpoint = b.tip) (hsome : b.tip ≠ none) :
    Prog.run (KvStore.serve size) (index.history request) b.store = (.ok page, b.store) := by
  have hc := held_of_grows hb hgrows
  have htip : page.checkpoint = c'.tip := (Prog.always_reaches (returns_history index hc request) h).2 page rfl
  have hend : c' = b := eq_of_tip (grows_trans hgrows (reading_grows h)) (htip.symm.trans hpage) hsome
  subst hend
  obtain rfl : c = c' := grows_antisymm hgrows (reading_grows h)
  have hrun := Prog.run_of_unmoved grows_refl (fun _ _ _ => grows_trans) (fun _ _ => grows_antisymm) h rfl
  rw [run_serve, hrun]
  rfl

theorem checkpoint_read_at {index : Index} {requested : IndexScope} {out : Option BlockRef}
    (hc : Held size index.scope c)
    (h : Prog.Reaches (Reading size index.scope) (index.checkpoint requested) c (.done (.ok out)) c') : out = c'.tip :=
  (Prog.always_reaches (returns_checkpoint index requested hc) h).2 out rfl

/-- A page that was read from one store has the ids of the next entries, and a cursor behind them
if there are more. -/
theorem history_alone {index : Index} (hc : Held size index.scope c) {request : HistoryQuery} {page : TransactionPage}
    {front rest : List (Key × Stored Value)} {s' : Store Value}
    (hread : ReadTo c.store (Keys.historyPrefix index.scope request.address) (request.after.map fun cursor =>
      Keys.history index.scope request.address cursor.position.height cursor.position.transaction) front rest)
    (h : Prog.run (KvStore.serve size) (index.history request) c.store = (.ok page, s')) :
    (∀ x ∈ rest.take request.limit, ∀ t, decodeTransaction x.2.value = .ok t →
      ∃ o ∈ page.transactions, o.transactionId = t.transactionId) ∧
    (page.next = none → rest.length ≤ request.limit) ∧
    ∀ cursor, page.next = some cursor → ReadTo c.store (Keys.historyPrefix index.scope request.address)
      (some (Keys.history index.scope request.address cursor.position.height cursor.position.transaction))
      (front ++ rest.take request.limit) (rest.drop request.limit) := by
  unfold Index.history at h
  split at h
  · cases h
  obtain ⟨canonical, s, hlist, hrest⟩ := (Prog.run_bind_ok _).mp h
  split at hrest
  · cases hrest
  obtain ⟨-, hobserve⟩ := run_lift_ok.mp hrest
  obtain ⟨-, hnext, hids⟩ := observe_ok hobserve
  have hpage : Prog.run (KvStore.serve size) (transactionPage index.scope request request.after request.limit) c.store =
      (.ok (canonical.transactions, canonical.next), s) := (Prog.run_bind_ok _).mpr ⟨canonical, s, hlist, rfl⟩
  obtain ⟨-, hdecode, hlast, hcursor⟩ := transactionPage_alone hc hread hpage
  rw [hnext]
  refine ⟨?_, hlast, hcursor⟩
  intro x hx t ht
  have hmem : t.transactionId ∈ page.transactions.map (·.transactionId) := by
    rw [hids]
    exact List.mem_map_of_mem (mem_of_entry hdecode hx ht)
  exact List.mem_map.mp hmem

/-! ## The committed blocks -/

theorem historyKey_under (p : CanonicalTransaction × CanonicalAddress) :
    (Keys.historyPrefix scope p.2).isPrefixOf (historyKey scope p) = true := by
  rw [List.isPrefixOf_iff_prefix, historyKey, Keys.history, List.append_assoc]
  exact List.prefix_append _ _

theorem exists_entry (hc : Held size scope c) {a : BlockAddition} (ha : a ∈ c.branch) {t : CanonicalTransaction}
    (ht : t ∈ a.transactions) {address : CanonicalAddress} (haddress : address ∈ t.addresses) :
    ∃ x ∈ c.store.under (Keys.historyPrefix scope address), decodeTransaction x.2.value = .ok t := by
  have hpair : (t, address) ∈ historyPairs a := mem_historyPairs.mpr ⟨ht, haddress⟩
  have hkey : Keys.isHistory scope (historyKey scope (t, address)) = true := Keys.isHistory_history _ _ _ _
  have hfact := factsOf_history hc.written ha hpair
  rw [← hc.stored, facts_eq (isFact_history hkey)] at hfact
  obtain ⟨stored, hget, hvalue⟩ := Option.map_eq_some_iff.mp hfact
  refine ⟨(_, stored), mem_under.mpr ⟨hget, historyKey_under (t, address)⟩, ?_⟩
  rw [hvalue]
  exact history_decodes hpair

theorem exists_height {branch : List BlockAddition} (h : Branch size scope branch) {tip : BlockRef}
    (htip : branch.head?.map (·.block) = some tip) {low : BlockAddition} (hlow : branch.getLast? = some low) {n : Nat}
    (hge : low.block.height.toNat ≤ n) (hle : n ≤ tip.height.toNat) : ∃ a ∈ branch, a.block.height.toNat = n := by
  induction branch generalizing tip with
  | nil => cases hlow
  | cons a lower ih =>
    obtain rfl : a.block = tip := Option.some.inj htip
    by_cases hn : n = a.block.height.toNat
    · exact ⟨a, List.mem_cons_self, hn.symm⟩
    cases hlower : lower with
    | nil =>
      subst hlower
      obtain rfl : a = low := Option.some.inj hlow
      omega
    | cons b rest =>
      have hnext : a.block.height.toNat = b.block.height.toNat + 1 := (a.follows (branch_expected (hlower ▸ h))).1
      have hrest : lower.getLast? = some low := by
        rw [hlower] at hlow ⊢
        rwa [List.getLast?_cons_cons] at hlow
      obtain ⟨x, hx, hheight⟩ := @ih h.1 b.block (by rw [hlower]; rfl) hrest (by omega)
      exact ⟨x, List.mem_cons_of_mem _ (hlower ▸ hx), hheight⟩

end Committed

end PaymentSdk.Redb
