import PaymentSdk.Redb.History
import PaymentSdk.Redb.Repository.Pages

/-!
# How deep a stored fact is

Every history entry and every live output was left by a block of the stored branch. Heights
count the blocks of a branch, so the distance in height that the readers compute is the
number of blocks from there to the checkpoint.
-/

open Interaction KvStore

namespace PaymentSdk.Redb

variable {size : Value → Bool} {scope : IndexScope} {s s' : Store Value} {a : BlockAddition}
  {branch : List BlockAddition} {n : Nat}

/-! ## Depth -/

/-- `n` blocks of the branch, from `a` through the tip. -/
def Depth (branch : List BlockAddition) (a : BlockAddition) (n : Nat) : Prop :=
  ∃ upper lower, branch = upper ++ a :: lower ∧ n = upper.length + 1

theorem depth_pos (h : Depth branch a n) : 0 < n := by
  obtain ⟨upper, lower, -, rfl⟩ := h
  exact Nat.succ_pos _

theorem depth_le (h : Depth branch a n) : n ≤ branch.length := by
  obtain ⟨upper, lower, rfl, rfl⟩ := h
  rw [List.length_append, List.length_cons]
  omega

theorem depth_height (hb : Branch size scope branch) (h : Depth branch a n) :
    ∃ tip, branch.head?.map (·.block) = some tip ∧
      a.block.height.toNat + n = tip.height.toNat + 1 := by
  obtain ⟨upper, lower, rfl, rfl⟩ := h
  have htip : ∃ tip, (upper ++ a :: lower).head?.map (·.block) = some tip := by
    cases upper with
    | nil => exact ⟨_, rfl⟩
    | cons b upper => exact ⟨_, rfl⟩
  obtain ⟨tip, htip⟩ := htip
  have := branch_height_top hb htip
  exact ⟨tip, htip, by omega⟩

theorem checked_depth {tip height : BlockHeight} (hheight : height.toNat + n = tip.toNat + 1)
    (hpos : 0 < n) (hfits : n < 2 ^ 64) :
    ¬ (tip.toNat < height.toNat ∨ 2 ^ 64 ≤ tip.toNat - height.toNat + 1) ∧
      tip.val - height.val + 1 = UInt64.ofNat n := by
  refine ⟨by omega, UInt64.toNat_inj.mp ?_⟩
  have htip : tip.val.toNat = tip.toNat := rfl
  have hval : height.val.toNat = height.toNat := rfl
  have hone : (1 : UInt64).toNat = 1 := rfl
  rw [UInt64.toNat_add, UInt64.toNat_sub_of_le _ _ (UInt64.le_iff_toNat_le.mpr (by omega)),
    UInt64.toNat_ofNat_of_lt' hfits]
  omega

/-! ## Where a fact comes from -/

/-- What a block leaves for readers under a key. -/
def Leaves (scope : IndexScope) (a : BlockAddition) (k : Key) (v : Value) : Prop :=
  (∃ p ∈ historyPairs a, k = historyKey scope p ∧ v = .transaction (TransactionRecord.fromDomain p.1)) ∨
    ∃ o ∈ a.outputs.created, k = Keys.output scope o.key ∧ v = .output (OutputRecord.fromDomain o)

theorem factsOf_origin {k : Key} {v : Value} (hk : k ≠ Keys.checkpoint scope)
    (h : factsOf scope branch k = some v) : ∃ a n, Depth branch a n ∧ Leaves scope a k v := by
  induction branch with
  | nil => cases h
  | cons b lower ih =>
    rw [factsOf, Facts.add, if_neg hk] at h
    cases he : effect (factOps scope b (factsOf scope lower)) k with
    | none =>
      rw [he, Option.getD_none] at h
      obtain ⟨a, n, ⟨upper, rest, rfl, rfl⟩, hleaves⟩ := ih h
      exact ⟨a, _, ⟨b :: upper, rest, rfl, rfl⟩, hleaves⟩
    | some x =>
      rw [he, Option.getD_some] at h
      subst h
      refine ⟨b, 1, ⟨[], lower, rfl, rfl⟩, ?_⟩
      rcases effect_factOps_cases he with ⟨p, hp, rfl, hv⟩ | ⟨o, ho, rfl, hv⟩ | ⟨y, -, -, hv⟩
      · exact Or.inl ⟨p, hp, rfl, Option.some.inj hv⟩
      · exact Or.inr ⟨o, ho, rfl, Option.some.inj hv⟩
      · cases hv

theorem mem_transactions_of_pair {p : CanonicalTransaction × CanonicalAddress} (hp : p ∈ historyPairs a) :
    p.1 ∈ a.transactions := by
  simp only [historyPairs, List.mem_flatMap, List.mem_map] at hp
  obtain ⟨t, ht, address, -, rfl⟩ := hp
  exact ht

theorem history_origin (h : Holds size scope branch s) {k : Key} {v : Value}
    (hk : Keys.isHistory scope k = true) (hv : s.valueAt k = some v) :
    ∃ a n t, Depth branch a n ∧ t ∈ a.transactions ∧ decodeTransaction v = .ok t := by
  have hfact : factsOf scope branch k = some v := by
    rw [← h.stored, facts_eq (isFact_history hk), hv]
  obtain ⟨a, n, hdepth, ⟨p, hp, -, rfl⟩ | ⟨o, -, rfl, -⟩⟩ :=
    factsOf_origin (checkpoint_ne_history hk) hfact
  · exact ⟨a, n, p.1, hdepth, mem_transactions_of_pair hp, history_decodes hp⟩
  · have := history_ne_output hk
    rw [Keys.isOutput_output] at this
    cases this

theorem output_origin (h : Holds size scope branch s) {k : Key} {v : Value}
    (hk : Keys.isOutput scope k = true) (hv : s.valueAt k = some v) :
    ∃ a n o, Depth branch a n ∧ o ∈ a.outputs.created ∧ decodeOutput v = .ok o := by
  have hfact : factsOf scope branch k = some v := by
    rw [← h.stored, facts_eq (isFact_output hk), hv]
  obtain ⟨a, n, hdepth, ⟨p, -, rfl, -⟩ | ⟨o, ho, -, rfl⟩⟩ :=
    factsOf_origin (checkpoint_ne_output hk) hfact
  · have := history_ne_output (Keys.isHistory_history scope p.2 p.1.block.height p.1.transactionId)
    rw [historyKey] at hk
    rw [this] at hk
    cases hk
  · exact ⟨a, n, o, hdepth, ho, created_decodes ho⟩

/-! ## Pages of a stored branch -/

theorem run_currentCheckpoint (h : Holds size scope branch s) :
    Prog.run (serve size) (currentCheckpoint scope) s = (.ok (branch.head?.map (·.block)), s) := by
  obtain ⟨out, hout, hget⟩ := exists_checkpoint_read (holds_checkpoint h)
  refine (Prog.run_bind_ok _).mpr ⟨out, s, run_get_ok.mpr ⟨rfl, hget⟩, ?_⟩
  rw [Prog.run_except_pure, hout]

theorem run_ensureCheckpoint (h : Holds size scope branch s) :
    Prog.run (serve size) (ensureCheckpoint scope (branch.head?.map (·.block))) s = (.ok (), s) := by
  refine (Prog.run_bind_ok _).mpr ⟨_, s, run_currentCheckpoint h, ?_⟩
  rw [if_pos rfl, Prog.run_except_pure]

theorem decodeEntries_cons {T : Type} {read : Value → Except IndexError T} {e : Key × Stored Value}
    {rest : List (Key × Stored Value)} {items : List T} :
    decodeEntries read (e :: rest) = .ok items ↔
      ∃ x xs, read e.2.value = .ok x ∧ decodeEntries read rest = .ok xs ∧ items = x :: xs := by
  simp only [decodeEntries, bind, Except.bind, pure, Except.pure]
  cases read e.2.value with
  | error err => simp
  | ok x =>
    cases decodeEntries read rest with
    | error err => simp
    | ok xs => simp [eq_comm]

theorem exists_decodeEntries {T : Type} {read : Value → Except IndexError T}
    {entries : List (Key × Stored Value)} (h : ∀ e ∈ entries, ∃ x, read e.2.value = .ok x) :
    ∃ items, decodeEntries read entries = .ok items := by
  induction entries with
  | nil => exact ⟨[], rfl⟩
  | cons e rest ih =>
    obtain ⟨x, hx⟩ := h e List.mem_cons_self
    obtain ⟨items, hitems⟩ := ih fun e' he' => h e' (List.mem_cons_of_mem _ he')
    exact ⟨x :: items, decodeEntries_cons.mpr ⟨x, items, hx, hitems, rfl⟩⟩

theorem mem_of_decodeEntries {T : Type} {read : Value → Except IndexError T}
    {entries : List (Key × Stored Value)} {items : List T} (h : decodeEntries read entries = .ok items)
    {x : T} (hx : x ∈ items) : ∃ e ∈ entries, read e.2.value = .ok x := by
  induction entries generalizing items with
  | nil =>
    cases h
    cases hx
  | cons e rest ih =>
    obtain ⟨y, ys, hread, hrest, rfl⟩ := decodeEntries_cons.mp h
    rcases List.mem_cons.mp hx with rfl | hx
    · exact ⟨e, List.mem_cons_self, hread⟩
    · obtain ⟨e', he', hread'⟩ := ih hrest hx
      exact ⟨e', List.mem_cons_of_mem _ he', hread'⟩

section Listing

variable {T R : Type} {self : IndexScope} {address : CanonicalAddress} {limit : Nat}
  {moved : Option BlockRef → Bool} {conflict : IndexError} {pre : Key} {after : Option Key}
  {read : Value → Except IndexError T}
  {finish : Option BlockRef → ScanPage Value → List T → Except IndexError R}

theorem listing_held (h : Holds size self branch s) {r : R}
    (hr : Prog.run (serve size)
      (listing self scope address limit moved conflict pre after read finish) s = (.ok r, s')) :
    s' = s ∧ ∃ page items, finish (branch.head?.map (·.block)) page items = .ok r ∧
      ∀ x ∈ items, ∃ e ∈ s.under pre, read e.2.value = .ok x := by
  unfold listing at hr
  obtain ⟨-, -, hlist⟩ := run_quiet quiet_checkScope hr
  obtain ⟨-, -, hlist⟩ := run_quiet (quiet_checkAddress _) hlist
  obtain ⟨-, -, hlist⟩ := run_quiet (quiet_validateLimit _) hlist
  obtain ⟨c, u, hcurrent, hpage⟩ := (Prog.run_bind_ok _).mp hlist
  obtain ⟨hc, rfl⟩ := Prod.mk.inj (hcurrent.symm.trans (run_currentCheckpoint h))
  obtain rfl := Except.ok.inj hc
  split at hpage
  · cases hpage
  · obtain ⟨page, v, hscan, hitems⟩ := (Prog.run_bind_ok _).mp hpage
    obtain ⟨rfl, hscanned⟩ := run_scan_ok.mp hscan
    obtain ⟨items, hdecode, hchecked⟩ := run_quiet ⟨_, rfl⟩ hitems
    obtain ⟨_, w, hensure, hdone⟩ := (Prog.run_bind_ok _).mp hchecked
    obtain rfl := run_ensureCheckpoint_snd hensure
    obtain ⟨hfinish, rfl⟩ := Prod.mk.inj hdone
    refine ⟨rfl, page, items, hfinish, fun x hx => ?_⟩
    obtain ⟨e, he, hread⟩ := mem_of_decodeEntries (Prog.done.inj hdecode) hx
    exact ⟨e, mem_of_scan hscanned he, hread⟩

/-- Over a stored branch that decodes, a listing is refused for its request or its cursor. -/
theorem listing_refused (h : Holds size self branch s) {e : IndexError}
    (hafter : ∀ k ∈ after, pre.isPrefixOf k = true)
    (hread : ∀ e ∈ s.under pre, ∃ x, read e.2.value = .ok x)
    (hfinish : ∀ c page items, ∃ r, finish c page items = .ok r)
    (hr : Prog.run (serve size)
      (listing self scope address limit moved conflict pre after read finish) s = (.error e, s')) :
    s' = s ∧ (e.kind = .scopeMismatch ∨ e.kind = .invalidRequest ∨ e = conflict) := by
  unfold listing at hr
  rcases (Prog.run_bind_error _).mp hr with hthrow | ⟨_, t, hscope, hrest⟩
  · unfold checkScope at hthrow
    split_ifs at hthrow <;> cases hthrow
    exact ⟨rfl, Or.inl rfl⟩
  obtain ⟨rfl, -⟩ := run_checkScope_ok.mp hscope
  rcases (Prog.run_bind_error _).mp hrest with hthrow | ⟨_, t, haddress, hrest⟩
  · unfold checkAddress at hthrow
    split_ifs at hthrow <;> cases hthrow
    exact ⟨rfl, Or.inl rfl⟩
  unfold checkAddress at haddress
  split_ifs at haddress <;> cases haddress
  rcases (Prog.run_bind_error _).mp hrest with hthrow | ⟨_, t, hlimit, hrest⟩
  · unfold validateLimit at hthrow
    split_ifs at hthrow <;> cases hthrow
    exact ⟨rfl, Or.inr (Or.inl rfl)⟩
  unfold validateLimit at hlimit
  split_ifs at hlimit with hbounds <;> cases hlimit
  rcases (Prog.run_bind_error _).mp hrest with hthrow | ⟨c, t, hcurrent, hrest⟩
  · rw [run_currentCheckpoint h] at hthrow
    cases hthrow
  rw [run_currentCheckpoint h] at hcurrent
  cases hcurrent
  split at hrest
  · cases hrest
    exact ⟨rfl, Or.inr (Or.inr rfl)⟩
  -- From here on nothing fails: the scan is fair, its entries decode, the checkpoint is the same.
  have hsmall : limit + 1 < 2 ^ 64 := Nat.lt_of_le_of_lt (Nat.succ_le_succ hbounds.2) (by decide)
  obtain ⟨page, hscan⟩ := exists_scan _ hbounds.1 hsmall hafter
  obtain ⟨items, hitems⟩ := exists_decodeEntries fun e he => hread e (mem_of_scan hscan he)
  obtain ⟨r, hdone⟩ := hfinish (branch.head?.map (·.block)) page items
  have hok := run_ensureCheckpoint h
  rcases (Prog.run_bind_error _).mp hrest with hthrow | ⟨page', t, hscanned, hrest⟩
  · rw [run_scan_ok.mpr ⟨rfl, hscan⟩] at hthrow
    cases hthrow
  rw [run_scan_ok.mpr ⟨rfl, hscan⟩] at hscanned
  cases hscanned
  rcases (Prog.run_bind_error _).mp hrest with hthrow | ⟨items', t, hdecoded, hrest⟩
  · rw [run_lift_ok.mpr ⟨rfl, hitems⟩] at hthrow
    cases hthrow
  rw [run_lift_ok.mpr ⟨rfl, hitems⟩] at hdecoded
  cases hdecoded
  rcases (Prog.run_bind_error _).mp hrest with hthrow | ⟨_, t, hensured, hrest⟩
  · rw [hok] at hthrow
    cases hthrow
  rw [hok] at hensured
  cases hensured
  rw [run_lift_ok.mpr ⟨rfl, hdone⟩] at hrest
  cases hrest

theorem run_listing_snd : (Prog.run (serve size)
    (listing self scope address limit moved conflict pre after read finish) s).2 = s := by
  have hquiet : ∀ {α : Type} {p : Call α}, (∃ r, p = ExceptT.mk (.done r)) →
      (Prog.run (serve size) p s).2 = s := by
    rintro α p ⟨r, rfl⟩
    rfl
  have hcurrent : (Prog.run (serve size) (currentCheckpoint self) s).2 = s :=
    run_bind_snd run_get_snd fun _ => rfl
  refine run_bind_snd (hquiet quiet_checkScope) fun _ => ?_
  refine run_bind_snd (hquiet (quiet_checkAddress _)) fun _ => ?_
  refine run_bind_snd (hquiet (quiet_validateLimit _)) fun _ => ?_
  refine run_bind_snd hcurrent fun c => ?_
  split
  · rfl
  refine run_bind_snd ?_ fun page => run_bind_snd rfl fun items => run_bind_snd ?_ fun _ => rfl
  · unfold scan
    rw [run_scan]
    cases s.scan pre after limit <;> rfl
  · refine run_bind_snd hcurrent fun c' => ?_
    split <;> rfl

end Listing

theorem isOutput_of_under {address : CanonicalAddress} {k : Key}
    (h : (Keys.outputPrefix scope address).isPrefixOf k = true) : Keys.isOutput scope k = true := by
  rw [List.isPrefixOf_iff_prefix] at h
  rw [Keys.isOutput, List.isPrefixOf_iff_prefix]
  exact (List.prefix_append _ _).trans h

theorem listOutputs_held (h : Holds size scope branch s) {request : OutputRequest} {page : OutputPage}
    (hr : Prog.run (serve size) (listOutputs scope request) s = (.ok page, s')) :
    page.checkpoint = branch.head?.map (·.block) ∧
      ∀ o ∈ page.outputs, ∃ a n, Depth branch a n ∧ o ∈ a.outputs.created := by
  rw [listOutputs_eq] at hr
  obtain ⟨rfl, scanned, os, hfinish, hitems⟩ := listing_held h hr
  have hos : ∀ o ∈ os, ∃ a n, Depth branch a n ∧ o ∈ a.outputs.created := by
    intro o ho
    obtain ⟨e, he, hread⟩ := hitems o ho
    obtain ⟨hget, hpre⟩ := mem_under.mp he
    obtain ⟨a, n, o', hdepth, ho', hread'⟩ :=
      output_origin h (isOutput_of_under hpre) (by rw [Store.valueAt, hget]; rfl)
    rw [hread'] at hread
    cases hread
    exact ⟨a, n, hdepth, ho'⟩
  unfold finishOutputs at hfinish
  split_ifs at hfinish
  · split at hfinish
    · cases hfinish
    · cases hfinish
      exact ⟨rfl, hos⟩
  · cases hfinish
    exact ⟨rfl, hos⟩

/-! ## Observed transactions -/

/-- The status of a transaction `n` blocks deep, for a reader who trusts `confirmations`. -/
def statusAt (confirmations : UInt64) (n : Nat) : CanonicalStatus → TransactionStatus
  | .failed block reason => .failed block reason
  | .included block =>
    if confirmations.toNat ≤ n then .confirmed block (UInt64.ofNat n)
    else .included block (UInt64.ofNat n)

/-- The reader sees a transaction of the branch, with the depth of its block. -/
def Reported (confirmations : UInt64) (branch : List BlockAddition) (o : ObservedTransaction) : Prop :=
  ∃ a n t, Depth branch a n ∧ n < 2 ^ 64 ∧ t ∈ a.transactions ∧
    o = ⟨t.scope, t.transactionId, statusAt confirmations n t.status, t.movements, t.fee⟩

namespace Index

variable {self : Index}

theorem observeStatus_included {tip block : BlockRef}
    (hheight : block.height.toNat + n = tip.height.toNat + 1) (hpos : 0 < n) (hfits : n < 2 ^ 64) :
    self.observeStatus (some tip) (.included block) = .ok (statusAt self.confirmations n (.included block)) := by
  obtain ⟨hin, hn⟩ := checked_depth hheight hpos hfits
  have hto : (UInt64.ofNat n).toNat = n := UInt64.toNat_ofNat_of_lt' hfits
  rw [observeStatus, if_neg hin]
  simp only [hn, hto, statusAt]

theorem observeStatus_at (hb : Branch size scope branch) (hlength : branch.length < 2 ^ 64)
    (hdepth : Depth branch a n) {t : CanonicalTransaction} (ht : t ∈ a.transactions) :
    self.observeStatus (branch.head?.map (·.block)) t.status =
      .ok (statusAt self.confirmations n t.status) := by
  have hblock := (a.valid.canonical t ht).block_eq
  unfold CanonicalTransaction.block at hblock
  cases hstatus : t.status with
  | failed block reason => rfl
  | included block =>
    rw [hstatus] at hblock
    subst hblock
    obtain ⟨tip, htip, hheight⟩ := depth_height hb hdepth
    rw [htip]
    exact observeStatus_included hheight (depth_pos hdepth) (Nat.lt_of_le_of_lt (depth_le hdepth) hlength)

theorem observeAll_at (hb : Branch size scope branch) (hlength : branch.length < 2 ^ 64)
    {ts : List CanonicalTransaction} (hts : ∀ t ∈ ts, ∃ a n, Depth branch a n ∧ t ∈ a.transactions) :
    ∃ os, self.observeAll (branch.head?.map (·.block)) ts = .ok os ∧
      ∀ o ∈ os, Reported self.confirmations branch o := by
  induction ts with
  | nil => exact ⟨[], rfl, by simp⟩
  | cons t rest ih =>
    obtain ⟨a, n, hdepth, ht⟩ := hts t List.mem_cons_self
    obtain ⟨os, hos, hreported⟩ := ih fun t' ht' => hts t' (List.mem_cons_of_mem _ ht')
    have hstatus : self.observeStatus _ _ = _ := observeStatus_at hb hlength hdepth ht
    refine ⟨⟨t.scope, t.transactionId, statusAt self.confirmations n t.status, t.movements, t.fee⟩ :: os,
      ?_, ?_⟩
    · simp [observeAll, observeTransaction, hstatus, hos, bind, Except.bind, pure, Except.pure]
    · intro o ho
      rcases List.mem_cons.mp ho with rfl | ho
      · exact ⟨a, n, t, hdepth, Nat.lt_of_le_of_lt (depth_le hdepth) hlength, ht, rfl⟩
      · exact hreported o ho

theorem under_history (h : Holds size scope branch s) {address : CanonicalAddress}
    {e : Key × Stored Value} (he : e ∈ s.under (Keys.historyPrefix scope address)) :
    ∃ a n t, Depth branch a n ∧ t ∈ a.transactions ∧ decodeTransaction e.2.value = .ok t := by
  obtain ⟨hget, hpre⟩ := mem_under.mp he
  exact history_origin h (isHistory_of_under hpre) (by rw [Store.valueAt, hget]; rfl)

theorem observe_held (h : Holds size self.scope branch s) (hlength : branch.length < 2 ^ 64)
    {request : HistoryQuery} {page : CanonicalPage}
    (hr : Prog.run (serve size) (listTransactions self.scope request) s = (.ok page, s')) :
    s' = s ∧ ∃ observed, self.observe page = .ok observed ∧
      observed.checkpoint = branch.head?.map (·.block) ∧
      ∀ o ∈ observed.transactions, Reported self.confirmations branch o := by
  rw [listTransactions_eq] at hr
  obtain ⟨rfl, scanned, ts, hfinish, hitems⟩ := listing_held h hr
  cases hfinish
  have hts : ∀ t ∈ ts, ∃ a n, Depth branch a n ∧ t ∈ a.transactions := by
    intro t ht
    obtain ⟨e, he, hread⟩ := hitems t ht
    obtain ⟨a, n, t', hdepth, ht', hread'⟩ := under_history h he
    rw [hread'] at hread
    cases hread
    exact ⟨a, n, hdepth, ht'⟩
  obtain ⟨os, hos, hreported⟩ : ∃ os, self.observeAll _ _ = _ ∧ _ := observeAll_at h.written hlength hts
  refine ⟨rfl, ?_⟩
  simp only [observe, hos, bind, Except.bind, pure, Except.pure]
  exact ⟨_, rfl, rfl, hreported⟩

theorem history_held (h : Holds size self.scope branch s) (hlength : branch.length < 2 ^ 64)
    {request : HistoryQuery} {page : TransactionPage}
    (hr : Prog.run (serve size) (self.history request) s = (.ok page, s')) :
    s' = s ∧ page.checkpoint = branch.head?.map (·.block) ∧
      ∀ o ∈ page.transactions, Reported self.confirmations branch o := by
  unfold history at hr
  split at hr
  · cases hr
  obtain ⟨canonical, t, hlist, hrest⟩ := (Prog.run_bind_ok _).mp hr
  obtain ⟨rfl, observed, hobserve, hcheckpoint, hreported⟩ := observe_held h hlength hlist
  split at hrest
  · cases hrest
  · rw [run_lift_ok.mpr ⟨rfl, hobserve⟩] at hrest
    cases hrest
    exact ⟨rfl, hcheckpoint, hreported⟩

/-- No error of the index is about the store: it never finds a transaction that it cannot place. -/
theorem history_refused (h : Holds size self.scope branch s) (hlength : branch.length < 2 ^ 64)
    {request : HistoryQuery} {e : IndexError}
    (hr : Prog.run (serve size) (self.history request) s = (.error e, s')) :
    s' = s ∧ (e.kind = .scopeMismatch ∨ e.kind = .invalidRequest ∨ e.kind = .conflict) := by
  unfold history at hr
  split at hr
  · cases hr
    exact ⟨rfl, Or.inl rfl⟩
  rcases (Prog.run_bind_error _).mp hr with hlist | ⟨canonical, t, hlist, hrest⟩
  · rw [listTransactions_eq] at hlist
    have hafter : ∀ k ∈ request.after.map fun cursor : HistoryCursor =>
        Keys.history self.scope request.address cursor.position.height cursor.position.transaction,
        (Keys.historyPrefix self.scope request.address).isPrefixOf k = true := by
      intro k hk
      obtain ⟨cursor, -, rfl⟩ := Option.map_eq_some_iff.mp hk
      rw [List.isPrefixOf_iff_prefix, Keys.history, List.append_assoc]
      exact List.prefix_append _ _
    have hreads : ∀ e ∈ s.under (Keys.historyPrefix self.scope request.address),
        ∃ t, decodeTransaction e.2.value = .ok t := by
      intro e he
      obtain ⟨_, _, t, _, _, hread⟩ := under_history h he
      exact ⟨t, hread⟩
    obtain ⟨rfl, hkind | hkind | rfl⟩ := listing_refused h hafter hreads (fun c page items => ⟨_, rfl⟩) hlist
    · exact ⟨rfl, Or.inl hkind⟩
    · exact ⟨rfl, Or.inr (Or.inl hkind)⟩
    · exact ⟨rfl, Or.inr (Or.inr rfl)⟩
  · obtain ⟨rfl, observed, hobserve, -⟩ := observe_held h hlength hlist
    split at hrest
    · cases hrest
      exact ⟨rfl, Or.inr (Or.inr rfl)⟩
    · rw [run_lift_ok.mpr ⟨rfl, hobserve⟩] at hrest
      cases hrest

end Index

end PaymentSdk.Redb
