import Mathlib.Data.List.Nodup
import PaymentSdk.Redb.Depth

/-!
# What is listed for an address

The history of an address is the list of the transactions of the stored branch that touch it.
A listing depends only on the values under its prefix, not on their versions.
-/

open Interaction KvStore

namespace PaymentSdk.Redb

variable {size : Value → Bool} {scope : IndexScope} {s t : Store Value} {a : BlockAddition}
  {branch : List BlockAddition}

/-! ## History of a branch -/

theorem mem_historyPairs {p : CanonicalTransaction × CanonicalAddress} :
    p ∈ historyPairs a ↔ p.1 ∈ a.transactions ∧ p.2 ∈ p.1.addresses := by
  simp only [historyPairs, List.mem_flatMap, List.mem_map, Std.ExtTreeSet.mem_toList]
  constructor
  · rintro ⟨tx, htx, address, haddress, rfl⟩
    exact ⟨htx, haddress⟩
  · rintro ⟨htx, haddress⟩
    exact ⟨p.1, htx, p.2, haddress, rfl⟩

theorem eq_of_historyKey {p q : CanonicalTransaction × CanonicalAddress} (hp : p ∈ historyPairs a)
    (hq : q ∈ historyPairs a) (hkey : historyKey scope p = historyKey scope q) : p.1 = q.1 := by
  have htp := (mem_historyPairs.mp hp).1
  have htq := (mem_historyPairs.mp hq).1
  obtain ⟨-, -, hid⟩ := Keys.history_inj hkey
  have href : p.1.transactionId = q.1.transactionId := by
    have hscope := (a.valid.canonical _ htp).id_scope.trans (a.valid.canonical _ htq).id_scope.symm
    cases hpid : p.1.transactionId
    cases hqid : q.1.transactionId
    rw [hpid, hqid] at hid hscope
    simp only at hid hscope
    rw [hid, hscope]
  exact List.inj_on_of_nodup_map a.valid.ids htp htq href

/-- What a block of the branch wrote for readers of history is still there. -/
theorem factsOf_history (h : Branch size scope branch) (ha : a ∈ branch)
    {p : CanonicalTransaction × CanonicalAddress} (hp : p ∈ historyPairs a) :
    factsOf scope branch (historyKey scope p) =
      some (.transaction (TransactionRecord.fromDomain p.1)) := by
  have hk : Keys.isHistory scope (historyKey scope p) = true := Keys.isHistory_history _ _ _ _
  have hnot : ∀ key, historyKey scope p ≠ Keys.output scope key := by
    intro key he
    have := history_ne_output hk
    rw [he, Keys.isOutput_output] at this
    cases this
  induction branch with
  | nil => cases ha
  | cons b lower ih =>
    rw [factsOf, Facts.add, if_neg (checkpoint_ne_history hk)]
    rcases List.mem_cons.mp ha with rfl | ha
    · have hput : historyPut scope p ∈ factOps scope a (factsOf scope lower) :=
        List.mem_append_left _ (List.mem_append_left _ (List.mem_map_of_mem hp))
      obtain ⟨x, hx⟩ := effect_factOps_isSome hput
      rw [historyPut, Operation.key] at hx
      rw [hx, Option.getD_some]
      rcases effect_factOps_cases hx with ⟨q, hq, hkey, rfl⟩ | ⟨o, -, he, -⟩ | ⟨y, hy, he, -⟩
      · rw [eq_of_historyKey hp hq hkey]
      · exact absurd he (hnot _)
      · obtain ⟨key, -, hkey, -⟩ := mem_restores.mp hy
        exact absurd (he.trans hkey) (hnot _)
    · have hbelow := ih h.1 ha
      cases he : effect (factOps scope b (factsOf scope lower)) (historyKey scope p) with
      | none => rw [Option.getD_none, hbelow]
      | some x =>
        -- The block above may not write where something is.
        rcases effect_factOps_cases he with ⟨q, hq, hkey, -⟩ | ⟨o, -, hkey, -⟩ | ⟨y, hy, hkey, -⟩
        · have := h.2.history q hq
          rw [← hkey, hbelow] at this
          cases this
        · exact absurd hkey (hnot _)
        · obtain ⟨key, -, hykey, -⟩ := mem_restores.mp hy
          exact absurd (hkey.trans hykey) (hnot _)

theorem branch_scope (h : Branch size scope branch) (ha : a ∈ branch) : a.scope = scope := by
  induction branch with
  | nil => cases ha
  | cons b lower ih =>
    rcases List.mem_cons.mp ha with rfl | ha
    · exact h.2.scope_eq
    · exact ih h.1 ha

/-- Everything under the prefix of an address. -/
theorem mem_history (h : Holds size scope branch s) {address : CanonicalAddress}
    (haddress : address.scope = scope) {k : Key} {v : Value} :
    (Keys.historyPrefix scope address).isPrefixOf k = true ∧ s.valueAt k = some v ↔
      ∃ a ∈ branch, ∃ tx ∈ a.transactions, address ∈ tx.addresses ∧
        k = Keys.history scope address tx.block.height tx.transactionId ∧
        v = .transaction (TransactionRecord.fromDomain tx) := by
  constructor
  · rintro ⟨hpre, hv⟩
    have hk := isHistory_of_under hpre
    have hfact : factsOf scope branch k = some v := by
      rw [← h.stored, facts_eq (isFact_history hk), hv]
    obtain ⟨a, n, ⟨upper, lower, hbranch, -⟩, ⟨p, hp, rfl, rfl⟩ | ⟨o, -, rfl, -⟩⟩ :=
      factsOf_origin (checkpoint_ne_history hk) hfact
    · obtain ⟨htx, hmem⟩ := mem_historyPairs.mp hp
      have ha : a ∈ branch := by
        rw [hbranch]
        simp
      have hvalue : p.2.value = address.value := by
        rw [List.isPrefixOf_iff_prefix] at hpre
        obtain ⟨z, hz⟩ := hpre
        simp only [historyKey, Keys.history, Keys.historyPrefix, List.append_assoc] at hz
        exact (Keys.component_append_inj (List.append_cancel_left hz)).1.symm
      have hsame : p.2 = address := by
        have hscope := (addresses_scope (a.valid.canonical _ htx) hmem).trans (branch_scope h.written ha)
        cases hp2 : p.2
        cases address
        rw [hp2] at hvalue hscope
        simp only at hvalue hscope haddress
        rw [hvalue, hscope, haddress]
      rw [hsame] at hmem
      exact ⟨a, ha, p.1, htx, hmem, by rw [historyKey, hsame], rfl⟩
    · have := history_ne_output hk
      rw [Keys.isOutput_output] at this
      cases this
  · rintro ⟨a, ha, tx, htx, hmem, rfl, rfl⟩
    refine ⟨?_, ?_⟩
    · rw [List.isPrefixOf_iff_prefix, Keys.history, List.append_assoc]
      exact List.prefix_append _ _
    · have hp : (tx, address) ∈ historyPairs a := mem_historyPairs.mpr ⟨htx, hmem⟩
      have := factsOf_history h.written ha hp
      rw [← h.stored, historyKey, facts_eq (isFact_history (Keys.isHistory_history _ _ _ _))] at this
      exact this

/-! ## Listings -/

section Listing

variable {T : Type} {read : Value → Except IndexError T} {pre : Key} {items : List T}

theorem decodeEntries_congr {xs ys : List (Key × Stored Value)}
    (h : xs.map (·.2.value) = ys.map (·.2.value)) : decodeEntries read xs = decodeEntries read ys := by
  induction xs generalizing ys with
  | nil =>
    cases ys with
    | nil => rfl
    | cons y ys => cases h
  | cons x xs ih =>
    cases ys with
    | nil => cases h
    | cons y ys =>
      simp only [List.map_cons, List.cons.injEq] at h
      rw [decodeEntries, decodeEntries, h.1, ih h.2]

theorem mem_of_entry {entries : List (Key × Stored Value)} (h : decodeEntries read entries = .ok items)
    {e : Key × Stored Value} (he : e ∈ entries) {x : T} (hread : read e.2.value = .ok x) : x ∈ items := by
  induction entries generalizing items with
  | nil => cases he
  | cons y rest ih =>
    obtain ⟨z, zs, hy, hrest, rfl⟩ := decodeEntries_cons.mp h
    rcases List.mem_cons.mp he with rfl | he
    · rw [hread] at hy
      cases hy
      exact List.mem_cons_self
    · exact List.mem_cons_of_mem _ (ih hrest he)

theorem isListing_congr (h : ∀ k, pre.isPrefixOf k = true → s.valueAt k = t.valueAt k) :
    IsListing read pre s items ↔ IsListing read pre t items := by
  have hsorted : ∀ u : Store Value, ((u.under pre).map fun e => (e.1, e.2.value)).Pairwise
      fun a b => compare a.1 b.1 = .lt := by
    intro u
    rw [List.pairwise_map]
    exact under_ascending u pre
  have hmem : ∀ (u : Store Value) x, x ∈ (u.under pre).map (fun e => (e.1, e.2.value)) ↔
      pre.isPrefixOf x.1 = true ∧ u.valueAt x.1 = some x.2 := by
    rintro u ⟨k, v⟩
    simp only [List.mem_map, mem_under, Prod.mk.injEq, Store.valueAt, Option.map_eq_some_iff]
    constructor
    · rintro ⟨e, ⟨hget, hpre⟩, rfl, rfl⟩
      exact ⟨hpre, e.2, hget, rfl⟩
    · rintro ⟨hpre, stored, hget, rfl⟩
      exact ⟨(k, stored), ⟨hget, hpre⟩, rfl, rfl⟩
  have hnodup : ∀ {l : List (Key × Value)}, l.Pairwise (fun a b => compare a.1 b.1 = .lt) → l.Nodup := by
    intro l hl
    refine hl.imp fun {a b} hab heq => ?_
    subst heq
    simp at hab
  have hsame : ((s.under pre).map fun e => (e.1, e.2.value)) = (t.under pre).map fun e => (e.1, e.2.value) := by
    have hperm := (List.perm_ext_iff_of_nodup (hnodup (hsorted s)) (hnodup (hsorted t))).mpr fun x => by
      rw [hmem, hmem]
      exact and_congr_right fun hpre => by rw [h _ hpre]
    refine hperm.eq_of_pairwise (fun a b _ _ hab hba => ?_) (hsorted s) (hsorted t)
    rw [Std.OrientedCmp.gt_of_lt hab] at hba
    cases hba
  have hvalues : (s.under pre).map (·.2.value) = (t.under pre).map (·.2.value) := by
    simpa only [List.map_map, Function.comp_def] using congrArg (List.map (·.2)) hsame
  rw [isListing_iff, isListing_iff, decodeEntries_congr hvalues]

theorem mem_isListing (h : IsListing read pre s items) {x : T} :
    x ∈ items ↔ ∃ k v, pre.isPrefixOf k = true ∧ s.valueAt k = some v ∧ read v = .ok x := by
  rw [isListing_iff] at h
  constructor
  · intro hx
    obtain ⟨e, he, hread⟩ := mem_of_decodeEntries h hx
    obtain ⟨hget, hpre⟩ := mem_under.mp he
    exact ⟨e.1, e.2.value, hpre, by rw [Store.valueAt, hget]; rfl, hread⟩
  · rintro ⟨k, v, hpre, hv, hread⟩
    obtain ⟨stored, hget, rfl⟩ := Option.map_eq_some_iff.mp hv
    have hmem : (k, stored) ∈ s.under pre := mem_under.mpr ⟨hget, hpre⟩
    exact mem_of_entry h hmem hread

end Listing

/-! ## The history of an address -/

/-- A transaction of the branch that touches the address. -/
def Touching (branch : List BlockAddition) (address : CanonicalAddress) (tx : CanonicalTransaction) :
    Prop :=
  ∃ a ∈ branch, tx ∈ a.transactions ∧ address ∈ tx.addresses

/-- What `Transactions::list` gives for the address, all pages together. -/
def Lists (scope : IndexScope) (s : Store Value) (address : CanonicalAddress)
    (items : List CanonicalTransaction) : Prop :=
  IsListing decodeTransaction (Keys.historyPrefix scope address) s items

theorem exists_lists (h : Holds size scope branch s) (address : CanonicalAddress) :
    ∃ items, Lists scope s address items := by
  have hread : ∀ e ∈ s.under (Keys.historyPrefix scope address),
      ∃ tx, decodeTransaction e.2.value = .ok tx := by
    intro e he
    obtain ⟨a, n, tx, -, -, hread⟩ := Index.under_history h he
    exact ⟨tx, hread⟩
  obtain ⟨items, hitems⟩ := exists_decodeEntries hread
  exact ⟨items, isListing_iff.mpr hitems⟩

theorem mem_lists (h : Holds size scope branch s) {address : CanonicalAddress}
    (haddress : address.scope = scope) {items : List CanonicalTransaction}
    (hl : Lists scope s address items) {tx : CanonicalTransaction} :
    tx ∈ items ↔ Touching branch address tx := by
  rw [mem_isListing hl]
  have hreads : ∀ (a : BlockAddition) tx, tx ∈ a.transactions →
      decodeTransaction (.transaction (TransactionRecord.fromDomain tx)) = .ok tx :=
    fun a tx htx => TransactionRecord.intoDomain_fromDomain (a.valid.canonical tx htx)
  constructor
  · rintro ⟨k, v, hpre, hv, hread⟩
    obtain ⟨a, ha, tx', htx', hmem, -, rfl⟩ := (mem_history h haddress).mp ⟨hpre, hv⟩
    rw [hreads a tx' htx'] at hread
    cases hread
    exact ⟨a, ha, htx', hmem⟩
  · rintro ⟨a, ha, htx, hmem⟩
    obtain ⟨hpre, hv⟩ := (mem_history h haddress).mpr ⟨a, ha, tx, htx, hmem, rfl, rfl⟩
    exact ⟨_, _, hpre, hv, hreads a tx htx⟩

theorem lists_congr {size' : Value → Bool} {branch' : List BlockAddition} (h : Holds size scope branch s)
    (h' : Holds size' scope branch' t) {address : CanonicalAddress} (haddress : address.scope = scope)
    (hsame : ∀ tx, Touching branch address tx ↔ Touching branch' address tx)
    {items : List CanonicalTransaction} : Lists scope s address items ↔ Lists scope t address items := by
  apply isListing_congr
  intro k hpre
  apply Option.ext
  intro v
  have hiff := mem_history h haddress (k := k) (v := v)
  have hiff' := mem_history h' haddress (k := k) (v := v)
  simp only [hpre, true_and] at hiff hiff'
  rw [hiff, hiff']
  constructor
  · rintro ⟨a, ha, tx, htx, hmem, hkey, hv⟩
    obtain ⟨a', ha', htx', hmem'⟩ := (hsame tx).mp ⟨a, ha, htx, hmem⟩
    exact ⟨a', ha', tx, htx', hmem', hkey, hv⟩
  · rintro ⟨a, ha, tx, htx, hmem, hkey, hv⟩
    obtain ⟨a', ha', htx', hmem'⟩ := (hsame tx).mpr ⟨a, ha, htx, hmem⟩
    exact ⟨a', ha', tx, htx', hmem', hkey, hv⟩

end PaymentSdk.Redb
