import PaymentSdk.Redb.Repository.Branch

/-!
# The journal is the top of the branch

An addition prunes by height, and a removal deletes its own entry. Together they keep the
journal a run of blocks that ends at the tip. Such a block can always be removed: what the
removal reads is what the addition wrote.
-/

open Interaction KvStore

namespace PaymentSdk.Redb

variable {size : Value → Bool} {scope : IndexScope} {s s' : Store Value} {a b : BlockAddition}
  {branch lower upper : List BlockAddition} {retention n : Nat}

/-- The journal entries of the top `n` blocks. -/
def journals (scope : IndexScope) : Nat → List BlockAddition → List JournalRecord
  | 0, _ => []
  | _ + 1, [] => []
  | n + 1, a :: lower => journalOf scope a (factsOf scope lower) :: journals scope n lower

@[simp]
theorem blockRef_journalOf (F : Facts) : (journalOf scope a F).blockRef = a.block := by
  simp [journalOf, journalRecord, JournalRecord.blockRef]

theorem mem_journals {j : JournalRecord} :
    j ∈ journals scope n branch ↔ ∃ upper a lower, branch = upper ++ a :: lower ∧
      upper.length < n ∧ j = journalOf scope a (factsOf scope lower) := by
  induction n generalizing branch with
  | zero => simp [journals]
  | succ n ih =>
    cases branch with
    | nil => simp [journals]
    | cons a lower =>
      rw [journals, List.mem_cons, ih]
      constructor
      · rintro (rfl | ⟨upper, b, rest, rfl, hlt, rfl⟩)
        · exact ⟨[], a, lower, rfl, by simp, rfl⟩
        · exact ⟨a :: upper, b, rest, rfl, by simpa using hlt, rfl⟩
      · rintro ⟨upper, b, rest, he, hlt, rfl⟩
        cases upper with
        | nil =>
          cases he
          exact Or.inl rfl
        | cons c upper =>
          obtain ⟨rfl, rfl⟩ := List.cons.inj he
          exact Or.inr ⟨upper, b, rest, rfl, by simpa using hlt, rfl⟩

theorem branch_height_add (h : Branch size scope (a :: (upper ++ b :: lower))) :
    b.block.height.toNat + (upper.length + 1) = a.block.height.toNat := by
  induction upper generalizing a with
  | nil =>
    have hnext : a.block.height.toNat = b.block.height.toNat + 1 := (a.follows (branch_expected h)).1
    rw [List.length_nil]
    omega
  | cons c upper ih =>
    have hnext : a.block.height.toNat = c.block.height.toNat + 1 := (a.follows (branch_expected h)).1
    have := ih h.1
    rw [List.length_cons]
    omega

theorem agedOut_eq_some {h : BlockHeight} :
    agedOut a = some h ↔ h.toNat + a.retention = a.block.height.toNat := by
  have hlt := a.block.height.toNat_lt
  have hof : ∀ m, m < 2 ^ 64 → (⟨UInt64.ofNat m⟩ : BlockHeight).toNat = m := by
    intro m hm
    simp only [BlockHeight.toNat, UInt64.toNat_ofNat']
    omega
  unfold agedOut
  split
  · rw [Option.some.injEq]
    constructor
    · rintro rfl
      rw [hof _ (by omega)]
      omega
    · intro hh
      apply BlockHeight.toNat_inj
      rw [hof _ (by omega)]
      omega
  · simp only [reduceCtorEq, false_iff]
    omega

/-! ## Contiguity -/

/-- The store holds the branch, and journals exactly its top `n` blocks. -/
structure Journalled (size : Value → Bool) (scope : IndexScope) (retention : Nat)
    (branch : List BlockAddition) (n : Nat) (s : Store Value) : Prop where
  holds : Holds size scope branch s
  journal : ∀ h v, s.valueAt (Keys.journal scope h) = some v ↔
    ∃ j ∈ journals scope n branch, j.blockRef.height = h ∧ v = .journal j
  within : n ≤ branch.length
  bound : n ≤ retention
  top : branch ≠ [] → 0 < n

theorem journalled_empty (h : Empty scope s) : Journalled size scope retention [] 0 s := by
  refine ⟨holds_nil_iff_empty.mpr h, ?_, by simp, by simp, by simp⟩
  intro height v
  rw [valueAt_eq_none.mpr (h _ (area_journal height))]
  simp [journals]

theorem mem_journals_add (hb : Branch size scope (a :: branch)) (hbound : n ≤ a.retention)
    {j : JournalRecord} :
    (j ∈ journals scope (min (n + 1) a.retention - 1) branch) ↔
      j ∈ journals scope n branch ∧ agedOut a ≠ some j.blockRef.height := by
  have hpos := a.valid.retention_pos
  simp only [mem_journals]
  constructor
  · rintro ⟨upper, b, lower, rfl, hlt, rfl⟩
    have hheight := branch_height_add hb
    refine ⟨⟨upper, b, lower, rfl, by omega, rfl⟩, ?_⟩
    rw [blockRef_journalOf, Ne, agedOut_eq_some]
    omega
  · rintro ⟨⟨upper, b, lower, rfl, hlt, rfl⟩, haged⟩
    have hheight := branch_height_add hb
    rw [blockRef_journalOf, Ne, agedOut_eq_some] at haged
    exact ⟨upper, b, lower, rfl, by omega, rfl⟩

theorem journalled_add (h : Journalled size scope retention branch n s)
    (hretention : a.retention = retention)
    (hr : Prog.run (serve size) (writeBlock scope a) s = (.ok .applied, s')) :
    Journalled size scope retention (a :: branch) (min (n + 1) retention) s' := by
  have hholds := (holds_add h.holds hr).1
  have hpos := a.valid.retention_pos
  have hwithin := h.within
  obtain ⟨-, -, -, -, rfl⟩ := run_writeBlock_applied.mp hr
  subst hretention
  obtain ⟨m, hm⟩ : ∃ m, min (n + 1) a.retention = m + 1 :=
    ⟨min (n + 1) a.retention - 1, by omega⟩
  refine ⟨hholds, ?_, by rw [List.length_cons]; omega, by omega, fun _ => by omega⟩
  intro height v
  rw [valueAt_write, effect_additionOps_journal, journalOf_facts, h.holds.stored, hm, journals]
  have hmem : ∀ j, j ∈ journals scope m branch ↔
      j ∈ journals scope n branch ∧ agedOut a ≠ some j.blockRef.height := by
    intro j
    rw [← mem_journals_add hholds.written h.bound, hm, Nat.add_sub_cancel]
  -- No older entry has the new block's height.
  have hnew : ∀ j ∈ journals scope m branch, j.blockRef.height ≠ a.block.height := by
    intro j hj he
    obtain ⟨upper, b, lower, rfl, -, rfl⟩ := mem_journals.mp hj
    rw [blockRef_journalOf] at he
    have := branch_height_add hholds.written
    rw [he] at this
    omega
  split_ifs with hself haged
  · subst hself
    simp only [Option.getD_some, Option.some.injEq, List.mem_cons]
    constructor
    · rintro rfl
      exact ⟨_, Or.inl rfl, by simp, rfl⟩
    · rintro ⟨j, rfl | hj, he, rfl⟩
      · rfl
      · exact absurd he (hnew j hj)
  · simp only [Option.getD_some, reduceCtorEq, List.mem_cons, false_iff]
    rintro ⟨j, rfl | hj, rfl, rfl⟩
    · exact hself (by simp)
    · exact ((hmem j).mp hj).2 haged
  · rw [Option.getD_none, h.journal]
    constructor
    · rintro ⟨j, hj, rfl, rfl⟩
      exact ⟨j, List.mem_cons_of_mem _ ((hmem j).mpr ⟨hj, haged⟩), rfl, rfl⟩
    · rintro ⟨j, hj, rfl, rfl⟩
      rcases List.mem_cons.mp hj with rfl | hj
      · exact absurd (by simp) hself
      · exact ⟨j, ((hmem j).mp hj).1, rfl, rfl⟩

/-- A removal keeps the run as long as another journalled block is left below. -/
theorem journalled_remove {tip : BlockRef} {out : Option BlockRef}
    (h : Journalled size scope retention branch n s) (hn : 1 < n)
    (hr : Prog.run (serve size) (removeTip scope scope tip) s = (.ok out, s')) :
    ∃ a lower, branch = a :: lower ∧ a.block = tip ∧ out = lower.head?.map (·.block) ∧
      Journalled size scope retention lower (n - 1) s' := by
  obtain ⟨a, lower, rfl, rfl, hout, hholds, -, -⟩ := holds_remove h.holds hr
  have hwithin := h.within
  have hbound := h.bound
  obtain ⟨-, -, j, hj, -, -, -, rfl⟩ := run_removeTip_ok.mp hr
  obtain rfl := holds_tip_journal h.holds hj
  rw [List.length_cons] at hwithin
  refine ⟨a, lower, rfl, rfl, hout, hholds, ?_, by omega, by omega, fun _ => by omega⟩
  obtain ⟨m, rfl⟩ : ∃ m, n = m + 1 := ⟨n - 1, by omega⟩
  intro height v
  rw [valueAt_write, effect_unjournal, Nat.add_sub_cancel]
  have hnew : ∀ j ∈ journals scope m lower, j.blockRef.height ≠ a.block.height := by
    intro j hj he
    obtain ⟨upper, b, rest, rfl, -, rfl⟩ := mem_journals.mp hj
    rw [blockRef_journalOf] at he
    have := branch_height_add h.holds.written
    rw [he] at this
    omega
  split_ifs with hself
  · simp only [Option.getD_some, reduceCtorEq, false_iff]
    rintro ⟨j, hj, rfl, rfl⟩
    exact hnew j hj hself
  · rw [Option.getD_none, h.journal, journals]
    constructor
    · rintro ⟨j, hj, rfl, rfl⟩
      rcases List.mem_cons.mp hj with rfl | hj
      · exact absurd (by simp) hself
      · exact ⟨j, hj, rfl, rfl⟩
    · rintro ⟨j, hj, rfl, rfl⟩
      exact ⟨j, List.mem_cons_of_mem _ hj, rfl, rfl⟩

theorem branch_height_top (h : Branch size scope (upper ++ b :: lower)) {tip : BlockRef}
    (htip : (upper ++ b :: lower).head?.map (·.block) = some tip) :
    b.block.height.toNat + upper.length = tip.height.toNat := by
  cases upper with
  | nil =>
    obtain rfl : b.block = tip := Option.some.inj htip
    rfl
  | cons a upper =>
    obtain rfl : a.block = tip := Option.some.inj htip
    exact branch_height_add h

/-- One store may hold several branches, that differ in blocks it no longer journals. -/
theorem journalled_of_holds {other : List BlockAddition}
    (h : Journalled size scope retention other n s) (hb : Holds size scope branch s) :
    Journalled size scope retention branch n s := by
  have hhead : branch.head?.map (·.block) = other.head?.map (·.block) :=
    checkpointValue_inj ((holds_checkpoint hb).symm.trans (holds_checkpoint h.holds))
  have htip : ∀ {upper b lower}, branch = upper ++ b :: lower → ∃ tip,
      (upper ++ b :: lower).head?.map (·.block) = some tip ∧ other.head?.map (·.block) = some tip := by
    rintro upper b lower rfl
    cases upper with
    | nil => exact ⟨_, rfl, hhead.symm⟩
    | cons a upper => exact ⟨_, rfl, hhead.symm⟩
  -- Both branches have the same height at the same place.
  have hplace : ∀ {upper b lower upper' b' lower'}, branch = upper ++ b :: lower →
      other = upper' ++ b' :: lower' →
      (b.block.height = b'.block.height ↔ upper.length = upper'.length) := by
    intro upper b lower upper' b' lower' he he'
    obtain ⟨tip, htop, htop'⟩ := htip he
    have hheight := branch_height_top (he ▸ hb.written) htop
    have hheight' := branch_height_top (he' ▸ h.holds.written) (he' ▸ htop')
    constructor
    · intro hh
      rw [hh] at hheight
      omega
    · intro hl
      exact BlockHeight.toNat_inj (by omega)
  have hentry : ∀ {i}, i < n → ∃ upper b lower, branch = upper ++ b :: lower ∧ upper.length = i ∧
      s.valueAt (Keys.journal scope b.block.height) =
        some (.journal (journalOf scope b (factsOf scope lower))) := by
    intro i hi
    have hwithin := h.within
    have hsplit : other = other.take i ++ other[i] :: other.drop (i + 1) := by
      rw [← List.drop_eq_getElem_cons (by omega), List.take_append_drop]
    have hj := (h.journal other[i].block.height _).mpr
      ⟨_, mem_journals.mpr ⟨_, _, _, hsplit, by rw [List.length_take]; omega, rfl⟩, by simp, rfl⟩
    obtain ⟨upper, b, lower, he, hbh, hv⟩ := hb.journal _ _ hj
    refine ⟨upper, b, lower, he, ?_, ?_⟩
    · have := (hplace he hsplit).mp hbh
      rw [List.length_take] at this
      omega
    · rw [hbh, hj, hv]
  refine ⟨hb, ?_, ?_, h.bound, ?_⟩
  · intro height v
    constructor
    · intro hv
      obtain ⟨upper, b, lower, he, rfl, rfl⟩ := hb.journal height v hv
      obtain ⟨j, hj, hh, -⟩ := (h.journal _ _).mp hv
      obtain ⟨upper', b', lower', he', hlt, rfl⟩ := mem_journals.mp hj
      rw [blockRef_journalOf] at hh
      have hl := (hplace he he').mp hh.symm
      exact ⟨_, mem_journals.mpr ⟨upper, b, lower, he, by omega, rfl⟩, by simp, rfl⟩
    · rintro ⟨j, hj, rfl, rfl⟩
      obtain ⟨upper, b, lower, he, hlt, rfl⟩ := mem_journals.mp hj
      obtain ⟨upper', b', lower', he', hlen, hv⟩ := hentry hlt
      obtain ⟨rfl, hcons⟩ := List.append_inj (he.symm.trans he') hlen.symm
      cases hcons
      rw [blockRef_journalOf, hv]
  · cases n with
    | zero => exact Nat.zero_le _
    | succ m =>
      obtain ⟨upper, b, lower, rfl, hlen, -⟩ := hentry (Nat.lt_succ_self m)
      rw [List.length_append, List.length_cons]
      omega
  · intro hne
    apply h.top
    rintro rfl
    cases branch with
    | nil => exact hne rfl
    | cons a lower => cases hhead

/-! ## Removals succeed -/

/-- Stored values fit, and history and outputs decode to what their keys say. -/
structure Sound (size : Value → Bool) (scope : IndexScope) (F : Facts) : Prop where
  fits : ∀ k v, F k = some v → size v = true
  history : ∀ k r, F k = some (.transaction r) →
    ∃ p : CanonicalTransaction × CanonicalAddress, k = historyKey scope p ∧ r.intoDomain = .ok p.1
  outputs : ∀ k r, F k = some (.output r) →
    ∃ o, r.intoDomain = .ok o ∧ Keys.output scope o.key = k

theorem created_decodes {o : IndexedOutput} (ho : o ∈ a.outputs.created) :
    (OutputRecord.fromDomain o).intoDomain = .ok o :=
  OutputRecord.intoDomain_fromDomain (a.valid.changes.created o ho).2.2.1

theorem history_decodes {p : CanonicalTransaction × CanonicalAddress} (hp : p ∈ historyPairs a) :
    (TransactionRecord.fromDomain p.1).intoDomain = .ok p.1 := by
  simp only [historyPairs, List.mem_flatMap, List.mem_map] at hp
  obtain ⟨t, ht, address, -, rfl⟩ := hp
  exact TransactionRecord.intoDomain_fromDomain (a.valid.canonical t ht)

theorem history_ne_output {k : Key} (h : Keys.isHistory scope k = true) :
    Keys.isOutput scope k = false := by
  by_contra hk
  have := (Keys.tagByte_isHistory h).symm.trans (Keys.tagByte_isOutput (by simpa using hk))
  exact absurd this (by decide)

/-- What a block leaves under a key: a history entry, a created output, or nothing where it
spent one. -/
theorem effect_factOps_cases {F : Facts} {k : Key} {x : Option Value}
    (h : effect (factOps scope a F) k = some x) :
    (∃ p ∈ historyPairs a, k = historyKey scope p ∧
        x = some (.transaction (TransactionRecord.fromDomain p.1))) ∨
      (∃ o ∈ a.outputs.created, k = Keys.output scope o.key ∧
        x = some (.output (OutputRecord.fromDomain o))) ∨
      ∃ y ∈ restores scope a F, k = y.key ∧ x = none := by
  obtain ⟨op, hop, rfl, rfl⟩ := exists_of_effect h
  simp only [factOps, List.mem_append, List.mem_map] at hop
  rcases hop with (⟨p, hp, rfl⟩ | ⟨o, ho, rfl⟩) | ⟨y, hy, rfl⟩
  · exact Or.inl ⟨p, hp, rfl, rfl⟩
  · exact Or.inr (Or.inl ⟨o, ho, rfl, rfl⟩)
  · exact Or.inr (Or.inr ⟨y, hy, rfl, rfl⟩)

theorem effect_factOps_isSome {F : Facts} {op : Operation Value} (h : op ∈ factOps scope a F) :
    ∃ x, effect (factOps scope a F) op.key = some x := by
  apply Option.ne_none_iff_exists'.mp
  rw [Ne, effect_eq_none_iff]
  exact fun hall => hall _ h rfl

theorem sound_add {F : Facts} (h : Sound size scope F) (hadmits : Admits size scope a F) :
    Sound size scope (F.add scope a) := by
  constructor
  · intro k v hv
    unfold Facts.add at hv
    split_ifs at hv with hck
    · cases hv
      exact hadmits.fits (.put (Keys.checkpoint scope) _) (by simp [additionOps, journalOps])
    · cases he : effect (factOps scope a F) k with
      | none =>
        rw [he] at hv
        exact h.fits k v hv
      | some x =>
        rw [he, Option.getD_some] at hv
        subst hv
        obtain ⟨op, hop, rfl, hleaves⟩ := exists_of_effect he
        cases op with
        | put k v' =>
          cases hleaves
          exact hadmits.fits _ (List.mem_append_left _ hop)
        | delete k => cases hleaves
  · intro k r hv
    unfold Facts.add at hv
    split_ifs at hv with hck
    · cases hv
    · cases he : effect (factOps scope a F) k with
      | none =>
        rw [he] at hv
        exact h.history k r hv
      | some x =>
        rw [he, Option.getD_some] at hv
        subst hv
        rcases effect_factOps_cases he with ⟨p, hp, rfl, hr⟩ | ⟨o, -, -, ho⟩ | ⟨y, -, -, hy⟩
        · cases hr
          exact ⟨p, rfl, history_decodes hp⟩
        · cases ho
        · cases hy
  · intro k r hv
    unfold Facts.add at hv
    split_ifs at hv with hck
    · cases hv
    · cases he : effect (factOps scope a F) k with
      | none =>
        rw [he] at hv
        exact h.outputs k r hv
      | some x =>
        rw [he, Option.getD_some] at hv
        subst hv
        rcases effect_factOps_cases he with ⟨p, -, -, hp⟩ | ⟨o, ho, rfl, hr⟩ | ⟨y, -, -, hy⟩
        · cases hp
        · cases hr
          exact ⟨o, created_decodes ho, rfl⟩
        · cases hy

theorem sound_factsOf (h : Branch size scope branch) : Sound size scope (factsOf scope branch) := by
  induction branch with
  | nil => exact ⟨by rintro k v ⟨⟩, by rintro k r ⟨⟩, by rintro k r ⟨⟩⟩
  | cons a lower ih => exact sound_add (ih h.1) h.2

/-! What a block left under the keys that its journal names. -/

section left

variable {F : Facts}

theorem add_history {p : CanonicalTransaction × CanonicalAddress} (hp : p ∈ historyPairs a) :
    ∃ r t, F.add scope a (historyKey scope p) = some (.transaction r) ∧ r.intoDomain = .ok t := by
  have hk : Keys.isHistory scope (historyKey scope p) = true := Keys.isHistory_history _ _ _ _
  have hput : historyPut scope p ∈ factOps scope a F :=
    List.mem_append_left _ (List.mem_append_left _ (List.mem_map_of_mem hp))
  obtain ⟨x, hx⟩ := effect_factOps_isSome hput
  rw [Facts.add, if_neg (checkpoint_ne_history hk)]
  rw [historyPut, Operation.key] at hx
  rw [hx, Option.getD_some]
  rcases effect_factOps_cases hx with ⟨q, hq, -, rfl⟩ | ⟨o, -, he, -⟩ | ⟨y, hy, he, -⟩
  · exact ⟨_, _, rfl, history_decodes hq⟩
  · have := history_ne_output hk
    rw [he, Keys.isOutput_output] at this
    cases this
  · have := history_ne_output hk
    obtain ⟨key, -, hkey, -⟩ := mem_restores.mp hy
    rw [he, hkey, Keys.isOutput_output] at this
    cases this

theorem add_created (hadmits : Admits size scope a F) {o : IndexedOutput}
    (ho : o ∈ a.outputs.created) :
    ∃ r o', F.add scope a (Keys.output scope o.key) = some (.output r) ∧ r.intoDomain = .ok o' ∧
      Keys.output scope o'.key = Keys.output scope o.key := by
  have hk := Keys.isOutput_output scope o.key
  have hput : createdPut scope o ∈ factOps scope a F :=
    List.mem_append_left _ (List.mem_append_right _ (List.mem_map_of_mem ho))
  obtain ⟨x, hx⟩ := effect_factOps_isSome hput
  rw [createdPut, Operation.key] at hx
  rw [Facts.add, if_neg (checkpoint_ne_output hk), hx, Option.getD_some]
  rcases effect_factOps_cases hx with ⟨p, -, he, -⟩ | ⟨o', ho', he, rfl⟩ | ⟨y, hy, he, -⟩
  · have := history_ne_output (Keys.isHistory_history scope p.2 p.1.block.height p.1.transactionId)
    rw [historyKey] at he
    rw [← he, hk] at this
    cases this
  · exact ⟨_, o', rfl, created_decodes ho', he.symm⟩
  · obtain ⟨-, -, -, hF⟩ := mem_restores.mp hy
    rw [← he, hadmits.created o ho] at hF
    cases hF

theorem add_restores (hadmits : Admits size scope a F) {x : RestoredOutput}
    (hx : x ∈ restores scope a F) : F.add scope a x.key = none := by
  obtain ⟨key, -, hkey, hF⟩ := mem_restores.mp hx
  have hk : Keys.isOutput scope x.key = true := by
    rw [hkey]
    exact Keys.isOutput_output scope key
  have hdelete : Operation.delete x.key ∈ factOps scope a F :=
    List.mem_append_right _ (List.mem_map.mpr ⟨x, hx, rfl⟩)
  obtain ⟨v, hv⟩ := effect_factOps_isSome hdelete
  rw [Operation.key] at hv
  rw [Facts.add, if_neg (checkpoint_ne_output hk), hv, Option.getD_some]
  rcases effect_factOps_cases hv with ⟨p, -, he, -⟩ | ⟨o, ho, he, -⟩ | ⟨-, -, -, rfl⟩
  · have := history_ne_output (Keys.isHistory_history scope p.2 p.1.block.height p.1.transactionId)
    rw [historyKey] at he
    rw [← he, hk] at this
    cases this
  · rw [he, hadmits.created o ho] at hF
    cases hF
  · rfl

end left

/-- Everything that a removal of the tip checks is as the addition left it. -/
theorem removable_tip (h : Holds size scope (a :: lower) s) (hroom : s.version + 1 ≤ maxVersion) :
    Removable size scope a.block (journalOf scope a (factsOf scope lower)) s := by
  obtain ⟨hbelow, hadmits⟩ := h.written
  have hsound := sound_factsOf hbelow
  have hat : ∀ k, isFact scope k = true → s.valueAt k = (factsOf scope lower).add scope a k := by
    intro k hk
    rw [← facts_eq hk, h.stored]
    rfl
  refine ⟨?_, ?_, ?_, hroom, ?_⟩
  · intro k hk
    obtain ⟨p, hp, rfl⟩ := List.mem_map.mp hk
    have hkey : Keys.isHistory scope (historyKey scope p) = true := Keys.isHistory_history _ _ _ _
    obtain ⟨r, t, hr, ht⟩ : ∃ r t, (factsOf scope lower).add scope a (historyKey scope p) =
        some (.transaction r) ∧ r.intoDomain = .ok t := add_history hp
    exact ⟨hkey, r, t, by rw [hat _ (isFact_history hkey), hr], ht⟩
  · intro k hk
    obtain ⟨o, ho, rfl⟩ := List.mem_map.mp hk
    have hkey := Keys.isOutput_output scope o.key
    obtain ⟨r, o', hr, ho', he⟩ := add_created hadmits ho
    exact ⟨hkey, r, o', by rw [hat _ (isFact_output hkey), hr], ho', he⟩
  · intro x hx
    obtain ⟨key, -, hkey, hF⟩ := mem_restores.mp hx
    have hout : Keys.isOutput scope x.key = true := by
      rw [hkey]
      exact Keys.isOutput_output scope key
    refine ⟨hout, ?_, hsound.outputs _ _ hF⟩
    rw [← valueAt_eq_none, hat _ (isFact_output hout)]
    exact add_restores hadmits hx
  · intro op hop
    simp only [removalOps, unjournalOps, List.mem_append, List.mem_map, List.mem_cons,
      List.not_mem_nil, or_false] at hop
    rcases hop with ((⟨k, -, rfl⟩ | ⟨k, -, rfl⟩) | ⟨x, hx, rfl⟩) | rfl | rfl
    · rfl
    · rfl
    · obtain ⟨-, -, -, hF⟩ := mem_restores.mp hx
      exact hsound.fits _ _ hF
    · rfl
    · have hprevious : (journalOf scope a (factsOf scope lower)).previousCheckpoint =
          a.expectedCheckpoint.map BlockRecord.fromDomain := rfl
      rw [hprevious]
      cases hexpected : a.expectedCheckpoint with
      | none => rfl
      | some c =>
        have := hadmits.checkpoint
        rw [hexpected] at this
        exact hsound.fits _ _ this

theorem remove_succeeds (h : Journalled size scope retention (a :: lower) n s)
    (hroom : s.version + 1 ≤ maxVersion) :
    ∃ s', Prog.run (serve size) (removeTip scope scope a.block) s =
      (.ok (lower.head?.map (·.block)), s') := by
  have hpos := h.top (by simp)
  obtain ⟨m, rfl⟩ : ∃ m, n = m + 1 := ⟨n - 1, by omega⟩
  have hj : s.valueAt (Keys.journal scope a.block.height) =
      some (.journal (journalOf scope a (factsOf scope lower))) :=
    (h.journal _ _).mpr ⟨_, by rw [journals]; exact List.mem_cons_self, by simp, rfl⟩
  refine ⟨_, run_removeTip_ok.mpr ⟨rfl, ?_, _, hj, by simp, removable_tip h.holds hroom, ?_, rfl⟩⟩
  · rw [holds_checkpoint h.holds]
    rfl
  · rw [← branch_expected h.holds.written]
    simp [journalOf, journalRecord, Function.comp_def]

end PaymentSdk.Redb
