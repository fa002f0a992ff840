import PaymentSdk.Postgres.Spec

/-!
# When rollback inverts commit

Undo deletes by height, so it needs that nothing but the tip has the height of the tip. Every
run keeps that. What a commit cannot do at all is spend, since the statement that moves spent
outputs to the journal is refused.
-/

open Relational Checked

namespace PaymentSdk.Postgres

/-! ## The invariant -/

/-- The heights of all rows of a scope. -/
structure Db.Heights (db : Db) (scope : IndexScope) (P : Int → Prop) : Prop where
  history : ∀ r ∈ db.history, r.scope = scope → P r.block.height
  movement : ∀ r ∈ db.movement, r.scope = scope → P r.height
  output : ∀ r ∈ db.output, r.scope = scope → P r.createdAt
  journal : ∀ r ∈ db.journal, r.scope = scope → P r.block.height

/-- The invariant of a database that only the repository has written to. -/
structure Db.Sound (db : Db) : Prop where
  keys : (db.checkpoint.map checkpointSchema.key).Nodup
  stored : ∀ r ∈ db.checkpoint, ∃ b, Storable b ∧ r.block = columns b
  empty : ∀ scope, scope ∉ db.checkpoint.map checkpointSchema.key → db.Heights scope fun _ => False
  below : ∀ r ∈ db.checkpoint, db.Heights r.scope (· ≤ r.block.height)
  first : ∀ j ∈ db.journal, j.previous = none → db.Heights j.scope (j.block.height ≤ ·)
  linked : ∀ j ∈ db.journal, ∀ c ∈ j.previous, c.height + 1 = j.block.height ∧ ∃ b, Storable b ∧ c = columns b
  unspent : db.journalOutput = []

section Reads

variable {db : Db} {scope : IndexScope} {height : Int}

theorem Db.Heights.mono {P Q : Int → Prop} (h : db.Heights scope P) (hPQ : ∀ n, P n → Q n) : db.Heights scope Q where
  history r hr hs := hPQ _ (h.history r hr hs)
  movement r hr hs := hPQ _ (h.movement r hr hs)
  output r hr hs := hPQ _ (h.output r hr hs)
  journal r hr hs := hPQ _ (h.journal r hr hs)

theorem queryOpt_ok {ρ : Type} {rows : List ρ} {o : Option ρ} : queryOpt rows = .ok o ↔ rows = o.toList := by
  match rows, o with
  | [], none => simp [queryOpt]
  | [], some _ => simp [queryOpt]
  | [_], none => simp [queryOpt]
  | [_], some _ => simp [queryOpt]
  | _ :: _ :: _, none => simp [queryOpt]
  | _ :: _ :: _, some _ => simp [queryOpt]

theorem lockedCheckpoint_none (h : lockedCheckpoint db scope = .ok none) :
    scope ∉ db.checkpoint.map checkpointSchema.key := by
  unfold lockedCheckpoint at h
  obtain ⟨row, hrow, h⟩ := bind_ok.mp h
  cases row with
  | none =>
    intro hmem
    obtain ⟨r, hr, rfl⟩ := List.mem_map.mp hmem
    have hfilter := queryOpt_ok.mp hrow
    have : r ∈ db.checkpoint.filter fun x => x.scope = checkpointSchema.key r :=
      List.mem_filter.mpr ⟨hr, decide_eq_true rfl⟩
    rw [hfilter] at this
    simp at this
  | some row =>
    obtain ⟨b, -, hb⟩ := map_ok.mp h
    cases hb

theorem Db.Sound.lockedCheckpoint_some (hsound : db.Sound) {b : BlockRef}
    (h : lockedCheckpoint db scope = .ok (some b)) : ⟨scope, columns b⟩ ∈ db.checkpoint ∧ Storable b := by
  unfold lockedCheckpoint at h
  obtain ⟨row, hrow, h⟩ := bind_ok.mp h
  cases row with
  | none => cases h
  | some row =>
    obtain ⟨b', hb', hb⟩ := map_ok.mp h
    cases hb
    have hfound : row ∈ db.checkpoint.filter (·.scope = scope) := by
      rw [queryOpt_ok.mp hrow]
      simp
    obtain ⟨hmem, hscope⟩ := List.mem_filter.mp hfound
    obtain ⟨c, hc, hcolumns⟩ := hsound.stored row hmem
    rw [hcolumns, block_columns] at hb'
    obtain rfl := Except.ok.inj hb'
    obtain ⟨rowScope, rowBlock⟩ := row
    obtain rfl : rowScope = scope := of_decide_eq_true hscope
    obtain rfl : rowBlock = columns c := hcolumns
    exact ⟨hmem, hc⟩

theorem lockedCheckpoint_of_mem (hkeys : (db.checkpoint.map checkpointSchema.key).Nodup) {b : BlockRef}
    (h : ⟨scope, columns b⟩ ∈ db.checkpoint) : lockedCheckpoint db scope = .ok (some b) := by
  have hfilter : db.checkpoint.filter (·.scope = scope) = [⟨scope, columns b⟩] := filter_key hkeys h
  unfold lockedCheckpoint
  rw [hfilter]
  simp [queryOpt, bind, Except.bind, block_columns, Functor.map, Except.map]

end Reads

/-! ## Commits -/

/-- The numbers of the addition fit their columns, its block has a complete parent, and it spends
nothing. -/
structure Accepted (a : BlockAddition) : Prop where
  block : Storable a.block
  movements : FewMovements a
  indices : SmallIndices a
  unspent : a.outputs.spends = []

/-- None of the block's outputs is stored yet. -/
def CreatedNew (db : Db) (a : BlockAddition) : Prop :=
  ∀ r ∈ createdOf a.scope a, outputSchema.key r ∉ db.output.map outputSchema.key

/-- The tables with the block added. -/
def applied (db : Db) (a : BlockAddition) : Db where
  checkpoint := replaceRow checkpointSchema db.checkpoint ⟨a.scope, columns a.block⟩
  history := db.history ++ historyOf a.scope a
  movement := db.movement ++ movementOf a.scope a
  output := db.output ++ createdOf a.scope a
  journal := (journalled db a.scope a).journal
  journalOutput := (journalled db a.scope a).journalOutput

section Commit

variable {db db' : Db} {a : BlockAddition}

theorem height_historyOf {r : HistoryRow} (h : r ∈ historyOf a.scope a) :
    r.scope = a.scope ∧ r.block.height = a.block.height.val.toNat := by
  obtain ⟨p, -, rfl⟩ := List.mem_map.mp h
  exact ⟨rfl, rfl⟩

theorem height_movementOf {r : MovementRow} (h : r ∈ movementOf a.scope a) :
    r.scope = a.scope ∧ r.height = a.block.height.val.toNat := by
  obtain ⟨p, -, hr⟩ := List.mem_flatMap.mp h
  obtain ⟨m, -, rfl⟩ := List.mem_map.mp hr
  exact ⟨rfl, rfl⟩

theorem height_createdOf {r : OutputRow} (h : r ∈ createdOf a.scope a) :
    r.scope = a.scope ∧ r.createdAt = a.block.height.val.toNat := by
  obtain ⟨o, -, rfl⟩ := List.mem_map.mp h
  exact ⟨rfl, rfl⟩

theorem Db.Sound.under (hsound : db.Sound) (hcurrent : lockedCheckpoint db a.scope = .ok a.expectedCheckpoint) :
    db.Heights a.scope (· < a.block.height.val.toNat) := by
  cases hexpected : a.expectedCheckpoint with
  | none =>
    rw [hexpected] at hcurrent
    exact (hsound.empty a.scope (lockedCheckpoint_none hcurrent)).mono fun _ h => h.elim
  | some c =>
    rw [hexpected] at hcurrent
    have hbelow := hsound.below _ (hsound.lockedCheckpoint_some hcurrent).1
    have hnext : a.block.height.val.toNat = c.height.val.toNat + 1 := (a.follows hexpected).1
    refine hbelow.mono fun n hn => ?_
    have hn' : n ≤ c.height.val.toNat := hn
    omega

theorem Db.Sound.expected_storable (hsound : db.Sound)
    (hcurrent : lockedCheckpoint db a.scope = .ok a.expectedCheckpoint) : ∀ c ∈ a.expectedCheckpoint, Storable c := by
  intro c hc
  rw [hc] at hcurrent
  exact (hsound.lockedCheckpoint_some hcurrent).2

theorem expected_ne_block (a : BlockAddition) : a.expectedCheckpoint ≠ some a.block := by
  intro h
  have hnext := (a.follows h).1
  omega

theorem Db.Sound.unjournalled (hsound : db.Sound)
    (hcurrent : lockedCheckpoint db a.scope = .ok a.expectedCheckpoint) :
    db.journal.filter (fun r => r.scope = a.scope ∧ r.block.height = (a.block.height.val.toNat : Int)) = [] := by
  refine List.filter_eq_nil_iff.mpr fun r hr hkey => ?_
  obtain ⟨hscope, hheight⟩ := of_decide_eq_true hkey
  have hlt := (hsound.under hcurrent).journal r hr hscope
  omega

theorem Db.Sound.history_fresh (hsound : db.Sound)
    (hcurrent : lockedCheckpoint db a.scope = .ok a.expectedCheckpoint) :
    ∀ r ∈ historyOf a.scope a, historySchema.key r ∉ db.history.map historySchema.key := by
  intro r hr hmem
  obtain ⟨r', hr', hkey⟩ := List.mem_map.mp hmem
  obtain ⟨hs, hh⟩ := height_historyOf hr
  simp only [historySchema, Prod.mk.injEq] at hkey
  have := (hsound.under hcurrent).history r' hr' (hkey.1.trans hs)
  omega

/-- A commit on the current checkpoint succeeds exactly if the database takes the addition. -/
theorem Db.Sound.writeBlock_ok (hsound : db.Sound)
    (hcurrent : lockedCheckpoint db a.scope = .ok a.expectedCheckpoint) {outcome : BlockOutcome} :
    writeBlock a.scope db a = .ok (outcome, db') ↔
      Accepted a ∧ CreatedNew db a ∧ outcome = .applied ∧ db' = applied db a := by
  have hscope : checkScope a.scope a.scope = .ok () := if_pos rfl
  have hunder := hsound.under hcurrent
  have hprevious := hsound.expected_storable hcurrent
  have hhistory := hsound.history_fresh hcurrent
  have hmovement : ∀ r ∈ movementOf a.scope a, movementSchema.key r ∉ db.movement.map movementSchema.key := by
    intro r hr hmem
    obtain ⟨r', hr', hkey⟩ := List.mem_map.mp hmem
    obtain ⟨hs, hh⟩ := height_movementOf hr
    simp only [movementSchema, Prod.mk.injEq] at hkey
    have := hunder.movement r' hr' (hkey.1.trans hs)
    omega
  have hjournal : (a.scope, (a.block.height.val.toNat : Int)) ∉ db.journal.map journalSchema.key := by
    intro hmem
    obtain ⟨r, hr, hkey⟩ := List.mem_map.mp hmem
    simp only [journalSchema, Prod.mk.injEq] at hkey
    have := hunder.journal r hr hkey.1
    omega
  have hentry : journalEntry db a.scope a.block.height.val.toNat = .ok none :=
    queryOpt_ok.mpr (hsound.unjournalled hcurrent)
  have hall : ∀ {db'}, a.block.height.val.toNat < 2 ^ 63 →
      (writeAll db a.scope a.block.height.val.toNat a = .ok db' ↔
        Accepted a ∧ CreatedNew db a ∧ db' = applied db a) := by
    intro db' hfits
    unfold writeAll
    simp only [bind_ok, writeJournal_ok rfl hfits hprevious, writeCreated_ok rfl, writeSpent_ok, moveCheckpoint_ok]
    constructor
    · rintro ⟨_, ⟨hblock, -, rfl⟩, db₂, hdb₂, _, ⟨hindices, hnew, rfl⟩, _, ⟨hunspent, rfl⟩, -, rfl⟩
      obtain ⟨hfew, -, -, rfl⟩ := (writeHistory_ok rfl hblock).mp hdb₂
      exact ⟨⟨hblock, hfew, hindices, hunspent⟩, hnew, rfl⟩
    · rintro ⟨h, hnew, rfl⟩
      exact ⟨_, ⟨h.block, hjournal, rfl⟩, _, (writeHistory_ok rfl h.block).mpr ⟨h.movements, hhistory, hmovement, rfl⟩,
        _, ⟨h.indices, hnew, rfl⟩, _, ⟨h.unspent, rfl⟩, h.block, rfl⟩
  unfold writeBlock
  rw [hscope, hcurrent]
  simp only [bind_ok, asI64_ok, Except.ok.injEq]
  constructor
  · rintro ⟨_, -, _, rfl, _, ⟨hfits, rfl⟩, entry, hentry', h⟩
    rw [hentry] at hentry'
    cases hentry'
    rw [if_neg (expected_ne_block a), if_neg (by simp), if_neg (by simp)] at h
    obtain ⟨_, hwritten, heq⟩ := map_ok.mp h
    cases heq
    obtain ⟨haccepted, hnew, rfl⟩ := (hall hfits).mp hwritten
    exact ⟨haccepted, hnew, rfl, rfl⟩
  · rintro ⟨haccepted, hnew, rfl, rfl⟩
    refine ⟨(), trivial, _, rfl, _, ⟨haccepted.block.height, rfl⟩, none, hentry, ?_⟩
    rw [if_neg (expected_ne_block a), if_neg (by simp), if_neg (by simp)]
    exact map_ok.mpr ⟨_, (hall haccepted.block.height).mpr ⟨haccepted, hnew, rfl⟩, rfl⟩

theorem Db.Heights.applied {scope : IndexScope} {P : Int → Prop} (h : db.Heights scope P)
    (hnew : scope = a.scope → P a.block.height.val.toNat) : (applied db a).Heights scope P := by
  refine ⟨fun r hr hs => ?_, fun r hr hs => ?_, fun r hr hs => ?_, fun r hr hs => ?_⟩
  · rcases List.mem_append.mp hr with hold | hmine
    · exact h.history r hold hs
    · obtain ⟨hscope, hheight⟩ := height_historyOf hmine
      rw [hheight]
      exact hnew (hs.symm.trans hscope)
  · rcases List.mem_append.mp hr with hold | hmine
    · exact h.movement r hold hs
    · obtain ⟨hscope, hheight⟩ := height_movementOf hmine
      rw [hheight]
      exact hnew (hs.symm.trans hscope)
  · rcases List.mem_append.mp hr with hold | hmine
    · exact h.output r hold hs
    · obtain ⟨hscope, hheight⟩ := height_createdOf hmine
      rw [hheight]
      exact hnew (hs.symm.trans hscope)
  · rcases List.mem_append.mp hr with hold | hmine
    · exact h.journal r (mem_deleteWhere.mp hold).1 hs
    · obtain rfl := List.mem_singleton.mp hmine
      exact hnew hs.symm

theorem Db.Sound.applied (hsound : db.Sound) (hcurrent : lockedCheckpoint db a.scope = .ok a.expectedCheckpoint)
    (hblock : Storable a.block) : (applied db a).Sound where
  keys := keys_replaceRow hsound.keys
  stored r hr := by
    rcases mem_replaceRow.mp hr with rfl | ⟨hold, -⟩
    · exact ⟨a.block, hblock, rfl⟩
    · exact hsound.stored r hold
  empty scope hnone := by
    have hne : scope ≠ a.scope := by
      rintro rfl
      exact hnone (List.mem_map.mpr ⟨_, mem_replaceRow.mpr (.inl rfl), rfl⟩)
    have hold : scope ∉ db.checkpoint.map checkpointSchema.key := by
      intro hmem
      obtain ⟨r, hr, rfl⟩ := List.mem_map.mp hmem
      exact hnone (List.mem_map.mpr ⟨r, mem_replaceRow.mpr (.inr ⟨hr, hne⟩), rfl⟩)
    exact (hsound.empty scope hold).applied fun h => absurd h hne
  below r hr := by
    rcases mem_replaceRow.mp hr with rfl | ⟨hold, hne⟩
    · refine ((hsound.under hcurrent).mono fun n hn => ?_).applied fun _ => Int.le_refl _
      exact Int.le_of_lt hn
    · exact (hsound.below r hold).applied fun h => absurd h hne
  first j hj hprevious := by
    have hunder := hsound.under hcurrent
    rcases List.mem_append.mp hj with hold | hmine
    · have hmem := (mem_deleteWhere.mp hold).1
      refine (hsound.first j hmem hprevious).applied fun hscope => ?_
      exact Int.le_of_lt (hunder.journal j hmem hscope)
    · obtain rfl := List.mem_singleton.mp hmine
      rw [Option.map_eq_none_iff.mp hprevious] at hcurrent
      exact ((hsound.empty a.scope (lockedCheckpoint_none hcurrent)).mono fun _ h => h.elim).applied
        fun _ => Int.le_refl _
  linked j hj c hc := by
    rcases List.mem_append.mp hj with hold | hmine
    · exact hsound.linked j (mem_deleteWhere.mp hold).1 c hc
    · obtain rfl := List.mem_singleton.mp hmine
      obtain ⟨b, hb, rfl⟩ := Option.map_eq_some_iff.mp hc
      refine ⟨?_, b, hsound.expected_storable hcurrent b hb, rfl⟩
      have hnext : a.block.height.val.toNat = b.height.val.toNat + 1 := (a.follows hb).1
      change (b.height.val.toNat : Int) + 1 = a.block.height.val.toNat
      omega
  unspent := by
    change deleteWhere _ db.journalOutput = []
    rw [hsound.unspent]
    rfl

end Commit

/-! ## Rollbacks -/

/-- Everything at the height is gone, and the checkpoint is the previous one. -/
def reverted (db : Db) (scope : IndexScope) (height : Int) (previous : Option BlockRef) : Db where
  checkpoint := match previous with
    | some b => replaceRow checkpointSchema db.checkpoint ⟨scope, columns b⟩
    | none => deleteWhere (·.scope = scope) db.checkpoint
  history := deleteWhere (fun r => r.scope = scope && r.block.height = height) db.history
  movement := deleteWhere (fun r => r.scope = scope && r.height = height) db.movement
  output := deleteWhere (fun r => r.scope = scope && r.createdAt = height) db.output
  journal := deleteWhere (fun r => r.scope = scope ∧ r.block.height = height) db.journal
  journalOutput := []

section Rollback

variable {db db' : Db} {scope : IndexScope} {tip : BlockRef} {previous : Option BlockRef}

theorem Db.Sound.previous_ok (hsound : db.Sound) {entry : JournalRow} (hentry : entry ∈ db.journal) :
    entry.previous.mapM (·.block) = .ok previous ↔ entry.previous = previous.map columns := by
  cases hprevious : entry.previous with
  | none => simp [pure, Except.pure, eq_comm]
  | some c =>
    obtain ⟨-, b, -, rfl⟩ := hsound.linked entry hentry c hprevious
    simp only [Option.mapM_some, map_ok, block_columns, Except.ok.injEq, exists_eq_left']
    constructor
    · rintro rfl
      rfl
    · intro h
      obtain ⟨b', rfl, hb'⟩ := Option.map_eq_some_iff.mp h.symm
      rw [columns_inj hb']

theorem Db.Sound.previous_storable (hsound : db.Sound) {entry : JournalRow} (hentry : entry ∈ db.journal)
    (h : entry.previous = previous.map columns) : ∀ b ∈ previous, Storable b := by
  intro b hb
  rw [hb] at h
  obtain ⟨-, b', hb', hcolumns⟩ := hsound.linked entry hentry _ h
  rwa [columns_inj hcolumns]

theorem Db.Sound.revert_ok (hsound : db.Sound) {height : Int} : revert db scope height = .ok db' ↔
    db' = { db with
      history := deleteWhere (fun r => r.scope = scope && r.block.height = height) db.history
      movement := deleteWhere (fun r => r.scope = scope && r.height = height) db.movement
      output := deleteWhere (fun r => r.scope = scope && r.createdAt = height) db.output } := by
  unfold revert
  rw [hsound.unspent]
  simp only [List.filter_nil, List.map_nil, bind_ok, execute_ok, insertRows_ok, pure_ok]
  simp

theorem restoreCheckpoint_ok (hstorable : ∀ b ∈ previous, Storable b) :
    restoreCheckpoint db scope previous = .ok db' ↔
      db' = { db with checkpoint := (reverted db scope 0 previous).checkpoint } := by
  cases previous with
  | none => simp [restoreCheckpoint, reverted, eq_comm]
  | some b =>
    rw [restoreCheckpoint, moveCheckpoint_ok]
    simp [hstorable b rfl, reverted]

theorem journalEntry_some {height : Int} {entry : JournalRow} (h : journalEntry db scope height = .ok (some entry)) :
    entry ∈ db.journal ∧ entry.scope = scope ∧ entry.block.height = height := by
  have hfound : entry ∈ db.journal.filter fun r => r.scope = scope ∧ r.block.height = height := by
    rw [queryOpt_ok.mp h]
    simp
  obtain ⟨hmem, hkey⟩ := List.mem_filter.mp hfound
  exact ⟨hmem, of_decide_eq_true hkey⟩

theorem Db.Sound.removeTip_ok (hsound : db.Sound) : removeTip scope db scope tip = .ok (previous, db') ↔
    lockedCheckpoint db scope = .ok (some tip) ∧ (∃ entry, journalEntry db scope tip.height.val.toNat = .ok (some entry) ∧
      entry.block.hash = tip.hash ∧ entry.previous = previous.map columns) ∧
      db' = reverted db scope tip.height.val.toNat previous := by
  have hscope : checkScope scope scope = .ok () := if_pos rfl
  -- No output is in the journal, so none goes with its row.
  have hleft : ∀ height, deleteJournal { db with
      checkpoint := (reverted db scope 0 previous).checkpoint
      history := (reverted db scope height previous).history
      movement := (reverted db scope height previous).movement
      output := (reverted db scope height previous).output }
      (fun r => r.scope = scope ∧ r.block.height = height) = reverted db scope height previous := by
    intro height
    unfold deleteJournal
    rw [hsound.unspent]
    rfl
  unfold removeTip
  rw [hscope]
  simp only [bind_ok]
  constructor
  · rintro ⟨_, -, current, hcurrent, h⟩
    split at h
    · cases h
    · rename_i heq
      rw [not_not] at heq
      subst heq
      obtain ⟨_, hheight, h⟩ := bind_ok.mp h
      obtain ⟨-, rfl⟩ := asI64_ok.mp hheight
      obtain ⟨found, hentry, h⟩ := bind_ok.mp h
      cases found with
      | none => cases h
      | some entry =>
        simp only at h
        split at h
        · cases h
        · rename_i hhash
          obtain ⟨_, hrevert, h⟩ := bind_ok.mp h
          obtain ⟨previous', hprevious, h⟩ := bind_ok.mp h
          obtain ⟨_, hrestore, h⟩ := bind_ok.mp h
          cases pure_ok.mp h
          have hcolumns := (hsound.previous_ok (journalEntry_some hentry).1).mp hprevious
          have hstorable := hsound.previous_storable (journalEntry_some hentry).1 hcolumns
          obtain rfl := hsound.revert_ok.mp hrevert
          obtain rfl := (restoreCheckpoint_ok hstorable).mp hrestore
          exact ⟨hcurrent, ⟨entry, hentry, not_not.mp hhash, hcolumns⟩, hleft _⟩
  · rintro ⟨hcurrent, ⟨entry, hentry, hhash, hprevious⟩, rfl⟩
    have hmem := (journalEntry_some hentry).1
    refine ⟨(), trivial, _, hcurrent, ?_⟩
    rw [if_neg (by simp)]
    refine bind_ok.mpr ⟨_, asI64_ok.mpr ⟨(hsound.lockedCheckpoint_some hcurrent).2.height, rfl⟩, ?_⟩
    refine bind_ok.mpr ⟨_, hentry, ?_⟩
    simp only
    rw [if_neg (by simp [hhash])]
    refine bind_ok.mpr ⟨_, hsound.revert_ok.mpr rfl, bind_ok.mpr ⟨_, (hsound.previous_ok hmem).mpr hprevious, ?_⟩⟩
    refine bind_ok.mpr ⟨_, (restoreCheckpoint_ok (hsound.previous_storable hmem hprevious)).mpr rfl, pure_ok.mpr ?_⟩
    exact congrArg (Prod.mk previous) (hleft _).symm

theorem Db.Heights.reverted {scope' : IndexScope} {height : Int} {P : Int → Prop} (h : db.Heights scope' P) :
    (reverted db scope height previous).Heights scope' fun n => P n ∧ (scope' = scope → n ≠ height) := by
  refine ⟨fun r hr hs => ?_, fun r hr hs => ?_, fun r hr hs => ?_, fun r hr hs => ?_⟩
  · obtain ⟨hmem, hnot⟩ := mem_deleteWhere.mp hr
    refine ⟨h.history r hmem hs, fun hscope hheight => ?_⟩
    simp [hs, hscope, hheight] at hnot
  · obtain ⟨hmem, hnot⟩ := mem_deleteWhere.mp hr
    refine ⟨h.movement r hmem hs, fun hscope hheight => ?_⟩
    simp [hs, hscope, hheight] at hnot
  · obtain ⟨hmem, hnot⟩ := mem_deleteWhere.mp hr
    refine ⟨h.output r hmem hs, fun hscope hheight => ?_⟩
    simp [hs, hscope, hheight] at hnot
  · obtain ⟨hmem, hnot⟩ := mem_deleteWhere.mp hr
    refine ⟨h.journal r hmem hs, fun hscope hheight => ?_⟩
    simp [hs, hscope, hheight] at hnot

theorem mem_reverted_checkpoint {height : Int} {r : CheckpointRow} :
    r ∈ (reverted db scope height previous).checkpoint ↔
      (∃ b ∈ previous, r = ⟨scope, columns b⟩) ∨ r ∈ db.checkpoint ∧ r.scope ≠ scope := by
  cases previous with
  | none =>
    change r ∈ deleteWhere _ _ ↔ _
    simp [mem_deleteWhere]
  | some b =>
    change r ∈ replaceRow _ _ _ ↔ _
    rw [mem_replaceRow]
    simp [checkpointSchema]

theorem Db.Sound.reverted (hsound : db.Sound) (hcurrent : lockedCheckpoint db scope = .ok (some tip))
    {entry : JournalRow} (hentry : journalEntry db scope tip.height.val.toNat = .ok (some entry))
    (hprevious : entry.previous = previous.map columns) :
    (reverted db scope tip.height.val.toNat previous).Sound := by
  obtain ⟨hmem, hscope, hheight⟩ := journalEntry_some hentry
  have hbelow : db.Heights scope (· ≤ tip.height.val.toNat) :=
    hsound.below _ (hsound.lockedCheckpoint_some hcurrent).1
  -- Without the tip, all rows of the scope are at most as high as the previous block.
  have hunder : (Postgres.reverted db scope tip.height.val.toNat previous).Heights scope
      fun n => ∃ b ∈ previous, n ≤ (columns b).height := by
    cases hcase : previous with
    | none =>
      have hfirst := hsound.first entry hmem (by rw [hprevious, hcase]; rfl)
      rw [hscope, hheight] at hfirst
      have hboth : db.Heights scope fun n => n = tip.height.val.toNat :=
        ⟨fun r hr hs => Int.le_antisymm (hbelow.history r hr hs) (hfirst.history r hr hs),
          fun r hr hs => Int.le_antisymm (hbelow.movement r hr hs) (hfirst.movement r hr hs),
          fun r hr hs => Int.le_antisymm (hbelow.output r hr hs) (hfirst.output r hr hs),
          fun r hr hs => Int.le_antisymm (hbelow.journal r hr hs) (hfirst.journal r hr hs)⟩
      exact hboth.reverted.mono fun n hn => absurd hn.1 (hn.2 rfl)
    | some b =>
      have hlinked := (hsound.linked entry hmem (columns b) (by rw [hprevious, hcase]; rfl)).1
      refine hbelow.reverted.mono fun n hn => ⟨b, rfl, ?_⟩
      have hne := hn.2 rfl
      have hle : n ≤ tip.height.val.toNat := hn.1
      omega
  refine ⟨?_, fun r hr => ?_, fun s hs => ?_, fun r hr => ?_, fun j hj hnone => ?_, fun j hj c hc => ?_, rfl⟩
  · cases previous with
    | none => exact hsound.keys.sublist (List.filter_sublist.map _)
    | some b => exact keys_replaceRow hsound.keys
  · rcases mem_reverted_checkpoint.mp hr with ⟨b, hb, rfl⟩ | ⟨hold, -⟩
    · exact ⟨b, hsound.previous_storable hmem hprevious b hb, rfl⟩
    · exact hsound.stored r hold
  · by_cases hsame : s = scope
    · subst hsame
      refine hunder.mono fun n ⟨b, hb, _⟩ => hs ?_
      exact List.mem_map.mpr ⟨_, mem_reverted_checkpoint.mpr (.inl ⟨b, hb, rfl⟩), rfl⟩
    · refine (hsound.empty s fun hold => hs ?_).reverted.mono fun _ h => h.1
      obtain ⟨r, hr, rfl⟩ := List.mem_map.mp hold
      exact List.mem_map.mpr ⟨r, mem_reverted_checkpoint.mpr (.inr ⟨hr, hsame⟩), rfl⟩
  · rcases mem_reverted_checkpoint.mp hr with ⟨b, hb, rfl⟩ | ⟨hold, -⟩
    · refine hunder.mono fun n ⟨b', hb', hn⟩ => ?_
      cases hb.symm.trans hb'
      exact hn
    · exact (hsound.below r hold).reverted.mono fun _ h => h.1
  · exact (hsound.first j (mem_deleteWhere.mp hj).1 hnone).reverted.mono fun _ h => h.1
  · exact hsound.linked j (mem_deleteWhere.mp hj).1 c hc

end Rollback

/-! ## Runs -/

section Runs

variable {db db' : Db} {repository scope : IndexScope} {a : BlockAddition} {outcome : BlockOutcome}

theorem checkScope_ok : checkScope repository scope = .ok () ↔ scope = repository := by
  by_cases h : scope = repository <;> simp [checkScope, h]

theorem writeBlock_current (h : writeBlock repository db a = .ok (outcome, db')) :
    a.scope = repository ∧ (outcome = .alreadyApplied ∧ db' = db ∨
      outcome = .applied ∧ lockedCheckpoint db repository = .ok a.expectedCheckpoint) := by
  unfold writeBlock at h
  obtain ⟨_, hscope, h⟩ := bind_ok.mp h
  obtain ⟨current, hcurrent, h⟩ := bind_ok.mp h
  obtain ⟨height, -, h⟩ := bind_ok.mp h
  obtain ⟨journalled, -, h⟩ := bind_ok.mp h
  refine ⟨checkScope_ok.mp hscope, ?_⟩
  split at h
  · split at h
    · cases h
      exact .inl ⟨rfl, rfl⟩
    · cases h
  · split at h
    · cases h
    · split at h
      · cases h
      · rename_i hexpected
        obtain ⟨_, -, heq⟩ := map_ok.mp h
        cases heq
        exact .inr ⟨rfl, by rw [hcurrent, not_not.mp hexpected]⟩

theorem removeTip_scope {tip : BlockRef} {previous : Option BlockRef}
    (h : removeTip repository db scope tip = .ok (previous, db')) : scope = repository := by
  unfold removeTip at h
  obtain ⟨_, hscope, -⟩ := bind_ok.mp h
  exact checkScope_ok.mp hscope

theorem Db.Sound.step (h : db.Sound) (op : Op) : (db.step op).Sound := by
  unfold Db.step
  cases hop : op.perform db with
  | error e => exact h
  | ok db' =>
    cases op with
    | write repository a =>
      obtain ⟨⟨outcome, _⟩, hwrite, rfl⟩ := map_ok.mp hop
      obtain ⟨rfl, hcase⟩ := writeBlock_current hwrite
      rcases hcase with ⟨-, rfl⟩ | ⟨-, hcurrent⟩
      · exact h
      · obtain ⟨haccepted, -, -, rfl⟩ := (h.writeBlock_ok hcurrent).mp hwrite
        exact h.applied hcurrent haccepted.block
    | remove repository scope tip =>
      obtain ⟨⟨previous, _⟩, hremove, rfl⟩ := map_ok.mp hop
      obtain rfl := removeTip_scope hremove
      obtain ⟨hcurrent, ⟨entry, hentry, -, hprevious⟩, rfl⟩ := h.removeTip_ok.mp hremove
      exact h.reverted hcurrent hentry hprevious

theorem sound_empty : Db.Sound {} := by
  refine ⟨by simp, by simp, fun scope _ => ⟨by simp, by simp, by simp, by simp⟩, by simp, by simp, by simp, rfl⟩

theorem sound_run (ops : List Op) : (Db.run ops).Sound := by
  have hsteps : ∀ {db : Db}, db.Sound → (ops.foldl Db.step db).Sound := by
    induction ops with
    | nil => exact id
    | cons op rest ih => exact fun h => ih (h.step op)
  exact hsteps sound_empty

end Runs

/-! ## Rollback after commit -/

/-- The key of a spend names the row. -/
def OutputNamed (a : BlockAddition) (o : OutputRow) : Bool :=
  a.outputs.spends.any fun k => o.scope = a.scope && o.address = k.address.value &&
    o.transactionId = k.output.transaction.value && o.outputIndex = k.output.index.toNat

/-- The spent outputs, and no others, have gone from the live set to the journal. -/
structure Moved (db : Db) (a : BlockAddition) (db' : Db) : Prop where
  output : db'.output.Perm (deleteWhere (OutputNamed a) db.output ++ createdOf a.scope a)
  journal : db'.journalOutput.Perm ((journalled db a.scope a).journalOutput ++
    (db.output.filter (OutputNamed a)).map fun o => ⟨a.block.height.val.toNat, o⟩)

/-- Each table has the same rows, in any order. -/
structure SameContents (db db' : Db) : Prop where
  checkpoint : db'.checkpoint.Perm db.checkpoint
  history : db'.history.Perm db.history
  movement : db'.movement.Perm db.movement
  output : db'.output.Perm db.output

/-- The addition is applied, its spends are moved, and removing its block undoes it. -/
def Inverts (db : Db) (a : BlockAddition) : Prop :=
  ∃ db', writeBlock a.scope db a = .ok (.applied, db') ∧ Moved db a db' ∧
    ∃ previous db'', removeTip a.scope db' a.scope a.block = .ok (previous, db'') ∧ SameContents db db''

theorem moved_applied {db : Db} {a : BlockAddition} (hunspent : a.outputs.spends = []) : Moved db a (applied db a) := by
  have hnamed : ∀ o, OutputNamed a o = false := fun o => by rw [OutputNamed, hunspent]; rfl
  have hkept : deleteWhere (OutputNamed a) db.output = db.output := by
    rw [deleteWhere, List.filter_eq_self]
    exact fun o _ => by rw [hnamed]; rfl
  have hnone : db.output.filter (OutputNamed a) = [] := List.filter_eq_nil_iff.mpr fun o _ => by simp [hnamed]
  refine ⟨?_, ?_⟩
  · rw [hkept]
    exact List.Perm.refl _
  · rw [hnone, List.map_nil, List.append_nil]
    exact List.Perm.refl _

theorem Db.Sound.reverted_applied {db : Db} {a : BlockAddition} (hsound : db.Sound)
    (hcurrent : lockedCheckpoint db a.scope = .ok a.expectedCheckpoint) :
    SameContents db (Postgres.reverted (Postgres.applied db a) a.scope a.block.height.val.toNat a.expectedCheckpoint) := by
  have hunder := hsound.under hcurrent
  refine ⟨?_, ?_, ?_, ?_⟩
  · change List.Perm (match a.expectedCheckpoint with
      | some b => replaceRow checkpointSchema (replaceRow checkpointSchema db.checkpoint ⟨a.scope, columns a.block⟩)
          ⟨a.scope, columns b⟩
      | none => deleteWhere (·.scope = a.scope)
          (replaceRow checkpointSchema db.checkpoint ⟨a.scope, columns a.block⟩)) db.checkpoint
    cases hexpected : a.expectedCheckpoint with
    | none =>
      rw [hexpected] at hcurrent
      have hnone := lockedCheckpoint_none hcurrent
      have hout : ∀ r ∈ db.checkpoint, r.scope ≠ a.scope := fun r hr hs =>
        hnone (List.mem_map.mpr ⟨r, hr, hs⟩)
      have hnew : replaceRow checkpointSchema db.checkpoint ⟨a.scope, columns a.block⟩ =
          db.checkpoint ++ [⟨a.scope, columns a.block⟩] := by
        rw [replaceRow, if_neg]
        rw [List.any_eq_true]
        rintro ⟨r, hr, hkey⟩
        exact hout r hr (of_decide_eq_true hkey)
      rw [hnew, deleteWhere_append (by simpa using hout) (by simp)]
    | some c =>
      rw [hexpected] at hcurrent
      have hback : replaceRow checkpointSchema (replaceRow checkpointSchema db.checkpoint ⟨a.scope, columns a.block⟩)
          ⟨a.scope, columns c⟩ = db.checkpoint :=
        replaceRow_back hsound.keys (hsound.lockedCheckpoint_some hcurrent).1 rfl
      simp only
      rw [hback]
  · refine List.Perm.of_eq (deleteWhere_append (fun r hr => ?_) fun r hr => ?_)
    · by_cases hs : r.scope = a.scope
      · have := hunder.history r hr hs
        have hne : r.block.height ≠ a.block.height.val.toNat := by omega
        simp [hne]
      · simp [hs]
    · obtain ⟨hs, hh⟩ := height_historyOf hr
      simp [hs, hh]
  · refine List.Perm.of_eq (deleteWhere_append (fun r hr => ?_) fun r hr => ?_)
    · by_cases hs : r.scope = a.scope
      · have := hunder.movement r hr hs
        have hne : r.height ≠ a.block.height.val.toNat := by omega
        simp [hne]
      · simp [hs]
    · obtain ⟨hs, hh⟩ := height_movementOf hr
      simp [hs, hh]
  · refine List.Perm.of_eq (deleteWhere_append (fun r hr => ?_) fun r hr => ?_)
    · by_cases hs : r.scope = a.scope
      · have := hunder.output r hr hs
        have hne : r.createdAt ≠ a.block.height.val.toNat := by omega
        simp [hne]
      · simp [hs]
    · obtain ⟨hs, hh⟩ := height_createdOf hr
      simp [hs, hh]

theorem Db.Sound.removeTip_applied {db : Db} {a : BlockAddition} (hsound : db.Sound)
    (hcurrent : lockedCheckpoint db a.scope = .ok a.expectedCheckpoint) (hblock : Storable a.block) :
    removeTip a.scope (Postgres.applied db a) a.scope a.block =
      .ok (a.expectedCheckpoint, Postgres.reverted (Postgres.applied db a) a.scope a.block.height.val.toNat
        a.expectedCheckpoint) := by
  have happlied := hsound.applied hcurrent hblock
  refine happlied.removeTip_ok.mpr ⟨?_, ⟨⟨a.scope, columns a.block, a.expectedCheckpoint.map columns⟩, ?_, rfl, rfl⟩,
    rfl⟩
  · exact lockedCheckpoint_of_mem happlied.keys (mem_replaceRow.mpr (.inl rfl))
  · refine queryOpt_ok.mpr ?_
    change List.filter _ (deleteWhere _ db.journal ++ [_]) = _
    rw [List.filter_append]
    have hold : (deleteWhere (fun r => decide (r.scope = a.scope ∧ r.block.height ≤ oldest a)) db.journal).filter
        (fun r => r.scope = a.scope ∧ r.block.height = (a.block.height.val.toNat : Int)) = [] := by
      refine List.filter_eq_nil_iff.mpr fun r hr hkey => ?_
      obtain ⟨hs, hh⟩ := of_decide_eq_true hkey
      have := (hsound.under hcurrent).journal r (mem_deleteWhere.mp hr).1 hs
      omega
    rw [hold]
    simp [columns]

/-- In every state that calls lead to, an addition on the current checkpoint whose outputs are new
is applied and undone exactly if it fits and spends nothing. All texts are taken to be free of
U+0000, which no text column stores. -/
theorem rollback_inverts_commit_iff (ops : List Op) (a : BlockAddition)
    (hcurrent : lockedCheckpoint (Db.run ops) a.scope = .ok a.expectedCheckpoint) (hnew : CreatedNew (Db.run ops) a) :
    Inverts (Db.run ops) a ↔
      Storable a.block ∧ FewMovements a ∧ SmallIndices a ∧ a.outputs.spent = [] ∧ a.outputs.trackedSpends = [] := by
  have hsound := sound_run ops
  have hspends : a.outputs.spends = [] ↔ a.outputs.spent = [] ∧ a.outputs.trackedSpends = [] :=
    List.append_eq_nil_iff
  constructor
  · rintro ⟨db', hwrite, -⟩
    obtain ⟨h, -⟩ := (hsound.writeBlock_ok hcurrent).mp hwrite
    exact ⟨h.block, h.movements, h.indices, hspends.mp h.unspent⟩
  · rintro ⟨hblock, hmovements, hindices, hunspent⟩
    have haccepted : Accepted a := ⟨hblock, hmovements, hindices, hspends.mpr hunspent⟩
    exact ⟨_, (hsound.writeBlock_ok hcurrent).mpr ⟨haccepted, hnew, rfl, rfl⟩, moved_applied haccepted.unspent, _, _,
      hsound.removeTip_applied hcurrent hblock, hsound.reverted_applied hcurrent⟩

/-! ## A block that spends -/

def sampleScope : IndexScope := ⟨⟨.lit "bitcoin" (Eq.refl true)⟩, .lit "main" (Eq.refl true)⟩

def sampleGenesis : BlockRef := ⟨⟨0⟩, ⟨0⟩, ⟨[1]⟩, none, none⟩

def sampleNext : BlockRef := ⟨⟨1⟩, ⟨1⟩, ⟨[2]⟩, some ⟨⟨0⟩, ⟨[1]⟩⟩, none⟩

def sampleOutput : IndexedOutput where
  id := ⟨⟨sampleScope, .lit "coinbase" (Eq.refl true)⟩, 0⟩
  address := ⟨sampleScope, .lit "owner" (Eq.refl true)⟩
  asset := ⟨sampleScope.chain, .lit "coin" (Eq.refl true)⟩
  amount := Decimal.normalize 50 0 Decimal.zero_lt_scale
  evidence := []
  createdAt := ⟨0⟩
  coinbase := true

/-- The first block creates an output. -/
def sampleCreate : BlockAddition where
  scope := sampleScope
  expectedCheckpoint := none
  retention := 6
  block := sampleGenesis
  transactions := []
  outputs := { created := [sampleOutput] }
  valid :=
    { retention_pos := by decide
      connects := by simp
      canonical := by simp
      ids := by simp
      changes :=
        { created := by
            intro o ho
            obtain rfl := List.mem_singleton.mp ho
            exact ⟨rfl, rfl, by decide, rfl⟩
          ids := by simp
          spends := by simp [OutputChanges.spends]
          disjoint := by simp [OutputChanges.spends]
          spends_nodup := by simp [OutputChanges.spends] } }

/-- The next one spends it. -/
def sampleSpend : BlockAddition where
  scope := sampleScope
  expectedCheckpoint := some sampleGenesis
  retention := 6
  block := sampleNext
  transactions := []
  outputs := { spent := [sampleOutput.key] }
  valid :=
    { retention_pos := by decide
      connects := by
        intro c hc
        obtain rfl := Option.mem_some_iff.mp hc
        exact ⟨⟨1⟩, by decide, by decide⟩
      canonical := by simp
      ids := by simp
      changes :=
        { created := by simp
          ids := by simp
          spends := by
            intro k hk
            obtain rfl := List.mem_singleton.mp hk
            exact ⟨rfl, rfl⟩
          disjoint := by simp
          spends_nodup := by simp [OutputChanges.spends] } }

/-- The output is live, and the block that spends it is refused. -/
theorem sampleSpend_refused :
    lockedCheckpoint (Db.run [.write sampleScope sampleCreate]) sampleScope = .ok sampleSpend.expectedCheckpoint ∧
      CreatedNew (Db.run [.write sampleScope sampleCreate]) sampleSpend ∧
      (∀ r ∈ (Db.run [.write sampleScope sampleCreate]).journal, r.block.height ≠ 1) ∧
      (Db.run [.write sampleScope sampleCreate]).output.any (OutputNamed sampleSpend) = true ∧
      writeBlock sampleScope (Db.run [.write sampleScope sampleCreate]) sampleSpend =
        .error (storeError (.undefinedTable "output")) ∧
      ¬ Inverts (Db.run [.write sampleScope sampleCreate]) sampleSpend := by
  have hrefused : writeBlock sampleScope (Db.run [.write sampleScope sampleCreate]) sampleSpend =
      .error (storeError (.undefinedTable "output")) := by decide
  refine ⟨by decide, by simp [CreatedNew, createdOf, sampleSpend], by decide +kernel, by decide +kernel,
    hrefused, ?_⟩
  rintro ⟨db', hwrite, -⟩
  cases hrefused.symm.trans hwrite

/-- Without spends, a block is applied and undone. -/
theorem sampleCreate_inverts : Inverts (Db.run []) sampleCreate := by
  refine (rollback_inverts_commit_iff [] sampleCreate (by decide) (by simp [CreatedNew, Db.run])).mpr
    ⟨⟨by decide, by decide, by simp [sampleCreate, sampleGenesis], by simp [sampleCreate, sampleGenesis], rfl⟩, ?_, ?_,
      rfl, rfl⟩
  · simp [FewMovements, touched, sampleCreate]
  · intro o ho
    obtain rfl := List.mem_singleton.mp ho
    decide

end PaymentSdk.Postgres
