import PaymentSdk.Lib.Transaction
import PaymentSdk.Redb.Repository.Spec

/-!
# The writing calls are optimistic transactions

Both read the checkpoint first, require it unchanged, and write it. A record that a call
finds in an unanchored scope always becomes a version condition or an error.
-/

open Interaction KvStore

namespace PaymentSdk.Redb

/-- The keys of one scope's index. -/
def Area (scope : IndexScope) (k : Key) : Prop :=
  k = Keys.checkpoint scope ∨ (∃ h, k = Keys.journal scope h) ∨
    Keys.isHistory scope k = true ∨ Keys.isOutput scope k = true

variable {self scope : IndexScope} {m : Evidence} {α : Type} {quiet : α → Prop}

theorem area_checkpoint : Area scope (Keys.checkpoint scope) := Or.inl rfl

theorem area_journal (h : BlockHeight) : Area scope (Keys.journal scope h) := Or.inr (Or.inl ⟨h, rfl⟩)

theorem area_history {k : Key} (h : Keys.isHistory scope k = true) : Area scope k :=
  Or.inr (Or.inr (Or.inl h))

theorem area_output {k : Key} (h : Keys.isOutput scope k = true) : Area scope k :=
  Or.inr (Or.inr (Or.inr h))

/-- The batch shows the evidence about the scope's checkpoint. -/
abbrev Shows (scope : IndexScope) (m : Evidence) (b : WriteBatch Value) : Prop :=
  m.Shown (Keys.checkpoint scope) (Area scope) b

/-! ## Single calls -/

theorem reads_get {T : Type} [Record T] {k : Key}
    {post : Evidence → Except IndexError (Option (VersionedRecord T)) → Prop} (hk : Area scope k)
    (hnone : post m (.ok none))
    (hsome : ∀ r, post (m.after true) (.ok (some r)))
    (herror : ∀ m e, post m (.error e)) : Reads (Area scope) post m (get T k) := by
  refine ⟨hk, fun r => ?_⟩
  cases r with
  | none =>
    cases m <;> exact hnone
  | some e =>
    dsimp only
    cases decode T e.value with
    | ok r => exact hsome ⟨r, e.version⟩
    | error err => exact herror _ _

theorem guarded_get_bind {T : Type} [Record T] {k : Key}
    {f : Option (VersionedRecord T) → Call α} (hk : Area scope k)
    (hnone : Guarded (Keys.checkpoint scope) (Area scope) quiet m (f none))
    (hsome : ∀ r, Guarded (Keys.checkpoint scope) (Area scope) quiet (m.after true) (f (some r))) :
    Guarded (Keys.checkpoint scope) (Area scope) quiet m (get T k >>= f : Call α) := by
  apply guarded_except_bind
  exact reads_get hk hnone hsome fun _ _ => trivial

theorem optimistic_get_bind {T : Type} [Record T] {f : Option (VersionedRecord T) → Call α}
    (hf : ∀ m out, Shows scope m (expect {} (Keys.checkpoint scope) out) →
      Guarded (Keys.checkpoint scope) (Area scope) quiet m (f out)) :
    Optimistic (Keys.checkpoint scope) (Area scope) quiet (get T (Keys.checkpoint scope) >>= f : Call α) := by
  rw [Prog.except_bind_eq]
  refine ⟨rfl, hf .fresh none (List.mem_singleton.mpr rfl), fun e => ?_⟩
  dsimp only
  cases decode T e.value with
  | ok r => exact hf (.version e.version) (some ⟨r, e.version⟩) (List.mem_singleton.mpr rfl)
  | error err => rintro a ⟨⟩

theorem reads_lift {T : Type} {r : Except IndexError T} {post : Evidence → Except IndexError T → Prop}
    (h : post m r) : Reads (Area scope) post m (ExceptT.mk (.done r) : Call T) := h

theorem guarded_commit {b : WriteBatch Value} {a : α} (h : Shows scope m b)
    (hops : ∃ op ∈ b.operations, op.key = Keys.checkpoint scope) :
    Guarded (Keys.checkpoint scope) (Area scope) quiet m (do commit b; pure a : Call α) := by
  rw [Prog.except_bind_eq]
  exact ⟨h, hops, fun v => ⟨a, rfl⟩, fun e => ⟨storageError e, rfl⟩⟩

/-! ## Loops -/

theorem conditions_expect_subset {T : Type} (b : WriteBatch Value) (k : Key)
    (r : Option (VersionedRecord T)) : b.conditions ⊆ (expect b k r).conditions :=
  List.subset_append_left _ _

theorem version_mem_expect {T : Type} (b : WriteBatch Value) (k : Key) (r : VersionedRecord T) :
    .version k r.version ∈ (expect b k (some r)).conditions :=
  List.mem_append_right _ (List.mem_singleton.mpr rfl)

theorem reads_addMissing {T : Type} [Record T] {message : String} {k : Key} {value : T}
    {acc : WriteBatch Value × List Key} (hk : Area scope k) (h : Shows scope m acc.1) :
    Reads (Area scope) (fun m r => ∀ acc', r = .ok acc' → Shows scope m acc'.1) m
      (addMissing message k value acc) := by
  apply reads_except_bind
  refine reads_get hk ?_ ?_ fun m e => ?_
  · rintro acc' rfl'
    cases rfl'
    exact shown_mono h (conditions_expect_subset _ _ _)
  · rintro r acc' hr
    cases hr
  · rintro acc' hr
    cases hr

theorem reads_addSpend {acc : WriteBatch Value × List RestoredOutput} {x : OutputKey × Bool}
    (h : Shows scope m acc.1) :
    Reads (Area scope) (fun m r => ∀ acc', r = .ok acc' → Shows scope m acc'.1) m
      (addSpend scope acc x) := by
  have hk : Area scope (Keys.output scope x.1) := area_output (Keys.isOutput_output _ _)
  apply reads_except_bind
  refine reads_get hk ?_ ?_ fun m e => ?_
  · dsimp only
    split
    · rintro acc' hr
      cases hr
    · rintro acc' hr
      cases hr
      exact h
  · rintro r acc' hr
    cases hr
    exact shown_found h (conditions_expect_subset _ _ _) hk (version_mem_expect _ _ r)
  · rintro acc' hr
    cases hr

theorem reads_removeHistory {b : WriteBatch Value} {k : Key} (h : Shows scope m b) :
    Reads (Area scope) (fun m r => ∀ b', r = .ok b' → Shows scope m b') m (removeHistory scope b k) := by
  unfold removeHistory
  split
  · rintro b' hr
    cases hr
  · rename_i hkey
    have hk : Area scope k := area_history (by simpa using hkey)
    apply reads_except_bind
    refine reads_get hk ?_ ?_ fun m e => ?_
    · rintro b' hr
      cases hr
    · intro r
      apply reads_except_bind
      apply reads_lift
      split
      · rintro b' hr
        cases hr
        exact shown_found h (conditions_expect_subset _ _ _) hk (version_mem_expect _ _ r)
      · rintro b' hr
        cases hr
    · rintro b' hr
      cases hr

theorem reads_removeOutput {b : WriteBatch Value} {k : Key} (h : Shows scope m b) :
    Reads (Area scope) (fun m r => ∀ b', r = .ok b' → Shows scope m b') m (removeOutput scope b k) := by
  unfold removeOutput
  split
  · rintro b' hr
    cases hr
  · rename_i hkey
    have hk : Area scope k := area_output (by simpa using hkey)
    apply reads_except_bind
    refine reads_get hk ?_ ?_ fun m e => ?_
    · rintro b' hr
      cases hr
    · intro r
      apply reads_except_bind
      apply reads_lift
      split
      · split
        · rintro b' hr
          cases hr
        · rintro b' hr
          cases hr
          exact shown_found h (conditions_expect_subset _ _ _) hk (version_mem_expect _ _ r)
      · rintro b' hr
        cases hr
    · rintro b' hr
      cases hr

theorem reads_restoreOutput {b : WriteBatch Value} {x : RestoredOutput} (h : Shows scope m b) :
    Reads (Area scope) (fun m r => ∀ b', r = .ok b' → Shows scope m b') m (restoreOutput scope b x) := by
  unfold restoreOutput
  split
  · rintro b' hr
    cases hr
  · rename_i hkey
    have hk : Area scope x.key := area_output (by simpa using hkey)
    apply reads_except_bind
    apply reads_lift
    split
    · split
      · rintro b' hr
        cases hr
      · apply reads_except_bind
        refine reads_get hk ?_ ?_ fun m e => ?_
        · rintro b' hr
          cases hr
          exact shown_mono h (conditions_expect_subset _ _ _)
        · rintro r b' hr
          cases hr
        · rintro b' hr
          cases hr
    · rintro b' hr
      cases hr

theorem guarded_loop {ι β : Type} {step : β → ι → Call β} (batch : β → WriteBatch Value)
    (hstep : ∀ m b x, Shows scope m (batch b) →
      Reads (Area scope) (fun m r => ∀ b', r = .ok b' → Shows scope m (batch b')) m (step b x))
    {xs : List ι} {b : β} {f : β → Call α} (h : Shows scope m (batch b))
    (hf : ∀ m b, Shows scope m (batch b) →
      Guarded (Keys.checkpoint scope) (Area scope) quiet m (f b)) :
    Guarded (Keys.checkpoint scope) (Area scope) quiet m (xs.foldlM step b >>= f : Call α) := by
  apply guarded_except_bind
  apply reads_mono (reads_foldlM hstep xs h)
  rintro m (e | b') hb
  · exact trivial
  · exact hf m b' (hb b' rfl)

/-! ## Whole calls -/

theorem guarded_throw (e : IndexError) :
    Guarded (Keys.checkpoint scope) (Area scope) quiet m (throw e : Call α) := by
  rintro a ⟨⟩

theorem optimistic_throw (e : IndexError) :
    Optimistic (Keys.checkpoint scope) (Area scope) quiet (throw e : Call α) := by
  rintro a ⟨⟩

theorem guarded_writeFacts {a : BlockAddition} {b : WriteBatch Value} {quiet : BlockOutcome → Prop}
    (h : Shows scope m b) :
    Guarded (Keys.checkpoint scope) (Area scope) quiet m (writeFacts scope a b) := by
  refine guarded_loop Prod.fst (fun m acc p hacc => ?_) h fun m acc hacc => ?_
  · exact reads_addMissing (area_history (Keys.isHistory_history _ _ _ _)) hacc
  refine guarded_loop Prod.fst (fun m acc o hacc => ?_) hacc fun m acc hacc => ?_
  · exact reads_addMissing (area_output (Keys.isOutput_output _ _)) hacc
  refine guarded_loop Prod.fst (fun m acc x hacc => reads_addSpend hacc) hacc
    fun m acc hacc => ?_
  apply guarded_commit
  · exact shown_mono hacc (by unfold putJournal; cases agedOut a <;> exact fun _ hc => hc)
  · refine ⟨.put (Keys.checkpoint scope) (.block (BlockRecord.fromDomain a.block)), ?_, rfl⟩
    unfold putJournal
    cases agedOut a <;> simp [put, delete, Record.encode]

theorem optimistic_writeBlock (a : BlockAddition) :
    Optimistic (Keys.checkpoint self) (Area self) (· = .alreadyApplied) (writeBlock self a) := by
  unfold writeBlock checkScope
  split
  · refine optimistic_get_bind fun m checkpoint h => ?_
    refine guarded_get_bind (area_journal _) ?_ fun r => ?_
    · split_ifs
      · rintro o ⟨⟩
        rfl
      · exact guarded_throw _
      · exact guarded_throw _
      · exact guarded_throw _
      · exact guarded_writeFacts (shown_mono h (conditions_expect_subset _ _ _))
    · -- Another block is journalled at this height, so nothing is written.
      rw [Option.isSome_some, if_pos rfl]
      split_ifs
      · rintro o ⟨⟩
        rfl
      · exact guarded_throw _
      · exact guarded_throw _
  · exact optimistic_throw _

theorem guarded_takeBack {tip : BlockRef} {j : JournalRecord} {b : WriteBatch Value}
    {quiet : Option BlockRef → Prop} (h : Shows scope m b) :
    Guarded (Keys.checkpoint scope) (Area scope) quiet m (takeBack scope tip j b) := by
  refine guarded_loop id (fun m b k hb => reads_removeHistory hb) h fun m b hb => ?_
  refine guarded_loop id (fun m b k hb => reads_removeOutput hb) hb fun m b hb => ?_
  refine guarded_loop id (fun m b x hb => reads_restoreOutput hb) hb fun m b hb => ?_
  apply guarded_commit
  · exact shown_mono hb (by unfold dropJournal; cases j.previousCheckpoint <;> exact fun _ hc => hc)
  · unfold dropJournal
    cases j.previousCheckpoint with
    | none => exact ⟨.delete (Keys.checkpoint scope), by simp [delete], rfl⟩
    | some value =>
      exact ⟨.put (Keys.checkpoint scope) (.block value), by simp [put, delete, Record.encode], rfl⟩

theorem optimistic_removeTip (tip : BlockRef) :
    Optimistic (Keys.checkpoint self) (Area self) (fun _ => False) (removeTip self scope tip) := by
  unfold removeTip checkScope
  split
  · rename_i hscope
    subst hscope
    refine optimistic_get_bind fun m checkpoint h => ?_
    split
    · exact guarded_throw _
    · refine guarded_get_bind (area_journal _) (guarded_throw _) fun r => ?_
      dsimp only
      split
      · exact guarded_throw _
      · refine guarded_takeBack ?_
        exact shown_found h (conditions_expect_subset _ _ _) (area_journal _) (version_mem_expect _ _ r)
  · exact optimistic_throw _

theorem optimistic_program (c : BlockCall) :
    Optimistic (Keys.checkpoint self) (Area self) (· = .added .alreadyApplied) (c.program self) := by
  cases c with
  | add a => exact optimistic_map _ (fun o ho => by rw [ho]) (optimistic_writeBlock a)
  | remove scope tip => exact optimistic_map _ (fun o ho => ho.elim) (optimistic_removeTip tip)

end PaymentSdk.Redb
