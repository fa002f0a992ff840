import PaymentSdk.Redb.Repository.Rollback

/-!
# Concurrent writers

Any number of writing calls on one scope, their reads interleaved one by one. Several
reads carry no condition of their own: a tracked spend that finds nothing, and the
journal entry that ages out. The checkpoint's version covers them, because every commit
writes the checkpoint.
-/

open Interaction KvStore

namespace PaymentSdk.Redb

variable {size : Value → Bool} {scope : IndexScope}

/-- The store holds some branch. -/
def Consistent (size : Value → Bool) (scope : IndexScope) (s : Store Value) : Prop :=
  ∃ branch, Holds size scope branch s

theorem consistent_program {p : Prog (storeCalls Value) (Except IndexError BlockReply)}
    {calls : List BlockCall} (hp : p ∈ calls.map (BlockCall.program scope)) (s : Store Value)
    (h : Consistent size scope s) : Consistent size scope (p.run (serve size) s).2 := by
  obtain ⟨c, -, rfl⟩ := List.mem_map.mp hp
  obtain ⟨branch, hbranch⟩ := h
  exact ⟨_, holds_perform hbranch c⟩

theorem consistent_unanchored (s : Store Value) (h : Consistent size scope s)
    (hck : s.get (Keys.checkpoint scope) = none) : ∀ k, Area scope k → s.get k = none := by
  obtain ⟨branch, hbranch⟩ := h
  exact empty_of_unanchored hbranch hck

/-- The pool of these calls on a store, each before its first read. -/
def callPool (scope : IndexScope) (calls : List BlockCall) (s : Store Value) :
    Pool Value IndexError BlockReply :=
  Pool.start s (calls.map (BlockCall.program scope))

theorem callPool_poolInv {s₀ : Store Value} (h : Consistent size scope s₀) (calls : List BlockCall) :
    PoolInv size (Keys.checkpoint scope) (Area scope) (· = .added .alreadyApplied)
      (Consistent size scope) s₀ (calls.map (BlockCall.program scope)) (callPool scope calls s₀) := by
  apply poolInv_start
  · intro p hp
    obtain ⟨c, -, rfl⟩ := List.mem_map.mp hp
    exact optimistic_program c
  · exact h

/-- Writers are serializable, in every store `s` that earlier calls reach from an empty
scope. The calls that committed, run one after another in the order of their commits,
give the same replies and the same store. They are the calls that succeeded, each once,
apart from repeats of the stored tip. No step of a call that ends with an error changes
the store. -/
theorem concurrent_calls_serializable (size : Value → Bool) (scope : IndexScope) (s₀ : Store Value)
    (hempty : Empty scope s₀) (earlier calls : List BlockCall) (schedule : List Nat) :
    let s := (execute size scope earlier s₀).1
    let pool := (callPool scope calls s).exec size schedule
    serial size (pool.committed.filterMap fun i => calls[i]?.map (BlockCall.program scope)) s =
        (pool.committed.filterMap pool.result, pool.store) ∧
      pool.committed.Nodup ∧
      (∀ i ∈ pool.committed, ∃ reply, pool.result i = some (.ok reply)) ∧
      (∀ i reply, pool.result i = some (.ok reply) →
        i ∈ pool.committed ∨ reply = .added .alreadyApplied) ∧
      ∀ before i after e, schedule = before ++ i :: after → pool.result i = some (.error e) →
        ((callPool scope calls s).exec size (before ++ [i])).store =
          ((callPool scope calls s).exec size before).store := by
  intro s pool
  have hstart := callPool_poolInv ⟨_, (holds_execute size hempty earlier).1⟩ calls
  have hall := fun schedule => (exec_poolInv area_checkpoint consistent_unanchored
    (fun p hp => consistent_program hp) hstart schedule).1
  have hpool := hall schedule
  refine ⟨?_, hpool.once, hpool.ended, hpool.succeeded, ?_⟩
  · simpa only [List.getElem?_map] using hpool.serial
  · rintro before i after e rfl hfail
    have hsplit : pool = (((callPool scope calls s).exec size before).step size i).exec size after := by
      simp [pool, Pool.exec]
    have hnext : (callPool scope calls s).exec size (before ++ [i]) =
        ((callPool scope calls s).exec size before).step size i := by
      simp [Pool.exec]
    rw [hsplit] at hfail
    rw [hnext]
    exact failed_step_store area_checkpoint consistent_unanchored
      (fun p hp => consistent_program hp) (hall before) hfail

/-- Two first blocks for the same scope. -/
def sampleRace : List BlockCall :=
  [.add (sampleAnchor sampleGenesis), .add (sampleAnchor (sampleBlock 5 (some ⟨⟨4⟩, ⟨[4]⟩⟩)))]

/-- Both find the scope empty. The second commits first, and the first is refused. -/
theorem concurrent_calls_serializable_race :
    Empty sampleScope Store.empty ∧
      let size : Value → Bool := fun _ => true
      let s := (execute size sampleScope [] Store.empty).1
      let pool := (callPool sampleScope sampleRace s).exec size [0, 1, 0, 1, 1, 0]
      pool.committed = [1] ∧ pool.result 0 = some (.error (storageError .exists)) ∧
        serial size (pool.committed.filterMap fun i =>
          sampleRace[i]?.map (BlockCall.program sampleScope)) s =
            (pool.committed.filterMap pool.result, pool.store) :=
  ⟨empty_empty _, by decide, by decide,
    (concurrent_calls_serializable _ _ _ (empty_empty _) [] sampleRace [0, 1, 0, 1, 1, 0]).1⟩

end PaymentSdk.Redb
