import PaymentSdk.Lib.Run
import PaymentSdk.Redb.Repository.Rollback
import PaymentSdk.Registration.Coherence

/-!
# Replacement blocks

A birthday is a position, fixed when the wallet is registered. A reorg can move the
checkpoint below it, and the replacement blocks there are interpreted without the wallet.
Above the birthday every block has it, but for one that began before the registration and
lands late.
-/

namespace PaymentSdk.Registration

open Admission Interaction

variable {I : Type} {scope : IndexScope} {w : World I}

/-- A block is begun only where the address of every returned registration has a birthday that
the block reaches, and an anchor only where nothing has returned. It lands late only where
nothing has returned since it began. -/
def ReachesBirthdays (w : World I) : Step I → Prop
  | .begin block anchor => ∀ r ∈ w.returned, anchor = false ∧ ∃ p ∈ w.sys.published,
      p.filter.address = r.filter.address ∧ p.filter.startPosition ≤ block.position
  | .execute i => ∀ revision ∈ w.applies i, ∀ r ∈ w.returned, r.revision ≤ revision
  | _ => True

instance (w : World I) : (e : Step I) → Decidable (ReachesBirthdays w e)
  | .begin block anchor => inferInstanceAs (Decidable (∀ r ∈ w.returned, anchor = false ∧
      ∃ p ∈ w.sys.published, p.filter.address = r.filter.address ∧ p.filter.startPosition ≤ block.position))
  | .execute i => Option.decidableForallMem (w.applies i)
  | .readTip | .enterPlan | .capture | .finishPlan | .add | .complete | .beginRemoval | .remove
  | .persist | .completeRemoval | .abandon | .readCheckpoint | .publication _ | .wake _ | .cancel _
  | .insert .. | .forget _ | .completePublication _ | .dropPublication _ => .isTrue trivial

/-- The registration's address is selected for the block. -/
def Has (r : Published I) (_ : BlockRef) (addresses : List CanonicalAddress) : Prop :=
  r.filter.address ∈ addresses

/-- Every block that lands has the address of every registration that had returned. -/
structure Replaced (scope : IndexScope) (w : World I) : Prop where
  coherent : Coherent scope w
  chosen : Chosen Has w
  owed : Owed Has w
  logged : ∀ l ∈ w.log, ∀ r ∈ l.returned, r.filter.address ∈ l.addresses

variable [DecidableEq I]

theorem replaced_step (h : Replaced scope w) {e : Step I} (he : ReachesBirthdays w e) :
    Replaced scope (w.step scope e) := by
  refine ⟨coherent_step h.coherent e, chosen_step h.coherent h.chosen e ?_,
    owed_step h.coherent h.chosen h.owed e, ?_⟩
  · rintro block anchor i checkpoint plan out rfl hpass hi hbegin r hr
    obtain ⟨rfl, p, hp, haddress, hstart⟩ := he r hr
    rw [Has, ← haddress]
    exact selects_published h.coherent hi hbegin hp hstart
  · rcases step_log scope w e with ⟨hlog, -⟩ | ⟨checkpoint, block, addresses, late, hlands, -, -, hlog⟩
    · rw [hlog]
      exact h.logged
    · rw [hlog]
      intro l hl r hr
      rcases List.mem_cons.mp hl with rfl | hl
      · refine owes_landed h.chosen h.owed hlands ?_ r hr
        rintro i revision rfl happlies
        exact he revision happlies
      · exact h.logged l hl r hr

/-- In every run in which no block is begun below a birthday that it owes, with any reorgs and
any registrations, every block committed after a registration has returned is interpreted with
its address. -/
theorem committed_after_return_selected (scope : IndexScope) (values : List (I × AddressFilter))
    (past : Past) (steps : List (Step I))
    (h : Along (World.step scope) ReachesBirthdays (World.initial scope values past) steps) :
    ∀ l ∈ (World.run scope values past steps).log, ∀ r ∈ l.returned,
      r.filter.address ∈ l.addresses := by
  refine (along_invariant h (fun w e _ he hw => replaced_step hw he) ?_).logged
  refine ⟨coherent_initial scope values past, ?_, ?_, ?_⟩
  · rintro i checkpoint block addresses ⟨⟩
  · rintro checkpoint block addresses revision ⟨⟩
  · intro l hl r hr
    obtain ⟨b, -, rfl⟩ := List.mem_map.mp hl
    cases hr

/-! A wallet is registered on genesis, so from position one on. Then block one comes and is
replaced. -/

def sampleFork : BlockRef := ⟨⟨1⟩, ⟨1⟩, ⟨[9]⟩, some ⟨⟨0⟩, ⟨[0]⟩⟩, none⟩

def register : List (Step Nat) :=
  [.readCheckpoint, .publication 0, .insert 0 7 Redb.sampleAddress.value, .completePublication 0]

def plan : List (Step Nat) := [.readTip, .enterPlan, .capture, .finishPlan]

def commit (block : BlockRef) : List (Step Nat) := [.begin block false, .add, .complete]

def removal : List (Step Nat) := [.beginRemoval, .remove, .persist, .completeRemoval]

def onGenesis : Past := ⟨[(Redb.sampleGenesis, [])], by simp⟩

theorem committed_after_return_selected_fork :
    let steps := register ++ plan ++ commit Redb.sampleNext ++ removal ++ commit sampleFork
    Along (World.step Redb.sampleScope) ReachesBirthdays
        (World.initial Redb.sampleScope [] onGenesis) steps ∧
      ((World.run Redb.sampleScope [] onGenesis steps).log.map fun l => (l.block, l.returned.length)) =
        [(sampleFork, 1), (Redb.sampleNext, 1), (Redb.sampleGenesis, 0)] ∧
      ∀ l ∈ (World.run Redb.sampleScope [] onGenesis steps).log, ∀ r ∈ l.returned,
        r.filter.address ∈ l.addresses := by
  intro steps
  have h : Along (World.step Redb.sampleScope) ReachesBirthdays
      (World.initial Redb.sampleScope [] onGenesis) steps := by decide
  exact ⟨h, by decide, committed_after_return_selected _ _ _ _ h⟩

def onNext : Past := ⟨[(Redb.sampleNext, []), (Redb.sampleGenesis, [])], by decide⟩

/-- The wallet is registered on block one, which is replaced then: the replacement is committed
after the return, and without the wallet. -/
theorem replacement_below_birthday_missed :
    ∃ l ∈ (World.run Redb.sampleScope [] onNext
        (register ++ plan ++ removal ++ commit sampleFork)).log,
      l.block = sampleFork ∧ ∃ r ∈ l.returned, r.filter.address ∉ l.addresses := by
  decide

end PaymentSdk.Registration
