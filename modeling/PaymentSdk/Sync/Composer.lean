import Mathlib.Data.List.Nodup
import Mathlib.Logic.Function.Basic
import PaymentSdk.Lib.Run
import PaymentSdk.Sync.Spec

/-!
# The composer and its loop

A composer holds the indexers of several chains and synchronizes them one after the other.
An indexer is any machine with its own state, and the state at a place is its indexer's
alone. What a pass meets outside (the chain's source, the moments of its reads) is `ε`, one
value for each place.
-/

open Interaction

namespace PaymentSdk.Sync

open Admission (SyncPlan)

/-! ## Selections -/

/-- A selection is read on demand, so what it holds depends on the instant of the read. The pass
of every indexer counts from instant 0, also after the pass of another. -/
structure FilterSource where
  filters : Nat → Except IndexError (List AddressFilter)
  plan : Nat → IndexScope → Option BlockRef → Except IndexError SyncPlan

def inScopes (scopes : List IndexScope) (filters : List AddressFilter) : List AddressFilter :=
  filters.filter fun f => decide (f.address.scope ∈ scopes)

/-- One indexer's view of the shared selection. -/
def FilterSource.scoped (selection : FilterSource) (scopes : List IndexScope) : FilterSource where
  filters := fun instant => (selection.filters instant).map (inScopes scopes)
  plan := fun instant scope checkpoint =>
    (selection.plan instant scope checkpoint).map fun plan =>
      { plan with filters := inScopes scopes plan.filters }

theorem inScopes_inScopes (scopes : List IndexScope) (filters : List AddressFilter) :
    inScopes scopes (inScopes scopes filters) = inScopes scopes filters := by
  simp [inScopes]

theorem FilterSource.scoped_scoped (selection : FilterSource) (scopes : List IndexScope) :
    (selection.scoped scopes).scoped scopes = selection.scoped scopes := by
  simp only [FilterSource.scoped, FilterSource.mk.injEq]
  constructor
  · funext instant
    cases selection.filters instant <;> simp [Except.map, inScopes_inScopes]
  · funext instant scope checkpoint
    cases selection.plan instant scope checkpoint <;> simp [Except.map, inScopes_inScopes]

/-! ## Indexers -/

variable {ε σ : Type}

/-- One child: its scopes, and its pass over the states that all children share. -/
structure Indexer (ε σ : Type) where
  scopes : List IndexScope
  checkpoint : σ → IndexScope → Except IndexError (Option BlockRef)
  sync : ε → FilterSource → σ → Except IndexError (List SyncStatus) × σ

/-- Routes the same indexing contract across independently implemented chains. -/
structure Composer (ε σ : Type) where
  indexers : List (Indexer ε σ)
  nonempty : indexers ≠ []
  unique : (indexers.flatMap (·.scopes)).Nodup

namespace Composer

def scopes (c : Composer ε σ) : List IndexScope := c.indexers.flatMap (·.scopes)

def new (indexers : List (Indexer ε σ)) : Except IndexError (Composer ε σ) :=
  if hn : indexers = [] then .error ⟨.invalidRequest, "at least one indexer is required", false⟩
  else if hu : (indexers.flatMap (·.scopes)).Nodup then .ok ⟨indexers, hn, hu⟩
  else .error ⟨.conflict, "indexers contain the same scope", false⟩

/-- The indexer of a scope and its place. -/
def indexer (c : Composer ε σ) (scope : IndexScope) : Except IndexError (Indexer ε σ × Nat) :=
  match c.indexers.zipIdx.find? fun x => decide (scope ∈ x.1.scopes) with
  | some x => .ok x
  | none => .error ⟨.scopeMismatch, "index scope is not configured", false⟩

/-- Every address once, in a scope that somebody indexes. -/
def validateFilters (c : Composer ε σ) : List CanonicalAddress → List AddressFilter →
    Except IndexError Unit
  | _, [] => .ok ()
  | addresses, f :: rest =>
    match c.indexer f.address.scope with
    | .error e => .error e
    | .ok _ =>
      if f.address.value.str.isEmpty ∨ f.address ∈ addresses then
        .error ⟨.invalidRequest, "address filters must be non-empty and unique", false⟩
      else c.validateFilters (f.address :: addresses) rest

def validateSelection (c : Composer ε σ) (selection : FilterSource) : Except IndexError Unit :=
  match selection.filters 0 with
  | .error e => .error e
  | .ok filters => c.validateFilters [] filters

def checkpoint (c : Composer ε σ) (states : Nat → σ) (scope : IndexScope) :
    Except IndexError (Option BlockRef) :=
  match c.indexer scope with
  | .ok (indexer, place) => indexer.checkpoint (states place) scope
  | .error e => .error e

end Composer

/-! ## A pass -/

/-- What a pass leaves: its result, every state, and the places whose indexer was invoked. -/
structure Swept (σ : Type) where
  result : Except IndexError (List SyncStatus)
  states : Nat → σ
  invoked : List Nat

/-- What the indexer at a place does on its own. -/
def Indexer.own (x : Indexer ε σ) (selection : FilterSource) (world : Nat → ε) (states : Nat → σ)
    (place : Nat) : Except IndexError (List SyncStatus) × σ :=
  x.sync (world place) (selection.scoped x.scopes) (states place)

/-- The loop of `sync`. The first error ends it. -/
def sweep (selection : FilterSource) (world : Nat → ε) : Nat → List (Indexer ε σ) → (Nat → σ) → Swept σ
  | _, [], states => ⟨.ok [], states, []⟩
  | place, x :: rest, states =>
    let mine := x.own selection world states place
    let states := Function.update states place mine.2
    match mine.1 with
    | .error e => ⟨.error e, states, [place]⟩
    | .ok statuses =>
      let others := sweep selection world (place + 1) rest states
      ⟨others.result.map (statuses ++ ·), others.states, place :: others.invoked⟩

def Composer.sync (c : Composer ε σ) (selection : FilterSource) (world : Nat → ε) (states : Nat → σ) :
    Swept σ :=
  match c.validateSelection selection with
  | .error e => ⟨.error e, states, []⟩
  | .ok () => sweep selection world 0 c.indexers states

/-! ## The loop that drives it -/

/-- What the loop publishes. -/
inductive SyncState where
  | catchingUp
  | ready
  | retrying (error : String)
  deriving DecidableEq

/-- The overall state, once every scope has reported exactly once. -/
def SyncState.fromStatuses (scopes : List IndexScope) (statuses : List SyncStatus) :
    Option SyncState :=
  let complete := scopes ≠ [] ∧ statuses.length = scopes.length ∧
    ∀ scope ∈ scopes, (statuses.filter fun s => decide (s.scope = scope)).length = 1
  if ¬ complete ∨ ∃ s ∈ statuses, s.phase = .ready ∧ s.checkpoint = none then none
  else if ∀ s ∈ statuses, s.phase = .ready then some .ready
  else some .catchingUp

/-- How `run` returns. -/
inductive TaskError where
  | inconsistent
  | failed (error : IndexError)
  deriving DecidableEq

/-- The loop between two turns. -/
structure Loop (σ : Type) where
  states : Nat → σ
  state : SyncState
  ended : Option TaskError

/-- What one pass of the loop meets. -/
structure Turn (ε : Type) where
  selection : FilterSource
  world : Nat → ε

/-- One pass of `run`. A shutdown only decides after how many passes the run is over. -/
def turn (c : Composer ε σ) (l : Loop σ) (t : Turn ε) : Loop σ :=
  if l.ended.isSome then l
  else
    let swept := c.sync t.selection t.world l.states
    match swept.result with
    | .ok statuses =>
      match SyncState.fromStatuses c.scopes statuses with
      | some next => ⟨swept.states, next, none⟩
      | none =>
        ⟨swept.states, .retrying "incomplete synchronization status", some .inconsistent⟩
    | .error e =>
      ⟨swept.states, .retrying e.message, if e.retryable then none else some (.failed e)⟩

/-! ## Which indexers a pass reaches -/

/-- The sync of the indexer at `place`, counted from `base`, succeeds on its own. -/
def OkAt (selection : FilterSource) (world : Nat → ε) (states : Nat → σ) (base : Nat)
    (xs : List (Indexer ε σ)) (place : Nat) : Prop :=
  ∃ x statuses, xs[place]? = some x ∧ (x.own selection world states (base + place)).1 = .ok statuses

variable {selection : FilterSource} {world : Nat → ε} {states : Nat → σ}

theorem own_update (x : Indexer ε σ) {place other : Nat} (h : other ≠ place) (mine : σ) :
    x.own selection world (Function.update states place mine) other =
      x.own selection world states other := by
  rw [Indexer.own, Function.update_of_ne h, Indexer.own]

theorem okAt_cons {x : Indexer ε σ} {xs : List (Indexer ε σ)} {base place : Nat} (mine : σ) :
    OkAt selection world (Function.update states base mine) (base + 1) xs place ↔
      OkAt selection world states base (x :: xs) (place + 1) := by
  have hne : base + 1 + place ≠ base := by omega
  have hplace : base + (place + 1) = base + 1 + place := by omega
  simp only [OkAt, own_update _ hne, List.getElem?_cons_succ, hplace]

theorem okAt_zero {x : Indexer ε σ} {xs : List (Indexer ε σ)} {base : Nat} :
    OkAt selection world states base (x :: xs) 0 ↔
      ∃ statuses, (x.own selection world states base).1 = .ok statuses := by
  simp [OkAt]

/-- An indexer is reached if and only if every one before it succeeds. -/
theorem mem_invoked {xs : List (Indexer ε σ)} {base place : Nat} :
    place ∈ (sweep selection world base xs states).invoked ↔
      ∃ k < xs.length, place = base + k ∧ ∀ m < k, OkAt selection world states base xs m := by
  induction xs generalizing base states with
  | nil => simp [sweep]
  | cons x rest ih =>
    rw [sweep]
    cases hmine : (x.own selection world states base).1 with
    | error e =>
      have hfails : ¬ OkAt selection world states base (x :: rest) 0 := by
        simp [okAt_zero, hmine]
      simp only [List.mem_singleton]
      constructor
      · rintro rfl
        exact ⟨0, by simp, rfl, by simp⟩
      · rintro ⟨k, -, rfl, hbefore⟩
        cases k with
        | zero => rfl
        | succ k => exact absurd (hbefore 0 (by omega)) hfails
    | ok statuses =>
      have hok : OkAt selection world states base (x :: rest) 0 := okAt_zero.mpr ⟨statuses, hmine⟩
      simp only [List.mem_cons, ih, okAt_cons (x := x)]
      constructor
      · rintro (rfl | ⟨k, hk, rfl, hbefore⟩)
        · exact ⟨0, by simp, rfl, by simp⟩
        · refine ⟨k + 1, by simpa using hk, by omega, ?_⟩
          intro m hm
          cases m with
          | zero => exact hok
          | succ m => exact hbefore m (by omega)
      · rintro ⟨k, hk, rfl, hbefore⟩
        cases k with
        | zero => exact .inl rfl
        | succ k =>
          exact .inr ⟨k, by simpa using hk, by omega, fun m hm => hbefore (m + 1) (by omega)⟩

theorem sweep_states_below {xs : List (Indexer ε σ)} {base place : Nat} (h : place < base) :
    (sweep selection world base xs states).states place = states place := by
  induction xs generalizing base states with
  | nil => rfl
  | cons x rest ih =>
    rw [sweep]
    cases (x.own selection world states base).1 with
    | error e => exact Function.update_of_ne (by omega) _ _
    | ok statuses => exact (ih (by omega)).trans (Function.update_of_ne (by omega) _ _)

/-- What the indexer at `k` leaves, where every one before it succeeds: its own state, and its
own error if it fails. -/
theorem sweep_at {xs : List (Indexer ε σ)} {base k : Nat} {x : Indexer ε σ} (hx : xs[k]? = some x)
    (hbefore : ∀ m < k, OkAt selection world states base xs m) :
    (sweep selection world base xs states).states (base + k) =
        (x.own selection world states (base + k)).2 ∧
      ∀ e, (x.own selection world states (base + k)).1 = .error e →
        (sweep selection world base xs states).result = .error e := by
  induction xs generalizing base states k with
  | nil => simp at hx
  | cons y rest ih =>
    rw [sweep]
    cases k with
    | zero =>
      obtain rfl : y = x := by simpa using hx
      simp only [Nat.add_zero]
      cases hmine : (y.own selection world states base).1 with
      | error e => simp
      | ok statuses => simp [sweep_states_below (Nat.lt_succ_self base)]
    | succ k =>
      obtain ⟨statuses, hmine⟩ := okAt_zero.mp (hbefore 0 (by omega))
      have hne : base + 1 + k ≠ base := by omega
      have hplace : base + (k + 1) = base + 1 + k := by omega
      have hbefore' : ∀ m < k, OkAt selection world
          (Function.update states base (y.own selection world states base).2) (base + 1) rest m :=
        fun m hm => (okAt_cons _).mpr (hbefore (m + 1) (by omega))
      obtain ⟨hstate, hresult⟩ := ih (by simpa using hx) hbefore'
      rw [own_update x hne] at hstate hresult
      simp only [hmine, hplace]
      refine ⟨hstate, fun e he => ?_⟩
      rw [hresult e he]
      rfl

namespace Composer

/-- The indexer at `place` succeeds on its own in this pass. -/
def Succeeds (c : Composer ε σ) (selection : FilterSource) (world : Nat → ε) (states : Nat → σ)
    (place : Nat) : Prop :=
  ∃ x statuses, c.indexers[place]? = some x ∧ (x.own selection world states place).1 = .ok statuses

theorem okAt_iff (c : Composer ε σ) {place : Nat} :
    OkAt selection world states 0 c.indexers place ↔ c.Succeeds selection world states place := by
  simp [OkAt, Succeeds]

theorem Succeeds.lt {c : Composer ε σ} {place : Nat} (h : c.Succeeds selection world states place) :
    place < c.indexers.length := by
  obtain ⟨x, -, hx, -⟩ := h
  exact (List.getElem?_eq_some_iff.mp hx).1

theorem mem_sync_invoked {c : Composer ε σ} (hvalid : c.validateSelection selection = .ok ())
    {place : Nat} : place ∈ (c.sync selection world states).invoked ↔
      place < c.indexers.length ∧ ∀ m < place, c.Succeeds selection world states m := by
  rw [sync, hvalid, mem_invoked]
  simp only [Nat.zero_add, okAt_iff]
  constructor
  · rintro ⟨k, hk, rfl, hbefore⟩
    exact ⟨hk, hbefore⟩
  · rintro ⟨hlt, hbefore⟩
    exact ⟨place, hlt, rfl, hbefore⟩

/-- Every indexer that would succeed is invoked, if and only if none of them stands after one
that fails. -/
theorem invoked_iff {c : Composer ε σ} (hvalid : c.validateSelection selection = .ok ()) :
    (∀ place, c.Succeeds selection world states place →
        place ∈ (c.sync selection world states).invoked) ↔
      ∀ place other, other < place → c.Succeeds selection world states place →
        c.Succeeds selection world states other := by
  constructor
  · intro h place other hlt hplace
    exact ((mem_sync_invoked hvalid).mp (h place hplace)).2 other hlt
  · intro h place hplace
    exact (mem_sync_invoked hvalid).mpr ⟨hplace.lt, fun m hm => h place m hm hplace⟩

/-! ## Composed alone -/

theorem indexer_ok_iff (c : Composer ε σ) {scope : IndexScope} :
    (∃ found, c.indexer scope = .ok found) ↔ scope ∈ c.scopes := by
  rw [indexer]
  cases hfind : c.indexers.zipIdx.find? (fun x => decide (scope ∈ x.1.scopes)) with
  | none =>
    have hnone := List.find?_eq_none.mp hfind
    simp only [scopes, List.mem_flatMap, reduceCtorEq, exists_false, false_iff, not_exists, not_and]
    intro x hx hscope
    obtain ⟨i, hi⟩ := List.mem_iff_getElem?.mp hx
    exact hnone (x, i) (List.mk_mem_zipIdx_iff_getElem?.mpr hi) (by simpa using hscope)
  | some found =>
    have hscope := List.find?_some hfind
    have hmem := List.mem_of_find?_eq_some hfind
    simp only [scopes, List.mem_flatMap, Except.ok.injEq, exists_eq', true_iff]
    obtain ⟨x, i⟩ := found
    exact ⟨x, List.mem_of_getElem? (List.mk_mem_zipIdx_iff_getElem?.mp hmem), by simpa using hscope⟩

theorem indexer_eq {c : Composer ε σ} {place : Nat} {x : Indexer ε σ}
    (hx : c.indexers[place]? = some x) {scope : IndexScope} (hscope : scope ∈ x.scopes) :
    c.indexer scope = .ok (x, place) := by
  have hmem : scope ∈ c.scopes :=
    List.mem_flatMap.mpr ⟨x, List.mem_of_getElem? hx, hscope⟩
  obtain ⟨⟨y, other⟩, hfound⟩ := (indexer_ok_iff c).mpr hmem
  rw [hfound]
  rw [indexer] at hfound
  split at hfound
  next found hfind =>
    cases hfound
    have hy : c.indexers[other]? = some y :=
      List.mk_mem_zipIdx_iff_getElem?.mp (List.mem_of_find?_eq_some hfind)
    have hyscope : scope ∈ y.scopes := by simpa using List.find?_some hfind
    obtain ⟨hi, rfl⟩ := List.getElem?_eq_some_iff.mp hx
    obtain ⟨hj, rfl⟩ := List.getElem?_eq_some_iff.mp hy
    have hdisjoint := List.pairwise_iff_getElem.mp (List.nodup_flatMap.mp c.unique).2
    rcases Nat.lt_trichotomy other place with hlt | rfl | hlt
    · exact absurd hscope (hdisjoint other place hj hi hlt hyscope)
    · rfl
    · exact absurd hyscope (hdisjoint place other hi hj hlt hscope)
  next => cases hfound

theorem validateFilters_ok_iff (c : Composer ε σ) {seen : List CanonicalAddress}
    {filters : List AddressFilter} : c.validateFilters seen filters = .ok () ↔
      (∀ f ∈ filters, f.address.scope ∈ c.scopes ∧ f.address.value.str.isEmpty = false ∧
        f.address ∉ seen) ∧ (filters.map (·.address)).Nodup := by
  induction filters generalizing seen with
  | nil => simp [validateFilters]
  | cons f rest ih =>
    rw [validateFilters]
    have hscope : (∃ found, c.indexer f.address.scope = .ok found) ↔ f.address.scope ∈ c.scopes :=
      indexer_ok_iff c
    cases hfound : c.indexer f.address.scope with
    | error e =>
      have hout : f.address.scope ∉ c.scopes := by
        rw [← hscope, hfound]
        simp
      simp [hout]
    | ok found =>
      have hin : f.address.scope ∈ c.scopes := hscope.mp ⟨found, hfound⟩
      by_cases hbad : f.address.value.str.isEmpty ∨ f.address ∈ seen
      · simp only [hbad, if_true, reduceCtorEq, false_iff]
        rintro ⟨hall, -⟩
        obtain ⟨-, hempty, hseen⟩ := hall f List.mem_cons_self
        rcases hbad with h | h
        · simp [hempty] at h
        · exact hseen h
      · simp only [not_or, Bool.not_eq_true] at hbad
        simp only [hbad.1, hbad.2, Bool.false_eq_true, or_self, if_false, ih, List.mem_cons, List.map_cons,
          List.nodup_cons, List.mem_map, not_or, forall_eq_or_imp, hin, not_false_eq_true, true_and]
        constructor
        · rintro ⟨hall, hnodup⟩
          refine ⟨fun g hg => ⟨(hall g hg).1, (hall g hg).2.1, (hall g hg).2.2.2⟩, ?_, hnodup⟩
          rintro ⟨g, hg, heq⟩
          exact (hall g hg).2.2.1 heq
        · rintro ⟨hall, hnew, hnodup⟩
          refine ⟨fun g hg => ⟨(hall g hg).1, (hall g hg).2.1, fun heq => ?_, (hall g hg).2.2⟩, hnodup⟩
          exact hnew ⟨g, hg, heq⟩

/-- The indexer at one place as the only one of a composer. -/
def alone (c : Composer ε σ) {place : Nat} {x : Indexer ε σ} (hx : c.indexers[place]? = some x) :
    Composer ε σ where
  indexers := [x]
  nonempty := List.cons_ne_nil _ _
  unique := by simpa using (List.nodup_flatMap.mp c.unique).1 x (List.mem_of_getElem? hx)

variable {c : Composer ε σ} {place : Nat} {x : Indexer ε σ} {hx : c.indexers[place]? = some x}

theorem alone_validates (h : c.validateSelection selection = .ok ()) :
    (c.alone hx).validateSelection (selection.scoped x.scopes) = .ok () := by
  rw [validateSelection] at h ⊢
  cases hread : selection.filters 0 with
  | error e => simp [hread] at h
  | ok filters =>
    rw [hread] at h
    obtain ⟨hall, hnodup⟩ := (validateFilters_ok_iff c).mp h
    simp only [FilterSource.scoped, hread, Except.map, validateFilters_ok_iff]
    constructor
    · intro f hf
      obtain ⟨hmem, hscope⟩ := List.mem_filter.mp hf
      obtain ⟨-, hempty, hseen⟩ := hall f hmem
      exact ⟨by simpa [scopes, alone] using hscope, hempty, hseen⟩
    · exact hnodup.sublist (List.filter_sublist.map _)

theorem alone_sync (hx : c.indexers[place]? = some x) (h : c.validateSelection selection = .ok ())
    (world : Nat → ε) {lone : Nat → σ} (hlone : states place = lone 0) :
    ((c.alone hx).sync (selection.scoped x.scopes) (fun _ => world place) lone).states 0 =
        (x.own selection world states place).2 ∧
      ((c.alone hx).sync (selection.scoped x.scopes) (fun _ => world place) lone).result =
        (x.own selection world states place).1 := by
  rw [sync, alone_validates h]
  simp only [alone, sweep, Indexer.own, FilterSource.scoped_scoped, ← hlone]
  cases (x.sync (world place) (selection.scoped x.scopes) (states place)).1 with
  | error e => simp
  | ok statuses => simp [Except.map]

/-! ## Runs -/

/-- The pass as the indexer at one place meets it when it is composed alone. -/
def turnAlone (x : Indexer ε σ) (place : Nat) (t : Turn ε) : Turn ε where
  selection := t.selection.scoped x.scopes
  world := fun _ => t.world place

def loopAlone (place : Nat) (l : Loop σ) : Loop σ :=
  { l with states := fun _ => l.states place }

/-- The loop still runs, the selection is valid, every indexer before `place` succeeds in the
pass, and the one there, if it succeeds, has a status for each of its scopes. -/
def Unhindered (c : Composer ε σ) (place : Nat) (x : Indexer ε σ) (l : Loop σ) (t : Turn ε) : Prop :=
  l.ended = none ∧ c.validateSelection t.selection = .ok () ∧
    (∀ other < place, c.Succeeds t.selection t.world l.states other) ∧
    ∀ statuses, (x.own t.selection t.world l.states place).1 = .ok statuses →
      SyncState.fromStatuses x.scopes statuses ≠ none

/-- The states agree, and the lone loop runs as long as the composed one does. -/
def Agree (place : Nat) (l m : Loop σ) : Prop :=
  l.states place = m.states 0 ∧ (l.ended = none → m.ended = none)

theorem turn_running {l : Loop σ} {t : Turn ε} (h : l.ended = none) :
    (turn c l t).states = (c.sync t.selection t.world l.states).states ∧
      (∀ e, (c.sync t.selection t.world l.states).result = .error e →
        ((turn c l t).ended = none ↔ e.retryable = true)) ∧
      (∀ statuses, (c.sync t.selection t.world l.states).result = .ok statuses →
        SyncState.fromStatuses c.scopes statuses ≠ none → (turn c l t).ended = none) := by
  rw [turn, h, if_neg (by simp)]
  cases hresult : (c.sync t.selection t.world l.states).result with
  | error e => simp [hresult]
  | ok statuses =>
    cases hstate : SyncState.fromStatuses c.scopes statuses with
    | none => simp [hresult, hstate]
    | some next => simp [hresult, hstate]

theorem turn_agrees {l m : Loop σ} {t : Turn ε} (hok : c.Unhindered place x l t) (h : Agree place l m) :
    Agree place (turn c l t) (turn (c.alone hx) m (turnAlone x place t)) := by
  obtain ⟨hrun, hvalid, hbefore, hcomplete⟩ := hok
  obtain ⟨hstates, hlone⟩ := h
  obtain ⟨hturn, hfail, -⟩ := turn_running (c := c) (t := t) hrun
  obtain ⟨hturn', hfail', hdone'⟩ :=
    turn_running (c := c.alone hx) (t := turnAlone x place t) (hlone hrun)
  have hbefore' : ∀ m < place, OkAt t.selection t.world l.states 0 c.indexers m :=
    fun m hm => (okAt_iff c).mpr (hbefore m hm)
  obtain ⟨hown, herror⟩ := sweep_at hx hbefore'
  rw [Nat.zero_add] at hown herror
  have hsync : c.sync t.selection t.world l.states = sweep t.selection t.world 0 c.indexers l.states := by
    rw [sync, hvalid]
  obtain ⟨hstate', hresult'⟩ := alone_sync hx hvalid t.world hstates
  refine ⟨?_, fun hended => ?_⟩
  · rw [hturn, hturn', hsync, hown]
    exact hstate'.symm
  · cases hmine : (x.own t.selection t.world l.states place).1 with
    | error e =>
      have hretry := (hfail e (by rw [hsync, herror e hmine])).mp hended
      exact (hfail' e (hresult'.trans hmine)).mpr hretry
    | ok statuses =>
      refine hdone' statuses (hresult'.trans hmine) ?_
      simpa [scopes, alone] using hcomplete statuses hmine

theorem run_agrees {l : Loop σ} {ts : List (Turn ε)}
    (h : Along (turn c) (c.Unhindered place x) l ts) {m : Loop σ} (hm : Agree place l m) :
    Agree place (ts.foldl (turn c) l) ((ts.map (turnAlone x place)).foldl (turn (c.alone hx)) m) := by
  induction ts generalizing l m with
  | nil => exact hm
  | cons t rest ih => exact ih h.2 (turn_agrees h.1 hm)

theorem checkpoint_agrees {l m : Loop σ} (h : Agree place l m) {scope : IndexScope}
    (hscope : scope ∈ x.scopes) :
    c.checkpoint l.states scope = (c.alone hx).checkpoint m.states scope := by
  have halone : (c.alone hx).indexers[0]? = some x := rfl
  rw [checkpoint, checkpoint, indexer_eq hx hscope, indexer_eq halone hscope]
  exact congrArg (x.checkpoint · scope) h.1

/-- A pass synchronizes every indexer that would succeed, exactly if none of them stands after
one that fails. An indexer that no pass of a run hinders has the checkpoints it would have if
it were composed alone. -/
theorem synchronizes_every_child (c : Composer ε σ) :
    (∀ selection world states, c.validateSelection selection = .ok () →
      ((∀ place, c.Succeeds selection world states place →
          place ∈ (c.sync selection world states).invoked) ↔
        ∀ place other, other < place → c.Succeeds selection world states place →
          c.Succeeds selection world states other)) ∧
    ∀ (place : Nat) (x : Indexer ε σ) (hx : c.indexers[place]? = some x) (l : Loop σ)
      (ts : List (Turn ε)), Along (turn c) (c.Unhindered place x) l ts →
      ∀ n, ∀ scope ∈ x.scopes,
        c.checkpoint ((ts.take n).foldl (turn c) l).states scope =
          (c.alone hx).checkpoint
            (((ts.take n).map (turnAlone x place)).foldl (turn (c.alone hx)) (loopAlone place l)).states
            scope := by
  constructor
  · intro selection world states hvalid
    exact invoked_iff hvalid
  · intro place x hx l ts hrun n scope hscope
    have hstart : Agree place l (loopAlone place l) := ⟨rfl, id⟩
    exact checkpoint_agrees (run_agrees (along_take hrun n) hstart) hscope

/-! ## Two chains -/

def sampleBitcoin : IndexScope := ⟨⟨.lit "bitcoin" (Eq.refl true)⟩, .lit "main" (Eq.refl true)⟩

def sampleEthereum : IndexScope := ⟨⟨.lit "ethereum" (Eq.refl true)⟩, .lit "main" (Eq.refl true)⟩

def sampleTip : BlockRef := ⟨⟨0⟩, ⟨0⟩, ⟨[0]⟩, none, none⟩

/-- Follows its tip while its source answers. The state is the checkpoint. -/
def sampleIndexer (scope : IndexScope) : Indexer Bool (Option BlockRef) where
  scopes := [scope]
  checkpoint := fun checkpoint _ => .ok checkpoint
  sync := fun answers _ checkpoint =>
    if answers then (.ok [⟨scope, some sampleTip, some sampleTip, .ready⟩], some sampleTip)
    else (.error ⟨.source, "source is unavailable", true⟩, checkpoint)

def samplePair : Composer Bool (Option BlockRef) where
  indexers := [sampleIndexer sampleBitcoin, sampleIndexer sampleEthereum]
  nonempty := List.cons_ne_nil _ _
  unique := by decide

theorem samplePair_bitcoin : samplePair.indexers[0]? = some (sampleIndexer sampleBitcoin) := rfl

theorem samplePair_ethereum : samplePair.indexers[1]? = some (sampleIndexer sampleEthereum) := rfl

/-- No address is selected, and only the sources at `answering` answer. -/
def samplePass (answering : Nat) : Turn Bool where
  selection := ⟨fun _ => .ok [], fun _ _ checkpoint => .ok ⟨[], checkpoint, 0, false⟩⟩
  world := fun place => decide (place = answering)

def sampleLoop : Loop (Option BlockRef) := ⟨fun _ => none, .catchingUp, none⟩

/-- Where the second source fails, the first chain is where it would be alone. -/
theorem samplePair_follows :
    Along (turn samplePair) (samplePair.Unhindered 0 (sampleIndexer sampleBitcoin)) sampleLoop
        [samplePass 0, samplePass 0] ∧
      samplePair.checkpoint (([samplePass 0, samplePass 0].take 2).foldl (turn samplePair) sampleLoop).states
          sampleBitcoin =
        (samplePair.alone samplePair_bitcoin).checkpoint
          ((([samplePass 0, samplePass 0].take 2).map (turnAlone (sampleIndexer sampleBitcoin) 0)).foldl
            (turn (samplePair.alone samplePair_bitcoin)) (loopAlone 0 sampleLoop)).states
          sampleBitcoin ∧
      ((∀ place, samplePair.Succeeds (samplePass 0).selection (samplePass 0).world (fun _ => none) place →
          place ∈ (samplePair.sync (samplePass 0).selection (samplePass 0).world fun _ => none).invoked) ↔
        ∀ place other, other < place →
          samplePair.Succeeds (samplePass 0).selection (samplePass 0).world (fun _ => none) place →
          samplePair.Succeeds (samplePass 0).selection (samplePass 0).world (fun _ => none) other) := by
  have hrun : Along (turn samplePair) (samplePair.Unhindered 0 (sampleIndexer sampleBitcoin)) sampleLoop
      [samplePass 0, samplePass 0] := by
    refine ⟨⟨rfl, rfl, by simp, ?_⟩, ⟨rfl, rfl, by simp, ?_⟩, trivial⟩
    all_goals
      intro statuses h
      cases h
      decide
  obtain ⟨hpass, hchild⟩ := synchronizes_every_child samplePair
  exact ⟨hrun, hchild 0 _ samplePair_bitcoin _ _ hrun 2 _ (by decide), hpass _ _ _ rfl⟩

/-- Where the first source fails in every pass, the second chain, which would follow its tip,
is not invoked and stays without a checkpoint. -/
theorem samplePair_stalls :
    samplePair.validateSelection (samplePass 1).selection = .ok () ∧
      samplePair.Succeeds (samplePass 1).selection (samplePass 1).world sampleLoop.states 1 ∧
      1 ∉ (samplePair.sync (samplePass 1).selection (samplePass 1).world sampleLoop.states).invoked ∧
      ((List.replicate 3 (samplePass 1)).foldl (turn samplePair) sampleLoop).ended = none ∧
      samplePair.checkpoint ((List.replicate 3 (samplePass 1)).foldl (turn samplePair) sampleLoop).states
        sampleEthereum = .ok none ∧
      (samplePair.alone samplePair_ethereum).checkpoint
        (((List.replicate 3 (samplePass 1)).map (turnAlone (sampleIndexer sampleEthereum) 1)).foldl
          (turn (samplePair.alone samplePair_ethereum)) (loopAlone 1 sampleLoop)).states
        sampleEthereum = .ok (some sampleTip) := by
  exact ⟨rfl, ⟨sampleIndexer sampleEthereum, _, rfl, rfl⟩, by decide, rfl, rfl, rfl⟩

end Composer

end PaymentSdk.Sync
