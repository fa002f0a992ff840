import PaymentSdk.Sync.Composer
import PaymentSdk.Sync.Readiness

/-!
# Ready means at the tip

A service is the indexer of one chain: its passes over a redb store. The loop that drives a
composer of services is ready only if every scope has the tip that its source had, and it never
ends over what the statuses say.
-/

open Interaction KvStore

namespace PaymentSdk.Sync

open Redb

variable {B : Type} {size : Value → Bool}

/-! ## Services -/

/-- What a pass meets, call by call. A repository call may fail, before or after its commit. -/
structure Outside (B : Type) where
  tip : Except IndexError BlockRef
  canonicalAt : Nat → BlockPosition → Except IndexError (Option BlockRef)
  blocks : Nat → BlockPosition → BlockPosition → Nat → Except IndexError (List B)
  inspect : Nat → B → List CanonicalAddress → Except IndexError InterpretedBlock
  admission : Nat → Except IndexError Unit
  fault : Nat → Option (IndexError × Bool)

/-- A call to the repository that would have this result. -/
def Outside.attempt {α : Type} (o : Outside B) (instant : Nat) (s : Store Value)
    (result : Except IndexError α × Store Value) : Except IndexError α × (Nat × Store Value) :=
  match o.fault instant with
  | none => (result.1, (instant + 1, result.2))
  | some (e, committed) => (.error e, (instant + 1, if committed then result.2 else s))

def Outside.handle (o : Outside B) (selection : FilterSource) (size : Value → Bool) (scope : IndexScope) :
    (op : Op B) → Nat × Store Value → Except IndexError op.Ans × (Nat × Store Value)
  | .filters, (n, s) => (selection.filters n, (n + 1, s))
  | .tip, (n, s) => (o.tip, (n + 1, s))
  | .plan scope' checkpoint, (n, s) => (selection.plan n scope' checkpoint, (n + 1, s))
  | .canonicalAt position, (n, s) => (o.canonicalAt n position, (n + 1, s))
  | .blocks start last limit, (n, s) => (o.blocks n start last limit, (n + 1, s))
  | .inspect block addresses, (n, s) => (o.inspect n block addresses, (n + 1, s))
  | .begin _, (n, s) => (o.admission n, (n + 1, s))
  | .persist _, (n, s) => (o.admission n, (n + 1, s))
  | .complete _, (n, s) => (o.admission n, (n + 1, s))
  | .get selector, (n, s) => o.attempt n s (Prog.run (serve size) (readBlock scope selector) s)
  | .add addition, (n, s) => o.attempt n s (Prog.run (serve size) (writeBlock scope addition) s)
  | .remove scope' tip, (n, s) => o.attempt n s (Prog.run (serve size) (removeTip scope scope' tip) s)

/-- What an environment answers. -/
def Environment.outside (env : Environment B) (fault : Nat → Option (IndexError × Bool)) : Outside B where
  tip := env.tip
  canonicalAt := fun _ position => .ok (env.canonicalAt position)
  blocks := fun _ start last limit => .ok (env.blocks start last limit)
  inspect := fun _ => env.inspect
  admission := fun _ => .ok ()
  fault := fault

section Service

variable [SourceBlock B]

/-- One pass over a redb store. Its instants are its own calls, so every service finds the
selection from instant 0 on. The fuel is what `yields_sync` needs. -/
def pass (config : SyncConfig) (size : Value → Bool) (o : Outside B) (selection : FilterSource) (s : Store Value) :
    Except Halt SyncStatus × (Nat × Store Value) :=
  Prog.run (o.handle selection size config.scope) (sync (B := B) config (config.reorgRetention + 1)) (0, s)

def service (config : SyncConfig) (size : Value → Bool) : Indexer (Outside B) (Store Value) where
  scopes := [config.scope]
  checkpoint := fun s scope => (Prog.run (serve size) (readBlock config.scope (.tip scope)) s).1
  sync := fun o selection s =>
    match pass config size o selection s with
    | (.ok status, (_, s')) => (.ok [status], s')
    | (.error (.failed e), (_, s')) => (.error e, s')
    -- No pass ends like this.
    | (.error .outOfFuel, (_, s')) => (.ok [], s')

end Service

theorem attends_attempt {op : Op B} {scope : IndexScope} {observed : Except IndexError BlockRef} {o : Outside B}
    {n : Nat} {s : Store Value} {result : Except IndexError op.Ans × Store Value}
    (hserved : served size scope s op = some result) (htip : ∀ r, Observes observed op r) :
    Attends size scope observed op s (o.attempt n s result).1 (o.attempt n s result).2.2 := by
  refine ⟨?_, htip _⟩
  unfold Serves Outside.attempt
  rw [hserved]
  dsimp only
  rcases o.fault n with _ | ⟨e, committed⟩
  · simp
  · refine .inr ⟨⟨e, rfl⟩, ?_⟩
    cases committed <;> simp

theorem attends_handle (o : Outside B) (selection : FilterSource) (scope : IndexScope) (op : Op B)
    (x : Nat × Store Value) :
    Attends size scope o.tip op x.2 (o.handle selection size scope op x).1
      (o.handle selection size scope op x).2.2 := by
  cases op with
  | tip => exact ⟨rfl, rfl⟩
  | get | add | remove => exact attends_attempt rfl fun _ => trivial
  | filters | plan | canonicalAt | blocks | inspect | begin | persist | complete => exact ⟨rfl, trivial⟩

variable [SourceBlock B] {config : SyncConfig} {o : Outside B} {selection : FilterSource} {s : Store Value}

theorem reaches_pass (size : Value → Bool) (config : SyncConfig) (o : Outside B) (selection : FilterSource) (s : Store Value) :
    Prog.Reaches (Attends size config.scope o.tip) (sync (B := B) config (config.reorgRetention + 1)) s
      (.done (pass config size o selection s).1) (pass config size o selection s).2.2 :=
  Prog.reaches_run_of (attends_handle o selection config.scope) (sync config (config.reorgRetention + 1)) (0, s)

/-- Whatever a pass is answered: its loops are over after `reorgRetention + 1` rounds, and a status
that it returns is so. -/
theorem sync_returns (config : SyncConfig) (size : Value → Bool) (observed : Except IndexError BlockRef) (fuel : Nat)
    (hfuel : config.reorgRetention < fuel) {s t : Store Value} (h : Visited B size config.scope s)
    (r : Except Halt SyncStatus)
    (hrun : Prog.Reaches (Attends size config.scope observed) (sync (B := B) config fuel) s (.done r) t) :
    r ≠ .error .outOfFuel ∧ ∀ status, r = .ok status → Reports size config.scope observed status t := by
  have hpass : Yields (B := B) size config.scope observed (Held size config.scope) (sync config fuel)
      (Reports size config.scope observed) := yields_sync fuel hfuel
  constructor
  · rintro rfl
    exact hpass.throws (held_visited h) hrun rfl
  · rintro status rfl
    exact hpass.returns (held_visited h) hrun

def sampleSelection : FilterSource :=
  ⟨fun _ => .ok sampleFilters, fun _ _ checkpoint => .ok ⟨sampleFilters, checkpoint, 0, false⟩⟩

def sampleOutside (fault : Nat → Option (IndexError × Bool)) : Outside BlockRef :=
  (fixedChain sampleFilters [sampleGenesis, sampleNext]).outside fault

/-- A pass after the second of two stored blocks was replaced. -/
def sampleReorged : Except Halt SyncStatus × (Nat × Store Value) :=
  pass (sampleConfig 2 Nat.two_pos) (fun _ => true) (sampleReorg.outside fun _ => none) sampleSelection
    (sampleStore 2 Nat.two_pos)

theorem sync_returns_sample :
    (sampleStore 2 Nat.two_pos).valueAt (Keys.checkpoint sampleScope) = checkpointValue (some sampleNext) ∧
    sampleReorged.1 = .ok ⟨sampleScope, some sampleOther, some sampleOther, .ready⟩ ∧
    Reports (fun _ => true) sampleScope (.ok sampleOther) ⟨sampleScope, some sampleOther, some sampleOther, .ready⟩
      sampleReorged.2.2 := by
  have hpassed : sampleReorged.1 = .ok ⟨sampleScope, some sampleOther, some sampleOther, .ready⟩ := by
    decide
  have hvisited : Visited BlockRef (fun _ => true) sampleScope (sampleStore 2 Nat.two_pos) :=
    .pass (sampleConfig 2 Nat.two_pos) _ (.start (empty_empty _)) rfl (Prog.reaches_run _ (serves_handle _) _ _)
  have hrun := reaches_pass (fun _ => true) (sampleConfig 2 Nat.two_pos) (sampleReorg.outside fun _ => none)
    sampleSelection (sampleStore 2 Nat.two_pos)
  exact ⟨by decide, hpassed, (sync_returns (sampleConfig 2 Nat.two_pos) (fun _ => true) (.ok sampleOther) 3 (by decide)
    hvisited _ hrun).2 _ hpassed⟩

theorem service_held (h : Held size config.scope s) :
    Held size config.scope ((service (B := B) config size).sync o selection s).2 := by
  have hheld : Held size config.scope (pass config size o selection s).2.2 :=
    Prog.keeps_reaches (Prog.keeps_of_step (fun _ _ _ _ hstep hs => held_serves hs hstep.1) _) h
      (reaches_pass size config o selection s)
  unfold service
  dsimp only
  split
  all_goals
    rename_i heq
    rwa [heq] at hheld

theorem service_reports (h : Held size config.scope s) {statuses : List SyncStatus}
    (hok : ((service (B := B) config size).sync o selection s).1 = .ok statuses) :
    ∃ status, statuses = [status] ∧
      Reports size config.scope o.tip status ((service (B := B) config size).sync o selection s).2 := by
  have hpass : Yields (B := B) size config.scope o.tip (Held size config.scope)
      (sync config (config.reorgRetention + 1)) (Reports size config.scope o.tip) :=
    yields_sync _ (Nat.lt_succ_self _)
  have hreaches := reaches_pass size config o selection s
  unfold service at hok ⊢
  dsimp only at hok ⊢
  generalize pass config size o selection s = out at hok hreaches ⊢
  obtain ⟨⟨e | -⟩ | status, n, s'⟩ := out
  · cases hok
  · exact absurd rfl (hpass.throws h hreaches)
  · exact ⟨status, (Except.ok.inj hok).symm, hpass.returns h hreaches⟩

theorem service_checkpoint {checkpoint : Option BlockRef} (h : TipIs size config.scope checkpoint s) :
    (service (B := B) config size).checkpoint s config.scope = .ok checkpoint := by
  have hread : ∀ stored : Option (VersionedRecord BlockRecord), s.get (Keys.checkpoint config.scope) =
      stored.map (fun r => ⟨Record.encode r.value, r.version⟩) →
      Prog.run (serve size) (readBlock config.scope (.tip config.scope)) s =
        (.ok (stored.map (·.value.intoDomain)), s) := by
    intro stored hstored
    unfold readBlock
    exact (Prog.run_bind_ok _).mpr ⟨(), s, run_checkScope_ok.mpr ⟨rfl, rfl⟩,
      (Prog.run_bind_ok _).mpr ⟨stored, s, run_get_ok.mpr ⟨rfl, hstored⟩, (Prog.run_pure_ok _).mpr ⟨rfl, rfl⟩⟩⟩
  have hstored := h.2
  unfold Store.valueAt at hstored
  unfold service
  dsimp only
  cases hget : s.get (Keys.checkpoint config.scope) with
  | none =>
    rw [hget] at hstored
    rw [hread none hget]
    cases checkpoint with
    | none => rfl
    | some block => cases hstored
  | some entry =>
    rw [hget] at hstored
    cases checkpoint with
    | none => cases hstored
    | some block =>
      obtain ⟨value, version⟩ := entry
      obtain rfl : value = .block (BlockRecord.fromDomain block) := Option.some.inj hstored
      rw [hread (some ⟨BlockRecord.fromDomain block, version⟩) hget]
      simp

/-! ## Sweeps -/

/-- Every service has a branch in its own store. -/
def HeldAll (size : Value → Bool) (configs : List SyncConfig) (base : Nat) (states : Nat → Store Value) : Prop :=
  ∀ k config, configs[k]? = some config → Held size config.scope (states (base + k))

variable {configs : List SyncConfig} {base : Nat} {states : Nat → Store Value} {world : Nat → Outside B}

theorem heldAll_cons : HeldAll size (config :: configs) base states ↔
    Held size config.scope (states base) ∧ HeldAll size configs (base + 1) states := by
  constructor
  · refine fun h => ⟨h 0 config rfl, fun k x hx => ?_⟩
    have := h (k + 1) x hx
    rwa [show base + (k + 1) = base + 1 + k by omega] at this
  · rintro ⟨hfirst, hrest⟩ k x hx
    cases k with
    | zero =>
      obtain rfl : config = x := Option.some.inj hx
      exact hfirst
    | succ k =>
      rw [show base + (k + 1) = base + 1 + k by omega]
      exact hrest k x hx

theorem HeldAll.update (h : HeldAll size configs (base + 1) states) (mine : Store Value) :
    HeldAll size configs (base + 1) (Function.update states base mine) := by
  intro k x hx
  rw [Function.update_of_ne (by omega)]
  exact h k x hx

theorem sweep_held (h : HeldAll size configs base states) :
    HeldAll size configs base
      (sweep selection world base (configs.map (service · size)) states).states := by
  induction configs generalizing base states with
  | nil => exact h
  | cons config rest ih =>
    rw [heldAll_cons] at h ⊢
    rw [List.map_cons, sweep]
    have hmine : Held size config.scope ((service config size).own selection world states base).2 :=
      service_held h.1
    dsimp only
    split
    · refine ⟨?_, h.2.update _⟩
      dsimp only
      rwa [Function.update_self]
    · refine ⟨?_, ih (h.2.update _)⟩
      rwa [sweep_states_below (Nat.lt_succ_self base), Function.update_self]

/-- One status for each service, and each is so. -/
structure AllReport (size : Value → Bool) (configs : List SyncConfig) (base : Nat) (world : Nat → Outside B)
    (statuses : List SyncStatus) (states : Nat → Store Value) : Prop where
  length_eq : statuses.length = configs.length
  reports : ∀ k config status, configs[k]? = some config → statuses[k]? = some status →
    Reports size config.scope (world (base + k)).tip status (states (base + k))

theorem sweep_reports (h : HeldAll size configs base states) {statuses : List SyncStatus}
    (hok : (sweep selection world base (configs.map (service · size)) states).result = .ok statuses) :
    AllReport size configs base world statuses
      (sweep selection world base (configs.map (service · size)) states).states := by
  induction configs generalizing base states statuses with
  | nil =>
    obtain rfl : [] = statuses := Except.ok.inj hok
    exact ⟨rfl, by simp⟩
  | cons config rest ih =>
    rw [heldAll_cons] at h
    rw [List.map_cons, sweep] at hok ⊢
    dsimp only at hok ⊢
    have hreports : ∀ statuses, ((service config size).own selection world states base).1 = .ok statuses →
        ∃ status, statuses = [status] ∧ Reports size config.scope (world base).tip status
          ((service config size).own selection world states base).2 := fun _ => service_reports h.1
    split at hok
    · cases hok
    · rename_i mine heq
      obtain ⟨status, rfl, hmine⟩ := hreports mine heq
      have hrest := @ih (base + 1) (Function.update states base ((service config size).own selection world states base).2)
      generalize hothers : sweep selection world (base + 1) (rest.map (service · size))
        (Function.update states base ((service config size).own selection world states base).2) = others at hok hrest
      have hbase : others.states base = ((service config size).own selection world states base).2 := by
        rw [← hothers, sweep_states_below (Nat.lt_succ_self base), Function.update_self]
      cases hresult : others.result with
      | error e =>
        rw [hresult] at hok
        cases hok
      | ok more =>
        rw [hresult] at hok
        obtain rfl : status :: more = statuses := Except.ok.inj hok
        obtain ⟨hlength, hmore⟩ := hrest (h.2.update _) hresult
        refine ⟨by simp [hlength], fun k x y hx hy => ?_⟩
        cases k with
        | zero =>
          obtain rfl : config = x := Option.some.inj hx
          obtain rfl : status = y := Option.some.inj hy
          rw [Nat.add_zero, hbase]
          exact hmine
        | succ k =>
          have := hmore k x y hx hy
          rwa [show base + 1 + k = base + (k + 1) by omega] at this

omit [SourceBlock B] in
theorem AllReport.of_mem {statuses : List SyncStatus} (h : AllReport size configs 0 world statuses states)
    {status : SyncStatus} (hmem : status ∈ statuses) : ∃ config place, configs[place]? = some config ∧
      Reports size config.scope (world place).tip status (states place) := by
  obtain ⟨k, hk⟩ := List.mem_iff_getElem?.mp hmem
  have hlt : k < configs.length := h.length_eq ▸ (List.getElem?_eq_some_iff.mp hk).1
  have hconfig := List.getElem?_eq_getElem hlt
  refine ⟨_, k, hconfig, ?_⟩
  simpa using h.reports k _ status hconfig hk

omit [SourceBlock B] in
theorem AllReport.scopes {statuses : List SyncStatus} (h : AllReport size configs 0 world statuses states) :
    statuses.map (·.scope) = configs.map (·.scope) := by
  apply List.ext_getElem (by simp [h.length_eq])
  intro k hk hk'
  rw [List.length_map] at hk hk'
  rw [List.getElem_map, List.getElem_map]
  exact (h.reports k _ _ (List.getElem?_eq_getElem hk') (List.getElem?_eq_getElem hk)).scope_eq

theorem Reports.checkpoint_of_ready {scope : IndexScope} {observed : Except IndexError BlockRef}
    {status : SyncStatus} (h : Reports size scope observed status s) (hready : status.phase = .ready) :
    ∃ tip stored, observed = .ok tip ∧ status.checkpoint = some stored ∧ tip.position ≤ stored.position := by
  obtain ⟨tip, htip, -, hphase⟩ := h.tip
  rw [hready] at hphase
  unfold phase at hphase
  cases hstored : status.checkpoint with
  | none => simp [hstored] at hphase
  | some stored => exact ⟨tip, stored, htip, rfl, by simpa [hstored] using hphase⟩

theorem Reports.behind_of_catchingUp {scope : IndexScope} {observed : Except IndexError BlockRef}
    {status : SyncStatus} (h : Reports size scope observed status s) (hbehind : status.phase ≠ .ready) :
    ∃ tip, observed = .ok tip ∧ ∀ stored, status.checkpoint = some stored → ¬ tip.position ≤ stored.position := by
  obtain ⟨tip, htip, -, hphase⟩ := h.tip
  refine ⟨tip, htip, fun stored hstored hle => hbehind ?_⟩
  rw [hphase]
  unfold phase
  simp [hstored, hle]

/-! ## The loop -/

theorem fromStatuses_complete {scopes : List IndexScope} {statuses : List SyncStatus} (hsome : scopes ≠ [])
    (hunique : scopes.Nodup) (hscopes : statuses.map (·.scope) = scopes)
    (hstored : ∀ status ∈ statuses, status.phase = .ready → status.checkpoint ≠ none) :
    SyncState.fromStatuses scopes statuses =
      some (if ∀ status ∈ statuses, status.phase = .ready then .ready else .catchingUp) := by
  have hlength : statuses.length = scopes.length := by rw [← hscopes, List.length_map]
  have hone : ∀ scope ∈ scopes, (statuses.filter fun s => decide (s.scope = scope)).length = 1 := by
    intro scope hscope
    rw [← List.countP_eq_length_filter]
    calc statuses.countP (fun s => decide (s.scope = scope))
        = (statuses.map (·.scope)).countP (fun x => decide (x = scope)) := by
          rw [List.countP_map]
          rfl
      _ = scopes.count scope := by
          rw [hscopes, List.count]
          congr 1
      _ = 1 := List.count_eq_one_of_mem hunique hscope
  have hsound : ¬ ∃ status ∈ statuses, status.phase = .ready ∧ status.checkpoint = none := by
    rintro ⟨status, hmem, hready, hnone⟩
    exact hstored status hmem hready hnone
  unfold SyncState.fromStatuses
  simp only
  rw [if_neg (by simp only [hsome, hlength, hsound, not_false_eq_true, ne_eq, true_and, or_false, not_not]; exact hone)]
  split <;> rfl

namespace Composer

variable {c : Composer (Outside B) (Store Value)}

/-- The store of the scope has a checkpoint that is not below the tip of its source. -/
def UpToDate (c : Composer (Outside B) (Store Value)) (world : Nat → Outside B) (states : Nat → Store Value)
    (scope : IndexScope) : Prop :=
  ∃ x place tip stored, c.indexer scope = .ok (x, place) ∧ (world place).tip = .ok tip ∧
    c.checkpoint states scope = .ok (some stored) ∧ tip.position ≤ stored.position

/-- The store of the scope has no checkpoint, or one below the tip of its source. -/
def Behind (c : Composer (Outside B) (Store Value)) (world : Nat → Outside B) (states : Nat → Store Value)
    (scope : IndexScope) : Prop :=
  ∃ x place tip checkpoint, c.indexer scope = .ok (x, place) ∧ (world place).tip = .ok tip ∧
    c.checkpoint states scope = .ok checkpoint ∧ ∀ stored, checkpoint = some stored → ¬ tip.position ≤ stored.position

theorem scopes_services (h : c.indexers = configs.map (service · size)) : c.scopes = configs.map (·.scope) := by
  unfold scopes
  rw [h, List.flatMap_map, List.map_eq_flatMap]
  rfl

theorem indexer_service (h : c.indexers = configs.map (service · size)) {place : Nat}
    (hconfig : configs[place]? = some config) : c.indexer config.scope = .ok (service config size, place) := by
  refine indexer_eq ?_ (List.mem_singleton.mpr rfl)
  rw [h, List.getElem?_map, hconfig]
  rfl

theorem checkpoint_service (h : c.indexers = configs.map (service · size)) {place : Nat}
    (hconfig : configs[place]? = some config) {checkpoint : Option BlockRef}
    (hstored : TipIs size config.scope checkpoint (states place)) :
    c.checkpoint states config.scope = .ok checkpoint := by
  unfold Composer.checkpoint
  rw [indexer_service h hconfig]
  exact service_checkpoint hstored

theorem sync_held (h : c.indexers = configs.map (service · size)) (hheld : HeldAll size configs 0 states) :
    HeldAll size configs 0 (c.sync selection world states).states := by
  unfold Composer.sync
  split
  · exact hheld
  · rw [h]
    exact sweep_held hheld

theorem sync_reports (h : c.indexers = configs.map (service · size)) (hheld : HeldAll size configs 0 states)
    {statuses : List SyncStatus} (hok : (c.sync selection world states).result = .ok statuses) :
    AllReport size configs 0 world statuses (c.sync selection world states).states := by
  unfold Composer.sync at hok ⊢
  split at hok
  · cases hok
  · rw [h] at hok ⊢
    exact sweep_reports hheld hok

/-- What the loop makes of a pass that succeeds. -/
theorem state_of_reports (h : c.indexers = configs.map (service · size)) {statuses : List SyncStatus}
    (hreport : AllReport size configs 0 world statuses states) :
    ∃ state, SyncState.fromStatuses c.scopes statuses = some state ∧
      (state = .ready ∧ (∀ scope ∈ c.scopes, c.UpToDate world states scope) ∨
        state = .catchingUp ∧ ∃ scope ∈ c.scopes, c.Behind world states scope) := by
  have hscopes : statuses.map (·.scope) = c.scopes := by rw [hreport.scopes, scopes_services h]
  have hsome : c.scopes ≠ [] := by
    rw [scopes_services h, ne_eq, List.map_eq_nil_iff]
    rintro rfl
    exact c.nonempty h
  refine ⟨_, fromStatuses_complete hsome c.unique hscopes fun status hmem hready hnone => ?_, ?_⟩
  · obtain ⟨config, place, -, hstatus⟩ := hreport.of_mem hmem
    obtain ⟨tip, stored, -, hstored, -⟩ := hstatus.checkpoint_of_ready hready
    rw [hnone] at hstored
    cases hstored
  · split_ifs with hready
    · refine .inl ⟨rfl, fun scope hscope => ?_⟩
      rw [← hscopes] at hscope
      obtain ⟨status, hmem, rfl⟩ := List.mem_map.mp hscope
      obtain ⟨config, place, hconfig, hstatus⟩ := hreport.of_mem hmem
      obtain ⟨tip, stored, htip, hstored, hle⟩ := hstatus.checkpoint_of_ready (hready status hmem)
      rw [hstatus.scope_eq]
      exact ⟨_, place, tip, stored, indexer_service h hconfig, htip,
        checkpoint_service h hconfig (hstored ▸ hstatus.stored), hle⟩
    · refine .inr ⟨rfl, ?_⟩
      simp only [not_forall] at hready
      obtain ⟨status, hmem, hbehind⟩ := hready
      obtain ⟨config, place, hconfig, hstatus⟩ := hreport.of_mem hmem
      obtain ⟨tip, htip, hbelow⟩ := hstatus.behind_of_catchingUp hbehind
      refine ⟨status.scope, hscopes ▸ List.mem_map_of_mem hmem, ?_⟩
      rw [hstatus.scope_eq]
      exact ⟨_, place, tip, status.checkpoint, indexer_service h hconfig, htip,
        checkpoint_service h hconfig hstatus.stored, hbelow⟩

theorem turn_held (h : c.indexers = configs.map (service · size)) {l : Loop (Store Value)}
    (hheld : HeldAll size configs 0 l.states) (t : Turn (Outside B)) :
    HeldAll size configs 0 (turn c l t).states := by
  have hsync : HeldAll size configs 0 (c.sync t.selection t.world l.states).states := sync_held h hheld
  unfold turn
  split
  · exact hheld
  · dsimp only
    split
    · split <;> exact hsync
    · exact hsync

theorem turn_consistent (h : c.indexers = configs.map (service · size)) {l : Loop (Store Value)}
    (hheld : HeldAll size configs 0 l.states) (hl : l.ended ≠ some .inconsistent) (t : Turn (Outside B)) :
    (turn c l t).ended ≠ some .inconsistent := by
  unfold turn
  split
  · exact hl
  · dsimp only
    split
    · rename_i statuses hok
      obtain ⟨state, hstate, -⟩ := state_of_reports h (sync_reports h hheld hok)
      simp [hstate]
    · split <;> simp

theorem run_kept (h : c.indexers = configs.map (service · size)) {l : Loop (Store Value)}
    (hheld : HeldAll size configs 0 l.states) (hl : l.ended ≠ some .inconsistent) (ts : List (Turn (Outside B))) :
    HeldAll size configs 0 (ts.foldl (turn c) l).states ∧ (ts.foldl (turn c) l).ended ≠ some .inconsistent := by
  induction ts generalizing l with
  | nil => exact ⟨hheld, hl⟩
  | cons t rest ih => exact ih (turn_held h hheld t) (turn_consistent h hheld hl t)

omit [SourceBlock B] in
theorem not_behind {scope : IndexScope} (h : c.UpToDate world states scope) : ¬ c.Behind world states scope := by
  obtain ⟨x, place, tip, stored, hindexer, htip, hstored, hle⟩ := h
  rintro ⟨x', place', tip', checkpoint, hindexer', htip', hcheckpoint, hbelow⟩
  cases hindexer.symm.trans hindexer'
  cases htip.symm.trans htip'
  cases hstored.symm.trans hcheckpoint
  exact hbelow stored rfl hle

/-- Along every run of the loop over services, whatever their sources and stores do: it never ends
over what the statuses say, and after each pass it tells what the pass was. That is an error, and
its message, or that every scope has the tip that its source had, or that some scope is behind. -/
theorem loop_state_exact (configs : List SyncConfig) (size : Value → Bool) (c : Composer (Outside B) (Store Value))
    (hservices : c.indexers = configs.map (service · size)) (l : Loop (Store Value)) (hstart : l.ended = none)
    (hstates : ∀ (place : Nat) config, configs[place]? = some config → Visited B size config.scope (l.states place))
    (ts : List (Turn (Outside B))) (t : Turn (Outside B)) :
    let before := ts.foldl (turn c) l
    let after := turn c before t
    after.ended ≠ some .inconsistent ∧
      (before.ended = none → match (c.sync t.selection t.world before.states).result with
        | .error e => after.state = .retrying e.message ∧ (after.ended = none ↔ e.retryable = true)
        | .ok _ => after.ended = none ∧ (∀ message, after.state ≠ .retrying message) ∧
            (after.state = .ready ↔ ∀ scope ∈ c.scopes, c.UpToDate t.world after.states scope) ∧
            (after.state = .catchingUp ↔ ∃ scope ∈ c.scopes, c.Behind t.world after.states scope)) := by
  intro before after
  have hheld : HeldAll size configs 0 l.states := by
    intro k config hconfig
    rw [Nat.zero_add]
    exact held_visited (hstates k config hconfig)
  obtain ⟨hbefore, hconsistent⟩ := run_kept hservices hheld (by simp [hstart]) ts
  refine ⟨turn_consistent hservices hbefore hconsistent t, fun hgoing => ?_⟩
  change before.ended = none at hgoing
  change HeldAll size configs 0 before.states at hbefore
  have hafter : after = turn c before t := rfl
  clear_value before after
  subst hafter
  unfold turn
  rw [if_neg (by simp [hgoing])]
  dsimp only
  cases hresult : (c.sync t.selection t.world before.states).result with
  | error e =>
    dsimp only
    refine ⟨rfl, ?_⟩
    split_ifs with hretry <;> simp [hretry]
  | ok statuses =>
    dsimp only
    obtain ⟨state, hstate, hmeans⟩ := state_of_reports hservices (sync_reports hservices hbefore hresult)
    rw [hstate]
    dsimp only
    rcases hmeans with ⟨rfl, hready⟩ | ⟨rfl, hbehind⟩
    · refine ⟨rfl, by simp, iff_of_true rfl hready, iff_of_false (by simp) ?_⟩
      rintro ⟨scope, hscope, hbelow⟩
      exact not_behind (hready scope hscope) hbelow
    · refine ⟨rfl, by simp, iff_of_false (by simp) fun hready => ?_, iff_of_true rfl hbehind⟩
      obtain ⟨scope, hscope, hbelow⟩ := hbehind
      exact not_behind (hready scope hscope) hbelow

/-! One service, over the chain of two blocks. In its first pass the second block is committed, and
the answer is lost. -/

def sampleConfigs : List SyncConfig := [sampleConfig 1 Nat.one_pos]

def sampleServices : Composer (Outside BlockRef) (Store Value) where
  indexers := sampleConfigs.map (service · fun _ => true)
  nonempty := List.cons_ne_nil _ _
  unique := by decide

def sampleTurn (fault : Nat → Option (IndexError × Bool)) : Turn (Outside BlockRef) where
  selection := sampleSelection
  world := fun _ => sampleOutside fault

def sampleLost : Turn (Outside BlockRef) :=
  sampleTurn fun instant => if instant = 14 then some (⟨.store, "answer was lost", true⟩, true) else none

def sampleFresh : Loop (Store Value) := ⟨fun _ => Store.empty, .catchingUp, none⟩

theorem loop_state_exact_sample :
    ((turn sampleServices sampleFresh sampleLost).state = .retrying "answer was lost" ∧
      (turn sampleServices sampleFresh sampleLost).ended = none) ∧
    (turn sampleServices (turn sampleServices sampleFresh sampleLost) (sampleTurn fun _ => none)).state = .ready ∧
    ∀ scope ∈ sampleServices.scopes, sampleServices.UpToDate (sampleTurn fun _ => none).world
      (turn sampleServices (turn sampleServices sampleFresh sampleLost) (sampleTurn fun _ => none)).states scope := by
  have hlost : (turn sampleServices sampleFresh sampleLost).state = .retrying "answer was lost" ∧
      (turn sampleServices sampleFresh sampleLost).ended = none := by decide
  have hready : (turn sampleServices (turn sampleServices sampleFresh sampleLost)
      (sampleTurn fun _ => none)).state = .ready := by decide
  refine ⟨hlost, hready, ?_⟩
  obtain ⟨-, hstate⟩ := loop_state_exact sampleConfigs (fun _ => true) sampleServices rfl sampleFresh rfl
    (fun place config _ => .start (empty_empty _)) [sampleLost] (sampleTurn fun _ => none)
  have hmeans := hstate hlost.2
  split at hmeans
  · have hretrying : SyncState.ready = .retrying _ := hready.symm.trans hmeans.1
    cases hretrying
  · exact hmeans.2.2.1.mp hready

end Composer

end PaymentSdk.Sync
