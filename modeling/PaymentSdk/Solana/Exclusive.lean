import Mathlib.Tactic.Tauto
import PaymentSdk.Solana.World

/-!
# Every source has one holder

A source is held by a lease, by a guarded submission, or by an envelope whose outcome is not
known yet. The two sets of the coordinator are exactly what is held. Since an envelope that
was sent keeps its source until it is settled, no other envelope of that source is sent.
-/

open Interaction

namespace PaymentSdk.Solana

open Wallets (ErrorKind Error SendError)

/-! ## Holders -/

def Caller.leased : Caller → Finset Address
  | .acquiring _ task => task.leases
  | .preparing _ task => task.leases
  | .submitting (.height batch _) => batch.leases
  | .submitting (.failing leases _) => leases
  | .fresh | .ended | .submitting .registering | .submitting .waiting => ∅

/-- The sources of the guard that a task owns. -/
def Task.guarded : Task → Finset Address
  | dormant _ _ guarded => guarded
  | height r | sending r _ | status r _ | expiry r _ => r.guarded
  | resolving _ _ => ∅

/-- The envelope whose outcome is unknown and has been reported so. -/
def Task.unresolved : Task → Option Envelope
  | resolving envelope _ => some envelope
  | _ => none

/-- Who may hold a source: a call, a task, or an envelope of unknown outcome. -/
inductive Holder where
  | lease (i : Nat)
  | submission (i : Nat)
  | ambiguous (i : Nat)
  deriving DecidableEq

def World.Holds (w : World) (a : Address) : Holder → Prop
  | .lease i => a ∈ (w.sends i).caller.leased
  | .submission i => ∃ t ∈ (w.sends i).task, a ∈ t.guarded
  | .ambiguous i => ∃ t ∈ (w.sends i).task, ∃ e ∈ t.unresolved, e.source = a

/-- What a task has in the second set, guarded or ambiguous. -/
def Task.held : Task → Finset Address
  | resolving envelope _ => {envelope.source}
  | task => task.guarded

/-- What a task that is still there keeps leased. -/
def heldBy : Option Task → Finset Address
  | none => ∅
  | some task => task.held

/-! ## The invariant on the sets -/

/-- Every lease and every guard has one holder. -/
structure World.Exclusive (w : World) : Prop where
  preparing : ∀ a, a ∈ w.state.preparing ↔ ∃ i, a ∈ (w.sends i).caller.leased
  guarded : ∀ a, a ∈ w.state.guarded ↔ ∃ i, a ∈ heldBy (w.sends i).task
  leases : ∀ a i j, a ∈ (w.sends i).caller.leased → a ∈ (w.sends j).caller.leased → i = j
  guards : ∀ a i j, a ∈ heldBy (w.sends i).task → a ∈ heldBy (w.sends j).task → i = j
  apart : ∀ a i j, a ∈ (w.sends i).caller.leased → a ∉ heldBy (w.sends j).task

/-- One send acts: what it held before leaves the sets, and what it holds now is put in. What
is new was held by nobody. -/
structure Hands (s : SourceState) (send : Send) (s' : SourceState) (send' : Send) : Prop where
  preparing : ∀ a, a ∈ s'.preparing ↔ a ∈ send'.caller.leased ∨ a ∈ s.preparing ∧ a ∉ send.caller.leased
  guarded : ∀ a, a ∈ s'.guarded ↔ a ∈ heldBy send'.task ∨ a ∈ s.guarded ∧ a ∉ heldBy send.task
  fresh : ∀ a, a ∈ send'.caller.leased ∨ a ∈ heldBy send'.task →
    (a ∈ send.caller.leased ∨ a ∈ heldBy send.task) ∨ a ∉ s.preparing ∧ a ∉ s.guarded
  apart : ∀ a, a ∈ send'.caller.leased → a ∉ heldBy send'.task

namespace World

variable {w : World} {i : Nat} {s' : SourceState} {send' : Send} {trace : List Trace}

theorem Exclusive.mine (h : w.Exclusive) (hands : Hands w.state (w.sends i) s' send') {a : Address} {j : Nat}
    (ha : a ∈ send'.caller.leased ∨ a ∈ heldBy send'.task) (hj : j ≠ i) :
    a ∉ (w.sends j).caller.leased ∧ a ∉ heldBy (w.sends j).task := by
  rcases hands.fresh a ha with (hmine | hmine) | ⟨hprep, hguard⟩
  · exact ⟨fun h' => hj (h.leases a j i h' hmine), h.apart a i j hmine⟩
  · exact ⟨fun h' => h.apart a j i h' hmine, fun h' => hj (h.guards a j i h' hmine)⟩
  · exact ⟨fun h' => hprep ((h.preparing a).mpr ⟨j, h'⟩), fun h' => hguard ((h.guarded a).mpr ⟨j, h'⟩)⟩

/-! One holder of many changes what it holds, and the others keep what they have. -/

section Holders

variable {held held' : Nat → Prop}

theorem holders_update (hother : ∀ j, j ≠ i → (held' j ↔ held j)) (hunique : ∀ j k, held j → held k → j = k) :
    (held' i ∨ (∃ j, held j) ∧ ¬ held i) ↔ ∃ j, held' j := by
  constructor
  · rintro (hself | ⟨⟨j, hj⟩, hnot⟩)
    · exact ⟨i, hself⟩
    · have hne : j ≠ i := by
        rintro rfl
        exact hnot hj
      exact ⟨j, (hother j hne).mpr hj⟩
  · rintro ⟨j, hj⟩
    by_cases hne : j = i
    · subst hne
      exact .inl hj
    · have hold := (hother j hne).mp hj
      exact .inr ⟨⟨j, hold⟩, fun hself => hne (hunique j i hold hself)⟩

theorem holder_unique_update (hother : ∀ j, j ≠ i → (held' j ↔ held j))
    (hunique : ∀ j k, held j → held k → j = k) (hmine : held' i → ∀ j, j ≠ i → ¬ held j) {j k : Nat}
    (hj : held' j) (hk : held' k) : j = k := by
  by_cases hji : j = i <;> by_cases hki : k = i
  · rw [hji, hki]
  · subst hji
    exact absurd ((hother k hki).mp hk) (hmine hj k hki)
  · subst hki
    exact absurd ((hother j hji).mp hj) (hmine hk j hji)
  · exact hunique j k ((hother j hji).mp hj) ((hother k hki).mp hk)

end Holders

theorem Exclusive.act (h : w.Exclusive) (hands : Hands w.state (w.sends i) s' send') :
    (w.act i s' send' trace).Exclusive := by
  have hself : (w.act i s' send' trace).sends i = send' := Function.update_self ..
  have hother : ∀ j, j ≠ i → (w.act i s' send' trace).sends j = w.sends j := fun j hj =>
    Function.update_of_ne hj ..
  have hleased : ∀ a j, j ≠ i → (a ∈ ((w.act i s' send' trace).sends j).caller.leased ↔
      a ∈ (w.sends j).caller.leased) := by
    intro a j hj
    rw [hother j hj]
  have hheld : ∀ a j, j ≠ i → (a ∈ heldBy ((w.act i s' send' trace).sends j).task ↔
      a ∈ heldBy (w.sends j).task) := by
    intro a j hj
    rw [hother j hj]
  refine ⟨fun a => ?_, fun a => ?_, fun a j k hj hk => ?_, fun a j k hj hk => ?_, fun a j k hj hk => ?_⟩
  · change a ∈ s'.preparing ↔ _
    rw [← holders_update (hleased a) (h.leases a), hself, hands.preparing, h.preparing]
  · change a ∈ s'.guarded ↔ _
    rw [← holders_update (hheld a) (h.guards a), hself, hands.guarded, h.guarded]
  · refine holder_unique_update (hleased a) (h.leases a) ?_ hj hk
    rw [hself]
    exact fun hmine j hj => (h.mine hands (.inl hmine) hj).1
  · refine holder_unique_update (hheld a) (h.guards a) ?_ hj hk
    rw [hself]
    exact fun hmine j hj => (h.mine hands (.inr hmine) hj).2
  · -- One holds the lease and another the guard.
    by_cases hji : j = i <;> by_cases hki : k = i
    · subst hji
      subst hki
      rw [hself] at hj hk
      exact hands.apart a hj hk
    · subst hji
      rw [hself] at hj
      exact (h.mine hands (.inl hj) hki).2 ((hheld a k hki).mp hk)
    · subst hki
      rw [hself] at hk
      exact (h.mine hands (.inr hk) hji).1 ((hleased a j hji).mp hj)
    · exact h.apart a j k ((hleased a j hji).mp hj) ((hheld a k hki).mp hk)

end World

/-! ## What a step may do with the sets -/

section Hands

variable {w : World} {i : Nat} {send' : Send}

theorem Hands.keep (h : w.Exclusive) (hleased : send'.caller.leased = (w.sends i).caller.leased)
    (hheld : heldBy send'.task = heldBy (w.sends i).task) : Hands w.state (w.sends i) w.state send' := by
  refine ⟨fun a => ?_, fun a => ?_, fun a ha => ?_, fun a => ?_⟩
  · have hsub : a ∈ (w.sends i).caller.leased → a ∈ w.state.preparing := fun ha => (h.preparing a).mpr ⟨i, ha⟩
    rw [hleased]
    tauto
  · have hsub : a ∈ heldBy (w.sends i).task → a ∈ w.state.guarded := fun ha => (h.guarded a).mpr ⟨i, ha⟩
    rw [hheld]
    tauto
  · rw [hleased, hheld] at ha
    exact .inl ha
  · rw [hleased, hheld]
    exact h.apart a i i

theorem Hands.take (h : w.Exclusive) {sources : Finset Address} (hnone : (w.sends i).caller.leased = ∅)
    (hleased : send'.caller.leased = sources) (hheld : heldBy send'.task = heldBy (w.sends i).task)
    (hprep : Disjoint sources w.state.preparing) (hguard : Disjoint sources w.state.guarded) :
    Hands w.state (w.sends i) { w.state with preparing := w.state.preparing ∪ sources } send' := by
  refine ⟨fun a => ?_, fun a => ?_, fun a ha => ?_, fun a ha => ?_⟩
  · rw [hleased, hnone, Finset.mem_union]
    simp [or_comm]
  · have hsub : a ∈ heldBy (w.sends i).task → a ∈ w.state.guarded := fun ha => (h.guarded a).mpr ⟨i, ha⟩
    rw [hheld]
    change a ∈ w.state.guarded ↔ _
    tauto
  · rw [hleased, hheld] at ha
    rcases ha with ha | ha
    · exact .inr ⟨Finset.disjoint_left.mp hprep ha, Finset.disjoint_left.mp hguard ha⟩
    · exact .inl (.inr ha)
  · rw [hleased] at ha
    rw [hheld]
    exact fun h' => Finset.disjoint_left.mp hguard ha ((h.guarded a).mpr ⟨i, h'⟩)

theorem Hands.drop (h : w.Exclusive) {sources : Finset Address} (hsources : (w.sends i).caller.leased = sources)
    (hleased : send'.caller.leased = ∅) (hheld : heldBy send'.task = heldBy (w.sends i).task) :
    Hands w.state (w.sends i) (w.state.dropLeases sources) send' := by
  refine ⟨fun a => ?_, fun a => ?_, fun a ha => ?_, fun a ha => ?_⟩
  · rw [hleased, hsources]
    change a ∈ w.state.preparing \ sources ↔ _
    rw [Finset.mem_sdiff]
    simp
  · have hsub : a ∈ heldBy (w.sends i).task → a ∈ w.state.guarded := fun ha => (h.guarded a).mpr ⟨i, ha⟩
    rw [hheld]
    change a ∈ w.state.guarded ↔ _
    tauto
  · rw [hleased, hheld] at ha
    rcases ha with ha | ha
    · simp at ha
    · exact .inl (.inr ha)
  · rw [hleased] at ha
    simp at ha

theorem Hands.guard {sources : Finset Address} (hsources : (w.sends i).caller.leased = sources)
    (hnone : (w.sends i).task = none) (hleased : send'.caller.leased = ∅) (hheld : heldBy send'.task = sources) :
    Hands w.state (w.sends i) (w.state.guard sources) send' := by
  refine ⟨fun a => ?_, fun a => ?_, fun a ha => ?_, fun a ha => ?_⟩
  · rw [hleased, hsources]
    change a ∈ w.state.preparing \ sources ↔ _
    rw [Finset.mem_sdiff]
    simp
  · rw [hheld, hnone]
    change a ∈ w.state.guarded ∪ sources ↔ _
    rw [Finset.mem_union]
    simp [heldBy, or_comm]
  · rw [hleased, hheld] at ha
    rw [hsources]
    rcases ha with ha | ha
    · simp at ha
    · exact .inl (.inl ha)
  · rw [hleased] at ha
    simp at ha

theorem Hands.shrink (h : w.Exclusive) {s' : SourceState} (hleased : send'.caller.leased = (w.sends i).caller.leased)
    (hprep : s'.preparing = w.state.preparing)
    (hguard : ∀ a, a ∈ s'.guarded ↔ a ∈ heldBy send'.task ∨ a ∈ w.state.guarded ∧ a ∉ heldBy (w.sends i).task)
    (hsub : ∀ a, a ∈ heldBy send'.task → a ∈ heldBy (w.sends i).task) :
    Hands w.state (w.sends i) s' send' := by
  refine ⟨fun a => ?_, hguard, fun a ha => ?_, fun a ha => ?_⟩
  · have hmine : a ∈ (w.sends i).caller.leased → a ∈ w.state.preparing := fun ha => (h.preparing a).mpr ⟨i, ha⟩
    rw [hleased, hprep]
    tauto
  · rw [hleased] at ha
    exact .inl (ha.imp_right (hsub a))
  · rw [hleased] at ha
    exact fun h' => h.apart a i i ha (hsub a h')

end Hands

/-! ## Envelopes are of leased sources -/

/-- The leases cover the sources of these transfers. -/
def Covers (leases : Finset Address) (transfers : List ResolvedTransfer) : Prop :=
  ∀ t ∈ transfers, t.source ∈ leases

/-- Every envelope's source is leased. -/
def CoversAll (leases : Finset Address) (envelopes : List Envelope) : Prop := ∀ e ∈ envelopes, e.source ∈ leases

def Acquire.Ok : Acquire → Prop
  | leasing _ | failing _ _ => True
  | health a | opening a | accounts a _ | closing a _ => Covers a.leases a.transfers

def Prepare.Ok : Prepare → Prop
  | lifetime acquired => Covers acquired.leases acquired.transfers
  | fees p _ => Covers p.acquired.leases p.acquired.transfers
  | simulating p envelopes _ => CoversAll p.acquired.leases envelopes
  | failing _ _ => True

theorem covers_sourcesOf (transfers : List ResolvedTransfer) :
    Covers (SourceState.sourcesOf transfers) transfers := by
  intro t ht
  rw [SourceState.sourcesOf, List.mem_toFinset]
  exact List.mem_map_of_mem ht

theorem dropLeases_empty (s : SourceState) : s.dropLeases ∅ = s := by
  rw [SourceState.dropLeases, Finset.sdiff_empty]

section Machines

variable {crates : Crates} {reply : Reply} {s : SourceState} {keys : List (Address × Key)}

theorem Acquire.plan_ok {transfers : List ResolvedTransfer} {leases : Finset Address} {a : Acquiring}
    (h : Acquire.plan crates reply transfers leases = .ok a) : a.transfers = transfers ∧ a.leases = leases := by
  simp only [Acquire.plan, bind, Except.bind, pure, Except.pure] at h
  repeat' split at h
  all_goals cases h
  exact ⟨rfl, rfl⟩

theorem Acquire.finish_ok {a : Acquiring} {context : Context (List (Option AccountSnapshot))}
    {acquired : AcquiredAccounts} (h : Acquire.finish reply a context = .ok acquired) :
    acquired.transfers = a.transfers ∧ acquired.leases = a.leases := by
  simp only [Acquire.finish, bind, Except.bind, pure, Except.pure] at h
  repeat' split at h
  all_goals cases h
  exact ⟨rfl, rfl⟩

/-- What one poll of an acquisition does with the sources. -/
inductive Acquire.Polls (s : SourceState) (task : Acquire) :
    Progress SourceState Trace Acquire (Except SendError AcquiredAccounts) → Prop
  | stays {task' : Acquire} {trace : List Trace} (ok : task'.Ok) (leases : task'.leases = task.leases) :
    Polls s task ⟨s, trace, .inl task'⟩
  | takes {task' : Acquire} {trace : List Trace} (ok : task'.Ok) (none : task.leases = ∅)
    (preparing : Disjoint task'.leases s.preparing) (guarded : Disjoint task'.leases s.guarded) :
    Polls s task ⟨{ s with preparing := s.preparing ∪ task'.leases }, trace, .inl task'⟩
  | fails {error : SendError} {trace : List Trace} : Polls s task ⟨s.dropLeases task.leases, trace, .inr (.error error)⟩
  | acquires {acquired : AcquiredAccounts} {trace : List Trace} (leases : acquired.leases = task.leases)
    (covered : Covers acquired.leases acquired.transfers) : Polls s task ⟨s, trace, .inr (.ok acquired)⟩

theorem Acquire.polls_follow {α : Type} {task : Acquire} {leases : Finset Address} (hleases : task.leases = leases)
    (result : Except SendError α) {next : α → Acquire} (hnext : ∀ a, (next a).Ok ∧ (next a).leases = leases) :
    Acquire.Polls s task (Acquire.follow s leases result next) := by
  cases result with
  | error error => exact .stays trivial hleases.symm
  | ok value => exact .stays (hnext value).1 ((hnext value).2.trans hleases.symm)

theorem Acquire.polls (task : Acquire) (hok : task.Ok) : Acquire.Polls s task (task.poll crates s reply) := by
  cases task with
  | leasing transfers =>
    have hfails : ∀ error, Acquire.Polls s (.leasing transfers) ⟨s, [], .inr (.error error)⟩ := by
      intro error
      have hfails : Acquire.Polls s (.leasing transfers)
          ⟨s.dropLeases (Acquire.leasing transfers).leases, [], .inr (.error error)⟩ := .fails
      rwa [Acquire.leases, dropLeases_empty] at hfails
    rw [Acquire.poll]
    split
    · exact hfails _
    · cases hlease : s.lease transfers (1 < transfers.length) with
      | error error => exact hfails _
      | ok p =>
        obtain ⟨leases, s'⟩ := p
        obtain ⟨hsources, rfl, hprep, hguard⟩ := SourceState.lease_ok hlease
        have htakes : ∀ task' : Acquire, task'.Ok → task'.leases = leases →
            Acquire.Polls s (.leasing transfers)
              ⟨{ s with preparing := s.preparing ∪ leases }, [], .inl task'⟩ := by
          rintro task' hok rfl
          exact .takes hok rfl hprep hguard
        cases hplan : Acquire.plan crates reply transfers leases with
        | error error =>
          simp only [hplan]
          exact htakes (.failing leases error) trivial rfl
        | ok a =>
          obtain ⟨htransfers, hleases⟩ := Acquire.plan_ok hplan
          simp only [hplan]
          refine htakes (.health a) ?_ hleases
          rw [Acquire.Ok, htransfers, hleases, hsources]
          exact covers_sourcesOf transfers
  | health a => exact Acquire.polls_follow rfl _ fun _ => ⟨hok, rfl⟩
  | opening a => exact Acquire.polls_follow rfl _ fun _ => ⟨hok, rfl⟩
  | accounts a slot => exact Acquire.polls_follow rfl _ fun _ => ⟨hok, rfl⟩
  | closing a context =>
    rw [Acquire.poll]
    cases hfinish : Acquire.finish reply a context with
    | error error => exact .stays trivial rfl
    | ok acquired =>
      obtain ⟨htransfers, hleases⟩ := Acquire.finish_ok hfinish
      refine .acquires hleases ?_
      rw [htransfers, hleases]
      exact hok
  | failing leases error => exact .fails

theorem Envelope.source_of_sign {source : Address} {index : Nat} {message : Message} {floor : UInt64}
    {lifetime : Lifetime} {key : Key} {e : Envelope}
    (h : Envelope.sign crates source index message floor lifetime key = some e) : e.source = source := by
  simp only [Envelope.sign, Option.bind_eq_bind, Option.bind_eq_some_iff] at h
  obtain ⟨_, _, _, _, _, _, _, _, _, _, _, _, h⟩ := h
  cases h
  rfl

theorem source_of_envelopesFrom {floor : UInt64} {lifetime : Lifetime} {ids : List Id} {values : List (List UInt8)}
    {drafts : List (ResolvedTransfer × (Message × List UInt8))} {envelopes : List Envelope}
    (h : envelopesFrom crates reply keys floor lifetime ids values drafts = .ok envelopes) :
    ∀ e ∈ envelopes, ∃ d ∈ drafts, e.source = d.1.source := by
  induction drafts generalizing ids values envelopes with
  | nil =>
    cases h
    simp
  | cons d rest ih =>
    obtain ⟨t, message, bytes⟩ := d
    simp only [envelopesFrom, bind, Except.bind, pure, Except.pure] at h
    split at h
    · cases h
    · cases hkey : keys.lookup t.source with
      | none =>
        rw [hkey] at h
        cases h
      | some key =>
        rw [hkey] at h
        dsimp only at h
        cases hsign : Envelope.sign crates t.source t.index message floor lifetime key with
        | none =>
          rw [hsign] at h
          cases h
        | some envelope =>
          rw [hsign] at h
          dsimp only at h
          split at h
          · cases h
          · split at h
            · cases h
            · rename_i envelopes' hrest
              cases h
              intro e he
              rcases List.mem_cons.mp he with rfl | he
              · exact ⟨_, List.mem_cons_self, Envelope.source_of_sign hsign⟩
              · obtain ⟨d, hd, hsource⟩ := ih hrest e he
                exact ⟨d, List.mem_cons_of_mem _ hd, hsource⟩

/-- What one poll of a preparation does with the sources. -/
inductive Prepare.Polls (s : SourceState) (task : Prepare) :
    Progress SourceState Trace Prepare (Except SendError PreparedBatch) → Prop
  | stays {task' : Prepare} {trace : List Trace} (ok : task'.Ok) (leases : task'.leases = task.leases) :
    Polls s task ⟨s, trace, .inl task'⟩
  | fails {error : SendError} {trace : List Trace} : Polls s task ⟨s.dropLeases task.leases, trace, .inr (.error error)⟩
  | prepares {batch : PreparedBatch} {trace : List Trace} (leases : batch.leases = task.leases)
    (covered : CoversAll batch.leases batch.envelopes) : Polls s task ⟨s, trace, .inr (.ok batch)⟩

theorem Prepare.polls_simulateNext {task : Prepare} {p : Preparing} {envelopes : List Envelope}
    (hleases : p.acquired.leases = task.leases) (hcovered : CoversAll p.acquired.leases envelopes) (position : Nat) :
    Prepare.Polls s task (Prepare.onward s (Prepare.simulateNext reply p envelopes position)) := by
  unfold Prepare.simulateNext
  split
  · exact .stays trivial hleases
  · split
    · exact .stays hcovered hleases
    · exact .prepares hleases hcovered

theorem Prepare.polls_feeNext {task : Prepare} {p : Preparing} (hleases : p.acquired.leases = task.leases)
    (hcovered : Covers p.acquired.leases p.acquired.transfers) (quoted : List UInt64) :
    Prepare.Polls s task (Prepare.onward s (Prepare.feeNext crates keys reply p quoted)) := by
  unfold Prepare.feeNext
  split
  · split
    · exact .stays trivial hleases
    · exact .stays hcovered hleases
  · split
    · exact .stays trivial hleases
    · rename_i envelopes hsigned
      refine Prepare.polls_simulateNext hleases ?_ 0
      simp only [Prepare.signAll, bind, Except.bind] at hsigned
      split at hsigned
      · cases hsigned
      · intro e he
        obtain ⟨d, hd, hsource⟩ := source_of_envelopesFrom hsigned e he
        rw [hsource]
        exact hcovered d.1 (List.of_mem_zip hd).1

theorem Prepare.polls (task : Prepare) (hok : task.Ok) : Prepare.Polls s task (task.poll crates keys s reply) := by
  cases task with
  | lifetime acquired =>
    rw [Prepare.poll]
    split
    · exact .stays trivial rfl
    · split
      · exact .stays trivial rfl
      · refine Prepare.polls_feeNext ?_ ?_ []
        · rfl
        · exact hok
  | fees p quoted =>
    rw [Prepare.poll]
    split
    · exact .stays trivial rfl
    · refine Prepare.polls_feeNext ?_ ?_ _
      · rfl
      · exact hok
  | simulating p envelopes position =>
    rw [Prepare.poll]
    split
    · exact .stays trivial rfl
    · refine Prepare.polls_simulateNext ?_ ?_ _
      · rfl
      · exact hok
  | failing leases error => exact .fails

/-! ## What a task says -/

/-- The envelope that the task has sent and not settled. -/
def Task.current : Task → Option Envelope
  | sending r _ | status r _ | expiry r _ => some r.envelope
  | resolving envelope _ => some envelope
  | dormant _ _ _ | height _ => none

def Task.Ok : Task → Prop
  | dormant _ envelopes guarded => CoversAll guarded envelopes
  | height r | sending r _ | status r _ | expiry r _ => CoversAll r.guarded (r.envelope :: r.rest)
  | resolving _ _ => True

/-- Neither a send, nor the end of one. -/
def Trace.Silent : Trace → Prop
  | sent _ | observed _ | resolved _ _ => False
  | height _ | activated | reported _ | returned _ => True

/-- The envelope was accepted, or found present or absent. -/
def Trace.Settles (e : Envelope) : Trace → Prop
  | observed e' | resolved e' _ => e' = e
  | sent _ | height _ | activated | reported _ | returned _ => False

/-- What a step of a send says, by the envelope that is out before it and after it. -/
inductive Talk : Option Envelope → List Trace → Option Envelope → Prop
  | quiet {c : Option Envelope} {trace : List Trace} (silent : ∀ x ∈ trace, x.Silent) : Talk c trace c
  | sends {c : Option Envelope} {trace : List Trace} {e : Envelope} (silent : ∀ x ∈ trace, x.Silent)
    (same : ∀ e' ∈ c, e' = e) : Talk c (trace ++ [.sent e]) (some e)
  | settles {x : Trace} {trace : List Trace} {e : Envelope} (settled : x.Settles e)
    (silent : ∀ x ∈ trace, x.Silent) : Talk (some e) (x :: trace) none

/-- What one poll of a task does. -/
structure Task.Polls (s : SourceState) (task : Task) (ran : Ran) : Prop where
  ok : ∀ t ∈ ran.task, t.Ok
  preparing : ran.state.preparing = s.preparing
  guarded : (∀ a ∈ task.held, a ∈ s.guarded) →
    ∀ a, a ∈ ran.state.guarded ↔ a ∈ heldBy ran.task ∨ a ∈ s.guarded ∧ a ∉ task.held
  held : ∀ a ∈ heldBy ran.task, a ∈ task.held
  talk : Talk task.current ran.trace (ran.task.bind (·.current))

theorem Task.polls_complete {task : Task} {guarded : Finset Address} (hheld : task.held = guarded)
    (result : Except SendError (List Id)) {trace : List Trace}
    (htalk : Talk task.current (trace ++ [.reported result]) none) :
    Task.Polls s task (Task.complete s guarded result trace) := by
  refine ⟨fun t ht => ?_, rfl, fun _ a => ?_, fun a ha => ?_, htalk⟩
  · cases ht
  · rw [hheld]
    change a ∈ s.guarded \ guarded ↔ _
    rw [Finset.mem_sdiff]
    simp [Task.complete, heldBy]
  · simp [Task.complete, heldBy] at ha

theorem Task.polls_same {task task' : Task} {trace : List Trace} (hok : task'.Ok) (hheld : task'.held = task.held)
    (htalk : Talk task.current trace task'.current) : Task.Polls s task ⟨s, some task', trace⟩ := by
  refine ⟨fun t ht => ?_, rfl, fun hsub a => ?_, fun a ha => ?_, htalk⟩
  · cases ht
    exact hok
  · have := hsub a
    simp only [heldBy, hheld]
    tauto
  · simpa only [heldBy, hheld] using ha

theorem Task.polls_ambiguous {task : Task} {r : Running} (hheld : task.held = r.guarded)
    (hcurrent : task.current = some r.envelope) (hok : r.envelope.source ∈ r.guarded) {trace : List Trace}
    (hsilent : ∀ x ∈ trace, x.Silent) : Task.Polls s task (Task.ambiguous s r trace) := by
  refine ⟨fun t ht => ?_, rfl, fun hsub a => ?_, fun a ha => ?_, ?_⟩
  · cases ht
    trivial
  · rw [hheld] at hsub ⊢
    change a ∈ s.guarded \ r.guarded.erase r.envelope.source ↔ a ∈ ({r.envelope.source} : Finset Address) ∨ _
    rw [Finset.mem_sdiff, Finset.mem_erase, Finset.mem_singleton]
    by_cases ha : a = r.envelope.source
    · subst ha
      simp [hsub _ hok]
    · simp [ha]
  · rw [hheld]
    obtain rfl : a = r.envelope.source := Finset.mem_singleton.mp ha
    exact hok
  · rw [hcurrent]
    refine .quiet fun x hx => ?_
    rcases List.mem_append.mp hx with hx | hx
    · exact hsilent x hx
    · obtain rfl := List.mem_singleton.mp hx
      trivial

theorem Talk.report {c : Option Envelope} (result : Except SendError (List Id)) : Talk c [.reported result] c :=
  .quiet fun x hx => by
    obtain rfl := List.mem_singleton.mp hx
    trivial

theorem Task.polls_accept {task : Task} {r : Running} (hheld : task.held = r.guarded)
    (hcurrent : task.current = some r.envelope) (hok : CoversAll r.guarded (r.envelope :: r.rest)) :
    Task.Polls s task (Task.accept s r) := by
  unfold Task.accept
  dsimp only
  split
  · refine Task.polls_complete hheld _ ?_
    rw [hcurrent]
    refine .settles rfl fun x hx => ?_
    obtain rfl := List.mem_singleton.mp hx
    trivial
  · rename_i next rest hrest
    refine Task.polls_same ?_ hheld.symm ?_
    · rw [hrest] at hok
      exact fun e he => hok e (List.mem_cons_of_mem _ he)
    · rw [hcurrent]
      exact .settles rfl (by simp)

theorem Task.polls_dispatch {task : Task} {r : Running} (hheld : task.held = r.guarded)
    (hcurrent : ∀ e ∈ task.current, e = r.envelope) (hok : CoversAll r.guarded (r.envelope :: r.rest)) (attempt : Nat)
    {trace : List Trace} (hsilent : ∀ x ∈ trace, x.Silent) : Task.Polls s task (Task.dispatch s r attempt trace) :=
  Task.polls_same hok hheld.symm (.sends hsilent hcurrent)

theorem silent_height (value : UInt64) : ∀ x ∈ [Trace.height value], x.Silent := by
  intro x hx
  obtain rfl := List.mem_singleton.mp hx
  trivial

theorem silent_nil : ∀ x ∈ ([] : List Trace), x.Silent := by simp

theorem Task.polls (task : Task) (hok : task.Ok) : Task.Polls s task (task.poll crates s reply) := by
  cases task with
  | dormant floor envelopes guarded =>
    cases envelopes with
    | nil => exact Task.polls_complete rfl _ (Talk.report _)
    | cons first rest =>
      have hcovers : CoversAll guarded (first :: rest) := hok
      change Task.Polls s _ (Task.dispatch s ⟨floor, guarded, [], first, rest⟩ 0 [])
      exact Task.polls_dispatch rfl (by simp [Task.current]) hcovers 0 silent_nil
  | height r =>
    rw [Task.poll]
    split
    · exact Task.polls_complete rfl _ (Talk.report _)
    · rename_i value _
      split
      · refine Task.polls_complete rfl _ (.quiet fun x hx => ?_)
        rcases List.mem_append.mp hx with hx | hx
        · exact silent_height value x hx
        · obtain rfl := List.mem_singleton.mp hx
          trivial
      · exact Task.polls_dispatch rfl (by simp [Task.current]) hok 0 (silent_height value)
  | sending r attempt =>
    rw [Task.poll]
    split
    · exact Task.polls_accept rfl rfl hok
    · exact Task.polls_same hok rfl (.quiet silent_nil)
  | status r attempt =>
    have hsource : r.envelope.source ∈ r.guarded := hok r.envelope List.mem_cons_self
    rw [Task.poll]
    split
    · exact Task.polls_accept rfl rfl hok
    · split
      · exact Task.polls_same hok rfl (.quiet silent_nil)
      · exact Task.polls_ambiguous rfl rfl hsource silent_nil
    · exact Task.polls_ambiguous rfl rfl hsource silent_nil
  | expiry r attempt =>
    have hsource : r.envelope.source ∈ r.guarded := hok r.envelope List.mem_cons_self
    rw [Task.poll]
    split
    · exact Task.polls_ambiguous rfl rfl hsource silent_nil
    · rename_i value _
      split
      · exact Task.polls_dispatch rfl (by simp [Task.current]) hok _ (silent_height value)
      · exact Task.polls_ambiguous rfl rfl hsource (silent_height value)
  | resolving envelope task =>
    have hreleases : ∀ x : Trace, x.Settles envelope →
        Task.Polls s (.resolving envelope task) ⟨s.releaseGuard envelope.source, none, [x]⟩ := by
      intro x hx
      refine ⟨fun t ht => ?_, rfl, fun _ a => ?_, fun a ha => ?_, .settles hx silent_nil⟩
      · cases ht
      · change a ∈ s.guarded.erase envelope.source ↔ _ ∨ a ∈ s.guarded ∧ a ∉ ({envelope.source} : Finset Address)
        rw [Finset.mem_erase, Finset.mem_singleton]
        simp [heldBy, and_comm]
      · simp [heldBy] at ha
    have hgoes : ∀ task' : Resolve,
        Task.Polls s (.resolving envelope task) ⟨s, some (.resolving envelope task'), []⟩ :=
      fun task' => Task.polls_same trivial rfl (.quiet silent_nil)
    cases task with
    | waiting => exact hgoes _
    | inspecting task =>
      rw [Task.poll, Resolve.poll]
      cases task.poll envelope reply with
      | inl task' => exact hgoes _
      | inr evidence =>
        cases evidence with
        | present => exact hreleases _ rfl
        | absent => exact hreleases _ rfl
        | retry c => exact hgoes _

end Machines

/-! ## Steps of the world -/

/-- The caller has not made its task yet. -/
def Caller.Early : Caller → Prop
  | .submitting .registering | .submitting .waiting | .ended => False
  | .fresh | .acquiring _ _ | .preparing _ _ | .submitting (.height _ _) | .submitting (.failing _ _) => True

def Caller.Ok : Caller → Prop
  | .acquiring _ task => task.Ok
  | .preparing _ task => task.Ok
  | .submitting (.height batch _) => CoversAll batch.leases batch.envelopes
  | .fresh | .ended | .submitting .registering | .submitting .waiting | .submitting (.failing _ _) => True

/-- What a send's stages allow it to hold. -/
structure Send.Ok (x : Send) : Prop where
  early : x.caller.Early → x.task = none
  caller : x.caller.Ok
  task : ∀ t ∈ x.task, t.Ok

def Send.current (x : Send) : Option Envelope := x.task.bind (·.current)

/-- What one send does in one step. -/
structure Move (w : World) (i : Nat) (s' : SourceState) (send' : Send) (trace : List Trace) : Prop where
  hands : Hands w.state (w.sends i) s' send'
  ok : send'.Ok
  talk : Talk (w.sends i).current trace send'.current

/-- A step leaves the world alone, or moves one send. -/
inductive Stepped (w : World) : World → Prop
  | stays : Stepped w w
  | moves {i : Nat} {s' : SourceState} {send' : Send} {trace : List Trace} (move : Move w i s' send' trace) :
    Stepped w (w.act i s' send' trace)

namespace World

variable {crates : Crates} {w : World} {i : Nat} {reply : Reply}

theorem moves_caller {s' : SourceState} {send' : Send} {trace : List Trace} (hok : (w.sends i).Ok)
    (hands : Hands w.state (w.sends i) s' send') (htask : send'.task = (w.sends i).task)
    (hearly : send'.caller.Early → (w.sends i).caller.Early) (hcaller : send'.caller.Ok)
    (hsilent : ∀ x ∈ trace, x.Silent) : Stepped w (w.act i s' send' trace) := by
  refine .moves ⟨hands, ⟨fun h => ?_, hcaller, ?_⟩, ?_⟩
  · rw [htask]
    exact hok.early (hearly h)
  · rw [htask]
    exact hok.task
  · have hcurrent : send'.current = (w.sends i).current := by rw [Send.current, htask, Send.current]
    rw [hcurrent]
    exact .quiet hsilent

theorem stepped_finish {sources : Finset Address} (h : w.Exclusive) (hok : (w.sends i).Ok)
    (hsources : (w.sends i).caller.leased = sources) (result : Except SendError (List Id)) :
    Stepped w (w.finish i (w.state.dropLeases sources) result) := by
  refine moves_caller hok (.drop h hsources rfl rfl) rfl (fun hearly => hearly.elim) trivial ?_
  intro x hx
  obtain rfl := List.mem_singleton.mp hx
  trivial

theorem stepped_over (h : w.Exclusive) (hok : (w.sends i).Ok) (hnone : (w.sends i).caller.leased = ∅)
    (result : Except SendError (List Id)) : Stepped w (w.finish i w.state result) := by
  have hfinish := stepped_finish h hok hnone result
  rwa [dropLeases_empty] at hfinish

theorem silent_of_eq {x y : Trace} (hy : y.Silent) (hx : x ∈ [y]) : x.Silent := by
  rwa [List.mem_singleton.mp hx]

theorem stepped_pollSubmit (h : w.Exclusive) (hok : (w.sends i).Ok) (task : Submit)
    (hcaller : (w.sends i).caller = .submitting task) : Stepped w (w.pollSubmit i reply task) := by
  cases task with
  | height batch first =>
    have hleased : (w.sends i).caller.leased = batch.leases := by rw [hcaller]; rfl
    have hearly : (w.sends i).caller.Early := by rw [hcaller]; trivial
    have hcovered : CoversAll batch.leases batch.envelopes := by have := hok.caller; rwa [hcaller] at this
    have hfailing : ∀ error trace, (∀ x ∈ trace, x.Silent) →
        Stepped w (w.act i w.state
          { w.sends i with caller := .submitting (.failing batch.leases error) } trace) := fun error trace hsilent =>
      moves_caller hok (.keep h hleased.symm rfl) rfl (fun _ => hearly) trivial hsilent
    rw [World.pollSubmit]
    split
    · exact hfailing _ [] silent_nil
    · split
      · exact hfailing _ [] silent_nil
      · rename_i value _
        split
        · exact hfailing _ _ (silent_height value)
        · have hnone := hok.early hearly
          refine .moves ⟨.guard hleased hnone rfl rfl, ⟨fun hearly => hearly.elim, trivial, fun t ht => ?_⟩, ?_⟩
          · cases ht
            exact hcovered
          · rw [Send.current, hnone]
            exact .quiet (silent_height value)
  | registering =>
    have hleased : (w.sends i).caller.leased = ∅ := by rw [hcaller]; rfl
    have hmoves : ∀ caller activation trace, caller.leased = ∅ → ¬ caller.Early → caller.Ok →
        (∀ x ∈ trace, x.Silent) →
        Stepped w (w.act i w.state { w.sends i with caller, activation } trace) := by
      intro caller activation trace hnone hlate hcaller' hsilent
      exact moves_caller hok (.keep h (hnone.trans hleased.symm) rfl) rfl (fun hearly => absurd hearly hlate)
        hcaller' hsilent
    rw [World.pollSubmit]
    split
    · exact hmoves .ended .dropped _ rfl id trivial fun x => silent_of_eq trivial
    · split
      · exact hmoves (.submitting .waiting) .started _ rfl id trivial fun x => silent_of_eq trivial
      · exact hmoves .ended .dropped _ rfl id trivial fun x => silent_of_eq trivial
  | waiting =>
    have hleased : (w.sends i).caller.leased = ∅ := by rw [hcaller]; rfl
    rw [World.pollSubmit]
    split
    · exact stepped_over h hok hleased _
    · split
      · exact stepped_over h hok hleased _
      · exact stepped_over h hok hleased _
      · exact .stays
  | failing leases error =>
    have hleased : (w.sends i).caller.leased = leases := by rw [hcaller]; rfl
    exact stepped_finish h hok hleased _

theorem stepped_poll (h : w.Exclusive) (hok : (w.sends i).Ok) : Stepped w (w.poll crates i reply) := by
  unfold World.poll
  split
  · exact .stays
  · exact .stays
  · rename_i keys task hcaller
    have hleased : (w.sends i).caller.leased = task.leases := by rw [hcaller]; rfl
    have hearly : (w.sends i).caller.Early := by rw [hcaller]; trivial
    have htask : task.Ok := by have := hok.caller; rwa [hcaller] at this
    have hpolls : Acquire.Polls w.state task (task.poll crates w.state reply) := Acquire.polls task htask
    generalize task.poll crates w.state reply = p at hpolls
    cases hpolls with
    | stays ok leases =>
      exact moves_caller hok (.keep h (leases.trans hleased.symm) rfl) rfl (fun _ => hearly) ok (by simp)
    | takes ok none preparing guarded =>
      exact moves_caller hok (.take h (hleased.trans none) rfl rfl preparing guarded) rfl (fun _ => hearly) ok
        (by simp)
    | fails => exact stepped_finish h hok hleased _
    | acquires leases covered =>
      rename_i acquired _
      have hstart : (Prepare.start reply acquired).Ok ∧ (Prepare.start reply acquired).leases = acquired.leases := by
        unfold Prepare.start
        split
        · exact ⟨trivial, rfl⟩
        · exact ⟨covered, rfl⟩
      refine moves_caller hok (.keep h ?_ rfl) rfl (fun _ => hearly) hstart.1 (by simp)
      exact hstart.2.trans (leases.trans hleased.symm)
  · rename_i keys task hcaller
    have hleased : (w.sends i).caller.leased = task.leases := by rw [hcaller]; rfl
    have hearly : (w.sends i).caller.Early := by rw [hcaller]; trivial
    have htask : task.Ok := by have := hok.caller; rwa [hcaller] at this
    have hpolls : Prepare.Polls w.state task (task.poll crates keys w.state reply) := Prepare.polls task htask
    generalize task.poll crates keys w.state reply = p at hpolls
    cases hpolls with
    | stays ok leases =>
      exact moves_caller hok (.keep h (leases.trans hleased.symm) rfl) rfl (fun _ => hearly) ok (by simp)
    | fails => exact stepped_finish h hok hleased _
    | prepares leases covered =>
      rename_i batch _
      have hstart : (Caller.submitting (Submit.start reply batch)).Ok ∧
          (Caller.submitting (Submit.start reply batch)).leased = batch.leases := by
        unfold Submit.start
        split
        · exact ⟨trivial, rfl⟩
        · split
          · exact ⟨trivial, rfl⟩
          · exact ⟨covered, rfl⟩
      refine moves_caller hok (.keep h ?_ rfl) rfl (fun _ => hearly) hstart.1 (by simp)
      exact hstart.2.trans (leases.trans hleased.symm)
  · rename_i task hcaller
    exact stepped_pollSubmit h hok task hcaller

theorem stepped_drop (h : w.Exclusive) (hok : (w.sends i).Ok) : Stepped w (w.drop i) := by
  have hover : ∀ sources, (w.sends i).caller.leased = sources →
      Stepped w (w.setCaller i (w.state.dropLeases sources) .ended) := fun sources hsources =>
    moves_caller hok (.drop h hsources rfl rfl) rfl (fun hearly => hearly.elim) trivial silent_nil
  unfold World.drop
  split
  · exact .stays
  · exact .stays
  · exact .stays
  · exact .stays
  · exact .stays
  · rename_i hcaller
    exact hover _ (by rw [hcaller]; rfl)
  · rename_i hcaller
    exact hover _ (by rw [hcaller]; rfl)
  · rename_i hcaller
    exact hover _ (by rw [hcaller]; rfl)
  · rename_i hcaller
    have hleased : (w.sends i).caller.leased = ∅ := by rw [hcaller]; rfl
    exact moves_caller hok (.keep h hleased.symm rfl) rfl (fun hearly => hearly.elim) trivial silent_nil
  · rename_i hcaller
    have hleased : (w.sends i).caller.leased = ∅ := by rw [hcaller]; rfl
    exact moves_caller hok (.keep h hleased.symm rfl) rfl (fun hearly => hearly.elim) trivial silent_nil

theorem stepped_dropTask (h : w.Exclusive) (hok : (w.sends i).Ok) : Stepped w (w.dropTask i) := by
  unfold World.dropTask
  split
  · rename_i floor envelopes guarded htask
    split
    · exact .stays
    · have hheld : heldBy (w.sends i).task = guarded := by rw [htask]; rfl
      refine .moves ⟨.shrink h rfl rfl (fun a => ?_) (fun a ha => ?_), ⟨fun _ => rfl, hok.caller, by simp⟩, ?_⟩
      · rw [hheld]
        change a ∈ w.state.guarded \ guarded ↔ _
        rw [Finset.mem_sdiff]
        simp [heldBy]
      · simp [heldBy] at ha
      · rw [Send.current, htask]
        exact .quiet silent_nil
  · exact .stays

theorem stepped_pollTask (h : w.Exclusive) (hok : (w.sends i).Ok) : Stepped w (w.pollTask crates i reply) := by
  unfold World.pollTask
  split
  · exact .stays
  · rename_i task htask
    split
    · exact .stays
    · exact stepped_dropTask h hok
    · have hpolls : Task.Polls w.state task (task.poll crates w.state reply) :=
        Task.polls task (hok.task task (by rw [htask]; rfl))
      have hheld : heldBy (w.sends i).task = task.held := by rw [htask]; rfl
      have hsub : ∀ a ∈ task.held, a ∈ w.state.guarded := fun a ha =>
        (h.guarded a).mpr ⟨i, by rwa [hheld]⟩
      refine .moves ⟨.shrink h rfl hpolls.preparing (fun a => ?_) (fun a ha => ?_), ⟨fun hearly => ?_, hok.caller, hpolls.ok⟩, ?_⟩
      · rw [hheld]
        exact hpolls.guarded hsub a
      · rw [hheld]
        exact hpolls.held a ha
      · have hnone := hok.early hearly
        rw [htask] at hnone
        cases hnone
      · rw [Send.current, htask]
        exact hpolls.talk

theorem stepped (h : w.Exclusive) (hok : ∀ i, (w.sends i).Ok) (event : Event) : Stepped w (w.step crates event) := by
  cases event with
  | send i transfers =>
    rw [World.step]
    split
    · rename_i hcaller
      have hleased : (w.sends i).caller.leased = ∅ := by rw [hcaller]; rfl
      have hearly : (w.sends i).caller.Early := by rw [hcaller]; trivial
      split
      · exact stepped_over h (hok i) hleased _
      · exact moves_caller (hok i) (.keep h hleased.symm rfl) rfl (fun _ => hearly) trivial silent_nil
    · exact .stays
  | poll i reply => exact stepped_poll h (hok i)
  | drop i => exact stepped_drop h (hok i)
  | pollTask i reply => exact stepped_pollTask h (hok i)
  | dropTask i => exact stepped_dropTask h (hok i)

end World

/-! ## Envelopes that are out -/

/-- Send `k` has sent `e`, and has not settled it since. -/
def Pending (log : List (Nat × Trace)) (k : Nat) (e : Envelope) : Prop :=
  ∃ before after, log = before ++ (k, Trace.sent e) :: after ∧ ∀ x ∈ after, x.1 = k → ¬ x.2.Settles e

/-- After an envelope of a source, the next other one is sent when the first is settled. -/
def OneAtATime (log : List (Nat × Trace)) : Prop :=
  ∀ before between after i j e e', log = before ++ (i, Trace.sent e) :: (between ++ (j, Trace.sent e') :: after) →
    e'.source = e.source → e' ≠ e → ∃ x ∈ between, x.1 = i ∧ x.2.Settles e

section Log

variable {log events : List (Nat × Trace)} {i k : Nat} {e e₀ : Envelope}

theorem not_sent_of_silent {trace : List Trace} (h : ∀ x ∈ trace, x.Silent) : (k, .sent e) ∉ trace.map (i, ·) := by
  intro hmem
  obtain ⟨x, hx, heq⟩ := List.mem_map.mp hmem
  have hsilent := h x hx
  rw [(Prod.mk.inj heq).2] at hsilent
  exact hsilent

theorem Pending.of_append (h : Pending (log ++ events) k e) (hout : (k, .sent e) ∉ events) : Pending log k e := by
  obtain ⟨before, after, hlog, hopen⟩ := h
  obtain ⟨rest, rfl, rfl⟩ := split_of_append hlog hout
  exact ⟨before, rest, rfl, fun x hx => hopen x (List.mem_append_left _ hx)⟩

theorem Pending.of_sent (h : Pending (log ++ [(i, .sent e₀)]) k e) : k = i ∧ e = e₀ ∨ Pending log k e := by
  by_cases hnew : (k, Trace.sent e) ∈ [(i, .sent e₀)]
  · have := List.mem_singleton.mp hnew
    simp only [Prod.mk.injEq, Trace.sent.injEq] at this
    exact .inl this
  · exact .inr (h.of_append hnew)

theorem Pending.of_settled {x : Trace} (hx : x.Settles e₀) (h : Pending (log ++ [(i, x)]) k e) :
    Pending log k e ∧ ¬ (k = i ∧ e = e₀) := by
  have hout : (k, .sent e) ∉ [(i, x)] := by
    intro hmem
    have := List.mem_singleton.mp hmem
    simp only [Prod.mk.injEq] at this
    rw [← this.2] at hx
    exact hx
  refine ⟨h.of_append hout, ?_⟩
  rintro ⟨rfl, rfl⟩
  obtain ⟨before, after, hlog, hopen⟩ := h
  obtain ⟨rest, rfl, rfl⟩ := split_of_append hlog hout
  exact hopen (k, x) (by simp) rfl hx

theorem OneAtATime.append (h : OneAtATime log) (hout : ∀ k e, (k, .sent e) ∉ events) : OneAtATime (log ++ events) := by
  intro before between after i j e e' hlog hsource hne
  have hassoc : log ++ events = (before ++ (i, .sent e) :: between) ++ (j, .sent e') :: after := by simp [hlog]
  obtain ⟨rest, hold, -⟩ := split_of_append hassoc (hout j e')
  exact h before between rest i j e e' (by simp [hold]) hsource hne

theorem OneAtATime.sent (h : OneAtATime log)
    (hsame : ∀ k e, Pending log k e → e.source = e₀.source → e = e₀) : OneAtATime (log ++ [(i, .sent e₀)]) := by
  intro before between after k j e e' hlog hsource hne
  rcases List.eq_nil_or_concat after with rfl | ⟨rest, last, rfl⟩
  · -- The second envelope is the new one.
    have hassoc : log ++ [(i, .sent e₀)] = (before ++ (k, .sent e) :: between) ++ [(j, .sent e')] := by simp [hlog]
    obtain ⟨rfl, hlast⟩ := List.append_inj' hassoc rfl
    simp only [List.cons.injEq, Prod.mk.injEq, Trace.sent.injEq, and_true] at hlast
    obtain ⟨rfl, rfl⟩ := hlast
    by_contra hnone
    refine hne (hsame k e ⟨before, between, rfl, fun x hx hk hs => hnone ⟨x, hx, hk, hs⟩⟩ hsource.symm).symm
  · have hassoc : log ++ [(i, .sent e₀)] =
        (before ++ (k, .sent e) :: (between ++ (j, .sent e') :: rest)) ++ [last] := by simp [hlog]
    obtain ⟨rfl, -⟩ := List.append_inj' hassoc rfl
    exact h before between rest k j e e' rfl hsource hne

variable {c c' : Option Envelope} {trace : List Trace}

theorem Talk.pending (h : Talk c trace c') (hout : ∀ e, Pending log i e → c = some e)
    (hp : Pending (log ++ trace.map (i, ·)) k e) : (k = i → c' = some e) ∧ (k ≠ i → Pending log k e) := by
  cases h with
  | quiet silent =>
    have hold := hp.of_append (not_sent_of_silent silent)
    exact ⟨fun hk => hout e (hk ▸ hold), fun _ => hold⟩
  | sends silent same =>
    rename_i e₀ front
    rw [List.map_append, ← List.append_assoc] at hp
    rcases hp.of_sent with ⟨rfl, rfl⟩ | hp
    · exact ⟨fun _ => rfl, fun hk => absurd rfl hk⟩
    · have hold := hp.of_append (not_sent_of_silent silent)
      refine ⟨fun hk => ?_, fun _ => hold⟩
      rw [same e (hout e (hk ▸ hold))]
  | settles settled silent =>
    rename_i x front e₀
    have hassoc : log ++ (x :: front).map (i, ·) = (log ++ [(i, x)]) ++ front.map (i, ·) := by simp
    rw [hassoc] at hp
    obtain ⟨hold, hnot⟩ := Pending.of_settled settled (hp.of_append (not_sent_of_silent silent))
    refine ⟨fun hk => ?_, fun _ => hold⟩
    have := hout e (hk ▸ hold)
    exact absurd ⟨hk, (Option.some.inj this).symm⟩ hnot

theorem Talk.order (h : Talk c trace c') (horder : OneAtATime log) (hout : ∀ e, Pending log i e → c = some e)
    (hothers : ∀ e₀, c' = some e₀ → ∀ k e, k ≠ i → Pending log k e → e.source ≠ e₀.source) :
    OneAtATime (log ++ trace.map (i, ·)) := by
  cases h with
  | quiet silent => exact horder.append fun _ _ => not_sent_of_silent silent
  | sends silent same =>
    rw [List.map_append, ← List.append_assoc]
    refine (horder.append fun _ _ => not_sent_of_silent silent).sent fun k e hp hsource => ?_
    have hold := hp.of_append (not_sent_of_silent silent)
    by_cases hk : k = i
    · exact same e (hout e (hk ▸ hold))
    · exact absurd hsource (hothers _ rfl k e hk hold)
  | settles settled silent =>
    rename_i x front e₀
    refine horder.append fun k e hmem => ?_
    rw [List.map_cons] at hmem
    rcases List.mem_cons.mp hmem with heq | hmem
    · rw [← (Prod.mk.inj heq).2] at settled
      exact settled
    · exact not_sent_of_silent silent hmem

end Log

theorem Task.source_held {task : Task} (hok : task.Ok) {e : Envelope} (h : task.current = some e) :
    e.source ∈ task.held := by
  cases task with
  | dormant floor envelopes guarded => cases h
  | height r => cases h
  | sending r attempt =>
    cases h
    exact hok _ List.mem_cons_self
  | status r attempt =>
    cases h
    exact hok _ List.mem_cons_self
  | expiry r attempt =>
    cases h
    exact hok _ List.mem_cons_self
  | resolving envelope task =>
    cases h
    exact Finset.mem_singleton_self _

theorem Send.source_held {x : Send} (hok : x.Ok) {e : Envelope} (h : x.current = some e) :
    e.source ∈ heldBy x.task := by
  unfold Send.current at h
  cases htask : x.task with
  | none =>
    rw [htask] at h
    cases h
  | some task =>
    rw [htask] at h
    exact Task.source_held (hok.task task htask) h

/-! ## Whole runs -/

namespace World

/-- The invariant behind the exclusion. -/
structure Inv (w : World) : Prop where
  exclusive : w.Exclusive
  ok : ∀ i, (w.sends i).Ok
  out : ∀ k e, Pending w.log k e → (w.sends k).current = some e
  order : OneAtATime w.log

variable {crates : Crates} {w : World} {i : Nat} {s' : SourceState} {send' : Send} {trace : List Trace}

theorem Inv.act (h : w.Inv) (m : Move w i s' send' trace) : (w.act i s' send' trace).Inv := by
  have hself : (w.act i s' send' trace).sends i = send' := Function.update_self ..
  have hother : ∀ k, k ≠ i → (w.act i s' send' trace).sends k = w.sends k := fun k hk =>
    Function.update_of_ne hk ..
  refine ⟨h.exclusive.act m.hands, fun k => ?_, fun k e hp => ?_, ?_⟩
  · by_cases hk : k = i
    · subst hk
      rw [hself]
      exact m.ok
    · rw [hother k hk]
      exact h.ok k
  · obtain ⟨hmine, hothers⟩ := m.talk.pending (h.out i) hp
    by_cases hk : k = i
    · subst hk
      rw [hself]
      exact hmine rfl
    · rw [hother k hk]
      exact h.out k e (hothers hk)
  · refine m.talk.order h.order (h.out i) fun e₀ hcurrent k e hk hp hsource => ?_
    -- Otherwise two sends would hold one source.
    have hheld := Send.source_held m.ok hcurrent
    have hnot := (h.exclusive.mine m.hands (.inr hheld) hk).2
    rw [← hsource] at hnot
    exact hnot (Send.source_held (h.ok k) (h.out k e hp))

theorem Inv.step (h : w.Inv) (event : Event) : (w.step crates event).Inv := by
  have hstepped : Stepped w (w.step crates event) := stepped h.exclusive h.ok event
  generalize w.step crates event = w' at hstepped
  cases hstepped with
  | stays => exact h
  | moves move => exact h.act move

theorem inv_empty : Inv {} := by
  refine ⟨⟨?_, ?_, ?_, ?_, ?_⟩, fun i => ⟨fun _ => rfl, trivial, by simp⟩, ?_, ?_⟩
  · simp [Caller.leased]
  · simp [heldBy]
  · simp [Caller.leased]
  · simp [heldBy]
  · simp [Caller.leased]
  · rintro k e ⟨before, after, hlog, -⟩
    simp at hlog
  · intro before between after i j e e' hlog
    simp at hlog

theorem Inv.steps (h : w.Inv) (events : List Event) : (events.foldl (World.step crates) w).Inv := by
  induction events generalizing w with
  | nil => exact h
  | cons event rest ih => exact ih (h.step event)

theorem inv_run (crates : Crates) (events : List Event) : (run crates events).Inv := inv_empty.steps events

theorem mem_heldBy {a : Address} (w : World) (i : Nat) :
    a ∈ heldBy (w.sends i).task ↔ w.Holds a (.submission i) ∨ w.Holds a (.ambiguous i) := by
  simp only [World.Holds, heldBy]
  generalize (w.sends i).task = task
  cases task with
  | none => simp
  | some task => cases task <;> simp [Task.held, Task.guarded, Task.unresolved, eq_comm]

theorem Exclusive.holder_unique (h : w.Exclusive) {a : Address} {x y : Holder} (hx : w.Holds a x)
    (hy : w.Holds a y) : x = y := by
  have hheld : ∀ i, w.Holds a (.submission i) ∨ w.Holds a (.ambiguous i) → a ∈ heldBy (w.sends i).task := fun i =>
    (mem_heldBy w i).mpr
  have hkind : ∀ i, w.Holds a (.submission i) → ¬ w.Holds a (.ambiguous i) := by
    rintro i ⟨t, ht, hguarded⟩ ⟨t', ht', e, he, -⟩
    cases ht.symm.trans ht'
    cases t <;> simp_all [Task.unresolved, Task.guarded]
  cases x with
  | lease i =>
    cases y with
    | lease j => rw [h.leases a i j hx hy]
    | submission j => exact absurd (hheld j (.inl hy)) (h.apart a i j hx)
    | ambiguous j => exact absurd (hheld j (.inr hy)) (h.apart a i j hx)
  | submission i =>
    cases y with
    | lease j => exact absurd (hheld i (.inl hx)) (h.apart a j i hy)
    | submission j => rw [h.guards a i j (hheld i (.inl hx)) (hheld j (.inl hy))]
    | ambiguous j =>
      obtain rfl := h.guards a i j (hheld i (.inl hx)) (hheld j (.inr hy))
      exact absurd hy (hkind i hx)
  | ambiguous i =>
    cases y with
    | lease j => exact absurd (hheld i (.inr hx)) (h.apart a j i hy)
    | submission j =>
      obtain rfl := h.guards a i j (hheld i (.inr hx)) (hheld j (.inl hy))
      exact absurd hx (hkind i hy)
    | ambiguous j => rw [h.guards a i j (hheld i (.inr hx)) (hheld j (.inr hy))]

/-- In every state of every run, each source has one holder at most and the sets say who has
which, and a source's envelopes are settled one after the other. -/
theorem source_exclusivity (crates : Crates) (events : List Event) :
    let w := run crates events
    (∀ a x y, w.Holds a x → w.Holds a y → x = y) ∧
      Disjoint w.state.preparing w.state.guarded ∧
      (∀ a, a ∈ w.state.preparing ↔ ∃ i, w.Holds a (.lease i)) ∧
      (∀ a, a ∈ w.state.guarded ↔ ∃ i, w.Holds a (.submission i) ∨ w.Holds a (.ambiguous i)) ∧
      OneAtATime w.log := by
  have h := inv_run crates events
  refine ⟨fun a x y => h.exclusive.holder_unique, ?_, h.exclusive.preparing, fun a => ?_, h.order⟩
  · rw [Finset.disjoint_left]
    intro a hprep hguard
    obtain ⟨i, hi⟩ := (h.exclusive.preparing a).mp hprep
    obtain ⟨j, hj⟩ := (h.exclusive.guarded a).mp hguard
    exact h.exclusive.apart a i j hi hj
  · rw [h.exclusive.guarded]
    exact exists_congr fun i => mem_heldBy _ i

end World

end PaymentSdk.Solana
