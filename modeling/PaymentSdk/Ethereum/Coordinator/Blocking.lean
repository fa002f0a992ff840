import PaymentSdk.Lib.Run
import PaymentSdk.Ethereum.Coordinator.Order

/-!
# An unresolved envelope blocks its sender

The batches claim their records in the order of the nonces, a recovery claims no prepared
record, and a `broadcast` that claims the lowest record of its sender keeps the order. A
`broadcast` may claim any record of a batch, though, and then the order is lost.
-/

open Std

namespace PaymentSdk.Ethereum

variable {crypto : Crypto} {s : State} {log : List Trace} {v : Nat → View} {k : Nat → Stake} {i : Nat}
  {u : View} {κ : Stake}

/-! ## What the tasks have at stake -/

/-- A recovery claims whatever stands under its id. -/
def Submit.target : Submit → Option TransactionId
  | claiming none id => some id
  | _ => none

/-- The transaction of a submission that goes on. -/
def Polled.target {α : Type} (p : Polled Submit α) : Option TransactionId :=
  match p.outcome with
  | .pending task => task.target
  | .done _ => none

def Prepare.stake : Prepare → Stake
  | recovering _ submit => { target := submit.target }
  | nonces _ _ _ | contexts _ _ _ | balances _ _ _ _ | signing _ _ _ | registering _ _ => { clear := true }
  | admitting | failing _ _ => {}

def Caller.stake : Caller → Stake
  | preparing _ _ task => task.stake
  | detaching _ _ => { alone := true }
  | batch b | sending b _ => { batch := some (b.entries, b.cursor) }
  | idle | leaving _ | broadcasting _ => {}

/-- The submission is about this entry. -/
def Submit.Of (entry : PreparedEntry) : Submit → Prop
  | claiming expected id => expected = some entry.signed ∧ id = entry.signed.id
  | known claim | ready claim | sent claim => claim.id = entry.signed.id

/-- A finished batch has no entry left. A single preparation has one entry at most. -/
def Caller.Turn : Caller → Prop
  | preparing single preparations task =>
    (single = true → preparations.length ≤ 1 ∧ (task.view preparations).plan.length ≤ 1) ∧
      ∀ index expected id, task = .recovering index (.claiming expected id) → expected = none
  | batch b => b.operation = none → b.entries.length ≤ b.cursor
  | sending b (.submitting submit) => b.operation ≠ none ∧ ∃ e, b.entries[b.cursor]? = some e ∧ submit.Of e
  | sending b (.finishing _) => b.entries.length ≤ b.cursor
  | broadcasting task => task.target = none
  | idle | detaching _ _ | leaving _ => True

/-! ## Submission -/

theorem Order.restake (h : Order crypto s log v k) (hstake : StakeOk crypto s log (v i) κ)
    (htarget : κ.target = none) : Order crypto s log v (Function.update k i κ) := by
  have hinv : Inv crypto s (log ++ []) (Function.update v i (v i)) := by
    rw [List.append_nil, Function.update_eq_self]
    exact h.inv
  have hstake' : StakeOk crypto s (log ++ []) (v i) κ := by
    rw [List.append_nil]
    exact hstake
  have hact := h.stay (by simp) hinv hstake' (fun c sent hc => ⟨sent, hc⟩) (by simp [htarget])
  rwa [List.append_nil, Function.update_eq_self] at hact

theorem Order.untarget (h : Order crypto s log v k) {target : Option TransactionId}
    (hk : k i = { κ with target }) : Order crypto s log v (Function.update k i { κ with target := none }) := by
  refine h.restake ?_ rfl
  have hstake := h.stakes i
  rw [hk] at hstake
  exact ⟨by simp, hstake.starts, hstake.planned, hstake.rising, hstake.clear, hstake.alone, hstake.batch,
    hstake.paced⟩

theorem Order.unowned (h : Order crypto s log (Function.update v i { operation := none }) (Function.update k i κ))
    (κ' : Stake) (htarget : κ'.target = none) :
    Order crypto s log (Function.update v i { operation := none }) (Function.update k i κ') := by
  have hact := h.restake (i := i) (κ := κ') (by
    rw [Function.update_self]
    exact ⟨by simp [htarget], by simp, by simp, .nil, by simp, by simp, by simp, by simp⟩) htarget
  rwa [Function.update_idem] at hact

theorem Order.bare {operation : Option UInt64}
    (h : Order crypto s log (Function.update v i { operation }) (Function.update k i κ)) :
    Order crypto s log (Function.update v i { operation }) (Function.update k i {}) := by
  have hact := h.restake (i := i) (κ := {}) (by
    rw [Function.update_self]
    exact ⟨by simp, by simp, by simp, .nil, by simp, by simp, by simp, by simp⟩) rfl
  rwa [Function.update_idem] at hact

section Submit

variable {target : Option TransactionId}

theorem Submit.target_poll (submit : Submit) (h : submit.target = none) (reply : Reply) :
    (submit.poll s reply).target = none := by
  cases submit with
  | claiming expected id =>
    rw [Submit.poll]
    split
    · rfl
    · exact h
    · simp only [Polled.target]
      split <;> rfl
  | known c =>
    rw [Submit.poll]
    split <;> rfl
  | ready c => rfl
  | sent c =>
    rw [Submit.poll]
    repeat' split
    all_goals rfl

theorem Submit.target_of {entry : PreparedEntry} (submit : Submit) (h : submit.Of entry) : submit.target = none := by
  cases submit with
  | claiming expected id =>
    obtain ⟨rfl, _⟩ := h
    rfl
  | known c => rfl
  | ready c => rfl
  | sent c => rfl

theorem Order.submit_accepts {c : SubmissionClaim} {sent : Bool} (h : Order crypto s log v k)
    (hu : v i = { u with claim := some (c, sent) }) (hk : k i = { κ with target }) :
    Order crypto (Submit.accepts s c).state (log ++ (Submit.accepts s c).trace)
      (Function.update v i { u with claim := (Submit.accepts s c).held })
      (Function.update k i { κ with target := (Submit.accepts s c).target }) := by
  have hheld : (v i).claim = some (c, sent) := by rw [hu]
  have hact := h.accept hheld
  rw [hu, hk] at hact
  exact hact

theorem Order.submit_ambiguous {c : SubmissionClaim} {sent : Bool} (h : Order crypto s log v k)
    (hu : v i = { u with claim := some (c, sent) }) (hk : k i = { κ with target }) (message : String) :
    Order crypto (Submit.ambiguous s c message).state (log ++ (Submit.ambiguous s c message).trace)
      (Function.update v i { u with claim := (Submit.ambiguous s c message).held })
      (Function.update k i { κ with target := (Submit.ambiguous s c message).target }) := by
  have hheld : (v i).claim = some (c, sent) := by rw [hu]
  have hact := h.release hheld
  rw [hu, hk] at hact
  change Order crypto _ (log ++ []) _ _
  rw [List.append_nil]
  exact hact

/-- One poll of a submission that claims only the lowest record of a sender. -/
theorem Order.submit (h : Order crypto s log v k) (submit : Submit) (hu : v i = { u with claim := submit.held })
    (hk : k i = { κ with target := submit.target })
    (hlowest : ∀ expected id, submit = .claiming expected id → ∀ r, s.records[id]? = some r →
      (∀ t ∈ expected, t = r.transaction) → r.status = .prepared → Lowest s r) (reply : Reply) :
    Order crypto (submit.poll s reply).state (log ++ (submit.poll s reply).trace)
      (Function.update v i { u with claim := (submit.poll s reply).held })
      (Function.update k i { κ with target := (submit.poll s reply).target }) := by
  have hsame : ∀ claim, submit.held = claim → Function.update v i { u with claim } = v := by
    rintro claim rfl
    rw [← hu, Function.update_eq_self]
  cases submit with
  | claiming expected id =>
    rw [Submit.poll]
    split
    · simp only [List.append_nil, Polled.held, Polled.target]
      rw [hsame none rfl]
      exact h.untarget hk
    · rename_i s' hclaim
      rw [State.claim_wait hclaim, List.append_nil]
      simp only [Polled.held, Polled.target]
      rw [hsame _ rfl, ← hk, Function.update_eq_self]
      exact h
    · rename_i c s' hclaim
      have hact := h.claim (i := i) hclaim (hlowest expected id rfl)
      rw [hu, hk] at hact
      rw [List.append_nil]
      have hheld : (if c.recovery = true then Submit.known c else Submit.ready c).held = some (c, false) := by
        split <;> rfl
      have htarget : (if c.recovery = true then Submit.known c else Submit.ready c).target = none := by
        split <;> rfl
      simp only [Polled.held, Polled.target, hheld, htarget]
      exact hact
  | known c =>
    rw [Submit.poll]
    split
    · exact h.submit_accepts hu hk
    · simp only [List.append_nil, Polled.held, Polled.target]
      rw [hsame (Submit.ready c).held rfl]
      exact h.untarget hk
    · exact h.submit_ambiguous hu hk _
  | ready c =>
    have hact := h.hand (i := i) (c := c) (by rw [hu]; rfl)
    rw [hu, hk] at hact
    exact hact
  | sent c =>
    rw [Submit.poll]
    split
    · split
      · exact h.submit_accepts hu hk
      · exact h.submit_ambiguous hu hk _
    · split
      · rename_i hfirst
        have hact := h.reject (i := i) (c := c) (by rw [hu]; rfl) (by simp_all)
        rw [hu, hk] at hact
        exact hact
      · exact h.submit_ambiguous hu hk _

theorem Order.submit_drop (h : Order crypto s log v k) (submit : Submit) (hu : v i = { u with claim := submit.held })
    (hk : k i = { κ with target := submit.target }) {s' : State} (hdrop : submit.drop s = some s') :
    Order crypto s' log (Function.update v i { u with claim := none })
      (Function.update k i { κ with target := none }) := by
  cases submit with
  | claiming expected id =>
    cases hdrop
    have hsame : Function.update v i { u with claim := none } = v := by
      rw [show ({ u with claim := none } : View) = v i from hu.symm, Function.update_eq_self]
    rw [hsame]
    exact h.untarget hk
  | known c =>
    cases hdrop
    have hheld : (v i).claim = some (c, false) := by rw [hu]; rfl
    have hact := h.release hheld
    rw [hu, hk] at hact
    exact hact
  | ready c => cases hdrop
  | sent c =>
    cases hdrop
    have hheld : (v i).claim = some (c, true) := by rw [hu]; rfl
    have hact := h.release hheld
    rw [hu, hk] at hact
    exact hact

end Submit

/-! ## Preparation -/

section Prepare

variable {preparations : List Preparation}

/-- What a preparation has at stake after a poll. -/
def Polled.stake (single : Bool) (p : Polled Prepare (Except PreparationError PreparedBatch)) : Stake :=
  match p.outcome with
  | .pending task => task.stake
  | .done (.error _) => {}
  | .done (.ok b) => if single then { alone := true } else { batch := some (b.entries, b.cursor) }

theorem stakeOk_bare (log : List Trace) (operation : Option UInt64) :
    StakeOk crypto s log { operation } {} :=
  ⟨by simp, by simp, by simp, .nil, by simp, by simp, by simp, by simp⟩

theorem Order.fail {operation : UInt64} (h : Order crypto s log v k) (hop : (v i).operation = some operation) :
    Order crypto s (log ++ []) (Function.update v i { operation := some operation }) (Function.update k i {}) :=
  h.stay (by simp) (h.inv.fail hop) (stakeOk_bare _ _) (by simp) (by simp)

theorem Order.go_on (h : Order crypto s log v k) (hu : v i = u) (hk : k i = κ) :
    Order crypto s (log ++ []) (Function.update v i u) (Function.update k i κ) := by
  rw [List.append_nil, ← hu, ← hk, Function.update_eq_self, Function.update_eq_self]
  exact h

theorem Order.carry {u' : View} (h : Order crypto s log v k) (hu : v i = u) (hk : k i = { clear := true })
    (hinv : Inv crypto s (log ++ []) (Function.update v i u')) (hop : u'.operation = u.operation)
    (hstarts : ∀ a, u'.starts a = none) (hplan : u'.plan = u.plan) (hclaim : u'.claim = none) :
    Order crypto s (log ++ []) (Function.update v i u') (Function.update k i { clear := true }) := by
  have hstake := h.stakes i
  rw [hu, hk] at hstake
  refine h.stay (by simp) hinv ?_ (by simp [hclaim]) (by simp)
  refine ⟨by simp, by simp [hstarts], ?_, by rw [hplan]; exact hstake.rising, ?_, by simp, by simp, by simp [hclaim]⟩
  · rw [hop, hplan]
    exact hstake.planned
  · rw [hop]
    exact hstake.clear

theorem unknown_of_admission {s' : State} {id : TransactionId} {index : Nat} {senders : List (Address × Nat)}
    (h : s.admission senders = (.recover id index, s')) : ∃ r, s.records[id]? = some r ∧ r.status = .unknown := by
  unfold State.admission at h
  split at h
  · rename_i answer hblocked
    obtain ⟨rfl, _⟩ := Prod.mk.inj h
    exact State.unknown_of_blocked hblocked
  · split at h <;> cases h

theorem Order.admitting (h : Order crypto s log v k) (hu : v i = {}) (hk : k i = {}) (single : Bool)
    (reply : Reply) :
    Order crypto (Prepare.admitting.poll crypto preparations s reply).state
      (log ++ (Prepare.admitting.poll crypto preparations s reply).trace)
      (Function.update v i ((Prepare.admitting.poll crypto preparations s reply).view preparations))
      (Function.update k i ((Prepare.admitting.poll crypto preparations s reply).stake single)) := by
  rw [Prepare.poll]
  split
  · exact h.go_on hu hk
  · split
    · rename_i operation s' hadmission
      have ha := State.admitted_of_admission hadmission
      change Order crypto s' (log ++ []) _ _
      rw [List.append_nil]
      refine h.admitted ha ?_ rfl ⟨rfl, fun _ => rfl, rfl⟩
      exact h.inv.admitted ha fun a ha => ha
    · rename_i s' hadmission
      rw [State.admission_state hadmission (by simp)]
      exact h.go_on hu hk
    · rename_i id index s' hadmission
      obtain ⟨r, hr, hstatus⟩ := unknown_of_admission hadmission
      rw [State.admission_state hadmission (by simp)]
      change Order crypto s (log ++ []) (Function.update v i {}) (Function.update k i { target := some id })
      refine h.stay (by simp) (h.inv.go_on hu) ?_ (by simp) ?_
      · refine ⟨?_, by simp, by simp, .nil, by simp, by simp, by simp, by simp⟩
        rintro id' ⟨⟩
        exact .inl ⟨r, hr, by simp [hstatus]⟩
      · rintro id' ⟨⟩
        refine ⟨rfl, fun j c sent hc hid => absurd hid ?_⟩
        exact h.inv.free_of_status hr (by simp [hstatus]) j c sent hc
    · rename_i index s' hadmission
      rw [State.admission_state hadmission (by simp)]
      exact h.go_on hu hk

theorem Order.reserve {operation : UInt64} {next : Address → Option UInt64} {a : Address} {index : Nat}
    {rest : List (Address × Nat)} (h : Order crypto s log v k)
    (hu : v i = (Prepare.nonces operation next ((a, index) :: rest)).view preparations)
    (hk : k i = { clear := true })
    (hok : (Prepare.nonces operation next ((a, index) :: rest)).Ok preparations) (single : Bool) (pending : UInt64) :
    Order crypto (Prepare.reserve s operation next preparations a index rest pending).state
      (log ++ (Prepare.reserve s operation next preparations a index rest pending).trace)
      (Function.update v i ((Prepare.reserve s operation next preparations a index rest pending).view preparations))
      (Function.update k i ((Prepare.reserve s operation next preparations a index rest pending).stake single)) := by
  have hop : (v i).operation = some operation := by rw [hu]; rfl
  have hinv := h.inv.reserve hu hok pending
  have hstake := h.stakes i
  rw [hu, hk] at hstake
  unfold Prepare.reserve at hinv ⊢
  dsimp only at hinv ⊢
  split at hinv
  · rename_i hcount
    rw [if_pos hcount]
    exact h.fail hop
  · rename_i hcount
    rw [if_neg hcount]
    split at hinv
    · rename_i hrange
      rw [if_pos hrange]
      exact h.fail hop
    · rename_i hrange
      rw [if_neg hrange]
      refine h.stay (by simp [Prepare.stay]) hinv ?_ (by simp [Prepare.stay, Polled.view, Prepare.view])
        (by simp [Prepare.stay, Polled.stake, Prepare.stake])
      refine ⟨by simp [Prepare.stay, Polled.stake, Prepare.stake], ?_, by simp [Prepare.stay, Polled.view, Prepare.view],
        .nil, hstake.clear, by simp [Prepare.stay, Polled.stake, Prepare.stake],
        by simp [Prepare.stay, Polled.stake, Prepare.stake], by simp [Prepare.stay, Polled.view, Prepare.view]⟩
      rintro op ⟨⟩ b n hn f hf
      change Function.update next a (some (startNonce (s.floor a) pending)) b = some n at hn
      by_cases hb : b = a
      · subst hb
        rw [Function.update_self] at hn
        cases hn
        exact floor_le_startNonce _ _ hf
      · rw [Function.update_of_ne hb] at hn
        exact hstake.starts operation rfl b n hn f hf

theorem Order.plan {operation : UInt64} {next : Address → Option UInt64} {assigned : List UInt64}
    (h : Order crypto s log v k) (hu : v i = (Prepare.nonces operation next []).view preparations)
    (hk : k i = { clear := true }) (hassigned : assignNonces 0 next preparations = .ok assigned) :
    Order crypto s (log ++ []) (Function.update v i
      ((Prepare.contexts operation [] (preparations.zip assigned)).view preparations))
      (Function.update k i { clear := true }) := by
  obtain ⟨hplaces, hrising⟩ := places_of_assignNonces hassigned
  have hstake := h.stakes i
  rw [hu, hk] at hstake
  refine h.stay (by simp) (h.inv.plan hu hassigned) ?_ (by simp [Prepare.view]) (by simp)
  refine ⟨by simp, by simp [Prepare.view], ?_, hrising, hstake.clear, by simp, by simp, by simp [Prepare.view]⟩
  rintro op ⟨⟩ p hp f hf
  obtain ⟨_, start, hstart, hle⟩ := hplaces p hp
  exact Nat.le_trans (hstake.starts operation rfl p.1 start hstart f hf) hle

/-- What a poll of a preparation leaves is in order. -/
def Order.Keeps (crypto : Crypto) (preparations : List Preparation) (log : List Trace) (v : Nat → View)
    (k : Nat → Stake) (i : Nat) (single : Bool) (p : Polled Prepare (Except PreparationError PreparedBatch)) : Prop :=
  Order crypto p.state (log ++ p.trace) (Function.update v i (p.view preparations))
    (Function.update k i (p.stake single))

theorem Order.recovering {index : Nat} {submit : Submit} (h : Order crypto s log v k)
    (hu : v i = (Prepare.recovering index submit).view preparations) (hk : k i = (Prepare.recovering index submit).stake)
    (hrecover : ∀ expected id, submit = .claiming expected id → expected = none) (single : Bool) (reply : Reply) :
    Order.Keeps crypto preparations log v k i single
      ((Prepare.recovering index submit).poll crypto preparations s reply) := by
  have hlowest : ∀ expected id, submit = .claiming expected id → ∀ r, s.records[id]? = some r →
      (∀ t ∈ expected, t = r.transaction) → r.status = .prepared → Lowest s r := by
    rintro expected id rfl r hr _ hprepared
    obtain rfl := hrecover expected id rfl
    rcases (h.stakes i).target id (by rw [hk]; rfl) with ⟨q, hq, hne⟩ | ⟨hnone, _⟩
    · rw [hr] at hq
      cases hq
      exact absurd hprepared hne
    · rw [hr] at hnone
      cases hnone
  have hact := h.submit (u := {}) (κ := {}) submit hu hk hlowest reply
  rw [Prepare.poll]
  split <;> rename_i hpoll <;> rw [hpoll] at hact <;> exact hact

theorem Order.assigning {operation : UInt64} {next : Address → Option UInt64} {rest : List (Address × Nat)}
    (h : Order crypto s log v k) (hu : v i = (Prepare.nonces operation next rest).view preparations)
    (hk : k i = { clear := true }) (hok : (Prepare.nonces operation next rest).Ok preparations) (single : Bool)
    (reply : Reply) :
    Order.Keeps crypto preparations log v k i single
      ((Prepare.nonces operation next rest).poll crypto preparations s reply) := by
  have hop : (v i).operation = some operation := by rw [hu]; rfl
  cases rest with
  | nil =>
    rw [Prepare.poll]
    split
    · exact h.fail hop
    · rename_i assigned hassigned
      exact h.plan hu hk hassigned
  | cons p rest =>
    rw [Prepare.poll]
    split
    · exact h.fail hop
    · exact h.reserve hu hk hok single _

theorem Order.drafting (hinj : Function.Injective crypto.keccak) {operation : UInt64} {drafts : List Draft}
    {rest : List (Preparation × UInt64)} (h : Order crypto s log v k)
    (hu : v i = (Prepare.contexts operation drafts rest).view preparations) (hk : k i = { clear := true })
    (hok : (Prepare.contexts operation drafts rest).Ok preparations) (single : Bool) (reply : Reply) :
    Order.Keeps crypto preparations log v k i single
      ((Prepare.contexts operation drafts rest).poll crypto preparations s reply) := by
  have hop : (v i).operation = some operation := by rw [hu]; rfl
  have hinv := h.inv.prepare hinj (.contexts operation drafts rest) hu hok reply
  revert hinv
  cases rest with
  | nil =>
    rw [Prepare.poll]
    split
    · exact fun _ => h.fail hop
    · intro hinv
      refine h.carry hu hk hinv rfl (fun _ => rfl) ?_ rfl
      simp [Polled.view, Prepare.stay, Prepare.view]
  | cons p rest =>
    rw [Prepare.poll]
    split
    · exact fun _ => h.fail hop
    · rename_i context hcontext
      split
      · exact fun _ => h.fail hop
      · intro hinv
        refine h.carry hu hk hinv rfl (fun _ => rfl) ?_ rfl
        simp [Polled.view, Prepare.stay, Prepare.view, Draft.place, assignedPlace, nonce_of_buildContext hcontext]

theorem Order.checking (hinj : Function.Injective crypto.keccak) {operation : UInt64} {drafts : List Draft}
    {insufficient : Option Nat} {rest : List Requirement} (h : Order crypto s log v k)
    (hu : v i = (Prepare.balances operation drafts insufficient rest).view preparations)
    (hk : k i = { clear := true }) (hok : (Prepare.balances operation drafts insufficient rest).Ok preparations)
    (single : Bool) (reply : Reply) :
    Order.Keeps crypto preparations log v k i single
      ((Prepare.balances operation drafts insufficient rest).poll crypto preparations s reply) := by
  have hop : (v i).operation = some operation := by rw [hu]; rfl
  have hsettle : Order.Keeps crypto preparations log v k i single (Prepare.settle s operation drafts insufficient) := by
    cases insufficient with
    | some index => exact h.fail hop
    | none =>
      have hinv := h.inv.prepare hinj (.balances operation drafts none []) hu hok reply
      exact h.carry hu hk hinv rfl (fun _ => rfl) rfl rfl
  cases rest with
  | nil => exact hsettle
  | cons requirement rest =>
    rw [Prepare.poll]
    split
    · exact hsettle
    · split
      · exact h.fail hop
      · split
        · exact h.go_on hu hk
        · exact h.go_on hu hk

theorem Order.signing (hinj : Function.Injective crypto.keccak) {operation : UInt64} {entries : List PreparedEntry}
    {rest : List Draft} (h : Order crypto s log v k)
    (hu : v i = (Prepare.signing operation entries rest).view preparations) (hk : k i = { clear := true })
    (hok : (Prepare.signing operation entries rest).Ok preparations) (single : Bool) (reply : Reply) :
    Order.Keeps crypto preparations log v k i single
      ((Prepare.signing operation entries rest).poll crypto preparations s reply) := by
  have hop : (v i).operation = some operation := by rw [hu]; rfl
  have hinv := h.inv.prepare hinj (.signing operation entries rest) hu hok reply
  cases rest with
  | nil =>
    refine h.carry hu hk hinv rfl (fun _ => rfl) ?_ rfl
    simp [Prepare.poll, Polled.view, Prepare.stay, Prepare.view]
  | cons draft rest =>
    revert hinv
    rw [Prepare.poll]
    split
    · exact fun _ => h.fail hop
    · intro hinv
      refine h.carry hu hk hinv rfl (fun _ => rfl) ?_ rfl
      simp [Polled.view, Prepare.stay, Prepare.view, Draft.place, PreparedEntry.place]

theorem Order.registering (hinj : Function.Injective crypto.keccak) {operation : UInt64}
    {entries : List PreparedEntry} (h : Order crypto s log v k)
    (hu : v i = (Prepare.registering operation entries).view preparations) (hk : k i = { clear := true })
    (single : Bool) (hsingle : single = true → entries.length ≤ 1) (reply : Reply) :
    Order.Keeps crypto preparations log v k i single
      ((Prepare.registering operation entries).poll crypto preparations s reply) := by
  have hop : (v i).operation = some operation := by rw [hu]; rfl
  rw [Prepare.poll]
  split
  · exact h.fail hop
  · rename_i s' hregister
    refine h.register hinj hop (by rw [hu]; rfl) (by rw [hu]; rfl) (by rw [hk]) hregister ?_ ?_ ?_ ?_
    · cases single <;> rfl
    · cases single <;> rfl
    · cases single with
      | false => simp [Polled.stake]
      | true => exact fun _ => hsingle rfl
    · cases single with
      | false =>
        rintro es cursor ⟨⟩
        exact ⟨rfl, rfl⟩
      | true => rintro es cursor ⟨⟩

theorem Order.prepare (hinj : Function.Injective crypto.keccak) (h : Order crypto s log v k) (task : Prepare)
    (hu : v i = task.view preparations) (hk : k i = task.stake) (hok : task.Ok preparations)
    (hrecover : ∀ index expected id, task = .recovering index (.claiming expected id) → expected = none)
    (single : Bool) (hsingle : single = true → (task.view preparations).plan.length ≤ 1) (reply : Reply) :
    Order.Keeps crypto preparations log v k i single (task.poll crypto preparations s reply) := by
  cases task with
  | admitting => exact h.admitting hu hk single reply
  | recovering index submit =>
    exact h.recovering hu hk (fun expected id heq => hrecover index expected id (congrArg _ heq)) single reply
  | nonces operation next rest => exact h.assigning hu hk hok single reply
  | contexts operation drafts rest => exact h.drafting hinj hu hk hok single reply
  | balances operation drafts insufficient rest => exact h.checking hinj hu hk hok single reply
  | signing operation entries rest => exact h.signing hinj hu hk hok single reply
  | registering operation entries =>
    refine h.registering hinj hu hk single (fun hone => ?_) reply
    have hlength := hsingle hone
    rwa [Prepare.view, List.length_map] at hlength
  | failing operation error =>
    have hop : (v i).operation = some operation := by rw [hu]; rfl
    change Order crypto (s.finishOperation operation) (log ++ []) _ _
    rw [List.append_nil]
    exact h.finish hop

theorem Order.prepare_drop (h : Order crypto s log v k) (task : Prepare) (hu : v i = task.view preparations)
    (hk : k i = task.stake) {s' : State} (hdrop : task.drop s = some s') :
    Order crypto s' log (Function.update v i {}) (Function.update k i {}) := by
  cases task with
  | admitting =>
    cases hdrop
    have hkept := h.go_on hu hk
    rw [List.append_nil] at hkept
    exact hkept
  | recovering index submit => exact h.submit_drop (u := {}) (κ := {}) submit hu hk hdrop
  | nonces operation next rest =>
    cases hdrop
    exact h.finish (by rw [hu]; rfl)
  | contexts operation drafts rest =>
    cases hdrop
    exact h.finish (by rw [hu]; rfl)
  | balances operation drafts insufficient rest =>
    cases hdrop
    exact h.finish (by rw [hu]; rfl)
  | signing operation entries rest =>
    cases hdrop
    exact h.finish (by rw [hu]; rfl)
  | registering operation entries => cases hdrop
  | failing operation error => cases hdrop

/-- A plan is made for all transfers at once, and carried through the phases. -/
theorem Prepare.plan_poll (task task' : Prepare) (reply : Reply)
    (h : (task.poll crypto preparations s reply).outcome = .pending task') :
    (task'.view preparations).plan.length ≤ max (task.view preparations).plan.length preparations.length := by
  cases task with
  | admitting =>
    rw [Prepare.poll] at h
    repeat' split at h
    all_goals cases h
    all_goals exact Nat.zero_le _
  | recovering index submit =>
    rw [Prepare.poll] at h
    split at h <;> cases h <;> exact Nat.zero_le _
  | nonces operation next rest =>
    cases rest with
    | nil =>
      rw [Prepare.poll] at h
      split at h
      · cases h
        exact Nat.zero_le _
      · cases h
        simp only [Prepare.view, List.length_append, List.length_map, List.length_nil, List.length_zip]
        omega
    | cons p rest =>
      rw [Prepare.poll] at h
      split at h
      · cases h
        exact Nat.zero_le _
      · unfold Prepare.reserve at h
        dsimp only at h
        split_ifs at h
        all_goals cases h
        all_goals exact Nat.zero_le _
  | contexts operation drafts rest =>
    cases rest <;> rw [Prepare.poll] at h <;> repeat' split at h
    all_goals cases h
    all_goals simp only [Prepare.view, List.length_append, List.length_map, List.length_nil, List.length_cons]
    all_goals omega
  | balances operation drafts insufficient rest =>
    cases rest <;> cases insufficient <;> simp only [Prepare.poll, Prepare.settle] at h <;> repeat' split at h
    all_goals cases h
    all_goals simp only [Prepare.view, List.length_append, List.length_map, List.length_nil]
    all_goals omega
  | signing operation entries rest =>
    cases rest <;> rw [Prepare.poll] at h <;> repeat' split at h
    all_goals cases h
    all_goals simp only [Prepare.view, List.length_append, List.length_map, List.length_nil, List.length_cons]
    all_goals omega
  | registering operation entries =>
    rw [Prepare.poll] at h
    split at h
    · cases h
      exact Nat.zero_le _
    · cases h
  | failing operation error => cases h

end Prepare

/-! ## A prepared batch -/

section Batch

variable {operation : UInt64} {entries : List PreparedEntry} {cursor : Nat} {e : PreparedEntry}

theorem BatchOk.lowest (h : BatchOk crypto s operation entries cursor) (hcore : Core crypto s log)
    (he : entries[cursor]? = some e) {id : TransactionId} {r : Record} (hr : s.records[id]? = some r)
    (ht : e.signed = r.transaction) : Lowest s r := by
  have hmem := List.mem_of_getElem? he
  have hg := h.genuine e hmem
  rw [ht] at hg
  obtain ⟨_, hgr, _⟩ := hcore.genuine id r hr
  have hsource : e.source = r.source := Option.some.inj (hg.sender.symm.trans hgr.sender)
  have hnonce : e.nonce = r.nonce := hg.nonce.symm.trans hgr.nonce
  intro id' r' hr' hsource'
  have hactive := h.active e hmem
  rw [hsource] at hactive
  obtain ⟨j, e', hj, hle, ht'⟩ := h.remaining r.source hactive id' r' hr' hsource'
  have hg' := h.genuine e' (List.mem_of_getElem? hj)
  rw [ht'] at hg'
  obtain ⟨_, hgr', _⟩ := hcore.genuine id' r' hr'
  have hnonce' : e'.nonce = r'.nonce := hg'.nonce.symm.trans hgr'.nonce
  rcases Nat.lt_or_eq_of_le hle with hlt | rfl
  · have hsame : e.source = e'.source := by
      rw [hsource, ← hsource']
      exact (Option.some.inj (hg'.sender.symm.trans hgr'.sender)).symm
    obtain ⟨hc, hce⟩ := List.getElem?_eq_some_iff.mp he
    obtain ⟨hjl, hje⟩ := List.getElem?_eq_some_iff.mp hj
    have := List.pairwise_iff_getElem.mp h.rising cursor j hc hjl hlt
    rw [hce, hje] at this
    rw [← hnonce, ← hnonce']
    exact Nat.le_of_lt (this hsame)
  · rw [he] at hj
    cases hj
    exact Nat.le_of_eq (congrArg _ (hnonce.symm.trans hnonce'))

theorem BatchOk.advance (h : BatchOk crypto s operation entries cursor) (hcore : Core crypto s log)
    (he : entries[cursor]? = some e) (hnone : s.records[e.signed.id]? = none) :
    BatchOk crypto s operation entries (cursor + 1) := by
  refine ⟨h.active, h.genuine, h.rising, ?_⟩
  intro a ha id r hr hsource
  obtain ⟨j, e', hj, hle, ht⟩ := h.remaining a ha id r hr hsource
  refine ⟨j, e', hj, ?_, ht⟩
  rcases Nat.lt_or_eq_of_le hle with hlt | rfl
  · exact hlt
  · rw [he] at hj
    cases hj
    rw [ht, (hcore.genuine id r hr).1, hr] at hnone
    cases hnone

theorem Submit.of_poll (submit submit' : Submit) (hof : submit.Of e) (reply : Reply)
    (h : (submit.poll s reply).outcome = .pending submit') : submit'.Of e := by
  cases submit with
  | claiming expected id =>
    obtain ⟨rfl, rfl⟩ := hof
    rw [Submit.poll] at h
    split at h
    · cases h
    · cases h
      exact ⟨rfl, rfl⟩
    · rename_i c s' hclaim
      cases h
      obtain ⟨_, hid, _⟩ := State.claim_ready hclaim
      split
      · exact hid
      · exact hid
  | known c =>
    rw [Submit.poll] at h
    split at h <;> cases h
    exact hof
  | ready c =>
    cases h
    exact hof
  | sent c =>
    rw [Submit.poll] at h
    repeat' split at h
    all_goals cases h

/-- A submission that ends well has accepted its record. -/
theorem Submit.gone_of_ok (submit : Submit) (hof : submit.Of e) (hcore : Core crypto s log)
    (hclaim : ∀ c sent, submit.held = some (c, sent) → ClaimOk s log c sent) (reply : Reply) {id : TransactionId}
    (h : (submit.poll s reply).outcome = .done (.ok id)) :
    (submit.poll s reply).state.records[e.signed.id]? = none := by
  have haccept : ∀ c sent, submit.held = some (c, sent) → c.id = e.signed.id →
      (Submit.accepts s c).state.records[e.signed.id]? = none := by
    intro c sent hheld hid
    obtain ⟨r, hr, _⟩ := hcore.of_claim (hclaim c sent hheld)
    obtain ⟨_, ha⟩ := State.accepts_of_accept hr (hcore.genuine c.id r hr).2.2
    rw [Option.eq_none_iff_forall_ne_some]
    intro q hq
    exact ((ha.records _ q).mp hq).2 hid.symm
  cases submit with
  | claiming expected id =>
    rw [Submit.poll] at h
    repeat' split at h
    all_goals cases h
  | known c =>
    rw [Submit.poll] at h ⊢
    split at h
    · exact haccept c false rfl hof
    · cases h
    · cases h
  | ready c => cases h
  | sent c =>
    rw [Submit.poll] at h ⊢
    split at h
    · split at h
      · rename_i hid
        rw [if_pos hid]
        exact haccept c true rfl hof
      · cases h
    · split at h <;> cases h

end Batch

/-! ## The system -/

/-- A `broadcast` claims a prepared record only if no record of its sender has a lower nonce. -/
def Event.Orderly (w : World) : Event → Prop
  | .resume i _ => match w.callers i with
    | .broadcasting (.claiming expected id) => match w.state.records[id]? with
      | some r => expected.all (· = r.transaction) → r.status = .prepared → Lowest w.state r
      | none => True
    | _ => True
  | _ => True

instance (s : State) (r : Record) : Decidable (Lowest s r) :=
  decidable_of_iff (∀ p ∈ s.records.toList, p.2.source = r.source → r.nonce.toNat ≤ p.2.nonce.toNat) <| by
    simp only [ExtTreeMap.mem_toList_iff_getElem?_eq_some, Lowest, Prod.forall]

instance (w : World) (e : Event) : Decidable (e.Orderly w) := by
  unfold Event.Orderly
  split
  · split
    · split <;> infer_instance
    · infer_instance
  · infer_instance

namespace World

variable {w : World}

/-- The invariant of every orderly run. -/
structure Ordered (crypto : Crypto) (w : World) : Prop where
  order : Order crypto w.state w.log (fun i => (w.callers i).view) fun i => (w.callers i).stake
  tasks : ∀ i, (w.callers i).Ok
  turns : ∀ i, (w.callers i).Turn

theorem stake_update (callers : Nat → Caller) (i : Nat) (caller : Caller) :
    (fun j => (Function.update callers i caller j).stake) =
      Function.update (fun j => (callers j).stake) i caller.stake := by
  funext j
  by_cases hj : j = i
  · subst hj
    simp
  · simp [Function.update_of_ne hj]

theorem Ordered.update (h : Ordered crypto w) {s : State} {log : List Trace} {i : Nat} {caller : Caller}
    (horder : Order crypto s log (Function.update (fun j => (w.callers j).view) i caller.view)
      (Function.update (fun j => (w.callers j).stake) i caller.stake))
    (hok : caller.Ok) (hturn : caller.Turn) : Ordered crypto ⟨s, Function.update w.callers i caller, log⟩ := by
  refine ⟨?_, fun j => ?_, fun j => ?_⟩
  · simp only
    rw [view_update, stake_update]
    exact horder
  · by_cases hj : j = i
    · subst hj
      simp only [Function.update_self]
      exact hok
    · simp only [Function.update_of_ne hj]
      exact h.tasks j
  · by_cases hj : j = i
    · subst hj
      simp only [Function.update_self]
      exact hturn
    · simp only [Function.update_of_ne hj]
      exact h.turns j

theorem Ordered.set (h : Ordered crypto w) (i : Nat) {caller : Caller} (hview : (w.callers i).view = caller.view)
    (hstake : (w.callers i).stake = caller.stake) (hok : caller.Ok) (hturn : caller.Turn) :
    Ordered crypto (w.set i caller) := by
  refine h.update ?_ hok hturn
  rw [← hview, ← hstake, Function.update_eq_self i fun j => (w.callers j).view,
    Function.update_eq_self i fun j => (w.callers j).stake]
  exact h.order

theorem Ordered.start (h : Ordered crypto w) (i : Nat) {caller : Caller} (hview : caller.view = {})
    (hstake : caller.stake = {}) (hok : caller.Ok) (hturn : caller.Turn) : Ordered crypto (w.start i caller) := by
  unfold World.start
  split
  · rename_i hidle
    refine h.set i ?_ ?_ hok hturn
    · rw [hidle, hview]
      rfl
    · rw [hidle, hstake]
      rfl
  · exact h

theorem operation_of_poll {task : Prepare} {preparations : List Preparation} {s : State} {reply : Reply}
    {b : PreparedBatch} (h : (task.poll crypto preparations s reply).outcome = .done (.ok b)) :
    b.operation ≠ none := by
  cases task with
  | registering operation entries =>
    rw [Prepare.poll] at h
    split at h
    · cases h
    · cases h
      simp
  | admitting =>
    rw [Prepare.poll] at h
    repeat' split at h
    all_goals cases h
  | recovering index submit =>
    rw [Prepare.poll] at h
    split at h <;> cases h
  | nonces operation next rest =>
    cases rest <;> rw [Prepare.poll] at h <;> split at h
    all_goals first | cases h | skip
    unfold Prepare.reserve at h
    dsimp only at h
    split_ifs at h <;> cases h
  | contexts operation drafts rest =>
    cases rest <;> rw [Prepare.poll] at h <;> repeat' split at h
    all_goals cases h
  | balances operation drafts insufficient rest =>
    cases rest <;> cases insufficient <;> simp only [Prepare.poll, Prepare.settle] at h <;> repeat' split at h
    all_goals cases h
  | signing operation entries rest =>
    cases rest <;> rw [Prepare.poll] at h <;> repeat' split at h
    all_goals cases h
  | failing operation error => cases h

theorem claiming_of_poll {submit : Submit} {s : State} {reply : Reply} {expected : Option SignedTransaction}
    {id : TransactionId} (h : (submit.poll s reply).outcome = .pending (.claiming expected id)) :
    submit = .claiming expected id := by
  cases submit with
  | claiming expected' id' =>
    rw [Submit.poll] at h
    split at h
    · cases h
    · cases h
      rfl
    · split at h <;> cases h
  | known c =>
    rw [Submit.poll] at h
    split at h <;> cases h
  | ready c => cases h
  | sent c =>
    rw [Submit.poll] at h
    repeat' split at h
    all_goals cases h

theorem recovering_poll {task : Prepare} {preparations : List Preparation} {s : State} {reply : Reply} {index : Nat}
    {expected : Option SignedTransaction} {id : TransactionId}
    (hrecover : ∀ index expected id, task = .recovering index (.claiming expected id) → expected = none)
    (h : (task.poll crypto preparations s reply).outcome = .pending (.recovering index (.claiming expected id))) :
    expected = none := by
  cases task with
  | admitting =>
    rw [Prepare.poll] at h
    repeat' split at h
    all_goals cases h
    rfl
  | recovering _ submit =>
    rw [Prepare.poll] at h
    split at h
    · rename_i hpoll
      cases h
      have hsame : submit = .claiming expected id := claiming_of_poll (congrArg (·.outcome) hpoll)
      exact hrecover index expected id (by rw [hsame])
    · cases h
    · cases h
  | nonces operation next rest =>
    cases rest <;> rw [Prepare.poll] at h <;> split at h
    all_goals first | cases h | skip
    unfold Prepare.reserve at h
    dsimp only at h
    split_ifs at h <;> cases h
  | contexts operation drafts rest =>
    cases rest <;> rw [Prepare.poll] at h <;> repeat' split at h
    all_goals cases h
  | balances operation drafts insufficient rest =>
    cases rest <;> cases insufficient <;> simp only [Prepare.poll, Prepare.settle] at h <;> repeat' split at h
    all_goals cases h
  | signing operation entries rest =>
    cases rest <;> rw [Prepare.poll] at h <;> repeat' split at h
    all_goals cases h
  | registering operation entries =>
    rw [Prepare.poll] at h
    split at h <;> cases h
  | failing operation error => cases h

theorem Ordered.preparing (hinj : Function.Injective crypto.keccak) (h : Ordered crypto w) {i : Nat} {single : Bool}
    {preparations : List Preparation} {task : Prepare} (hi : w.callers i = .preparing single preparations task)
    (reply : Reply) : Ordered crypto (w.resume crypto i reply) := by
  have hok := h.tasks i
  have hturn := h.turns i
  rw [hi] at hok hturn
  obtain ⟨hsingle, hrecover⟩ := hturn
  have hact := h.order.prepare (i := i) hinj task (by rw [hi]; rfl) (by rw [hi]; rfl) hok hrecover single
    (fun h => (hsingle h).2) reply
  unfold World.resume
  rw [hi]
  dsimp only
  generalize hout : (task.poll crypto preparations w.state reply).outcome = outcome
  simp only [Order.Keeps, Polled.view, Polled.stake, hout] at hact
  cases outcome with
  | pending task' =>
    refine h.update hact (Prepare.ok_poll task task' hok reply hout) ⟨fun hs => ?_, ?_⟩
    · obtain ⟨hlength, hplan⟩ := hsingle hs
      have := Prepare.plan_poll task task' reply hout
      exact ⟨hlength, by omega⟩
    · rintro index expected id rfl
      exact recovering_poll hrecover hout
  | done result =>
    cases result with
    | error error => exact h.update hact trivial trivial
    | ok b =>
      have hsome := operation_of_poll hout
      cases single with
      | false => exact h.update hact trivial fun hnone => absurd hnone hsome
      | true =>
        obtain ⟨operation, hop⟩ := Option.ne_none_iff_exists'.mp hsome
        simp only [hop] at hact
        simp only [prepared, hop]
        cases b.entries.getLast? with
        | some entry => exact h.update hact trivial trivial
        | none => exact h.update hact.bare trivial trivial

theorem Ordered.sending (h : Ordered crypto w) {i : Nat} {b : PreparedBatch} {submit : Submit}
    (hi : w.callers i = .sending b (.submitting submit)) (reply : Reply) :
    Ordered crypto (w.resume crypto i reply) := by
  have hturn := h.turns i
  rw [hi] at hturn
  obtain ⟨hsome, e, he, hof⟩ := hturn
  obtain ⟨operation, hop⟩ := Option.ne_none_iff_exists'.mp hsome
  have hview : (w.callers i).view = { ({ operation := b.operation } : View) with claim := submit.held } := by
    rw [hi]; rfl
  have hstake : (w.callers i).stake =
      { ({ batch := some (b.entries, b.cursor) } : Stake) with target := submit.target } := by
    rw [hi, Submit.target_of submit hof]; rfl
  have hbatch : BatchOk crypto w.state operation b.entries b.cursor :=
    (h.order.stakes i).batch b.entries b.cursor (by rw [hstake]) operation (by rw [hview]; exact hop)
  have hlowest : ∀ expected id, submit = .claiming expected id → ∀ r, w.state.records[id]? = some r →
      (∀ t ∈ expected, t = r.transaction) → r.status = .prepared → Lowest w.state r := by
    rintro expected id rfl r hr hexpected _
    obtain ⟨rfl, rfl⟩ := hof
    exact hbatch.lowest h.order.inv.core he hr (hexpected e.signed rfl)
  have hact := h.order.submit submit hview hstake hlowest reply
  have hgone : ∀ id, (submit.poll w.state reply).outcome = .done (.ok id) →
      (submit.poll w.state reply).state.records[e.signed.id]? = none := by
    intro id hdone
    refine Submit.gone_of_ok submit hof h.order.inv.core (fun c sent hc => ?_) reply hdone
    exact (h.order.inv.views i).claim c sent (by rw [hview]; exact hc)
  have htarget := Submit.target_poll (s := w.state) submit (Submit.target_of submit hof) reply
  have hof' := fun submit' => Submit.of_poll (s := w.state) submit submit' hof reply
  unfold World.resume
  rw [hi]
  simp only [Next.poll]
  generalize submit.poll w.state reply = polled at hact hgone htarget hof'
  obtain ⟨s, outcome, trace⟩ := polled
  rw [htarget] at hact
  cases outcome with
  | pending submit' => exact h.update hact trivial ⟨hsome, e, he, hof' submit' rfl⟩
  | done result =>
    cases result with
    | error error => exact h.update hact trivial fun hnone => absurd hnone hsome
    | ok id =>
      -- The cursor moves on with the record of its entry.
      have hadvanced := hact.restake (i := i) (κ := { batch := some (b.entries, b.cursor + 1) }) (by
        have hstakes := hact.stakes i
        rw [Function.update_self, Function.update_self] at hstakes
        rw [Function.update_self]
        refine ⟨by simp, hstakes.starts, hstakes.planned, hstakes.rising, by simp, by simp, ?_, hstakes.paced⟩
        rintro entries cursor ⟨⟩ op hop'
        exact (hstakes.batch b.entries b.cursor rfl op hop').advance hact.inv.core he (hgone id rfl)) rfl
      rw [Function.update_idem] at hadvanced
      dsimp only
      split
      · rename_i hlength
        exact h.update hadvanced trivial (Nat.le_of_eq hlength.symm)
      · exact h.update hadvanced trivial fun hnone => absurd hnone hsome

theorem Ordered.detaching (h : Ordered crypto w) {i : Nat} {operation : UInt64} {entry : PreparedEntry}
    (hi : w.callers i = .detaching operation entry) (reply : Reply) : Ordered crypto (w.resume crypto i reply) := by
  have hview : (w.callers i).view = { operation := some operation } := by rw [hi]; rfl
  have hstake : (w.callers i).stake = { alone := true } := by rw [hi]; rfl
  unfold World.resume
  rw [hi]
  refine h.update ?_ trivial trivial
  -- The record may be gone already, and then nothing changes.
  split
  · have hop : (w.callers i).view.operation = some operation := by rw [hview]
    have hkept := h.order.fail (i := i) hop
    rw [List.append_nil] at hkept
    exact hkept
  · rename_i s hdetach
    have hact := h.order.detach (i := i) (by simp only [hview]) (by simp only [hstake]) hdetach
    simp only [hview, hstake] at hact
    exact hact.bare

/-- A finished batch gives its operation back, if it has one still. -/
theorem Ordered.finishing (h : Ordered crypto w) {i : Nat} {b : PreparedBatch} {result : Option TransactionId}
    (hi : w.callers i = .sending b (.finishing result)) (reply : Reply) : Ordered crypto (w.resume crypto i reply) := by
  have hturn := h.turns i
  rw [hi] at hturn
  have hview : (w.callers i).view = { operation := b.operation } := by rw [hi]; rfl
  have hstake : (w.callers i).stake = { batch := some (b.entries, b.cursor) } := by rw [hi]; rfl
  have hlog : w.log ++ [] = w.log := List.append_nil _
  unfold World.resume
  rw [hi]
  simp only [Next.poll, hlog]
  refine h.update ?_ trivial fun _ => hturn
  cases hop : b.operation with
  | none =>
    rw [hop] at hview
    have hkept := h.order.go_on (i := i) hview hstake
    rw [List.append_nil] at hkept
    exact hkept
  | some operation =>
    have hheld : (w.callers i).view.operation = some operation := by rw [hview, hop]
    exact Order.unowned (h.order.finish (i := i) hheld) _ rfl

theorem Ordered.broadcasting (h : Ordered crypto w) {i : Nat} {submit : Submit} (hi : w.callers i = .broadcasting submit)
    (reply : Reply) (horderly : (Event.resume i reply).Orderly w) : Ordered crypto (w.resume crypto i reply) := by
  have hturn := h.turns i
  rw [hi] at hturn
  have hview : (w.callers i).view = { ({} : View) with claim := submit.held } := by rw [hi]; rfl
  have hstake : (w.callers i).stake = { ({} : Stake) with target := submit.target } := by
    rw [hi, show submit.target = none from hturn]; rfl
  -- What an orderly `broadcast` claims is the lowest of its sender.
  have hlowest : ∀ expected id, submit = .claiming expected id → ∀ r, w.state.records[id]? = some r →
      (∀ t ∈ expected, t = r.transaction) → r.status = .prepared → Lowest w.state r := by
    rintro expected id rfl r hr hexpected hprepared
    simp only [Event.Orderly, hi, hr] at horderly
    refine horderly ?_ hprepared
    cases expected with
    | none => rfl
    | some t => simp [hexpected t rfl]
  have hact := h.order.submit submit hview hstake hlowest reply
  have htarget := Submit.target_poll (s := w.state) submit hturn reply
  rw [htarget] at hact
  unfold World.resume
  rw [hi]
  dsimp only
  generalize submit.poll w.state reply = polled at hact htarget
  obtain ⟨s, outcome, trace⟩ := polled
  cases outcome with
  | pending submit' => exact h.update hact trivial htarget
  | done result => exact h.update hact trivial trivial

theorem Ordered.resume (hinj : Function.Injective crypto.keccak) (h : Ordered crypto w) (i : Nat) (reply : Reply)
    (horderly : (Event.resume i reply).Orderly w) : Ordered crypto (w.resume crypto i reply) := by
  cases hi : w.callers i with
  | idle =>
    unfold World.resume
    rw [hi]
    exact h
  | batch b =>
    unfold World.resume
    rw [hi]
    exact h
  | preparing single preparations task => exact h.preparing hinj hi reply
  | detaching operation entry => exact h.detaching hi reply
  | leaving operation =>
    unfold World.resume
    rw [hi]
    refine h.update ?_ trivial trivial
    exact h.order.finish (by simp only [hi]; rfl)
  | sending b task =>
    cases task with
    | submitting submit => exact h.sending hi reply
    | finishing result => exact h.finishing hi reply
  | broadcasting submit => exact h.broadcasting hi reply horderly

theorem Ordered.drop (h : Ordered crypto w) (i : Nat) : Ordered crypto (w.drop i) := by
  have horder := h.order
  have hturn := h.turns i
  unfold World.drop
  cases hi : w.callers i with
  | idle => exact h
  | detaching operation entry => exact h
  | leaving operation => exact h
  | preparing single preparations task =>
    dsimp only
    split
    · exact h
    · rename_i s hdrop
      refine h.update ?_ trivial trivial
      exact horder.prepare_drop task (by simp only [hi]; rfl) (by simp only [hi]; rfl) hdrop
  | batch b =>
    have hview : (w.callers i).view = { operation := b.operation } := by rw [hi]; rfl
    have hstake : (w.callers i).stake = { batch := some (b.entries, b.cursor) } := by rw [hi]; rfl
    refine h.update ?_ trivial trivial
    cases hop : b.operation with
    | none =>
      rw [hop] at hview
      have hkept := horder.go_on (i := i) hview hstake
      rw [List.append_nil] at hkept
      exact hkept.bare
    | some operation => exact horder.finish (by simp only [hview, hop])
  | sending b task =>
    rw [hi] at hturn
    dsimp only
    split
    · exact h
    · rename_i s hdrop
      cases task with
      | submitting submit =>
        obtain ⟨hsome, e, _, hof⟩ := hturn
        have hview : (w.callers i).view = { ({ operation := b.operation } : View) with claim := submit.held } := by
          rw [hi]; rfl
        have hstake : (w.callers i).stake =
            { ({ batch := some (b.entries, b.cursor) } : Stake) with target := submit.target } := by
          rw [hi, Submit.target_of submit hof]; rfl
        exact h.update (horder.submit_drop submit hview hstake hdrop) trivial fun hnone => absurd hnone hsome
      | finishing result => cases hdrop
  | broadcasting submit =>
    rw [hi] at hturn
    dsimp only
    split
    · exact h
    · rename_i s hdrop
      have hview : (w.callers i).view = { ({} : View) with claim := submit.held } := by rw [hi]; rfl
      have hstake : (w.callers i).stake = { ({} : Stake) with target := submit.target } := by
        rw [hi, show submit.target = none from hturn]; rfl
      exact h.update (horder.submit_drop submit hview hstake hdrop) trivial trivial

theorem Ordered.step (hinj : Function.Injective crypto.keccak) (h : Ordered crypto w) (event : Event)
    (horderly : event.Orderly w) : Ordered crypto (w.step crypto event) := by
  cases event with
  | prepareBatch i preparations => exact h.start i rfl rfl trivial ⟨by simp, by rintro _ _ _ ⟨⟩⟩
  | prepareOne i preparation =>
    refine h.start i rfl rfl trivial ⟨fun _ => ⟨Nat.le_refl _, Nat.zero_le _⟩, by rintro _ _ _ ⟨⟩⟩
  | next i =>
    rw [World.step]
    split
    · rename_i b hi
      have hturn := h.turns i
      rw [hi] at hturn
      have hnext : (∃ e, b.entries[b.cursor]? = some e ∧ b.next = .submitting (.claiming (some e.signed) e.signed.id)) ∨
          (b.entries[b.cursor]? = none ∧ b.next = .finishing none) := by
        unfold PreparedBatch.next
        cases he : b.entries[b.cursor]? with
        | none => exact .inr ⟨rfl, rfl⟩
        | some e => exact .inl ⟨e, rfl, rfl⟩
      rcases hnext with ⟨e, he, hnext⟩ | ⟨hnone, hnext⟩
      · rw [hnext]
        refine h.set i (by rw [hi]; rfl) (by rw [hi]; rfl) trivial ⟨fun hop => ?_, e, he, rfl, rfl⟩
        have hlength := hturn hop
        rw [List.getElem?_eq_none hlength] at he
        cases he
      · rw [hnext]
        exact h.set i (by rw [hi]; rfl) (by rw [hi]; rfl) trivial (List.getElem?_eq_none_iff.mp hnone)
    · exact h
  | broadcast i transaction => exact h.start i rfl rfl trivial rfl
  | resume i reply => exact h.resume hinj i reply horderly
  | drop i => exact h.drop i

theorem ordered_empty : Ordered crypto {} := by
  refine ⟨⟨inv_empty.held, ⟨?_, ?_, ?_, ?_⟩, ⟨?_, ?_, ?_⟩, fun _ => stakeOk_bare _ _, ?_⟩, fun _ => trivial,
    fun _ => trivial⟩
  · simp
  · intro a _ id r id' r' hr
    simp at hr
  · simp
  · simp
  · intro before t after hsplit
    simp at hsplit
  · simp
  · intro before t between t' after hsplit
    simp at hsplit
  · rintro i j id c sent ⟨⟩

/-! ## What the order gives -/

/-- Both ways through the index of the records lead to the same ones. -/
def Indexed (s : State) : Prop :=
  ∀ a id, id ∈ (s.sender a).records ↔ ∃ r, s.records[id]? = some r ∧ r.source = a

/-- A sender has at most one record whose fate is open. -/
def OneUnresolved (s : State) : Prop :=
  ∀ (id : TransactionId) (r : Record) (id' : TransactionId) (r' : Record), s.records[id]? = some r →
    s.records[id']? = some r' → r.source = r'.source → r.status = .unknown ∨ r.status = .reconciling →
    r'.status = .unknown ∨ r'.status = .reconciling → id = id'

/-- Between an envelope and another one of its sender, the first was accepted, or rejected at
this attempt. -/
def SettledFirst (crypto : Crypto) (log : List Trace) : Prop :=
  ∀ before t between t' after, log = before ++ Trace.handed t :: (between ++ Trace.handed t' :: after) → t ≠ t' →
    crypto.recover t.envelope = crypto.recover t'.envelope → .accepted t ∈ between ∨
      ∃ l₁ l₂, between = l₁ ++ Trace.rejected t :: l₂ ∧ .handed t ∉ l₁

theorem Ordered.oneUnresolved (h : Ordered crypto w) : OneUnresolved w.state := by
  intro id r id' r' hr hr' hsource hstatus hstatus'
  refine h.order.turns.unresolved_unique h.order.inv.core hr hr' hsource ?_ ?_
  · rcases hstatus with hstatus | hstatus <;> simp [hstatus]
  · rcases hstatus' with hstatus' | hstatus' <;> simp [hstatus']

/-- Every run in which each `broadcast` claims in order. -/
theorem sender_blocked (hinj : Function.Injective crypto.keccak) (events : List Event)
    (h : Interaction.Along (step crypto) (fun w e => e.Orderly w) {} events) (n : Nat) :
    Indexed (run crypto (events.take n)).state ∧ OneUnresolved (run crypto (events.take n)).state ∧
      SettledFirst crypto (run crypto (events.take n)).log := by
  have hordered : Ordered crypto (run crypto (events.take n)) :=
    Interaction.along_invariant (Interaction.along_take h n)
      (fun w e _ hok hw => Ordered.step hinj hw e hok) ordered_empty
  exact ⟨hordered.order.inv.core.index, hordered.oneUnresolved, hordered.order.paced.ordered⟩

/-! ### A broadcast out of order -/

/-- The second payment of a batch is the same envelope as one that was rejected before. While
the first payment is out, the old envelope is broadcast once more. -/
def lateBroadcast : List Event :=
  let reply : Reply := { nonce := .ok 4, context := .ok ⟨1, 1, 1, 1⟩, balance := .ok 9, signature := .ok [7] }
  [refusedPayment 1,
   [.prepareBatch 0 [⟨.native [7] [8] 2, 1⟩, ⟨.native [7] [8] 1, 1⟩]], List.replicate 12 (.resume 0 reply),
   [.next 0, .resume 0 reply, .resume 0 reply, .broadcast 1 (signedAt 5 1), .resume 1 reply, .resume 1 reply]].flatten

theorem late_broadcast_not_blocked :
    ¬ OneUnresolved (run spelled lateBroadcast).state ∧ ¬ SettledFirst spelled (run spelled lateBroadcast).log := by
  have hlog : (run spelled lateBroadcast).log =
      [.assigned 0 [7] 5, .registered 0 (signedAt 5 1), .handed (signedAt 5 1), .rejected (signedAt 5 1),
        .assigned 1 [7] 4, .registered 1 (signedAt 4 2), .registered 1 (signedAt 5 1)] ++
        .handed (signedAt 4 2) :: ([] ++ .handed (signedAt 5 1) :: []) := by decide +kernel
  have hfirst : (run spelled lateBroadcast).state.records[(signedAt 4 2).id]? =
      some ⟨[7], 4, signedAt 4 2, some 1, .reconciling⟩ := by decide +kernel
  have hsecond : (run spelled lateBroadcast).state.records[(signedAt 5 1).id]? =
      some ⟨[7], 5, signedAt 5 1, some 1, .reconciling⟩ := by decide +kernel
  constructor
  · intro h
    have hsame := h _ _ _ _ hfirst hsecond rfl (.inr rfl) (.inr rfl)
    exact absurd hsame (by decide)
  · intro h
    rcases h _ _ _ _ _ hlog (by decide) (by decide) with hmem | ⟨l₁, l₂, hsplit, _⟩
    · simp at hmem
    · simp at hsplit

/-- A payment whose broadcast has no clear answer, and a second one of the same sender. The second
is admitted once the first has been broadcast again and accepted. -/
def ambiguousPayment : List Event :=
  let unclear : Reply := { nonce := .ok 5, context := .ok ⟨1, 1, 1, 1⟩, balance := .ok 9, signature := .ok [7],
                           broadcast := .error (ambiguousSubmissionError (signedAt 5 1).id "timeout") }
  let recovered : Reply := { unclear with nonce := .ok 6, broadcast := .ok (signedAt 5 1).id }
  let accepted : Reply := { recovered with broadcast := .ok (signedAt 6 2).id }
  [[.prepareOne 0 ⟨.native [7] [8] 1, 1⟩], List.replicate 12 (.resume 0 unclear),
   [.broadcast 0 (signedAt 5 1)], List.replicate 3 (.resume 0 unclear),
   [.prepareOne 1 ⟨.native [7] [8] 2, 1⟩], List.replicate 17 (.resume 1 recovered),
   [.broadcast 1 (signedAt 6 2)], List.replicate 3 (.resume 1 accepted)].flatten

theorem sender_blocked_ambiguous :
    (run spelled ambiguousPayment).log =
        [.assigned 0 [7] 5, .registered 0 (signedAt 5 1), .handed (signedAt 5 1), .handed (signedAt 5 1),
          .accepted (signedAt 5 1), .assigned 1 [7] 6, .registered 1 (signedAt 6 2), .handed (signedAt 6 2),
          .accepted (signedAt 6 2)] ∧
      Interaction.Along (step spelled) (fun w e => e.Orderly w) {} ambiguousPayment ∧
      OneUnresolved (run spelled ambiguousPayment).state ∧ SettledFirst spelled (run spelled ambiguousPayment).log := by
  have horderly : Interaction.Along (step spelled) (fun w e => e.Orderly w) {} ambiguousPayment := by
    decide +kernel
  have hlast := (sender_blocked spelled_injective ambiguousPayment horderly ambiguousPayment.length).2
  rw [List.take_length] at hlast
  exact ⟨by decide +kernel, horderly, hlast⟩

end World

end PaymentSdk.Ethereum
