import PaymentSdk.Ethereum.Coordinator.Acts

/-!
# Nonce safety of the coordinator

What each caller holds is read off its task. Every step of the system is one of the acts, so
the invariant holds in every run, and two envelopes with one sender and one nonce are handed
over only after the first was rejected.
-/

open Std

namespace PaymentSdk.Ethereum

/-! ## What the tasks hold -/

def Submit.held : Submit → Option (SubmissionClaim × Bool)
  | claiming _ _ => none
  | known claim | ready claim => some (claim, false)
  | sent claim => some (claim, true)

def Polled.held {α : Type} (p : Polled Submit α) : Option (SubmissionClaim × Bool) :=
  match p.outcome with
  | .pending task => task.held
  | .done _ => none

/-- A sender and the nonce it is given. -/
def Draft.place (draft : Draft) : Address × UInt64 := (draft.preparation.request.sender, draft.context.nonce)

def PreparedEntry.place (entry : PreparedEntry) : Address × UInt64 := (entry.source, entry.nonce)

def assignedPlace (p : Preparation × UInt64) : Address × UInt64 := (p.1.request.sender, p.2)

def sourcesOf (preparations : List Preparation) : List Address := (senders preparations).map (·.1)

def Prepare.view (preparations : List Preparation) : Prepare → View
  | admitting => {}
  | recovering _ submit => { claim := submit.held }
  | nonces operation next _ =>
    { operation := some operation, sources := sourcesOf preparations, assigning := true, starts := next }
  | contexts operation drafts rest =>
    { operation := some operation
      sources := sourcesOf preparations
      plan := drafts.map (·.place) ++ rest.map assignedPlace }
  | balances operation drafts _ _ =>
    { operation := some operation, sources := sourcesOf preparations, plan := drafts.map (·.place) }
  | signing operation entries rest =>
    { operation := some operation
      sources := sourcesOf preparations
      plan := entries.map (·.place) ++ rest.map (·.place)
      signed := entries }
  | registering operation entries =>
    { operation := some operation
      sources := sourcesOf preparations
      plan := entries.map (·.place)
      signed := entries }
  | failing operation _ => { operation := some operation }

def Next.held : Next → Option (SubmissionClaim × Bool)
  | submitting submit => submit.held
  | finishing _ => none

def Caller.view : Caller → View
  | idle => {}
  | preparing _ preparations task => task.view preparations
  | detaching operation _ | leaving operation => { operation := some operation }
  | batch b => { operation := b.operation }
  | sending b task => { operation := b.operation, claim := task.held }
  | broadcasting task => { claim := task.held }

/-- The senders whose nonces are still to be read are new to the task. -/
def Prepare.Ok (preparations : List Preparation) : Prepare → Prop
  | nonces _ next rest => (rest.map (·.1)).Nodup ∧
    ∀ a ∈ rest.map (·.1), next a = none ∧ a ∈ sourcesOf preparations
  | _ => True

def Caller.Ok : Caller → Prop
  | preparing _ preparations task => task.Ok preparations
  | _ => True

/-! ## Senders and nonces -/

theorem nodup_sendersFrom (index : Nat) (seen : List (Address × Nat)) (preparations : List Preparation)
    (h : (seen.map (·.1)).Nodup) : ((sendersFrom index seen preparations).map (·.1)).Nodup := by
  induction preparations generalizing index seen with
  | nil => exact h
  | cons p rest ih =>
    rw [sendersFrom]
    split
    · exact ih _ _ h
    · rename_i hnew
      refine ih _ _ ?_
      rw [List.map_append, List.nodup_append]
      refine ⟨h, by simp, ?_⟩
      rintro a ha b hb rfl
      obtain rfl : a = p.request.sender := by simpa using hb
      exact hnew ha

theorem nodup_sourcesOf (preparations : List Preparation) : (sourcesOf preparations).Nodup :=
  nodup_sendersFrom 0 [] preparations .nil

theorem floor_le_startNonce (floor : Option UInt64) (pending : UInt64) {f : UInt64} (h : floor = some f) :
    f.toNat ≤ (startNonce floor pending).toNat := by
  rw [h]
  exact (State.laterNonce_le f pending).1

theorem nonce_of_buildContext {reply : Reply} {nonce : UInt64} {context : BuildContext}
    (h : reply.buildContext nonce = .ok context) : context.nonce = nonce := by
  unfold Reply.buildContext at h
  cases hfees : reply.context with
  | error e =>
    rw [hfees] at h
    cases h
  | ok fees =>
    rw [hfees] at h
    cases h
    rfl

/-- Every nonce is at or after the sender's start, its successor fits, and the nonces of one
sender rise. -/
theorem places_of_assignNonces {index : Nat} {next : Address → Option UInt64} {preparations : List Preparation}
    {assigned : List UInt64} (h : assignNonces index next preparations = .ok assigned) :
    (∀ p ∈ (preparations.zip assigned).map assignedPlace, p.2.toNat + 1 < 2 ^ 64 ∧
        ∃ start, next p.1 = some start ∧ start.toNat ≤ p.2.toNat) ∧
      ((preparations.zip assigned).map assignedPlace).Pairwise fun p q => p.1 = q.1 → p.2.toNat < q.2.toNat := by
  induction preparations generalizing index next assigned with
  | nil => simp
  | cons p rest ih =>
    rw [assignNonces] at h
    split at h
    · cases h
    · rename_i nonce hnonce
      split at h
      · cases h
      · rename_i following hfollowing
        have hsucc := PaymentSdk.checkedSuccessor_eq_some hfollowing
        have hfits : nonce.toNat + 1 < 2 ^ 64 := by
          have := following.toNat_lt
          omega
        cases hrest : assignNonces (index + 1) (Function.update next p.request.sender (some following)) rest with
        | error e =>
          rw [hrest] at h
          cases h
        | ok tail =>
          rw [hrest] at h
          cases h
          obtain ⟨hall, hpair⟩ := ih hrest
          rw [List.zip_cons_cons, List.map_cons, List.pairwise_cons]
          refine ⟨?_, ?_, hpair⟩
          · intro q hq
            rcases List.mem_cons.mp hq with rfl | hq
            · exact ⟨hfits, nonce, hnonce, Nat.le_refl _⟩
            · obtain ⟨hq1, start, hstart, hle⟩ := hall q hq
              refine ⟨hq1, ?_⟩
              by_cases hsame : q.1 = p.request.sender
              · rw [hsame, Function.update_self] at hstart
                cases hstart
                exact ⟨nonce, by rw [hsame]; exact hnonce, by omega⟩
              · rw [Function.update_of_ne hsame] at hstart
                exact ⟨start, hstart, hle⟩
          · intro q hq hsource
            obtain ⟨_, start, hstart, hle⟩ := hall q hq
            rw [← hsource, assignedPlace, Function.update_self] at hstart
            cases hstart
            change nonce.toNat < q.2.toNat
            omega

/-! ## Submission -/

section Submit

variable {crypto : Crypto} {s : State} {log : List Trace} {v : Nat → View} {i : Nat} {u : View}

theorem Inv.forget (h : Inv crypto s log v) {claim : Option (SubmissionClaim × Bool)}
    (hu : v i = { u with claim }) (claim' : Option (SubmissionClaim × Bool))
    (hclaim : claim' = none ∨ claim' = claim) :
    Inv crypto s log (Function.update v i { u with claim := claim' }) := by
  have hview := h.views i
  rw [hu] at hview
  refine h.think (hview.withClaim claim' fun c sent hc => ?_) ?_ ?_
  · rcases hclaim with rfl | rfl
    · cases hc
    · exact hview.claim c sent hc
  · rw [hu]
    exact fun _ h => h
  · intro c sent hc
    rcases hclaim with rfl | rfl
    · cases hc
    · exact ⟨sent, by rw [hu]; exact hc⟩

theorem Inv.submit_accepts {c : SubmissionClaim} {sent : Bool} (h : Inv crypto s log v)
    (hu : v i = { u with claim := some (c, sent) }) :
    Inv crypto (Submit.accepts s c).state (log ++ (Submit.accepts s c).trace)
      (Function.update v i { u with claim := (Submit.accepts s c).held }) := by
  have hheld : (v i).claim = some (c, sent) := by rw [hu]
  have hact := h.accept hheld
  rw [hu] at hact
  exact hact

theorem Inv.submit_ambiguous {c : SubmissionClaim} {sent : Bool} (h : Inv crypto s log v)
    (hu : v i = { u with claim := some (c, sent) }) (message : String) :
    Inv crypto (Submit.ambiguous s c message).state (log ++ (Submit.ambiguous s c message).trace)
      (Function.update v i { u with claim := (Submit.ambiguous s c message).held }) := by
  have hheld : (v i).claim = some (c, sent) := by rw [hu]
  have hact := h.release hheld
  rw [hu] at hact
  change Inv crypto _ (log ++ []) _
  rw [List.append_nil]
  exact hact

/-- One poll of a submission is at most one act. -/
theorem Inv.submit (h : Inv crypto s log v) (submit : Submit) (hu : v i = { u with claim := submit.held })
    (reply : Reply) :
    Inv crypto (submit.poll s reply).state (log ++ (submit.poll s reply).trace)
      (Function.update v i { u with claim := (submit.poll s reply).held }) := by
  cases submit with
  | claiming expected id =>
    rw [Submit.poll]
    split
    · rw [List.append_nil]
      exact h.forget hu none (.inl rfl)
    · rename_i s' hclaim
      rw [State.claim_wait hclaim, List.append_nil]
      exact h.forget hu none (.inl rfl)
    · rename_i c s' hclaim
      have hact := h.claim (i := i) hclaim
      rw [hu] at hact
      rw [List.append_nil]
      have hheld : (if c.recovery = true then Submit.known c else Submit.ready c).held = some (c, false) := by
        split <;> rfl
      simp only [Polled.held, hheld]
      exact hact
  | known c =>
    rw [Submit.poll]
    split
    · exact h.submit_accepts hu
    · rw [List.append_nil]
      exact h.forget hu _ (.inr rfl)
    · exact h.submit_ambiguous hu _
  | ready c =>
    have hact := h.hand (i := i) (c := c) (by rw [hu]; rfl)
    rw [hu] at hact
    exact hact
  | sent c =>
    rw [Submit.poll]
    split
    · split
      · exact h.submit_accepts hu
      · exact h.submit_ambiguous hu _
    · split
      · rename_i hfirst
        have hact := h.reject (i := i) (c := c) (by rw [hu]; rfl) (by simp_all)
        rw [hu] at hact
        exact hact
      · exact h.submit_ambiguous hu _

theorem Inv.submit_drop (h : Inv crypto s log v) (submit : Submit) (hu : v i = { u with claim := submit.held })
    {s' : State} (hdrop : submit.drop s = some s') :
    Inv crypto s' log (Function.update v i { u with claim := none }) := by
  cases submit with
  | claiming expected id =>
    cases hdrop
    exact h.forget hu none (.inl rfl)
  | known c =>
    cases hdrop
    have hheld : (v i).claim = some (c, false) := by rw [hu]; rfl
    have hact := h.release hheld
    rw [hu] at hact
    exact hact
  | ready c => cases hdrop
  | sent c =>
    cases hdrop
    have hheld : (v i).claim = some (c, true) := by rw [hu]; rfl
    have hact := h.release hheld
    rw [hu] at hact
    exact hact

end Submit

/-! ## Preparation -/

section Prepare

variable {crypto : Crypto} {s : State} {log : List Trace} {v : Nat → View} {i : Nat}
  {preparations : List Preparation}

/-- What a preparation holds after a poll. -/
def Polled.view (preparations : List Preparation)
    (p : Polled Prepare (Except PreparationError PreparedBatch)) : View :=
  match p.outcome with
  | .pending task => task.view preparations
  | .done (.error _) => {}
  | .done (.ok b) => { operation := b.operation }

theorem Inv.fail {operation : UInt64} (h : Inv crypto s log v) (hop : (v i).operation = some operation) :
    Inv crypto s (log ++ []) (Function.update v i { operation := some operation }) := by
  rw [List.append_nil]
  refine h.think ⟨?_, by simp, by simp, by simp, by simp, .nil, by simp, by simp⟩ ?_ (by simp)
  · rintro op ⟨⟩
    exact (h.views i).bounded operation hop
  · rintro op ⟨⟩
    exact hop

theorem Inv.go_on {u : View} (h : Inv crypto s log v) (hu : v i = u) :
    Inv crypto s (log ++ []) (Function.update v i u) := by
  rw [List.append_nil, ← hu, Function.update_eq_self]
  exact h

theorem Inv.admitting (h : Inv crypto s log v) (hu : v i = {}) (reply : Reply) :
    Inv crypto (Prepare.admitting.poll crypto preparations s reply).state
      (log ++ (Prepare.admitting.poll crypto preparations s reply).trace)
      (Function.update v i ((Prepare.admitting.poll crypto preparations s reply).view preparations)) := by
  rw [Prepare.poll]
  split
  · exact h.go_on hu
  · split
    · rename_i operation s' hadmission
      change Inv crypto s' (log ++ []) _
      rw [List.append_nil]
      exact h.admitted (State.admitted_of_admission hadmission) fun a ha => ha
    · rename_i s' hadmission
      rw [State.admission_state hadmission (by simp)]
      exact h.go_on hu
    · rename_i id index s' hadmission
      rw [State.admission_state hadmission (by simp)]
      exact h.go_on hu
    · rename_i index s' hadmission
      rw [State.admission_state hadmission (by simp)]
      exact h.go_on hu

theorem Inv.reserve {operation : UInt64} {next : Address → Option UInt64} {a : Address} {index : Nat}
    {rest : List (Address × Nat)} (h : Inv crypto s log v)
    (hu : v i = (Prepare.nonces operation next ((a, index) :: rest)).view preparations)
    (hok : (Prepare.nonces operation next ((a, index) :: rest)).Ok preparations) (pending : UInt64) :
    Inv crypto (Prepare.reserve s operation next preparations a index rest pending).state
      (log ++ (Prepare.reserve s operation next preparations a index rest pending).trace)
      (Function.update v i ((Prepare.reserve s operation next preparations a index rest pending).view preparations)) := by
  have hop : (v i).operation = some operation := by rw [hu]; rfl
  obtain ⟨hstart, hsource⟩ := hok.2 a (by simp)
  unfold Prepare.reserve
  dsimp only
  split
  · exact h.fail hop
  · split
    · exact h.fail hop
    · have hfloor : ∀ f, (s.sender a).floor = some f → f.toNat ≤ (startNonce (s.floor a) pending).toNat :=
        fun f hf => floor_le_startNonce _ _ hf
      have hact := h.assign hop (by rw [hu]; rfl) (by rw [hu]; exact hsource) (by rw [hu]; exact hstart) hfloor
      rw [hu] at hact
      exact hact

theorem Inv.plan {operation : UInt64} {next : Address → Option UInt64} {assigned : List UInt64}
    (h : Inv crypto s log v) (hu : v i = (Prepare.nonces operation next []).view preparations)
    (hassigned : assignNonces 0 next preparations = .ok assigned) :
    Inv crypto s (log ++ []) (Function.update v i
      ((Prepare.contexts operation [] (preparations.zip assigned)).view preparations)) := by
  obtain ⟨hplaces, hrising⟩ := places_of_assignNonces hassigned
  have hdistinct : ((preparations.zip assigned).map assignedPlace).Pairwise fun p q => p.1 = q.1 → p.2 ≠ q.2 := by
    refine hrising.imp fun h hsource heq => ?_
    have := h hsource
    rw [heq] at this
    exact Nat.lt_irrefl _ this
  have hview := h.views i
  rw [hu] at hview
  rw [List.append_nil]
  refine h.think ?_ (by rw [hu]; exact fun _ h => h) (by simp [Prepare.view])
  refine ⟨hview.bounded, hview.admitted, by simp [Prepare.view], by simp [Prepare.view], ?_, hdistinct,
    by simp [Prepare.view], by simp [Prepare.view]⟩
  rintro op ⟨⟩ p hp
  obtain ⟨hfits, start, hstart, hle⟩ := hplaces p hp
  obtain ⟨hsource, hcleared⟩ := hview.starts operation rfl p.1 start hstart
  exact ⟨hsource, hfits, start, hle, hcleared⟩

theorem Inv.carry {u u' : View} (h : Inv crypto s log v) (hu : v i = u) (hop : u'.operation = u.operation)
    (hsources : u'.sources = u.sources) (hassigning : u'.assigning = false) (hstarts : ∀ a, u'.starts a = none)
    (hplan : u'.plan = u.plan) (hclaim : u'.claim = none)
    (hsigned : ∀ e ∈ u'.signed, e.signed.Genuine crypto e.source e.nonce) :
    Inv crypto s (log ++ []) (Function.update v i u') := by
  have hview := h.views i
  rw [hu] at hview
  rw [List.append_nil]
  refine h.think ?_ (by rw [hu, hop]; exact fun _ h => h) (by simp [hclaim])
  refine ⟨?_, ?_, by simp [hstarts], by simp [hassigning], ?_, ?_, hsigned, by simp [hclaim]⟩
  · rw [hop]
    exact hview.bounded
  · rw [hop, hsources]
    exact hview.admitted
  · rw [hop, hplan, hsources]
    exact hview.planned
  · rw [hplan]
    exact hview.distinct

/-- What a poll of a preparation leaves keeps the invariant. -/
def Inv.Keeps (crypto : Crypto) (preparations : List Preparation) (log : List Trace) (v : Nat → View) (i : Nat)
    (p : Polled Prepare (Except PreparationError PreparedBatch)) : Prop :=
  Inv crypto p.state (log ++ p.trace) (Function.update v i (p.view preparations))

theorem Inv.assigning {operation : UInt64} {next : Address → Option UInt64} {rest : List (Address × Nat)}
    (h : Inv crypto s log v) (hu : v i = (Prepare.nonces operation next rest).view preparations)
    (hok : (Prepare.nonces operation next rest).Ok preparations) (reply : Reply) :
    Inv.Keeps crypto preparations log v i ((Prepare.nonces operation next rest).poll crypto preparations s reply) := by
  have hop : (v i).operation = some operation := by rw [hu]; rfl
  cases rest with
  | nil =>
    rw [Prepare.poll]
    split
    · exact h.fail hop
    · rename_i assigned hassigned
      exact h.plan hu hassigned
  | cons p rest =>
    rw [Prepare.poll]
    split
    · exact h.fail hop
    · exact h.reserve hu hok _

theorem Inv.drafting {operation : UInt64} {drafts : List Draft} {rest : List (Preparation × UInt64)}
    (h : Inv crypto s log v) (hu : v i = (Prepare.contexts operation drafts rest).view preparations) (reply : Reply) :
    Inv.Keeps crypto preparations log v i
      ((Prepare.contexts operation drafts rest).poll crypto preparations s reply) := by
  have hop : (v i).operation = some operation := by rw [hu]; rfl
  cases rest with
  | nil =>
    rw [Prepare.poll]
    split
    · exact h.fail hop
    · refine h.carry hu rfl rfl rfl (fun _ => rfl) ?_ rfl (by simp [Polled.view, Prepare.stay, Prepare.view])
      simp [Polled.view, Prepare.stay, Prepare.view]
  | cons p rest =>
    rw [Prepare.poll]
    split
    · exact h.fail hop
    · rename_i context hcontext
      split
      · exact h.fail hop
      · refine h.carry hu rfl rfl rfl (fun _ => rfl) ?_ rfl (by simp [Polled.view, Prepare.stay, Prepare.view])
        simp [Polled.view, Prepare.stay, Prepare.view, Draft.place, assignedPlace, nonce_of_buildContext hcontext]

theorem Inv.checking {operation : UInt64} {drafts : List Draft} {insufficient : Option Nat}
    {rest : List Requirement} (h : Inv crypto s log v)
    (hu : v i = (Prepare.balances operation drafts insufficient rest).view preparations) (reply : Reply) :
    Inv.Keeps crypto preparations log v i
      ((Prepare.balances operation drafts insufficient rest).poll crypto preparations s reply) := by
  have hop : (v i).operation = some operation := by rw [hu]; rfl
  have hsettle : Inv.Keeps crypto preparations log v i (Prepare.settle s operation drafts insufficient) := by
    cases insufficient with
    | some index => exact h.fail hop
    | none =>
      exact h.carry hu rfl rfl rfl (fun _ => rfl) rfl rfl
        (by simp [Polled.view, Prepare.stay, Prepare.view, Prepare.settle])
  cases rest with
  | nil => exact hsettle
  | cons requirement rest =>
    rw [Prepare.poll]
    split
    · exact hsettle
    · split
      · exact h.fail hop
      · split
        · exact h.go_on hu
        · exact h.go_on hu

theorem Inv.signing {operation : UInt64} {entries : List PreparedEntry} {rest : List Draft}
    (h : Inv crypto s log v) (hu : v i = (Prepare.signing operation entries rest).view preparations) (reply : Reply) :
    Inv.Keeps crypto preparations log v i
      ((Prepare.signing operation entries rest).poll crypto preparations s reply) := by
  have hop : (v i).operation = some operation := by rw [hu]; rfl
  have hview := h.views i
  rw [hu] at hview
  cases rest with
  | nil =>
    refine h.carry hu rfl rfl rfl (fun _ => rfl) ?_ rfl hview.signed
    simp [Prepare.poll, Polled.view, Prepare.stay, Prepare.view]
  | cons draft rest =>
    rw [Prepare.poll]
    split
    · exact h.fail hop
    · rename_i signed hsigned
      refine h.carry hu rfl rfl rfl (fun _ => rfl) ?_ rfl ?_
      · simp [Polled.view, Prepare.stay, Prepare.view, Draft.place, PreparedEntry.place]
      · intro e he
        rcases List.mem_append.mp he with he | he
        · exact hview.signed e he
        · obtain rfl := List.mem_singleton.mp he
          exact genuine_of_sign hsigned

theorem Inv.prepare (hinj : Function.Injective crypto.keccak) (h : Inv crypto s log v) (task : Prepare)
    (hu : v i = task.view preparations) (hok : task.Ok preparations) (reply : Reply) :
    Inv.Keeps crypto preparations log v i (task.poll crypto preparations s reply) := by
  cases task with
  | admitting => exact h.admitting hu reply
  | recovering index submit =>
    have hact := h.submit (u := {}) submit hu reply
    rw [Prepare.poll]
    split <;> rename_i hpoll <;> rw [hpoll] at hact <;> exact hact
  | nonces operation next rest => exact h.assigning hu hok reply
  | contexts operation drafts rest => exact h.drafting hu reply
  | balances operation drafts insufficient rest => exact h.checking hu reply
  | signing operation entries rest => exact h.signing hu reply
  | registering operation entries =>
    have hop : (v i).operation = some operation := by rw [hu]; rfl
    rw [Prepare.poll]
    split
    · exact h.fail hop
    · rename_i s' hregister
      exact h.register hinj hop (by rw [hu]; rfl) (by rw [hu]; rfl) hregister
  | failing operation error =>
    have hop : (v i).operation = some operation := by rw [hu]; rfl
    change Inv crypto (s.finishOperation operation) (log ++ []) _
    rw [List.append_nil]
    exact h.finish hop

theorem Prepare.ok_poll (task task' : Prepare) (hok : task.Ok preparations) (reply : Reply)
    (h : (task.poll crypto preparations s reply).outcome = .pending task') : task'.Ok preparations := by
  cases task with
  | admitting =>
    rw [Prepare.poll] at h
    split at h
    · cases h
    · split at h
      · cases h
        exact ⟨nodup_sourcesOf preparations, fun a ha => ⟨rfl, ha⟩⟩
      · cases h
        trivial
      · cases h
        trivial
      · cases h
  | nonces operation next rest =>
    cases rest with
    | nil =>
      rw [Prepare.poll] at h
      split at h <;> cases h <;> trivial
    | cons p rest =>
      rw [Prepare.poll] at h
      split at h
      · cases h
        trivial
      · unfold Prepare.reserve at h
        dsimp only at h
        split_ifs at h
        · cases h
          trivial
        · cases h
          trivial
        · cases h
          obtain ⟨hnodup, hnew⟩ := hok
          obtain ⟨hout, hnodup⟩ := List.nodup_cons.mp hnodup
          refine ⟨hnodup, fun a ha => ?_⟩
          obtain ⟨hnone, hsource⟩ := hnew a (List.mem_cons_of_mem _ ha)
          have hne : a ≠ p.1 := by
            rintro rfl
            exact hout ha
          exact ⟨by rw [Function.update_of_ne hne]; exact hnone, hsource⟩
  | recovering index submit =>
    rw [Prepare.poll] at h
    split at h <;> cases h <;> trivial
  | contexts operation drafts rest =>
    cases rest <;> rw [Prepare.poll] at h <;> repeat' split at h
    all_goals cases h; trivial
  | balances operation drafts insufficient rest =>
    cases rest <;> cases insufficient <;> simp only [Prepare.poll, Prepare.settle] at h <;> repeat' split at h
    all_goals cases h; trivial
  | signing operation entries rest =>
    cases rest <;> rw [Prepare.poll] at h <;> repeat' split at h
    all_goals cases h; trivial
  | registering operation entries =>
    rw [Prepare.poll] at h
    split at h
    · cases h
      trivial
    · cases h
  | failing operation error => cases h

theorem Inv.prepare_drop (h : Inv crypto s log v) (task : Prepare) (hu : v i = task.view preparations)
    {s' : State} (hdrop : task.drop s = some s') : Inv crypto s' log (Function.update v i {}) := by
  cases task with
  | admitting =>
    cases hdrop
    exact h.forget (u := {}) hu none (.inl rfl)
  | recovering index submit => exact h.submit_drop (u := {}) submit hu hdrop
  | nonces operation next rest =>
    cases hdrop
    exact h.finish (by rw [hu]; rfl)
  | contexts operation drafts rest =>
    cases hdrop
    exact h.finish (by rw [hu]; rfl)
  | balances operation drafts insufficient rest =>
    cases hdrop
    exact h.finish (by rw [hu]; rfl)
  | signing operation entries rest =>
    cases hdrop
    exact h.finish (by rw [hu]; rfl)
  | registering operation entries => cases hdrop
  | failing operation error => cases hdrop

end Prepare

/-! ## The system -/

namespace World

variable {crypto : Crypto} {w : World}

/-- What holds in every state of a run. -/
structure Inv (crypto : Crypto) (w : World) : Prop where
  held : Ethereum.Inv crypto w.state w.log fun i => (w.callers i).view
  tasks : ∀ i, (w.callers i).Ok

theorem view_update (callers : Nat → Caller) (i : Nat) (caller : Caller) :
    (fun j => (Function.update callers i caller j).view) =
      Function.update (fun j => (callers j).view) i caller.view := by
  funext j
  by_cases hj : j = i
  · subst hj
    simp
  · simp [Function.update_of_ne hj]

theorem Inv.update (h : Inv crypto w) {s : State} {log : List Trace} {i : Nat} {caller : Caller}
    (hheld : Ethereum.Inv crypto s log (Function.update (fun j => (w.callers j).view) i caller.view))
    (hok : caller.Ok) : Inv crypto ⟨s, Function.update w.callers i caller, log⟩ := by
  refine ⟨?_, fun j => ?_⟩
  · simp only
    rw [view_update]
    exact hheld
  · by_cases hj : j = i
    · subst hj
      simp only [Function.update_self]
      exact hok
    · simp only [Function.update_of_ne hj]
      exact h.tasks j

theorem Inv.set (h : Inv crypto w) (i : Nat) {caller : Caller} (hview : (w.callers i).view = caller.view)
    (hok : caller.Ok) : Inv crypto (w.set i caller) := by
  refine h.update ?_ hok
  rw [← hview, Function.update_eq_self i fun j => (w.callers j).view]
  exact h.held

theorem Inv.start (h : Inv crypto w) (i : Nat) {caller : Caller} (hview : caller.view = {}) (hok : caller.Ok) :
    Inv crypto (w.start i caller) := by
  unfold World.start
  split
  · rename_i hidle
    refine h.set i ?_ hok
    rw [hidle, hview]
    rfl
  · exact h

theorem view_prepared (single : Bool) (result : Except PreparationError PreparedBatch) :
    (prepared single result).view = match result with
      | .error _ => {}
      | .ok b => { operation := b.operation } := by
  cases result with
  | error e => rfl
  | ok b =>
    unfold prepared
    dsimp only
    generalize b.entries.getLast? = last
    generalize hop : b.operation = operation
    cases single with
    | false => exact congrArg (fun op => ({ operation := op } : View)) hop
    | true => cases operation <;> cases last <;> rfl

theorem ok_prepared (single : Bool) (result : Except PreparationError PreparedBatch) :
    (prepared single result).Ok := by
  unfold prepared
  repeat' split
  all_goals trivial

theorem Inv.preparing (hinj : Function.Injective crypto.keccak) (h : Inv crypto w) {i : Nat} {single : Bool}
    {preparations : List Preparation} {task : Prepare} (hi : w.callers i = .preparing single preparations task)
    (reply : Reply) : Inv crypto (w.resume crypto i reply) := by
  have hok := h.tasks i
  rw [hi] at hok
  have hact := h.held.prepare (i := i) hinj task (by rw [hi]; rfl) hok reply
  unfold Inv.Keeps at hact
  unfold World.resume
  rw [hi]
  refine h.update ?_ ?_
  · -- The view follows what the poll left, a task or a batch.
    convert hact using 2
    unfold Polled.view
    generalize (task.poll crypto preparations w.state reply).outcome = outcome
    cases outcome with
    | pending task' => rfl
    | done result =>
      rw [view_prepared]
      cases result <;> rfl
  · split
    · rename_i task' hpending
      exact Prepare.ok_poll task task' hok reply hpending
    · exact ok_prepared _ _

theorem Inv.detaching (h : Inv crypto w) {i : Nat} {operation : UInt64} {entry : PreparedEntry}
    (hi : w.callers i = .detaching operation entry) (reply : Reply) : Inv crypto (w.resume crypto i reply) := by
  have hview : (w.callers i).view = { operation := some operation } := by rw [hi]; rfl
  unfold World.resume
  rw [hi]
  refine h.update ?_ trivial
  split
  · have hkept := h.held.go_on (i := i) hview
    rw [List.append_nil] at hkept
    exact hkept
  · rename_i s hdetach
    have hact := h.held.detach (i := i) hdetach
    simp only [hview] at hact
    exact hact

theorem Inv.sending (h : Inv crypto w) {i : Nat} {b : PreparedBatch} {submit : Submit}
    (hi : w.callers i = .sending b (.submitting submit)) (reply : Reply) : Inv crypto (w.resume crypto i reply) := by
  have hview : (w.callers i).view = { ({ operation := b.operation } : View) with claim := submit.held } := by
    rw [hi]; rfl
  have hact := h.held.submit (i := i) submit hview reply
  unfold World.resume
  rw [hi]
  simp only [Next.poll]
  split <;> rename_i hpoll <;> rw [hpoll] at hact
  · exact h.update hact trivial
  · exact h.update hact trivial
  · split
    · exact h.update hact trivial
    · exact h.update hact trivial

theorem Inv.finishing (h : Inv crypto w) {i : Nat} {b : PreparedBatch} {result : Option TransactionId}
    (hi : w.callers i = .sending b (.finishing result)) (reply : Reply) : Inv crypto (w.resume crypto i reply) := by
  have hview : (w.callers i).view = { operation := b.operation } := by rw [hi]; rfl
  have hlog : w.log ++ [] = w.log := List.append_nil _
  unfold World.resume
  rw [hi]
  simp only [Next.poll, hlog]
  refine h.update ?_ trivial
  -- A batch that has finished has no operation to give back.
  cases hop : b.operation with
  | none =>
    rw [hop] at hview
    have hkept := h.held.go_on (i := i) hview
    rw [List.append_nil] at hkept
    exact hkept
  | some operation => exact h.held.finish (by simp only [hview, hop])

theorem Inv.broadcasting (h : Inv crypto w) {i : Nat} {submit : Submit} (hi : w.callers i = .broadcasting submit)
    (reply : Reply) : Inv crypto (w.resume crypto i reply) := by
  have hview : (w.callers i).view = { ({} : View) with claim := submit.held } := by rw [hi]; rfl
  have hact := h.held.submit (i := i) submit hview reply
  unfold World.resume
  rw [hi]
  refine h.update ?_ ?_
  · convert hact using 2
    unfold Polled.held
    generalize (submit.poll w.state reply).outcome = outcome
    cases outcome <;> rfl
  · split <;> trivial

theorem Inv.resume (hinj : Function.Injective crypto.keccak) (h : Inv crypto w) (i : Nat) (reply : Reply) :
    Inv crypto (w.resume crypto i reply) := by
  cases hi : w.callers i with
  | idle =>
    unfold World.resume
    rw [hi]
    exact h
  | batch b =>
    unfold World.resume
    rw [hi]
    exact h
  | preparing single preparations task => exact h.preparing hinj hi reply
  | detaching operation entry => exact h.detaching hi reply
  | leaving operation =>
    unfold World.resume
    rw [hi]
    refine h.update ?_ trivial
    exact h.held.finish (by rw [hi]; rfl)
  | sending b task =>
    cases task with
    | submitting submit => exact h.sending hi reply
    | finishing result => exact h.finishing hi reply
  | broadcasting submit => exact h.broadcasting hi reply

theorem Inv.drop (h : Inv crypto w) (i : Nat) : Inv crypto (w.drop i) := by
  have hheld := h.held
  unfold World.drop
  split
  · exact h
  · exact h
  · exact h
  · rename_i single preparations task hi
    split
    · exact h
    · rename_i s hdrop
      refine h.update ?_ trivial
      exact hheld.prepare_drop task (by rw [hi]; rfl) hdrop
  · rename_i b hi
    have hview : (w.callers i).view = { operation := b.operation } := by rw [hi]; rfl
    refine h.update ?_ trivial
    cases hop : b.operation with
    | none =>
      rw [hop] at hview
      have hkept := hheld.go_on (i := i) hview
      rw [List.append_nil] at hkept
      exact hkept
    | some operation => exact hheld.finish (by simp only [hview, hop])
  · rename_i b task hi
    split
    · exact h
    · rename_i s hdrop
      cases task with
      | submitting submit =>
        have hview : (w.callers i).view = { ({ operation := b.operation } : View) with claim := submit.held } := by
          rw [hi]; rfl
        exact h.update (hheld.submit_drop submit hview hdrop) trivial
      | finishing result => cases hdrop
  · rename_i submit hi
    split
    · exact h
    · rename_i s hdrop
      have hview : (w.callers i).view = { ({} : View) with claim := submit.held } := by rw [hi]; rfl
      exact h.update (hheld.submit_drop submit hview hdrop) trivial

theorem Inv.step (hinj : Function.Injective crypto.keccak) (h : Inv crypto w) (event : Event) :
    Inv crypto (w.step crypto event) := by
  cases event with
  | prepareBatch i preparations => exact h.start i rfl trivial
  | prepareOne i preparation => exact h.start i rfl trivial
  | next i =>
    rw [World.step]
    split
    · rename_i b hi
      refine h.set i ?_ trivial
      rw [hi, PreparedBatch.next]
      split <;> rfl
    · exact h
  | broadcast i transaction => exact h.start i rfl trivial
  | resume i reply => exact h.resume hinj i reply
  | drop i => exact h.drop i

theorem inv_empty : Inv crypto {} := by
  refine ⟨⟨?_, fun _ => viewOk_empty, ?_, ?_⟩, fun _ => trivial⟩
  · refine ⟨?_, by simp, by simp, ?_, by simp, by simp, by simp, by simp, ?_⟩
    · simp [State.sender]
    · simp [State.sender]
    · intro before t after hsplit
      simp at hsplit
  · rintro i j operation ⟨⟩
  · rintro i j c c' sent sent' ⟨⟩

theorem Inv.steps (hinj : Function.Injective crypto.keccak) (h : Inv crypto w) (events : List Event) :
    Inv crypto (events.foldl (World.step crypto) w) := by
  induction events generalizing w with
  | nil => exact h
  | cons event rest ih => exact ih (h.step hinj event)

theorem inv_run (hinj : Function.Injective crypto.keccak) (events : List Event) :
    Inv crypto (run crypto events) := inv_empty.steps hinj events

/-- Two envelopes with one sender and one nonce are handed over only if the first attempt of
the earlier one was rejected before the nonce of the later one was assigned. -/
theorem nonce_safety (hinj : Function.Injective crypto.keccak) (events : List Event)
    {earlier rest : List Trace} {t t' : SignedTransaction}
    (hlog : (run crypto events).log = earlier ++ .handed t' :: rest) (ht : .handed t ∈ earlier) (hne : t ≠ t')
    (hsender : crypto.recover t.envelope = crypto.recover t'.envelope)
    (hnonce : t.envelope.nonce = t'.envelope.nonce) :
    ∃ operation a start before between after, crypto.recover t'.envelope = some a ∧
      earlier = before ++ .assigned operation a start :: (between ++ .registered operation t' :: after) ∧
      (∀ n, .assigned operation a n ∉ before) ∧ (∀ operation', .registered operation' t' ∉ after) ∧
      FirstRejected before t := by
  obtain ⟨operation, a, start, before, between, after, ha, hsplit, honce, hlast, hall⟩ :=
    (inv_run hinj events).held.core.safe earlier t' rest hlog
  exact ⟨operation, a, start, before, between, after, ha, hsplit, honce, hlast,
    hall t ht hne (hsender.trans ha) hnonce⟩

end World

/-! ## A nonce that is given twice -/

/-- Every field, with the lengths that keep the last three apart. -/
def Envelope.numbers (e : Envelope) : List Nat :=
  [e.chainId.toNat, e.nonce.toNat, e.gasLimit.toNat, e.maxFeePerGas.val, e.maxPriorityFeePerGas.val,
    e.value.val, e.target.length, e.input.length] ++ (e.target ++ (e.input ++ e.signature)).map (·.toNat)

def unary (numbers : List Nat) : List UInt8 := numbers.flatMap fun n => List.replicate n 1 ++ [0]

/-- A signature is the signer's address, and an id spells the envelope out. -/
def spelled : Crypto where
  recover e := some e.signature
  keccak e := unary e.numbers

theorem unary_injective : Function.Injective unary := by
  have hhead : ∀ (n m : Nat) (xs ys : List UInt8),
      List.replicate n 1 ++ 0 :: xs = List.replicate m 1 ++ 0 :: ys → n = m ∧ xs = ys := by
    intro n
    induction n with
    | zero =>
      intro m xs ys h
      cases m with
      | zero => simpa using h
      | succ m => simp [List.replicate_succ] at h
    | succ n ih =>
      intro m xs ys h
      cases m with
      | zero => simp [List.replicate_succ] at h
      | succ m =>
        have := ih m xs ys (by simpa [List.replicate_succ] using h)
        simpa using this
  intro ns
  induction ns with
  | nil =>
    intro ms h
    cases ms with
    | nil => rfl
    | cons m ms => simp [unary] at h
  | cons n ns ih =>
    intro ms h
    cases ms with
    | nil => simp [unary] at h
    | cons m ms =>
      have hsplit := hhead n m (unary ns) (unary ms) (by simpa [unary] using h)
      rw [hsplit.1, ih hsplit.2]

theorem numbers_injective : Function.Injective Envelope.numbers := by
  intro e e' h
  simp only [Envelope.numbers, List.cons_append, List.nil_append, List.cons.injEq, UInt64.toNat_inj,
    Fin.val_inj] at h
  obtain ⟨hchain, hnonce, hgas, hfee, hpriority, hvalue, htarget, hinput, hbytes⟩ := h
  have hbytes' := (List.map_inj_right fun _ _ => UInt8.toNat_inj.mp).mp hbytes
  obtain ⟨ht, hrest⟩ := List.append_inj hbytes' htarget
  obtain ⟨hi, hs⟩ := List.append_inj hrest hinput
  cases e
  cases e'
  simp_all

theorem spelled_injective : Function.Injective spelled.keccak := unary_injective.comp numbers_injective

namespace World

/-- The sender `[7]` pays `value` to `[8]`. -/
def signedAt (nonce : UInt64) (value : Wei) : SignedTransaction :=
  let envelope : Envelope := ⟨1, nonce, 1, 1, 1, [8], value, [], [7]⟩
  ⟨spelled.keccak envelope, envelope⟩

/-- The pending nonce is 5, and the node rejects. -/
def refusedPayment (value : Wei) : List Event :=
  let reply : Reply := { nonce := .ok 5, context := .ok ⟨1, 1, 1, 1⟩, balance := .ok 9, signature := .ok [7],
                         broadcast := .error { kind := .rejected, message := "nonce too low" } }
  Event.prepareOne 0 ⟨.native [7] [8] value, 1⟩ :: List.replicate 12 (Event.resume 0 reply) ++
    Event.broadcast 0 (signedAt 5 value) :: List.replicate 3 (Event.resume 0 reply)

theorem nonce_safety_twice :
    let earlier := [.assigned 0 [7] 5, .registered 0 (signedAt 5 1), .handed (signedAt 5 1),
      .rejected (signedAt 5 1), .assigned 1 [7] 5, .registered 1 (signedAt 5 2)]
    (run spelled (refusedPayment 1 ++ refusedPayment 2)).log =
        earlier ++ .handed (signedAt 5 2) :: [.rejected (signedAt 5 2)] ∧
      ∃ operation a start before between after, spelled.recover (signedAt 5 2).envelope = some a ∧
        earlier = before ++ .assigned operation a start ::
          (between ++ .registered operation (signedAt 5 2) :: after) ∧
        (∀ n, .assigned operation a n ∉ before) ∧
        (∀ operation', .registered operation' (signedAt 5 2) ∉ after) ∧ FirstRejected before (signedAt 5 1) := by
  have hlog : (run spelled (refusedPayment 1 ++ refusedPayment 2)).log =
      [.assigned 0 [7] 5, .registered 0 (signedAt 5 1), .handed (signedAt 5 1), .rejected (signedAt 5 1),
        .assigned 1 [7] 5, .registered 1 (signedAt 5 2)] ++ .handed (signedAt 5 2) ::
        [.rejected (signedAt 5 2)] := by decide +kernel
  refine ⟨hlog, ?_⟩
  exact nonce_safety spelled_injective _ hlog (by decide) (by decide) (by decide) (by decide)

end World

end PaymentSdk.Ethereum
