import PaymentSdk.Solana.Exclusive

/-!
# What a submission reports is what it dispatched

The log of one send says which envelopes were sent, how often, and which were observed. A
report agrees with it, whatever the node answers and whenever the caller goes away.
-/

open Interaction

namespace PaymentSdk.Solana

open Wallets (ErrorKind Error SendError)

/-! ## What a log says -/

/-- The envelopes a log shows as sent. -/
def sentOf (log : List Trace) : List Envelope :=
  log.filterMap fun
    | .sent e => some e
    | _ => none

def observedOf (log : List Trace) : List Envelope :=
  log.filterMap fun
    | .observed e => some e
    | _ => none

/-- The block heights that were read. -/
def heightsOf (log : List Trace) : List UInt64 :=
  log.filterMap fun
    | .height value => some value
    | _ => none

def reportsOf (log : List Trace) : List (Except SendError (List Id)) :=
  log.filterMap fun
    | .reported result => some result
    | _ => none

@[simp] theorem sentOf_append (log events : List Trace) : sentOf (log ++ events) = sentOf log ++ sentOf events :=
  List.filterMap_append

@[simp] theorem observedOf_append (log events : List Trace) :
    observedOf (log ++ events) = observedOf log ++ observedOf events := List.filterMap_append

@[simp] theorem heightsOf_append (log events : List Trace) :
    heightsOf (log ++ events) = heightsOf log ++ heightsOf events := List.filterMap_append

@[simp] theorem reportsOf_append (log events : List Trace) :
    reportsOf (log ++ events) = reportsOf log ++ reportsOf events := List.filterMap_append

theorem mem_reportsOf {log : List Trace} {result : Except SendError (List Id)} :
    result ∈ reportsOf log ↔ .reported result ∈ log := by
  simp only [reportsOf, List.mem_filterMap]
  constructor
  · rintro ⟨x, hx, h⟩
    cases x <;> cases h
    exact hx
  · exact fun h => ⟨_, h, rfl⟩

theorem mem_sentOf {log : List Trace} {e : Envelope} : e ∈ sentOf log ↔ .sent e ∈ log := by
  simp only [sentOf, List.mem_filterMap]
  constructor
  · rintro ⟨x, hx, h⟩
    cases x <;> cases h
    exact hx
  · exact fun h => ⟨_, h, rfl⟩

theorem of_heights (heights : List UInt64) :
    sentOf (heights.map .height) = [] ∧ observedOf (heights.map .height) = [] ∧
      reportsOf (heights.map .height) = [] ∧ heightsOf (heights.map .height) = heights := by
  induction heights with
  | nil => exact ⟨rfl, rfl, rfl, rfl⟩
  | cons value rest ih =>
    obtain ⟨hsent, hobserved, hreports, hheights⟩ := ih
    refine ⟨hsent, hobserved, hreports, ?_⟩
    rw [List.map_cons, ← List.singleton_append, heightsOf_append, hheights]
    rfl

/-- The envelopes in order, each one to three times. -/
inductive Repeats : List Envelope → List Envelope → Prop
  | nil : Repeats [] []
  | snoc {done sent : List Envelope} {e : Envelope} {n : Nat} (before : Repeats done sent) (pos : 1 ≤ n) (le : n ≤ 3) :
    Repeats (done ++ [e]) (sent ++ List.replicate n e)

/-- Nothing is sent before the activation, nor past the lifetime by the last height read. -/
def Checked (log : List Trace) : Prop :=
  ∀ before e after, log = before ++ .sent e :: after → .activated ∈ before ∧
    ∃ value, (heightsOf before).getLast? = some value ∧ value ≤ e.lifetime.lastValidBlockHeight

/-- The envelope that the task stopped at, and whether it was sent. -/
def StoppedAt (envelopes : List Envelope) (log : List Trace) (error : SendError) : Prop :=
  ∃ done e rest, envelopes = done ++ e :: rest ∧ error.accepted = done.map (·.id) ∧
    error.failedIndex = some e.index ∧ observedOf log = done ∧
    (error.ambiguousTransactionId = some e.id ∧ Repeats (done ++ [e]) (sentOf log) ∨
      error.ambiguousTransactionId = none ∧ Repeats done (sentOf log))

/-- An error of the caller's own. With an index it is about the first envelope. -/
structure Refusal (envelopes : List Envelope) (error : SendError) : Prop where
  accepted : error.accepted = []
  definite : error.ambiguousTransactionId = none
  index : error.failedIndex = none ∨ error.failedIndex = envelopes.head?.map (·.index)

/-- What the log of a submission says at any time. -/
structure Account (envelopes : List Envelope) (log : List Trace) : Prop where
  checked : Checked log
  order : ∃ done rest, envelopes = done ++ rest ∧ Repeats done (sentOf log) ∧
    (observedOf log = done ∨ ∃ e, observedOf log ++ [e] = done)
  success : ∀ ids, .reported (.ok ids) ∈ log → ids = envelopes.map (·.id) ∧ observedOf log = envelopes
  failure : ∀ error, .reported (.error error) ∈ log → StoppedAt envelopes log error
  returned : ∀ result, .returned result ∈ log → .reported result ∈ log ∨
    ∃ error, result = .error error ∧ Refusal envelopes error ∧ (error.failedIndex ≠ none → sentOf log = [])

section Log

variable {envelopes : List Envelope} {log events : List Trace} {e : Envelope}

theorem Checked.append (h : Checked log) (hout : sentOf events = []) : Checked (log ++ events) := by
  intro before e after hlog
  have hnot : .sent e ∉ events := by
    rw [← mem_sentOf, hout]
    simp
  obtain ⟨rest, hold, -⟩ := split_of_append hlog hnot
  exact h before e rest hold

theorem Checked.sent (h : Checked log) (hactive : .activated ∈ log) {value : UInt64}
    (hlast : (heightsOf log).getLast? = some value) (hle : value ≤ e.lifetime.lastValidBlockHeight) :
    Checked (log ++ [.sent e]) := by
  intro before e' after hlog
  rcases List.eq_nil_or_concat after with rfl | ⟨rest, last, rfl⟩
  · obtain ⟨rfl, heq⟩ := List.append_inj' hlog rfl
    cases heq
    exact ⟨hactive, value, hlast, hle⟩
  · have hassoc : log ++ [.sent e] = (before ++ .sent e' :: rest) ++ [last] := by simp [hlog]
    obtain ⟨rfl, -⟩ := List.append_inj' hassoc rfl
    exact h before e' rest rfl

theorem Account.append (h : Account envelopes log) (hsent : sentOf events = []) (hobserved : observedOf events = [])
    (hreports : reportsOf events = [])
    (hreturned : ∀ result, .returned result ∈ events → .reported result ∈ log ∨
      ∃ error, result = .error error ∧ Refusal envelopes error ∧ (error.failedIndex ≠ none → sentOf log = [])) :
    Account envelopes (log ++ events) := by
  have hsent' : sentOf (log ++ events) = sentOf log := by rw [sentOf_append, hsent, List.append_nil]
  have hobserved' : observedOf (log ++ events) = observedOf log := by
    rw [observedOf_append, hobserved, List.append_nil]
  have hreport : ∀ {result}, .reported result ∈ log ++ events → .reported result ∈ log := by
    intro result hmem
    rcases List.mem_append.mp hmem with hmem | hmem
    · exact hmem
    · rw [← mem_reportsOf, hreports] at hmem
      simp at hmem
  refine ⟨h.checked.append hsent, ?_, fun ids hids => ?_, fun error herror => ?_, fun result hresult => ?_⟩
  · rw [hsent', hobserved']
    exact h.order
  · rw [hobserved']
    exact h.success ids (hreport hids)
  · unfold StoppedAt
    rw [hsent', hobserved']
    exact h.failure error (hreport herror)
  · rw [hsent']
    have hold : .reported result ∈ log ∨ ∃ error, result = .error error ∧ Refusal envelopes error ∧
        (error.failedIndex ≠ none → sentOf log = []) := by
      rcases List.mem_append.mp hresult with hmem | hmem
      · exact h.returned result hmem
      · exact hreturned result hmem
    exact hold.imp_left (List.mem_append_left _)

theorem Account.extend (h : Account envelopes log) (hnone : reportsOf log = [])
    (hrefused : ∀ error, .returned (.error error) ∈ log → error.failedIndex = none)
    (hreturn : ∀ result, .returned result ∉ events) (hchecked : Checked (log ++ events))
    (horder : ∃ done rest, envelopes = done ++ rest ∧ Repeats done (sentOf (log ++ events)) ∧
      (observedOf (log ++ events) = done ∨ ∃ e, observedOf (log ++ events) ++ [e] = done))
    (hsuccess : ∀ ids, .reported (.ok ids) ∈ events →
      ids = envelopes.map (·.id) ∧ observedOf (log ++ events) = envelopes)
    (hfailure : ∀ error, .reported (.error error) ∈ events → StoppedAt envelopes (log ++ events) error) :
    Account envelopes (log ++ events) := by
  have hnew : ∀ {result}, .reported result ∈ log ++ events → .reported result ∈ events := by
    intro result hmem
    rcases List.mem_append.mp hmem with hmem | hmem
    · rw [← mem_reportsOf, hnone] at hmem
      simp at hmem
    · exact hmem
  refine ⟨hchecked, horder, fun ids hids => hsuccess ids (hnew hids), fun error he => hfailure error (hnew he), ?_⟩
  intro result hresult
  rcases List.mem_append.mp hresult with hold | hmem
  · rcases h.returned result hold with hreported | ⟨error, rfl, hrefusal, _⟩
    · exact .inl (List.mem_append_left _ hreported)
    · exact .inr ⟨error, rfl, hrefusal, fun hindex => absurd (hrefused error hold) hindex⟩
  · exact absurd hmem (hreturn result)

end Log

/-! ## The task -/

/-- The task is at an envelope, after those in `done`. -/
structure Underway (envelopes : List Envelope) (leases : Finset Address) (log : List Trace) (r : Running)
    (done : List Envelope) : Prop where
  active : .activated ∈ log
  unreported : reportsOf log = []
  guarded : r.guarded = leases
  split : envelopes = done ++ r.envelope :: r.rest
  accepted : r.accepted = done.map (·.id)
  observed : observedOf log = done

def Task.At (envelopes : List Envelope) (leases : Finset Address) (log : List Trace) : Task → Prop
  | dormant _ es guarded => es = envelopes ∧ guarded = leases ∧ sentOf log = [] ∧ observedOf log = [] ∧
    reportsOf log = [] ∧ ∃ value, (heightsOf log).getLast? = some value ∧
      ∀ first ∈ envelopes.head?, value ≤ first.lifetime.lastValidBlockHeight
  | height r => ∃ done, Underway envelopes leases log r done ∧ Repeats done (sentOf log)
  | sending r attempt | status r attempt | expiry r attempt => ∃ done sent, Underway envelopes leases log r done ∧
    Repeats done sent ∧ sentOf log = sent ++ List.replicate (attempt + 1) r.envelope ∧ attempt < 3
  | resolving e _ => ∃ accepted, .reported (.error (unknownOutcome e accepted)) ∈ log

section Task

variable {crates : Crates} {reply : Reply} {s : SourceState} {envelopes : List Envelope} {leases : Finset Address}
  {log : List Trace} {r : Running} {done sent : List Envelope}

theorem Underway.append {events : List Trace} (h : Underway envelopes leases log r done)
    (hreports : reportsOf events = []) (hobserved : observedOf events = []) :
    Underway envelopes leases (log ++ events) r done where
  active := List.mem_append_left _ h.active
  unreported := by rw [reportsOf_append, h.unreported, hreports, List.append_nil]
  guarded := h.guarded
  split := h.split
  accepted := h.accepted
  observed := by rw [observedOf_append, h.observed, hobserved, List.append_nil]

/-- What a poll of the task has to establish. -/
def Task.Next (envelopes : List Envelope) (leases : Finset Address) (log : List Trace) (ran : Ran) : Prop :=
  Account envelopes (log ++ ran.trace) ∧ ∀ t ∈ ran.task, t.At envelopes leases (log ++ ran.trace)

variable (haccount : Account envelopes log)
  (hrefused : ∀ error, .returned (.error error) ∈ log → error.failedIndex = none)

include haccount hrefused

theorem next_dispatch (h : Underway envelopes leases log r done) (hdone : Repeats done sent) {attempt : Nat}
    (hsent : sentOf log = sent ++ List.replicate attempt r.envelope) (hattempt : attempt < 3)
    {heights : List UInt64} {value : UInt64} (hlast : (heightsOf log ++ heights).getLast? = some value)
    (hle : value ≤ r.envelope.lifetime.lastValidBlockHeight) :
    Task.Next envelopes leases log (Task.dispatch s r attempt (heights.map .height)) := by
  obtain ⟨hs, ho, hr, hh⟩ := of_heights heights
  have hsent' : sentOf (log ++ (heights.map .height ++ [.sent r.envelope])) =
      sent ++ List.replicate (attempt + 1) r.envelope := by
    rw [sentOf_append, sentOf_append, hs, hsent, List.replicate_succ', List.append_assoc]
    rfl
  have hobserved' : observedOf (log ++ (heights.map .height ++ [.sent r.envelope])) = done := by
    rw [observedOf_append, observedOf_append, ho, h.observed]
    exact List.append_nil _
  have hreports : reportsOf (heights.map .height ++ [.sent r.envelope]) = [] := by
    rw [reportsOf_append, hr]
    rfl
  have hunderway : Underway envelopes leases (log ++ (heights.map .height ++ [.sent r.envelope])) r done := by
    refine h.append hreports ?_
    rw [observedOf_append, ho]
    rfl
  simp only [Task.Next, Task.dispatch]
  refine ⟨haccount.extend h.unreported hrefused ?_ ?_ ?_ ?_ ?_, fun t ht => ?_⟩
  · intro result hmem
    simp at hmem
  · rw [← List.append_assoc]
    refine (haccount.checked.append hs).sent (List.mem_append_left _ h.active) ?_ hle
    rw [heightsOf_append, hh, hlast]
  · refine ⟨done ++ [r.envelope], r.rest, by simp [h.split], ?_, .inr ⟨r.envelope, by rw [hobserved']⟩⟩
    rw [hsent']
    exact hdone.snoc (by omega) (by omega)
  · intro ids hmem
    simp at hmem
  · intro error hmem
    simp at hmem
  · cases ht
    exact ⟨done, sent, hunderway, hdone, hsent', hattempt⟩

theorem next_report (hnone : reportsOf log = []) (heights : List UInt64) (result : Except SendError (List Id))
    (hsuccess : ∀ ids, result = .ok ids → ids = envelopes.map (·.id) ∧ observedOf log = envelopes)
    (hfailure : ∀ error, result = .error error → StoppedAt envelopes log error) :
    Account envelopes (log ++ (heights.map .height ++ [.reported result])) := by
  obtain ⟨hs, ho, hr, hh⟩ := of_heights heights
  have hsent' : sentOf (log ++ (heights.map .height ++ [.reported result])) = sentOf log := by
    rw [sentOf_append, sentOf_append, hs]
    exact List.append_nil _
  have hobserved' : observedOf (log ++ (heights.map .height ++ [.reported result])) = observedOf log := by
    rw [observedOf_append, observedOf_append, ho]
    exact List.append_nil _
  refine haccount.extend hnone hrefused ?_ ?_ ?_ ?_ ?_
  · intro result' hmem
    simp at hmem
  · refine haccount.checked.append ?_
    rw [sentOf_append, hs]
    rfl
  · rw [hsent', hobserved']
    exact haccount.order
  · intro ids hmem
    rw [hobserved']
    refine hsuccess ids ?_
    simpa [eq_comm] using hmem
  · intro error hmem
    unfold StoppedAt
    rw [hsent', hobserved']
    refine hfailure error ?_
    simpa [eq_comm] using hmem

theorem next_ambiguous (h : Underway envelopes leases log r done) (hdone : Repeats done sent) {attempt : Nat}
    (hsent : sentOf log = sent ++ List.replicate (attempt + 1) r.envelope) (hattempt : attempt < 3)
    (heights : List UInt64) :
    Task.Next envelopes leases log (Task.ambiguous s r (heights.map .height)) := by
  refine ⟨next_report haccount hrefused h.unreported heights _ ?_ ?_, fun t ht => ?_⟩
  · intro ids hids
    cases hids
  · intro error herror
    cases herror
    refine ⟨done, r.envelope, r.rest, h.split, h.accepted, rfl, h.observed, .inl ⟨rfl, ?_⟩⟩
    rw [hsent]
    exact hdone.snoc (by omega) (by omega)
  · cases ht
    exact ⟨r.accepted, by simp [Task.ambiguous]⟩

theorem next_accept (h : Underway envelopes leases log r done) (hdone : Repeats done sent) {attempt : Nat}
    (hsent : sentOf log = sent ++ List.replicate (attempt + 1) r.envelope) (hattempt : attempt < 3) :
    Task.Next envelopes leases log (Task.accept s r) := by
  have hsent' : Repeats (done ++ [r.envelope]) (sentOf (log ++ [.observed r.envelope])) := by
    rw [sentOf_append, hsent]
    have hsnoc := hdone.snoc (e := r.envelope) (n := attempt + 1) (by omega) (by omega)
    simpa [sentOf] using hsnoc
  have hobserved' : observedOf (log ++ [.observed r.envelope]) = done ++ [r.envelope] := by
    rw [observedOf_append, h.observed]
    rfl
  have haccount' : Account envelopes (log ++ [.observed r.envelope]) := by
    refine haccount.extend h.unreported hrefused (by simp) (haccount.checked.append rfl) ?_ (by simp) (by simp)
    exact ⟨done ++ [r.envelope], r.rest, by simp [h.split], hsent', .inl hobserved'⟩
  have hnone : reportsOf (log ++ [.observed r.envelope]) = [] := by
    rw [reportsOf_append, h.unreported]
    rfl
  unfold Task.accept Task.Next
  dsimp only
  split
  · rename_i hrest
    refine ⟨?_, fun t ht => ?_⟩
    swap
    · cases ht
    have hall : envelopes = done ++ [r.envelope] := by rw [h.split, hrest]
    have hreport := next_report haccount' (by simpa using hrefused) hnone [] (.ok (r.accepted ++ [r.envelope.id])) ?_ ?_
    · simpa [Task.complete] using hreport
    · intro ids hids
      cases hids
      refine ⟨?_, by rw [hobserved', hall]⟩
      rw [hall, h.accepted, List.map_append]
      rfl
    · intro error herror
      cases herror
  · rename_i next rest hrest
    refine ⟨haccount', fun t ht => ?_⟩
    cases ht
    refine ⟨done ++ [r.envelope], ⟨List.mem_append_left _ h.active, hnone, h.guarded, ?_, ?_, hobserved'⟩, hsent'⟩
    · simp [h.split, hrest]
    · simp [h.accepted]

theorem next_definite (h : Underway envelopes leases log r done) (hdone : Repeats done (sentOf log))
    (heights : List UInt64) (message : String) :
    Task.Next envelopes leases log
      (Task.complete s r.guarded (.error (definite r.envelope.index r.accepted message)) (heights.map .height)) := by
  refine ⟨next_report haccount hrefused h.unreported heights _ ?_ ?_, fun t ht => ?_⟩
  · intro ids hids
    cases hids
  · intro error herror
    cases herror
    exact ⟨done, r.envelope, r.rest, h.split, h.accepted, rfl, h.observed, .inr ⟨rfl, hdone⟩⟩
  · cases ht

theorem next_start {floor : UInt64} (h : Task.At envelopes leases log (.dormant floor envelopes leases))
    (hactive : .activated ∈ log) : Task.Next envelopes leases log (Task.start s floor leases envelopes) := by
  obtain ⟨-, -, hsent, hobserved, hreports, value, hlast, hle⟩ := h
  cases envelopes with
  | nil =>
    refine ⟨next_report haccount hrefused hreports [] _ ?_ ?_, fun t ht => ?_⟩
    · intro ids hids
      cases hids
      exact ⟨rfl, hobserved⟩
    · intro error herror
      cases herror
    · cases ht
  | cons first rest =>
    have hunderway : Underway (first :: rest) leases log ⟨floor, leases, [], first, rest⟩ [] :=
      ⟨hactive, hreports, rfl, rfl, rfl, hobserved⟩
    have hlast' : (heightsOf log ++ []).getLast? = some value := by rw [List.append_nil, hlast]
    have hsent' : sentOf log = [] ++ List.replicate 0 first := hsent
    exact next_dispatch haccount hrefused hunderway .nil hsent' (by omega) hlast' (hle first rfl)

omit hrefused in
/-- After the report, nothing is sent. -/
theorem next_resolving {task : Resolve} (h : (Task.resolving e task).At envelopes leases log) :
    Task.Next envelopes leases log ((Task.resolving e task).poll crates s reply) := by
  obtain ⟨accepted, hreported⟩ := h
  have hgoes : ∀ (s' : SourceState) (task' : Option Resolve) (events : List Trace),
      sentOf events = [] → observedOf events = [] → reportsOf events = [] → (∀ result, .returned result ∉ events) →
      Task.Next envelopes leases log ⟨s', task'.map (.resolving e), events⟩ := by
    intro s' task' events hs ho hr hreturn
    refine ⟨haccount.append hs ho hr fun result hmem => absurd hmem (hreturn result), fun t ht => ?_⟩
    obtain ⟨task'', -, rfl⟩ := Option.map_eq_some_iff.mp ht
    exact ⟨accepted, List.mem_append_left _ hreported⟩
  cases task with
  | waiting => exact hgoes s (some _) [] rfl rfl rfl (by simp)
  | inspecting task =>
    rw [Task.poll, Resolve.poll]
    cases task.poll e reply with
    | inl task' => exact hgoes s (some _) [] rfl rfl rfl (by simp)
    | inr evidence =>
      cases evidence with
      | present => exact hgoes _ none [.resolved e true] rfl rfl rfl (by simp)
      | absent => exact hgoes _ none [.resolved e false] rfl rfl rfl (by simp)
      | retry c => exact hgoes s (some _) [] rfl rfl rfl (by simp)

omit hrefused in
/-- One poll of the activated task. -/
theorem Task.next_poll (task : Task) (h : task.At envelopes leases log) (hactive : .activated ∈ log)
    (hreturned : ∀ error, .returned (.error error) ∈ log → error.failedIndex = none ∨ .reported (.error error) ∈ log) :
    Task.Next envelopes leases log (task.poll crates s reply) := by
  have hrefused : reportsOf log = [] → ∀ error, .returned (.error error) ∈ log → error.failedIndex = none := by
    intro hnone error hmem
    refine (hreturned error hmem).resolve_right fun hreported => ?_
    rw [← mem_reportsOf, hnone] at hreported
    simp at hreported
  cases task with
  -- The first envelope is only looked at.
  | dormant floor es guarded =>
    obtain ⟨rfl, rfl, -, -, hreports, -⟩ := id h
    exact next_start haccount (hrefused hreports) h hactive
  -- Too late, or the one attempt that the lifetime allows.
  | height r =>
    obtain ⟨done, hunderway, hdone⟩ := h
    replace hrefused := hrefused hunderway.unreported
    have hsent : sentOf log = sentOf log ++ List.replicate 0 r.envelope := by simp
    rw [Task.poll]
    split
    · exact next_definite haccount hrefused hunderway hdone [] _
    · rename_i value _
      split
      · exact next_definite haccount hrefused hunderway hdone [value] _
      · rename_i hle
        exact next_dispatch haccount hrefused hunderway hdone hsent (by omega) List.getLast?_concat
          (UInt64.not_lt.mp hle)
  | sending r attempt =>
    obtain ⟨done, sent, hunderway, hdone, hsent, hattempt⟩ := id h
    replace hrefused := hrefused hunderway.unreported
    rw [Task.poll]
    split
    · exact next_accept haccount hrefused hunderway hdone hsent hattempt
    · refine ⟨by rwa [List.append_nil], fun t ht => ?_⟩
      cases ht
      rwa [List.append_nil]
  | status r attempt =>
    obtain ⟨done, sent, hunderway, hdone, hsent, hattempt⟩ := id h
    replace hrefused := hrefused hunderway.unreported
    rw [Task.poll]
    split
    · exact next_accept haccount hrefused hunderway hdone hsent hattempt
    · split
      · refine ⟨by rwa [List.append_nil], fun t ht => ?_⟩
        cases ht
        rwa [List.append_nil]
      · exact next_ambiguous haccount hrefused hunderway hdone hsent hattempt []
    · exact next_ambiguous haccount hrefused hunderway hdone hsent hattempt []
  -- The same envelope again, as long as it is valid.
  | expiry r attempt =>
    obtain ⟨done, sent, hunderway, hdone, hsent, hattempt⟩ := id h
    replace hrefused := hrefused hunderway.unreported
    rw [Task.poll]
    split
    · exact next_ambiguous haccount hrefused hunderway hdone hsent hattempt []
    · rename_i value _
      split
      · rename_i hnext
        exact next_dispatch haccount hrefused hunderway hdone hsent hnext.2 List.getLast?_concat hnext.1
      · exact next_ambiguous haccount hrefused hunderway hdone hsent hattempt [value]
  | resolving e task => exact next_resolving haccount h

end Task

/-! ## The send -/

/-- The log of one send. -/
def own (i : Nat) (log : List (Nat × Trace)) : List Trace :=
  log.filterMap fun x => if x.1 = i then some x.2 else none

/-- Where the caller is, once it has its batch. -/
def Send.CallerAt (envelopes : List Envelope) (leases : Finset Address) (log : List Trace) (x : Send) : Prop :=
  match x.caller with
  | .submitting (.height batch first) => batch.envelopes = envelopes ∧ batch.leases = leases ∧
    envelopes.head? = some first ∧ log = [] ∧ x.task = none
  | .submitting (.failing _ error) => x.task = none ∧ sentOf log = [] ∧ Refusal envelopes error
  | .submitting .registering | .submitting .waiting | .ended => True
  | .fresh | .acquiring _ _ | .preparing _ _ => False

/-- A send whose task goes by the account of the log. -/
structure Follows (envelopes : List Envelope) (leases : Finset Address) (log : List Trace) (x : Send) : Prop where
  account : Account envelopes log
  task : ∀ t ∈ x.task, t.At envelopes leases log
  started : x.activation = .started → .activated ∈ log
  result : ∀ r ∈ x.result, .reported r ∈ log
  returned : ∀ t ∈ x.task, ∀ error, .returned (.error error) ∈ log →
    error.failedIndex = none ∨ .reported (.error error) ∈ log
  caller : x.CallerAt envelopes leases log

section Send

variable {crates : Crates} {envelopes : List Envelope} {leases : Finset Address} {w : World} {i : Nat} {reply : Reply}

theorem own_act_self (s' : SourceState) (x : Send) (trace : List Trace) :
    own i (w.act i s' x trace).log = own i w.log ++ trace := by
  have htrace : own i (trace.map (i, ·)) = trace := by
    induction trace with
    | nil => rfl
    | cons y rest ih =>
      rw [List.map_cons, own, List.filterMap_cons]
      simp only [if_true]
      rw [← own, ih]
  rw [World.act, own, List.filterMap_append, ← own, ← own, htrace]

theorem own_act_other {j : Nat} (hj : j ≠ i) (s' : SourceState) (x : Send) (trace : List Trace) :
    own i (w.act j s' x trace).log = own i w.log := by
  have htrace : own i (trace.map (j, ·)) = [] := by
    rw [own, List.filterMap_eq_nil_iff]
    intro y hy
    obtain ⟨z, -, rfl⟩ := List.mem_map.mp hy
    simp [hj]
  rw [World.act, own, List.filterMap_append, ← own, ← own, htrace, List.append_nil]

/-- A world after a step: what became of one send and of its log. -/
def Leads (envelopes : List Envelope) (leases : Finset Address) (i : Nat) (w : World) : Prop :=
  Follows envelopes leases (own i w.log) (w.sends i)

theorem leads_act {s' : SourceState} {x : Send} {trace : List Trace}
    (h : Follows envelopes leases (own i w.log ++ trace) x) : Leads envelopes leases i (w.act i s' x trace) := by
  unfold Leads
  rw [own_act_self]
  have hself : (w.act i s' x trace).sends i = x := Function.update_self ..
  rwa [hself]

theorem Task.At.append {log events : List Trace} {task : Task} (h : task.At envelopes leases log)
    (hs : sentOf events = []) (ho : observedOf events = []) (hr : reportsOf events = []) (hh : heightsOf events = []) :
    task.At envelopes leases (log ++ events) := by
  have hsent : sentOf (log ++ events) = sentOf log := by rw [sentOf_append, hs, List.append_nil]
  cases task with
  | dormant floor es guarded =>
    obtain ⟨hes, hguarded, hsent', hobserved, hreports, hlast⟩ := h
    refine ⟨hes, hguarded, hsent.trans hsent', ?_, ?_, ?_⟩
    · rw [observedOf_append, hobserved, ho]
      rfl
    · rw [reportsOf_append, hreports, hr]
      rfl
    · rwa [heightsOf_append, hh, List.append_nil]
  | height r =>
    obtain ⟨done, hunderway, hdone⟩ := h
    exact ⟨done, hunderway.append hr ho, by rwa [hsent]⟩
  | sending r attempt =>
    obtain ⟨done, sent, hunderway, hrest⟩ := h
    exact ⟨done, sent, hunderway.append hr ho, by rwa [hsent]⟩
  | status r attempt =>
    obtain ⟨done, sent, hunderway, hrest⟩ := h
    exact ⟨done, sent, hunderway.append hr ho, by rwa [hsent]⟩
  | expiry r attempt =>
    obtain ⟨done, sent, hunderway, hrest⟩ := h
    exact ⟨done, sent, hunderway.append hr ho, by rwa [hsent]⟩
  | resolving e task =>
    obtain ⟨accepted, hreported⟩ := h
    exact ⟨accepted, List.mem_append_left _ hreported⟩

theorem refusal_operation (kind : ErrorKind) (message : String) : Refusal envelopes (.operation kind message) :=
  ⟨rfl, rfl, .inl rfl⟩

theorem refusal_definite {first : Envelope} (h : envelopes.head? = some first) (message : String) :
    Refusal envelopes (definite first.index [] message) :=
  ⟨rfl, rfl, .inr (by rw [h]; rfl)⟩

theorem Follows.return {log : List Trace} {x : Send} (h : Follows envelopes leases log x)
    {result : Except SendError (List Id)} (activation : Activation)
    (hactivation : activation = .started → x.activation = .started)
    (hresult : .reported result ∈ log ∨ ∃ error, result = .error error ∧ Refusal envelopes error ∧
      error.failedIndex = none) :
    Follows envelopes leases (log ++ [.returned result]) { x with caller := .ended, activation } where
  account := by
    refine h.account.append rfl rfl rfl fun result' hmem => ?_
    have heq : result' = result := by simpa using hmem
    subst heq
    refine hresult.imp_right fun ⟨error, herror, hrefusal, hindex⟩ => ?_
    exact ⟨error, herror, hrefusal, fun hnot => absurd hindex hnot⟩
  task t ht := (h.task t ht).append rfl rfl rfl rfl
  started hstarted := List.mem_append_left _ (h.started (hactivation hstarted))
  result r hr := List.mem_append_left _ (h.result r hr)
  returned t ht error hmem := by
    rcases List.mem_append.mp hmem with hmem | hmem
    · exact (h.returned t ht error hmem).imp_right (List.mem_append_left _)
    · have heq : .error error = result := by simpa using hmem
      rcases hresult with hreported | ⟨error', herror', _, hindex⟩
      · exact .inr (List.mem_append_left _ (heq ▸ hreported))
      · rw [herror'] at heq
        cases heq
        exact .inl hindex
  caller := trivial

theorem leads_pollSubmit (task : Submit) (hcaller : (w.sends i).caller = .submitting task)
    (h : Leads envelopes leases i w) : Leads envelopes leases i (w.pollSubmit i reply task) := by
  have hat := h.caller
  unfold Send.CallerAt at hat
  rw [hcaller] at hat
  cases task with
  | height batch first =>
    obtain ⟨henvelopes, hleases, hfirst, hlog, htask⟩ := hat
    have hfails : ∀ (heights : List UInt64) error, Refusal envelopes error →
        Leads envelopes leases i (w.act i w.state
          { w.sends i with caller := .submitting (.failing batch.leases error) } (heights.map .height)) := by
      intro heights error hrefusal
      obtain ⟨hs, ho, hr, -⟩ := of_heights heights
      refine leads_act ⟨h.account.append hs ho hr (by simp), by simp [htask], fun hstarted => ?_, fun r hr => ?_,
        by simp [htask], htask, by rw [sentOf_append, hs, hlog]; rfl, hrefusal⟩
      · exact List.mem_append_left _ (h.started hstarted)
      · exact List.mem_append_left _ (h.result r hr)
    rw [World.pollSubmit]
    split
    · exact hfails [] _ (refusal_operation _ _)
    · split
      · exact hfails [] _ (refusal_definite hfirst _)
      · rename_i value _
        split
        · exact hfails [value] _ (refusal_definite hfirst _)
        · rename_i hle
          refine leads_act ⟨h.account.append rfl rfl rfl (by simp), fun t ht => ?_, fun hstarted => ?_, fun r hr => ?_,
            fun t ht error hmem => ?_, trivial⟩
          · cases ht
            rw [hlog]
            refine ⟨henvelopes, hleases, rfl, rfl, rfl, value, rfl, fun first' hfirst' => ?_⟩
            cases hfirst.symm.trans hfirst'
            exact UInt64.not_lt.mp hle
          · exact List.mem_append_left _ (h.started hstarted)
          · exact List.mem_append_left _ (h.result r hr)
          · rw [hlog] at hmem
            simp at hmem
  | registering =>
    rw [World.pollSubmit]
    split
    · exact leads_act (h.return .dropped (by simp) (.inr ⟨_, rfl, refusal_operation _ _, rfl⟩))
    · split
      · refine leads_act ⟨h.account.append rfl rfl rfl (by simp), fun t ht => (h.task t ht).append rfl rfl rfl rfl,
          fun _ => by simp, fun r hr => List.mem_append_left _ (h.result r hr), fun t ht error hmem => ?_, trivial⟩
        have hold : .returned (.error error) ∈ own i w.log := by simpa using hmem
        exact (h.returned t ht error hold).imp_right (List.mem_append_left _)
      · exact leads_act (h.return .dropped (by simp) (.inr ⟨_, rfl, refusal_operation _ _, rfl⟩))
  | waiting =>
    have hreturns : ∀ result, (.reported result ∈ own i w.log ∨ ∃ error, result = .error error ∧
        Refusal envelopes error ∧ error.failedIndex = none) →
        Leads envelopes leases i (w.finish i w.state result) := fun result hresult =>
      leads_act (h.return (w.sends i).activation id hresult)
    rw [World.pollSubmit]
    split
    · exact hreturns _ (.inr ⟨_, rfl, refusal_operation _ _, rfl⟩)
    · split
      · rename_i result hresult
        exact hreturns _ (.inl (h.result result hresult))
      · exact hreturns _ (.inr ⟨_, rfl, refusal_operation _ _, rfl⟩)
      · exact h
  | failing leases' error =>
    obtain ⟨htask, hsent, hrefusal⟩ := hat
    refine leads_act ⟨?_, by simp [htask], fun hstarted => List.mem_append_left _ (h.started hstarted),
      fun r hr => List.mem_append_left _ (h.result r hr), by simp [htask], trivial⟩
    refine h.account.append rfl rfl rfl fun result hmem => ?_
    have heq : result = .error error := by simpa using hmem
    exact .inr ⟨error, heq, hrefusal, fun _ => hsent⟩

end Send

end PaymentSdk.Solana
