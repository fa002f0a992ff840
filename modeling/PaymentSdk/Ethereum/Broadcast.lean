import PaymentSdk.Ethereum.Preflight

/-!
# Submitting an envelope

One attempt is visible outside, whatever the node answers. What it comes to is the id of the
envelope, or an error that says that the envelope with this id may have been accepted.
-/

open Checked Interaction

namespace PaymentSdk.Ethereum.Rpc

variable {lib : Library} {crypto : Crypto} {t : SignedTransaction} {log : Log}

def submission (lib : Library) (t : SignedTransaction) : Json :=
  .array [.string (encodePrefixed (lib.encode t.envelope))]

/-- The question that settles whether the node has the transaction. -/
def lookup (id : TransactionId) : Json := .array [.string id.text]

abbrev sendRaw : String := "eth_sendRawTransaction"

/-- The one attempt, and what it was answered. -/
abbrev attempted (lib : Library) (t : SignedTransaction) (answer : Except JsonRpc.Error JsonRpc.CallResult) :
    Exchange JsonRpc.clientCalls := ⟨.requestOnce sendRaw (submission lib t), answer⟩

/-- The node answered with the hash of the envelope, or it knew the envelope before and shows it. -/
inductive Acknowledged (lib : Library) (t : SignedTransaction) : Log → Prop where
  | submitted {raw : List UInt8} : readSubmitted lib t.id raw = .ok t.id → Acknowledged lib t [attempted lib t (.ok (.ok raw))]
  | known {answer : Except JsonRpc.Error JsonRpc.CallResult} {error : CallError} {raw : List UInt8} :
      readCall answer = .error error → error.isAlreadyKnown = true → readKnown lib t.id raw = .ok true →
      Acknowledged lib t [attempted lib t answer, said "eth_getTransactionByHash" (lookup t.id) raw]

/-- An error that leaves open whether the envelope was accepted. -/
def Ambiguous (id : TransactionId) (e : TransactionError) : Prop :=
  e.kind = .unavailable ∧ e.ambiguousTransactionId = some id.text

theorem ambiguous_submission (id : TransactionId) (message : String) : Ambiguous id (ambiguousSubmission id message) :=
  ⟨rfl, rfl⟩

theorem readSubmitted_ok {id computed : TransactionId} {raw : List UInt8} (h : readSubmitted lib computed raw = .ok id) :
    id = computed := by
  unfold readSubmitted at h
  obtain ⟨value, -, h⟩ := bind_ok.mp h
  obtain ⟨returned, -, h⟩ := bind_ok.mp h
  obtain ⟨_, hequal, h⟩ := bind_ok.mp h
  cases h
  exact require_ok.mp hequal

theorem mapError_error {ε δ α : Type} {f : ε → δ} {x : Except ε α} {e : δ} :
    x.mapError f = .error e ↔ ∃ e', x = .error e' ∧ f e' = e := by
  cases x <;> simp [Except.mapError]

theorem readSubmitted_error {computed : TransactionId} {raw : List UInt8} {e : TransactionError}
    (h : readSubmitted lib computed raw = .error e) : Ambiguous computed e := by
  unfold readSubmitted at h
  rcases bind_error.mp h with h | ⟨value, -, h⟩
  · obtain ⟨_, -, rfl⟩ := mapError_error.mp h
    exact ambiguous_submission _ _
  · rcases bind_error.mp h with h | ⟨returned, -, h⟩
    · obtain ⟨_, -, rfl⟩ := mapError_error.mp h
      exact ambiguous_submission _ _
    · rcases bind_error.mp h with h | ⟨_, -, h⟩
      · obtain ⟨-, rfl⟩ := require_error.mp h
        exact ambiguous_submission _ _
      · cases h

theorem traced_confirm {computed : TransactionId} {r : Except TransactionError TransactionId}
    (h : (confirmSubmitted lib computed).Traced log r) :
    (∃ answer, log = [⟨.request "eth_getTransactionByHash" (lookup computed), answer⟩]) ∧
      ((∃ raw, log = [said "eth_getTransactionByHash" (lookup computed) raw] ∧
          readKnown lib computed raw = .ok true ∧ r = .ok computed) ∨
        ((∀ raw, log = [said "eth_getTransactionByHash" (lookup computed) raw] → readKnown lib computed raw ≠ .ok true) ∧
          ∃ e, r = .error e ∧ Ambiguous computed e)) := by
  unfold confirmSubmitted at h
  rcases Prog.traced_except_bind.mp h with ⟨first, found, rest, rfl, hfirst, hrest⟩ | ⟨e, herror, rfl⟩
  · obtain ⟨raw, rfl, hread⟩ := traced_read_ok.mp (Prog.traced_mapError_ok.mp hfirst)
    rcases Prog.traced_except_bind.mp hrest with ⟨checked, _, last, rfl, hchecked, hdone⟩ | ⟨e, hrefused, rfl⟩
    · obtain ⟨rfl, hfound⟩ := Prog.traced_ofExcept.mp hchecked
      obtain rfl := require_ok.mp hfound
      obtain ⟨rfl, rfl⟩ := Prog.traced_done.mp hdone
      exact ⟨⟨_, rfl⟩, .inl ⟨raw, rfl, hread, rfl⟩⟩
    · obtain ⟨rfl, hrequire⟩ := Prog.traced_ofExcept.mp hrefused
      obtain ⟨hfound, rfl⟩ := require_error.mp hrequire
      refine ⟨⟨_, rfl⟩, .inr ⟨fun raw' heq hknown => ?_, _, rfl, ambiguous_submission _ _⟩⟩
      cases heq
      rw [hread] at hknown
      exact hfound (Except.ok.inj hknown)
  · obtain ⟨x, hx, hmap⟩ := Prog.traced_mapError.mp herror
    obtain ⟨answer, rfl, hread⟩ := traced_read.mp hx
    obtain ⟨e', rfl, rfl⟩ := mapError_error.mp hmap
    refine ⟨⟨answer, rfl⟩, .inr ⟨fun raw heq hknown => ?_, _, rfl, ambiguous_submission _ _⟩⟩
    cases heq
    have hok : Except.error e' = readKnown lib computed raw := hread
    rw [hknown] at hok
    cases hok

theorem traced_callOnce {method : String} {params : Json} {r : Except CallError (List UInt8)} :
    (callOnce method params).Traced log r ↔
      ∃ answer, log = [⟨.requestOnce method params, answer⟩] ∧ r = readCall answer := by
  unfold callOnce
  rw [Node.Traced, Prog.traced_call]
  constructor
  · rintro ⟨answer, rest, rfl, h⟩
    obtain ⟨rfl, rfl⟩ := Prog.traced_done.mp h
    exact ⟨answer, rfl, rfl⟩
  · rintro ⟨answer, rfl, rfl⟩
    exact ⟨answer, [], rfl, Prog.traced_done.mpr ⟨rfl, rfl⟩⟩

/-- How a submission ends: well exactly if the node acknowledged the envelope, else in doubt. -/
structure Submitted (lib : Library) (t : SignedTransaction) (log : Log)
    (r : Except TransactionError TransactionId) : Prop where
  attempt : ∃ answer rest, log = attempted lib t answer :: rest ∧
    (rest = [] ∨ (∃ error, readCall answer = .error error ∧ error.isAlreadyKnown = true) ∧
      ∃ shown, rest = [⟨.request "eth_getTransactionByHash" (lookup t.id), shown⟩])
  outcome : (r = .ok t.id ∧ Acknowledged lib t log) ∨ (¬ Acknowledged lib t log ∧ ∃ e, r = .error e ∧ Ambiguous t.id e)

theorem submitted_of_ok {raw : List UInt8} {answer : Except JsonRpc.Error JsonRpc.CallResult}
    (hread : readCall answer = .ok raw) : Submitted lib t [attempted lib t answer] (readSubmitted lib t.id raw) := by
  obtain rfl := readCall_ok.mp hread
  refine ⟨⟨_, [], rfl, .inl rfl⟩, ?_⟩
  cases hsubmitted : readSubmitted lib t.id raw with
  | ok id =>
    obtain rfl := readSubmitted_ok hsubmitted
    exact .inl ⟨rfl, .submitted hsubmitted⟩
  | error e =>
    refine .inr ⟨fun h => ?_, e, rfl, readSubmitted_error hsubmitted⟩
    cases h with
    | submitted hok =>
      rw [hsubmitted] at hok
      cases hok

theorem submitted_of_error {answer : Except JsonRpc.Error JsonRpc.CallResult} {error : CallError}
    (hread : readCall answer = .error error) (message : String) :
    Submitted lib t [attempted lib t answer] (.error (ambiguousSubmission t.id message)) := by
  refine ⟨⟨_, [], rfl, .inl rfl⟩, .inr ⟨fun h => ?_, _, rfl, ambiguous_submission _ _⟩⟩
  cases h with
  | submitted _ => cases hread

theorem submitted_of_known {answer : Except JsonRpc.Error JsonRpc.CallResult} {error : CallError}
    {r : Except TransactionError TransactionId} (hread : readCall answer = .error error)
    (hknown : error.isAlreadyKnown = true) (h : (confirmSubmitted lib t.id).Traced log r) :
    Submitted lib t (attempted lib t answer :: log) r := by
  obtain ⟨⟨shown, rfl⟩, houtcome⟩ := traced_confirm h
  refine ⟨⟨answer, _, rfl, .inr ⟨⟨error, hread, hknown⟩, shown, rfl⟩⟩, ?_⟩
  rcases houtcome with ⟨raw, hlog, hfound, rfl⟩ | ⟨hnever, hambiguous⟩
  · cases hlog
    exact .inl ⟨rfl, .known hread hknown hfound⟩
  · refine .inr ⟨fun h => ?_, hambiguous⟩
    cases h with
    | known _ _ hfound => exact hnever _ rfl hfound

theorem traced_broadcast {crypto : Crypto} {r : Except TransactionError TransactionId}
    (h : (broadcast lib crypto t).Traced log r) :
    (crypto.keccak t.envelope = t.id ∧ Submitted lib t log r) ∨
      (crypto.keccak t.envelope ≠ t.id ∧ log = [] ∧
        ∃ e, r = .error e ∧ e.kind = .invalidTransaction ∧ e.ambiguousTransactionId = none) := by
  unfold broadcast at h
  rcases Prog.traced_except_bind.mp h with ⟨first, _, rest, rfl, hfirst, hrest⟩ | ⟨e, hrefused, rfl⟩
  · obtain ⟨rfl, hrequire⟩ := Prog.traced_ofExcept.mp hfirst
    have hid := require_ok.mp hrequire
    refine .inl ⟨hid, ?_⟩
    rw [hid] at hrest
    obtain ⟨front, result, settled, rfl, hcall, hsettled⟩ := Prog.traced_attempt_bind.mp hrest
    obtain ⟨answer, rfl, rfl⟩ := traced_callOnce.mp hcall
    unfold settleSubmission at hsettled
    split at hsettled
    · rename_i raw hread
      obtain ⟨rfl, rfl⟩ := Prog.traced_ofExcept.mp hsettled
      exact submitted_of_ok hread
    · rename_i error hread
      split_ifs at hsettled with hknown
      · exact submitted_of_known hread hknown hsettled
      · obtain ⟨rfl, rfl⟩ := Prog.traced_done.mp hsettled
        exact submitted_of_error hread _
  · obtain ⟨rfl, hrequire⟩ := Prog.traced_ofExcept.mp hrefused
    obtain ⟨hne, rfl⟩ := require_error.mp hrequire
    exact .inr ⟨hne, rfl, _, rfl, rfl, rfl⟩

/-- Whatever the node answers: an envelope with a wrong id goes nowhere. Any other is submitted in
one attempt, first of all. The result is its id exactly if the node acknowledged it, at once or
when it was asked again, and otherwise an error that names the id as ambiguous. -/
theorem broadcast_settles (lib : Library) (crypto : Crypto) (t : SignedTransaction) {log : Log}
    {r : Except TransactionError TransactionId} (h : (broadcast lib crypto t).Traced log r) :
    (crypto.keccak t.envelope ≠ t.id →
      log = [] ∧ ∃ e, r = .error e ∧ e.kind = .invalidTransaction ∧ e.ambiguousTransactionId = none) ∧
      (crypto.keccak t.envelope = t.id → Submitted lib t log r) := by
  rcases traced_broadcast h with ⟨hid, hsubmitted⟩ | ⟨hne, hrefused⟩
  · exact ⟨fun hne => absurd hid hne, fun _ => hsubmitted⟩
  · exact ⟨fun _ => hrefused, fun hid => absurd hid hne⟩

/-! ## Over HTTP -/

/-- Whatever the endpoints answer: the envelope goes out once, to the first endpoint and before
anything else. Other calls only ask for its id. -/
theorem broadcast_reaches_one (http : JsonRpc.Http) (lib : Library) (crypto : Crypto) (t : SignedTransaction)
    (hid : crypto.keccak t.envelope = t.id) {log : List (Exchange JsonRpc.calls)}
    {r : Except TransactionError TransactionId}
    (h : Prog.Traced (Prog.through http.client (broadcast lib crypto t)) log r) :
    (∃ answer rest, log = ⟨.request (http.clients.head http.clients_ne) sendRaw (submission lib t), answer⟩ :: rest ∧
      ∀ op ∈ rest.map (·.1), (∃ duration, op = .sleep duration) ∨
        ∃ client, op = .request client "eth_getTransactionByHash" (lookup t.id)) ∧
      (r = .ok t.id ∨ ∃ e, r = .error e ∧ Ambiguous t.id e) := by
  obtain ⟨events, hexpands, htraced⟩ := Prog.traced_through.mp h
  obtain ⟨-, hsubmitted⟩ := (traced_broadcast htraced).resolve_right fun hrefused => hrefused.1 hid
  constructor
  · obtain ⟨told, later, rfl, hlater⟩ := hsubmitted.attempt
    cases hexpands with
    | cons hfirst hrest =>
      obtain ⟨answer, rfl, -⟩ := JsonRpc.Http.client_once rfl hfirst
      refine ⟨answer, _, rfl, ?_⟩
      rcases hlater with rfl | ⟨-, shown, rfl⟩
      · cases hrest
        simp
      · cases hrest with
        | cons hlookup hnone =>
          cases hnone
          rw [List.append_nil]
          exact JsonRpc.Http.client_read rfl hlookup
  · rcases hsubmitted.outcome with ⟨hok, -⟩ | ⟨-, herror⟩
    · exact .inl hok
    · exact .inr herror

/-! ### A known envelope -/

def sampleEnvelope : Envelope := ⟨1, 9, 25200, 15, 1, List.replicate 20 2, 0, [], [1, 2, 3]⟩

/-- Its id is the hash that the node shows. -/
def sampleSigned : SignedTransaction := ⟨List.replicate 32 0xaa, sampleEnvelope⟩

def sampleKeccak : Crypto := ⟨fun _ => none, fun _ => List.replicate 32 0xaa⟩

/-- What a node answers to a transaction it has seen. -/
def knownFailure : JsonRpc.Failure := ⟨-32000, "Already known", none⟩

/-- The node has the envelope. Its lookup shows an object with the hash. -/
def knownAnswer : (request : JsonRpc.Request) → Except JsonRpc.Error request.Value
  | .request _ _ => .ok (.ok sampleBlockText)
  | .requestOnce _ _ => .ok (.error knownFailure)
  | .batch _ => .error JsonRpc.unavailable

theorem broadcast_settles_sample :
    ((broadcast sampleLibrary sampleKeccak sampleSigned).answered knownAnswer).2 = .ok sampleSigned.id ∧
      Acknowledged sampleLibrary sampleSigned ((broadcast sampleLibrary sampleKeccak sampleSigned).answered knownAnswer).1 := by
  have hok : ((broadcast sampleLibrary sampleKeccak sampleSigned).answered knownAnswer).2 = .ok sampleSigned.id := by
    decide
  have hsubmitted := (broadcast_settles sampleLibrary sampleKeccak sampleSigned
    (Prog.traced_answered (E := JsonRpc.clientCalls) knownAnswer _)).2 rfl
  rcases hsubmitted.outcome with ⟨-, hacknowledged⟩ | ⟨-, e, herror, -⟩
  · exact ⟨hok, hacknowledged⟩
  · rw [hok] at herror
    cases herror

/-- The second endpoint is asked only for what is known. -/
def knownEndpoints : (op : JsonRpc.Op) → op.Ans
  | .request endpoint method _ =>
    if method = sendRaw then .error (.call knownFailure)
    else if endpoint = "primary" then .error .requestTimeout
    else .ok sampleBlockText
  | .batch _ _ => .error .requestTimeout
  | .sleep _ => ()

theorem broadcast_reaches_one_sample :
    ∃ answer rest, ((Prog.through JsonRpc.Http.sampleHttp.client
        (broadcast sampleLibrary sampleKeccak sampleSigned)).answered knownEndpoints).1 =
      ⟨.request "primary" sendRaw (submission sampleLibrary sampleSigned), answer⟩ :: rest := by
  obtain ⟨⟨answer, rest, hlog, -⟩, -⟩ := broadcast_reaches_one JsonRpc.Http.sampleHttp sampleLibrary sampleKeccak
    sampleSigned rfl (Prog.traced_answered (E := JsonRpc.calls) knownEndpoints _)
  exact ⟨answer, rest, hlog⟩

end PaymentSdk.Ethereum.Rpc
