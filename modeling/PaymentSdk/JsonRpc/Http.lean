import PaymentSdk.Base.Decimal
import PaymentSdk.Base.Json
import PaymentSdk.Lib.Checked
import PaymentSdk.Lib.Failover

/-!
# JSON-RPC over HTTP

A client with several endpoints. Reads and batches go on to the next endpoint, and begin anew after
a pause, while the errors may pass. A call that is made once goes to the first endpoint alone.
-/

open Interaction

namespace PaymentSdk.JsonRpc

/-! ## Errors -/

inductive ErrorKind where
  | invalidConfiguration
  | invalidRequest
  | timeout
  | unavailable
  | httpStatus (code : UInt16)
  | responseTooLarge
  | invalidResponse
  deriving DecidableEq

structure Error where
  kind : ErrorKind
  message : String
  deriving DecidableEq

/-- What another endpoint, or another time, may answer differently. -/
def Error.isRetryable (error : Error) : Bool :=
  match error.kind with
  | .timeout | .unavailable => true
  | .httpStatus code => code = 429 || code = 502 || code = 503 || code = 504
  | _ => false

/-- What the other side answers instead of a result. -/
structure Failure where
  code : Int
  message : String
  data : Option (List UInt8)
  deriving DecidableEq

/-- The bytes of the result, as they came. -/
abbrev CallResult := Except Failure (List UInt8)

/-! The errors of the library. -/

/-- What the transport reports of one exchange. -/
inductive TransportError where
  | rejected (status : UInt16)
  | tooLarge
  | malformed
  | other
  deriving DecidableEq

/-- The error of the RPC library, as far as the client tells them apart. -/
inductive RpcError where
  | call (failure : Failure)
  | requestTimeout
  | transport (source : TransportError)
  | parseError
  | invalidRequestId
  | other
  deriving DecidableEq

def Error.fromRpc : RpcError → Error
  | .call failure => ⟨.invalidResponse, s!"JSON-RPC call failed with code {failure.code}"⟩
  | .requestTimeout => ⟨.timeout, "JSON-RPC request timed out"⟩
  | .transport (.rejected status) => ⟨.httpStatus status, "JSON-RPC endpoint rejected the request"⟩
  | .transport .tooLarge => ⟨.responseTooLarge, "JSON-RPC response exceeded its configured limit"⟩
  | .transport .malformed => ⟨.invalidResponse, "JSON-RPC endpoint returned an invalid response"⟩
  | .transport .other => ⟨.unavailable, "JSON-RPC transport is unavailable"⟩
  | .parseError | .invalidRequestId => ⟨.invalidResponse, "JSON-RPC endpoint returned an invalid response"⟩
  | .other => ⟨.invalidResponse, "JSON-RPC request failed"⟩

/-! ## Retries -/

/-- Nanoseconds. There are at most `2 ^ 64` seconds. -/
structure Duration where
  nanos : Nat
  bound : nanos < 2 ^ 64 * 10 ^ 9
  deriving DecidableEq

namespace Duration

def zero : Duration := ⟨0, by decide⟩

def checkedMul (d : Duration) (n : Nat) : Option Duration :=
  if h : d.nanos * n < 2 ^ 64 * 10 ^ 9 then some ⟨d.nanos * n, h⟩ else none

protected def min (a b : Duration) : Duration := if a.nanos ≤ b.nanos then a else b

end Duration

/-- The retry policy of a client. -/
structure Retry where
  maxAttempts : Nat
  initialBackoff : Duration
  maxBackoff : Duration
  attempts_pos : 0 < maxAttempts
  backoff_le : initialBackoff.nanos ≤ maxBackoff.nanos

namespace Retry

def new (maxAttempts : Nat) (attempts_pos : 0 < maxAttempts) (initialBackoff maxBackoff : Duration) :
    Except Error Retry :=
  if h : maxBackoff.nanos < initialBackoff.nanos then
    .error ⟨.invalidConfiguration, "initial retry backoff must not exceed its maximum"⟩
  else .ok { maxAttempts, initialBackoff, maxBackoff, attempts_pos, backoff_le := Nat.le_of_not_lt h }

def noRetry : Retry := ⟨1, .zero, .zero, Nat.one_pos, Nat.le_refl 0⟩

/-- Doubles from one attempt to the next. -/
def backoff (retry : Retry) (attempt : Nat) : Duration :=
  let multiplier := 1 <<< min (attempt - 1) 31
  ((retry.initialBackoff.checkedMul multiplier).getD retry.maxBackoff).min retry.maxBackoff

theorem backoff_le_max (retry : Retry) (attempt : Nat) :
    (retry.backoff attempt).nanos ≤ retry.maxBackoff.nanos := by
  unfold backoff Duration.min
  dsimp only
  split_ifs <;> omega

end Retry

/-! ## The client -/

/-- What a client is built from. -/
structure Config where
  endpoints : List String
  requestTimeout : Duration
  maxRequestBytes : Nat
  maxResponseBytes : Nat
  headers : List (String × String)
  retry : Retry

def Config.new (endpoint : String) (requestTimeout : Duration) : Config :=
  ⟨[endpoint], requestTimeout, 10 * 1024 * 1024, 64 * 1024 * 1024, [], .noRetry⟩

def Config.validate (config : Config) : Except Error Unit :=
  if config.endpoints = [] ∨ config.endpoints.any fun value => value.toList.all Decimal.isWhitespace then
    .error ⟨.invalidConfiguration, "JSON-RPC requires at least one endpoint"⟩
  else if config.requestTimeout.nanos = 0 ∨ config.maxRequestBytes = 0 ∨ config.maxResponseBytes = 0 then
    .error ⟨.invalidConfiguration, "JSON-RPC bounds must be greater than zero"⟩
  else .ok ()

/-- The parsers of headers and the client builder. A parsed name is in lower case. -/
structure Library where
  headerName : String → Option String
  headerValue : String → Option (List UInt8)
  build : String → List (String × List UInt8) → Except RpcError Unit

/-- A name keeps the last of its values. -/
def Config.parsedHeaders (lib : Library) (config : Config) : Except Error (List (String × List UInt8)) :=
  config.headers.foldlM (fun headers header =>
    match lib.headerName header.1 with
    | none => .error ⟨.invalidConfiguration, "JSON-RPC header name is invalid"⟩
    | some name =>
      match lib.headerValue header.2 with
      | none => .error ⟨.invalidConfiguration, "JSON-RPC header value is invalid"⟩
      | some value => .ok (headers.filter (·.1 ≠ name) ++ [(name, value)])) []

def invalidLimit : Error := ⟨.invalidConfiguration, "JSON-RPC size limit exceeds the supported range"⟩

/-- There is always an endpoint to ask. -/
structure Http where
  clients : List String
  retry : Retry
  headerNames : List String
  clients_ne : clients ≠ []

theorem Config.endpoints_ne {config : Config} (h : config.validate = .ok ()) : config.endpoints ≠ [] := by
  intro hnil
  unfold Config.validate at h
  simp [hnil] at h

/-- `client` is the endpoint that it asks. -/
def Http.new (lib : Library) (config : Config) : Except Error Http :=
  match hvalid : config.validate with
  | .error e => .error e
  | .ok () => do
    let headers ← config.parsedHeaders lib
    if 2 ^ 32 ≤ config.maxRequestBytes then .error invalidLimit
    else if 2 ^ 32 ≤ config.maxResponseBytes then .error invalidLimit
    else
      let _ ← config.endpoints.mapM fun endpoint => (lib.build endpoint headers).mapError .fromRpc
      pure ⟨config.endpoints, config.retry, config.headers.map (·.1), Config.endpoints_ne hvalid⟩

/-! ## Calls -/

/-- One call of a batch. -/
structure Call where
  method : String
  params : Json

/-- What reaches the outside. -/
inductive Op where
  | request (endpoint method : String) (params : Json)
  | batch (endpoint : String) (calls : List Call)
  | sleep (duration : Duration)

abbrev Op.Ans : Op → Type
  | request .. => Except RpcError (List UInt8)
  | batch .. => Except RpcError (List CallResult)
  | sleep _ => Unit

abbrev calls : Calls := ⟨Op, Op.Ans⟩

/-- `Params::new`. -/
def checkParams : Json → Except Error Unit
  | .array _ | .object _ => .ok ()
  | _ => .error ⟨.invalidRequest, "JSON-RPC parameters must be an array or object"⟩

/-- Stops at the first call with bad parameters. -/
def checkCalls : List Call → Except Error Unit
  | [] => .ok ()
  | call :: rest => do
    checkParams call.params
    checkCalls rest

/-- What an answer comes to. -/
def readRequest : Except RpcError (List UInt8) → Except Error CallResult
  | .ok value => .ok (.ok value)
  | .error (.call failure) => .ok (.error failure)
  | .error source => .error (.fromRpc source)

def readBatch (answer : Except RpcError (List CallResult)) : Except Error (List CallResult) :=
  answer.mapError .fromRpc

def sendRequest (method : String) (params : Json) (client : String) : Prog calls (Except Error CallResult) :=
  .call (.request client method params) fun answer => .done (readRequest answer)

/-- `Batch::request`. -/
def sendBatch (batch : List Call) (client : String) : Prog calls (Except Error (List CallResult)) :=
  match checkCalls batch with
  | .error e => .done (.error e)
  | .ok () => .call (.batch client batch) fun answer => .done (readBatch answer)

def unavailable : Error := ⟨.unavailable, "JSON-RPC endpoints are unavailable"⟩

def sleep (duration : Duration) : Prog calls Unit := Prog.perform (E := calls) (.sleep duration)

namespace Http

/-- The loop over attempts that requests and batches share. -/
def execute {α : Type} (http : Http) (attempt : Prog calls (Except Error α)) : Prog calls (Except Error α) :=
  Prog.repeated Error.isRetryable unavailable http.retry.maxAttempts attempt
    (fun attempt => sleep (http.retry.backoff attempt)) 1 http.retry.maxAttempts none

/-- Asks one endpoint after another until one settles. -/
def requestAttempt (http : Http) (method : String) (params : Json) : Prog calls (Except Error CallResult) :=
  Prog.firstSettled Error.isRetryable unavailable (sendRequest method params) none http.clients

def batchAttempt (http : Http) (batch : List Call) : Prog calls (Except Error (List CallResult)) :=
  Prog.firstSettled Error.isRetryable unavailable (sendBatch batch) none http.clients

/-- Attempts with pauses between them. -/
def executeRequest (http : Http) (method : String) (params : Json) : Prog calls (Except Error CallResult) :=
  match checkParams params with
  | .error e => .done (.error e)
  | .ok () => http.execute (http.requestAttempt method params)

def executeBatch (http : Http) (batch : List Call) : Prog calls (Except Error (List CallResult)) :=
  if batch = [] then .done (.error ⟨.invalidRequest, "JSON-RPC batch must not be empty"⟩)
  else http.execute (http.batchAttempt batch)

def requestOnce (http : Http) (method : String) (params : Json) : Prog calls (Except Error CallResult) :=
  match checkParams params with
  | .error e => .done (.error e)
  | .ok () =>
    match http.clients with
    | [] => .done (.error ⟨.unavailable, "JSON-RPC endpoint is unavailable"⟩)
    | client :: _ => sendRequest method params client

end Http

/-! ## What a client is asked -/

/-- What a client can be asked for. -/
inductive Request where
  | request (method : String) (params : Json)
  | requestOnce (method : String) (params : Json)
  | batch (calls : List Call)

/-- What it is answered if nothing fails. -/
abbrev Request.Value : Request → Type
  | request .. => CallResult
  | requestOnce .. => CallResult
  | batch _ => List CallResult

abbrev clientCalls : Calls := ⟨Request, fun request => Except Error request.Value⟩

def Http.client (http : Http) : (request : Request) → Prog calls (Except Error request.Value)
  | .request method params => http.executeRequest method params
  | .requestOnce method params => http.requestOnce method params
  | .batch batch => http.executeBatch batch

/-! ## What a client does -/

/-- The checks that come before any call. -/
def Request.WellFormed : Request → Prop
  | .request _ params => checkParams params = .ok ()
  | .requestOnce _ params => checkParams params = .ok ()
  | .batch items => items ≠ [] ∧ checkCalls items = .ok ()

/-- What a call outside tells of the answer to a request. -/
def Request.told : (request : Request) → Exchange calls → Option (Except Error request.Value)
  | .request .., ⟨.request _ _ _, answer⟩ => some (readRequest answer)
  | .requestOnce .., ⟨.request _ _ _, answer⟩ => some (readRequest answer)
  | .batch _, ⟨Op.batch _ _, answer⟩ => some (readBatch answer)
  | _, _ => none

namespace Http

/-- Every endpoint in its order, as many times as there are attempts, with a pause between two. -/
def rounds (http : Http) (op : String → Op) : List Op :=
  Prog.schedule (E := calls) (http.clients.map op) (fun attempt => .sleep (http.retry.backoff attempt)) 1
    http.retry.maxAttempts

/-- The calls outside that a request may take, in their order. -/
def plan (http : Http) : Request → List Op
  | .request method params => http.rounds (.request · method params)
  | .requestOnce method params => [.request (http.clients.head http.clients_ne) method params]
  | .batch batch => http.rounds (.batch · batch)

variable {http : Http} {log : List (Exchange calls)}

theorem traced_sleep {duration : Duration} {u : Unit} (h : Prog.Traced (sleep duration) log u) :
    log = [⟨.sleep duration, u⟩] := Prog.traced_perform.mp h

theorem execute_settled {α : Type} {attempt : Prog calls (Except Error α)} {op : String → Op} {r : Except Error α}
    {told : Exchange calls → Option (Except Error α)} (hsilent : ∀ d u, told ⟨.sleep d, u⟩ = none)
    (hattempt : ∀ log r, Prog.Traced attempt log r →
      Prog.Settled Error.isRetryable told (http.clients.map op) log r)
    (h : Prog.Traced (http.execute attempt) log r) :
    Prog.Settled Error.isRetryable told (http.rounds op) log r := by
  have hpos := http.retry.attempts_pos
  unfold execute at h
  unfold rounds
  rw [show http.retry.maxAttempts = (http.retry.maxAttempts - 1) + 1 by omega] at h ⊢
  refine Prog.repeated_settled hattempt (fun n log u hslept => ?_) (by omega) none h
  exact ⟨u, traced_sleep hslept, hsilent _ _⟩

theorem sendRequest_single {method : String} {params : Json} {told : Exchange calls → Option (Except Error CallResult)}
    (htold : ∀ client answer, told ⟨.request client method params, answer⟩ = some (readRequest answer)) :
    Prog.Single told (sendRequest method params) (Op.request · method params) := by
  intro client log r h
  obtain ⟨answer, rest, rfl, hdone⟩ := Prog.traced_call.mp h
  obtain ⟨rfl, rfl⟩ := Prog.traced_done.mp hdone
  exact ⟨answer, rfl, htold client answer⟩

theorem sendBatch_single {batch : List Call} (hparams : checkCalls batch = .ok ()) :
    Prog.Single (Request.batch batch).told (sendBatch batch) (Op.batch · batch) := by
  intro client log r h
  unfold sendBatch at h
  rw [hparams] at h
  obtain ⟨answer, rest, rfl, hdone⟩ := Prog.traced_call.mp h
  obtain ⟨rfl, rfl⟩ := Prog.traced_done.mp hdone
  exact ⟨answer, rfl, rfl⟩

theorem kind_of_checkParams {params : Json} {e : Error} (h : checkParams params = .error e) :
    e.kind = .invalidRequest := by
  unfold checkParams at h
  split at h
  · cases h
  · cases h
  · cases h
    rfl

theorem kind_of_checkCalls {batch : List Call} {e : Error} (h : checkCalls batch = .error e) :
    e.kind = .invalidRequest := by
  induction batch with
  | nil => cases h
  | cons call rest ih =>
    unfold checkCalls at h
    rcases Checked.bind_error.mp h with h | ⟨_, -, h⟩
    · exact kind_of_checkParams h
    · exact ih h

theorem final_of_kind {e : Error} (h : e.kind = .invalidRequest) : e.isRetryable = false := by
  unfold Error.isRetryable
  rw [h]

theorem batchAttempt_refused {batch : List Call} {e : Error} (h : checkCalls batch = .error e)
    (hfinal : e.isRetryable = false) : http.batchAttempt batch = .done (.error e) := by
  unfold batchAttempt
  have hne := http.clients_ne
  generalize http.clients = clients at hne
  cases clients with
  | nil => exact absurd rfl hne
  | cons client rest => simp [Prog.firstSettled, sendBatch, h, Prog.bind, hfinal]

theorem execute_final {α : Type} {e : Error} (hfinal : e.isRetryable = false) :
    http.execute (α := α) (.done (.error e)) = .done (.error e) := by
  have hpos := http.retry.attempts_pos
  unfold execute
  generalize http.retry.maxAttempts = attempts at hpos
  cases attempts with
  | zero => omega
  | succ left => simp [Prog.repeated, Prog.bind, hfinal]

/-- A request that is not well formed goes nowhere. -/
theorem client_refused {request : Request} (hformed : ¬ request.WellFormed) {r : Except Error request.Value}
    (h : Prog.Traced (http.client request) log r) : log = [] ∧ ∃ e, r = .error e ∧ e.kind = .invalidRequest := by
  cases request with
  | request method params =>
    unfold Request.WellFormed at hformed
    change Prog.Traced (http.executeRequest method params) log r at h
    unfold executeRequest at h
    split at h
    · rename_i e he
      obtain ⟨rfl, rfl⟩ := Prog.traced_done.mp h
      exact ⟨rfl, e, rfl, kind_of_checkParams he⟩
    · rename_i hok
      exact absurd hok hformed
  | requestOnce method params =>
    unfold Request.WellFormed at hformed
    change Prog.Traced (http.requestOnce method params) log r at h
    unfold Http.requestOnce at h
    split at h
    · rename_i e he
      obtain ⟨rfl, rfl⟩ := Prog.traced_done.mp h
      exact ⟨rfl, e, rfl, kind_of_checkParams he⟩
    · rename_i hok
      exact absurd hok hformed
  | batch batch =>
    unfold Request.WellFormed at hformed
    change Prog.Traced (http.executeBatch batch) log r at h
    unfold executeBatch at h
    split_ifs at h with hnil
    · obtain ⟨rfl, rfl⟩ := Prog.traced_done.mp h
      exact ⟨rfl, _, rfl, rfl⟩
    · cases hparams : checkCalls batch with
      | ok u => exact absurd ⟨hnil, hparams⟩ hformed
      | error e =>
        have hkind := kind_of_checkCalls hparams
        have hfinal := final_of_kind hkind
        rw [batchAttempt_refused hparams hfinal, execute_final hfinal] at h
        obtain ⟨rfl, rfl⟩ := Prog.traced_done.mp h
        exact ⟨rfl, e, rfl, hkind⟩

theorem client_settled {request : Request} (hformed : request.WellFormed) {r : Except Error request.Value}
    (h : Prog.Traced (http.client request) log r) :
    Prog.Settled Error.isRetryable request.told (http.plan request) log r := by
  cases request with
  | request method params =>
    change Prog.Traced (http.executeRequest method params) log r at h
    unfold executeRequest at h
    unfold Request.WellFormed at hformed
    rw [hformed] at h
    exact execute_settled (fun _ _ => rfl)
      (fun _ _ h => Prog.firstSettled_settled (sendRequest_single fun _ _ => rfl) http.clients_ne none h) h
  | requestOnce method params =>
    change Prog.Traced (http.requestOnce method params) log r at h
    unfold Http.requestOnce at h
    unfold Request.WellFormed at hformed
    rw [hformed] at h
    obtain ⟨client, rest, hclients⟩ := List.exists_cons_of_ne_nil http.clients_ne
    have hhead : http.clients.head http.clients_ne = client := by simp [hclients]
    rw [hclients] at h
    unfold plan
    rw [hhead]
    exact Prog.settled_of_single (sendRequest_single fun _ _ => rfl) h
  | batch batch =>
    change Prog.Traced (http.executeBatch batch) log r at h
    unfold executeBatch at h
    rw [if_neg hformed.1] at h
    exact execute_settled (fun _ _ => rfl)
      (fun _ _ h => Prog.firstSettled_settled (sendBatch_single hformed.2) http.clients_ne none h) h

theorem client_once {method : String} {params : Json} (hparams : checkParams params = .ok ()) {r : Except Error CallResult}
    (h : Prog.Traced (http.client (.requestOnce method params)) log r) :
    ∃ answer, log = [⟨.request (http.clients.head http.clients_ne) method params, answer⟩] ∧ r = readRequest answer := by
  change Prog.Traced (http.requestOnce method params) log r at h
  unfold Http.requestOnce at h
  rw [hparams] at h
  obtain ⟨client, rest, hclients⟩ := List.exists_cons_of_ne_nil http.clients_ne
  have hhead : http.clients.head http.clients_ne = client := by simp [hclients]
  rw [hclients] at h
  rw [hhead]
  obtain ⟨answer, more, rfl, hdone⟩ := Prog.traced_call.mp h
  obtain ⟨rfl, rfl⟩ := Prog.traced_done.mp hdone
  exact ⟨answer, rfl, rfl⟩

theorem client_read {method : String} {params : Json} (hparams : checkParams params = .ok ()) {r : Except Error CallResult}
    (h : Prog.Traced (http.client (.request method params)) log r) :
    ∀ op ∈ log.map (·.1), (∃ duration, op = .sleep duration) ∨ ∃ client, op = .request client method params := by
  have hformed : (Request.request method params).WellFormed := hparams
  have hops := (client_settled hformed h).ops
  intro op hop
  rcases Prog.mem_schedule (hops.subset hop) with hop | ⟨n, rfl⟩
  · obtain ⟨client, -, rfl⟩ := List.mem_map.mp hop
    exact .inr ⟨client, rfl⟩
  · exact .inl ⟨_, rfl⟩

end Http

/-! ## What it costs -/

/-- A call outside that is not a pause. -/
def Op.contacts : Op → Nat
  | .sleep _ => 0
  | .request .. | .batch .. => 1

def Op.slept : Op → Nat
  | .sleep duration => duration.nanos
  | .request .. | .batch .. => 0

/-- The total over the calls of a log. -/
def total (cost : Op → Nat) (log : List (Exchange calls)) : Nat := ((log.map (·.1)).map cost).sum

namespace Http

variable {http : Http} {log : List (Exchange calls)}

theorem sum_map_const {ι : Type} {n : Nat} (f : ι → Nat) (hf : ∀ x, f x = n) (xs : List ι) : (xs.map f).sum = xs.length * n := by
  induction xs with
  | nil => simp
  | cons x xs ih =>
    rw [List.map_cons, List.sum_cons, ih, hf, List.length_cons, Nat.succ_mul, Nat.add_comm]

theorem rounds_contacts (http : Http) {op : String → Op} (hop : ∀ x, (op x).contacts = 1) :
    ((http.rounds op).map Op.contacts).sum ≤ http.retry.maxAttempts * http.clients.length := by
  have hsum : ((http.rounds op).map Op.contacts).sum ≤
      http.retry.maxAttempts * ((http.clients.map op).map Op.contacts).sum + (http.retry.maxAttempts - 1) * 0 :=
    Prog.sum_schedule_le (E := calls) Op.contacts 0
      (fun attempt => Nat.le_refl (Op.sleep (http.retry.backoff attempt)).contacts) 1 http.retry.maxAttempts
  rw [List.map_map, sum_map_const (Op.contacts ∘ op) hop, Nat.mul_one] at hsum
  exact hsum

theorem rounds_slept (http : Http) {op : String → Op} (hop : ∀ x, (op x).slept = 0) :
    ((http.rounds op).map Op.slept).sum ≤ (http.retry.maxAttempts - 1) * http.retry.maxBackoff.nanos := by
  have hsum : ((http.rounds op).map Op.slept).sum ≤ http.retry.maxAttempts * ((http.clients.map op).map Op.slept).sum +
      (http.retry.maxAttempts - 1) * http.retry.maxBackoff.nanos :=
    Prog.sum_schedule_le (E := calls) Op.slept _ http.retry.backoff_le_max 1 http.retry.maxAttempts
  rw [List.map_map, sum_map_const (Op.slept ∘ op) hop, Nat.mul_zero, Nat.mul_zero, Nat.zero_add] at hsum
  exact hsum

theorem plan_contacts (http : Http) (request : Request) :
    ((http.plan request).map Op.contacts).sum ≤ http.retry.maxAttempts * http.clients.length := by
  cases request with
  | request method params => exact http.rounds_contacts fun _ => rfl
  | batch items => exact http.rounds_contacts fun _ => rfl
  | requestOnce method params =>
    have hattempts := http.retry.attempts_pos
    have hclients := List.length_pos_iff.mpr http.clients_ne
    exact Nat.mul_pos hattempts hclients

theorem plan_slept (http : Http) (request : Request) :
    ((http.plan request).map Op.slept).sum ≤ (http.retry.maxAttempts - 1) * http.retry.maxBackoff.nanos := by
  cases request with
  | request method params => exact http.rounds_slept fun _ => rfl
  | batch items => exact http.rounds_slept fun _ => rfl
  | requestOnce method params => exact Nat.zero_le _

/-- Whatever the endpoints answer: a request follows its plan until an answer settles it, and the
last answer is its result. A call that is made once reaches the first endpoint and no other, a bad
request reaches none, and no request goes past the attempts and the pauses that were configured. -/
theorem client_follows_plan (http : Http) (request : Request) {log : List (Exchange calls)}
    {r : Except Error request.Value} (h : Prog.Traced (http.client request) log r) :
    (request.WellFormed → Prog.Settled Error.isRetryable request.told (http.plan request) log r) ∧
      (¬ request.WellFormed → log = [] ∧ ∃ e, r = .error e ∧ e.kind = .invalidRequest) ∧
      total Op.contacts log ≤ http.retry.maxAttempts * http.clients.length ∧
      total Op.slept log ≤ (http.retry.maxAttempts - 1) * http.retry.maxBackoff.nanos := by
  refine ⟨fun hformed => client_settled hformed h, fun hformed => client_refused hformed h, ?_⟩
  by_cases hformed : request.WellFormed
  · have hops := (client_settled hformed h).ops
    exact ⟨Nat.le_trans (Prog.sum_prefix_le hops) (http.plan_contacts request),
      Nat.le_trans (Prog.sum_prefix_le hops) (http.plan_slept request)⟩
  · obtain ⟨rfl, -⟩ := client_refused hformed h
    exact ⟨Nat.zero_le _, Nat.zero_le _⟩

/-- Two endpoints, each asked at most twice. -/
def sampleHttp : Http where
  clients := ["primary", "fallback"]
  retry := ⟨2, ⟨1000, by decide⟩, ⟨5000, by decide⟩, Nat.two_pos, by decide⟩
  headerNames := []
  clients_ne := List.cons_ne_nil _ _

/-- The first endpoint does not answer in time. -/
def sampleLog : List (Exchange calls) :=
  [⟨.request "primary" "eth_chainId" (.array []), .error .requestTimeout⟩,
    ⟨.request "fallback" "eth_chainId" (.array []), .ok [34, 49, 34]⟩]

theorem client_follows_plan_sample :
    Prog.Settled Error.isRetryable (Request.request "eth_chainId" (.array [])).told
        (sampleHttp.plan (.request "eth_chainId" (.array []))) sampleLog (.ok (.ok [34, 49, 34])) ∧
      total Op.contacts sampleLog ≤ 2 * 2 ∧ total Op.slept sampleLog ≤ 1 * 5000 := by
  have htraced : Prog.Traced (sampleHttp.client (.request "eth_chainId" (.array []))) sampleLog
      (.ok (.ok [34, 49, 34])) := .call _ (.call _ (.done _))
  obtain ⟨hsettled, -, hcontacts, hslept⟩ := client_follows_plan sampleHttp (.request "eth_chainId" (.array [])) htraced
  exact ⟨hsettled rfl, hcontacts, hslept⟩

end Http

end PaymentSdk.JsonRpc
