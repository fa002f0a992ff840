import PaymentSdk.Ethereum.Rpc

/-!
# Preparing a transfer

Whatever the node answers, a prepared context stays within the limits of the operator, is made of
what the node said, and is covered by the balances that the node reported. Preparation only reads.
-/

open Checked Interaction

namespace PaymentSdk.Ethereum.Rpc

abbrev Log := List (Exchange JsonRpc.clientCalls)

abbrev Node.Traced {ε α : Type} (p : Node ε α) (log : Log) (r : Except ε α) : Prop :=
  Prog.Traced (E := JsonRpc.clientCalls) p log r

abbrev Node.Follows {ε α : Type} (planned : List JsonRpc.Request) (p : Node ε α) : Prop :=
  Prog.Follows (E := JsonRpc.clientCalls) planned p

/-- A read that the node answered with a result. -/
abbrev said (method : String) (params : Json) (raw : List UInt8) : Exchange JsonRpc.clientCalls :=
  ⟨.request method params, .ok (.ok raw)⟩

variable {lib : Library} {method : String} {params : Json} {log : Log} {ε α : Type}

/-! ## One read -/

theorem readCall_ok {answer : Except JsonRpc.Error JsonRpc.CallResult} {raw : List UInt8} :
    readCall answer = .ok raw ↔ answer = .ok (.ok raw) := by
  constructor
  · intro h
    unfold readCall at h
    split at h
    · cases h
    · rw [mapError_ok.mp h]
  · rintro rfl
    rfl

theorem traced_call {r : Except CallError (List UInt8)} :
    (call method params).Traced log r ↔ ∃ answer, log = [⟨.request method params, answer⟩] ∧ r = readCall answer := by
  unfold call
  rw [Node.Traced, Prog.traced_call]
  constructor
  · rintro ⟨answer, rest, rfl, h⟩
    obtain ⟨rfl, rfl⟩ := Prog.traced_done.mp h
    exact ⟨answer, rfl, rfl⟩
  · rintro ⟨answer, rfl, rfl⟩
    exact ⟨answer, [], rfl, Prog.traced_done.mpr ⟨rfl, rfl⟩⟩

theorem traced_call_ok {raw : List UInt8} : (call method params).Traced log (.ok raw) ↔ log = [said method params raw] := by
  rw [traced_call]
  constructor
  · rintro ⟨answer, rfl, hraw⟩
    rw [readCall_ok.mp hraw.symm]
  · rintro rfl
    exact ⟨.ok (.ok raw), rfl, rfl⟩

theorem traced_read {f : CallError → ε} {read : List UInt8 → Except ε α} {r : Except ε α} :
    Node.Traced (Prog.mapError f (call method params) >>= fun raw => Prog.ofExcept (read raw)) log r ↔
      ∃ answer, log = [⟨.request method params, answer⟩] ∧ r = (readCall answer).mapError f >>= read := by
  rw [Node.Traced, Prog.traced_except_bind]
  constructor
  · rintro (⟨first, raw, rest, rfl, hfirst, h⟩ | ⟨e, herror, rfl⟩)
    · obtain ⟨rfl, rfl⟩ := Prog.traced_ofExcept.mp h
      rw [traced_call_ok.mp (Prog.traced_mapError_ok.mp hfirst)]
      exact ⟨.ok (.ok raw), rfl, rfl⟩
    · obtain ⟨x, hx, hmap⟩ := Prog.traced_mapError.mp herror
      obtain ⟨answer, rfl, rfl⟩ := traced_call.mp hx
      exact ⟨answer, rfl, by rw [hmap]; rfl⟩
  · rintro ⟨answer, rfl, rfl⟩
    cases hread : readCall answer with
    | ok raw =>
      refine .inl ⟨[⟨.request method params, answer⟩], raw, [], rfl, ?_, Prog.traced_ofExcept.mpr ⟨rfl, rfl⟩⟩
      exact Prog.traced_mapError_ok.mpr (traced_call.mpr ⟨answer, rfl, hread.symm⟩)
    | error e =>
      exact .inr ⟨f e, Prog.traced_mapError.mpr ⟨_, traced_call.mpr ⟨answer, rfl, rfl⟩, by rw [hread]; rfl⟩, rfl⟩

theorem traced_read_ok {f : CallError → ε} {read : List UInt8 → Except ε α} {a : α} :
    Node.Traced (Prog.mapError f (call method params) >>= fun raw => Prog.ofExcept (read raw)) log (.ok a) ↔
      ∃ raw, log = [said method params raw] ∧ read raw = .ok a := by
  rw [traced_read]
  constructor
  · rintro ⟨answer, rfl, hread⟩
    obtain ⟨raw, hcall, hread⟩ := bind_ok.mp hread.symm
    rw [readCall_ok.mp (mapError_ok.mp hcall)]
    exact ⟨raw, rfl, hread⟩
  · rintro ⟨raw, rfl, hread⟩
    exact ⟨.ok (.ok raw), rfl, hread.symm⟩

theorem follows_call : (call method params).Follows [.request method params] := by
  intro log r h
  obtain ⟨answer, rest, rfl, hdone⟩ := Prog.traced_call.mp h
  obtain ⟨rfl, -⟩ := Prog.traced_done.mp hdone
  exact ⟨List.prefix_refl _, fun _ _ => rfl⟩

theorem follows_read {f : CallError → ε} {read : List UInt8 → Except ε α} :
    Node.Follows [.request method params]
      (Prog.mapError f (call method params) >>= fun raw => Prog.ofExcept (read raw)) :=
  Prog.follows_before (Prog.follows_mapError follows_call) fun _ => Prog.follows_ofExcept

/-! ## What the steps answer -/

abbrev pending : Json := .string "pending"

theorem traced_chain_ok {m : Methods} {u : Unit} (h : (verifyTransactionChainId lib m).Traced log (.ok u)) :
    ∃ raw, log = [said "eth_chainId" (.array []) raw] ∧ readU64 lib "eth_chainId" raw = .ok m.expectedChainId := by
  unfold verifyTransactionChainId at h
  obtain ⟨first, actual, rest, rfl, hfirst, hrest⟩ := Prog.traced_bind_ok.mp h
  obtain ⟨raw, rfl, hraw⟩ := traced_read_ok.mp (Prog.traced_mapError_ok.mp hfirst)
  obtain ⟨rfl, hrequire⟩ := Prog.traced_ofExcept.mp hrest
  rw [require_ok] at hrequire
  exact ⟨raw, rfl, hrequire ▸ hraw⟩

theorem traced_nativeBalance_ok {address : Address} {w : Wei} (h : (balance lib address .native none).Traced log (.ok w)) :
    ∃ raw, log = [said "eth_getBalance" (.array [.string address.text, pending]) raw] ∧
      readWei lib "eth_getBalance" raw = .ok w := by
  unfold balance at h
  obtain ⟨block, hblock, h⟩ := Prog.traced_ofExcept_bind.mp h
  cases hblock
  exact traced_read_ok.mp h

theorem traced_tokenBalance_ok {address token : Address} {w : Wei}
    (h : (balance lib address (.erc20 token) none).Traced log (.ok w)) :
    ∃ raw, log = [said "eth_call" (.array [tokenCall token (Erc20.balanceOf address), pending]) raw] ∧
      readTokenBalance lib raw = .ok w := by
  unfold balance at h
  obtain ⟨block, hblock, h⟩ := Prog.traced_ofExcept_bind.mp h
  cases hblock
  obtain ⟨_, -, h⟩ := Prog.traced_ofExcept_bind.mp h
  exact traced_read_ok.mp h

/-- What a token transfer needs beside its fee: the amount, and a simulation that the token answers
with `true`. -/
def TokenReady (lib : Library) (request : TransferRequest) (log : Log) : Prop :=
  ∀ token amount, request.erc20Transfer = some (token, amount) → ∃ held transferred tokenBalance,
    said "eth_call" (.array [tokenCall token (Erc20.balanceOf request.sender), pending]) held ∈ log ∧
    said "eth_call" (.array [transactionObject lib request, pending]) transferred ∈ log ∧
    readTokenBalance lib held = .ok tokenBalance ∧ amount ≤ tokenBalance ∧ readTransfer lib transferred = .ok ()

theorem traced_token_ok {request : TransferRequest} {u : Unit} (h : (checkToken lib request).Traced log (.ok u)) :
    TokenReady lib request log := by
  intro token amount htransfer
  unfold checkToken at h
  rw [htransfer] at h
  obtain ⟨first, _, rest, rfl, hfirst, hrest⟩ := Prog.traced_bind_ok.mp h
  unfold ensureTokenAmount at hfirst
  obtain ⟨front, tokenBalance, back, rfl, hbalance, hback⟩ := Prog.traced_bind_ok.mp hfirst
  obtain ⟨held, rfl, hheld⟩ := traced_tokenBalance_ok (Prog.traced_mapError_ok.mp hbalance)
  obtain ⟨rfl, hamount⟩ := Prog.traced_ofExcept.mp hback
  obtain ⟨transferred, rfl, htransferred⟩ := traced_read_ok.mp hrest
  exact ⟨held, transferred, tokenBalance, by simp, by simp, hheld, require_ok.mp hamount, htransferred⟩

namespace Limits

theorem gasLimitWithMargin_ok {limits : Limits} {estimated gas : UInt64} :
    limits.gasLimitWithMargin estimated = .ok gas ↔ gas.toNat = estimated.toNat + limits.gasMargin estimated := by
  have hestimated := estimated.toNat_lt
  have hgas := gas.toNat_lt
  have hmargin := limits.margin_le
  have hproduct : estimated.toNat * limits.gasLimitMarginBasisPoints.toNat ≤ 2 ^ 64 * 10000 :=
    Nat.mul_le_mul hestimated.le hmargin
  have hsize : UInt64.size = 2 ^ 64 := rfl
  unfold gasLimitWithMargin
  rw [if_neg (by omega)]
  split_ifs with hlarge hsum
  · simp
    omega
  · simp
    omega
  · rw [Except.ok.injEq, ← UInt64.toNat_inj, UInt64.toNat_ofNat_of_lt' (by omega)]
    exact eq_comm

end Limits

theorem traced_gas_ok {limits : Limits} {request : TransferRequest} {gas : UInt64}
    (h : (gasLimit lib limits request).Traced log (.ok gas)) :
    ∃ raw estimated, log = [said "eth_estimateGas" (.array [transactionObject lib request]) raw] ∧
      readU64 lib "eth_estimateGas" raw = .ok estimated ∧ estimated ≠ 0 ∧
      gas.toNat = estimated.toNat + limits.gasMargin estimated ∧ gas ≤ limits.maxGasLimit := by
  unfold gasLimit estimateGas at h
  obtain ⟨first, estimated, rest, rfl, hfirst, hrest⟩ := Prog.traced_bind_ok.mp h
  obtain ⟨raw, rfl, hraw⟩ := traced_read_ok.mp hfirst
  obtain ⟨_, hzero, hrest⟩ := Prog.traced_ofExcept_bind.mp hrest
  obtain ⟨limit, hlimit, hrest⟩ := Prog.traced_ofExcept_bind.mp hrest
  obtain ⟨_, hceiling, hrest⟩ := Prog.traced_ofExcept_bind.mp hrest
  obtain ⟨rfl, rfl⟩ := Prog.traced_pure.mp hrest
  exact ⟨raw, estimated, rfl, mapError_ok.mp hraw, require_ok.mp hzero,
    Limits.gasLimitWithMargin_ok.mp (mapError_ok.mp hlimit), require_ok.mp hceiling⟩

theorem traced_priority_ok {limits : Limits} {fee : Wei} (h : (priorityFee lib limits).Traced log (.ok fee)) :
    ∃ raw, log = [said "eth_maxPriorityFeePerGas" (.array []) raw] ∧
      readWei lib "eth_maxPriorityFeePerGas" raw = .ok fee ∧ fee ≤ limits.maxPriorityFeePerGas := by
  unfold priorityFee at h
  obtain ⟨first, fee', rest, rfl, hfirst, hrest⟩ := Prog.traced_bind_ok.mp h
  obtain ⟨raw, rfl, hraw⟩ := traced_read_ok.mp (Prog.traced_mapError_ok.mp hfirst)
  obtain ⟨_, hceiling, hrest⟩ := Prog.traced_ofExcept_bind.mp hrest
  obtain ⟨rfl, rfl⟩ := Prog.traced_pure.mp hrest
  exact ⟨raw, rfl, hraw, require_ok.mp hceiling⟩

theorem traced_base_ok {fee : Wei} (h : (baseFee lib).Traced log (.ok fee)) :
    ∃ raw, log = [said "eth_getBlockByNumber" latestBlock raw] ∧ readBaseFee lib raw = .ok fee := by
  unfold baseFee at h
  obtain ⟨first, raw, rest, rfl, hfirst, hrest⟩ := Prog.traced_bind_ok.mp h
  have hcall := traced_call_ok.mp (Prog.traced_mapError_ok.mp (Prog.traced_mapError_ok.mp hfirst))
  obtain ⟨rfl, hread⟩ := Prog.traced_ofExcept.mp hrest
  exact ⟨raw, by rw [hcall, List.append_nil], mapError_ok.mp hread⟩

theorem checkedAdd_val {a b c : Wei} : a.checkedAdd b = some c ↔ c.val = a.val + b.val := by
  have hc := c.isLt
  unfold Wei.checkedAdd
  split_ifs with h
  · rw [Option.some.injEq, Fin.ext_iff]
    exact eq_comm
  · simp
    omega

theorem checkedMul_val {a c : Wei} {n : UInt64} : a.checkedMul n = some c ↔ c.val = a.val * n.toNat := by
  have hc := c.isLt
  unfold Wei.checkedMul
  split_ifs with h
  · rw [Option.some.injEq, Fin.ext_iff]
    exact eq_comm
  · simp
    omega

/-- The fees that a context may name. -/
structure FeesWithin (limits : Limits) (base priority : Wei) (gas : UInt64) (maxFee totalFee : Wei) : Prop where
  sum : maxFee.val = 2 * base.val + priority.val
  ceiling : maxFee ≤ limits.maxFeePerGas
  ordered : priority ≤ maxFee
  total : totalFee.val = maxFee.val * gas.toNat
  total_ceiling : totalFee ≤ limits.maxTotalFee

theorem maxFees_ok {limits : Limits} {base priority maxFee totalFee : Wei} {gas : UInt64} :
    maxFees limits base priority gas = .ok (maxFee, totalFee) ↔ FeesWithin limits base priority gas maxFee totalFee := by
  have htwo : (2 : UInt64).toNat = 2 := rfl
  unfold maxFees
  constructor
  · intro h
    split at h
    · cases h
    · rename_i fee hfee
      obtain ⟨double, hdouble, hadd⟩ := Option.bind_eq_some_iff.mp hfee
      obtain ⟨_, hceiling, h⟩ := bind_ok.mp h
      obtain ⟨_, hordered, h⟩ := bind_ok.mp h
      split at h
      · cases h
      · rename_i total htotal
        obtain ⟨_, htotalCeiling, h⟩ := bind_ok.mp h
        cases h
        rw [checkedMul_val, htwo] at hdouble
        rw [checkedAdd_val] at hadd
        exact ⟨by omega, require_ok.mp hceiling, require_ok.mp hordered, checkedMul_val.mp htotal,
          require_ok.mp htotalCeiling⟩
  · intro h
    have hlt := maxFee.isLt
    have hfee := h.sum
    have hdouble : base.checkedMul 2 = some ⟨2 * base.val, by omega⟩ := by
      rw [checkedMul_val, htwo]
      exact Nat.mul_comm 2 base.val
    have hadd : (base.checkedMul 2).bind (·.checkedAdd priority) = some maxFee := by
      rw [hdouble, Option.bind_some, checkedAdd_val, hfee]
    rw [hadd]
    simp only [checkedMul_val.mpr h.total, require, if_pos h.ceiling, if_pos h.ordered, if_pos h.total_ceiling]
    rfl

theorem checkFunds_ok {request : TransferRequest} {nativeBalance totalFee : Wei} {u : Unit} :
    checkFunds request nativeBalance totalFee = .ok u ↔ request.value.val + totalFee.val ≤ nativeBalance.val := by
  have hlt := nativeBalance.isLt
  cases request with
  | native source destination value =>
    unfold checkFunds
    simp only [TransferRequest.erc20Transfer]
    split
    · rename_i hnone
      have hsum : ¬ value.val + totalFee.val ≤ nativeBalance.val := by
        intro hle
        have hsome := checkedAdd_val.mpr (rfl : (⟨value.val + totalFee.val, by omega⟩ : Wei).val = _)
        rw [TransferRequest.value, hsome] at hnone
        cases hnone
      simp [TransferRequest.value, hsum]
    · rename_i required hrequired
      rw [require_ok, Fin.le_def, checkedAdd_val.mp hrequired]
  | erc20 source token recipient amount =>
    unfold checkFunds
    simp only [TransferRequest.erc20Transfer, TransferRequest.value]
    rw [require_ok, Fin.le_def]
    simp

theorem traced_funds_ok {request : TransferRequest} {totalFee : Wei} {u : Unit}
    (h : (ensureNativeFunds lib request totalFee).Traced log (.ok u)) :
    ∃ raw nativeBalance, log = [said "eth_getBalance" (.array [.string request.sender.text, pending]) raw] ∧
      readWei lib "eth_getBalance" raw = .ok nativeBalance ∧ request.value.val + totalFee.val ≤ nativeBalance.val := by
  unfold ensureNativeFunds at h
  obtain ⟨first, nativeBalance, rest, rfl, hfirst, hrest⟩ := Prog.traced_bind_ok.mp h
  obtain ⟨raw, rfl, hraw⟩ := traced_nativeBalance_ok (Prog.traced_mapError_ok.mp hfirst)
  obtain ⟨rfl, hfunds⟩ := Prog.traced_ofExcept.mp hrest
  exact ⟨raw, nativeBalance, rfl, hraw, checkFunds_ok.mp hfunds⟩

/-! ## The whole preparation -/

/-- The reads of a preparation, each made once. -/
def tokenReads (lib : Library) (request : TransferRequest) : List JsonRpc.Request :=
  match request.erc20Transfer with
  | none => []
  | some (token, _) =>
    [.request "eth_call" (.array [tokenCall token (Erc20.balanceOf request.sender), pending])] ++
      [.request "eth_call" (.array [transactionObject lib request, pending])]

/-- Every question of a transfer's preparation, in order. -/
def reads (lib : Library) (request : TransferRequest) : List JsonRpc.Request :=
  [JsonRpc.Request.request "eth_chainId" (.array [])] ++ (tokenReads lib request ++
    ([JsonRpc.Request.request "eth_estimateGas" (.array [transactionObject lib request])] ++
      ([JsonRpc.Request.request "eth_maxPriorityFeePerGas" (.array [])] ++
        ([JsonRpc.Request.request "eth_getBlockByNumber" latestBlock] ++
          [JsonRpc.Request.request "eth_getBalance" (.array [.string request.sender.text, pending])]))))

theorem follows_token (lib : Library) (request : TransferRequest) :
    (checkToken lib request).Follows (tokenReads lib request) := by
  unfold checkToken tokenReads
  cases request.erc20Transfer with
  | none => exact Prog.follows_pure
  | some transfer =>
    refine Prog.follows_bind ?_ fun _ => follows_read
    unfold ensureTokenAmount balance
    refine Prog.follows_before (Prog.follows_mapError ?_) fun _ => Prog.follows_ofExcept
    refine Prog.follows_check fun block hblock => Prog.follows_check fun _ _ => ?_
    cases hblock
    exact follows_read

theorem follows_gas (lib : Library) (limits : Limits) (request : TransferRequest) :
    (gasLimit lib limits request).Follows [.request "eth_estimateGas" (.array [transactionObject lib request])] := by
  unfold gasLimit estimateGas
  refine Prog.follows_before follows_read fun _ => ?_
  exact Prog.follows_check fun _ _ => Prog.follows_check fun _ _ => Prog.follows_check fun _ _ => Prog.follows_pure

theorem follows_priority (lib : Library) (limits : Limits) :
    (priorityFee lib limits).Follows [.request "eth_maxPriorityFeePerGas" (.array [])] := by
  unfold priorityFee
  refine Prog.follows_before (Prog.follows_mapError follows_read) fun _ => ?_
  exact Prog.follows_check fun _ _ => Prog.follows_pure

theorem follows_base (lib : Library) : (baseFee lib).Follows [.request "eth_getBlockByNumber" latestBlock] :=
  Prog.follows_before (Prog.follows_mapError (Prog.follows_mapError follows_call)) fun _ => Prog.follows_ofExcept

theorem follows_funds (lib : Library) (request : TransferRequest) (totalFee : Wei) :
    (ensureNativeFunds lib request totalFee).Follows
      [.request "eth_getBalance" (.array [.string request.sender.text, pending])] := by
  unfold ensureNativeFunds balance
  refine Prog.follows_before (Prog.follows_mapError ?_) fun _ => Prog.follows_ofExcept
  refine Prog.follows_check fun block hblock => ?_
  cases hblock
  exact follows_read

theorem follows_chain (lib : Library) (m : Methods) :
    (verifyTransactionChainId lib m).Follows [.request "eth_chainId" (.array [])] :=
  Prog.follows_before (Prog.follows_mapError follows_read) fun _ => Prog.follows_ofExcept

theorem follows_reads (lib : Library) (m : Methods) (request : TransferRequest) (nonce : UInt64) :
    (buildContext lib m request nonce).Follows (reads lib request) := by
  unfold buildContext reads
  refine Prog.follows_check fun limits _ => Prog.follows_check fun _ _ => ?_
  refine Prog.follows_bind (follows_chain lib m) fun _ => ?_
  refine Prog.follows_bind (follows_token lib request) fun _ => ?_
  refine Prog.follows_bind (follows_gas lib limits request) fun gas => ?_
  refine Prog.follows_bind (follows_priority lib limits) fun priority => ?_
  refine Prog.follows_bind (follows_base lib) fun base => Prog.follows_check fun fees _ => ?_
  exact Prog.follows_before (follows_funds lib request fees.2) fun _ => Prog.follows_pure

/-- What a context keeps of the limits, whatever the node says. -/
structure Bounded (m : Methods) (limits : Limits) (request : TransferRequest) (nonce : UInt64)
    (context : BuildContext) : Prop where
  chain : context.chainId = m.expectedChainId
  nonce : context.nonce = nonce
  input : request.input.length ≤ limits.maxInputBytes
  gas_pos : context.gasLimit ≠ 0
  gas : context.gasLimit ≤ limits.maxGasLimit
  priority : context.maxPriorityFeePerGas ≤ limits.maxPriorityFeePerGas
  ordered : context.maxPriorityFeePerGas ≤ context.maxFeePerGas
  fee : context.maxFeePerGas ≤ limits.maxFeePerGas
  total : context.maxFeePerGas.val * context.gasLimit.toNat ≤ limits.maxTotalFee.val

/-- What the node said that a context is made of, and the balance that covers it. -/
structure Grounded (lib : Library) (limits : Limits) (request : TransferRequest) (log : Log)
    (context : BuildContext) : Prop where
  chain : ∃ raw, said "eth_chainId" (.array []) raw ∈ log ∧ readU64 lib "eth_chainId" raw = .ok context.chainId
  gas : ∃ raw estimated, said "eth_estimateGas" (.array [transactionObject lib request]) raw ∈ log ∧
    readU64 lib "eth_estimateGas" raw = .ok estimated ∧
    context.gasLimit.toNat = estimated.toNat + limits.gasMargin estimated
  priority : ∃ raw, said "eth_maxPriorityFeePerGas" (.array []) raw ∈ log ∧
    readWei lib "eth_maxPriorityFeePerGas" raw = .ok context.maxPriorityFeePerGas
  fee : ∃ raw base, said "eth_getBlockByNumber" latestBlock raw ∈ log ∧ readBaseFee lib raw = .ok base ∧
    context.maxFeePerGas.val = 2 * base.val + context.maxPriorityFeePerGas.val
  funds : ∃ raw nativeBalance, said "eth_getBalance" (.array [.string request.sender.text, pending]) raw ∈ log ∧
    readWei lib "eth_getBalance" raw = .ok nativeBalance ∧
    request.value.val + context.maxFeePerGas.val * context.gasLimit.toNat ≤ nativeBalance.val
  token : TokenReady lib request log

theorem TokenReady.mono {request : TransferRequest} {log' : Log} (h : TokenReady lib request log) (hsub : log ⊆ log') :
    TokenReady lib request log' := by
  intro token amount htransfer
  obtain ⟨held, transferred, tokenBalance, hheld, htransferred, hreads⟩ := h token amount htransfer
  exact ⟨held, transferred, tokenBalance, hsub hheld, hsub htransferred, hreads⟩

theorem requireLimits_ok {m : Methods} {limits : Limits} (h : m.requireLimits = .ok limits) :
    m.limits = some limits := by
  unfold Methods.requireLimits at h
  split at h
  · rename_i hsome
    cases h
    exact hsome
  · cases h

theorem traced_context_ok {m : Methods} {request : TransferRequest} {nonce : UInt64} {context : BuildContext}
    (h : (buildContext lib m request nonce).Traced log (.ok context)) :
    ∃ limits, m.limits = some limits ∧ Bounded m limits request nonce context ∧
      Grounded lib limits request log context := by
  unfold buildContext at h
  obtain ⟨limits, hlimits, hinside⟩ := Prog.traced_ofExcept_bind.mp h
  obtain ⟨_, hinput, hreads⟩ := Prog.traced_ofExcept_bind.mp hinside
  obtain ⟨_, _, afterChain, rfl, hchain, hchecked⟩ := Prog.traced_bind_ok.mp hreads
  obtain ⟨tokenLog, _, afterToken, rfl, htoken, hready⟩ := Prog.traced_bind_ok.mp hchecked
  obtain ⟨_, gas, afterGas, rfl, hgas, hlimited⟩ := Prog.traced_bind_ok.mp hready
  obtain ⟨_, priority, afterPriority, rfl, hpriority, hpriced⟩ := Prog.traced_bind_ok.mp hlimited
  obtain ⟨_, base, afterBase, rfl, hbase, hfees⟩ := Prog.traced_bind_ok.mp hpriced
  obtain ⟨fees, hmax, hpaid⟩ := Prog.traced_ofExcept_bind.mp hfees
  obtain ⟨_, _, last, rfl, hfunds, hlast⟩ := Prog.traced_bind_ok.mp hpaid
  obtain ⟨rfl, rfl⟩ := Prog.traced_pure.mp hlast
  obtain ⟨chain, rfl, hid⟩ := traced_chain_ok hchain
  obtain ⟨estimate, estimated, rfl, hestimate, hne, hgas, hgasCeiling⟩ := traced_gas_ok hgas
  obtain ⟨fee, rfl, hpriority, hpriorityCeiling⟩ := traced_priority_ok hpriority
  obtain ⟨block, rfl, hlatest⟩ := traced_base_ok hbase
  obtain ⟨native, nativeBalance, rfl, hnative, hfunds⟩ := traced_funds_ok hfunds
  have hwithin := maxFees_ok.mp hmax
  rw [hwithin.total] at hfunds
  have hpos : gas ≠ 0 := by
    rintro rfl
    have hzero : estimated.toNat = 0 := by
      have : (0 : UInt64).toNat = 0 := rfl
      omega
    exact hne (UInt64.toNat_inj.mp hzero)
  refine ⟨limits, requireLimits_ok (mapError_ok.mp hlimits), ?_, ?_⟩
  · exact ⟨rfl, rfl, require_ok.mp hinput, hpos, hgasCeiling, hpriorityCeiling, hwithin.ordered, hwithin.ceiling,
      hwithin.total ▸ hwithin.total_ceiling⟩
  · exact
      { chain := ⟨chain, by simp, hid⟩
        gas := ⟨estimate, estimated, by simp, hestimate, hgas⟩
        priority := ⟨fee, by simp, hpriority⟩
        fee := ⟨block, base, by simp, hlatest, hwithin.sum⟩
        funds := ⟨native, nativeBalance, by simp, hnative, hfunds⟩
        token := (traced_token_ok htoken).mono fun x hx => by simp [hx] }

theorem Bounded.builds {m : Methods} {limits : Limits} {request : TransferRequest} {nonce : UInt64}
    {context : BuildContext} (h : Bounded m limits request nonce context) :
    ∃ t, UnsignedTransaction.new request context = .ok t := by
  have hchain : context.chainId ≠ 0 := h.chain ▸ m.chain_ne
  unfold UnsignedTransaction.new
  rw [if_neg hchain, if_neg h.gas_pos, if_neg (Fin.not_lt.mpr h.ordered)]
  exact ⟨_, rfl⟩

/-- Whatever the node answers, preparation makes the same reads in the same order until one of them
stops it, and nothing but reads. A context that it returns is made of the answers, keeps every
limit, is covered by the balances, and makes a transaction. -/
theorem preparation_grounded (lib : Library) (m : Methods) (request : TransferRequest) (nonce : UInt64) {log : Log}
    {r : Except ChainError BuildContext} (h : (buildContext lib m request nonce).Traced log r) :
    log.map (·.1) <+: reads lib request ∧ ∀ context, r = .ok context →
      log.map (·.1) = reads lib request ∧
      (∃ limits, m.limits = some limits ∧ Bounded m limits request nonce context ∧
        Grounded lib limits request log context) ∧
      ∃ t, UnsignedTransaction.new request context = .ok t := by
  obtain ⟨hahead, hall⟩ := follows_reads lib m request nonce log r h
  refine ⟨hahead, fun context hcontext => ?_⟩
  subst hcontext
  obtain ⟨limits, hlimits, hbounded, hgrounded⟩ := traced_context_ok h
  exact ⟨hall context rfl, ⟨limits, hlimits, hbounded, hgrounded⟩, hbounded.builds⟩

/-! ### A token transfer -/

def ascii (text : String) : List UInt8 := text.toList.map fun c => .ofNat c.toNat

/-- A JSON text of plain characters. -/
def quoted (text : String) : List UInt8 := 34 :: ascii text ++ [34]

def unquoted : List UInt8 → Option String
  | 34 :: rest =>
    if rest.getLast? = some 34 then some (String.ofList (rest.dropLast.map fun b => Char.ofNat b.toNat)) else none
  | _ => none

def sampleHash : String := String.ofList ('0' :: 'x' :: List.replicate 64 'a')

def sampleBlockText : List UInt8 :=
  ascii "\x7b\"baseFeePerGas\":\"0x7\",\"hash\":" ++ quoted sampleHash ++ ascii "\x7d"

def sampleBlock : Json := .object [("baseFeePerGas", .string "0x7"), ("hash", .string sampleHash)]

def sampleLibrary : Library where
  u256 := Wire.referenceU256
  string := unquoted
  value raw := if raw = sampleBlockText then some sampleBlock else none
  encode envelope := envelope.signature

def sampleLimits : Limits where
  maxInputBytes := 68
  gasLimitMarginBasisPoints := 2000
  maxGasLimit := 100000
  maxFeePerGas := 20
  maxPriorityFeePerGas := 5
  maxTotalFee := 1000000
  input_pos := by decide
  margin_le := by decide
  gas_pos := by decide
  fee_pos := by decide
  total_pos := by decide
  priority_le := by decide

def sampleMethods : Methods := ⟨1, some sampleLimits, by decide⟩

def sampleRequest : TransferRequest :=
  .erc20 (List.replicate 20 1) (List.replicate 20 2) (List.replicate 20 3) 1

/-- Every balance is plentiful, and every call of a token answers one. -/
def sampleAnswer : (request : JsonRpc.Request) → Except JsonRpc.Error request.Value
  | .request method _ => .ok (.ok (
    if method = "eth_call" then quoted (String.ofList ('0' :: 'x' :: List.replicate 63 '0' ++ ['1']))
    else if method = "eth_getBlockByNumber" then sampleBlockText
    else if method = "eth_getCode" then quoted "0x00"
    else if method = "eth_estimateGas" then quoted "0x5208"
    else if method = "eth_getBalance" then quoted "0xfffff"
    else quoted "0x1"))
  | .requestOnce _ _ => .error JsonRpc.unavailable
  | .batch _ => .error JsonRpc.unavailable

/-- 21000 units of gas and a fifth more. -/
def sampleContext : BuildContext := ⟨1, 9, 25200, 15, 1⟩

theorem preparation_grounded_sample :
    ((buildContext sampleLibrary sampleMethods sampleRequest 9).answered sampleAnswer).2 = .ok sampleContext ∧
      15 * 25200 ≤ sampleLimits.maxTotalFee.val ∧ ∃ t, UnsignedTransaction.new sampleRequest sampleContext = .ok t := by
  have hcontext : ((buildContext sampleLibrary sampleMethods sampleRequest 9).answered sampleAnswer).2 =
      .ok sampleContext := by decide +kernel
  obtain ⟨-, hall⟩ := preparation_grounded sampleLibrary sampleMethods sampleRequest 9
    (Prog.traced_answered (E := JsonRpc.clientCalls) sampleAnswer _)
  obtain ⟨-, ⟨limits, hlimits, hbounded, -⟩, hbuilds⟩ := hall sampleContext hcontext
  cases hlimits
  exact ⟨hcontext, hbounded.total, hbuilds⟩

end PaymentSdk.Ethereum.Rpc
