import PaymentSdk.Ethereum.Preflight

/-!
# Admitting a token

A token is admitted on what one block says of it. The block is read first, and each later probe
names it by its hash.
-/

open Checked Interaction

namespace PaymentSdk.Ethereum.Rpc

variable {lib : Library} {log : Log} {m : Methods} {token : Address}

def codeProbe (token : Address) (block : Json) : Json := .array [.string token.text, block]

def callProbe (token : Address) (input : List UInt8) (block : Json) : Json := .array [tokenCall token input, block]

/-- The balance that is probed is that of the zero address. -/
def zeroBalance : List UInt8 := Erc20.balanceOf (List.replicate 20 0)

def probes (token : Address) (block : Json) : List JsonRpc.Request :=
  [JsonRpc.Request.request "eth_getCode" (codeProbe token block)] ++
    ([JsonRpc.Request.request "eth_call" (callProbe token Erc20.decimals block)] ++
      [JsonRpc.Request.request "eth_call" (callProbe token zeroBalance block)])

def identity : List JsonRpc.Request :=
  [JsonRpc.Request.request "eth_chainId" (.array [])] ++ [JsonRpc.Request.request "eth_getBlockByNumber" latestBlock]

/-- What an admitted token answered, at one block of the expected chain. -/
structure Admitted (lib : Library) (m : Methods) (token : Address) (decimals : UInt8) (hash : Vector UInt8 32)
    (log : Log) : Prop where
  token_ne : isZero token = false
  chain : ∃ raw, said "eth_chainId" (.array []) raw ∈ log ∧ readU64 lib "eth_chainId" raw = .ok m.expectedChainId
  block : ∃ raw, said "eth_getBlockByNumber" latestBlock raw ∈ log ∧ readLatestHash lib raw = .ok hash
  code : ∃ raw code, said "eth_getCode" (codeProbe token (canonicalBlock hash.toList)) raw ∈ log ∧
    readCode lib raw = .ok code ∧ code ≠ []
  decimals : ∃ raw word, said "eth_call" (callProbe token Erc20.decimals (canonicalBlock hash.toList)) raw ∈ log ∧
    readWord lib raw = .ok word ∧ Erc20.decodeDecimals word = .ok decimals.toNat
  balance : ∃ raw word held, said "eth_call" (callProbe token zeroBalance (canonicalBlock hash.toList)) raw ∈ log ∧
    readWord lib raw = .ok word ∧ Erc20.decodeBalance word = .ok held

theorem traced_latest_ok {block : Json} (h : (latestCanonicalParameter lib).Traced log (.ok block)) :
    ∃ raw hash, log = [said "eth_getBlockByNumber" latestBlock raw] ∧ readLatestHash lib raw = .ok hash ∧
      block = canonicalBlock hash.toList := by
  unfold latestCanonicalParameter at h
  obtain ⟨first, raw, rest, rfl, hfirst, hrest⟩ := Prog.traced_bind_ok.mp h
  have hcall := traced_call_ok.mp (Prog.traced_mapError_ok.mp hfirst)
  obtain ⟨hash, hread, hdone⟩ := Prog.traced_ofExcept_bind.mp hrest
  obtain ⟨rfl, rfl⟩ := Prog.traced_pure.mp hdone
  exact ⟨raw, hash, by rw [hcall, List.append_nil], hread, rfl⟩

theorem traced_verify_ok {u : Unit} (h : (verifyChainId lib m).Traced log (.ok u)) :
    ∃ raw, log = [said "eth_chainId" (.array []) raw] ∧ readU64 lib "eth_chainId" raw = .ok m.expectedChainId := by
  unfold verifyChainId at h
  obtain ⟨first, actual, rest, rfl, hfirst, hrest⟩ := Prog.traced_bind_ok.mp h
  obtain ⟨raw, rfl, hraw⟩ := traced_read_ok.mp hfirst
  obtain ⟨rfl, hrequire⟩ := Prog.traced_ofExcept.mp hrest
  exact ⟨raw, rfl, require_ok.mp hrequire ▸ hraw⟩

theorem traced_admitted {decimals : UInt8} {u : Unit} (h : (validateToken lib m token decimals).Traced log (.ok u)) :
    ∃ hash, Admitted lib m token decimals hash log ∧
      log.map (·.1) = identity ++ probes token (canonicalBlock hash.toList) := by
  unfold validateToken at h
  obtain ⟨_, hzero, hreads⟩ := Prog.traced_ofExcept_bind.mp h
  obtain ⟨_, _, afterChain, rfl, hchain, hidentified⟩ := Prog.traced_bind_ok.mp hreads
  obtain ⟨_, block, afterBlock, rfl, hblock, hpinned⟩ := Prog.traced_bind_ok.mp hidentified
  unfold probeToken at hpinned
  obtain ⟨_, codeRaw, afterCode, rfl, hcode, hcoded⟩ := Prog.traced_bind_ok.mp hpinned
  obtain ⟨code, hcodeRead, hdeployed⟩ := Prog.traced_ofExcept_bind.mp hcoded
  obtain ⟨_, hne, hdecimals⟩ := Prog.traced_ofExcept_bind.mp hdeployed
  obtain ⟨_, decimalsWord, afterDecimals, rfl, hdecimalsRead, hcounted⟩ := Prog.traced_bind_ok.mp hdecimals
  obtain ⟨found, hfound, hcompared⟩ := Prog.traced_ofExcept_bind.mp hcounted
  obtain ⟨_, hequal, hbalance⟩ := Prog.traced_ofExcept_bind.mp hcompared
  obtain ⟨_, balanceWord, last, rfl, hbalanceRead, hlast⟩ := Prog.traced_bind_ok.mp hbalance
  obtain ⟨held, hheld, hdone⟩ := Prog.traced_ofExcept_bind.mp hlast
  obtain ⟨rfl, -⟩ := Prog.traced_pure.mp hdone
  obtain ⟨chain, rfl, hid⟩ := traced_verify_ok hchain
  obtain ⟨latest, hash, rfl, hhash, rfl⟩ := traced_latest_ok hblock
  obtain rfl := traced_call_ok.mp (Prog.traced_mapError_ok.mp hcode)
  obtain ⟨decimalsRaw, rfl, hdecimalsWord⟩ := traced_read_ok.mp hdecimalsRead
  obtain ⟨balanceRaw, rfl, hbalanceWord⟩ := traced_read_ok.mp hbalanceRead
  obtain rfl := require_ok.mp hequal
  refine ⟨hash, ?_, rfl⟩
  exact
    { token_ne := require_ok.mp hzero
      chain := ⟨chain, by simp, hid⟩
      block := ⟨latest, by simp, hhash⟩
      code := ⟨codeRaw, code, by simp [codeProbe], hcodeRead, require_ok.mp hne⟩
      decimals := ⟨decimalsRaw, decimalsWord, by simp [callProbe], hdecimalsWord, mapError_ok.mp hfound⟩
      balance := ⟨balanceRaw, balanceWord, held, by simp [callProbe, zeroBalance], hbalanceWord, mapError_ok.mp hheld⟩ }

theorem follows_verify (lib : Library) (m : Methods) :
    (verifyChainId lib m).Follows [.request "eth_chainId" (.array [])] :=
  Prog.follows_before follows_read fun _ => Prog.follows_ofExcept

theorem follows_latest (lib : Library) :
    (latestCanonicalParameter lib).Follows [.request "eth_getBlockByNumber" latestBlock] :=
  Prog.follows_before (Prog.follows_mapError follows_call) fun _ => Prog.follows_check fun _ _ => Prog.follows_pure

theorem follows_probe (lib : Library) (token : Address) (decimals : UInt8) (block : Json) :
    (probeToken lib token decimals block).Follows (probes token block) := by
  unfold probeToken probes
  refine Prog.follows_bind (Prog.follows_mapError follows_call) fun _ => Prog.follows_check fun _ _ => ?_
  refine Prog.follows_check fun _ _ => Prog.follows_bind follows_read fun _ => Prog.follows_check fun _ _ => ?_
  refine Prog.follows_check fun _ _ => Prog.follows_before follows_read fun _ => ?_
  exact Prog.follows_check fun _ _ => Prog.follows_pure

theorem follows_probes {decimals : UInt8} {r : Except SourceError Unit}
    (h : (validateToken lib m token decimals).Traced log r) :
    ∃ block, log.map (·.1) <+: identity ++ probes token block := by
  have : Inhabited Json := ⟨.null⟩
  unfold validateToken at h
  rcases Prog.traced_except_bind.mp h with ⟨first, _, rest, rfl, hfirst, hrest⟩ | ⟨e, herror, -⟩
  · obtain ⟨rfl, -⟩ := Prog.traced_ofExcept.mp hfirst
    rcases Prog.traced_except_bind.mp hrest with ⟨chain, _, probed, rfl, hchain, hprobed⟩ | ⟨e, herror, -⟩
    · obtain ⟨block, hahead, -⟩ :=
        Prog.follows_bind_some (follows_latest lib) (follows_probe lib token decimals) hprobed
      refine ⟨block, ?_⟩
      rw [List.nil_append, List.map_append, (follows_verify lib m chain _ hchain).2 _ rfl]
      exact (List.prefix_append_right_inj _).mpr hahead
    · have hahead := (follows_verify lib m rest _ herror).1
      exact ⟨.null, hahead.trans (List.prefix_append _ _)⟩
  · obtain ⟨rfl, -⟩ := Prog.traced_ofExcept.mp herror
    exact ⟨.null, List.nil_prefix⟩

end PaymentSdk.Ethereum.Rpc
