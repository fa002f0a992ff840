import PaymentSdk.Base.Block
import PaymentSdk.Lib.Prog
import PaymentSdk.Wallets.Sender

/-!
# Sparse slots

How the Solana source finds its tip and the blocks of a slot range. Slots are numbers below
`2 ^ 64`, and an operation that would leave that range in the code is `overflow` here. The
two loops take fuel, since only the enumeration budget ends them.
-/

open Interaction

namespace PaymentSdk.Solana.Slots

/-! ## Blocks -/

/-- A decoded `getBlock` result. Its transactions are not looked at here. -/
structure BlockWire where
  blockhash : String
  previousBlockhash : String
  parentSlot : UInt64
  blockTime : Option Int64
  blockHeight : Option UInt64
  deriving DecidableEq

/-- What the JSON and hash crates supply. -/
structure Codec where
  decode : List UInt8 → Option BlockWire
  hashFromStr : String → Option (List UInt8)
  hashToString : List UInt8 → String

/-- A finalized block with its raw text. -/
structure Block where
  reference : BlockRef
  raw : List UInt8
  deriving DecidableEq

def parseHash (codec : Codec) (text field : String) : Except String BlockHash :=
  match codec.hashFromStr text with
  | none => .error ("Solana " ++ field ++ " is not a canonical hash")
  | some hash =>
    if codec.hashToString hash ≠ text then
      .error ("Solana " ++ field ++ " is not canonically encoded")
    else .ok ⟨hash⟩

def parseTime : Option Int64 → Except String (Option UInt64)
  | none => .ok none
  | some time =>
    if time < 0 then .error "Solana block time must not be negative" else .ok (some time.toUInt64)

def parseParent (slot : UInt64) (wire : BlockWire) (parentHash : BlockHash) :
    Except String (Option BlockParent) :=
  if slot = 0 then
    if wire.parentSlot ≠ 0 then .error "Solana genesis parent slot must be zero" else .ok none
  else if slot ≤ wire.parentSlot then .error "Solana block parent slot must precede its slot"
  else .ok (some ⟨⟨wire.parentSlot⟩, parentHash⟩)

def Block.parse (codec : Codec) (slot : UInt64) (raw : List UInt8) : Except String Block :=
  match codec.decode raw with
  | none => .error "Solana getBlock result has an invalid shape"
  | some wire => do
    let hash ← parseHash codec wire.blockhash "blockhash"
    let parentHash ← parseHash codec wire.previousBlockhash "previous blockhash"
    let height ← match wire.blockHeight with
      | none => .error "Solana finalized block has no produced height"
      | some height => .ok height
    let timestamp ← parseTime wire.blockTime
    let parent ← parseParent slot wire parentHash
    return ⟨⟨⟨slot⟩, ⟨height⟩, hash, parent, timestamp⟩, raw⟩

def Block.requireConnection (block previous : Block) : Except SourceError Unit :=
  match previous.reference.height.checkedSuccessor with
  | none => .error ⟨"Solana produced height is exhausted", true⟩
  | some expectedHeight =>
    let expectedParent : BlockParent := ⟨previous.reference.position, previous.reference.hash⟩
    if block.reference.position ≤ previous.reference.position ∨
        block.reference.height ≠ expectedHeight ∨ block.reference.parent ≠ some expectedParent then
      .error ⟨"Solana produced blocks are not a strict canonical sequence", true⟩
    else .ok ()

/-! ## Requests -/

inductive ErrorKind where
  | invalidBatch
  | invalidBudget
  | invalidIdentity
  | invalidSecret
  | generation
  | signing
  | invalidRpcConfiguration
  | rpcTimeout
  | rpcUnavailable
  | rpcHttpStatus (status : UInt16)
  | rpcRemote (code : Int64)
  | malformedRpc
  | responseTooLarge
  | belowFloor
  | unsupportedDestination
  | simulation
  deriving DecidableEq

/-- A request that did not give a value: its deadline went by, or it failed. -/
inductive Fault where
  | elapsed
  | failed (kind : ErrorKind) (message : String)
  deriving DecidableEq

/-- The requests of an attempt. `now` asks whether the deadline has passed. -/
inductive Op where
  | now
  | slot
  | firstAvailable
  | getBlocks (start last floor : Nat)
  | getBlock (slot : UInt64)

abbrev Op.Ans : Op → Type
  | now => Bool
  | slot => Except Fault UInt64
  | firstAvailable => Except Fault UInt64
  | getBlocks .. => Except Fault (List UInt64)
  | getBlock _ => Except Fault (Option (List UInt8))

abbrev rpcCalls : Calls := ⟨Op, Op.Ans⟩

/-- How an attempt ends without a result. -/
inductive Halt where
  | failed (error : SourceError)
  | overflow
  | outOfFuel
  deriving DecidableEq

abbrev Attempt := ExceptT Halt (Prog rpcCalls)

variable {α : Type}

def fail (message : String) (retryable : Bool) : Attempt α := throw (.failed ⟨message, retryable⟩)

def deadlineError : SourceError := ⟨"Solana source exceeded its 30-second deadline", true⟩

def budgetError : SourceError := ⟨"Solana source exhausted its 64-call enumeration budget", true⟩

def ErrorKind.retryable : ErrorKind → Bool
  | invalidRpcConfiguration | invalidIdentity | invalidBatch | invalidBudget | invalidSecret
  | generation | signing | unsupportedDestination => false
  | _ => true

/-- Ends the attempt with the fault's error. -/
def within : Except Fault α → Attempt α
  | .ok value => pure value
  | .error .elapsed => throw (.failed deadlineError)
  | .error (.failed kind message) => throw (.failed ⟨message, kind.retryable⟩)

/-- A subtraction of unsigned numbers. -/
def minus (a b : Nat) : Attempt Nat := if a < b then throw .overflow else pure (a - b)

def beforeDeadline (passed : Bool) : Attempt Unit :=
  if passed then throw (.failed deadlineError) else pure ()

def ensureBeforeDeadline : Attempt Unit := Prog.call .now beforeDeadline

def finalizedSlot : Attempt UInt64 := Prog.call .slot within

def firstAvailable : Attempt UInt64 := Prog.call .firstAvailable within

def maxEnumerationSpan : Nat := 500000

/-- Ascending slots of the range. -/
def wellOrdered (start last : Nat) (slots : List UInt64) : Prop :=
  (∀ slot ∈ slots, start ≤ slot.toNat ∧ slot.toNat ≤ last) ∧
    slots.IsChain fun a b => a.toNat < b.toNat

instance (start last : Nat) (slots : List UInt64) : Decidable (wellOrdered start last slots) :=
  @instDecidableAnd _ _ (List.decidableBAll _ slots) inferInstance

def finalizedBlocks (start last floor : Nat) : Prog rpcCalls (Except Fault (List UInt64)) :=
  if last < start ∨ 2 ^ 64 ≤ last - start + 1 then
    .done (.error (.failed .invalidRpcConfiguration "Solana finalized block range must be ordered"))
  else if maxEnumerationSpan < last - start + 1 then
    .done (.error
      (.failed .invalidRpcConfiguration "Solana finalized block range exceeds 500000 slots"))
  else
    .call (.getBlocks start last floor) fun
      | .error fault => .done (.error fault)
      | .ok slots =>
        if wellOrdered start last slots then .done (.ok slots)
        else .done (.error (.failed .malformedRpc
          "Solana getBlocks returned unordered, duplicate, or out-of-range slots"))

def maxEnumerations : Nat := 64

/-- One enumeration, with the number of them so far. -/
def enumerate (enumerations start last floor : Nat) : Attempt (List UInt64 × Nat) := do
  ensureBeforeDeadline
  if maxEnumerations ≤ enumerations then throw (.failed budgetError)
  else
    let slots ← (finalizedBlocks start last floor).bind within
    return (slots, enumerations + 1)

def requiredBlock (codec : Codec) (slot : UInt64) : Attempt Block := do
  match ← (Prog.call (.getBlock slot) within : Attempt (Option (List UInt8))) with
  | none => fail "Solana selected finalized block became unavailable" true
  | some raw =>
    match Block.parse codec slot raw with
    | .error message => fail message true
    | .ok block => return block

/-! ## The tip -/

def descendingWindow : Nat := 10000

def maxForwardWindow : Nat := 500000

/-- The search for the highest produced slot, window by window from the top. -/
def searchTip (opening tip : Nat) : Nat → Nat → Nat → Attempt (UInt64 × Nat)
  | 0, _, _ => throw .outOfFuel
  | fuel + 1, enumerations, last => do
    let start := max (last - (descendingWindow - 1)) opening
    let (slots, enumerations) ← enumerate enumerations start last tip
    match slots.getLast? with
    | some candidate => return (candidate, enumerations)
    | none =>
      if start = opening then
        fail "Solana finalized history contains no retained produced block" true
      else
        let last ← minus start 1
        searchTip opening tip fuel enumerations last

/-- The last block, and the slot below which nothing is available. -/
structure Tip where
  block : Block
  lowerBound : UInt64

/-- The last produced block, with the first available one read before and after it. -/
def completeTip (codec : Codec) (fuel : Nat) : Attempt (Tip × Nat) := do
  let tip ← finalizedSlot
  let opening ← firstAvailable
  if tip < opening then fail "Solana first available block is above the finalized slot" true
  else
    let (candidate, enumerations) ← searchTip opening.toNat tip.toNat fuel 0 tip.toNat
    let block ← requiredBlock codec candidate
    let closing ← firstAvailable
    if candidate < closing then
      fail "Solana selected anchor was pruned during source acquisition" true
    else return (⟨block, closing⟩, enumerations)

/-! ## A slot range -/

/-- One block of `extend_blocks`. -/
def extendBlock (codec : Codec) (blocks : List Block) (slot : UInt64) : Attempt (List Block) := do
  let block ← requiredBlock codec slot
  match blocks.getLast? with
  | none => return blocks ++ [block]
  | some previous =>
    match block.requireConnection previous with
    | .error e => throw (.failed e)
    | .ok () => return blocks ++ [block]

/-- Each slot's block, which has to connect to the one before. -/
def extendBlocks (codec : Codec) (slots : List UInt64) (blocks : List Block) : Attempt (List Block) :=
  slots.foldlM (extendBlock codec) blocks

/-- `u64::try_from(remaining)`, clamped to the window's least and greatest width. -/
def windowWidth (remaining : Nat) : Nat :=
  max descendingWindow (min (min remaining (2 ^ 64 - 1)) maxForwardWindow)

/-- The loop of `sparse_blocks`. -/
def collect (codec : Codec) (tip boundedEnd limit : Nat) :
    Nat → Nat → Nat → List Block → Attempt (List Block)
  | 0, _, _, _ => throw .outOfFuel
  | fuel + 1, enumerations, cursor, blocks =>
    if cursor ≤ boundedEnd ∧ blocks.length < limit then do
      ensureBeforeDeadline
      let remaining ← minus limit blocks.length
      let reach ← minus (windowWidth remaining) 1
      let windowEnd := min (min (cursor + reach) (2 ^ 64 - 1)) boundedEnd
      let (slots, enumerations) ← enumerate enumerations cursor windowEnd tip
      if windowEnd = tip ∧ slots.getLast?.map (·.toNat) ≠ some windowEnd then
        fail "Solana range enumeration omitted its previously proved tip" true
      else
        let blocks ← extendBlocks codec (slots.take remaining) blocks
        if blocks.length = limit ∨ windowEnd = boundedEnd then return blocks
        else if windowEnd + 1 < 2 ^ 64 then
          collect codec tip boundedEnd limit fuel enumerations (windowEnd + 1) blocks
        else fail "Solana slot range cannot advance" true
    else return blocks

def prunedError : SourceError :=
  ⟨"Solana required position was pruned during source acquisition", false⟩

/-- The produced blocks of a range of slots. -/
def sparseBlocks (codec : Codec) (fuel : Nat) (start last : BlockPosition) (limit : Nat) :
    Attempt (List Block) := do
  let (tip, enumerations) ← completeTip codec fuel
  let top := tip.block.reference.position
  if top < start then return []
  else if start.val < tip.lowerBound then throw (.failed prunedError)
  else
    let blocks ← collect codec top.toNat (min last.toNat top.toNat) limit fuel enumerations start.toNat []
    let closing ← firstAvailable
    if start.val < closing then throw (.failed prunedError) else return blocks

/-! ## The source -/

def tip (codec : Codec) (fuel : Nat) : Attempt BlockRef := do
  let (tip, _) ← completeTip codec fuel
  return tip.block.reference

def blocks (codec : Codec) (fuel : Nat) (start last : BlockPosition) (limit : Nat) :
    Attempt (List Block) :=
  if limit = 0 ∨ last < start then
    fail "Solana block range requires ordered positions and a positive limit" false
  else sparseBlocks codec fuel start last limit

def canonicalAt (codec : Codec) (position : BlockPosition) : Attempt (Option BlockRef) := do
  let tip ← finalizedSlot
  let opening ← firstAvailable
  if position.val < opening then throw (.failed prunedError)
  else if tip < position.val then fail "Solana canonical position is above the finalized slot" true
  else
    let (slots, _) ← enumerate 0 position.toNat position.toNat tip.toNat
    let block ←
      if slots.isEmpty then
        if tip ≤ position.val then fail "Solana same-slot omission is not canonical evidence" true
        else pure none
      else some <$> requiredBlock codec position.val
    let closing ← firstAvailable
    if position.val < closing then throw (.failed prunedError)
    else return block.map (·.reference)

end PaymentSdk.Solana.Slots
