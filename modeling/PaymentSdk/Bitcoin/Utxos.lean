import PaymentSdk.Bitcoin.Block
import PaymentSdk.Redb.Depth
import PaymentSdk.Wallets.Sender

/-!
# The outputs a Bitcoin wallet can spend

A wallet reads its outputs from the index, page by page, under one checkpoint. How an address
encodes its script and how an id is parsed are the Bitcoin library's own, and are parameters.
The page loop takes fuel, since nothing in it bounds the number of pages.
-/

open Interaction KvStore

namespace PaymentSdk.Bitcoin

open Redb

/-- An output that a transaction may spend. -/
structure UnspentOutput where
  transactionId : List UInt8
  outputIndex : UInt32
  value : UInt64
  scriptPubkey : List UInt8
  confirmations : UInt64
  coinbase : Bool
  deriving DecidableEq

structure UtxoSet where
  checkpoint : BlockRef
  outputs : List UnspentOutput
  deriving DecidableEq

/-- Why the unspent outputs of an address cannot be read. -/
inductive UtxosError where
  | noAddress
  | script (message : String)
  | index (error : IndexError)
  | noCheckpoint
  | checkpointMoved
  | foreignOutput
  | foreignScript
  | invalidId
  | amount (error : DecimalError)
  | createdAfter
  | duplicated
  | invalidCursor
  deriving DecidableEq

def UtxosError.source : UtxosError → SourceError
  | noAddress => ⟨"Bitcoin indexed output lookup requires an address", false⟩
  | script message => ⟨message, false⟩
  | index error => ⟨error.message, error.retryable⟩
  | noCheckpoint => ⟨"indexed outputs have no canonical checkpoint", true⟩
  | checkpointMoved => ⟨"indexed output checkpoint changed while loading Bitcoin outputs", true⟩
  | foreignOutput =>
    ⟨"indexed output does not belong to the requested Bitcoin address and asset", false⟩
  | foreignScript => ⟨"indexed output locking script does not match its Bitcoin address", false⟩
  | invalidId => ⟨"indexed output has an invalid Bitcoin transaction ID", false⟩
  | amount error => ⟨error.message, false⟩
  | createdAfter => ⟨"indexed output was created after the canonical checkpoint", false⟩
  | duplicated => ⟨"indexed output is duplicated", false⟩
  | invalidCursor => ⟨"indexed output query returned an invalid pagination cursor", false⟩

/-- How a load ends without a set. -/
inductive LoadHalt where
  | failed (error : UtxosError)
  | outOfFuel
  deriving DecidableEq

abbrev Load := ExceptT LoadHalt (Prog (storeCalls Value))

def pageSize : Nat := 256

def coinbaseMaturity : Nat := 100

/-- `script` is the locking script of an encoded address, and `parseId` the 32 bytes of an id. -/
structure IndexUtxos where
  scope : IndexScope
  script : Text → Except String (List UInt8)
  parseId : Text → Option (List UInt8)

/-- The outputs loaded so far, by id and index. -/
abbrev Seen := List (List UInt8 × UInt32)

def fromIndexedAmount (amount : Decimal) : Except UtxosError UInt64 :=
  match amount.toAtomic 0 with
  | .error e => .error (.amount e)
  | .ok value =>
    if value < 2 ^ 64 then .ok (UInt64.ofNat value)
    else .error (.amount ⟨.overflow, "atomic amount exceeds the u64 range"⟩)

namespace IndexUtxos

variable (self : IndexUtxos)

/-- `checkpoint - created_at + 1`, where both steps are checked. -/
def confirmations (checkpoint : BlockRef) (createdAt : BlockHeight) : Except UtxosError UInt64 :=
  if checkpoint.height.toNat < createdAt.toNat ∨
      2 ^ 64 ≤ checkpoint.height.toNat - createdAt.toNat + 1 then .error .createdAfter
  else .ok (checkpoint.height.val - createdAt.val + 1)

/-- An indexed output as a source, unless it is an unripe coinbase's. -/
def unspent (canonical : CanonicalAddress) (expectedScript : List UInt8) (checkpoint : BlockRef)
    (seen : Seen) (output : IndexedOutput) : Except UtxosError (Option UnspentOutput × Seen) :=
  if output.address ≠ canonical ∨ output.asset ≠ nativeAsset ∨
      output.id.transaction.belongsTo self.scope = false then
    throw .foreignOutput
  else if output.evidence ≠ expectedScript then throw .foreignScript
  else
    match self.parseId output.id.transaction.value with
    | none => throw .invalidId
    | some transactionId => do
      let value ← fromIndexedAmount output.amount
      let confirmations ← confirmations checkpoint output.createdAt
      if output.coinbase ∧ confirmations.toNat < coinbaseMaturity then pure (none, seen)
      else if (transactionId, output.id.index) ∈ seen then throw .duplicated
      else
        pure (some ⟨transactionId, output.id.index, value, output.evidence, confirmations,
          output.coinbase⟩, (transactionId, output.id.index) :: seen)

/-- The loop over one page. -/
def unspentAll (canonical : CanonicalAddress) (expectedScript : List UInt8) (checkpoint : BlockRef) :
    Seen → List IndexedOutput → Except UtxosError (List UnspentOutput × Seen)
  | seen, [] => .ok ([], seen)
  | seen, output :: rest => do
    let (found, seen) ← self.unspent canonical expectedScript checkpoint seen output
    let (more, seen) ← unspentAll canonical expectedScript checkpoint seen rest
    pure (found.toList ++ more, seen)

/-- A cursor belongs to its page's checkpoint, and moves. -/
def validateCursor (previous : Option OutputCursor) (next : OutputCursor)
    (checkpoint : Option BlockRef) : Except UtxosError Unit :=
  if next.checkpoint ≠ checkpoint ∨ previous = some next ∨ next.position = [] then
    .error .invalidCursor
  else .ok ()

def lift {α : Type} : Except UtxosError α → Load α
  | .ok a => pure a
  | .error e => throw (.failed e)

def list (request : OutputRequest) : Load OutputPage :=
  ExceptT.mk (Prog.bind (listOutputs self.scope request) fun r =>
    .done (r.mapError fun e => .failed (.index e)))

/-- What is loaded: the outputs, the checkpoint they all have, and what was seen. -/
abbrev Loaded := List UnspentOutput × Option BlockRef × Seen

/-- The page loop of `load`. -/
def loadPages (canonical : CanonicalAddress) (expectedScript : List UInt8) :
    Nat → Option OutputCursor → Option BlockRef → Seen → Load Loaded
  | 0, _, _, _ => throw .outOfFuel
  | fuel + 1, after, expected, seen => do
    let page ← self.list ⟨self.scope, canonical, after, pageSize⟩
    match page.checkpoint with
    | none => throw (.failed .noCheckpoint)
    | some checkpoint =>
      let expected := expected.getD checkpoint
      if expected ≠ checkpoint then throw (.failed .checkpointMoved)
      else
        let (outputs, seen) ← lift (self.unspentAll canonical expectedScript checkpoint seen page.outputs)
        match page.next with
        | none => pure (outputs, some expected, seen)
        | some next =>
          lift (validateCursor after next page.checkpoint)
          let (more, rest) ← loadPages canonical expectedScript fuel (some next) (some expected) seen
          pure (outputs ++ more, rest)

/-- All pages of one address. -/
def load (fuel : Nat) (address : Text) (expected : Option BlockRef) (seen : Seen) : Load Loaded :=
  match self.script address with
  | .error message => throw (.failed (.script message))
  | .ok expectedScript => self.loadPages ⟨self.scope, address⟩ expectedScript fuel none expected seen

/-- The address loop of `utxos`. -/
def loadAll (fuel : Nat) : List Text → Option BlockRef → Seen → Load Loaded
  | [], expected, seen => pure ([], expected, seen)
  | address :: rest, expected, seen => do
    let (outputs, expected, seen) ← self.load fuel address expected seen
    let (more, last) ← loadAll fuel rest expected seen
    pure (outputs ++ more, last)

/-- All addresses at one checkpoint. -/
def utxos (fuel : Nat) (addresses : List Text) : Load UtxoSet := do
  if addresses.isEmpty then throw (.failed .noAddress)
  else
    let (outputs, checkpoint, _) ← self.loadAll fuel addresses none []
    match checkpoint with
    | none => throw (.failed .noCheckpoint)
    | some checkpoint => pure ⟨checkpoint, outputs⟩

/-! ## What the wallet is shown -/

variable {self} {size : Value → Bool} {s s' : Store Value} {branch : List BlockAddition}

/-- The wallet sees an output of the branch, with the depth of its block. -/
def Shown (self : IndexUtxos) (branch : List BlockAddition) (u : UnspentOutput) : Prop :=
  ∃ a n o, Depth branch a n ∧ n < 2 ^ 64 ∧ o ∈ a.outputs.created ∧
    self.parseId o.id.transaction.value = some u.transactionId ∧ u.outputIndex = o.id.index ∧
    fromIndexedAmount o.amount = .ok u.value ∧ u.scriptPubkey = o.evidence ∧
    u.coinbase = o.coinbase ∧ u.confirmations = UInt64.ofNat n

theorem confirmations_at {scope : IndexScope} (hb : Branch size scope branch)
    (hlength : branch.length < 2 ^ 64) {a : BlockAddition} {n : Nat} (hdepth : Depth branch a n)
    {tip : BlockRef} (htip : branch.head?.map (·.block) = some tip) {o : IndexedOutput}
    (ho : o ∈ a.outputs.created) : confirmations tip o.createdAt = .ok (UInt64.ofNat n) := by
  obtain ⟨tip', htip', hheight⟩ := depth_height hb hdepth
  obtain rfl := Option.some.inj (htip.symm.trans htip')
  rw [← (a.valid.changes.created o ho).2.2.2] at hheight
  obtain ⟨hin, hn⟩ := checked_depth hheight (depth_pos hdepth)
    (Nat.lt_of_le_of_lt (depth_le hdepth) hlength)
  rw [confirmations, if_neg hin, hn]

/-- A step never ends with `bad`, and what it gives is `good`. -/
def Ends {ε α : Type} (bad : ε) (good : α → Prop) : Except ε α → Prop
  | .ok a => good a
  | .error e => e ≠ bad

theorem ends_bind {ε α β : Type} {bad : ε} {good : α → Prop} {good' : β → Prop} {x : Except ε α}
    {f : α → Except ε β} (hx : Ends bad good x) (hf : ∀ a, good a → Ends bad good' (f a)) :
    Ends bad good' (x >>= f) := by
  cases x with
  | ok a => exact hf a hx
  | error e => exact hx

/-- Created by a block of the branch. -/
def Stored (branch : List BlockAddition) (o : IndexedOutput) : Prop :=
  ∃ a n, Depth branch a n ∧ o ∈ a.outputs.created

theorem fromIndexedAmount_ends (amount : Decimal) :
    Ends .createdAfter (fun value => fromIndexedAmount amount = .ok value) (fromIndexedAmount amount) := by
  unfold fromIndexedAmount
  cases amount.toAtomic 0 with
  | error e => exact UtxosError.noConfusion
  | ok value =>
    dsimp only
    split_ifs
    · rfl
    · exact UtxosError.noConfusion

section held

variable {scope : IndexScope} (hb : Branch size scope branch) (hlength : branch.length < 2 ^ 64)
  {tip : BlockRef} (htip : branch.head?.map (·.block) = some tip) {canonical : CanonicalAddress}
  {expectedScript : List UInt8}

include hb hlength htip

theorem unspent_ends {seen : Seen} {o : IndexedOutput} (ho : Stored branch o) :
    Ends .createdAfter (fun r => ∀ u ∈ r.1, self.Shown branch u)
      (self.unspent canonical expectedScript tip seen o) := by
  obtain ⟨a, n, hdepth, ho⟩ := ho
  have hfits := Nat.lt_of_le_of_lt (depth_le hdepth) hlength
  have hconfirmations := confirmations_at hb hlength hdepth htip ho
  unfold unspent
  split_ifs
  · exact UtxosError.noConfusion
  · exact UtxosError.noConfusion
  · cases hid : self.parseId o.id.transaction.value with
    | none => exact UtxosError.noConfusion
    | some transactionId =>
      refine ends_bind (fromIndexedAmount_ends _) fun value hvalue => ?_
      rw [hconfirmations]
      show Ends _ _ (if _ then _ else if _ then _ else _)
      split_ifs
      · rintro u ⟨⟩
      · exact UtxosError.noConfusion
      · rintro u ⟨⟩
        exact ⟨a, n, o, hdepth, hfits, ho, hid, rfl, hvalue, rfl, rfl, rfl⟩

theorem unspentAll_ends {seen : Seen} {os : List IndexedOutput} (hos : ∀ o ∈ os, Stored branch o) :
    Ends .createdAfter (fun r => ∀ u ∈ r.1, self.Shown branch u)
      (self.unspentAll canonical expectedScript tip seen os) := by
  induction os generalizing seen with
  | nil => exact fun u hu => nomatch hu
  | cons o rest ih =>
    refine ends_bind (unspent_ends hb hlength htip (hos o List.mem_cons_self)) fun found hfound => ?_
    refine ends_bind (ih fun o' ho' => hos o' (List.mem_cons_of_mem _ ho')) fun more hmore => ?_
    intro u hu
    rcases List.mem_append.mp hu with hu | hu
    · exact hfound u (Option.mem_toList.mp hu)
    · exact hmore u hu

end held

/-! ## A whole load -/

/-- Alone on this store, the step changes nothing and never finds an output too new. -/
def Runs {α : Type} (size : Value → Bool) (s : Store Value) (good : α → Prop) (p : Load α) : Prop :=
  (Prog.run (serve size) p s).2 = s ∧
    Ends (.failed .createdAfter) good (Prog.run (serve size) p s).1

theorem runs_bind {α β : Type} {good : α → Prop} {good' : β → Prop} {p : Load α} {f : α → Load β}
    (hp : Runs size s good p) (hf : ∀ a, good a → Runs size s good' (f a)) :
    Runs size s good' (p >>= f) := by
  unfold Runs at hp ⊢
  rw [Prog.run_except_bind]
  rcases hr : Prog.run (serve size) p s with ⟨e | a, t⟩ <;> rw [hr] at hp
  · exact hp
  · obtain ⟨rfl, hgood⟩ := hp
    exact hf a hgood

theorem runs_pure {α : Type} {good : α → Prop} {a : α} (h : good a) :
    Runs size s good (pure a : Load α) := ⟨rfl, h⟩

theorem runs_throw {α : Type} {good : α → Prop} {e : LoadHalt} (h : e ≠ .failed .createdAfter) :
    Runs size s good (throw e : Load α) := ⟨rfl, h⟩

theorem runs_lift {α : Type} {good : α → Prop} {x : Except UtxosError α}
    (h : Ends .createdAfter good x) : Runs size s good (lift x) := by
  cases x with
  | ok a => exact runs_pure h
  | error e => exact runs_throw fun he => h (LoadHalt.failed.inj he)

theorem runs_list (h : Holds size self.scope branch s) (request : OutputRequest) :
    Runs size s (fun page => page.checkpoint = branch.head?.map (·.block) ∧
      ∀ o ∈ page.outputs, Stored branch o) (self.list request) := by
  have hsame : (Prog.run (serve size) (listOutputs self.scope request) s).2 = s := by
    rw [listOutputs_eq]
    exact run_listing_snd
  unfold Runs list
  rw [ExceptT.mk, Prog.run_bind]
  rcases hr : Prog.run (serve size) (listOutputs self.scope request) s with ⟨e | page, t⟩ <;>
    rw [hr] at hsame
  · exact ⟨hsame, by rintro ⟨⟩⟩
  · exact ⟨hsame, listOutputs_held h hr⟩

/-- The load ended at the branch's tip, with outputs of the branch. -/
def LoadedFrom (self : IndexUtxos) (branch : List BlockAddition) (r : Loaded) : Prop :=
  (∀ u ∈ r.1, self.Shown branch u) ∧ ∀ tip ∈ r.2.1, branch.head?.map (·.block) = some tip

theorem runs_loadPages (h : Holds size self.scope branch s) (hlength : branch.length < 2 ^ 64)
    (canonical : CanonicalAddress) (expectedScript : List UInt8) (fuel : Nat)
    (after : Option OutputCursor) (expected : Option BlockRef) (seen : Seen) :
    Runs size s (self.LoadedFrom branch)
      (self.loadPages canonical expectedScript fuel after expected seen) := by
  induction fuel generalizing after expected seen with
  | zero => exact runs_throw (by rintro ⟨⟩)
  | succ fuel ih =>
    refine runs_bind (runs_list h _) fun page ⟨hcheckpoint, hstored⟩ => ?_
    cases hc : page.checkpoint with
    | none => exact runs_throw (by rintro ⟨⟩)
    | some checkpoint =>
      rw [hc] at hcheckpoint
      dsimp only
      split_ifs with hmoved
      · exact runs_throw (by rintro ⟨⟩)
      have hsame : expected.getD checkpoint = checkpoint := not_not.mp hmoved
      rw [hsame]
      refine runs_bind (runs_lift (unspentAll_ends h.written hlength hcheckpoint.symm hstored))
        fun loaded hshown => ?_
      cases hnext : page.next with
      | none =>
        refine runs_pure ⟨hshown, ?_⟩
        rintro tip ⟨⟩
        exact hcheckpoint.symm
      | some next =>
        have hcursor : Ends .createdAfter (fun _ : Unit => True)
            (validateCursor after next (some checkpoint)) := by
          unfold validateCursor
          split_ifs
          · exact UtxosError.noConfusion
          · trivial
        refine runs_bind (runs_lift hcursor) fun _ _ => ?_
        refine runs_bind (ih _ _ _) fun more hmore => runs_pure ⟨?_, hmore.2⟩
        intro u hu
        rcases List.mem_append.mp hu with hu | hu
        · exact hshown u hu
        · exact hmore.1 u hu

theorem runs_loadAll (h : Holds size self.scope branch s) (hlength : branch.length < 2 ^ 64)
    (fuel : Nat) (addresses : List Text) (expected : Option BlockRef) (seen : Seen)
    (hexpected : ∀ tip ∈ expected, branch.head?.map (·.block) = some tip) :
    Runs size s (self.LoadedFrom branch) (self.loadAll fuel addresses expected seen) := by
  induction addresses generalizing expected seen with
  | nil => exact runs_pure ⟨(fun u hu => nomatch hu), hexpected⟩
  | cons address rest ih =>
    have hload : Runs size s (self.LoadedFrom branch) (self.load fuel address expected seen) := by
      unfold load
      cases self.script address with
      | error message => exact runs_throw (by rintro ⟨⟩)
      | ok expectedScript => exact runs_loadPages h hlength _ _ _ _ _ _
    refine runs_bind hload fun loaded hloaded => ?_
    refine runs_bind (ih _ _ hloaded.2) fun more hmore => runs_pure ⟨?_, hmore.2⟩
    intro u hu
    rcases List.mem_append.mp hu with hu | hu
    · exact hloaded.1 u hu
    · exact hmore.1 u hu

theorem runs_utxos (h : Holds size self.scope branch s) (hlength : branch.length < 2 ^ 64)
    (fuel : Nat) (addresses : List Text) :
    Runs size s (fun set => branch.head?.map (·.block) = some set.checkpoint ∧
      ∀ u ∈ set.outputs, self.Shown branch u) (self.utxos fuel addresses) := by
  unfold utxos
  split_ifs
  · exact runs_throw (by rintro ⟨⟩)
  refine runs_bind (runs_loadAll h hlength fuel addresses none [] (by rintro tip ⟨⟩)) ?_
  rintro ⟨outputs, checkpoint, seen⟩ ⟨hshown, htip⟩
  cases checkpoint with
  | none => exact runs_throw (by rintro ⟨⟩)
  | some checkpoint => exact runs_pure ⟨htip checkpoint rfl, hshown⟩

end IndexUtxos

end PaymentSdk.Bitcoin
