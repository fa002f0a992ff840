import Std.Data.ExtTreeMap.Lemmas
import PaymentSdk.Lib.Run
import PaymentSdk.Wallets.Sender

/-!
# The signer table of the Solana wallet provider

A wallet owns its key. The table that batches take their signers from has one weak
reference for each address, and every creation overwrites it. Allocations are numbered:
a weak reference upgrades while a wallet or a transfer still owns its allocation.
-/

open Std Interaction

namespace PaymentSdk.Solana

open Wallets (ErrorKind Error SendError AddressText)

/-! ## Addresses, keys and amounts -/

/-- The 32 bytes of a public key. -/
structure Address where
  bytes : List UInt8
  size : bytes.length = 32

theorem Address.ext {a b : Address} (h : a.bytes = b.bytes) : a = b := by
  cases a; cases b; congr

instance : DecidableEq Address := fun _ _ => decidable_of_iff _ ⟨Address.ext, congrArg Address.bytes⟩

def Address.cmp : Address → Address → Ordering := compareOn (·.bytes)

instance : TransCmp Address.cmp := by
  unfold Address.cmp
  infer_instance

instance : LawfulEqCmp Address.cmp where
  eq_of_compare {a b} h := by
    simp only [Address.cmp, compareOn, Std.LawfulEqCmp.compare_eq_iff_eq] at h
    exact Address.ext h

/-- What the Solana crates supply: the key pair of a secret, Base58, and the curve test. -/
structure Native where
  publicKey : List UInt8 → Address
  parse : String → Option Address
  render : Address → String
  onCurve : Address → Bool

def Address.ofBytes (bytes : List UInt8) : Option Address :=
  if h : bytes.length = 32 then some ⟨bytes, h⟩ else none

def Address.ofText (native : Native) (text : AddressText) : Option Address :=
  if text.encoding ≠ .base58 then none
  else match native.parse text.text with
    | none => none
    | some address => if native.render address = text.text then some address else none

/-- A secret key with its address. -/
structure Key where
  secret : List UInt8
  address : Address
  deriving DecidableEq

/-- A secret has exactly 32 bytes. -/
def Key.fromSecret (native : Native) (secret : List UInt8) : Option Key :=
  if secret.length = 32 then some ⟨secret, native.publicKey secret⟩ else none

/-- An atomic amount that is positive and fits in 64 bits. -/
def lamports (amount : Decimal) : Option UInt64 :=
  match amount.toAtomic 9 with
  | .error _ => none
  | .ok value => if value = 0 ∨ 2 ^ 64 ≤ value then none else some (.ofNat value)

/-! ## The provider and those who hold its keys -/

/-- One `Arc<Key>`: the number of its allocation, and what is stored there. -/
structure Arc where
  cell : Nat
  key : Key
  deriving DecidableEq

/-- One transfer of a batch. Its signer is shared. -/
structure NativeTransfer where
  source : Address
  signer : Arc
  destination : Address
  amount : UInt64
  deriving DecidableEq

/-- The table, how many keys were ever allocated, and everything that owns one now. -/
structure Provider where
  keys : ExtTreeMap Address Arc Address.cmp := ∅
  cells : Nat := 0
  wallets : List Arc := []
  transfers : List NativeTransfer := []

namespace Provider

/-- Some strong reference to the allocation is left. -/
def owned (p : Provider) (cell : Nat) : Bool :=
  p.wallets.any (·.cell == cell) || p.transfers.any (·.signer.cell == cell)

/-- `Keys::get` with `Weak::upgrade`. -/
def get (p : Provider) (address : Address) : Option Arc :=
  match p.keys[address]? with
  | none => none
  | some arc => if p.owned arc.cell then some arc else none

/-- `Keys::insert` and the new wallet. -/
def insertKey (p : Provider) (key : Key) : Provider :=
  let arc := ⟨p.cells, key⟩
  { p with keys := p.keys.insert key.address arc, cells := p.cells + 1, wallets := p.wallets ++ [arc] }

def create (native : Native) (p : Provider) (secret : List UInt8) : Except Error Arc × Provider :=
  match Key.fromSecret native secret with
  | none => (.error { kind := .invalidSecret, message := "Solana wallet secret is invalid" }, p)
  | some key => (.ok ⟨p.cells, key⟩, p.insertKey key)

/-- `random` is what the operating system's source filled in, if it did. -/
def generate (native : Native) (p : Provider) (random : Option (List UInt8)) :
    Except Error Arc × Provider :=
  match random with
  | none => (.error { kind := .generation, message := "Solana wallet generation failed" }, p)
  | some secret => p.create native secret

end Provider

/-! ## Transfers -/

def invalidAddress : Error :=
  { kind := .invalidAddress, message := "invalid canonical Solana address" }

def NativeTransfer.new (source : Address) (signer : Arc) (destination : Address) (amount : UInt64) :
    Except Error NativeTransfer :=
  if signer.key.address ≠ source then
    .error { kind := .addressMismatch, message := "Solana signer does not own the source address" }
  else .ok { source, signer, destination, amount }

/-- A provider's wallet behind `dyn Wallet`. -/
def Arc.wallet (native : Native) (arc : Arc) : Wallets.Wallet where
  address := arc.key.address.bytes
  parseAddress text := match Address.ofText native text with
    | none => .error invalidAddress
    | some address => .ok address.bytes

def signerUnavailable (index : Nat) : SendError :=
  .item index [] { kind := .notFound, message := "Solana wallet signer is unavailable" }

/-- `BatchSender::transfer`. -/
def Provider.transfer (native : Native) (p : Provider) (index : Nat) (t : Wallets.Transfer) :
    Except SendError NativeTransfer :=
  match Address.ofBytes t.wallet.address with
  | none => .error (.item index [] { kind := .unsupported, message := "wallet is not a Solana wallet" })
  | some source =>
    match t.wallet.parseAddress t.destination with
    | .error error => .error (.item index [] error)
    | .ok bytes => match Address.ofBytes bytes with
      | none => .error (.item index [] invalidAddress)
      | some destination =>
        if !native.onCurve destination then
          .error (.item index [] { kind := .unsupported, message := "unsupported Solana destination" })
        else if destination = source then
          .error (.item index []
            { kind := .addressMismatch, message := "Solana source and destination must differ" })
        else match lamports t.amount with
          | none =>
            .error (.item index [] { kind := .invalidAmount, message := "native SOL amount is invalid" })
          | some amount => match p.get source with
            | none => .error (signerUnavailable index)
            | some signer =>
              (NativeTransfer.new source signer destination amount).mapError (.item index [] ·)

/-- What a wallet's own `send` hands to the native sender. It uses the wallet's key. -/
def Arc.send (native : Native) (arc : Arc) (text : AddressText) (amount : Decimal) :
    Except Error NativeTransfer :=
  match Address.ofText native text with
  | none => .error invalidAddress
  | some destination =>
    if !native.onCurve destination then
      .error { kind := .unsupported, message := "unsupported Solana native destination" }
    else if destination = arc.key.address then
      .error { kind := .addressMismatch, message := "Solana source and destination must differ" }
    else match lamports amount with
      | none => .error { kind := .invalidAmount, message := "native SOL amount is invalid" }
      | some amount => NativeTransfer.new arc.key.address arc destination amount

/-! ## Runs -/

/-- Wallets and transfers are named by their place in their list. -/
inductive KeyEvent where
  | create (secret : List UInt8)
  | generate (random : Option (List UInt8))
  | dropWallet (wallet : Nat)
  | transfer (index : Nat) (transfer : Wallets.Transfer)
  | send (wallet : Nat) (destination : AddressText) (amount : Decimal)
  | dropTransfer (transfer : Nat)

namespace Provider

def hold (p : Provider) : Except ε NativeTransfer → Provider
  | .error _ => p
  | .ok t => { p with transfers := p.transfers ++ [t] }

def step (native : Native) (p : Provider) : KeyEvent → Provider
  | .create secret => (p.create native secret).2
  | .generate random => (p.generate native random).2
  | .dropWallet i => { p with wallets := p.wallets.eraseIdx i }
  | .transfer index t => p.hold (p.transfer native index t)
  | .send i text amount => match p.wallets[i]? with
    | none => p
    | some arc => p.hold (arc.send native text amount)
  | .dropTransfer j => { p with transfers := p.transfers.eraseIdx j }

def run (native : Native) (events : List KeyEvent) : Provider := events.foldl (step native) {}

/-! ## Every reference in use is one the provider made -/

/-- Somebody has this reference: the table, a wallet or a transfer. -/
def Refers (p : Provider) (arc : Arc) : Prop :=
  (∃ a : Address, p.keys[a]? = some arc) ∨ arc ∈ p.wallets ∨ arc ∈ p.transfers.map (·.signer)

/-- What holds of a provider after any calls. -/
structure WellFormed (p : Provider) : Prop where
  filed : ∀ (a : Address) (arc : Arc), p.keys[a]? = some arc → arc.key.address = a
  entry : ∀ arc ∈ p.wallets, (p.keys[arc.key.address]?).isSome
  allocated : ∀ arc : Arc, p.Refers arc → arc.cell < p.cells
  single : ∀ arc other : Arc, p.Refers arc → p.Refers other → arc.cell = other.cell → arc = other

theorem wellFormed_empty : WellFormed {} := by
  have hnone : ∀ arc, ¬ Refers {} arc := by
    rintro arc (⟨a, ha⟩ | ha | ha) <;> simp at ha
  exact ⟨by simp, by simp, fun arc h => absurd h (hnone arc), fun arc _ h => absurd h (hnone arc)⟩

theorem wellFormed_of_subset {p p' : Provider} (h : p.WellFormed) (hkeys : p'.keys = p.keys)
    (hcells : p'.cells = p.cells) (hwallets : p'.wallets ⊆ p.wallets)
    (hrefers : ∀ arc, p'.Refers arc → p.Refers arc) : p'.WellFormed where
  filed a arc ha := h.filed a arc (by rwa [hkeys] at ha)
  entry arc harc := by
    rw [hkeys]
    exact h.entry arc (hwallets harc)
  allocated arc harc := by
    rw [hcells]
    exact h.allocated arc (hrefers arc harc)
  single arc other harc hother := h.single arc other (hrefers arc harc) (hrefers other hother)

theorem refers_of_get {p : Provider} {a : Address} {arc : Arc} (h : p.get a = some arc) :
    p.keys[a]? = some arc ∧ p.owned arc.cell = true := by
  unfold get at h
  split at h
  · simp at h
  · rename_i entry hentry
    split at h
    · rename_i howned
      cases h
      exact ⟨hentry, howned⟩
    · simp at h

theorem wellFormed_insertKey {p : Provider} (h : p.WellFormed) (key : Key) : (p.insertKey key).WellFormed := by
  -- The new allocation is not in use before, so it differs from every older reference.
  have hrefers : ∀ arc, (p.insertKey key).Refers arc → arc = ⟨p.cells, key⟩ ∨ p.Refers arc := by
    rintro arc (⟨a, ha⟩ | ha | ha)
    · simp only [insertKey, ExtTreeMap.getElem?_insert] at ha
      split at ha
      · exact .inl (Option.some.inj ha).symm
      · exact .inr (.inl ⟨a, ha⟩)
    · simp only [insertKey, List.mem_append, List.mem_singleton] at ha
      exact ha.symm.imp_right fun h => .inr (.inl h)
    · exact .inr (.inr (.inr ha))
  refine ⟨?_, ?_, ?_, ?_⟩
  · intro a arc ha
    simp only [insertKey, ExtTreeMap.getElem?_insert] at ha
    split at ha
    · rename_i heq
      cases ha
      exact Std.LawfulEqCmp.compare_eq_iff_eq.mp heq
    · exact h.filed a arc ha
  · intro arc harc
    simp only [insertKey, List.mem_append, List.mem_singleton, ExtTreeMap.getElem?_insert] at harc ⊢
    split
    · rfl
    · rename_i hne
      rcases harc with harc | rfl
      · exact h.entry arc harc
      · exact absurd (Std.LawfulEqCmp.compare_eq_iff_eq.mpr rfl) hne
  · intro arc harc
    show arc.cell < p.cells + 1
    rcases hrefers arc harc with rfl | harc
    · exact Nat.lt_succ_self _
    · exact Nat.lt_succ_of_lt (h.allocated arc harc)
  · intro arc other harc hother hcell
    rcases hrefers arc harc with rfl | harc <;> rcases hrefers other hother with rfl | hother
    · rfl
    · exact absurd (h.allocated other hother) (by rw [← hcell]; exact Nat.lt_irrefl _)
    · exact absurd (h.allocated arc harc) (by rw [hcell]; exact Nat.lt_irrefl _)
    · exact h.single arc other harc hother hcell

theorem wellFormed_create {native : Native} {p : Provider} (h : p.WellFormed) (secret : List UInt8) :
    (p.create native secret).2.WellFormed := by
  unfold create
  split
  · exact h
  · exact wellFormed_insertKey h _

theorem wellFormed_hold {p : Provider} (h : p.WellFormed) {r : Except ε NativeTransfer}
    (hr : ∀ t, r = .ok t → p.Refers t.signer) : (p.hold r).WellFormed := by
  cases r with
  | error e => exact h
  | ok t =>
    refine wellFormed_of_subset h rfl rfl (fun _ harc => harc) ?_
    rintro arc (ha | ha | ha)
    · exact .inl ha
    · exact .inr (.inl ha)
    · simp only [hold, List.map_append, List.map_cons, List.map_nil, List.mem_append,
        List.mem_singleton] at ha
      rcases ha with ha | rfl
      · exact .inr (.inr ha)
      · exact hr t rfl

theorem signer_of_new {source destination : Address} {signer : Arc} {amount : UInt64}
    {t : NativeTransfer} (h : NativeTransfer.new source signer destination amount = .ok t) :
    t.signer = signer := by
  unfold NativeTransfer.new at h
  split at h
  · cases h
  · cases h
    rfl

theorem refers_of_transfer {native : Native} {p : Provider} {index : Nat} {r : Wallets.Transfer}
    {t : NativeTransfer} (h : p.transfer native index r = .ok t) : p.Refers t.signer := by
  unfold transfer at h
  repeat' split at h
  all_goals try cases h
  rename_i signer hget
  unfold Except.mapError at h
  split at h
  · cases h
  · rename_i hnew
    cases h
    rw [signer_of_new hnew]
    exact .inl ⟨_, (refers_of_get hget).1⟩

theorem refers_of_send {native : Native} {p : Provider} {arc : Arc} (harc : arc ∈ p.wallets)
    {text : AddressText} {amount : Decimal} {t : NativeTransfer}
    (h : arc.send native text amount = .ok t) : p.Refers t.signer := by
  unfold Arc.send at h
  repeat' split at h
  all_goals try cases h
  rw [signer_of_new h]
  exact .inr (.inl harc)

theorem wellFormed_step {native : Native} {p : Provider} (h : p.WellFormed) (e : KeyEvent) :
    (p.step native e).WellFormed := by
  cases e with
  | create secret => exact wellFormed_create h secret
  | generate random =>
    cases random with
    | none => exact h
    | some secret => exact wellFormed_create h secret
  | dropWallet i =>
    refine wellFormed_of_subset h rfl rfl (List.eraseIdx_subset) ?_
    rintro arc (ha | ha | ha)
    · exact .inl ha
    · exact .inr (.inl (List.eraseIdx_subset ha))
    · exact .inr (.inr ha)
  | transfer index r => exact wellFormed_hold h fun t ht => refers_of_transfer ht
  | send i text amount =>
    rw [step]
    split
    · exact h
    · rename_i arc harc
      exact wellFormed_hold h fun t ht => refers_of_send (List.mem_of_getElem? harc) ht
  | dropTransfer j =>
    refine wellFormed_of_subset h rfl rfl (fun _ harc => harc) ?_
    rintro arc (ha | ha | ha)
    · exact .inl ha
    · exact .inr (.inl ha)
    · refine .inr (.inr ?_)
      obtain ⟨t, ht, rfl⟩ := List.mem_map.mp ha
      exact List.mem_map_of_mem (List.eraseIdx_subset ht)

/-! ## When a live wallet can be a batch source -/

/-- The table has a signer for every live wallet, and no transfer out of one is refused for
want of it. -/
def Usable (native : Native) (p : Provider) : Prop :=
  ∀ arc ∈ p.wallets,
    (∃ signer, p.get arc.key.address = some signer ∧ signer.key.address = arc.key.address) ∧
    ∀ index text amount,
      p.transfer native index ⟨arc.wallet native, text, amount⟩ ≠ .error (signerUnavailable index)

/-- One owner of `arc` goes, and these wallets and transfers are left. Either a later creation
has taken the place of `arc` in the table, or `arc` keeps an owner, or no wallet of its
address is left. -/
def Spares (p : Provider) (arc : Arc) (wallets : List Arc) (transfers : List NativeTransfer) : Prop :=
  p.keys[arc.key.address]? ≠ some arc ∨
    (wallets.any (·.cell == arc.cell) || transfers.any (·.signer.cell == arc.cell)) = true ∨
    ∀ other ∈ wallets, other.key.address ≠ arc.key.address

/-- The condition on a step: what it drops spares the other wallets. -/
def DropSpares (p : Provider) : KeyEvent → Prop
  | .dropWallet i => ∀ arc ∈ p.wallets[i]?, p.Spares arc (p.wallets.eraseIdx i) p.transfers
  | .dropTransfer j => ∀ t ∈ p.transfers[j]?, p.Spares t.signer p.wallets (p.transfers.eraseIdx j)
  | _ => True

theorem ofBytes_bytes (a : Address) : Address.ofBytes a.bytes = some a := by
  simp [Address.ofBytes, a.size]

theorem transfer_ne_unavailable {native : Native} {p : Provider} {arc signer : Arc}
    (h : p.get arc.key.address = some signer) (index : Nat) (text : AddressText) (amount : Decimal) :
    p.transfer native index ⟨arc.wallet native, text, amount⟩ ≠ .error (signerUnavailable index) := by
  unfold transfer
  simp only [Arc.wallet, ofBytes_bytes, h]
  intro hr
  repeat' split at hr
  all_goals try cases hr
  · rename_i hparse
    split at hparse
    · cases hparse
      cases hr
    · cases hparse
  · unfold NativeTransfer.new at hr
    split at hr <;> cases hr

theorem usable_iff {native : Native} {p : Provider} (h : p.WellFormed) :
    p.Usable native ↔ ∀ arc ∈ p.wallets, (p.get arc.key.address).isSome := by
  constructor
  · intro hu arc harc
    obtain ⟨⟨signer, hget, _⟩, _⟩ := hu arc harc
    simp [hget]
  · intro hsome arc harc
    obtain ⟨signer, hget⟩ := Option.isSome_iff_exists.mp (hsome arc harc)
    exact ⟨⟨signer, hget, h.filed _ _ (refers_of_get hget).1⟩, transfer_ne_unavailable hget⟩

theorem get_isSome {p : Provider} (h : p.WellFormed) {arc : Arc} (harc : arc ∈ p.wallets) :
    (p.get arc.key.address).isSome ↔
      ∀ entry, p.keys[arc.key.address]? = some entry → p.owned entry.cell = true := by
  obtain ⟨entry, hentry⟩ := Option.isSome_iff_exists.mp (h.entry arc harc)
  simp [get, hentry]

/-- Fewer owners: the table still serves every wallet if and only if the owner that went is
spared. -/
theorem usable_drop_iff {native : Native} {p p' : Provider} {arc : Arc} (h : p.WellFormed)
    (hu : p.Usable native) (h' : p'.WellFormed) (hkeys : p'.keys = p.keys) (harc : p.Refers arc)
    (hwallets : p'.wallets ⊆ p.wallets)
    (howned : ∀ cell, cell ≠ arc.cell → p'.owned cell = p.owned cell) :
    p.Spares arc p'.wallets p'.transfers ↔ p'.Usable native := by
  rw [usable_iff h']
  rw [usable_iff h] at hu
  constructor
  · intro hs other hother
    rw [get_isSome h' hother, hkeys]
    intro entry hentry
    have hbefore := (get_isSome h (hwallets hother)).mp (hu other (hwallets hother)) entry hentry
    by_cases hcell : entry.cell = arc.cell
    · -- The table points at what was dropped, so the condition has to help.
      have heq : entry = arc := h.single entry arc (.inl ⟨_, hentry⟩) harc hcell
      subst heq
      have haddress := h.filed _ _ hentry
      rcases hs with hs | hs | hs
      · exact absurd (by rw [haddress]; exact hentry) hs
      · exact hs
      · exact absurd haddress.symm (hs other hother)
    · rw [howned _ hcell]
      exact hbefore
  · intro hsome
    by_cases hentry : p.keys[arc.key.address]? = some arc
    · by_cases hother : ∃ other ∈ p'.wallets, other.key.address = arc.key.address
      · obtain ⟨other, hother, haddress⟩ := hother
        refine .inr (.inl ?_)
        have hget := (get_isSome h' hother).mp (hsome other hother) arc
        rw [haddress, hkeys] at hget
        exact hget hentry
      · refine .inr (.inr fun other hmem heq => hother ⟨other, hmem, heq⟩)
    · exact .inl hentry

theorem usable_insertKey {native : Native} {p : Provider} (h : p.WellFormed) (hu : p.Usable native)
    (key : Key) : (p.insertKey key).Usable native := by
  rw [usable_iff (wellFormed_insertKey h key)]
  rw [usable_iff h] at hu
  intro arc harc
  rw [get_isSome (wellFormed_insertKey h key) harc]
  intro entry hentry
  simp only [insertKey, ExtTreeMap.getElem?_insert] at hentry
  split at hentry
  · cases hentry
    simp [owned, insertKey]
  · rename_i hne
    have hold : arc ∈ p.wallets := by
      simp only [insertKey, List.mem_append, List.mem_singleton] at harc
      rcases harc with harc | rfl
      · exact harc
      · exact absurd (Std.LawfulEqCmp.compare_eq_iff_eq.mpr rfl) hne
    have hbefore := (get_isSome h hold).mp (hu arc hold) entry hentry
    simp only [owned, insertKey, List.any_append, Bool.or_eq_true] at hbefore ⊢
    exact hbefore.imp_left .inl

theorem usable_hold {native : Native} {p : Provider} (h : p.WellFormed) (hu : p.Usable native)
    {r : Except ε NativeTransfer} (h' : (p.hold r).WellFormed) : (p.hold r).Usable native := by
  cases r with
  | error e => exact hu
  | ok t =>
    rw [usable_iff h']
    rw [usable_iff h] at hu
    intro arc harc
    rw [get_isSome h' harc]
    intro entry hentry
    have hbefore := (get_isSome h harc).mp (hu arc harc) entry hentry
    simp only [owned, hold, List.any_append, Bool.or_eq_true] at hbefore ⊢
    exact hbefore.imp_right .inl

theorem any_eraseIdx {α : Type} {f : α → Bool} (l : List α) (i : Nat)
    (h : ∀ x ∈ l[i]?, f x = false) : (l.eraseIdx i).any f = l.any f := by
  induction l generalizing i with
  | nil => rfl
  | cons x rest ih =>
    cases i with
    | zero =>
      have hx : f x = false := h x rfl
      simp [hx]
    | succ i => simp only [List.eraseIdx_cons_succ, List.any_cons, ih i h]

theorem dropSpares_iff {native : Native} {p : Provider} (h : p.WellFormed) (hu : p.Usable native)
    (e : KeyEvent) : p.DropSpares e ↔ (p.step native e).Usable native := by
  have h' : (p.step native e).WellFormed := wellFormed_step h e
  cases e with
  | create secret =>
    refine iff_of_true trivial ?_
    rw [step, create]
    split
    · exact hu
    · exact usable_insertKey h hu _
  | generate random =>
    refine iff_of_true trivial ?_
    cases random with
    | none => exact hu
    | some secret =>
      rw [step, generate, create]
      split
      · exact hu
      · exact usable_insertKey h hu _
  | transfer index r => exact iff_of_true trivial (usable_hold h hu h')
  | send i text amount =>
    refine iff_of_true trivial ?_
    rw [step] at h' ⊢
    split
    · exact hu
    · rename_i arc harc
      rw [harc] at h'
      exact usable_hold h hu h'
  | dropWallet i =>
    rw [DropSpares]
    cases harc : p.wallets[i]? with
    | none =>
      have hstay : p.step native (.dropWallet i) = p := by
        rw [step, List.eraseIdx_of_length_le (List.getElem?_eq_none_iff.mp harc)]
      rw [hstay]
      exact iff_of_true (by simp) hu
    | some arc =>
      have hdrop := usable_drop_iff h hu h' rfl (.inr (.inl (List.mem_of_getElem? harc)))
        List.eraseIdx_subset fun cell hcell => by
          rw [owned, owned, step]
          rw [any_eraseIdx _ _ (by simp [harc, Ne.symm hcell])]
      simp only [Option.mem_def, Option.some.injEq, forall_eq']
      exact hdrop
  | dropTransfer j =>
    rw [DropSpares]
    cases ht : p.transfers[j]? with
    | none =>
      have hstay : p.step native (.dropTransfer j) = p := by
        rw [step, List.eraseIdx_of_length_le (List.getElem?_eq_none_iff.mp ht)]
      rw [hstay]
      exact iff_of_true (by simp) hu
    | some t =>
      have hmem : t.signer ∈ p.transfers.map (·.signer) :=
        List.mem_map_of_mem (List.mem_of_getElem? ht)
      have hdrop := usable_drop_iff h hu h' rfl (.inr (.inr hmem))
        (fun _ harc => harc) fun cell hcell => by
          rw [owned, owned, step]
          rw [any_eraseIdx _ _ (by simp [ht, Ne.symm hcell])]
      simp only [Option.mem_def, Option.some.injEq, forall_eq']
      exact hdrop

/-- Every live wallet can be a batch source in every state of a run, if and only if every drop
of the run spares the other wallets of its address. -/
theorem live_wallets_usable_iff (native : Native) (events : List KeyEvent) :
    Along (step native) DropSpares {} events ↔ ∀ n, (run native (events.take n)).Usable native := by
  apply along_iff (I := WellFormed) events
  · exact fun p e h => wellFormed_step h e
  · exact fun p e h hu => dropSpares_iff h hu e
  · exact wellFormed_empty
  · exact fun arc harc => absurd harc (by simp)

/-- An address ends in the first byte of its secret, and every text is that of address 9. -/
def sampleNative : Native where
  publicKey secret := ⟨List.replicate 31 0 ++ [secret.headD 0], by simp⟩
  parse _ := some ⟨List.replicate 31 0 ++ [9], by simp⟩
  render _ := "9"
  onCurve _ := true

def sampleWallet : Arc := ⟨0, List.replicate 32 7, sampleNative.publicKey (List.replicate 32 7)⟩

/-- A wallet is adopted, the same secret is created again, and the second wallet is dropped. -/
def recreated : Provider :=
  run sampleNative [.create (List.replicate 32 7), .create (List.replicate 32 7), .dropWallet 1]

/-- The first wallet lives and sends, and a batch cannot use it. -/
theorem recreated_wallet_unusable :
    ¬ recreated.Usable sampleNative ∧ sampleWallet ∈ recreated.wallets ∧
      ∃ t, sampleWallet.send sampleNative ⟨.base58, "9"⟩ (.normalize 1 0 (by omega)) = .ok t := by
  refine ⟨?_, by decide, ⟨sampleWallet.key.address, sampleWallet, ⟨List.replicate 31 0 ++ [9], by simp⟩,
    1000000000⟩, by decide⟩
  intro hu
  have hnone : recreated.get sampleWallet.key.address = none := by decide
  obtain ⟨⟨signer, hget, _⟩, _⟩ := hu sampleWallet (by decide)
  rw [hnone] at hget
  cases hget

end Provider

end PaymentSdk.Solana
