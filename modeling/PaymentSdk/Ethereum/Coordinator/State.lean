import Std.Data.ExtTreeMap.Lemmas
import Std.Data.ExtTreeSet.Lemmas
import PaymentSdk.Base.Block
import PaymentSdk.Ethereum.Transaction

/-!
# The state of the transaction coordinator

Every lock section of the coordinator, as a function on its state. After each one stands
what it does to the records, to the index of a sender, and to a sender's operation and floor.
-/

open Std

namespace PaymentSdk.Ethereum

/-- Not claimed yet, of unknown outcome, or claimed at the moment. -/
inductive RecordStatus where
  | prepared
  | unknown
  | reconciling
  deriving DecidableEq

/-- An envelope that is registered and not settled. -/
structure Record where
  source : Address
  nonce : UInt64
  transaction : SignedTransaction
  operation : Option UInt64
  status : RecordStatus
  deriving DecidableEq

abbrev IdSet := ExtTreeSet TransactionId compare

/-- The operation that uses a sender, the least free nonce, and its records. -/
structure SenderState where
  active : Option UInt64 := none
  floor : Option UInt64 := none
  records : IdSet := ∅

/-- A signed envelope of a batch. -/
structure PreparedEntry where
  source : Address
  nonce : UInt64
  signed : SignedTransaction
  deriving DecidableEq

/-- What all calls share, under one lock. -/
structure State where
  nextOperation : UInt64 := 0
  senders : ExtTreeMap Address SenderState compare := ∅
  records : ExtTreeMap TransactionId Record compare := ∅

/-- The answer to a preparation that wants its senders. -/
inductive Admission where
  | acquired (operation : UInt64)
  | wait
  | recover (id : TransactionId) (index : Nat)
  | exhausted (index : Nat)
  deriving DecidableEq

/-- The right to hand one envelope over. A recovery looks it up first. -/
structure SubmissionClaim where
  id : TransactionId
  transaction : SignedTransaction
  recovery : Bool
  deriving DecidableEq

inductive Claim where
  | ready (claim : SubmissionClaim)
  | wait
  deriving DecidableEq

def laterNonce (a b : UInt64) : UInt64 := if a.toNat < b.toNat then b else a

namespace State

/-- A sender that was never seen is like a new one. -/
def sender (s : State) (a : Address) : SenderState := (s.senders[a]?).getD {}

/-- `entry(a).or_default()`, changed. -/
def setSender (s : State) (a : Address) (f : SenderState → SenderState) : State :=
  { s with senders := s.senders.insert a (f (s.sender a)) }

/-! ## Admission -/

/-- Why the senders, in this order, cannot be admitted now. -/
def blocked (s : State) : List (Address × Nat) → Option Admission
  | [] => none
  | (source, index) :: rest =>
    match s.senders[source]? with
    | none => s.blocked rest
    | some sender =>
      if sender.active.isSome then some .wait
      else match sender.records.toList.findSome? fun id => (s.records[id]?).map (id, ·) with
        | none => s.blocked rest
        | some (id, record) => match record.status with
          | .unknown => some (.recover id index)
          | .prepared | .reconciling => some .wait

/-- All senders become active under one new operation, or none does. -/
def admission (s : State) (senders : List (Address × Nat)) : Admission × State :=
  match s.blocked senders with
  | some answer => (answer, s)
  | none => match PaymentSdk.checkedSuccessor s.nextOperation with
    | none => (.exhausted ((senders.head?.map (·.2)).getD 0), s)
    | some next =>
      (.acquired s.nextOperation,
        (senders.map (·.1)).foldl
          (fun t a => t.setSender a fun sender => { sender with active := some s.nextOperation })
          { s with nextOperation := next })

/-- The lowest nonce the sender may use next. -/
def floor (s : State) (source : Address) : Option UInt64 := (s.sender source).floor

/-! ## Records -/

def alreadyCoordinated : ChainError := ⟨.other, "Ethereum signed transaction is already coordinated"⟩

def admissionLost : ChainError := ⟨.other, "Ethereum sender lost its atomic coordinator admission"⟩

/-- The first loop of `register`: nothing is written before every entry has passed. -/
def checkEntries (s : State) (operation : UInt64) : List PreparedEntry → Except ChainError Unit
  | [] => .ok ()
  | entry :: rest =>
    if (s.records[entry.signed.id]?).isSome then .error alreadyCoordinated
    else if (s.sender entry.source).active ≠ some operation then .error admissionLost
    else s.checkEntries operation rest

def insertRecord (operation : UInt64) (s : State) (entry : PreparedEntry) : State :=
  let s := s.setSender entry.source fun sender =>
    { sender with records := sender.records.insert entry.signed.id }
  let record := ⟨entry.source, entry.nonce, entry.signed, some operation, .prepared⟩
  { s with records := s.records.insert entry.signed.id record }

/-- All of a batch's entries, or none. -/
def register (s : State) (operation : UInt64) (entries : List PreparedEntry) : Except ChainError State := do
  s.checkEntries operation entries
  pure (entries.foldl (insertRecord operation) s)

/-- Takes a prepared transaction out of its batch. -/
def detach (s : State) (operation : UInt64) (id : TransactionId) : Except ChainError State :=
  match s.records[id]? with
  | none => .error ⟨.other, "Ethereum prepared transaction is not coordinated"⟩
  | some record =>
    if record.operation ≠ some operation ∨ record.status ≠ .prepared then
      .error ⟨.other, "Ethereum prepared transaction cannot leave its batch admission"⟩
    else .ok { s with records := s.records.insert id { record with operation := none } }

def setStatus (s : State) (id : TransactionId) (record : Record) (status : RecordStatus) : State :=
  { s with records := s.records.insert id { record with status } }

/-- A claim takes a prepared or an unknown record. -/
def claim (s : State) (id : TransactionId) (expected : Option SignedTransaction) :
    Except SourceError (Claim × State) :=
  match s.records[id]? with
  | none => .error ⟨"signed Ethereum transaction has no process-local nonce reservation", false⟩
  | some record =>
    if expected.any (· ≠ record.transaction) then
      .error ⟨"signed Ethereum transaction differs from its reserved exact envelope", false⟩
    else match record.status with
      | .prepared => .ok (.ready ⟨id, record.transaction, false⟩, s.setStatus id record .reconciling)
      | .unknown => .ok (.ready ⟨id, record.transaction, true⟩, s.setStatus id record .reconciling)
      | .reconciling => .ok (.wait, s)

def removeRecord (s : State) (id : TransactionId) : Option Record × State :=
  match s.records[id]? with
  | none => (none, s)
  | some record =>
    (some record, { s with
      records := s.records.erase id
      senders := s.senders.modify record.source fun sender =>
        { sender with records := sender.records.erase id } })

/-- The records of an operation that nobody has claimed. -/
def unclaimed (s : State) (operation : UInt64) : List TransactionId :=
  (s.records.toList.filter fun (_, record) =>
    record.operation = some operation ∧ record.status = .prepared).map (·.1)

/-- The operation's senders are free again. -/
def deactivate (s : State) (operation : UInt64) : State :=
  let senders := s.senders.map fun _ sender =>
    if sender.active = some operation then { sender with active := none } else sender
  { s with senders }

/-- Ends an operation: its unclaimed records go, and its senders are free again. -/
def finishOperation (s : State) (operation : UInt64) : State :=
  ((s.unclaimed operation).foldl (fun t id => (t.removeRecord id).2) s).deactivate operation

/-- A guard is dropped while it is armed. -/
def dropSubmission (s : State) (id : TransactionId) : State :=
  match s.records[id]? with
  | none => s
  | some record => if record.status = .reconciling then s.setStatus id record .unknown else s

/-- On an error the guard is still armed when it is dropped. -/
def accept (s : State) (id : TransactionId) : Except SourceError TransactionId × State :=
  match s.removeRecord id with
  | (none, s) =>
    (.error ⟨"Ethereum transaction disappeared during submission reconciliation", true⟩, s.dropSubmission id)
  | (some record, s) => match PaymentSdk.checkedSuccessor record.nonce with
    | none =>
      (.error ⟨"accepted Ethereum transaction exhausted the nonce range", false⟩, s.dropSubmission id)
    | some next =>
      (.ok id, s.setSender record.source fun sender =>
        { sender with floor := some (sender.floor.elim next (laterNonce · next)) })

def reject (s : State) (id : TransactionId) : State := (s.removeRecord id).2

/-! ## What they do -/

variable {s s' : State} {a b : Address} {id : TransactionId} {operation : UInt64}

theorem sender_setSender (s : State) (a b : Address) (f : SenderState → SenderState) :
    (s.setSender a f).sender b = if a = b then f (s.sender a) else s.sender b := by
  unfold setSender
  rw [sender]
  simp only [ExtTreeMap.getElem?_insert]
  by_cases h : a = b
  · simp [h]
  · simp [h, sender]

@[simp]
theorem records_setSender (s : State) (a : Address) (f : SenderState → SenderState) :
    (s.setSender a f).records = s.records := rfl

@[simp]
theorem nextOperation_setSender (s : State) (a : Address) (f : SenderState → SenderState) :
    (s.setSender a f).nextOperation = s.nextOperation := rfl

@[simp]
theorem sender_setStatus (s : State) (id : TransactionId) (r : Record) (status : RecordStatus) (a : Address) :
    (s.setStatus id r status).sender a = s.sender a := rfl

theorem getElem?_setStatus (s : State) (id id' : TransactionId) (r : Record) (status : RecordStatus) :
    (s.setStatus id r status).records[id']? = if id = id' then some { r with status } else s.records[id']? := by
  simp [setStatus, ExtTreeMap.getElem?_insert]

theorem free_of_blocked {senders : List (Address × Nat)} (h : s.blocked senders = none)
    (ha : a ∈ senders.map (·.1)) :
    (s.sender a).active = none ∧ ∀ id ∈ (s.sender a).records, s.records[id]? = none := by
  induction senders with
  | nil => simp at ha
  | cons p rest ih =>
    obtain ⟨source, index⟩ := p
    rw [blocked] at h
    have hrest : s.blocked rest = none ∧ ((s.sender source).active = none ∧
        ∀ id ∈ (s.sender source).records, s.records[id]? = none) := by
      split at h
      · rename_i hnone
        simp [sender, hnone, h]
      · rename_i found hfound
        split at h
        · cases h
        · rename_i hactive
          split at h
          · rename_i hnothing
            refine ⟨h, ?_⟩
            simp only [sender, hfound, Option.getD_some]
            refine ⟨by simpa using hactive, ?_⟩
            intro id hid
            have := List.findSome?_eq_none_iff.mp hnothing id (ExtTreeSet.mem_toList.mpr hid)
            simpa using this
          · split at h <;> cases h
    rcases List.mem_cons.mp ha with rfl | ha
    · exact hrest.2
    · exact ih hrest.1 ha

theorem unknown_of_blocked {senders : List (Address × Nat)} {index : Nat}
    (h : s.blocked senders = some (.recover id index)) :
    ∃ r, s.records[id]? = some r ∧ r.status = .unknown := by
  induction senders with
  | nil => cases h
  | cons p rest ih =>
    rw [blocked] at h
    split at h
    · exact ih h
    · split at h
      · cases h
      · split at h
        · exact ih h
        · rename_i found hfound
          split at h
          · rename_i hstatus
            cases h
            obtain ⟨id', _, hid'⟩ := List.exists_of_findSome?_eq_some hfound
            obtain ⟨r, hr, heq⟩ := Option.map_eq_some_iff.mp hid'
            cases heq
            exact ⟨_, hr, hstatus⟩
          · cases h
          · cases h

theorem sender_activate (operation : UInt64) (as : List Address) (t : State) (a : Address) :
    (as.foldl (fun t a => t.setSender a fun sender => { sender with active := some operation }) t).sender a =
      if a ∈ as then { t.sender a with active := some operation } else t.sender a := by
  induction as generalizing t with
  | nil => simp
  | cons b rest ih =>
    rw [List.foldl_cons, ih]
    by_cases hb : b = a
    · subst hb
      simp [sender_setSender]
    · have hb' : ¬ a = b := fun h => hb h.symm
      simp [sender_setSender, hb, hb', List.mem_cons]

theorem records_activate (operation : UInt64) (as : List Address) (t : State) :
    (as.foldl (fun t a => t.setSender a fun sender => { sender with active := some operation }) t).records =
      t.records := by
  induction as generalizing t with
  | nil => rfl
  | cons b rest ih => rw [List.foldl_cons, ih, records_setSender]

theorem nextOperation_activate (operation : UInt64) (as : List Address) (t : State) :
    (as.foldl (fun t a => t.setSender a fun sender => { sender with active := some operation }) t).nextOperation =
      t.nextOperation := by
  induction as generalizing t with
  | nil => rfl
  | cons b rest ih => rw [List.foldl_cons, ih, nextOperation_setSender]

/-- An admission that is granted. -/
structure Admitted (s : State) (senders : List (Address × Nat)) (operation : UInt64) (s' : State) : Prop where
  fresh : operation = s.nextOperation
  next : s'.nextOperation.toNat = s.nextOperation.toNat + 1
  free : ∀ a ∈ senders.map (·.1), (s.sender a).active = none ∧ ∀ id ∈ (s.sender a).records, s.records[id]? = none
  records : s'.records = s.records
  sender : ∀ a, s'.sender a =
    if a ∈ senders.map (·.1) then { s.sender a with active := some operation } else s.sender a

theorem admitted_of_admission {senders : List (Address × Nat)}
    (h : s.admission senders = (.acquired operation, s')) : Admitted s senders operation s' := by
  unfold admission at h
  split at h
  · rename_i answer hblocked
    cases h
    -- A sender's own reasons to be blocked never are an admission.
    exfalso
    induction senders with
    | nil => cases hblocked
    | cons p rest ih =>
      rw [blocked] at hblocked
      repeat' split at hblocked
      all_goals first | exact ih hblocked | cases hblocked
  · rename_i hblocked
    split at h
    · cases h
    · rename_i next hnext
      cases h
      refine ⟨rfl, ?_, fun a ha => free_of_blocked hblocked ha, records_activate _ _ _, ?_⟩
      · rw [nextOperation_activate]
        exact PaymentSdk.checkedSuccessor_eq_some hnext
      · intro a
        rw [sender_activate]
        rfl

theorem admission_state {senders : List (Address × Nat)} {answer : Admission}
    (h : s.admission senders = (answer, s')) (hne : ∀ op, answer ≠ .acquired op) : s' = s := by
  unfold admission at h
  split at h
  · cases h
    rfl
  · split at h
    · cases h
      rfl
    · cases h
      exact absurd rfl (hne _)

/-! ### Records come -/

def PreparedEntry.record (operation : UInt64) (entry : PreparedEntry) : Record :=
  ⟨entry.source, entry.nonce, entry.signed, some operation, .prepared⟩

theorem checkEntries_ok {entries : List PreparedEntry} (h : s.checkEntries operation entries = .ok ()) :
    ∀ e ∈ entries, s.records[e.signed.id]? = none ∧ (s.sender e.source).active = some operation := by
  induction entries with
  | nil => simp
  | cons e rest ih =>
    rw [checkEntries] at h
    split_ifs at h with hrecord hactive
    · intro e' he'
      rcases List.mem_cons.mp he' with rfl | he'
      · exact ⟨by simpa using hrecord, not_not.mp hactive⟩
      · exact ih h e' he'

theorem getElem?_insertRecord (s : State) (e : PreparedEntry) (id : TransactionId) :
    (insertRecord operation s e).records[id]? =
      if e.signed.id = id then some (PreparedEntry.record operation e) else s.records[id]? := by
  simp [insertRecord, ExtTreeMap.getElem?_insert, PreparedEntry.record]

theorem sender_insertRecord (s : State) (e : PreparedEntry) (a : Address) :
    (insertRecord operation s e).sender a =
      if e.source = a then { s.sender a with records := (s.sender a).records.insert e.signed.id }
      else s.sender a := by
  have h : (insertRecord operation s e).sender a = (s.setSender e.source fun sender =>
      { sender with records := sender.records.insert e.signed.id }).sender a := rfl
  rw [h, sender_setSender]
  split
  · rename_i heq
    rw [heq]
  · rfl

/-- The entries are recorded, and nothing else is. -/
structure Registers (s : State) (operation : UInt64) (entries : List PreparedEntry) (s' : State) : Prop where
  next : s'.nextOperation = s.nextOperation
  added : ∀ e ∈ entries, s'.records[e.signed.id]? = some (PreparedEntry.record operation e)
  others : ∀ id, id ∉ entries.map (·.signed.id) → s'.records[id]? = s.records[id]?
  active : ∀ a, (s'.sender a).active = (s.sender a).active
  floor : ∀ a, (s'.sender a).floor = (s.sender a).floor
  index : ∀ a id, id ∈ (s'.sender a).records ↔
    id ∈ (s.sender a).records ∨ ∃ e ∈ entries, e.source = a ∧ e.signed.id = id

theorem registers_foldl {entries : List PreparedEntry} (hids : (entries.map (·.signed.id)).Nodup) (s : State) :
    Registers s operation entries (entries.foldl (insertRecord operation) s) := by
  induction entries generalizing s with
  | nil => exact ⟨rfl, by simp, by simp, by simp, by simp, by simp⟩
  | cons e rest ih =>
    rw [List.map_cons, List.nodup_cons] at hids
    obtain ⟨hfresh, hids⟩ := hids
    have hrest := ih hids (insertRecord operation s e)
    rw [List.foldl_cons]
    refine ⟨hrest.next, ?_, ?_, ?_, ?_, ?_⟩
    · intro e' he'
      rcases List.mem_cons.mp he' with rfl | he'
      · rw [hrest.others _ hfresh, getElem?_insertRecord, if_pos rfl]
      · exact hrest.added e' he'
    · intro id hid
      simp only [List.map_cons, List.mem_cons, not_or] at hid
      rw [hrest.others id hid.2, getElem?_insertRecord, if_neg (fun h => hid.1 h.symm)]
    · intro a
      rw [hrest.active, sender_insertRecord]
      split <;> rfl
    · intro a
      rw [hrest.floor, sender_insertRecord]
      split <;> rfl
    · intro a id
      rw [hrest.index, sender_insertRecord]
      split
      · rename_i hsource
        simp only [ExtTreeSet.mem_insert, Std.LawfulEqCmp.compare_eq_iff_eq, List.mem_cons,
          or_and_right, exists_or, exists_eq_left, hsource, true_and]
        rw [or_assoc, or_left_comm]
      · rename_i hsource
        simp [hsource]

theorem register_ok {entries : List PreparedEntry} (h : s.register operation entries = .ok s') :
    (∀ e ∈ entries, s.records[e.signed.id]? = none ∧ (s.sender e.source).active = some operation) ∧
      s' = entries.foldl (insertRecord operation) s := by
  unfold register at h
  cases hcheck : s.checkEntries operation entries with
  | error e =>
    rw [hcheck] at h
    cases h
  | ok u =>
    rw [hcheck] at h
    cases h
    exact ⟨checkEntries_ok hcheck, rfl⟩

/-! ### Records change -/

/-- One record is replaced by another of the same source. -/
structure Replaces (s : State) (id : TransactionId) (r r' : Record) (s' : State) : Prop where
  before : s.records[id]? = some r
  records : ∀ id', s'.records[id']? = if id = id' then some r' else s.records[id']?
  sender : ∀ a, s'.sender a = s.sender a
  next : s'.nextOperation = s.nextOperation

theorem replaces_detach (h : s.detach operation id = .ok s') :
    ∃ r, r.operation = some operation ∧ r.status = .prepared ∧
      Replaces s id r { r with operation := none } s' := by
  unfold detach at h
  split at h
  · cases h
  · rename_i r hr
    split_ifs at h with hcheck
    cases h
    simp only [not_or, not_not] at hcheck
    refine ⟨r, hcheck.1, hcheck.2, hr, fun id' => ?_, fun a => rfl, rfl⟩
    simp [ExtTreeMap.getElem?_insert]

theorem replaces_setStatus {r : Record} (hr : s.records[id]? = some r) (status : RecordStatus) :
    Replaces s id r { r with status } (s.setStatus id r status) :=
  ⟨hr, fun id' => getElem?_setStatus s id id' r status, fun _ => rfl, rfl⟩

theorem claim_ready {expected : Option SignedTransaction} {claim : SubmissionClaim}
    (h : s.claim id expected = .ok (.ready claim, s')) :
    ∃ r, claim.id = id ∧ claim.transaction = r.transaction ∧
      (r.status = .prepared ∧ claim.recovery = false ∨ r.status = .unknown ∧ claim.recovery = true) ∧
      (∀ t ∈ expected, t = r.transaction) ∧ Replaces s id r { r with status := .reconciling } s' := by
  unfold State.claim at h
  split at h
  · cases h
  · rename_i r hr
    split at h
    · cases h
    · rename_i hexpected
      have hexp : ∀ t ∈ expected, t = r.transaction := by
        rintro t ⟨⟩
        simpa using hexpected
      split at h
      · rename_i hstatus
        cases h
        exact ⟨r, rfl, rfl, .inl ⟨hstatus, rfl⟩, hexp, replaces_setStatus hr _⟩
      · rename_i hstatus
        cases h
        exact ⟨r, rfl, rfl, .inr ⟨hstatus, rfl⟩, hexp, replaces_setStatus hr _⟩
      · cases h

theorem claim_wait {expected : Option SignedTransaction} (h : s.claim id expected = .ok (.wait, s')) :
    s' = s := by
  unfold State.claim at h
  repeat' split at h
  all_goals first | cases h; rfl | cases h

theorem dropSubmission_cases (s : State) (id : TransactionId) :
    s.dropSubmission id = s ∨ ∃ r, r.status = .reconciling ∧
      Replaces s id r { r with status := .unknown } (s.dropSubmission id) := by
  unfold dropSubmission
  split
  · exact .inl rfl
  · rename_i r hr
    split
    · rename_i hstatus
      exact .inr ⟨r, hstatus, replaces_setStatus hr _⟩
    · exact .inl rfl

/-! ### Records go -/

/-- The records for which `gone` holds are removed, with their place in the index. -/
structure Removes (s : State) (gone : TransactionId → Record → Prop) (s' : State) : Prop where
  next : s'.nextOperation = s.nextOperation
  records : ∀ id r, s'.records[id]? = some r ↔ s.records[id]? = some r ∧ ¬ gone id r
  index : ∀ a id, id ∈ (s'.sender a).records ↔
    id ∈ (s.sender a).records ∧ ∀ r, s.records[id]? = some r → r.source = a → ¬ gone id r
  floor : ∀ a, (s'.sender a).floor = (s.sender a).floor

theorem sender_removeRecord {r : Record} (hr : s.records[id]? = some r) (a : Address) :
    ((s.removeRecord id).2.sender a).active = (s.sender a).active ∧
      ((s.removeRecord id).2.sender a).floor = (s.sender a).floor ∧
      ∀ id', id' ∈ ((s.removeRecord id).2.sender a).records ↔
        id' ∈ (s.sender a).records ∧ ¬ (id' = id ∧ r.source = a) := by
  unfold removeRecord
  rw [hr]
  simp only [sender, ExtTreeMap.getElem?_modify, Std.LawfulEqCmp.compare_eq_iff_eq]
  by_cases hsource : r.source = a
  · subst hsource
    cases hfound : s.senders[r.source]? with
    | none => simp
    | some found =>
      simp only [↓reduceIte, Option.map_some, Option.getD_some, ExtTreeSet.mem_erase, and_true, true_and, ne_eq,
        Std.LawfulEqCmp.compare_eq_iff_eq]
      intro id'
      rw [and_comm, eq_comm]
  · simp [hsource]

theorem removes_removeRecord {r : Record} (hr : s.records[id]? = some r) :
    Removes s (fun id' _ => id' = id) (s.removeRecord id).2 ∧
      ∀ a, ((s.removeRecord id).2.sender a).active = (s.sender a).active := by
  refine ⟨⟨?_, ?_, ?_, ?_⟩, fun a => (sender_removeRecord hr a).1⟩
  · simp [removeRecord, hr]
  · intro id' r'
    simp only [removeRecord, hr, ExtTreeMap.getElem?_erase, Std.LawfulEqCmp.compare_eq_iff_eq]
    by_cases h : id = id'
    · simp [h]
    · have h' : ¬ id' = id := fun he => h he.symm
      simp [h, h']
  · intro a id'
    rw [(sender_removeRecord hr a).2.2 id']
    refine and_congr_right fun _ => ?_
    constructor
    · rintro hnot r' hr' hsource rfl
      obtain rfl : r = r' := Option.some.inj (hr.symm.trans hr')
      exact hnot ⟨rfl, hsource⟩
    · rintro hall ⟨rfl, hsource⟩
      exact hall r hr hsource rfl
  · exact fun a => (sender_removeRecord hr a).2.1

theorem removes_trans {gone gone' : TransactionId → Record → Prop} {s'' : State} (h : Removes s gone s')
    (h' : Removes s' gone' s'') : Removes s (fun id r => gone id r ∨ gone' id r) s'' where
  next := h'.next.trans h.next
  records id r := by
    rw [h'.records, h.records, not_or, and_assoc]
  index a id := by
    rw [h'.index, h.index, and_assoc]
    refine and_congr_right fun _ => ?_
    constructor
    · rintro ⟨hkept, hkept'⟩ r hr hsource hgone
      rcases hgone with hgone | hgone
      · exact hkept r hr hsource hgone
      · exact hkept' r ((h.records id r).mpr ⟨hr, hkept r hr hsource⟩) hsource hgone
    · intro hall
      refine ⟨fun r hr hsource hgone => hall r hr hsource (.inl hgone), ?_⟩
      exact fun r hr hsource hgone => hall r ((h.records id r).mp hr).1 hsource (.inr hgone)
  floor a := (h'.floor a).trans (h.floor a)

theorem removes_congr {gone gone' : TransactionId → Record → Prop} (h : Removes s gone s')
    (hiff : ∀ id r, s.records[id]? = some r → (gone id r ↔ gone' id r)) : Removes s gone' s' where
  next := h.next
  records id r := by
    rw [h.records]
    exact and_congr_right fun hr => not_congr (hiff id r hr)
  index a id := by
    rw [h.index]
    exact and_congr_right fun _ => forall_congr' fun r => forall_congr' fun hr =>
      forall_congr' fun _ => not_congr (hiff id r hr)
  floor := h.floor

theorem removes_foldl (ids : List TransactionId) (s : State) :
    Removes s (fun id _ => id ∈ ids) (ids.foldl (fun t id => (t.removeRecord id).2) s) ∧
      ∀ a, ((ids.foldl (fun t id => (t.removeRecord id).2) s).sender a).active = (s.sender a).active := by
  induction ids generalizing s with
  | nil => exact ⟨⟨rfl, by simp, by simp, by simp⟩, by simp⟩
  | cons id rest ih =>
    rw [List.foldl_cons]
    cases hr : s.records[id]? with
    | none =>
      have hsame : (s.removeRecord id).2 = s := by simp [removeRecord, hr]
      rw [hsame]
      refine ⟨removes_congr (ih s).1 fun id' r hr' => ?_, (ih s).2⟩
      have hne : id' ≠ id := by
        rintro rfl
        rw [hr] at hr'
        cases hr'
      simp [hne]
    | some r =>
      obtain ⟨hfirst, hactive⟩ := removes_removeRecord hr
      obtain ⟨hrest, hactive'⟩ := ih (s.removeRecord id).2
      refine ⟨removes_congr (removes_trans hfirst hrest) fun id' r _ => ?_, fun a => ?_⟩
      · exact List.mem_cons.symm
      · rw [hactive', hactive]

/-- The records that the end of an operation removes. -/
def Cancelled (operation : UInt64) (r : Record) : Prop :=
  r.operation = some operation ∧ r.status = .prepared

theorem mem_unclaimed {r : Record} (hr : s.records[id]? = some r) :
    id ∈ s.unclaimed operation ↔ Cancelled operation r := by
  simp only [unclaimed, List.mem_map, List.mem_filter, ExtTreeMap.mem_toList_iff_getElem?_eq_some,
    decide_eq_true_eq, Prod.exists, exists_and_right, exists_eq_right]
  constructor
  · rintro ⟨r', hr', hc⟩
    obtain rfl : r = r' := Option.some.inj (hr.symm.trans hr')
    exact hc
  · exact fun hc => ⟨r, hr, hc⟩

theorem sender_deactivate (s : State) (operation : UInt64) (a : Address) :
    (s.deactivate operation).sender a =
      if (s.sender a).active = some operation then { s.sender a with active := none } else s.sender a := by
  simp only [sender, deactivate, ExtTreeMap.getElem?_map]
  rcases Option.eq_none_or_eq_some s.senders[a]? with h | ⟨found, h⟩
  · simp [h]
  · simp [h]

theorem removes_finishOperation (s : State) (operation : UInt64) :
    Removes s (fun _ r => Cancelled operation r) (s.finishOperation operation) := by
  have hkept := removes_congr (removes_foldl (s.unclaimed operation) s).1 fun id r hr => mem_unclaimed hr
  refine ⟨hkept.next, hkept.records, ?_, ?_⟩
  · intro a id
    rw [finishOperation, sender_deactivate, ← hkept.index]
    split <;> rfl
  · intro a
    rw [finishOperation, sender_deactivate, ← hkept.floor]
    split <;> rfl

theorem active_finishOperation (s : State) (operation : UInt64) (a : Address) :
    ((s.finishOperation operation).sender a).active =
      if (s.sender a).active = some operation then none else (s.sender a).active := by
  rw [finishOperation, sender_deactivate, (removes_foldl (s.unclaimed operation) s).2 a]
  split
  · rfl
  · exact (removes_foldl (s.unclaimed operation) s).2 a

/-- The record goes, and the floor of its sender is above its nonce. -/
structure Accepts (s : State) (id : TransactionId) (r : Record) (s' : State) : Prop where
  before : s.records[id]? = some r
  next : s'.nextOperation = s.nextOperation
  records : ∀ id' r', s'.records[id']? = some r' ↔ s.records[id']? = some r' ∧ id' ≠ id
  index : ∀ a id', id' ∈ (s'.sender a).records ↔ id' ∈ (s.sender a).records ∧ ¬ (id' = id ∧ r.source = a)
  active : ∀ a, (s'.sender a).active = (s.sender a).active
  floor : ∀ a, a ≠ r.source → (s'.sender a).floor = (s.sender a).floor
  raised : ∃ f, (s'.sender r.source).floor = some f ∧ r.nonce.toNat < f.toNat ∧
    ∀ f', (s.sender r.source).floor = some f' → f'.toNat ≤ f.toNat

theorem laterNonce_le (a b : UInt64) : a.toNat ≤ (laterNonce a b).toNat ∧ b.toNat ≤ (laterNonce a b).toNat := by
  unfold laterNonce
  split <;> omega

theorem accepts_of_accept {r : Record} (hr : s.records[id]? = some r) (hnonce : r.nonce.toNat + 1 < 2 ^ 64) :
    (s.accept id).1 = .ok id ∧ Accepts s id r (s.accept id).2 := by
  obtain ⟨next, hnext⟩ : ∃ next, PaymentSdk.checkedSuccessor r.nonce = some next := by
    unfold PaymentSdk.checkedSuccessor
    rw [if_pos hnonce]
    exact ⟨_, rfl⟩
  have hfirst : (s.removeRecord id).1 = some r := by simp [removeRecord, hr]
  obtain ⟨hremoves, hactive⟩ := removes_removeRecord hr
  have haccept : s.accept id = (.ok id, (s.removeRecord id).2.setSender r.source fun sender =>
      { sender with floor := some (sender.floor.elim next (laterNonce · next)) }) := by
    have hpair : s.removeRecord id = (some r, (s.removeRecord id).2) := Prod.ext hfirst rfl
    unfold accept
    rw [hpair]
    simp only [hnext]
  rw [haccept]
  have hnextNat := PaymentSdk.checkedSuccessor_eq_some hnext
  refine ⟨rfl, hr, hremoves.next, ?_, ?_, ?_, ?_, ?_⟩
  · exact fun id' r' => hremoves.records id' r'
  · intro a id'
    rw [← (sender_removeRecord hr a).2.2 id', sender_setSender]
    split
    · rename_i h
      rw [h]
    · rfl
  · intro a
    rw [sender_setSender, ← hactive a]
    split
    · rename_i h
      rw [h]
    · rfl
  · intro a ha
    rw [sender_setSender, if_neg (Ne.symm ha), hremoves.floor]
  · rw [sender_setSender, if_pos rfl]
    refine ⟨_, rfl, ?_, ?_⟩
    · cases ((s.removeRecord id).2.sender r.source).floor with
      | none => simp [hnextNat]
      | some f =>
        have := (laterNonce_le f next).2
        simp only [Option.elim_some]
        omega
    · intro f hf
      rw [hremoves.floor, hf]
      exact (laterNonce_le f next).1

end State

end PaymentSdk.Ethereum
