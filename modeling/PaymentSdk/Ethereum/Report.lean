import Mathlib.Data.List.Forall2
import PaymentSdk.Ethereum.Batch
import PaymentSdk.Ethereum.Coordinator.Nonce

/-!
# A batch reports exactly what was accepted

With the coordinator to itself, a batch either is not prepared and leaves nothing behind, or
sends its envelopes in order. Whatever the node answers, it comes to an end, and the report
says how far it came.
-/

open Std Interaction

namespace PaymentSdk.Ethereum

open Wallets

variable {crypto : Crypto} {s s' : State} {log : List Trace} {operation : UInt64}
  {preparations : List Preparation} {entries : List PreparedEntry} {cursor : Nat}

/-! ## The state of the coordinator -/

/-- Nothing is reserved. -/
structure State.Idle (s : State) : Prop where
  records : ∀ id : TransactionId, s.records[id]? = none
  active : ∀ a, (s.sender a).active = none
  index : ∀ a id, id ∉ (s.sender a).records

/-- Some senders are active under one operation, and there is no record. -/
structure State.Held (s : State) (operation : UInt64) : Prop where
  records : ∀ id : TransactionId, s.records[id]? = none
  active : ∀ a, (s.sender a).active = none ∨ (s.sender a).active = some operation
  index : ∀ a id, id ∉ (s.sender a).records

/-- The only reservation is `r`. -/
structure State.Only (s : State) (r : Record) : Prop where
  records : ∀ (id : TransactionId) (q : Record), s.records[id]? = some q ↔ id = r.transaction.id ∧ q = r
  active : ∀ a, (s.sender a).active = none
  index : ∀ a id, id ∈ (s.sender a).records ↔ id = r.transaction.id ∧ a = r.source

theorem State.Idle.blocked (h : s.Idle) (senders : List (Address × Nat)) : s.blocked senders = none := by
  induction senders with
  | nil => rfl
  | cons p rest ih =>
    rw [State.blocked]
    split
    · exact ih
    · rename_i sender hsender
      have hactive := h.active p.1
      have hindex := h.index p.1
      simp only [State.sender, hsender, Option.getD_some] at hactive hindex
      have hnone : sender.records.toList.findSome? (fun id => (s.records[id]?).map (id, ·)) = none := by
        rw [List.findSome?_eq_none_iff]
        intro id _
        rw [h.records id]
        rfl
      rw [hactive, hnone]
      simpa using ih

theorem State.Idle.admission (h : s.Idle) (senders : List (Address × Nat)) :
    (∃ operation s', s.admission senders = (.acquired operation, s') ∧ s'.Held operation) ∨
      ∃ index, s.admission senders = (.exhausted index, s) := by
  cases hnext : PaymentSdk.checkedSuccessor s.nextOperation with
  | none =>
    right
    exact ⟨(senders.head?.map (·.2)).getD 0, by simp only [State.admission, h.blocked, hnext]⟩
  | some next =>
    left
    have hadmission : s.admission senders = (.acquired s.nextOperation,
        (senders.map (·.1)).foldl
          (fun t a => t.setSender a fun sender => { sender with active := some s.nextOperation })
          { s with nextOperation := next }) := by
      simp only [State.admission, h.blocked, hnext]
    refine ⟨_, _, hadmission, ?_⟩
    have ha := State.admitted_of_admission hadmission
    refine ⟨?_, ?_, ?_⟩
    · rw [ha.records]
      exact h.records
    · intro a
      rw [ha.sender]
      split
      · exact .inr rfl
      · exact .inl (h.active a)
    · intro a id
      rw [ha.sender]
      split <;> exact h.index a id

theorem State.Held.finish (h : s.Held operation) : (s.finishOperation operation).Idle := by
  have hremoves := State.removes_finishOperation s operation
  refine ⟨?_, ?_, ?_⟩
  · intro id
    rw [Option.eq_none_iff_forall_ne_some]
    intro r hr
    have hold := ((hremoves.records id r).mp hr).1
    rw [h.records id] at hold
    cases hold
  · intro a
    rw [State.active_finishOperation]
    split
    · rfl
    · rename_i hne
      exact (h.active a).resolve_right hne
  · intro a id hid
    exact h.index a id ((hremoves.index a id).mp hid).1

/-! ## Preparation -/

/-- The hand-overs in a log. -/
def handedOf (log : List Trace) : List SignedTransaction :=
  log.filterMap fun
    | .handed t => some t
    | _ => none

theorem handedOf_append (log events : List Trace) : handedOf (log ++ events) = handedOf log ++ handedOf events :=
  List.filterMap_append

/-- The entry is the signed envelope of this transfer. -/
def SignedFor (crypto : Crypto) (p : Preparation) (e : PreparedEntry) : Prop :=
  ∃ context signature, e.source = p.request.sender ∧ e.nonce = context.nonce ∧
    signRequest crypto p.request context signature = .ok e.signed

/-- One envelope for each transfer, in order. -/
structure Prepared (crypto : Crypto) (preparations : List Preparation) (entries : List PreparedEntry) : Prop where
  signed : List.Forall₂ (SignedFor crypto) preparations entries
  nonces : ∀ e ∈ entries, e.nonce.toNat + 1 < 2 ^ 64
  ids : (entries.map (·.signed.id)).Nodup

/-- The records are those of the entries from the cursor on, all prepared. -/
structure State.Holding (s : State) (operation : UInt64) (entries : List PreparedEntry) (cursor : Nat) : Prop where
  records : ∀ (id : TransactionId) (r : Record), s.records[id]? = some r ↔ ∃ j e, cursor ≤ j ∧
    entries[j]? = some e ∧ e.signed.id = id ∧ r = State.PreparedEntry.record operation e
  active : ∀ a, (s.sender a).active = none ∨ (s.sender a).active = some operation
  index : ∀ a id, id ∈ (s.sender a).records ↔ ∃ r, s.records[id]? = some r ∧ r.source = a

/-- Places that nonces can be accepted at, each once. -/
def Places (places : List (Address × UInt64)) : Prop :=
  (∀ p ∈ places, p.2.toNat + 1 < 2 ^ 64) ∧ places.Pairwise fun p q => p.1 = q.1 → p.2 ≠ q.2

theorem places_of_assigned {next : Address → Option UInt64} {assigned : List UInt64}
    (h : assignNonces 0 next preparations = .ok assigned) :
    Places ((preparations.zip assigned).map assignedPlace) := by
  obtain ⟨hplaces, hrising⟩ := places_of_assignNonces h
  refine ⟨fun p hp => (hplaces p hp).1, hrising.imp fun h hsource heq => ?_⟩
  have := h hsource
  rw [heq] at this
  exact Nat.lt_irrefl _ this

theorem length_of_assignNonces {index : Nat} {next : Address → Option UInt64} {assigned : List UInt64}
    (h : assignNonces index next preparations = .ok assigned) : assigned.length = preparations.length := by
  induction preparations generalizing index next assigned with
  | nil =>
    cases h
    rfl
  | cons p rest ih =>
    rw [assignNonces] at h
    split at h
    · cases h
    · split at h
      · cases h
      · rename_i following _
        cases hrest : assignNonces (index + 1) (Function.update next p.request.sender (some following)) rest with
        | error e =>
          rw [hrest] at h
          cases h
        | ok tail =>
          rw [hrest] at h
          cases h
          rw [List.length_cons, List.length_cons, ih hrest]

theorem genuine_of_signedFor {p : Preparation} {e : PreparedEntry} (h : SignedFor crypto p e) :
    e.signed.Genuine crypto e.source e.nonce := by
  obtain ⟨context, signature, hsource, hnonce, hsigned⟩ := h
  rw [hsource, hnonce]
  exact genuine_of_sign hsigned

theorem prepared_of_signed (hinj : Function.Injective crypto.keccak)
    (h : List.Forall₂ (SignedFor crypto) preparations entries) (hplaces : Places (entries.map (·.place))) :
    Prepared crypto preparations entries := by
  have hgenuine : ∀ e ∈ entries, e.signed.Genuine crypto e.source e.nonce := by
    intro e he
    obtain ⟨j, hj, rfl⟩ := List.mem_iff_getElem.mp he
    have hj' : j < preparations.length := h.length_eq ▸ hj
    exact genuine_of_signedFor (h.get hj' hj)
  refine ⟨h, fun e he => ?_, ids_nodup hinj hgenuine hplaces.2⟩
  exact hplaces.1 e.place (List.mem_map_of_mem he)

theorem State.Held.register (h : s.Held operation) (hids : (entries.map (·.signed.id)).Nodup)
    (hr : s.register operation entries = .ok s') : s'.Holding operation entries 0 := by
  obtain ⟨_, rfl⟩ := State.register_ok hr
  have hregisters : s.Registers operation entries (entries.foldl (State.insertRecord operation) s) :=
    State.registers_foldl hids s
  have hrecords : ∀ (id : TransactionId) (r : Record),
      (entries.foldl (State.insertRecord operation) s).records[id]? = some r ↔
        ∃ e ∈ entries, e.signed.id = id ∧ r = State.PreparedEntry.record operation e := by
    intro id r
    constructor
    · intro hid
      rcases record_cases hregisters hid with ⟨hold, _⟩ | hnew
      · rw [h.records id] at hold
        cases hold
      · exact hnew
    · rintro ⟨e, he, rfl, rfl⟩
      exact hregisters.added e he
  refine ⟨?_, ?_, ?_⟩
  · intro id r
    rw [hrecords]
    constructor
    · rintro ⟨e, he, hid, hr⟩
      obtain ⟨j, hj⟩ := List.mem_iff_getElem?.mp he
      exact ⟨j, e, Nat.zero_le _, hj, hid, hr⟩
    · rintro ⟨j, e, _, hj, hid, hr⟩
      exact ⟨e, List.mem_of_getElem? hj, hid, hr⟩
  · intro a
    rw [hregisters.active]
    exact h.active a
  · intro a id
    rw [hregisters.index]
    constructor
    · rintro (hold | ⟨e, he, rfl, rfl⟩)
      · exact absurd hold (h.index a id)
      · exact ⟨_, hregisters.added e he, rfl⟩
    · rintro ⟨r, hr, hsource⟩
      obtain ⟨e, he, hid, rfl⟩ := (hrecords id r).mp hr
      exact .inr ⟨e, he, hsource, hid⟩

/-- What holds when a preparation is over. -/
def Prepare.Post (crypto : Crypto) (preparations : List Preparation) (s : State) (log : List Trace) :
    Except PreparationError PreparedBatch → Prop
  | .error _ => s.Idle ∧ handedOf log = []
  | .ok b => ∃ operation entries, b = ⟨entries, 0, some operation⟩ ∧ Prepared crypto preparations entries ∧
    s.Holding operation entries 0 ∧ handedOf log = []

def Prepare.progress (crypto : Crypto) (preparations : List Preparation) (s : State) (reply : Reply)
    (task : Prepare) : Progress State Trace Prepare (Except PreparationError PreparedBatch) :=
  (task.poll crypto preparations s reply).progress

abbrev Prepare.Ends (crypto : Crypto) (preparations : List Preparation) : State → List Trace → Prepare → Prop :=
  Interaction.Ends (Prepare.progress crypto preparations) (Prepare.Post crypto preparations)

section Ends

variable (hs : s.Held operation) (hlog : handedOf log = [])

include hs hlog

theorem ends_failing (error : PreparationError) :
    Prepare.Ends crypto preparations s (log ++ []) (.failing operation error) := by
  refine .of_poll fun r => ?_
  change Prepare.Post crypto preparations (s.finishOperation operation) ((log ++ []) ++ []) (.error error)
  rw [List.append_nil, List.append_nil]
  exact ⟨hs.finish, hlog⟩

theorem ends_registering (hinj : Function.Injective crypto.keccak)
    (hsigned : List.Forall₂ (SignedFor crypto) preparations entries) (hplaces : Places (entries.map (·.place))) :
    Prepare.Ends crypto preparations s (log ++ []) (.registering operation entries) := by
  have hprepared := prepared_of_signed hinj hsigned hplaces
  rw [List.append_nil]
  refine .of_poll fun r => ?_
  simp only [Prepare.progress, Prepare.poll]
  cases hr : s.register operation entries with
  | error error => exact ends_failing hs hlog _
  | ok s' =>
    refine ⟨operation, entries, rfl, hprepared, hs.register hprepared.ids hr, ?_⟩
    rw [handedOf_append, hlog, List.nil_append]
    change handedOf (entries.map fun e => .registered operation e.signed) = []
    rw [handedOf, List.filterMap_map, List.filterMap_eq_nil_iff]
    exact fun _ _ => rfl

theorem ends_signing (hinj : Function.Injective crypto.keccak) (rest : List Draft) {front : List Preparation}
    (hsigned : List.Forall₂ (SignedFor crypto) front entries)
    (hall : preparations = front ++ rest.map (·.preparation))
    (hplaces : Places (entries.map (·.place) ++ rest.map (·.place))) :
    Prepare.Ends crypto preparations s (log ++ []) (.signing operation entries rest) := by
  induction rest generalizing entries front with
  | nil =>
    rw [List.append_nil]
    refine .of_poll fun r => ?_
    simp only [List.map_nil, List.append_nil] at hall hplaces
    exact ends_registering hs hlog hinj (hall ▸ hsigned) hplaces
  | cons draft rest ih =>
    rw [List.append_nil]
    refine .of_poll fun r => ?_
    simp only [Prepare.progress, Prepare.poll]
    cases hsign : signRequest crypto draft.preparation.request draft.context r.signature with
    | error error => exact ends_failing hs hlog _
    | ok signed =>
      have hsigned' := List.rel_append hsigned
        (.cons (⟨draft.context, r.signature, rfl, rfl, hsign⟩ : SignedFor crypto draft.preparation
          ⟨draft.preparation.request.sender, draft.context.nonce, signed⟩) .nil)
      refine ih hsigned' (by simp [hall]) ?_
      simpa [PreparedEntry.place, Draft.place] using hplaces

theorem ends_settle (hinj : Function.Injective crypto.keccak) {drafts : List Draft}
    (hall : preparations = drafts.map (·.preparation)) (hplaces : Places (drafts.map (·.place)))
    (insufficient : Option Nat) :
    (Prepare.settle s operation drafts insufficient).progress.Leads log (Prepare.Ends crypto preparations)
      (Prepare.Post crypto preparations) := by
  cases insufficient with
  | some index => exact ends_failing hs hlog _
  | none => exact ends_signing hs hlog hinj drafts .nil hall hplaces

theorem ends_balances (hinj : Function.Injective crypto.keccak) {drafts : List Draft}
    (hall : preparations = drafts.map (·.preparation)) (hplaces : Places (drafts.map (·.place)))
    (insufficient : Option Nat) (rest : List Requirement) :
    Prepare.Ends crypto preparations s (log ++ []) (.balances operation drafts insufficient rest) := by
  rw [List.append_nil]
  induction rest generalizing insufficient with
  | nil =>
    refine .of_poll fun r => ?_
    simp only [Prepare.progress, Prepare.poll]
    exact ends_settle hs hlog hinj hall hplaces insufficient
  | cons requirement rest ih =>
    refine .of_poll fun r => ?_
    simp only [Prepare.progress, Prepare.poll]
    by_cases hknown : insufficient.any (· ≤ requirement.firstIndex)
    · simp only [hknown, if_true]
      exact ends_settle hs hlog hinj hall hplaces insufficient
    · simp only [hknown, Bool.false_eq_true, if_false]
      cases r.balance with
      | error error => exact ends_failing hs hlog _
      | ok balance =>
        by_cases hle : requirement.amount ≤ balance
        · simp only [hle, if_true, Prepare.stay, Polled.progress, Progress.Leads, List.append_nil]
          exact ih insufficient
        · simp only [hle, if_false, Prepare.stay, Polled.progress, Progress.Leads, List.append_nil]
          exact ih _

theorem ends_contexts (hinj : Function.Injective crypto.keccak) (drafts : List Draft)
    (rest : List (Preparation × UInt64)) (hall : preparations = drafts.map (·.preparation) ++ rest.map (·.1))
    (hplaces : Places (drafts.map (·.place) ++ rest.map assignedPlace)) :
    Prepare.Ends crypto preparations s (log ++ []) (.contexts operation drafts rest) := by
  induction rest generalizing drafts with
  | nil =>
    rw [List.append_nil]
    simp only [List.map_nil, List.append_nil] at hall hplaces
    refine .of_poll fun r => ?_
    simp only [Prepare.progress, Prepare.poll]
    cases requirementsFrom 0 [] drafts with
    | error error => exact ends_failing hs hlog _
    | ok requirements => exact ends_balances hs hlog hinj hall hplaces none requirements
  | cons p rest ih =>
    rw [List.append_nil]
    refine .of_poll fun r => ?_
    simp only [Prepare.progress, Prepare.poll]
    cases hcontext : r.buildContext p.2 with
    | error error => exact ends_failing hs hlog _
    | ok context =>
      by_cases hchain : context.chainId = p.1.expectedChainId
      · simp only [hchain, ne_eq, not_true_eq_false, if_false]
        refine ih (drafts ++ [⟨p.1, context⟩]) (by simp [hall]) ?_
        simpa [Draft.place, assignedPlace, nonce_of_buildContext hcontext] using hplaces
      · simp only [hchain, ne_eq, not_false_eq_true, if_true]
        exact ends_failing hs hlog _

omit hlog in
theorem ends_nonces (hinj : Function.Injective crypto.keccak) (next : Address → Option UInt64)
    (rest : List (Address × Nat)) {log : List Trace} (hlog : handedOf log = []) :
    Prepare.Ends crypto preparations s log (.nonces operation next rest) := by
  induction rest generalizing next log with
  | nil =>
    refine .of_poll fun r => ?_
    simp only [Prepare.progress, Prepare.poll]
    cases hassigned : assignNonces 0 next preparations with
    | error error => exact ends_failing hs hlog _
    | ok assigned =>
      have hlength := length_of_assignNonces hassigned
      refine ends_contexts hs hlog hinj [] _ ?_ (places_of_assigned hassigned)
      rw [List.map_nil, List.nil_append, List.map_fst_zip (Nat.le_of_eq hlength.symm)]
  | cons p rest ih =>
    refine .of_poll fun r => ?_
    simp only [Prepare.progress, Prepare.poll]
    cases r.nonce with
    | error error => exact ends_failing hs hlog _
    | ok pending =>
      simp only [Prepare.reserve]
      split_ifs
      · exact ends_failing hs hlog _
      · exact ends_failing hs hlog _
      · refine ih _ ?_
        rw [handedOf_append, hlog]
        rfl

end Ends

theorem ends_admitting (hinj : Function.Injective crypto.keccak) (hs : s.Idle) :
    Prepare.Ends crypto preparations s [] .admitting := by
  refine .of_poll fun r => ?_
  simp only [Prepare.progress, Prepare.poll]
  split_ifs
  · exact ⟨hs, rfl⟩
  · rcases hs.admission (senders preparations) with ⟨operation, s', hadmission, hheld⟩ | ⟨index, hadmission⟩
    · simp only [hadmission]
      exact ends_nonces hheld hinj _ _ rfl
    · simp only [hadmission]
      exact ⟨hs, rfl⟩

/-! ## Sending -/

/-- As `Holding`, with the entry at the cursor in this status. -/
structure State.Sending (s : State) (operation : UInt64) (entries : List PreparedEntry) (cursor : Nat)
    (e : PreparedEntry) (status : RecordStatus) : Prop where
  records : ∀ (id : TransactionId) (r : Record), s.records[id]? = some r ↔
    (e.signed.id = id ∧ r = { State.PreparedEntry.record operation e with status }) ∨
      ∃ j e', cursor < j ∧ entries[j]? = some e' ∧ e'.signed.id = id ∧ r = State.PreparedEntry.record operation e'
  active : ∀ a, (s.sender a).active = none ∨ (s.sender a).active = some operation
  index : ∀ a id, id ∈ (s.sender a).records ↔ ∃ r, s.records[id]? = some r ∧ r.source = a

section Sending

variable {e : PreparedEntry} {status : RecordStatus}

theorem State.Holding.sending (h : s.Holding operation entries cursor) (he : entries[cursor]? = some e) :
    s.Sending operation entries cursor e .prepared := by
  refine ⟨fun id r => ?_, h.active, h.index⟩
  rw [h.records]
  constructor
  · rintro ⟨j, e', hle, hj, hid, hr⟩
    rcases Nat.lt_or_eq_of_le hle with hlt | rfl
    · exact .inr ⟨j, e', hlt, hj, hid, hr⟩
    · rw [he] at hj
      cases hj
      exact .inl ⟨hid, hr⟩
  · rintro (⟨hid, hr⟩ | ⟨j, e', hlt, hj, hid, hr⟩)
    · exact ⟨cursor, e, Nat.le_refl _, he, hid, hr⟩
    · exact ⟨j, e', Nat.le_of_lt hlt, hj, hid, hr⟩

theorem State.Sending.record (h : s.Sending operation entries cursor e status) :
    s.records[e.signed.id]? = some { State.PreparedEntry.record operation e with status } :=
  (h.records _ _).mpr (.inl ⟨rfl, rfl⟩)

theorem later_ne (hids : (entries.map (·.signed.id)).Nodup) (he : entries[cursor]? = some e) {j : Nat}
    {e' : PreparedEntry} (hlt : cursor < j) (hj : entries[j]? = some e') : e'.signed.id ≠ e.signed.id := by
  intro heq
  obtain ⟨hc, rfl⟩ := List.getElem?_eq_some_iff.mp he
  obtain ⟨hl, rfl⟩ := List.getElem?_eq_some_iff.mp hj
  have hpair := List.pairwise_iff_getElem.mp hids cursor j (by simpa using hc) (by simpa using hl) hlt
  simp only [List.getElem_map] at hpair
  exact hpair heq.symm

theorem State.Sending.setStatus (h : s.Sending operation entries cursor e status)
    (hids : (entries.map (·.signed.id)).Nodup) (he : entries[cursor]? = some e) (status' : RecordStatus) :
    (s.setStatus e.signed.id { State.PreparedEntry.record operation e with status } status').Sending operation
      entries cursor e status' := by
  have hrecords : ∀ (id : TransactionId) (r : Record),
      (s.setStatus e.signed.id { State.PreparedEntry.record operation e with status } status').records[id]? = some r ↔
        (e.signed.id = id ∧ r = { State.PreparedEntry.record operation e with status := status' }) ∨
          ∃ j e', cursor < j ∧ entries[j]? = some e' ∧ e'.signed.id = id ∧
            r = State.PreparedEntry.record operation e' := by
    intro id r
    rw [State.getElem?_setStatus]
    by_cases hid : e.signed.id = id
    · rw [if_pos hid]
      constructor
      · rintro ⟨⟩
        exact .inl ⟨hid, rfl⟩
      · rintro (⟨_, rfl⟩ | ⟨j, e', hlt, hj, rfl, _⟩)
        · rfl
        · exact absurd hid.symm (later_ne hids he hlt hj)
    · rw [if_neg hid, h.records]
      simp [hid]
  refine ⟨hrecords, h.active, fun a id => ?_⟩
  rw [State.sender_setStatus, h.index]
  constructor
  · rintro ⟨r, hr, hsource⟩
    rcases (h.records id r).mp hr with ⟨hid, rfl⟩ | hlater
    · exact ⟨_, (hrecords id _).mpr (.inl ⟨hid, rfl⟩), hsource⟩
    · exact ⟨r, (hrecords id r).mpr (.inr hlater), hsource⟩
  · rintro ⟨r, hr, hsource⟩
    rcases (hrecords id r).mp hr with ⟨hid, rfl⟩ | hlater
    · exact ⟨_, (h.records id _).mpr (.inl ⟨hid, rfl⟩), hsource⟩
    · exact ⟨r, (h.records id r).mpr (.inr hlater), hsource⟩

theorem State.Sending.remove (h : s.Sending operation entries cursor e status)
    (hids : (entries.map (·.signed.id)).Nodup) (he : entries[cursor]? = some e)
    (hs : Shrinks s (fun id _ => id = e.signed.id) s')
    (hactive : ∀ a, (s'.sender a).active = (s.sender a).active) : s'.Holding operation entries (cursor + 1) := by
  have hrecords : ∀ (id : TransactionId) (r : Record), s'.records[id]? = some r ↔ ∃ j e', cursor + 1 ≤ j ∧
      entries[j]? = some e' ∧ e'.signed.id = id ∧ r = State.PreparedEntry.record operation e' := by
    intro id r
    rw [hs.records, h.records]
    constructor
    · rintro ⟨⟨hid, _⟩ | hlater, hne⟩
      · exact absurd hid.symm hne
      · exact hlater
    · rintro ⟨j, e', hlt, hj, rfl, hr⟩
      exact ⟨.inr ⟨j, e', hlt, hj, rfl, hr⟩, later_ne hids he hlt hj⟩
  refine ⟨hrecords, fun a => by rw [hactive]; exact h.active a, fun a id => ?_⟩
  rw [hs.index, h.index]
  constructor
  · rintro ⟨⟨r, hr, hsource⟩, hkept⟩
    exact ⟨r, (hs.records id r).mpr ⟨hr, hkept r hr hsource⟩, hsource⟩
  · rintro ⟨r, hr, hsource⟩
    obtain ⟨hr, hkept⟩ := (hs.records id r).mp hr
    exact ⟨⟨r, hr, hsource⟩, fun _ _ _ => hkept⟩

theorem State.Holding.finish (h : s.Holding operation entries cursor) : (s.finishOperation operation).Idle := by
  have hremoves := State.removes_finishOperation s operation
  have hnone : ∀ (id : TransactionId) (r : Record), s.records[id]? = some r → State.Cancelled operation r := by
    intro id r hr
    obtain ⟨j, e, _, _, _, rfl⟩ := (h.records id r).mp hr
    exact ⟨rfl, rfl⟩
  refine ⟨?_, ?_, ?_⟩
  · intro id
    rw [Option.eq_none_iff_forall_ne_some]
    intro r hr
    obtain ⟨hr, hkept⟩ := (hremoves.records id r).mp hr
    exact hkept (hnone id r hr)
  · intro a
    rw [State.active_finishOperation]
    split
    · rfl
    · rename_i hne
      exact (h.active a).resolve_right hne
  · intro a id hid
    obtain ⟨hid, hkept⟩ := (hremoves.index a id).mp hid
    obtain ⟨r, hr, hsource⟩ := (h.index a id).mp hid
    exact hkept r hr hsource (hnone id r hr)

theorem State.Sending.finish (h : s.Sending operation entries cursor e .unknown) :
    (s.finishOperation operation).Only { State.PreparedEntry.record operation e with status := .unknown } := by
  have hremoves := State.removes_finishOperation s operation
  have hrecords : ∀ (id : TransactionId) (r : Record), (s.finishOperation operation).records[id]? = some r ↔
      id = e.signed.id ∧ r = { State.PreparedEntry.record operation e with status := .unknown } := by
    intro id r
    rw [hremoves.records, h.records]
    constructor
    · rintro ⟨⟨hid, hr⟩ | ⟨j, e', _, _, _, rfl⟩, hkept⟩
      · exact ⟨hid.symm, hr⟩
      · exact absurd ⟨rfl, rfl⟩ hkept
    · rintro ⟨rfl, rfl⟩
      refine ⟨.inl ⟨rfl, rfl⟩, fun hc => ?_⟩
      cases hc.2
  refine ⟨hrecords, ?_, ?_⟩
  · intro a
    rw [State.active_finishOperation]
    split
    · rfl
    · rename_i hne
      exact (h.active a).resolve_right hne
  · intro a id
    rw [hremoves.index, h.index]
    constructor
    · rintro ⟨⟨r, hr, hsource⟩, hkept⟩
      obtain ⟨hid, rfl⟩ := (hrecords id r).mp ((hremoves.records id r).mpr ⟨hr, hkept r hr hsource⟩)
      exact ⟨hid, hsource.symm⟩
    · rintro ⟨hid, hsource⟩
      obtain ⟨hr, hkept⟩ := (hremoves.records id _).mp ((hrecords id _).mpr ⟨hid, rfl⟩)
      refine ⟨⟨_, hr, hsource.symm⟩, fun q hq _ => ?_⟩
      rw [hr] at hq
      cases hq
      exact hkept

end Sending

/-! ## The report -/

/-- The reservation that a failed envelope leaves, by the ambiguous id of the error. -/
inductive Left (s : State) (e : PreparedEntry) : Option Id → Prop
  | nothing (idle : s.Idle) : Left s e none
  | envelope (operation : UInt64)
    (only : s.Only { State.PreparedEntry.record operation e with status := .unknown }) :
    Left s e (some e.signed.id.text)

def idsOf (entries : List PreparedEntry) : List Id := entries.map (·.signed.id.text)

/-- What a result says about the state and the log that the batch leaves. -/
inductive Report (crypto : Crypto) (checked : Except SendError (List Preparation)) (s : State) (log : List Trace) :
    Except SendError (List Id) → Prop
  | unprepared {error : SendError} (idle : s.Idle) (handed : handedOf log = []) (accepted : error.accepted = []) :
    Report crypto checked s log (.error error)
  | sent {preparations : List Preparation} {entries : List PreparedEntry} (hchecked : checked = .ok preparations)
    (prepared : Prepared crypto preparations entries) (idle : s.Idle)
    (handed : handedOf log = entries.map (·.signed)) : Report crypto checked s log (.ok (idsOf entries))
  | failed {preparations : List Preparation} {entries : List PreparedEntry} {error : SendError} {k : Nat}
    {e : PreparedEntry} (hchecked : checked = .ok preparations) (prepared : Prepared crypto preparations entries)
    (entry : entries[k]? = some e) (accepted : error.accepted = idsOf (entries.take k))
    (index : error.failedIndex = some k) (handed : handedOf log = (entries.take (k + 1)).map (·.signed))
    (left : Left s e error.ambiguousTransactionId) : Report crypto checked s log (.error error)

abbrev Execute.Ends (crypto : Crypto) (checked : Except SendError (List Preparation)) :
    State → List Trace → Execute → Prop :=
  Interaction.Ends (Execute.poll crypto) (Report crypto checked)

section Loop

variable {checked : Except SendError (List Preparation)} (hchecked : checked = .ok preparations)
  (hprepared : Prepared crypto preparations entries)

include hchecked hprepared

theorem ends_over (hs : s.Idle) (hlog : handedOf log = entries.map (·.signed)) (cursor : Nat) :
    Execute.Ends crypto checked s log (.sending ⟨entries, cursor, none⟩ (idsOf entries) (.finishing none)) := by
  refine .of_poll fun r => ?_
  change Report crypto checked s (log ++ []) (.ok (idsOf entries))
  rw [List.append_nil]
  exact .sent hchecked hprepared hs hlog

variable {e : PreparedEntry}

theorem report_failed {error : TransactionError} (he : entries[cursor]? = some e)
    (hlog : handedOf log = (entries.take (cursor + 1)).map (·.signed)) (hleft : Left s e error.ambiguousTransactionId) :
    Report crypto checked s (log ++ [])
      (.error (.item (idsOf (entries.take cursor)).length (idsOf (entries.take cursor)) (.ofTransaction error))) := by
  rw [List.append_nil]
  obtain ⟨hlt, _⟩ := List.getElem?_eq_some_iff.mp he
  have hlength : (idsOf (entries.take cursor)).length = cursor := by
    rw [idsOf, List.length_map, List.length_take, Nat.min_eq_left (Nat.le_of_lt hlt)]
  refine .failed hchecked hprepared he rfl ?_ hlog hleft
  exact congrArg some hlength

theorem ends_accepted {status : RecordStatus} (hs : s.Sending operation entries cursor e status)
    (he : entries[cursor]? = some e) (hlog : handedOf log = (entries.take (cursor + 1)).map (·.signed))
    (hnext : ∀ s' log', s'.Holding operation entries (cursor + 1) →
      handedOf log' = (entries.take (cursor + 1)).map (·.signed) →
      Execute.Ends crypto checked s' log' (.sending ⟨entries, cursor + 1, some operation⟩
        (idsOf (entries.take (cursor + 1))) (PreparedBatch.next ⟨entries, cursor + 1, some operation⟩)))
    (reply : Reply) (hpoll : (Submit.sent ⟨e.signed.id, e.signed, false⟩).poll s reply =
      Submit.accepts s ⟨e.signed.id, e.signed, false⟩) :
    (Execute.poll crypto s reply (.sending ⟨entries, cursor, some operation⟩ (idsOf (entries.take cursor))
      (.submitting (.sent ⟨e.signed.id, e.signed, false⟩)))).Leads log (Execute.Ends crypto checked)
        (Report crypto checked) := by
  obtain ⟨hok, ha⟩ := State.accepts_of_accept hs.record (hprepared.nonces e (List.mem_of_getElem? he))
  have hholding := hs.remove hprepared.ids he (shrinks_accept ha) ha.active
  have hids : idsOf (entries.take (cursor + 1)) = idsOf (entries.take cursor) ++ [e.signed.id.text] := by
    rw [idsOf, idsOf, List.take_add_one, he, Option.toList_some, List.map_append]
    rfl
  have hlog' : handedOf (log ++ [.accepted e.signed]) = (entries.take (cursor + 1)).map (·.signed) := by
    rw [handedOf_append, hlog]
    exact List.append_nil _
  simp only [Execute.poll, Next.poll, hpoll, Submit.accepts, hok, Except.mapError]
  by_cases hlast : cursor + 1 = entries.length
  · -- the operation ends before the last id is returned
    have hall : entries.take (cursor + 1) = entries := by rw [hlast, List.take_length]
    rw [if_pos hlast]
    refine .of_poll fun r => ?_
    have hover := ends_over hchecked hprepared hholding.finish (hall ▸ hlog') (cursor + 1)
    rw [← hall, hids, hall] at hover
    have hnone : PreparedBatch.next ⟨entries, cursor + 1, none⟩ = .finishing none := by
      simp only [PreparedBatch.next, hlast, List.getElem?_length]
    simp only [Execute.poll, Next.poll, Polled.progress, Execute.onNext, Progress.Leads, hnone, List.append_nil]
    exact hover
  · rw [if_neg hlast]
    have := hnext _ _ hholding hlog'
    rw [hids] at this
    exact this

theorem ends_ambiguous (hs : s.Sending operation entries cursor e .reconciling) (he : entries[cursor]? = some e)
    (hlog : handedOf log = (entries.take (cursor + 1)).map (·.signed)) (message : String) (reply : Reply)
    (hpoll : (Submit.sent ⟨e.signed.id, e.signed, false⟩).poll s reply =
      Submit.ambiguous s ⟨e.signed.id, e.signed, false⟩ message) :
    (Execute.poll crypto s reply (.sending ⟨entries, cursor, some operation⟩ (idsOf (entries.take cursor))
      (.submitting (.sent ⟨e.signed.id, e.signed, false⟩)))).Leads log (Execute.Ends crypto checked)
        (Report crypto checked) := by
  have hdrop : s.dropSubmission e.signed.id =
      s.setStatus e.signed.id { State.PreparedEntry.record operation e with status := .reconciling } .unknown := by
    simp only [State.dropSubmission, hs.record, if_true]
  simp only [Execute.poll, Next.poll, hpoll, Submit.ambiguous, hdrop]
  refine report_failed hchecked hprepared he hlog ?_
  exact .envelope operation (hs.setStatus hprepared.ids he .unknown).finish

theorem ends_rejected (hs : s.Sending operation entries cursor e .reconciling) (he : entries[cursor]? = some e)
    (hlog : handedOf log = (entries.take (cursor + 1)).map (·.signed)) {error : TransactionError}
    (hdefinite : error.ambiguousTransactionId = none) (reply : Reply)
    (hpoll : (Submit.sent ⟨e.signed.id, e.signed, false⟩).poll s reply =
      ⟨s.reject e.signed.id, .done (.error error), [.rejected e.signed]⟩) :
    (Execute.poll crypto s reply (.sending ⟨entries, cursor, some operation⟩ (idsOf (entries.take cursor))
      (.submitting (.sent ⟨e.signed.id, e.signed, false⟩)))).Leads log (Execute.Ends crypto checked)
        (Report crypto checked) := by
  have hholding := hs.remove hprepared.ids he (shrinks_reject hs.record) (State.removes_removeRecord hs.record).2
  have hlog' : handedOf (log ++ [.rejected e.signed]) = (entries.take (cursor + 1)).map (·.signed) := by
    rw [handedOf_append, hlog]
    exact List.append_nil _
  have hleft : Left ((s.reject e.signed.id).finishOperation operation) e error.ambiguousTransactionId := by
    rw [hdefinite]
    exact .nothing hholding.finish
  have hreport := report_failed hchecked hprepared he hlog' hleft
  rw [List.append_nil] at hreport
  simp only [Execute.poll, Next.poll, hpoll]
  exact hreport

/-- One envelope, from its claim on. -/
theorem ends_envelope (hs : s.Holding operation entries cursor) (he : entries[cursor]? = some e)
    (hlog : handedOf log = (entries.take cursor).map (·.signed))
    (hnext : ∀ s' log', s'.Holding operation entries (cursor + 1) →
      handedOf log' = (entries.take (cursor + 1)).map (·.signed) →
      Execute.Ends crypto checked s' log' (.sending ⟨entries, cursor + 1, some operation⟩
        (idsOf (entries.take (cursor + 1))) (PreparedBatch.next ⟨entries, cursor + 1, some operation⟩))) :
    Execute.Ends crypto checked s log (.sending ⟨entries, cursor, some operation⟩ (idsOf (entries.take cursor))
      (.submitting (.claiming (some e.signed) e.signed.id))) := by
  have hprep := hs.sending he
  have hsending := hprep.setStatus hprepared.ids he .reconciling
  have hclaim : s.claim e.signed.id (some e.signed) = .ok (.ready ⟨e.signed.id, e.signed, false⟩,
      s.setStatus e.signed.id { State.PreparedEntry.record operation e with status := .prepared } .reconciling) := by
    simp only [State.claim, hprep.record, State.PreparedEntry.record, Option.any_some, ne_eq, not_true_eq_false,
      decide_false, Bool.false_eq_true, if_false]
  have hhanded : handedOf (log ++ [.handed e.signed]) = (entries.take (cursor + 1)).map (·.signed) := by
    rw [handedOf_append, hlog, List.take_add_one, he, Option.toList_some, List.map_append]
    rfl
  refine .of_poll fun r => ?_
  simp only [Execute.poll, Next.poll, Submit.poll, hclaim, Polled.progress, Progress.Leads, List.append_nil,
    Bool.false_eq_true, if_false]
  refine .of_poll fun r => ?_
  simp only [Execute.poll, Next.poll, Submit.poll, Polled.progress, Progress.Leads]
  refine .of_poll fun r => ?_
  cases hbroadcast : r.broadcast with
  | ok returned =>
    by_cases hreturned : returned = e.signed.id
    · refine ends_accepted hchecked hprepared hsending he hhanded hnext r ?_
      simp only [Submit.poll, hbroadcast, hreturned, if_true]
    · refine ends_ambiguous hchecked hprepared hsending he hhanded
        "Ethereum node returned a different hash for the exact signed envelope" r ?_
      simp only [Submit.poll, hbroadcast, hreturned, if_false]
  | error error =>
    cases hambiguous : error.ambiguousTransactionId with
    | none =>
      refine ends_rejected hchecked hprepared hsending he hhanded hambiguous r ?_
      simp [Submit.poll, hbroadcast, hambiguous]
    | some id =>
      refine ends_ambiguous hchecked hprepared hsending he hhanded error.message r ?_
      simp [Submit.poll, hbroadcast, hambiguous]

theorem ends_loop (left : Nat) (hleft : entries.length = cursor + left) (hs : s.Holding operation entries cursor)
    (hlog : handedOf log = (entries.take cursor).map (·.signed)) :
    Execute.Ends crypto checked s log (.sending ⟨entries, cursor, some operation⟩ (idsOf (entries.take cursor))
      (PreparedBatch.next ⟨entries, cursor, some operation⟩)) := by
  induction left generalizing cursor s log with
  | zero =>
    obtain rfl : entries.length = cursor := hleft
    rw [List.take_length] at hlog ⊢
    have hnone : PreparedBatch.next ⟨entries, entries.length, some operation⟩ = .finishing none := by
      simp only [PreparedBatch.next, List.getElem?_length]
    rw [hnone]
    refine .of_poll fun r => ?_
    change Report crypto checked (s.finishOperation operation) (log ++ []) (.ok (idsOf entries))
    rw [List.append_nil]
    exact .sent hchecked hprepared hs.finish hlog
  | succ left ih =>
    have hlt : cursor < entries.length := by omega
    have he : entries[cursor]? = some entries[cursor] := List.getElem?_eq_getElem hlt
    have hsome : PreparedBatch.next ⟨entries, cursor, some operation⟩ =
        .submitting (.claiming (some entries[cursor].signed) entries[cursor].signed.id) := by
      simp only [PreparedBatch.next, he]
    rw [hsome]
    exact ends_envelope hchecked hprepared hs he hlog fun s' log' hs' hlog' => ih (by omega) hs' hlog'

end Loop

theorem ends_execute (hinj : Function.Injective crypto.keccak) (hs : s.Idle) :
    Execute.Ends crypto (.ok preparations) s [] (.preparing preparations .admitting) := by
  have hprepare : Prepare.Ends crypto preparations s [] .admitting := ends_admitting hinj hs
  refine hprepare.embed (Execute.preparing preparations) Execute.onPrepared (fun s r task => ?_)
    fun s' log' result hpost => ?_
  · rw [Execute.poll, Prepare.progress]
    cases (task.poll crypto preparations s r).progress with
    | mk s' trace outcome => cases outcome <;> rfl
  cases result with
  | error error =>
    obtain ⟨hidle, hlog⟩ := hpost
    refine .unprepared hidle ?_ rfl
    rwa [List.append_nil]
  | ok b =>
    obtain ⟨operation, entries, rfl, hprepared, hholding, hlog⟩ := hpost
    have hloop := ends_loop rfl hprepared entries.length (by omega) hholding hlog
    rw [← List.append_nil log'] at hloop
    exact hloop

/-- A batch on an idle coordinator comes to an end, and reports what became of it. -/
theorem batch_report (hinj : Function.Injective crypto.keccak) (hs : s.Idle) (b : Batch) (transfers : List Transfer) :
    (∀ answers result, (b.execute crypto s transfers answers).outcome = .inr result →
      Report crypto (b.check transfers) (b.execute crypto s transfers answers).state
        (b.execute crypto s transfers answers).trace result) ∧
      ∀ answers : Nat → Reply, ∃ n result,
        (b.execute crypto s transfers ((List.range n).map answers)).outcome = .inr result := by
  unfold Batch.execute
  cases hcheck : b.check transfers with
  | error error =>
    refine ⟨fun answers result h => ?_, fun answers => ⟨0, .error error, rfl⟩⟩
    cases h
    exact .unprepared hs rfl (Batch.accepted_of_check hcheck)
  | ok preparations =>
    have hends : Execute.Ends crypto (.ok preparations) s [] (.preparing preparations .admitting) :=
      ends_execute hinj hs
    exact ⟨fun answers result h => hends.post_of_run answers h, hends.exists_run⟩

/-! ## A batch that stops at its second transfer -/

theorem idle_empty : State.Idle {} := by
  refine ⟨fun id => ?_, fun a => ?_, fun a id => ?_⟩
  · exact ExtTreeMap.getElem?_empty
  · rfl
  · simp [State.sender]

def tokenBatch : Batch :=
  ⟨⟨⟨.lit "ethereum" (Eq.refl true)⟩, .lit "mainnet" (Eq.refl true)⟩, 1, .erc20 [3], 0⟩

/-- The wallet `[7, …]` pays one token to `[8, …]`, and then another one. -/
def tokenTransfers : List Transfer :=
  List.replicate 2 ⟨⟨List.replicate 20 7, fun _ => .ok (List.replicate 20 8)⟩, ⟨.hex, ""⟩,
    ⟨1, 0, by decide, by decide, by decide⟩⟩

/-- The id of the first envelope, which the node also answers for the second one. -/
def tokenId : TransactionId :=
  spelled.keccak ⟨1, 5, 1, 1, 1, [3], 0,
    (TransferRequest.erc20 (List.replicate 20 7) [3] (List.replicate 20 8) 1).input, List.replicate 20 7⟩

def tokenAnswers : List Reply :=
  List.replicate 20 { nonce := .ok 5, context := .ok ⟨1, 1, 1, 1⟩, balance := .ok 9,
                      signature := .ok (List.replicate 20 7), broadcast := .ok tokenId }

theorem batch_report_stops :
    ∃ error, (tokenBatch.execute spelled {} tokenTransfers tokenAnswers).outcome = .inr (.error error) ∧
      error.accepted.length = 1 ∧ error.failedIndex = some 1 ∧
      Report spelled (tokenBatch.check tokenTransfers)
        (tokenBatch.execute spelled {} tokenTransfers tokenAnswers).state
        (tokenBatch.execute spelled {} tokenTransfers tokenAnswers).trace (.error error) := by
  have hreport := (batch_report spelled_injective idle_empty tokenBatch tokenTransfers).1 tokenAnswers
  have hstops : (match (tokenBatch.execute spelled {} tokenTransfers tokenAnswers).outcome with
      | .inr (.error error) => error.accepted.length == 1 && error.failedIndex == some 1
      | _ => false) = true := by decide +kernel
  split at hstops
  · rename_i error houtcome
    simp only [Bool.and_eq_true, beq_iff_eq] at hstops
    exact ⟨error, houtcome, hstops.1, hstops.2, hreport _ houtcome⟩
  · cases hstops

end PaymentSdk.Ethereum
