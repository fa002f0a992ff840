import PaymentSdk.Lib.Checked
import PaymentSdk.Solana.Outcome
import PaymentSdk.Solana.Sufficiency

/-!
# What a prepared batch rests on

A batch is prepared from one snapshot of the accounts and one quote for each message. The answers
of the node are followed from the start of a send to its batch, whatever other sends do meanwhile.
-/

open Interaction Checked

namespace PaymentSdk.Solana

open Wallets (ErrorKind Error SendError)

/-! ## Answers -/

section Answers

variable {α : Type} {reply : Reply} {floor : UInt64}

theorem race_ok {failed cancelled : String} {result : Except RpcError α} {value : α}
    (h : race failed cancelled reply result = .ok value) : result = .ok value := by
  unfold race at h
  split at h
  · cases h
  · cases result with
    | error e => cases h
    | ok v =>
      cases h
      rfl

theorem requireFloor_ok {wire : Context α} {u : Unit} (h : Reply.requireFloor wire (some floor) = .ok u) :
    floor ≤ wire.slot := by
  by_contra hlt
  rw [Reply.requireFloor, if_pos (by simpa using hlt)] at h
  cases h

theorem getSlot_floor {slot : UInt64} (h : reply.getSlot (some floor) = .ok slot) : floor ≤ slot := by
  obtain ⟨answer, -, h⟩ := bind_ok.mp h
  by_cases hlt : answer < floor
  · simp [hlt, bind, Except.bind, throw, throwThe, MonadExceptOf.throw] at h
  · simp only [Option.any_some, decide_eq_true_eq, hlt, if_false] at h
    cases h
    exact UInt64.not_lt.mp hlt

theorem getAccounts_ok {addresses : List Address} {context : Context (List (Option AccountSnapshot))}
    (h : reply.getAccounts addresses (some floor) = .ok context) :
    floor ≤ context.slot ∧ context.value.length = addresses.length := by
  unfold Reply.getAccounts at h
  split_ifs at h
  · cases h
  · simp only [bind_ok] at h
    obtain ⟨wire, -, _, hfloor, h⟩ := h
    split_ifs at h with hlength
    · cases h
    · cases h
      exact ⟨requireFloor_ok hfloor, not_not.mp hlength⟩

theorem latestBlockhash_floor {wire : Context Lifetime} (h : reply.latestBlockhash floor = .ok wire) :
    floor ≤ wire.slot := by
  simp only [Reply.latestBlockhash, bind_ok, pure_ok] at h
  obtain ⟨_, -, _, hfloor, rfl⟩ := h
  exact requireFloor_ok hfloor

theorem feeForMessage_floor {fee : Context UInt64} (h : reply.feeForMessage floor = .ok fee) : floor ≤ fee.slot := by
  simp only [Reply.feeForMessage, bind_ok] at h
  obtain ⟨wire, -, _, hfloor, h⟩ := h
  split at h
  · cases h
  · cases h
    exact requireFloor_ok hfloor

theorem simulate_floor {slot : UInt64} (h : reply.simulate floor = .ok slot) : floor ≤ slot := by
  simp only [Reply.simulate, bind_ok] at h
  obtain ⟨wire, -, _, hfloor, h⟩ := h
  split_ifs at h
  · cases h
  · cases h
    exact requireFloor_ok hfloor

end Answers

/-! ## Balances, messages and envelopes -/

/-- The balance of an account in a snapshot. One that does not exist has nothing. -/
def balanceIn (snapshot : List (Address × Option AccountSnapshot)) (a : Address) : UInt64 :=
  ((snapshot.lookup a).join.map (·.lamports)).getD 0

theorem classify_ok {snapshot : List (Address × Option AccountSnapshot)}
    {items : List (ResolvedTransfer × Address)} {balances : List UInt64} (h : classify snapshot items = .ok balances) :
    balances = items.map fun p => balanceIn snapshot p.1.source := by
  induction items generalizing balances with
  | nil =>
    cases h
    rfl
  | cons p rest ih =>
    obtain ⟨t, destination⟩ := p
    unfold classify at h
    cases hsource : snapshot.lookup t.source with
    | none =>
      rw [hsource] at h
      cases h
    | some source =>
      cases hdestination : snapshot.lookup destination with
      | none =>
        rw [hsource, hdestination] at h
        simp only [bind, Except.bind] at h
        split at h <;> cases h
      | some account =>
        rw [hsource, hdestination] at h
        simp only [bind, Except.bind, throw, throwThe, MonadExceptOf.throw, pure, Except.pure] at h
        repeat' split at h
        all_goals cases h
        rename_i values hrest
        rw [List.map_cons, ← ih hrest, balanceIn, hsource]
        rfl

variable {crates : Crates} {keys : List (Address × Key)}

/-- The message that a transfer becomes. -/
structure Carries (t : ResolvedTransfer) (destination : Address) (m : Message) : Prop where
  source : m.source = t.source
  destination : m.destination = destination
  amount : m.amount = t.amount

theorem messagesFrom_ok {reply : Reply} {lifetime : Lifetime} {memos values : List (List UInt8)} {position : Nat}
    {items : List (ResolvedTransfer × Address)} {messages : List (Message × List UInt8)}
    (h : messagesFrom crates reply lifetime memos values position items = .ok messages) :
    List.Forall₂ (fun p m => Carries p.1 p.2 m.1) items messages := by
  induction items generalizing memos values position messages with
  | nil =>
    cases h
    exact .nil
  | cons p rest ih =>
    obtain ⟨t, destination⟩ := p
    unfold messagesFrom at h
    simp only [bind, Except.bind, throw, throwThe, MonadExceptOf.throw, pure, Except.pure] at h
    cases hensure : ensure reply with
    | error e =>
      rw [hensure] at h
      cases h
    | ok u =>
      cases hmemo : reply.memo position with
      | none =>
        rw [hensure, hmemo] at h
        cases h
      | some memo =>
        cases hmessage : Message.nativeTransfer t.source destination t.amount memo lifetime with
        | none =>
          rw [hensure, hmemo] at h
          simp only [hmessage] at h
          split at h <;> cases h
        | some message =>
          cases hbytes : crates.wireBytes message with
          | none =>
            rw [hensure, hmemo] at h
            simp only [hmessage, hbytes] at h
            split at h <;> cases h
          | some bytes =>
            rw [hensure, hmemo] at h
            simp only [hmessage, hbytes] at h
            repeat' split at h
            all_goals cases h
            rename_i hrest
            refine .cons ?_ (ih hrest)
            unfold Message.nativeTransfer at hmessage
            split_ifs at hmessage
            cases hmessage
            exact ⟨rfl, rfl, rfl⟩

/-- The envelope of a transfer: its index, its source and a signature by the source's own key. -/
structure SignedFor (crates : Crates) (keys : List (Address × Key)) (floor : UInt64) (t : ResolvedTransfer)
    (m : Message) (e : Envelope) : Prop where
  index : e.index = t.index
  source : e.source = t.source
  message : e.message = m
  floor : e.floor = floor
  signer : ∃ key bytes, keys.lookup t.source = some key ∧ key.address = t.source ∧
    crates.wireBytes m = some bytes ∧ e.signature = crates.sign key.secret bytes ∧
    crates.verify t.source bytes e.signature = true ∧ e.id = crates.renderSignature e.signature

theorem signedFor_of_sign {t : ResolvedTransfer} {m : Message} {floor : UInt64} {lifetime : Lifetime} {key : Key}
    {e : Envelope} (hkey : keys.lookup t.source = some key)
    (h : Envelope.sign crates t.source t.index m floor lifetime key = some e) :
    SignedFor crates keys floor t m e := by
  simp only [Envelope.sign, Option.bind_eq_bind, Option.bind_eq_some_iff, Option.guard_eq_some'] at h
  obtain ⟨_, ⟨haddress, -, -⟩, bytes, hbytes, _, -, _, hverify, _, -, signed, -, h⟩ := h
  cases h
  rw [haddress] at hverify
  exact ⟨rfl, rfl, rfl, rfl, key, bytes, hkey, haddress, hbytes, rfl, hverify, rfl⟩

theorem envelopesFrom_ok {reply : Reply} {floor : UInt64} {lifetime : Lifetime} {ids : List Id}
    {values : List (List UInt8)} {drafts : List (ResolvedTransfer × (Message × List UInt8))}
    {envelopes : List Envelope} (h : envelopesFrom crates reply keys floor lifetime ids values drafts = .ok envelopes) :
    List.Forall₂ (fun d e => SignedFor crates keys floor d.1 d.2.1 e) drafts envelopes ∧
      (envelopes.map (·.id)).Nodup ∧ (envelopes.map (·.signed)).Nodup ∧
      ∀ e ∈ envelopes, e.id ∉ ids ∧ e.signed ∉ values := by
  induction drafts generalizing ids values envelopes with
  | nil =>
    cases h
    exact ⟨.nil, .nil, .nil, by simp⟩
  | cons d rest ih =>
    obtain ⟨t, message, bytes⟩ := d
    unfold envelopesFrom at h
    simp only [bind, Except.bind, throw, throwThe, MonadExceptOf.throw, pure, Except.pure] at h
    cases hensure : ensure reply with
    | error e =>
      rw [hensure] at h
      cases h
    | ok u =>
      cases hkey : keys.lookup t.source with
      | none =>
        rw [hensure, hkey] at h
        cases h
      | some key =>
        cases hsign : Envelope.sign crates t.source t.index message floor lifetime key with
        | none =>
          rw [hensure, hkey] at h
          simp only [hsign] at h
          cases h
        | some envelope =>
          rw [hensure, hkey] at h
          simp only [hsign] at h
          split_ifs at h with hseen
          split at h
          · cases h
          · rename_i others hrest
            cases h
            obtain ⟨hall, hids, hvalues, hnew⟩ := ih hrest
            refine ⟨.cons (signedFor_of_sign hkey hsign) hall, ?_, ?_, ?_⟩
            · rw [List.map_cons, List.nodup_cons, List.mem_map]
              refine ⟨?_, hids⟩
              rintro ⟨e, he, heq⟩
              exact (hnew e he).1 (heq ▸ List.mem_cons_self)
            · rw [List.map_cons, List.nodup_cons, List.mem_map]
              refine ⟨?_, hvalues⟩
              rintro ⟨e, he, heq⟩
              exact (hnew e he).2 (heq ▸ List.mem_cons_self)
            · intro e he
              rcases List.mem_cons.mp he with rfl | he
              · exact not_or.mp hseen
              · exact ⟨fun h => (hnew e he).1 (List.mem_cons_of_mem _ h),
                  fun h => (hnew e he).2 (List.mem_cons_of_mem _ h)⟩

/-! ## The answers behind an acquisition -/

/-- What is computed before the first await. -/
structure Planned (crates : Crates) (resolved : List ResolvedTransfer) (a : Acquiring) : Prop where
  ordered : resolved.map (·.index) = List.range resolved.length
  transfers : a.transfers = resolved
  destinations : resolved.mapM (·.destinationOf crates) = .ok a.destinations
  query : a.query = ((resolved.zip a.destinations).flatMap fun p => [p.1.source, p.2]).eraseDups

theorem planned_of_plan {resolved : List ResolvedTransfer} {reply : Reply} {leases : Finset Address} {a : Acquiring}
    (hordered : resolved.map (·.index) = List.range resolved.length)
    (h : Acquire.plan crates reply resolved leases = .ok a) : Planned crates resolved a := by
  simp only [Acquire.plan, bind_ok, pure_ok] at h
  obtain ⟨_, -, destinations, hdestinations, _, -, rfl⟩ := h
  exact ⟨hordered, rfl, hdestinations, rfl⟩

/-- The answers that an acquisition has had. The third one is the slot and the fourth one the
accounts. -/
def Acquire.Backed (crates : Crates) (resolved : List ResolvedTransfer) (replies : List Reply) : Acquire → Prop
  | leasing transfers => replies = [] ∧ transfers = resolved
  | health a => Planned crates resolved a ∧ ∃ r₀, replies = [r₀]
  | opening a => Planned crates resolved a ∧ ∃ r₀ r₁, replies = [r₀, r₁]
  | accounts a slot => Planned crates resolved a ∧ ∃ r₀ r₁ r₂, replies = [r₀, r₁, r₂] ∧ r₂.getSlot none = .ok slot
  | closing a context => Planned crates resolved a ∧ ∃ r₀ r₁ r₂ r₃ slot, replies = [r₀, r₁, r₂, r₃] ∧
      r₂.getSlot none = .ok slot ∧ r₃.getAccounts a.query (some slot) = .ok context
  | failing _ _ => True

/-- The one snapshot of an acquisition, between two readings of the slot. -/
structure Observed (crates : Crates) (resolved : List ResolvedTransfer) (replies : List Reply)
    (acquired : AcquiredAccounts) (snapshot : List (Address × Option AccountSnapshot)) : Prop where
  transfers : acquired.transfers = resolved
  ordered : resolved.map (·.index) = List.range resolved.length
  destinations : resolved.mapM (·.destinationOf crates) = .ok acquired.destinations
  balances : acquired.balances = resolved.map fun t => balanceIn snapshot t.source
  taken : ∃ r₀ r₁ r₂ r₃ r₄ query opening context, replies = [r₀, r₁, r₂, r₃, r₄] ∧
    query = ((resolved.zip acquired.destinations).flatMap fun p => [p.1.source, p.2]).eraseDups ∧
    r₂.getSlot none = .ok opening ∧ r₃.getAccounts query (some opening) = .ok context ∧
    r₄.getSlot (some context.slot) = .ok acquired.floor ∧ snapshot = query.zip context.value

theorem length_of_mapM {α β ε : Type} {f : α → Except ε β} {l : List α} {r : List β} (h : l.mapM f = .ok r) :
    r.length = l.length := (mapM_ok.mp h).length_eq.symm

theorem observed_of_finish {resolved : List ResolvedTransfer} {r₀ r₁ r₂ r₃ reply : Reply} {a : Acquiring}
    {slot : UInt64} {context : Context (List (Option AccountSnapshot))} {acquired : AcquiredAccounts}
    (hplanned : Planned crates resolved a) (hslot : r₂.getSlot none = .ok slot)
    (haccounts : r₃.getAccounts a.query (some slot) = .ok context)
    (h : Acquire.finish reply a context = .ok acquired) :
    ∃ snapshot, Observed crates resolved [r₀, r₁, r₂, r₃, reply] acquired snapshot := by
  simp only [Acquire.finish, bind_ok, pure_ok] at h
  obtain ⟨floor, hfloor, _, -, balances, hbalances, _, -, rfl⟩ := h
  obtain ⟨hordered, htransfers, hdestinations, hquery⟩ := hplanned
  refine ⟨a.query.zip context.value, htransfers, hordered, hdestinations, ?_, ?_⟩
  · rw [classify_ok hbalances, htransfers]
    have hlength := length_of_mapM hdestinations
    have hfst : (resolved.zip a.destinations).map Prod.fst = resolved := List.map_fst_zip (by omega)
    conv_rhs => rw [← hfst, List.map_map]
    rfl
  · exact ⟨r₀, r₁, r₂, r₃, reply, a.query, slot, context, rfl, hquery, hslot, haccounts, race_ok hfloor, rfl⟩

/-- What one more answer leads to. -/
def Acquire.After (crates : Crates) (resolved : List ResolvedTransfer) (replies : List Reply) :
    Acquire ⊕ Except SendError AcquiredAccounts → Prop
  | .inl task => task.Backed crates resolved replies
  | .inr (.error _) => True
  | .inr (.ok acquired) => ∃ snapshot, Observed crates resolved replies acquired snapshot

theorem Acquire.after_follow {α : Type} {resolved : List ResolvedTransfer} {replies : List Reply} {s : SourceState}
    {leases : Finset Address} {result : Except SendError α} {next : α → Acquire}
    (h : ∀ value, result = .ok value → (next value).Backed crates resolved replies) :
    Acquire.After crates resolved replies (Acquire.follow s leases result next).outcome := by
  cases result with
  | error e => trivial
  | ok value => exact h value rfl

/-- **Step.** One more answer. -/
theorem Acquire.after_poll {resolved : List ResolvedTransfer} {replies : List Reply} {task : Acquire}
    (s : SourceState) (reply : Reply) (h : task.Backed crates resolved replies) :
    Acquire.After crates resolved (replies ++ [reply]) (task.poll crates s reply).outcome := by
  cases task with
  | leasing transfers =>
    obtain ⟨rfl, rfl⟩ := h
    rw [Acquire.poll]
    split_ifs with hordered
    · trivial
    · cases hlease : s.lease transfers (1 < transfers.length) with
      | error e => trivial
      | ok p =>
        obtain ⟨leases, s'⟩ := p
        refine Acquire.after_follow ?_
        intro a ha
        exact ⟨planned_of_plan (not_not.mp hordered) ha, reply, rfl⟩
  | health a =>
    obtain ⟨hplanned, r₀, rfl⟩ := h
    refine Acquire.after_follow ?_
    intro _ _
    exact ⟨hplanned, r₀, reply, rfl⟩
  | opening a =>
    obtain ⟨hplanned, r₀, r₁, rfl⟩ := h
    refine Acquire.after_follow ?_
    intro slot hslot
    simp only [bind_ok, pure_ok] at hslot
    obtain ⟨_, hslot, _, -, rfl⟩ := hslot
    exact ⟨hplanned, r₀, r₁, reply, rfl, race_ok hslot⟩
  | accounts a slot =>
    obtain ⟨hplanned, r₀, r₁, r₂, rfl, hslot⟩ := h
    refine Acquire.after_follow ?_
    intro context haccounts
    simp only [bind_ok, pure_ok] at haccounts
    obtain ⟨_, haccounts, _, -, rfl⟩ := haccounts
    exact ⟨hplanned, r₀, r₁, r₂, reply, slot, rfl, hslot, race_ok haccounts⟩
  | closing a context =>
    obtain ⟨hplanned, r₀, r₁, r₂, r₃, slot, rfl, hslot, haccounts⟩ := h
    rw [Acquire.poll]
    cases hfinish : Acquire.finish reply a context with
    | error e => trivial
    | ok acquired => exact observed_of_finish hplanned hslot haccounts hfinish
  | failing leases e => trivial

/-! ## The answers behind a preparation -/

/-- The fees of the messages, one answer after another. Each moves the floor of the next. -/
def quoteFees (floor : UInt64) (replies : List Reply) : Except RpcError (UInt64 × List UInt64) :=
  replies.foldlM (fun (quoted : UInt64 × List UInt64) reply => do
    let fee ← reply.feeForMessage quoted.1
    pure (fee.slot, quoted.2 ++ [fee.value])) (floor, [])

/-- Every simulation raises the floor for the next. -/
def simulateAll (floor : UInt64) (replies : List Reply) : Except RpcError UInt64 :=
  replies.foldlM (fun floor reply => reply.simulate floor) floor

/-- A lifetime after the snapshot, and the messages with it. -/
def Built (crates : Crates) (resolved : List ResolvedTransfer) (replies : List Reply) (p : Preparing)
    (snapshot : List (Address × Option AccountSnapshot)) (floor : UInt64) : Prop :=
  ∃ first reply, replies = first ++ [reply] ∧ Observed crates resolved first p.acquired snapshot ∧
    reply.latestBlockhash p.acquired.floor = .ok ⟨floor, p.lifetime⟩ ∧
    messagesFrom crates reply p.lifetime [] [] 0 (p.acquired.transfers.zip p.acquired.destinations) = .ok p.messages

/-- The envelopes are signed at the floor of the last quote. -/
structure Quoted (crates : Crates) (keys : List (Address × Key)) (resolved : List ResolvedTransfer)
    (replies : List Reply) (p : Preparing) (snapshot : List (Address × Option AccountSnapshot)) (fees : List UInt64)
    (envelopes : List Envelope) (floor : UInt64) : Prop where
  quoted : ∃ first quotes start, replies = first ++ quotes ∧ Built crates resolved first p snapshot start ∧
    quoteFees start quotes = .ok (floor, fees)
  length : fees.length = p.messages.length
  sufficient : checkSufficiency p.acquired.transfers p.acquired.balances fees = .ok ()
  signed : ∃ reply, envelopesFrom crates reply keys floor p.lifetime [] [] (p.acquired.transfers.zip p.messages) =
    .ok envelopes

/-- The answers that a preparation has had. -/
def Prepare.Backed (crates : Crates) (keys : List (Address × Key)) (resolved : List ResolvedTransfer)
    (replies : List Reply) : Prepare → Prop
  | lifetime acquired => ∃ snapshot, Observed crates resolved replies acquired snapshot
  | fees p quoted => ∃ first quotes snapshot start, replies = first ++ quotes ∧
      Built crates resolved first p snapshot start ∧ quoteFees start quotes = .ok (p.floor, quoted) ∧
      quoted.length < p.messages.length
  | simulating p envelopes position => ∃ first simulations snapshot fees floor, replies = first ++ simulations ∧
      Quoted crates keys resolved first p snapshot fees envelopes floor ∧
      simulateAll floor simulations = .ok p.floor ∧ simulations.length = position ∧ position < envelopes.length
  | failing _ _ => True

/-- A batch, with the answers that it rests on. -/
def PreparedBatch.Backed (crates : Crates) (keys : List (Address × Key)) (resolved : List ResolvedTransfer)
    (replies : List Reply) (batch : PreparedBatch) : Prop :=
  ∃ first simulations p snapshot fees floor, replies = first ++ simulations ∧
    Quoted crates keys resolved first p snapshot fees batch.envelopes floor ∧
    simulateAll floor simulations = .ok batch.floor ∧ simulations.length = batch.envelopes.length

def Prepare.After (crates : Crates) (keys : List (Address × Key)) (resolved : List ResolvedTransfer)
    (replies : List Reply) : Prepare ⊕ Except SendError PreparedBatch → Prop
  | .inl task => task.Backed crates keys resolved replies
  | .inr (.error _) => True
  | .inr (.ok batch) => batch.Backed crates keys resolved replies

section Steps

variable {resolved : List ResolvedTransfer} {p : Preparing}
  {snapshot : List (Address × Option AccountSnapshot)} {s : SourceState}

theorem Prepare.after_simulateNext (reply : Reply) {first : List Reply} (simulations : List Reply)
    {fees : List UInt64} {envelopes : List Envelope} {floor : UInt64} (h : Quoted crates keys resolved first p snapshot fees envelopes floor)
    (hfloor : simulateAll floor simulations = .ok p.floor) (hlength : simulations.length ≤ envelopes.length) :
    Prepare.After crates keys resolved (first ++ simulations)
      (Prepare.onward s (Prepare.simulateNext reply p envelopes simulations.length)).outcome := by
  unfold Prepare.simulateNext
  split
  · trivial
  · split_ifs with hlt
    · exact ⟨first, simulations, snapshot, fees, floor, rfl, h, hfloor, rfl, hlt⟩
    · exact ⟨first, simulations, p, snapshot, fees, floor, rfl, h, hfloor, by simp only; omega⟩

theorem Prepare.after_feeNext (reply : Reply) {first : List Reply} (quotes : List Reply) {start : UInt64}
    {quoted : List UInt64} (h : Built crates resolved first p snapshot start) (hquoted : quoteFees start quotes = .ok (p.floor, quoted))
    (hlength : quoted.length ≤ p.messages.length) :
    Prepare.After crates keys resolved (first ++ quotes)
      (Prepare.onward s (Prepare.feeNext crates keys reply p quoted)).outcome := by
  unfold Prepare.feeNext
  split_ifs with hlt
  · split
    · trivial
    · exact ⟨first, quotes, snapshot, start, rfl, h, hquoted, hlt⟩
  · split
    · trivial
    · rename_i envelopes hsigned
      obtain ⟨_, hsufficient, henvelopes⟩ := bind_ok.mp hsigned
      have hall : Quoted crates keys resolved (first ++ quotes) p snapshot quoted envelopes p.floor :=
        ⟨⟨first, quotes, start, rfl, h, hquoted⟩, by omega, hsufficient, reply, henvelopes⟩
      rw [← List.append_nil (first ++ quotes)]
      exact Prepare.after_simulateNext reply [] hall rfl (Nat.zero_le _)

theorem quoteFees_snoc {reply : Reply} {start floor : UInt64} {quotes : List Reply} {quoted : List UInt64} {fee : Context UInt64}
    (h : quoteFees start quotes = .ok (floor, quoted)) (hfee : reply.feeForMessage floor = .ok fee) :
    quoteFees start (quotes ++ [reply]) = .ok (fee.slot, quoted ++ [fee.value]) := by
  unfold quoteFees at h ⊢
  rw [List.foldlM_append, h]
  simp only [List.foldlM_cons, List.foldlM_nil, bind, Except.bind, hfee, pure, Except.pure]

theorem simulateAll_snoc {reply : Reply} {start floor slot : UInt64} {simulations : List Reply}
    (h : simulateAll start simulations = .ok floor) (hslot : reply.simulate floor = .ok slot) :
    simulateAll start (simulations ++ [reply]) = .ok slot := by
  unfold simulateAll at h ⊢
  rw [List.foldlM_append, h]
  simp only [List.foldlM_cons, List.foldlM_nil, bind, Except.bind, hslot, pure, Except.pure]

theorem simulation_ok {reply : Reply} {index : Nat} {floor slot : UInt64} (h : Prepare.simulation reply index floor = .ok slot) :
    reply.simulate floor = .ok slot := by
  unfold Prepare.simulation at h
  split_ifs at h
  split at h
  · cases h
    assumption
  · cases h
  · cases h

/-- **Step.** One more answer. -/
theorem Prepare.after_poll {replies : List Reply} {task : Prepare} (s : SourceState) (reply : Reply)
    (h : task.Backed crates keys resolved replies) :
    Prepare.After crates keys resolved (replies ++ [reply]) (task.poll crates keys s reply).outcome := by
  cases task with
  | lifetime acquired =>
    obtain ⟨snapshot, hobserved⟩ := h
    rw [Prepare.poll]
    split
    · trivial
    · rename_i wire hwire
      split
      · trivial
      · rename_i messages hmessages
        have hbuilt : Built crates resolved (replies ++ [reply]) ⟨wire.slot, acquired, wire.value, messages⟩ snapshot
            wire.slot := ⟨replies, reply, rfl, hobserved, race_ok hwire, hmessages⟩
        rw [← List.append_nil (replies ++ [reply])]
        exact Prepare.after_feeNext reply [] hbuilt rfl (Nat.zero_le _)
  | fees p quoted =>
    obtain ⟨first, quotes, snapshot, start, rfl, hbuilt, hquoted, hlt⟩ := h
    rw [Prepare.poll]
    split
    · trivial
    · rename_i fee hfee
      rw [List.append_assoc]
      refine Prepare.after_feeNext (p := { p with floor := fee.slot }) reply (quotes ++ [reply]) hbuilt
        (quoteFees_snoc hquoted (race_ok hfee)) ?_
      simp only [List.length_append, List.length_singleton]
      omega
  | simulating p envelopes position =>
    obtain ⟨first, simulations, snapshot, fees, floor, rfl, hquoted, hfloor, rfl, hlt⟩ := h
    rw [Prepare.poll]
    split
    · trivial
    · rename_i slot hslot
      rw [List.append_assoc]
      have hsame : Quoted crates keys resolved first { p with floor := slot } snapshot fees envelopes floor :=
        ⟨hquoted.quoted, hquoted.length, hquoted.sufficient, hquoted.signed⟩
      have hnext := Prepare.after_simulateNext (s := s) reply (simulations ++ [reply]) hsame
        (simulateAll_snoc hfloor (simulation_ok hslot)) (by rw [List.length_append, List.length_singleton]; omega)
      rwa [List.length_append, List.length_singleton] at hnext
  | failing leases e => trivial

end Steps

/-! ## Runs -/

/-- The answers to one send. -/
def answersTo (i : Nat) (events : List Event) : List Reply :=
  events.filterMap fun
    | .poll j reply => if j = i then some reply else none
    | _ => none

/-- A caller rests on its send and on what was answered since. -/
def Begun (crates : Crates) (events : List Event) (i : Nat) : Caller → Prop
  | .acquiring keys task => ∃ before transfers after resolved, events = before ++ .send i transfers :: after ∧
      Coordinator.start crates transfers = .ok resolved ∧ keys = Coordinator.keys transfers ∧
      task.Backed crates resolved (answersTo i after)
  | .preparing keys task => ∃ before transfers after resolved, events = before ++ .send i transfers :: after ∧
      Coordinator.start crates transfers = .ok resolved ∧ keys = Coordinator.keys transfers ∧
      task.Backed crates keys resolved (answersTo i after)
  | .fresh | .submitting _ | .ended => True

theorem answersTo_poll (i : Nat) (events : List Event) (reply : Reply) :
    answersTo i (events ++ [.poll i reply]) = answersTo i events ++ [reply] := by
  simp [answersTo]

theorem answersTo_other {i : Nat} {event : Event} (h : ∀ reply, event ≠ .poll i reply) (events : List Event) :
    answersTo i (events ++ [event]) = answersTo i events := by
  rw [answersTo, List.filterMap_append]
  cases event with
  | poll j reply =>
    have hj : j ≠ i := by
      rintro rfl
      exact h reply rfl
    simp [answersTo, hj]
  | send | drop | pollTask | dropTask => simp [answersTo]

theorem Begun.other {events : List Event} {i : Nat} {caller : Caller} {event : Event}
    (hbegun : Begun crates events i caller) (h : ∀ reply, event ≠ .poll i reply) :
    Begun crates (events ++ [event]) i caller := by
  cases caller with
  | fresh | submitting | ended => trivial
  | acquiring keys task | preparing keys task =>
    obtain ⟨before, transfers, after, resolved, rfl, hstart, hkeys, hbacked⟩ := hbegun
    refine ⟨before, transfers, after ++ [event], resolved, by simp, hstart, hkeys, ?_⟩
    rwa [answersTo_other h]

theorem sends_act_self (w : World) (i : Nat) (s' : SourceState) (x : Send) (trace : List Trace) :
    (w.act i s' x trace).sends i = x := Function.update_self ..

theorem sends_step_other {w : World} (hinv : w.Inv) {event : Event} {i : Nat} (h : event.index ≠ i) :
    (w.step crates event).sends i = w.sends i := by
  have hacts : Acts crates w event (w.step crates event) := acts_step hinv.ok event
  generalize w.step crates event = w' at hacts
  cases hacts with
  | stays => rfl
  | caller => exact Function.update_of_ne h.symm ..
  | task => exact Function.update_of_ne h.symm ..

theorem begun_of_late {events : List Event} {i : Nat} {caller : Caller} (h : ¬ caller.Preparing) :
    Begun crates events i caller := by
  cases caller with
  | fresh | acquiring | preparing => exact absurd trivial h
  | submitting | ended => trivial

/-- Only a poll takes a caller from one await to the next. -/
theorem begun_poll {w : World} {events : List Event} {i : Nat} (reply : Reply)
    (h : Begun crates events i (w.sends i).caller) :
    Begun crates (events ++ [.poll i reply]) i ((w.poll crates i reply).sends i).caller := by
  unfold World.poll
  cases hcaller : (w.sends i).caller with
  | fresh =>
    simp only
    rw [hcaller]
    trivial
  | ended =>
    simp only
    rw [hcaller]
    trivial
  | acquiring keys task =>
    rw [hcaller] at h
    obtain ⟨before, transfers, after, resolved, rfl, hstart, hkeys, hbacked⟩ := h
    have hnext := Acquire.after_poll w.state reply hbacked
    simp only
    split
    · rename_i hpoll
      rw [hpoll, ← answersTo_poll] at hnext
      rw [World.setCaller, sends_act_self]
      exact ⟨before, transfers, after ++ [Event.poll i reply], resolved, by simp, hstart, hkeys, hnext⟩
    · rw [World.finish, sends_act_self]
      trivial
    · rename_i acquired hpoll
      rw [hpoll, ← answersTo_poll] at hnext
      rw [World.setCaller, sends_act_self]
      refine ⟨before, transfers, after ++ [Event.poll i reply], resolved, by simp, hstart, hkeys, ?_⟩
      unfold Prepare.start
      split
      · trivial
      · exact hnext
  | preparing keys task =>
    rw [hcaller] at h
    obtain ⟨before, transfers, after, resolved, rfl, hstart, hkeys, hbacked⟩ := h
    have hnext := Prepare.after_poll w.state reply hbacked
    simp only
    split
    · rename_i hpoll
      rw [hpoll, ← answersTo_poll] at hnext
      rw [World.setCaller, sends_act_self]
      exact ⟨before, transfers, after ++ [Event.poll i reply], resolved, by simp, hstart, hkeys, hnext⟩
    · rw [World.finish, sends_act_self]
      trivial
    · rw [World.setCaller, sends_act_self]
      trivial
  | submitting task =>
    have hlate : ¬ (w.sends i).caller.Preparing := by
      rw [hcaller]
      exact id
    have hacts : Acts crates w (.poll i reply) (w.pollSubmit i reply task) := acts_pollSubmit task
    simp only
    generalize w.pollSubmit i reply task = w' at hacts
    apply begun_of_late
    cases hacts with
    | stays => exact hlate
    | caller _ early said =>
      rw [Event.index, sends_act_self]
      exact fun hearly => hlate (early hearly).1

theorem caller_dropTask (w : World) (i : Nat) : ((w.dropTask i).sends i).caller = (w.sends i).caller := by
  unfold World.dropTask
  split
  · split_ifs
    · rfl
    · rw [sends_act_self]
  · rfl

theorem caller_pollTask (w : World) (i : Nat) (reply : Reply) :
    ((w.pollTask crates i reply).sends i).caller = (w.sends i).caller := by
  unfold World.pollTask
  split
  · rfl
  · split
    · rfl
    · exact caller_dropTask w i
    · rw [sends_act_self]

/-- **Step.** Every event. -/
theorem begun_step {w : World} (hinv : w.Inv) {events : List Event} {i : Nat}
    (h : Begun crates events i (w.sends i).caller) (event : Event) :
    Begun crates (events ++ [event]) i ((w.step crates event).sends i).caller := by
  by_cases hi : event.index = i
  · subst hi
    cases event with
    | poll i reply => exact begun_poll reply h
    | send i transfers =>
      rw [World.step]
      split
      · split
        · rw [World.finish, Event.index, sends_act_self]
          trivial
        · rename_i resolved hstart
          rw [World.setCaller, Event.index, sends_act_self]
          exact ⟨events, transfers, [], resolved, rfl, hstart, rfl, rfl, rfl⟩
      · exact h.other (by simp)
    | drop i =>
      have hsame : Begun crates (events ++ [.drop i]) i (w.sends i).caller := h.other (by simp)
      rw [World.step, World.drop, Event.index]
      split
      all_goals first
        | exact hsame
        | (rw [World.setCaller, sends_act_self]; trivial)
        | (rw [sends_act_self]; trivial)
    | pollTask i reply =>
      rw [World.step, Event.index, caller_pollTask]
      exact h.other (by simp)
    | dropTask i =>
      rw [World.step, Event.index, caller_dropTask]
      exact h.other (by simp)
  · rw [sends_step_other hinv hi]
    refine h.other ?_
    rintro reply rfl
    exact hi rfl

theorem begun_run (crates : Crates) (events : List Event) (i : Nat) :
    Begun crates events i ((World.run crates events).sends i).caller := by
  induction events using List.reverseRecOn with
  | nil => trivial
  | append_singleton events event ih =>
    have hrun : World.run crates (events ++ [event]) = (World.run crates events).step crates event := by
      rw [World.run, List.foldl_append]
      rfl
    rw [hrun]
    exact begun_step (World.inv_run crates events) ih event

end PaymentSdk.Solana
