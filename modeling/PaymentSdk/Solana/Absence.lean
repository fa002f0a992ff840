import PaymentSdk.Redb.Reading
import PaymentSdk.Solana.Conservation
import PaymentSdk.Solana.Outcome

/-!
# An envelope that is reported absent never lands

A reconciler reads the status of an envelope, pages through the history of its source and reads
the block height, while the synchronizer commits blocks. Every page has to be read at one
checkpoint, so together they are the history of the blocks up to that checkpoint.
-/

open Interaction KvStore

namespace PaymentSdk.Solana

open Redb (Value Committed HistoryCursor decodeTransaction)
open Redb.Committed (Held Grows Reading)

variable {size : Value → Bool}

/-! ## Reconciliation -/

/-- What a `Reconciler` holds. Its RPC client and its progress channel answer with a `Reply`. -/
structure Reconciler where
  crates : Crates
  index : Redb.Index
  scope : IndexScope

/-- What an inspection returns at this poll. -/
def Resolve.returns (e : Envelope) (reply : Reply) : Resolve → Option Evidence
  | inspecting task => (task.poll e reply).getRight?
  | waiting => none

/-- A call of `resolve` and the index that it reads. `returned` has the evidence of each inspection.
No task is left once it has returned, and no read where it waits for something else. -/
structure Reconciliation where
  committed : Committed
  sources : SourceState
  task : Option Resolve
  read : Option (Prog (storeCalls Value) Reply)
  returned : List Evidence

namespace Reconciler

variable (self : Reconciler) (e : Envelope)

/-- The read of the index that a task waits for. -/
def awaited : Resolve → Option (Prog (storeCalls Value) Reply)
  | .inspecting .checkpoint | .inspecting (.closing _) =>
    some (Prog.bind (self.index.checkpoint self.scope) fun r => .done { checkpoint := r })
  | .inspecting (.paging _ after) =>
    some (Prog.bind (self.index.history (Inspect.query self.crates self.scope e after)) fun r => .done { history := r })
  | .inspecting .status | .inspecting (.height _) | .waiting => none

def start (committed : Committed) (sources : SourceState) : Reconciliation :=
  ⟨committed, sources, some (.inspecting .status), none, []⟩

def advance (w : Reconciliation) (task : Resolve) (reply : Reply) : Reconciliation :=
  let progress := task.poll e w.sources reply
  let returned := w.returned ++ (task.returns e reply).toList
  match progress.outcome with
  | .inl next => { w with sources := progress.state, task := some next, read := self.awaited e next, returned }
  | .inr _ => { w with sources := progress.state, task := none, read := none, returned }

/-- Blocks are added, and other sends change the sources. A pending read makes a storage call or
breaks, and any other wait ends with an answer. -/
inductive Event where
  | commit (a : BlockAddition)
  | others (sources : SourceState)
  | storage
  | broken (error : IndexError)
  | answer (reply : Reply)

def step (size : Value → Bool) (w : Reconciliation) : Event → Reconciliation
  | .commit a => { w with committed := w.committed.add size self.index.scope a }
  | .others sources => { w with sources }
  | .storage => match w.task, w.read with
    | some task, some (.done reply) => self.advance e w task reply
    | some _, some (.call op next) =>
      let served := Committed.serve size op w.committed
      { w with committed := served.2, read := some (next served.1) }
    | _, _ => w
  | .broken error => match w.task, w.read with
    | some task, some _ => self.advance e w task { checkpoint := .error error, history := .error error }
    | _, _ => w
  | .answer reply => match w.task, w.read with
    | some task, none => self.advance e w task reply
    | _, _ => w

def run (size : Value → Bool) (events : List Event) (w : Reconciliation) : Reconciliation :=
  events.foldl (self.step e size) w

/-! ## What a scan has seen -/

def entries (c : Committed) : List (KvStore.Key × Stored Value) :=
  c.store.under (Redb.Keys.historyPrefix self.index.scope (Inspect.sourceAddress self.crates self.scope e))

/-- The history key a cursor goes on after. -/
def cursorKey (cursor : HistoryCursor) : KvStore.Key :=
  Redb.Keys.history self.index.scope (Inspect.sourceAddress self.crates self.scope e) cursor.position.height
    cursor.position.transaction

/-- The transaction is not among these entries. -/
def Clear (entries : List (KvStore.Key × Stored Value)) : Prop :=
  ∀ x ∈ entries, ∀ t, decodeTransaction x.2.value = .ok t → t.transactionId.value.str ≠ e.id

/-- `c` was the checkpoint, and nothing but additions happened since. -/
structure Base (r : Reconciler) (size : Value → Bool) (c : BlockRef) (base now : Committed) : Prop where
  held : Held size r.index.scope base
  tip : base.tip = some c
  grows : Grows size r.index.scope base now

/-- What an inspection knows where it waits. -/
def Knows (size : Value → Bool) (now : Committed) : Resolve → Prop
  | .inspecting (.paging c after) => ∃ base front rest, self.Base size c base now ∧
      ReadTo base.store (Redb.Keys.historyPrefix self.index.scope (Inspect.sourceAddress self.crates self.scope e))
        (after.map (self.cursorKey e)) front rest ∧ Clear e front
  | .inspecting (.closing c) | .inspecting (.height c) => ∃ base, self.Base size c base now ∧ Clear e (self.entries e base)
  | .inspecting .status | .inspecting .checkpoint | .waiting => True

/-- There was a checkpoint that no transaction of this lifetime is above, and the history below it
does not have the transaction. -/
def Excluded (size : Value → Bool) (now : Committed) : Prop :=
  ∃ c base, self.Base size c base now ∧ Clear e (self.entries e base) ∧
    e.lifetime.lastValidBlockHeight ≤ c.height.val

/-- A pending read began where its task already knew what it knows. -/
def Pending (size : Value → Bool) (now : Committed) (task : Resolve) (q : Prog (storeCalls Value) Reply) : Prop :=
  ∃ p start mid, self.awaited e task = some p ∧ Held size self.index.scope start ∧ self.Knows e size start task ∧
    Prog.Reaches (Reading size self.index.scope) p start q mid ∧ Grows size self.index.scope mid now

/-- What an inspection in progress has read still bounds what the chain can have. -/
structure Inv (r : Reconciler) (e : Envelope) (size : Value → Bool) (w : Reconciliation) : Prop where
  held : Held size r.index.scope w.committed
  excluded : .absent ∈ w.returned → r.Excluded e size w.committed
  knows : ∀ task ∈ w.task, r.Knows e size w.committed task
  pending : ∀ task ∈ w.task, ∀ q ∈ w.read, r.Pending e size w.committed task q
  unread : ∀ task ∈ w.task, w.read = none → r.awaited e task = none

variable {self e} {c : BlockRef} {base now now' : Committed} {w : Reconciliation}

theorem base_grows (h : self.Base size c base now) (hgrows : Grows size self.index.scope now now') :
    self.Base size c base now' :=
  { h with grows := Redb.Committed.grows_trans h.grows hgrows }

theorem knows_grows {task : Resolve} (h : self.Knows e size now task) (hgrows : Grows size self.index.scope now now') :
    self.Knows e size now' task := by
  rcases task with (_ | _ | ⟨c, after⟩ | c | c) | _
  case inspecting.paging =>
    obtain ⟨base, front, rest, hbase, hread⟩ := h
    exact ⟨base, front, rest, base_grows hbase hgrows, hread⟩
  case inspecting.closing | inspecting.height =>
    obtain ⟨base, hbase, hclear⟩ := h
    exact ⟨base, base_grows hbase hgrows, hclear⟩
  all_goals trivial

theorem inv_grows (h : self.Inv e size w) (hgrows : Grows size self.index.scope w.committed now) :
    self.Inv e size { w with committed := now } where
  held := Redb.Committed.held_of_grows h.held hgrows
  excluded habsent := by
    obtain ⟨c, base, hbase, hclear⟩ := h.excluded habsent
    exact ⟨c, base, base_grows hbase hgrows, hclear⟩
  knows task htask := knows_grows (h.knows task htask) hgrows
  pending task htask q hq := by
    obtain ⟨p, start, mid, hp, hheld, hknows, hreaches, hmid⟩ := h.pending task htask q hq
    exact ⟨p, start, mid, hp, hheld, hknows, hreaches, Redb.Committed.grows_trans hmid hgrows⟩
  unread := h.unread

/-! ## One poll -/

/-- An answer that a pending read can give. -/
structure Answers (r : Reconciler) (e : Envelope) (size : Value → Bool) (now : Committed) (task : Resolve)
    (reply : Reply) : Prop where
  checkpoint : ∀ c, reply.checkpoint = .ok (some c) →
    task = .inspecting .checkpoint → ∃ base, r.Base size c base now
  page : ∀ c after page, task = .inspecting (.paging c after) → reply.history = .ok page → page.checkpoint = some c →
    ∃ base front rest, r.Base size c base now ∧
      ReadTo base.store (Redb.Keys.historyPrefix r.index.scope (Inspect.sourceAddress r.crates r.scope e))
        (after.map (r.cursorKey e)) front rest ∧ Clear e front ∧
      Prog.run (KvStore.serve size) (r.index.history (Inspect.query r.crates r.scope e after)) base.store =
        (.ok page, base.store)

theorem answers_done {task : Resolve} {reply : Reply} (h : self.Pending e size now task (.done reply)) :
    self.Answers e size now task reply := by
  obtain ⟨p, start, mid, hp, hheld, hknows, hreaches, hmid⟩ := h
  constructor
  case checkpoint =>
    rintro c hc rfl
    obtain rfl := Option.some.inj hp
    obtain ⟨p', hp', hread⟩ := Prog.reaches_map hreaches rfl
    cases p' with
    | call op next => cases hp'
    | done out =>
      cases hp'
      dsimp only at hc
      subst hc
      have htip := Redb.Committed.checkpoint_read_at hheld hread
      have hgrows := Redb.Committed.reading_grows hread
      exact ⟨mid, Redb.Committed.held_of_grows hheld hgrows, htip.symm, hmid⟩
  case page =>
    rintro c after page rfl hpage hcheckpoint
    obtain rfl := Option.some.inj hp
    obtain ⟨p', hp', hread⟩ := Prog.reaches_map hreaches rfl
    obtain ⟨base, front, rest, hbase, hto, hclear⟩ := hknows
    cases p' with
    | call op next => cases hp'
    | done out =>
      cases hp'
      dsimp only at hpage
      subst hpage
      have hgrows := Redb.Committed.grows_trans (Redb.Committed.reading_grows hread) hmid
      exact ⟨base, front, rest, base_grows hbase hgrows, hto, hclear,
        Redb.Committed.page_read_at hbase.held hbase.grows hread (hcheckpoint.trans hbase.tip.symm) (by simp [hbase.tip])⟩

/-- What the next task knows, or what a returned `absent` means. -/
def After (r : Reconciler) (e : Envelope) (size : Value → Bool) (now : Committed) : Inspect ⊕ Evidence → Prop
  | .inl next => r.Knows e size now (.inspecting next)
  | .inr evidence => evidence = .absent → r.Excluded e size now

theorem after_poll {task : Inspect} {reply : Reply} (hknows : self.Knows e size now (.inspecting task))
    (hanswers : (self.awaited e (.inspecting task)).isSome → self.Answers e size now (.inspecting task) reply) :
    self.After e size now (task.poll e reply) := by
  cases task with
  | status =>
    rw [Inspect.poll]
    split
    · rintro ⟨⟩
    · trivial
  | checkpoint =>
    rw [Inspect.poll]
    split
    · rename_i c hc
      obtain ⟨base, hbase⟩ := (hanswers rfl).checkpoint c hc rfl
      exact ⟨base, [], self.entries e base, hbase, readTo_start _ _, fun x hx => by cases hx⟩
    · rintro ⟨⟩
  | paging c after =>
    rw [Inspect.poll]
    split
    · rintro ⟨⟩
    rename_i page hpage
    split
    · rintro ⟨⟩
    rename_i hcheckpoint
    obtain ⟨base, front, rest, hbase, hread, hclear, hrun⟩ :=
      (hanswers rfl).page c after page rfl hpage (not_not.mp hcheckpoint)
    obtain ⟨hseen, hlast, hcursor⟩ := @Redb.Committed.history_alone size base self.index hbase.held
      (Inspect.query self.crates self.scope e after) page front rest base.store hread hrun
    split
    · rintro ⟨⟩
    rename_i hany
    have hpageClear : Clear e (front ++ rest.take 100) := by
      intro x hx t ht
      rcases List.mem_append.mp hx with hx | hx
      · exact hclear x hx t ht
      · obtain ⟨o, ho, hid⟩ := hseen x hx t ht
        intro hsame
        apply hany
        rw [List.any_eq_true]
        exact ⟨o, ho, by rw [hid, hsame]; simp⟩
    split
    · rename_i hnext
      have hrest : rest.take 100 = rest := List.take_of_length_le (hlast hnext)
      rw [hrest, ← hread.listing] at hpageClear
      exact ⟨base, hbase, hpageClear⟩
    · rename_i next hnext
      split
      · exact ⟨base, _, _, hbase, hcursor next hnext, hpageClear⟩
      · rintro ⟨⟩
  | closing c =>
    rw [Inspect.poll]
    split
    · split
      · exact hknows
      · rintro ⟨⟩
    · rintro ⟨⟩
  | height c =>
    rw [Inspect.poll]
    obtain ⟨base, hbase, hclear⟩ := hknows
    split
    · rintro ⟨⟩
    · split
      · rename_i hexpired
        exact fun _ => ⟨c, base, hbase, hclear, hexpired.2⟩
      · rintro ⟨⟩

/-! ## Every step -/

theorem pending_start {task : Resolve} {q : Prog (storeCalls Value) Reply} (hheld : Held size self.index.scope now)
    (hknows : self.Knows e size now task) (hq : self.awaited e task = some q) : self.Pending e size now task q :=
  ⟨q, now, now, hq, hheld, hknows, .here q now, Redb.Committed.grows_refl now⟩

theorem inv_next (h : self.Inv e size w) {next : Resolve} {sources : SourceState} {returned : List Evidence}
    (hknows : self.Knows e size w.committed next) (hreturned : .absent ∈ returned → .absent ∈ w.returned) :
    self.Inv e size ⟨w.committed, sources, some next, self.awaited e next, returned⟩ where
  held := h.held
  excluded habsent := h.excluded (hreturned habsent)
  knows := by
    rintro task ⟨⟩
    exact hknows
  pending := by
    rintro task ⟨⟩ q hq
    exact pending_start h.held hknows hq
  unread := by
    rintro task ⟨⟩ hnone
    exact hnone

theorem inv_over (h : self.Inv e size w) {sources : SourceState} {returned : List Evidence}
    (hexcluded : .absent ∈ returned → self.Excluded e size w.committed) :
    self.Inv e size ⟨w.committed, sources, none, none, returned⟩ where
  held := h.held
  excluded := hexcluded
  knows := by rintro task ⟨⟩
  pending := by rintro task ⟨⟩
  unread := by rintro task ⟨⟩

theorem advance_cases (w : Reconciliation) (task : Resolve) (reply : Reply) :
    (∃ next, self.advance e w task reply = ⟨w.committed, w.sources, some next, self.awaited e next, w.returned⟩ ∧
      (next = .inspecting .status ∨ ∃ t t', task = .inspecting t ∧ next = .inspecting t' ∧ t.poll e reply = .inl t')) ∨
    (∃ t x, task = .inspecting t ∧ t.poll e reply = .inr x ∧ (x = .present ∨ x = .absent) ∧ self.advance e w task reply =
      ⟨w.committed, w.sources.releaseGuard e.source, none, none, w.returned ++ [x]⟩) ∨
    ∃ checkpoint, self.advance e w task reply =
      ⟨w.committed, w.sources, some .waiting, none, w.returned ++ [.retry checkpoint]⟩ := by
  unfold advance Resolve.poll Resolve.returns
  cases task with
  | waiting => exact Or.inl ⟨.inspecting .status, by simp, Or.inl rfl⟩
  | inspecting t =>
    cases hpoll : t.poll e reply with
    | inl next => exact Or.inl ⟨.inspecting next, by simp [hpoll], Or.inr ⟨t, next, rfl, rfl, hpoll⟩⟩
    | inr evidence =>
      cases evidence with
      | present => exact Or.inr (Or.inl ⟨t, _, rfl, hpoll, Or.inl rfl, by simp [hpoll]⟩)
      | absent => exact Or.inr (Or.inl ⟨t, _, rfl, hpoll, Or.inr rfl, by simp [hpoll]⟩)
      | retry checkpoint => exact Or.inr (Or.inr ⟨checkpoint, by simp [hpoll, awaited]⟩)

theorem inv_advance (h : self.Inv e size w) {task : Resolve} {reply : Reply} (htask : w.task = some task)
    (hanswers : (self.awaited e task).isSome → self.Answers e size w.committed task reply) :
    self.Inv e size (self.advance e w task reply) := by
  have hknows := h.knows task htask
  rcases advance_cases w task reply with ⟨next, heq, rfl | ⟨t, t', rfl, rfl, hpoll⟩⟩ | ⟨t, x, rfl, hpoll, -, heq⟩ |
    ⟨checkpoint, heq⟩
  · rw [heq]
    exact inv_next h trivial id
  · have hafter := after_poll hknows hanswers
    rw [hpoll] at hafter
    rw [heq]
    exact inv_next h hafter id
  · have hafter := after_poll hknows hanswers
    rw [hpoll] at hafter
    rw [heq]
    refine inv_over h fun habsent => ?_
    rcases List.mem_append.mp habsent with habsent | habsent
    · exact h.excluded habsent
    · exact hafter (List.mem_singleton.mp habsent).symm
  · rw [heq]
    exact inv_next h trivial (by simp)

theorem answers_broken (task : Resolve) (error : IndexError) :
    self.Answers e size now task { checkpoint := .error error, history := .error error } where
  checkpoint := by rintro c ⟨⟩
  page := by rintro c after page - ⟨⟩

theorem readOnly_awaited {task : Resolve} {p : Prog (storeCalls Value) Reply} (h : self.awaited e task = some p) :
    p.ReadOnly (Redb.Committed.serve size) := by
  rcases task with (_ | _ | _ | _ | _) | _
  all_goals cases h
  · exact Prog.readOnly_bind (Redb.Committed.readOnly_checkpoint _ _) fun _ => trivial
  · exact Prog.readOnly_bind (Redb.Committed.readOnly_history _ _) fun _ => trivial
  · exact Prog.readOnly_bind (Redb.Committed.readOnly_checkpoint _ _) fun _ => trivial

theorem pending_call {task : Resolve} {op : (storeCalls Value).Op} {next : (storeCalls Value).Ans op →
    Prog (storeCalls Value) Reply} (h : self.Pending e size now task (.call op next)) :
    (Redb.Committed.serve size op now).2 = now ∧
      self.Pending e size now task (next (Redb.Committed.serve size op now).1) := by
  obtain ⟨p, start, mid, hp, hheld, hknows, hreaches, hmid⟩ := h
  have hserved : (Redb.Committed.serve size op now).2 = now :=
    (Redb.Committed.readOnly_reaches (readOnly_awaited hp) hreaches).1 now
  have hcall : Reading size self.index.scope op mid (Redb.Committed.serve size op now).1 now :=
    ⟨hmid, Prod.ext rfl hserved.symm⟩
  exact ⟨hserved, p, start, now, hp, hheld, hknows, Prog.reaches_snoc hreaches rfl hcall, Redb.Committed.grows_refl now⟩

theorem inv_step (h : self.Inv e size w) (event : Event) : self.Inv e size (self.step e size w event) := by
  cases event with
  | commit a => exact inv_grows h (Redb.Committed.add_grows h.held a)
  | others sources => exact { h with }
  | storage =>
    rcases htask : w.task with _ | task
    · simpa only [step, htask] using h
    rcases hread : w.read with _ | reply | ⟨op, next⟩
    · simpa only [step, htask, hread] using h
    · simp only [step, htask, hread]
      exact inv_advance h htask fun _ => answers_done (h.pending task htask _ hread)
    · obtain ⟨hserved, hpending⟩ := pending_call (h.pending task htask _ hread)
      simp only [step, htask, hread, hserved]
      constructor
      case held => exact h.held
      case excluded => exact h.excluded
      case knows =>
        rintro _ ⟨⟩
        exact h.knows task htask
      case pending =>
        rintro _ ⟨⟩ _ ⟨⟩
        exact hpending
      case unread => rintro _ - ⟨⟩
  | broken error =>
    rcases htask : w.task with _ | task
    · simpa only [step, htask] using h
    rcases hread : w.read with _ | q
    · simpa only [step, htask, hread] using h
    · simp only [step, htask, hread]
      exact inv_advance h htask fun _ => answers_broken task error
  | answer reply =>
    rcases htask : w.task with _ | task
    · simpa only [step, htask] using h
    rcases hread : w.read with _ | q
    · simp only [step, htask, hread]
      refine inv_advance h htask ?_
      rw [h.unread task htask hread]
      rintro ⟨⟩
    · simpa only [step, htask, hread] using h

theorem inv_start (hheld : Held size self.index.scope now) (sources : SourceState) :
    self.Inv e size (start now sources) where
  held := hheld
  excluded := by rintro ⟨⟩
  knows := by
    rintro task ⟨⟩
    trivial
  pending := by rintro task - q ⟨⟩
  unread := by
    rintro task ⟨⟩ -
    rfl

theorem inv_run (h : self.Inv e size w) (events : List Event) : self.Inv e size (self.run e size events w) := by
  induction events generalizing w with
  | nil => exact h
  | cons event rest ih => exact ih (inv_step h event)

/-! ## The chain -/

/-- A finalized block with the fee payer and the id of each of its transactions. -/
structure FinalizedBlock where
  reference : BlockRef
  paid : List (Address × Id)

/-- What is assumed of the finalized chain at some time, with these blocks committed. Nothing that
was sent before the height `since` can be the transaction, and the index follows the source from
there on. -/
structure Finality (r : Reconciler) (e : Envelope) (since : Nat) (branch : List BlockAddition)
    (chain : List FinalizedBlock) : Prop where
  one : ∀ b ∈ chain, ∀ b' ∈ chain, b.reference.height = b'.reference.height → b = b'
  kept : ∀ a ∈ branch, ∃ b ∈ chain, b.reference = a.block
  lifetime : ∀ b ∈ chain, ∀ payer, (payer, e.id) ∈ b.paid →
    payer = e.source ∧ since ≤ b.reference.height.toNat ∧ b.reference.height.val ≤ e.lifetime.lastValidBlockHeight
  followed : ∀ a ∈ branch.getLast?, a.block.height.toNat ≤ since
  indexed : ∀ a ∈ branch, ∀ b ∈ chain, b.reference = a.block → since ≤ b.reference.height.toNat →
    ∀ id, (e.source, id) ∈ b.paid → ∃ t ∈ a.transactions, t.transactionId.value.str = id ∧
      Inspect.sourceAddress r.crates r.scope e ∈ t.addresses

theorem clear_transaction (hheld : Held size self.index.scope base) (hclear : Clear e (self.entries e base))
    {a : BlockAddition} (ha : a ∈ base.branch) {t : CanonicalTransaction} (ht : t ∈ a.transactions)
    (haddress : Inspect.sourceAddress self.crates self.scope e ∈ t.addresses) : t.transactionId.value.str ≠ e.id := by
  obtain ⟨x, hx, hread⟩ := Redb.Committed.exists_entry hheld ha ht haddress
  exact hclear x hx t hread

theorem excluded_never_lands {since : Nat} {chain : List FinalizedBlock} (h : self.Excluded e size now)
    (hfinal : Finality self e since now.branch chain) : ∀ b ∈ chain, ∀ payer, (payer, e.id) ∉ b.paid := by
  intro b hb payer hpaid
  obtain ⟨rfl, hsince, hvalid⟩ := hfinal.lifetime b hb payer hpaid
  obtain ⟨c, base, hbase, hclear, hcovered⟩ := h
  obtain ⟨upper, hupper⟩ := Redb.Committed.branch_of_grows hbase.grows
  -- The scanned branch reaches down to where the index began to follow the source.
  obtain ⟨low, hlow⟩ : ∃ low, base.branch.getLast? = some low := by
    cases hbranch : base.branch with
    | nil =>
      have htip := hbase.tip
      rw [Redb.Committed.tip, hbranch] at htip
      cases htip
    | cons a lower => exact ⟨_, List.getLast?_eq_some_getLast (by simp)⟩
  have hlowest : low.block.height.toNat ≤ since := hfinal.followed low (by
    rw [hupper, List.getLast?_append, hlow]
    rfl)
  have hbelow : b.reference.height.toNat ≤ c.height.toNat :=
    UInt64.le_iff_toNat_le.mp (UInt64.le_trans hvalid hcovered)
  obtain ⟨a, ha, hheight⟩ := Redb.Committed.exists_height hbase.held.written hbase.tip hlow
    (Nat.le_trans hlowest hsince) hbelow
  have hnow : a ∈ now.branch := by
    rw [hupper]
    exact List.mem_append_right _ ha
  -- The block of that height in the chain is the committed one.
  obtain ⟨b', hb', hreference⟩ := hfinal.kept a hnow
  have hsame : b' = b := hfinal.one b' hb' b hb (BlockHeight.toNat_inj (by rw [hreference, hheight]))
  subst hsame
  obtain ⟨t, ht, hid, haddress⟩ := hfinal.indexed a hnow b' hb' hreference hsince e.id hpaid
  exact clear_transaction hbase.held hclear ha ht haddress hid

/-! ## Release -/

/-- This step is the end of an inspection that found the transaction, or that it cannot land. -/
def Settles (w w' : Reconciliation) : Prop :=
  w'.returned = w.returned ++ [.present] ∨ w'.returned = w.returned ++ [.absent]

theorem advance_releases (w : Reconciliation) (task : Resolve) (reply : Reply) :
    (Settles w (self.advance e w task reply) ∧
      (self.advance e w task reply).sources = w.sources.releaseGuard e.source ∧
      (self.advance e w task reply).task = none) ∨
    (¬ Settles w (self.advance e w task reply) ∧ (self.advance e w task reply).sources = w.sources ∧
      (self.advance e w task reply).task ≠ none) := by
  rcases advance_cases w task reply with ⟨next, heq, -⟩ | ⟨t, x, -, -, hx, heq⟩ | ⟨checkpoint, heq⟩
  · rw [heq]
    exact Or.inr ⟨by simp [Settles], rfl, by simp⟩
  · rw [heq]
    refine Or.inl ⟨?_, rfl, rfl⟩
    rcases hx with rfl | rfl
    · exact Or.inl rfl
    · exact Or.inr rfl
  · rw [heq]
    exact Or.inr ⟨by simp [Settles], rfl, by simp⟩

theorem step_cases (w : Reconciliation) (event : Event) (hevent : ∀ sources, event ≠ .others sources) :
    (∃ task reply, w.task = some task ∧ self.step e size w event = self.advance e w task reply) ∨
      ∃ committed read, self.step e size w event = { w with committed, read } := by
  cases event with
  | others sources => exact absurd rfl (hevent sources)
  | commit a => exact Or.inr ⟨_, _, rfl⟩
  | storage =>
    rcases htask : w.task with _ | task
    · exact Or.inr ⟨w.committed, w.read, by simp only [step, htask]; rw [← htask]⟩
    rcases hread : w.read with _ | reply | ⟨op, next⟩
    · exact Or.inr ⟨w.committed, w.read, by simp only [step, htask, hread]; rw [← htask, ← hread]⟩
    · exact Or.inl ⟨task, reply, rfl, by simp only [step, htask, hread]⟩
    · exact Or.inr ⟨_, _, by simp only [step, htask, hread]; rfl⟩
  | broken error =>
    rcases htask : w.task with _ | task
    · exact Or.inr ⟨w.committed, w.read, by simp only [step, htask]; rw [← htask]⟩
    rcases hread : w.read with _ | q
    · exact Or.inr ⟨w.committed, w.read, by simp only [step, htask, hread]; rw [← htask, ← hread]⟩
    · exact Or.inl ⟨task, _, rfl, by simp only [step, htask, hread]; rfl⟩
  | answer reply =>
    rcases htask : w.task with _ | task
    · exact Or.inr ⟨w.committed, w.read, by simp only [step, htask]; rw [← htask]⟩
    rcases hread : w.read with _ | q
    · exact Or.inl ⟨task, reply, rfl, by simp only [step, htask, hread]⟩
    · exact Or.inr ⟨w.committed, w.read, by simp only [step, htask, hread]; rw [← htask, ← hread]⟩

theorem step_releases (w : Reconciliation) (event : Event) (hevent : ∀ sources, event ≠ .others sources) :
    (Settles w (self.step e size w event) ∧
      (self.step e size w event).sources = w.sources.releaseGuard e.source ∧ (self.step e size w event).task = none) ∨
    (¬ Settles w (self.step e size w event) ∧ (self.step e size w event).sources = w.sources ∧
      ((self.step e size w event).task = none ↔ w.task = none)) := by
  rcases step_cases w event hevent with ⟨task, reply, htask, heq⟩ | ⟨committed, read, heq⟩
  · rw [heq]
    refine (advance_releases w task reply).imp_right fun ⟨hsettles, hsources, hgoes⟩ => ⟨hsettles, hsources, ?_⟩
    simp [hgoes, htask]
  · rw [heq]
    exact Or.inr ⟨by simp [Settles], rfl, Iff.rfl⟩

theorem returned_step (w : Reconciliation) (event : Event) :
    ∃ later, (self.step e size w event).returned = w.returned ++ later := by
  by_cases hevent : ∃ sources, event = .others sources
  · obtain ⟨sources, rfl⟩ := hevent
    exact ⟨[], (List.append_nil _).symm⟩
  rcases step_cases w event (by simpa using hevent) with ⟨task, reply, -, heq⟩ | ⟨committed, read, heq⟩
  · rw [heq, advance]
    split <;> exact ⟨_, rfl⟩
  · rw [heq]
    exact ⟨[], (List.append_nil _).symm⟩

theorem returned_run (w : Reconciliation) (events : List Event) :
    ∃ later, (self.run e size events w).returned = w.returned ++ later := by
  induction events generalizing w with
  | nil => exact ⟨[], (List.append_nil _).symm⟩
  | cons event rest ih =>
    obtain ⟨first, hfirst⟩ := returned_step w event
    obtain ⟨later, hlater⟩ := ih (self.step e size w event)
    exact ⟨first ++ later, by rw [run, List.foldl_cons, ← run, hlater, hfirst, List.append_assoc]⟩

end Reconciler

/-! ## What the interpreter records -/

namespace Interpretation

theorem relevant_of_payer {codec : Codec} {selected : List Address} {t : Transaction} (h : t.feePayer ∈ selected) :
    recorded codec selected t = true := by
  unfold recorded relevant
  split <;> simp [h]

theorem inspect_indexes {codec : Codec} {interpreter : Interpreter} {block : Slots.Block}
    {addresses : List CanonicalAddress} {out : InterpretedBlock} {expected : Option BlockRef} {retention : Nat}
    {a : BlockAddition} {ts : List Transaction} {source : Address}
    (h : interpreter.inspect codec block addresses = .ok out)
    (ha : BlockAddition.new interpreter.scope expected retention out = .ok a)
    (hts : Transactions.parse codec block.raw = .ok ts) (hsource : canonical interpreter.scope source ∈ addresses) :
    ∀ t ∈ ts, t.feePayer = source → ∃ c ∈ a.transactions, c.transactionId.value = t.signature ∧
      canonical interpreter.scope source ∈ c.addresses := by
  rintro t ht rfl
  obtain ⟨selected, ts', rfl, hts', -, rfl⟩ := inspect_ok.mp h
  obtain rfl := Except.ok.inj (hts.symm.trans hts')
  obtain ⟨payer, hpayer, hsame⟩ := List.mem_map.mp hsource
  rw [canonical_eq] at hsame
  subst hsame
  have hdraft : draft interpreter.scope t (t.movements codec) ∈ drafts codec interpreter.scope selected ts :=
    List.mem_map_of_mem (List.mem_filter.mpr ⟨ht, relevant_of_payer hpayer⟩)
  obtain ⟨c, hc, hcanonical⟩ := (mem_canonicalAll (new_transactions ha)).1 _ hdraft
  refine ⟨c, hc, ?_, ?_⟩
  · rw [(canonical_ok hcanonical).2]
    rfl
  · rw [mem_addresses, (canonical_fields hcanonical).2]
    exact Or.inr ⟨_, rfl, rfl⟩

end Interpretation

/-! ## Absence -/

namespace Reconciler

/-- **Absence.** Blocks are committed and the inspections of one `resolve` take their steps in any
order, with any answers and errors. After an inspection that returned `Absent`, the transaction is
in no block of the finalized chain at any later time, and the guard is released by the steps in
which an inspection returns `Present` or `Absent`, and by no other step of `resolve`. -/
theorem absent_never_lands (self : Reconciler) (e : Envelope) (size : Value → Bool) (s₀ : Store Value)
    (hempty : Redb.Empty self.index.scope s₀) (earlier : List Redb.BlockCall) (sources : SourceState)
    (events : List Event) :
    let stored := Redb.execute size self.index.scope earlier s₀
    let w := self.run e size events (start ⟨stored.1, stored.2⟩ sources)
    (.absent ∈ w.returned → ∀ later since chain,
      Finality self e since (self.run e size later w).committed.branch chain →
        ∀ b ∈ chain, ∀ payer, (payer, e.id) ∉ b.paid) ∧
    ∀ event, (∀ others, event ≠ .others others) →
      let w' := self.step e size w event
      (Settles w w' → w'.sources = w.sources.releaseGuard e.source ∧ w'.task = none) ∧
        (¬ Settles w w' → w'.sources = w.sources ∧ (w'.task = none ↔ w.task = none)) := by
  intro stored w
  have hheld := (Redb.holds_execute size hempty earlier).1
  have hw : self.Inv e size w := inv_run (@inv_start size self e ⟨stored.1, stored.2⟩ hheld sources) events
  refine ⟨?_, ?_⟩
  · intro habsent later since chain hfinal
    obtain ⟨more, hmore⟩ := @returned_run size self e w later
    refine excluded_never_lands ((inv_run hw later).excluded ?_) hfinal
    rw [hmore]
    exact List.mem_append_left _ habsent
  · intro event hevent w'
    rcases step_releases w event hevent with ⟨hsettles, hreleased⟩ | ⟨hsettles, hkept⟩
    · exact ⟨fun _ => hreleased, fun hnot => absurd hsettles hnot⟩
    · exact ⟨fun hdoes => absurd hdoes hsettles, fun _ => hkept⟩

/-! The first page is disturbed by a commit, and the second inspection finds nothing. -/

def sampleReconciler : Reconciler := ⟨World.sampleCrates, ⟨Redb.sampleScope, 1⟩, Redb.sampleScope⟩

def sampleAmbiguous : Envelope := { World.sampleEnvelope 0 20 "first" with lifetime := ⟨[1], 1⟩ }

def sampleAnswer : Reply := { status := some ⟨1, [none]⟩, blockHeight := some 5 }

def sampleSteps : List Event :=
  [[.answer sampleAnswer], List.replicate 3 .storage, [.commit Redb.sampleFollow], List.replicate 3 .storage,
   [.answer sampleAnswer, .answer sampleAnswer], List.replicate 8 .storage, [.answer sampleAnswer]].flatten

def sampleEnd : Reconciliation :=
  sampleReconciler.run sampleAmbiguous (fun _ => true) sampleSteps
    (start ⟨(Redb.execute (fun _ => true) Redb.sampleScope [.add (Redb.sampleAnchor Redb.sampleGenesis)] Store.empty).1,
      (Redb.execute (fun _ => true) Redb.sampleScope [.add (Redb.sampleAnchor Redb.sampleGenesis)] Store.empty).2⟩ {})

/-- Another account pays in the second block. -/
def sampleFinalized : List FinalizedBlock := [⟨Redb.sampleGenesis, []⟩, ⟨Redb.sampleNext, [(Address.zero, "other")]⟩]

theorem sample_committed :
    sampleEnd.committed.branch = [Redb.sampleFollow, Redb.sampleAnchor Redb.sampleGenesis] := rfl

theorem sample_finality :
    Finality sampleReconciler sampleAmbiguous 0 sampleEnd.committed.branch sampleFinalized := by
  rw [sample_committed]
  constructor
  case one =>
    intro b hb b' hb' hheight
    rcases List.mem_pair.mp hb with rfl | rfl <;> rcases List.mem_pair.mp hb' with rfl | rfl <;> first
      | rfl
      | exact absurd hheight (by decide)
  case kept =>
    intro a ha
    rcases List.mem_pair.mp ha with rfl | rfl
    · exact ⟨⟨Redb.sampleNext, [(Address.zero, "other")]⟩, by simp [sampleFinalized], rfl⟩
    · exact ⟨⟨Redb.sampleGenesis, []⟩, by simp [sampleFinalized], rfl⟩
  case lifetime =>
    intro b hb payer hpaid
    rcases List.mem_pair.mp hb with rfl | rfl
    · cases hpaid
    · have hid : sampleAmbiguous.id = "other" := congrArg Prod.snd (List.mem_singleton.mp hpaid)
      exact absurd hid (by decide)
  case followed =>
    rintro a ⟨⟩
    decide
  case indexed =>
    intro a ha b hb hreference hsince id hpaid
    rcases List.mem_pair.mp hb with rfl | rfl
    · cases hpaid
    · have hpayer : sampleAmbiguous.source = Address.zero := congrArg Prod.fst (List.mem_singleton.mp hpaid)
      exact absurd hpayer (by decide)

theorem absent_never_lands_sample :
    sampleEnd.returned = [.retry (some Redb.sampleGenesis), .absent] ∧
      ∀ b ∈ sampleFinalized, ∀ payer, (payer, "first") ∉ b.paid :=
  ⟨by decide +kernel, (absent_never_lands sampleReconciler sampleAmbiguous (fun _ => true) Store.empty
    (Redb.empty_empty _) [.add (Redb.sampleAnchor Redb.sampleGenesis)] {} sampleSteps).1 (by decide +kernel) [] 0
    sampleFinalized sample_finality⟩

end Reconciler

end PaymentSdk.Solana
