import PaymentSdk.Lib.Interleave
import PaymentSdk.Lib.Scan
import PaymentSdk.Redb.Repository.Journal
import PaymentSdk.Redb.Repository.Rollback

/-!
# Pages as snapshots

A listing compares checkpoints before and after each scan and from page to page. That tells
whether the checkpoint is the same, and not whether the chain moved away and came back. If
no commit puts the first checkpoint back, every page is read from one store.
-/

open Interaction KvStore

namespace PaymentSdk.Redb

variable {size : Value → Bool} {self scope : IndexScope} {s s' t : Store Value} {C T : Type}

/-! ## Following the cursor -/

/-- A traversal, page by page, with a limit for each page. It is cut short when the limits
are used up. -/
def follow (page : Option C → Nat → Call (List T × Option C)) :
    List Nat → Option C → Call (Option (List T))
  | [], _ => pure none
  | limit :: limits, after => do
    let (items, next) ← page after limit
    match next with
    | none => pure (some items)
    | some cursor =>
      let rest ← follow page limits (some cursor)
      pure (rest.map (items ++ ·))

def transactionPage (self : IndexScope) (request : HistoryQuery) (after : Option HistoryCursor)
    (limit : Nat) : Call (List CanonicalTransaction × Option HistoryCursor) := do
  let page ← listTransactions self { request with after, limit }
  pure (page.transactions, page.next)

def outputPage (self : IndexScope) (request : OutputRequest) (after : Option OutputCursor)
    (limit : Nat) : Call (List IndexedOutput × Option OutputCursor) := do
  let page ← listOutputs self { request with after, limit }
  pure (page.outputs, page.next)

/-- The items are what is stored under the prefix: every entry, once, in ascending key order. -/
def IsListing (read : Value → Except IndexError T) (pre : Key) (s : Store Value) (items : List T) :
    Prop :=
  ∃ entries : List (Key × Stored Value), (entries.Pairwise fun a b => compare a.1 b.1 = .lt) ∧
    (∀ e, e ∈ entries ↔ s.get e.1 = some e.2 ∧ pre.isPrefixOf e.1 = true) ∧
    decodeEntries read entries = .ok items

/-- The commits of others between the steps of a program. -/
abbrev commitsAmong (size : Value → Bool) (self : IndexScope) {α : Type} (p : Call α)
    (schedule : List (List BlockCall)) (s : Store Value) :
    Prog.Passage BlockCall (Except IndexError α) (Store Value) :=
  Prog.among (serve size) (fun c s => (c.perform size self s).2) p schedule s

/-! ## Steps among commits -/

section Among

variable {α : Type} {schedule left : List (List BlockCall)} {trace : List (Store Value)}

theorem among_get_ok {R : Type} [Record R] {k : Key} {out : Option (VersionedRecord R)}
    (h : commitsAmong size self (get R k) schedule s = ⟨.ok out, s', left, trace⟩) :
    s'.get k = out.map (fun r => ⟨Record.encode r.value, r.version⟩) ∧
      (schedule.headD [] = [] → s' = s) := by
  -- The read is answered from the store after the commits before it.
  have hrun : Prog.run (serve size) (get R k)
      ((schedule.headD []).foldl (fun s c => (BlockCall.perform size self c s).2) s) = (.ok out, s') := by
    unfold get at h ⊢
    simp only [Prog.among, serve] at h
    rw [run_get]
    generalize (schedule.headD []).foldl (fun s c => (BlockCall.perform size self c s).2) s = u at h
    cases hu : u.get k with
    | none =>
      rw [hu] at h
      cases h
      rfl
    | some stored =>
      rw [hu] at h
      cases hd : decode R stored.value with
      | ok value =>
        simp only [hd, Prog.among] at h
        cases h
        simp [hd]
      | error e =>
        simp only [hd, Prog.among] at h
        cases h
  obtain ⟨rfl, hget⟩ := run_get_ok.mp hrun
  exact ⟨hget, fun hnone => by rw [hnone]; rfl⟩

theorem among_currentCheckpoint_ok {out : Option BlockRef}
    (h : commitsAmong size self (currentCheckpoint self) schedule s = ⟨.ok out, s', left, trace⟩) :
    s'.valueAt (Keys.checkpoint self) = checkpointValue out ∧ (schedule.headD [] = [] → s' = s) := by
  obtain ⟨stored, t, mid, tr₁, tr₂, hget, hpure, -⟩ := Prog.among_bind_ok h
  obtain ⟨hstored, hsame⟩ := among_get_ok hget
  cases hpure
  exact ⟨checkpoint_read hstored, hsame⟩

theorem among_ensureCheckpoint_ok {expected : Option BlockRef} {u : Unit}
    (h : commitsAmong size self (ensureCheckpoint self expected) schedule s =
      ⟨.ok u, s', left, trace⟩) : s'.valueAt (Keys.checkpoint self) = checkpointValue expected := by
  obtain ⟨current, t, mid, tr₁, tr₂, hread, hrest, -⟩ := Prog.among_bind_ok h
  obtain ⟨hcurrent, -⟩ := among_currentCheckpoint_ok hread
  split at hrest
  · rename_i he
    cases hrest
    rw [hcurrent, he]
  · cases hrest

end Among

/-! ## What a page has to do -/

/-- A page among commits ends where its checkpoint is stored, and has the checkpoint of its
cursors. Alone, it reads the next entries of the listing. -/
structure PageSpec (size : Value → Bool) (scope : IndexScope) (s : Store Value)
    (page : Option C → Nat → Call (List T × Option C)) (checkpointOf : C → Option BlockRef)
    (keyOf : C → Key) (read : Value → Except IndexError T) (pre : Key) : Prop where
  checked : ∀ {after limit schedule t t' left trace items next},
    commitsAmong size scope (page after limit) schedule t = ⟨.ok (items, next), t', left, trace⟩ →
    ∃ c, t'.valueAt (Keys.checkpoint scope) = checkpointValue c ∧
      (∀ cursor ∈ after, checkpointOf cursor = c) ∧ (∀ cursor ∈ next, checkpointOf cursor = c) ∧
      (schedule.headD [] = [] → t.valueAt (Keys.checkpoint scope) = checkpointValue c)
  alone : ∀ {after limit items next s' front rest}, ReadTo s pre (after.map keyOf) front rest →
    Prog.run (serve size) (page after limit) s = (.ok (items, next), s') →
    s' = s ∧ decodeEntries read (rest.take limit) = .ok items ∧
      (next = none → rest.length ≤ limit) ∧
      ∀ cursor, next = some cursor →
        ReadTo s pre (some (keyOf cursor)) (front ++ rest.take limit) (rest.drop limit)

theorem decodeEntries_append {read : Value → Except IndexError T} {xs ys : List (Key × Stored Value)}
    {a b : List T} (hx : decodeEntries read xs = .ok a) (hy : decodeEntries read ys = .ok b) :
    decodeEntries read (xs ++ ys) = .ok (a ++ b) := by
  induction xs generalizing a with
  | nil =>
    cases hx
    exact hy
  | cons x xs ih =>
    simp only [List.cons_append, decodeEntries, bind, Except.bind, pure, Except.pure] at hx ⊢
    cases hr : read x.2.value with
    | error e =>
      rw [hr] at hx
      cases hx
    | ok item =>
      rw [hr] at hx
      dsimp only at hx ⊢
      cases hrest : decodeEntries read xs with
      | error e =>
        rw [hrest] at hx
        cases hx
      | ok items =>
        rw [hrest] at hx
        cases hx
        rw [ih hrest]
        rfl

section Follow

variable {page : Option C → Nat → Call (List T × Option C)} {checkpointOf : C → Option BlockRef}
  {keyOf : C → Key} {read : Value → Except IndexError T} {pre : Key} {limits : List Nat}
  {after : Option C} {items : List T}

theorem follow_checked (h : PageSpec size self s page checkpointOf keyOf read pre)
    {schedule left : List (List BlockCall)} {trace : List (Store Value)}
    (hrun : commitsAmong size self (follow page limits after) schedule t =
      ⟨.ok (some items), s', left, trace⟩) :
    ∃ c, s'.valueAt (Keys.checkpoint self) = checkpointValue c ∧
      (∀ cursor ∈ after, checkpointOf cursor = c) ∧
      (schedule.headD [] = [] → t.valueAt (Keys.checkpoint self) = checkpointValue c) := by
  induction limits generalizing after schedule t trace items with
  | nil => cases hrun
  | cons limit limits ih =>
    obtain ⟨⟨first, next⟩, u, mid, tr₁, tr₂, hpage, hrest, -⟩ := Prog.among_bind_ok hrun
    obtain ⟨c, hend, hafter, hnext, hstart⟩ := h.checked hpage
    cases next with
    | none =>
      cases hrest
      exact ⟨c, hend, hafter, hstart⟩
    | some cursor =>
      obtain ⟨rest, v, mid', tr₃, tr₄, hfollow, hpure, -⟩ := Prog.among_bind_ok hrest
      cases rest with
      | none => cases hpure
      | some rest =>
        cases hpure
        obtain ⟨c', hend', hafter', -⟩ := ih hfollow
        have hc : c' = c := (hafter' cursor rfl).symm.trans (hnext cursor rfl)
        exact ⟨c, by rw [hend', hc], hafter, hstart⟩

theorem follow_alone (h : PageSpec size self s page checkpointOf keyOf read pre)
    {front rest : List (Key × Stored Value)} (hread : ReadTo s pre (after.map keyOf) front rest)
    (hrun : Prog.run (serve size) (follow page limits after) s = (.ok (some items), s')) :
    decodeEntries read rest = .ok items := by
  induction limits generalizing after items front rest s' with
  | nil => cases hrun
  | cons limit limits ih =>
    obtain ⟨⟨first, next⟩, u, hpage, hrest⟩ := (Prog.run_bind_ok _).mp hrun
    obtain ⟨rfl, hfirst, hnone, hsome⟩ := h.alone hread hpage
    cases next with
    | none =>
      cases hrest
      rwa [List.take_of_length_le (hnone rfl)] at hfirst
    | some cursor =>
      obtain ⟨more, v, hfollow, hpure⟩ := (Prog.run_bind_ok _).mp hrest
      cases more with
      | none => cases hpure
      | some more =>
        cases hpure
        have hnext : ReadTo u pre ((some cursor).map keyOf) (front ++ rest.take limit)
            (rest.drop limit) := hsome cursor rfl
        have hmore := ih hnext hfollow
        rw [← List.take_append_drop limit rest]
        exact decodeEntries_append hfirst hmore

/-- A finished traversal, during which no commit put the first checkpoint back, is a listing of
the store that it started from. -/
theorem follow_isListing (h : PageSpec size self s page checkpointOf keyOf read pre)
    {schedule left : List (List BlockCall)} {trace : List (Store Value)}
    (hrun : commitsAmong size self (follow page limits none) ([] :: schedule) s =
      ⟨.ok (some items), s', left, trace⟩)
    (hreturn : (s :: trace).IsChain fun t t' => t' = t ∨
      t'.valueAt (Keys.checkpoint self) ≠ s.valueAt (Keys.checkpoint self)) :
    IsListing read pre s items := by
  obtain ⟨c, hend, -, hstart⟩ := follow_checked h hrun
  have hlast := Prog.getLast_trace hrun
  have hconstant := Prog.constant_of_noReturn hreturn (by rw [hlast, hend, hstart rfl])
  have halone := Prog.run_of_constant hrun hconstant
  have hread : ReadTo s pre ((none : Option C).map keyOf) [] (s.under pre) := readTo_start s pre
  exact ⟨s.under pre, under_ascending s pre, fun e => mem_under, follow_alone h hread halone⟩

end Follow

/-! ## The two listings -/

theorem among_quiet {α β : Type} {p : Call α} {f : α → Call β} {schedule left : List (List BlockCall)}
    {trace : List (Store Value)} {b : β} (hp : ∃ r, p = ExceptT.mk (.done r))
    (h : commitsAmong size self (p >>= f) schedule s = ⟨.ok b, s', left, trace⟩) :
    ∃ a, commitsAmong size self (f a) schedule s = ⟨.ok b, s', left, trace⟩ := by
  obtain ⟨r, rfl⟩ := hp
  obtain ⟨a, t, mid, tr₁, tr₂, hdone, hrest, rfl⟩ := Prog.among_bind_ok h
  cases hdone
  exact ⟨a, hrest⟩

theorem quiet_checkScope : ∃ r, checkScope self scope = ExceptT.mk (.done r) := by
  unfold checkScope
  split <;> exact ⟨_, rfl⟩

theorem quiet_checkAddress (address : CanonicalAddress) :
    ∃ r, checkAddress self address = ExceptT.mk (.done r) := by
  unfold checkAddress
  split <;> exact ⟨_, rfl⟩

theorem quiet_validateLimit (limit : Nat) : ∃ r, validateLimit limit = ExceptT.mk (.done r) := by
  unfold validateLimit
  split <;> exact ⟨_, rfl⟩

/-- What the two listings share: the checks, and a scan between two reads of the checkpoint. -/
def listing {R : Type} (self scope : IndexScope) (address : CanonicalAddress) (limit : Nat)
    (moved : Option BlockRef → Bool) (conflict : IndexError) (pre : Key) (after : Option Key)
    (read : Value → Except IndexError T)
    (finish : Option BlockRef → ScanPage Value → List T → Except IndexError R) : Call R := do
  checkScope self scope
  checkAddress self address
  validateLimit limit
  let checkpoint ← currentCheckpoint self
  if moved checkpoint then throw conflict
  else
    let page ← scan pre after limit
    let items ← ExceptT.mk (.done (decodeEntries read page.entries))
    ensureCheckpoint self checkpoint
    ExceptT.mk (.done (finish checkpoint page items))

def finishTransactions (checkpoint : Option BlockRef) (page : ScanPage Value)
    (transactions : List CanonicalTransaction) : Except IndexError CanonicalPage :=
  let last := if page.next.isSome then transactions.getLast? else none
  let next := last.map fun t => ⟨checkpoint, ⟨t.block.height, t.transactionId⟩⟩
  .ok { checkpoint, transactions, next }

def finishOutputs (checkpoint : Option BlockRef) (page : ScanPage Value)
    (outputs : List IndexedOutput) : Except IndexError OutputPage :=
  if page.next.isSome then
    match page.entries.getLast?.map (·.1) with
    | none => .error (recordError "paginated output page has no final key")
    | some position => .ok { checkpoint, outputs, next := some ⟨checkpoint, position⟩ }
  else .ok { checkpoint, outputs, next := none }

theorem listTransactions_eq (request : HistoryQuery) :
    listTransactions self request =
      listing self request.scope request.address request.limit
        (fun c => request.after.any (·.checkpoint ≠ c))
        ⟨.conflict, "history changed during pagination", true⟩
        (Keys.historyPrefix self request.address)
        (request.after.map fun cursor =>
          Keys.history self request.address cursor.position.height cursor.position.transaction)
        decodeTransaction finishTransactions := rfl

theorem listOutputs_eq (request : OutputRequest) :
    listOutputs self request =
      listing self request.scope request.address request.limit
        (fun c => request.after.any (·.checkpoint ≠ c))
        ⟨.conflict, "outputs changed during pagination", true⟩
        (Keys.outputPrefix self request.address) (request.after.map (·.position))
        decodeOutput finishOutputs := by
  have hfinish : ∀ c page outputs, (ExceptT.mk (.done (finishOutputs c page outputs)) : Call OutputPage) =
      if page.next.isSome then
        match page.entries.getLast?.map (·.1) with
        | none => throw (recordError "paginated output page has no final key")
        | some position => pure { checkpoint := c, outputs, next := some ⟨c, position⟩ }
      else pure { checkpoint := c, outputs, next := none } := by
    intro c page outputs
    unfold finishOutputs
    split
    · split <;> rfl
    · rfl
  simp only [listing, hfinish]
  rfl

theorem run_scan_ok {pre : Key} {after : Option Key} {limit : Nat} {page : ScanPage Value} :
    Prog.run (serve size) (scan pre after limit) s = (.ok page, s') ↔
      s' = s ∧ s.scan pre after limit = .ok page := by
  unfold scan
  rw [run_scan]
  cases s.scan pre after limit with
  | error e => simp
  | ok p => simp [eq_comm, and_comm]

theorem run_currentCheckpoint_snd {out : Option BlockRef}
    (h : Prog.run (serve size) (currentCheckpoint self) s = (.ok out, s')) : s' = s := by
  obtain ⟨stored, t, hget, hpure⟩ := (Prog.run_bind_ok _).mp h
  obtain ⟨rfl, -⟩ := run_get_ok.mp hget
  exact ((Prog.run_pure_ok _).mp hpure).2.symm

theorem run_ensureCheckpoint_snd {expected : Option BlockRef} {u : Unit}
    (h : Prog.run (serve size) (ensureCheckpoint self expected) s = (.ok u, s')) : s' = s := by
  obtain ⟨current, t, hread, hrest⟩ := (Prog.run_bind_ok _).mp h
  obtain rfl := run_currentCheckpoint_snd hread
  split at hrest
  · exact ((Prog.run_pure_ok _).mp hrest).2.symm
  · cases hrest

theorem run_quiet {α β : Type} {p : Call α} {f : α → Call β} {b : β}
    (hp : ∃ r, p = ExceptT.mk (.done r))
    (h : Prog.run (serve size) (p >>= f : Call β) s = (.ok b, s')) :
    ∃ a, p = ExceptT.mk (.done (.ok a)) ∧ Prog.run (serve size) (f a) s = (.ok b, s') := by
  obtain ⟨r, rfl⟩ := hp
  obtain ⟨a, t, hdone, hrest⟩ := (Prog.run_bind_ok _).mp h
  cases hdone
  exact ⟨a, rfl, hrest⟩

section Listing

variable {R : Type} {address : CanonicalAddress} {limit : Nat} {moved : Option BlockRef → Bool}
  {conflict : IndexError} {pre : Key} {after : Option Key} {read : Value → Except IndexError T}
  {finish : Option BlockRef → ScanPage Value → List T → Except IndexError R} {r : R}

theorem listing_checked {schedule left : List (List BlockCall)} {trace : List (Store Value)}
    (h : commitsAmong size self
      (listing self scope address limit moved conflict pre after read finish) schedule s =
        ⟨.ok r, s', left, trace⟩) :
    ∃ c page items, moved c = false ∧ finish c page items = .ok r ∧
      s'.valueAt (Keys.checkpoint self) = checkpointValue c ∧
      (schedule.headD [] = [] → s.valueAt (Keys.checkpoint self) = checkpointValue c) := by
  unfold listing at h
  obtain ⟨-, hread⟩ := among_quiet quiet_checkScope h
  obtain ⟨-, hread⟩ := among_quiet (quiet_checkAddress _) hread
  obtain ⟨-, hread⟩ := among_quiet (quiet_validateLimit _) hread
  obtain ⟨c, u, mid, tr₁, tr₂, hcurrent, hpage, -⟩ := Prog.among_bind_ok hread
  obtain ⟨hstart, hsame⟩ := among_currentCheckpoint_ok hcurrent
  split at hpage
  · cases hpage
  · rename_i hmoved
    obtain ⟨page, v, mid, tr₁, tr₂, -, hitems, -⟩ := Prog.among_bind_ok hpage
    obtain ⟨items, hchecked⟩ := among_quiet ⟨_, rfl⟩ hitems
    obtain ⟨_, w, mid, tr₁, tr₂, hensure, hdone, -⟩ := Prog.among_bind_ok hchecked
    have hend := among_ensureCheckpoint_ok hensure
    obtain ⟨hfinish, rfl, -⟩ := Prog.Passage.mk.inj hdone
    refine ⟨c, page, items, by simpa using hmoved, hfinish, hend, fun hnone => ?_⟩
    rw [← hsame hnone, hstart]

theorem listing_alone {front rest : List (Key × Stored Value)} (hread : ReadTo s pre after front rest)
    (h : Prog.run (serve size)
      (listing self scope address limit moved conflict pre after read finish) s = (.ok r, s')) :
    s' = s ∧ ∃ c page items, finish c page items = .ok r ∧ page.entries = rest.take limit ∧
      0 < limit ∧ (page.next = none → rest.length ≤ limit) ∧
      (page.next.isSome = true → limit < rest.length) ∧
      decodeEntries read (rest.take limit) = .ok items := by
  unfold listing at h
  obtain ⟨-, -, hlist⟩ := run_quiet quiet_checkScope h
  obtain ⟨-, -, hlist⟩ := run_quiet (quiet_checkAddress _) hlist
  obtain ⟨-, -, hlist⟩ := run_quiet (quiet_validateLimit _) hlist
  obtain ⟨c, u, hcurrent, hpage⟩ := (Prog.run_bind_ok _).mp hlist
  obtain rfl := run_currentCheckpoint_snd hcurrent
  split at hpage
  · cases hpage
  · obtain ⟨page, v, hscan, hitems⟩ := (Prog.run_bind_ok _).mp hpage
    obtain ⟨rfl, hscanned⟩ := run_scan_ok.mp hscan
    obtain ⟨hentries, hpos, hnone, hsome⟩ := scan_next hread hscanned
    obtain ⟨items, hdecode, hchecked⟩ := run_quiet ⟨_, rfl⟩ hitems
    obtain ⟨_, w, hensure, hdone⟩ := (Prog.run_bind_ok _).mp hchecked
    obtain rfl := run_ensureCheckpoint_snd hensure
    obtain ⟨hfinish, rfl⟩ := Prod.mk.inj hdone
    refine ⟨rfl, c, page, items, hfinish, hentries, hpos, hnone, hsome, ?_⟩
    rw [← hentries]
    exact Prog.done.inj hdecode

end Listing

theorem checkpoint_of_unmoved {after : Option C} {checkpointOf : C → Option BlockRef}
    {c : Option BlockRef} (h : (after.any fun cursor => checkpointOf cursor ≠ c) = false) :
    ∀ cursor ∈ after, checkpointOf cursor = c := by
  intro cursor hcursor
  obtain rfl : after = some cursor := hcursor
  simpa using h

theorem transactionPage_checked {request : HistoryQuery} {after next : Option HistoryCursor}
    {limit : Nat} {schedule left : List (List BlockCall)} {trace : List (Store Value)}
    {items : List CanonicalTransaction}
    (h : commitsAmong size self (transactionPage self request after limit) schedule s =
      ⟨.ok (items, next), s', left, trace⟩) :
    ∃ c, s'.valueAt (Keys.checkpoint self) = checkpointValue c ∧
      (∀ cursor ∈ after, cursor.checkpoint = c) ∧ (∀ cursor ∈ next, cursor.checkpoint = c) ∧
      (schedule.headD [] = [] → s.valueAt (Keys.checkpoint self) = checkpointValue c) := by
  obtain ⟨page, t, mid, tr₁, tr₂, hlist, hpure, -⟩ := Prog.among_bind_ok h
  cases hpure
  rw [listTransactions_eq] at hlist
  obtain ⟨c, scanned, transactions, hmoved, hfinish, hend, hstart⟩ := listing_checked hlist
  refine ⟨c, hend, checkpoint_of_unmoved hmoved, ?_, hstart⟩
  cases hfinish
  intro cursor hcursor
  obtain ⟨last, -, rfl⟩ := Option.map_eq_some_iff.mp hcursor
  rfl

theorem outputPage_checked {request : OutputRequest} {after next : Option OutputCursor}
    {limit : Nat} {schedule left : List (List BlockCall)} {trace : List (Store Value)}
    {items : List IndexedOutput}
    (h : commitsAmong size self (outputPage self request after limit) schedule s =
      ⟨.ok (items, next), s', left, trace⟩) :
    ∃ c, s'.valueAt (Keys.checkpoint self) = checkpointValue c ∧
      (∀ cursor ∈ after, cursor.checkpoint = c) ∧ (∀ cursor ∈ next, cursor.checkpoint = c) ∧
      (schedule.headD [] = [] → s.valueAt (Keys.checkpoint self) = checkpointValue c) := by
  obtain ⟨page, t, mid, tr₁, tr₂, hlist, hpure, -⟩ := Prog.among_bind_ok h
  cases hpure
  rw [listOutputs_eq] at hlist
  obtain ⟨c, scanned, outputs, hmoved, hfinish, hend, hstart⟩ := listing_checked hlist
  refine ⟨c, hend, checkpoint_of_unmoved hmoved, ?_, hstart⟩
  unfold finishOutputs at hfinish
  split at hfinish
  · split at hfinish
    · cases hfinish
    · cases hfinish
      rintro cursor ⟨⟩
      rfl
  · cases hfinish
    rintro cursor ⟨⟩

/-- The last item comes from the last entry. -/
theorem decodeEntries_getLast {read : Value → Except IndexError T} {entries : List (Key × Stored Value)}
    {items : List T} (h : decodeEntries read entries = .ok items) {e : Key × Stored Value}
    (he : entries.getLast? = some e) : ∃ item, items.getLast? = some item ∧ read e.2.value = .ok item := by
  obtain ⟨front, rfl⟩ := List.getLast?_eq_some_iff.mp he
  induction front generalizing items with
  | nil =>
    simp only [List.nil_append, decodeEntries, bind, Except.bind, pure, Except.pure] at h
    cases hr : read e.2.value with
    | error err =>
      rw [hr] at h
      cases h
    | ok item =>
      rw [hr] at h
      cases h
      exact ⟨item, rfl, rfl⟩
  | cons x front ih =>
    simp only [List.cons_append, decodeEntries, bind, Except.bind, pure, Except.pure] at h
    cases hr : read x.2.value with
    | error err =>
      rw [hr] at h
      cases h
    | ok item =>
      rw [hr] at h
      dsimp only at h
      cases hrest : decodeEntries read (front ++ [e]) with
      | error err =>
        rw [hrest] at h
        cases h
      | ok rest =>
        rw [hrest] at h
        cases h
        obtain ⟨last, hlast, hread⟩ := ih hrest (by simp)
        refine ⟨last, ?_, hread⟩
        rw [List.getLast?_cons, hlast]
        rfl

theorem exists_last {α : Type} {rest : List α} {limit : Nat} (hpos : 0 < limit)
    (hleft : limit < rest.length) : ∃ e, (rest.take limit).getLast? = some e := by
  apply Option.ne_none_iff_exists'.mp
  rw [Ne, List.getLast?_eq_none_iff, List.take_eq_nil_iff]
  rintro (h | rfl)
  · omega
  · simp at hleft

theorem outputPage_alone {request : OutputRequest} {after next : Option OutputCursor} {limit : Nat}
    {items : List IndexedOutput} {front rest : List (Key × Stored Value)}
    (hread : ReadTo s (Keys.outputPrefix self request.address) (after.map (·.position)) front rest)
    (h : Prog.run (serve size) (outputPage self request after limit) s = (.ok (items, next), s')) :
    s' = s ∧ decodeEntries decodeOutput (rest.take limit) = .ok items ∧
      (next = none → rest.length ≤ limit) ∧
      ∀ cursor, next = some cursor → ReadTo s (Keys.outputPrefix self request.address)
        (some cursor.position) (front ++ rest.take limit) (rest.drop limit) := by
  obtain ⟨page, t, hlist, hpure⟩ := (Prog.run_bind_ok _).mp h
  cases (Prog.run_pure_ok _).mp hpure |>.1
  obtain rfl := ((Prog.run_pure_ok _).mp hpure).2
  rw [listOutputs_eq] at hlist
  obtain ⟨rfl, c, scanned, outputs, hfinish, hentries, hpos, hnone, hsome, hdecode⟩ :=
    listing_alone hread hlist
  unfold finishOutputs at hfinish
  split at hfinish
  · rename_i hmore
    obtain ⟨e, he⟩ := exists_last hpos (hsome hmore)
    rw [hentries, he] at hfinish
    cases hfinish
    refine ⟨rfl, hdecode, by rintro ⟨⟩, ?_⟩
    rintro cursor ⟨⟩
    exact readTo_next hread he
  · rename_i hmore
    cases hfinish
    exact ⟨rfl, hdecode, fun _ => hnone (by simpa using hmore), by rintro cursor ⟨⟩⟩

theorem isHistory_of_under {address : CanonicalAddress} {k : Key}
    (h : (Keys.historyPrefix scope address).isPrefixOf k = true) : Keys.isHistory scope k = true := by
  rw [List.isPrefixOf_iff_prefix] at h
  rw [Keys.isHistory, List.isPrefixOf_iff_prefix]
  exact (List.prefix_append _ _).trans h

theorem history_key {branch : List BlockAddition} (h : Holds size scope branch s)
    {address : CanonicalAddress} {e : Key × Stored Value} {t : CanonicalTransaction}
    (he : e ∈ s.under (Keys.historyPrefix scope address)) (hread : decodeTransaction e.2.value = .ok t) :
    e.1 = Keys.history scope address t.block.height t.transactionId := by
  obtain ⟨hget, hpre⟩ := mem_under.mp he
  obtain ⟨r, hr, hdomain⟩ : ∃ r, e.2.value = .transaction r ∧ r.intoDomain = .ok t := by
    simp only [decodeTransaction, bind, Except.bind] at hread
    cases hd : decode TransactionRecord e.2.value with
    | error err =>
      rw [hd] at hread
      cases hread
    | ok r =>
      rw [hd] at hread
      exact ⟨r, decode_ok.mp hd, hread⟩
  have hfact : factsOf scope branch e.1 = some (.transaction r) := by
    rw [← h.stored, facts_eq (isFact_history (isHistory_of_under hpre)), Store.valueAt, hget, ← hr]
    rfl
  obtain ⟨p, hkey, hp⟩ := (sound_factsOf h.written).history _ _ hfact
  rw [hdomain] at hp
  obtain rfl := Except.ok.inj hp
  -- The prefix fixes the address, whose text is framed by its length.
  have haddress : p.2.value = address.value := by
    rw [hkey, List.isPrefixOf_iff_prefix] at hpre
    obtain ⟨z, hz⟩ := hpre
    simp only [historyKey, Keys.history, Keys.historyPrefix, List.append_assoc] at hz
    exact (Keys.component_append_inj (List.append_cancel_left hz)).1.symm
  rw [hkey, historyKey, Keys.history, Keys.history, Keys.historyPrefix, Keys.historyPrefix, haddress]

theorem transactionPage_alone {branch : List BlockAddition} (hholds : Holds size self branch s)
    {request : HistoryQuery} {after next : Option HistoryCursor} {limit : Nat}
    {items : List CanonicalTransaction} {front rest : List (Key × Stored Value)}
    (hread : ReadTo s (Keys.historyPrefix self request.address) (after.map fun cursor =>
      Keys.history self request.address cursor.position.height cursor.position.transaction) front rest)
    (h : Prog.run (serve size) (transactionPage self request after limit) s = (.ok (items, next), s')) :
    s' = s ∧ decodeEntries decodeTransaction (rest.take limit) = .ok items ∧
      (next = none → rest.length ≤ limit) ∧
      ∀ cursor, next = some cursor → ReadTo s (Keys.historyPrefix self request.address)
        (some (Keys.history self request.address cursor.position.height cursor.position.transaction))
        (front ++ rest.take limit) (rest.drop limit) := by
  obtain ⟨page, t, hlist, hpure⟩ := (Prog.run_bind_ok _).mp h
  cases (Prog.run_pure_ok _).mp hpure |>.1
  obtain rfl := ((Prog.run_pure_ok _).mp hpure).2
  rw [listTransactions_eq] at hlist
  obtain ⟨rfl, c, scanned, transactions, hfinish, -, hpos, hnone, hsome, hdecode⟩ :=
    listing_alone hread hlist
  cases hfinish
  refine ⟨rfl, hdecode, ?_, ?_⟩
  · intro hnext
    cases hmore : scanned.next with
    | none => exact hnone hmore
    | some k =>
      obtain ⟨e, he⟩ := exists_last hpos (hsome (by rw [hmore]; rfl))
      obtain ⟨last, hlast, -⟩ := decodeEntries_getLast hdecode he
      simp [hmore, hlast] at hnext
  · intro cursor hnext
    cases hmore : scanned.next with
    | none => simp [hmore] at hnext
    | some k =>
      obtain ⟨e, he⟩ := exists_last hpos (hsome (by rw [hmore]; rfl))
      obtain ⟨last, hlast, hreadlast⟩ := decodeEntries_getLast hdecode he
      simp only [hmore, Option.isSome_some, if_true, hlast, Option.map_some, Option.some.injEq] at hnext
      subst hnext
      have hmem := List.mem_append_right front (List.mem_of_mem_take (List.mem_of_getLast? he))
      rw [← hread.listing] at hmem
      rw [← history_key hholds hmem hreadlast]
      exact readTo_next hread he

/-! ## Snapshots -/

/-- Every step in which the store changes leaves another checkpoint than the first one. -/
def NoReturn (scope : IndexScope) (s : Store Value) (trace : List (Store Value)) : Prop :=
  (s :: trace).IsChain fun t t' => t' = t ∨
    t'.valueAt (Keys.checkpoint scope) ≠ s.valueAt (Keys.checkpoint scope)

/-- A finished traversal, of history or of live outputs, among any commits that do not put its
first checkpoint back: its items are those of one store on the way. -/
theorem pages_are_snapshots (size : Value → Bool) (scope : IndexScope) (s₀ : Store Value)
    (hempty : Empty scope s₀) (earlier : List BlockCall) (schedule : List (List BlockCall))
    (limits : List Nat) :
    let s := (execute size scope earlier s₀).1
    (∀ (request : HistoryQuery) items,
      let passage := commitsAmong size scope (follow (transactionPage scope request) limits none)
        ([] :: schedule) s
      passage.result = .ok (some items) → NoReturn scope s passage.trace →
        ∃ t ∈ s :: passage.trace,
          IsListing decodeTransaction (Keys.historyPrefix scope request.address) t items) ∧
    (∀ (request : OutputRequest) items,
      let passage := commitsAmong size scope (follow (outputPage scope request) limits none)
        ([] :: schedule) s
      passage.result = .ok (some items) → NoReturn scope s passage.trace →
        ∃ t ∈ s :: passage.trace,
          IsListing decodeOutput (Keys.outputPrefix scope request.address) t items) := by
  intro s
  have hholds := (holds_execute size hempty earlier).1
  constructor
  · intro request items passage hresult hreturn
    have hspec : PageSpec size scope s (transactionPage scope request) (·.checkpoint)
        (fun cursor => Keys.history scope request.address cursor.position.height
          cursor.position.transaction)
        decodeTransaction (Keys.historyPrefix scope request.address) :=
      ⟨transactionPage_checked, transactionPage_alone hholds⟩
    have hpassage : commitsAmong size scope (follow (transactionPage scope request) limits none)
        ([] :: schedule) s = ⟨.ok (some items), passage.state, passage.left, passage.trace⟩ := by
      rw [← hresult]
    exact ⟨s, List.mem_cons_self, follow_isListing hspec hpassage hreturn⟩
  · intro request items passage hresult hreturn
    have hspec : PageSpec size scope s (outputPage scope request) (·.checkpoint) (·.position)
        decodeOutput (Keys.outputPrefix scope request.address) :=
      ⟨outputPage_checked, outputPage_alone⟩
    have hpassage : commitsAmong size scope (follow (outputPage scope request) limits none)
        ([] :: schedule) s = ⟨.ok (some items), passage.state, passage.left, passage.trace⟩ := by
      rw [← hresult]
    exact ⟨s, List.mem_cons_self, follow_isListing hspec hpassage hreturn⟩

theorem isListing_iff {read : Value → Except IndexError T} {pre : Key} {items : List T} :
    IsListing read pre s items ↔ decodeEntries read (s.under pre) = .ok items := by
  constructor
  · rintro ⟨entries, hsorted, hmem, hread⟩
    have hnodup : ∀ {l : List (Key × Stored Value)},
        l.Pairwise (fun a b => compare a.1 b.1 = .lt) → l.Nodup := by
      intro l hl
      refine hl.imp fun {a b} hab heq => ?_
      subst heq
      simp at hab
    have hperm : entries.Perm (s.under pre) := by
      rw [List.perm_ext_iff_of_nodup (hnodup hsorted) (hnodup (under_ascending s pre))]
      intro e
      rw [hmem, mem_under]
    have heq : entries = s.under pre := by
      refine hperm.eq_of_pairwise (fun a b _ _ hab hba => ?_) hsorted (under_ascending s pre)
      rw [Std.OrientedCmp.gt_of_lt hab] at hba
      cases hba
    rwa [heq] at hread
  · intro hread
    exact ⟨s.under pre, under_ascending s pre, fun e => mem_under, hread⟩

/-! ## A block that comes back

Two transactions of one address are in one block. -/

def sampleTransaction (id : Text) : CanonicalTransaction :=
  ⟨sampleScope, ⟨sampleScope, id⟩, .included sampleNext, [],
    some ⟨⟨sampleScope.chain, .lit "coin" (Eq.refl true)⟩, Decimal.normalize 1 0 Decimal.zero_lt_scale,
      some sampleAddress⟩⟩

def sampleFirst : CanonicalTransaction := sampleTransaction (.lit "1" (Eq.refl true))

def sampleSecond : CanonicalTransaction := sampleTransaction (.lit "2" (Eq.refl true))

theorem sampleTransaction_valid (id : Text) : (sampleTransaction id).Valid sampleScope sampleNext :=
  ⟨rfl, rfl, rfl, by simp [sampleTransaction],
    by rintro f ⟨⟩; exact ⟨by decide, by rintro a ⟨⟩; rfl⟩⟩

def sampleTraffic : BlockAddition :=
  { sampleFollow with
    transactions := [sampleFirst, sampleSecond]
    valid :=
      { sampleFollow.valid with
        canonical := by
          intro t ht
          rcases List.mem_pair.mp ht with rfl | rfl <;> exact sampleTransaction_valid _
        ids := by decide } }

def sampleBlocks : List BlockCall :=
  [.add (sampleAnchor sampleGenesis), .add sampleTraffic]

def sampleHistory : Store Value := (execute (fun _ => true) sampleScope sampleBlocks Store.empty).1

/-- The history of the address, in two pages of one transaction. -/
def samplePages (schedule : List (List BlockCall)) :
    Prog.Passage BlockCall (Except IndexError (Option (List CanonicalTransaction))) (Store Value) :=
  commitsAmong (fun _ => true) sampleScope
    (follow (transactionPage sampleScope ⟨sampleScope, sampleAddress, none, 1⟩) [1, 1] none)
    ([] :: schedule) sampleHistory

theorem noReturn_samplePages :
    NoReturn sampleScope sampleHistory (samplePages [[.add sampleTraffic]]).trace := by
  have h : (samplePages [[.add sampleTraffic]]).trace = List.replicate 7 sampleHistory := rfl
  rw [h]
  simp [NoReturn, List.replicate]

theorem pages_are_snapshots_sample :
    Empty sampleScope Store.empty ∧
      (samplePages [[.add sampleTraffic]]).result = .ok (some [sampleFirst, sampleSecond]) ∧
      NoReturn sampleScope sampleHistory (samplePages [[.add sampleTraffic]]).trace ∧
      ∃ t ∈ sampleHistory :: (samplePages [[.add sampleTraffic]]).trace,
        IsListing decodeTransaction (Keys.historyPrefix sampleScope sampleAddress) t
          [sampleFirst, sampleSecond] :=
  ⟨empty_empty _, by decide, noReturn_samplePages,
    (pages_are_snapshots _ _ _ (empty_empty _) sampleBlocks [[.add sampleTraffic]] [1, 1]).1
      ⟨sampleScope, sampleAddress, none, 1⟩ [sampleFirst, sampleSecond] (by decide)
      noReturn_samplePages⟩

/-- The second page is scanned while its block is away: the second transaction is missing,
though no store on the way has only the first. -/
theorem pages_miss_returning_block :
    let passage := samplePages [[], [], [], [.remove sampleScope sampleNext], [.add sampleTraffic]]
    passage.result = .ok (some [sampleFirst]) ∧
      ∀ t ∈ sampleHistory :: passage.trace,
        ¬IsListing decodeTransaction (Keys.historyPrefix sampleScope sampleAddress) t [sampleFirst] := by
  simp only [isListing_iff]
  decide

end PaymentSdk.Redb
