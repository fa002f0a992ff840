import PaymentSdk.Ethereum.Coordinator.Invariant

/-!
# Each act of a caller keeps the invariant

Admission, nonce assignment, registration, detaching, claiming, hand-over and the three ends
of a claim, and the end of an operation. Each has the invariant of the state, then what the
other callers rely on, then the whole.
-/

open Std

namespace PaymentSdk.Ethereum

variable {crypto : Crypto} {s s' : State} {log : List Trace} {v : Nat → View} {i : Nat}
  {id : TransactionId} {operation : UInt64}

/-! ## Admission -/

theorem Core.admitted {senders : List (Address × Nat)} (h : Core crypto s log)
    (ha : s.Admitted senders operation s') : Core crypto s' log := by
  have hindex : ∀ a, (s'.sender a).records = (s.sender a).records := by
    intro a
    rw [ha.sender]
    split <;> rfl
  have hfloor : ∀ a, (s'.sender a).floor = (s.sender a).floor := by
    intro a
    rw [ha.sender]
    split <;> rfl
  have hnext := ha.next
  refine ⟨?_, ?_, ?_, ?_, ?_, ?_, ?_, ?_, h.safe⟩
  · intro a id
    rw [hindex, ha.records]
    exact h.index a id
  · rw [ha.records]
    exact h.genuine
  · rw [ha.records]
    exact h.distinct
  · intro a op hactive
    rw [ha.sender] at hactive
    split at hactive
    · cases hactive
      rw [ha.fresh]
      omega
    · have := h.active a op hactive
      omega
  · intro op a n hmem
    have := h.assigned op a n hmem
    omega
  · rw [ha.records]
    exact h.prepared
  · intro t ht
    obtain ⟨hg, hr⟩ := h.handed t ht
    refine ⟨hg, hr.imp ?_ (Or.imp_left ?_)⟩
    · rw [ha.records]
      exact fun h => h
    · rintro ⟨a, f, hsender, hf, hlt⟩
      exact ⟨a, f, hsender, by rw [hfloor]; exact hf, hlt⟩
  · rw [ha.records]
    exact h.justified

theorem Core.none_of_admitted {senders : List (Address × Nat)} (h : Core crypto s log)
    (ha : s.Admitted senders operation s') {a : Address} (hmem : a ∈ senders.map (·.1)) (id : TransactionId)
    (r : Record) (hr : s.records[id]? = some r) : r.source ≠ a := by
  intro hsource
  rw [(ha.free a hmem).2 id ((h.index a id).mpr ⟨r, hr, hsource⟩)] at hr
  cases hr

theorem Inv.admitted {senders : List (Address × Nat)} {sources : List Address} (h : Inv crypto s log v)
    (ha : s.Admitted senders operation s') (hsources : ∀ a ∈ sources, a ∈ senders.map (·.1)) :
    Inv crypto s' log (Function.update v i { operation := some operation, sources, assigning := true }) := by
  have hnext := ha.next
  have hfresh : ∀ j, (v j).operation ≠ some operation := by
    intro j hj
    have hlt := (h.views j).bounded operation hj
    rw [ha.fresh] at hlt
    omega
  have hcore : Core crypto s' (log ++ []) := by
    rw [List.append_nil]
    exact h.core.admitted ha
  have hview : ViewOk crypto s' (log ++ []) { operation := some operation, sources, assigning := true } := by
    rw [List.append_nil]
    refine ⟨?_, ?_, by simp, ?_, by simp, .nil, by simp, by simp⟩
    · rintro op ⟨⟩
      rw [ha.fresh]
      omega
    · rintro op ⟨⟩ a hmem
      refine ⟨by rw [ha.sender, if_pos (hsources a hmem)], ?_⟩
      rw [ha.records]
      exact h.core.none_of_admitted ha (hsources a hmem)
    · rintro _ op ⟨⟩ a n hmem
      have := h.core.assigned operation a n hmem
      rw [ha.fresh] at this
      omega
  have hrely : ∀ j, j ≠ i → Rely crypto s log s' [] (v j) := by
    intro j _
    refine ⟨by omega, ?_, ?_, by simp, by simp, ?_⟩
    · intro op a hop hactive
      have hout : a ∉ senders.map (·.1) := by
        intro hmem
        rw [(ha.free a hmem).1] at hactive
        cases hactive
      rw [ha.sender, if_neg hout]
      exact hactive
    · intro op a _ _ id r hr hsource
      rw [ha.records] at hr
      exact ⟨r, hr, hsource⟩
    · intro c sent _
      rw [ha.records]
      exact ⟨List.not_mem_nil, fun _ hr _ => hr⟩
  have hact := h.act (i := i) hcore hview hrely (by rintro op ⟨⟩ j _; exact hfresh j) (by simp)
  rwa [List.append_nil] at hact

/-! ## Nonces -/

theorem Core.log_assigned (h : Core crypto s log) (hop : operation.toNat < s.nextOperation.toNat)
    (a : Address) (n : UInt64) : Core crypto s (log ++ [.assigned operation a n]) := by
  refine ⟨h.index, h.genuine, h.distinct, h.active, ?_, ?_, ?_, ?_, safe_of_not_handed h.safe (by simp)⟩
  · intro op b m hmem
    rcases List.mem_append.mp hmem with hmem | hmem
    · exact h.assigned op b m hmem
    · obtain ⟨rfl, _⟩ := by simpa using hmem
      exact hop
  · intro id r hr hstatus hmem
    exact (h.prepared id r hr hstatus (by simpa using hmem)).append _
  · intro t ht
    obtain ⟨hg, hr⟩ := h.handed t (by simpa using ht)
    exact ⟨hg, hr.imp_right (Or.imp_right (·.append _))⟩
  · exact fun id r hr => (h.justified id r hr).append (by simp) (by simp)

theorem cleared_assigned {a : Address} {start : UInt64} (h : Core crypto s log)
    (hnone : ∀ (id : TransactionId) (r : Record), s.records[id]? = some r → r.source ≠ a)
    (hfloor : ∀ f, (s.sender a).floor = some f → f.toNat ≤ start.toNat)
    (honce : ∀ n, .assigned operation a n ∉ log) :
    Cleared crypto (log ++ [.assigned operation a start]) operation a start := by
  refine ⟨log, [], ⟨rfl, honce, ?_⟩⟩
  intro t ht hsender hnonce
  obtain ⟨_, hresolved⟩ := h.handed t (by simpa using ht)
  rcases hresolved with ⟨r, hr, rfl⟩ | ⟨b, f, hsender', hf, hlt⟩ | hrejected
  · have hsource := (h.genuine _ _ hr).2.1.sender
    rw [hsender] at hsource
    exact absurd (Option.some.inj hsource).symm (hnone _ _ hr)
  · obtain rfl : a = b := Option.some.inj (hsender.symm.trans hsender')
    have := hfloor f hf
    omega
  · exact hrejected

theorem Inv.assign {a : Address} {start : UInt64} (h : Inv crypto s log v)
    (hop : (v i).operation = some operation) (hassigning : (v i).assigning = true) (ha : a ∈ (v i).sources)
    (hstarts : (v i).starts a = none)
    (hfloor : ∀ f, (s.sender a).floor = some f → f.toNat ≤ start.toNat) :
    Inv crypto s (log ++ [.assigned operation a start])
      (Function.update v i { v i with starts := Function.update (v i).starts a (some start) }) := by
  have hview := h.views i
  have hnone := (hview.admitted operation hop a ha).2
  have honce : ∀ n, .assigned operation a n ∉ log := by
    intro n hmem
    have := hview.assigning hassigning operation hop a n hmem
    rw [hstarts] at this
    cases this
  have happend : ∀ b n, Cleared crypto log operation b n →
      Cleared crypto (log ++ [.assigned operation a start]) operation b n := fun b n hc => hc.append (by simp)
  refine h.act_kept (h.core.log_assigned (hview.bounded operation hop) a start) ?_ ?_ (fun _ h => h)
    fun c sent h => ⟨sent, h⟩
  · refine ⟨hview.bounded, hview.admitted, ?_, ?_, ?_, hview.distinct, hview.signed, ?_⟩
    · intro op hop' b n hn
      obtain rfl : operation = op := Option.some.inj (hop.symm.trans hop')
      dsimp only at hn ⊢
      by_cases hb : b = a
      · subst hb
        rw [Function.update_self] at hn
        cases hn
        exact ⟨ha, cleared_assigned h.core hnone hfloor honce⟩
      · rw [Function.update_of_ne hb] at hn
        obtain ⟨hmem, hc⟩ := hview.starts operation hop b n hn
        exact ⟨hmem, happend b n hc⟩
    · intro _ op hop' b n hmem
      obtain rfl : operation = op := Option.some.inj (hop.symm.trans hop')
      dsimp only
      by_cases hb : b = a
      · subst hb
        simp
      · rw [Function.update_of_ne hb]
        refine hview.assigning hassigning operation hop b n ?_
        simpa [hb] using hmem
    · intro op hop' p hp
      obtain rfl : operation = op := Option.some.inj (hop.symm.trans hop')
      obtain ⟨hmem, hnonce, n, hn, hc⟩ := hview.planned operation hop p hp
      exact ⟨hmem, hnonce, n, hn, happend p.1 n hc⟩
    · intro c sent hc
      exact (hview.claim c sent hc).rely (by simp) fun _ hr _ => hr
  · intro j hj
    refine ⟨Nat.le_refl _, fun _ _ _ h => h, fun _ _ _ _ id r hr hs => ⟨r, hr, hs⟩, by simp, ?_, ?_⟩
    · intro op b n hopj hmem
      obtain ⟨rfl, _⟩ := by simpa using hmem
      exact hj (h.operations j i op hopj hop)
    · exact fun c sent _ => ⟨by simp, fun _ hr _ => hr⟩

/-! ## Registration -/

theorem ids_nodup (hinj : Function.Injective crypto.keccak) {entries : List PreparedEntry}
    (hgenuine : ∀ e ∈ entries, e.signed.Genuine crypto e.source e.nonce)
    (hdistinct : (entries.map fun e => (e.source, e.nonce)).Pairwise fun p q => p.1 = q.1 → p.2 ≠ q.2) :
    (entries.map (·.signed.id)).Nodup := by
  rw [List.pairwise_map] at hdistinct
  rw [List.Nodup, List.pairwise_map]
  refine hdistinct.imp_of_mem ?_
  intro e e' he he' hne hid
  have hsame := (hgenuine e he).eq_of_id hinj (hgenuine e' he') hid
  have hg := hgenuine e he
  have hg' := hgenuine e' he'
  rw [← hsame] at hg'
  refine hne (Option.some.inj (hg.sender.symm.trans hg'.sender)) ?_
  exact hg.nonce.symm.trans hg'.nonce

section Register

variable {entries : List PreparedEntry}

/-- What a caller knows about the entries that it is about to register. -/
structure Registrable (crypto : Crypto) (s : State) (log : List Trace) (operation : UInt64)
    (entries : List PreparedEntry) : Prop where
  genuine : ∀ e ∈ entries, e.signed.Genuine crypto e.source e.nonce
  distinct : (entries.map fun e => (e.source, e.nonce)).Pairwise fun p q => p.1 = q.1 → p.2 ≠ q.2
  nonce : ∀ e ∈ entries, e.nonce.toNat + 1 < 2 ^ 64
  alone : ∀ e ∈ entries, ∀ (id : TransactionId) (r : Record), s.records[id]? = some r → r.source ≠ e.source
  cleared : ∀ e ∈ entries, ∃ start, start.toNat ≤ e.nonce.toNat ∧ Cleared crypto log operation e.source start

theorem registrable_of_view {u : View} (h : ViewOk crypto s log u) (hop : u.operation = some operation)
    (hplan : u.plan = entries.map fun e => (e.source, e.nonce)) (hsigned : u.signed = entries) :
    Registrable crypto s log operation entries := by
  have hplanned : ∀ e ∈ entries, e.source ∈ u.sources ∧ e.nonce.toNat + 1 < 2 ^ 64 ∧
      ∃ start, start.toNat ≤ e.nonce.toNat ∧ Cleared crypto log operation e.source start := by
    intro e he
    exact h.planned operation hop (e.source, e.nonce) (by rw [hplan]; exact List.mem_map_of_mem he)
  refine ⟨?_, by rw [← hplan]; exact h.distinct, fun e he => (hplanned e he).2.1, ?_,
    fun e he => (hplanned e he).2.2⟩
  · rw [← hsigned]
    exact h.signed
  · exact fun e he => (h.admitted operation hop e.source (hplanned e he).1).2

theorem Registrable.eq_of_nonce (h : Registrable crypto s log operation entries) {e e' : PreparedEntry}
    (he : e ∈ entries) (he' : e' ∈ entries) (hsource : e.source = e'.source) (hnonce : e.nonce = e'.nonce) :
    e = e' := by
  have hpair := h.distinct
  rw [List.pairwise_map, List.pairwise_iff_getElem] at hpair
  obtain ⟨k, hk, rfl⟩ := List.mem_iff_getElem.mp he
  obtain ⟨k', hk', rfl⟩ := List.mem_iff_getElem.mp he'
  rcases Nat.lt_trichotomy k k' with hlt | rfl | hlt
  · exact absurd hnonce (hpair k k' hk hk' hlt hsource)
  · rfl
  · exact absurd hnonce.symm (hpair k' k hk' hk hlt hsource.symm)

theorem record_cases (hr : s.Registers operation entries s') {r : Record} (h : s'.records[id]? = some r) :
    (s.records[id]? = some r ∧ id ∉ entries.map (·.signed.id)) ∨
      ∃ e ∈ entries, e.signed.id = id ∧ r = State.PreparedEntry.record operation e := by
  by_cases hid : id ∈ entries.map (·.signed.id)
  · obtain ⟨e, he, rfl⟩ := List.mem_map.mp hid
    rw [hr.added e he] at h
    exact .inr ⟨e, he, rfl, (Option.some.inj h).symm⟩
  · rw [hr.others id hid] at h
    exact .inl ⟨h, hid⟩

theorem justified_new (h : Registrable crypto s log operation entries)
    (hids : (entries.map (·.signed.id)).Nodup) {e : PreparedEntry} (he : e ∈ entries) :
    Justified crypto (log ++ entries.map fun e => .registered operation e.signed) e.signed := by
  obtain ⟨start, hstart, before, after, hc⟩ := h.cleared e he
  have hg := h.genuine e he
  obtain ⟨front, rest, rfl⟩ := List.append_of_mem he
  refine ⟨operation, e.source, start, before, after ++ front.map (fun e => .registered operation e.signed),
    rest.map (fun e => .registered operation e.signed), hg.sender, ?_, hc.once, ?_, ?_⟩
  · rw [hc.split]
    simp
  · intro op hmem
    obtain ⟨e', he', heq⟩ := List.mem_map.mp hmem
    have hid : e'.signed.id = e.signed.id := congrArg (·.id) (Trace.registered.inj heq).2
    rw [List.map_append, List.map_cons, List.nodup_append] at hids
    exact (List.nodup_cons.mp hids.2.1).1 (List.mem_map.mpr ⟨e', he', hid⟩)
  · intro u hu _ hsender hnonce
    refine hc.rejected u ?_ hsender ?_
    · rcases List.mem_append.mp hu with hu | hu
      · exact hu
      · obtain ⟨_, _, heq⟩ := List.mem_map.mp hu
        cases heq
    · rw [hnonce, hg.nonce]
      exact hstart

/-- The registrations of a batch hand nothing over. -/
theorem handed_of_append {t : SignedTransaction}
    (h : .handed t ∈ log ++ entries.map fun e => .registered operation e.signed) : .handed t ∈ log := by
  rcases List.mem_append.mp h with h | h
  · exact h
  · obtain ⟨_, _, heq⟩ := List.mem_map.mp h
    cases heq

theorem not_mem_of_record (hnew : ∀ e ∈ entries, s.records[e.signed.id]? = none) {id : TransactionId} {r : Record}
    (hr : s.records[id]? = some r) : id ∉ entries.map (·.signed.id) := by
  intro hmem
  obtain ⟨e, he, rfl⟩ := List.mem_map.mp hmem
  rw [hnew e he] at hr
  cases hr

/-- The index has the old ids and those of the entries. -/
theorem Core.index_registers (h : Core crypto s log) (hnew : ∀ e ∈ entries, s.records[e.signed.id]? = none)
    (hr : s.Registers operation entries s') (a : Address) (id : TransactionId) :
    id ∈ (s'.sender a).records ↔ ∃ r, s'.records[id]? = some r ∧ r.source = a := by
  rw [hr.index, h.index]
  constructor
  · rintro (⟨r, hid, hsource⟩ | ⟨e, he, rfl, rfl⟩)
    · exact ⟨r, by rw [hr.others id (not_mem_of_record hnew hid)]; exact hid, hsource⟩
    · exact ⟨_, hr.added e he, rfl⟩
  · rintro ⟨r, hid, hsource⟩
    rcases record_cases hr hid with ⟨hid, _⟩ | ⟨e, he, rfl, rfl⟩
    · exact .inl ⟨r, hid, hsource⟩
    · exact .inr ⟨e, he, hsource, rfl⟩

/-- A nonce of the plan is clear of whatever was handed over before. -/
theorem Core.prepared_registers (h : Core crypto s log) (hc : Registrable crypto s log operation entries)
    (hr : s.Registers operation entries s') {id : TransactionId} {r : Record} (hid : s'.records[id]? = some r)
    (hstatus : r.status = .prepared)
    (hmem : .handed r.transaction ∈ log ++ entries.map fun e => .registered operation e.signed) :
    FirstRejected (log ++ entries.map fun e => .registered operation e.signed) r.transaction := by
  rcases record_cases hr hid with ⟨hid, _⟩ | ⟨e, he, rfl, rfl⟩
  · exact (h.prepared id r hid hstatus (handed_of_append hmem)).append _
  · obtain ⟨start, hstart, before, after, hcl⟩ := hc.cleared e he
    have hg := hc.genuine e he
    have hrejected := hcl.rejected e.signed (handed_of_append hmem) hg.sender (by rw [hg.nonce]; exact hstart)
    rw [hcl.split, List.append_assoc]
    exact hrejected.append _

/-- A new record has its registration in the log. -/
theorem Core.justified_registers (h : Core crypto s log) (hc : Registrable crypto s log operation entries)
    (hids : (entries.map (·.signed.id)).Nodup) (hr : s.Registers operation entries s') {id : TransactionId} {r : Record}
    (hid : s'.records[id]? = some r) :
    Justified crypto (log ++ entries.map fun e => .registered operation e.signed) r.transaction := by
  rcases record_cases hr hid with ⟨hid, hout⟩ | ⟨e, he, rfl, rfl⟩
  · refine (h.justified id r hid).append ?_ ?_
    · intro op hmem
      obtain ⟨e, he, heq⟩ := List.mem_map.mp hmem
      have hsame : e.signed = r.transaction := (Trace.registered.inj heq).2
      refine hout (List.mem_map.mpr ⟨e, he, ?_⟩)
      rw [hsame]
      exact (h.genuine id r hid).1
    · intro u hu
      obtain ⟨_, _, heq⟩ := List.mem_map.mp hu
      cases heq
  · exact justified_new hc hids he

theorem Core.register (h : Core crypto s log) (hc : Registrable crypto s log operation entries)
    (hids : (entries.map (·.signed.id)).Nodup)
    (hnew : ∀ e ∈ entries, s.records[e.signed.id]? = none) (hr : s.Registers operation entries s') :
    Core crypto s' (log ++ entries.map fun e => .registered operation e.signed) := by
  refine ⟨h.index_registers hnew hr, ?_, ?_, ?_, ?_, fun id r => h.prepared_registers hc hr, ?_,
    fun id r => h.justified_registers hc hids hr, safe_of_not_handed h.safe fun t ht => ?_⟩
  · intro id r hid
    rcases record_cases hr hid with ⟨hid, _⟩ | ⟨e, he, rfl, rfl⟩
    · exact h.genuine id r hid
    · exact ⟨rfl, hc.genuine e he, hc.nonce e he⟩
  · -- An old and a new record of one sender cannot be, since its senders had none.
    intro id r id' r' hid hid' hsource hnonce
    rcases record_cases hr hid with ⟨hid, _⟩ | ⟨e, he, rfl, rfl⟩ <;>
      rcases record_cases hr hid' with ⟨hid', _⟩ | ⟨e', he', rfl, rfl⟩
    · exact h.distinct id r id' r' hid hid' hsource hnonce
    · exact absurd hsource (hc.alone e' he' id r hid)
    · exact absurd hsource.symm (hc.alone e he id' r' hid')
    · rw [hc.eq_of_nonce he he' hsource hnonce]
  · intro a op hactive
    rw [hr.next]
    rw [hr.active] at hactive
    exact h.active a op hactive
  · intro op a n hmem
    rw [hr.next]
    rcases List.mem_append.mp hmem with hmem | hmem
    · exact h.assigned op a n hmem
    · obtain ⟨_, _, heq⟩ := List.mem_map.mp hmem
      cases heq
  · intro t ht
    obtain ⟨hg, hresolved⟩ := h.handed t (handed_of_append ht)
    refine ⟨hg, ?_⟩
    rcases hresolved with ⟨r, hid, ht'⟩ | ⟨a, f, hsender, hf, hlt⟩ | hrejected
    · exact .inl ⟨r, by rw [hr.others _ (not_mem_of_record hnew hid)]; exact hid, ht'⟩
    · exact .inr (.inl ⟨a, f, hsender, by rw [hr.floor]; exact hf, hlt⟩)
    · exact .inr (.inr (hrejected.append _))
  · obtain ⟨_, _, heq⟩ := List.mem_map.mp ht
    cases heq

/-- The caller keeps its operation, and what it planned is recorded. -/
theorem Inv.register (hinj : Function.Injective crypto.keccak) (h : Inv crypto s log v)
    (hop : (v i).operation = some operation) (hplan : (v i).plan = entries.map fun e => (e.source, e.nonce))
    (hsigned : (v i).signed = entries) (hr : s.register operation entries = .ok s') :
    Inv crypto s' (log ++ entries.map fun e => .registered operation e.signed)
      (Function.update v i { operation := some operation }) := by
  obtain ⟨hchecked, rfl⟩ := State.register_ok hr
  have hc := registrable_of_view (h.views i) hop hplan hsigned
  have hids := ids_nodup hinj hc.genuine hc.distinct
  have hregisters : s.Registers operation entries (entries.foldl (State.insertRecord operation) s) :=
    State.registers_foldl hids s
  have hnew : ∀ e ∈ entries, s.records[e.signed.id]? = none := fun e he => (hchecked e he).1
  have hevents : ∀ x ∈ entries.map (fun e => Trace.registered operation e.signed), ∃ t, x = .registered operation t := by
    intro x hx
    obtain ⟨e, _, rfl⟩ := List.mem_map.mp hx
    exact ⟨e.signed, rfl⟩
  refine h.act_kept (h.core.register hc hids hnew hregisters) ?_ ?_ (by rintro op ⟨⟩; exact hop) (by simp)
  · refine ⟨?_, by simp, by simp, by simp, by simp, .nil, by simp, by simp⟩
    rintro op ⟨⟩
    rw [hregisters.next]
    exact (h.views i).bounded operation hop
  · intro j hj
    refine ⟨Nat.le_of_eq (congrArg UInt64.toNat hregisters.next.symm), ?_, ?_, ?_, ?_, ?_⟩
    · intro op a _ hactive
      rw [hregisters.active]
      exact hactive
    · intro op a hopj hactive id r hr hsource
      rcases record_cases hregisters hr with ⟨hold, _⟩ | ⟨e, he, rfl, rfl⟩
      · exact ⟨r, hold, hsource⟩
      · obtain rfl : e.source = a := hsource
        rw [(hchecked e he).2] at hactive
        cases hactive
        exact absurd (h.operations j i operation hopj hop) hj
    · intro a _ t ht
      obtain ⟨_, heq⟩ := hevents _ ht
      cases heq
    · intro op a n _ hmem
      obtain ⟨_, heq⟩ := hevents _ hmem
      cases heq
    · intro c sent _
      refine ⟨fun hmem => ?_, fun r hr _ => ?_⟩
      · obtain ⟨_, heq⟩ := hevents _ hmem
        cases heq
      · have hout : c.id ∉ entries.map (·.signed.id) := by
          intro hmem
          obtain ⟨e, he, hid⟩ := List.mem_map.mp hmem
          rw [← hid, hnew e he] at hr
          cases hr
        rw [hregisters.others c.id hout]
        exact hr

end Register

/-! ## Detaching, claiming and giving up a claim -/

theorem Inv.free_of_status {r : Record} (h : Inv crypto s log v) (hr : s.records[id]? = some r)
    (hstatus : r.status ≠ .reconciling) (j : Nat) (c : SubmissionClaim) (sent : Bool)
    (hc : (v j).claim = some (c, sent)) : c.id ≠ id := by
  rintro rfl
  obtain ⟨r', hr', hstatus', _⟩ := (h.views j).claim c sent hc
  rw [hr] at hr'
  cases hr'
  exact hstatus hstatus'

theorem Inv.free_of_claim {c : SubmissionClaim} {sent : Bool} (h : Inv crypto s log v)
    (hheld : (v i).claim = some (c, sent)) (j : Nat) (hj : j ≠ i) (c' : SubmissionClaim) (sent' : Bool)
    (hc : (v j).claim = some (c', sent')) : c'.id ≠ c.id :=
  fun hid => hj (h.claims j i c' c sent' sent hc hheld hid)

section Replace

variable {r r' : Record}

/-- A record whose envelope stays, and which is not prepared again. -/
structure SameEnvelope (r r' : Record) : Prop where
  source : r'.source = r.source
  nonce : r'.nonce = r.nonce
  transaction : r'.transaction = r.transaction
  prepared : r'.status = .prepared → r.status = .prepared

theorem exists_of_replaces (hr : s.Replaces id r r' s') (hsame : SameEnvelope r r') {id' : TransactionId}
    {q : Record} (hq : s'.records[id']? = some q) :
    ∃ p, s.records[id']? = some p ∧ SameEnvelope p q := by
  rw [hr.records] at hq
  split at hq
  · rename_i hid
    cases hq
    exact ⟨r, hid ▸ hr.before, hsame⟩
  · exact ⟨q, hq, rfl, rfl, rfl, fun h => h⟩

theorem Core.replace (h : Core crypto s log) (hr : s.Replaces id r r' s') (hsame : SameEnvelope r r') :
    Core crypto s' log := by
  have hback : ∀ {id' : TransactionId} {p : Record}, s.records[id']? = some p →
      ∃ q, s'.records[id']? = some q ∧ q.source = p.source ∧ q.transaction = p.transaction := by
    intro id' p hp
    rw [hr.records]
    by_cases hid : id = id'
    · subst hid
      rw [hr.before] at hp
      cases hp
      exact ⟨r', if_pos rfl, hsame.source, hsame.transaction⟩
    · exact ⟨p, by rw [if_neg hid]; exact hp, rfl, rfl⟩
  refine ⟨?_, ?_, ?_, ?_, ?_, ?_, ?_, ?_, h.safe⟩
  · intro a id'
    rw [hr.sender, h.index]
    constructor
    · rintro ⟨p, hp, rfl⟩
      obtain ⟨q, hq, hsource, _⟩ := hback hp
      exact ⟨q, hq, hsource⟩
    · rintro ⟨q, hq, rfl⟩
      obtain ⟨p, hp, hpq⟩ := exists_of_replaces hr hsame hq
      exact ⟨p, hp, hpq.source.symm⟩
  · intro id' q hq
    obtain ⟨p, hp, hpq⟩ := exists_of_replaces hr hsame hq
    rw [hpq.transaction, hpq.source, hpq.nonce]
    exact h.genuine id' p hp
  · intro id₁ q₁ id₂ q₂ hq₁ hq₂ hsource hnonce
    obtain ⟨p₁, hp₁, hpq₁⟩ := exists_of_replaces hr hsame hq₁
    obtain ⟨p₂, hp₂, hpq₂⟩ := exists_of_replaces hr hsame hq₂
    refine h.distinct id₁ p₁ id₂ p₂ hp₁ hp₂ ?_ ?_
    · rw [← hpq₁.source, ← hpq₂.source]
      exact hsource
    · rw [← hpq₁.nonce, ← hpq₂.nonce]
      exact hnonce
  · intro a op hactive
    rw [hr.next]
    rw [hr.sender] at hactive
    exact h.active a op hactive
  · rw [hr.next]
    exact h.assigned
  · intro id' q hq hstatus
    obtain ⟨p, hp, hpq⟩ := exists_of_replaces hr hsame hq
    rw [hpq.transaction]
    exact h.prepared id' p hp (hpq.prepared hstatus)
  · intro t ht
    obtain ⟨hg, hresolved⟩ := h.handed t ht
    refine ⟨hg, ?_⟩
    rcases hresolved with ⟨p, hp, rfl⟩ | ⟨a, f, hsender, hf, hlt⟩ | hrejected
    · obtain ⟨q, hq, _, htransaction⟩ := hback hp
      exact .inl ⟨q, hq, htransaction⟩
    · exact .inr (.inl ⟨a, f, hsender, by rw [hr.sender]; exact hf, hlt⟩)
    · exact .inr (.inr hrejected)
  · intro id' q hq
    obtain ⟨p, hp, hpq⟩ := exists_of_replaces hr hsame hq
    rw [hpq.transaction]
    exact h.justified id' p hp

theorem rely_replaces (hr : s.Replaces id r r' s') (hsame : SameEnvelope r r') {u : View}
    (hfree : ∀ c sent, u.claim = some (c, sent) → c.id ≠ id) : Rely crypto s log s' [] u := by
  refine ⟨Nat.le_of_eq (congrArg UInt64.toNat hr.next.symm), ?_, ?_, by simp, by simp, ?_⟩
  · intro op a _ hactive
    rw [hr.sender]
    exact hactive
  · intro op a _ _ id' q hq hsource
    obtain ⟨p, hp, hpq⟩ := exists_of_replaces hr hsame hq
    exact ⟨p, hp, hpq.source.symm.trans hsource⟩
  · intro c sent hc
    refine ⟨List.not_mem_nil, fun p hp _ => ?_⟩
    rw [hr.records, if_neg (hfree c sent hc).symm]
    exact hp

theorem Inv.replace (h : Inv crypto s log v) (hr : s.Replaces id r r' s') (hsame : SameEnvelope r r')
    (hfree : ∀ j, j ≠ i → ∀ c sent, (v j).claim = some (c, sent) → c.id ≠ id)
    (claim : Option (SubmissionClaim × Bool))
    (hclaim : ∀ c sent, claim = some (c, sent) → c.id = id ∧ ClaimOk s' log c sent) :
    Inv crypto s' log (Function.update v i { v i with claim }) := by
  have hcore : Core crypto s' (log ++ []) := by
    rw [List.append_nil]
    exact h.core.replace hr hsame
  have hbase : ViewOk crypto s' (log ++ []) { v i with claim := none } :=
    ((h.views i).withClaim none (by simp)).rely (rely_replaces hr hsame (by simp))
  have hview : ViewOk crypto s' (log ++ []) { v i with claim } := by
    refine hbase.withClaim claim fun c sent hc => ?_
    rw [List.append_nil]
    exact (hclaim c sent hc).2
  have hact := h.act hcore hview (fun j hj => rely_replaces hr hsame (hfree j hj)) ?_ ?_
  · rwa [List.append_nil] at hact
  · intro op hop j hj hopj
    exact hj (h.operations j i op hopj hop)
  · intro c sent hc j hj c' sent' hc' hid
    rw [(hclaim c sent hc).1] at hid
    exact hfree j hj c' sent' hc' hid.symm

end Replace

theorem Inv.detach (h : Inv crypto s log v) (hd : s.detach operation id = .ok s') :
    Inv crypto s' log (Function.update v i { v i with claim := none }) := by
  obtain ⟨r, _, hstatus, hr⟩ := State.replaces_detach hd
  have hne : r.status ≠ .reconciling := by simp [hstatus]
  refine h.replace hr ⟨rfl, rfl, rfl, fun h => h⟩ ?_ none (by simp)
  exact fun j _ => h.free_of_status hr.before hne j

theorem Inv.claim {expected : Option SignedTransaction} {c : SubmissionClaim} (h : Inv crypto s log v)
    (hc : s.claim id expected = .ok (.ready c, s')) :
    Inv crypto s' log (Function.update v i { v i with claim := some (c, false) }) := by
  obtain ⟨r, rfl, htransaction, hstatus, _, hr⟩ := State.claim_ready hc
  have hne : r.status ≠ .reconciling := by
    rcases hstatus with ⟨hstatus, _⟩ | ⟨hstatus, _⟩ <;> simp [hstatus]
  refine h.replace hr ⟨rfl, rfl, rfl, by simp⟩ (fun j _ => h.free_of_status hr.before hne j) _ ?_
  rintro c' sent ⟨⟩
  refine ⟨rfl, { r with status := .reconciling }, by rw [hr.records, if_pos rfl], rfl, htransaction.symm, ?_⟩
  intro hrecovery
  rw [if_neg (by decide), htransaction]
  rcases hstatus with ⟨hprepared, _⟩ | ⟨_, hclaim⟩
  · exact h.core.prepared c.id r hr.before hprepared
  · rw [hrecovery] at hclaim
    cases hclaim

theorem Inv.release {c : SubmissionClaim} {sent : Bool} (h : Inv crypto s log v)
    (hheld : (v i).claim = some (c, sent)) :
    Inv crypto (s.dropSubmission c.id) log (Function.update v i { v i with claim := none }) := by
  rcases State.dropSubmission_cases s c.id with hsame | ⟨r, _, hr⟩
  · rw [hsame]
    exact h.think ((h.views i).withClaim none (by simp)) (fun _ h => h) (by simp)
  · exact h.replace hr ⟨rfl, rfl, rfl, by simp⟩ (h.free_of_claim hheld) none (by simp)

/-! ## Hand-over -/

theorem Core.of_claim {c : SubmissionClaim} {sent : Bool} (h : Core crypto s log) (hc : ClaimOk s log c sent) :
    ∃ r, s.records[c.id]? = some r ∧ r.status = .reconciling ∧ r.transaction = c.transaction ∧
      c.transaction.id = c.id ∧ c.transaction.Genuine crypto r.source r.nonce := by
  obtain ⟨r, hr, hstatus, htransaction, _⟩ := hc
  obtain ⟨hid, hg, _⟩ := h.genuine c.id r hr
  rw [htransaction] at hid hg
  exact ⟨r, hr, hstatus, htransaction, hid, hg⟩

theorem Core.hand {c : SubmissionClaim} {sent : Bool} (h : Core crypto s log) (hc : ClaimOk s log c sent) :
    Core crypto s (log ++ [.handed c.transaction]) := by
  obtain ⟨r, hr, hstatus, htransaction, hid, hg⟩ := h.of_claim hc
  have hjustified : Justified crypto log c.transaction := by
    rw [← htransaction]
    exact h.justified c.id r hr
  refine ⟨h.index, h.genuine, h.distinct, h.active, ?_, ?_, ?_, ?_, ?_⟩
  · intro op a n hmem
    exact h.assigned op a n (by simpa using hmem)
  · intro id' r' hr' hprepared hmem
    rcases List.mem_append.mp hmem with hmem | hmem
    · exact (h.prepared id' r' hr' hprepared hmem).append _
    · -- What is handed over is being reconciled, so it is not this prepared record.
      have heq : r'.transaction = c.transaction := by simpa using hmem
      have hid' : id' = c.id := by
        rw [← (h.genuine id' r' hr').1, heq, hid]
      rw [hid', hr] at hr'
      cases hr'
      rw [hstatus] at hprepared
      cases hprepared
  · intro t ht
    rcases List.mem_append.mp ht with ht | ht
    · obtain ⟨hg', hresolved⟩ := h.handed t ht
      exact ⟨hg', hresolved.imp_right (Or.imp_right (·.append _))⟩
    · obtain rfl : t = c.transaction := by simpa using ht
      exact ⟨⟨_, _, hg⟩, .inl ⟨r, by rw [hid]; exact hr, htransaction⟩⟩
  · intro id' r' hr'
    refine (h.justified id' r' hr').append (by simp) ?_
    intro u hu hsender hnonce
    obtain rfl : u = c.transaction := by simpa using hu
    obtain ⟨_, hg', _⟩ := h.genuine id' r' hr'
    have hsource : r.source = r'.source := by
      rw [hg.sender, hg'.sender] at hsender
      exact Option.some.inj hsender
    have hsame := h.distinct c.id r id' r' hr hr' hsource (by rw [← hg.nonce, ← hg'.nonce]; exact hnonce)
    rw [← hsame, hr] at hr'
    cases hr'
    exact htransaction.symm
  · apply safe_append h.safe
    intro front t rest hsplit
    cases front with
    | nil =>
      obtain ⟨heq, _⟩ := List.cons.inj hsplit
      obtain rfl : c.transaction = t := Trace.handed.inj heq
      rw [List.append_nil]
      exact hjustified
    | cons x front =>
      obtain ⟨_, hrest⟩ := List.cons.inj hsplit
      simp at hrest

theorem Inv.hand {c : SubmissionClaim} (h : Inv crypto s log v) (hheld : (v i).claim = some (c, false)) :
    Inv crypto s (log ++ [.handed c.transaction]) (Function.update v i { v i with claim := some (c, true) }) := by
  have hc := (h.views i).claim c false hheld
  obtain ⟨r, hr, hstatus, htransaction, hid, hg⟩ := h.core.of_claim hc
  have hrely : ∀ u : View, (∀ c' sent', u.claim = some (c', sent') → ClaimOk s log c' sent' ∧ c'.id ≠ c.id) →
      Rely crypto s log s [.handed c.transaction] u := by
    intro u hclaims
    refine ⟨Nat.le_refl _, fun _ _ _ h => h, fun _ _ _ _ id' r' hr' hs => ⟨r', hr', hs⟩, ?_, by simp, ?_⟩
    · intro a hnone t ht hsender
      obtain rfl : t = c.transaction := by simpa using ht
      exact hnone c.id r hr (Option.some.inj (hg.sender.symm.trans hsender))
    · intro c' sent' hc'
      obtain ⟨hok, hne⟩ := hclaims c' sent' hc'
      refine ⟨fun hmem => hne ?_, fun _ hr' _ => hr'⟩
      obtain ⟨_, _, _, _, hid', _⟩ := h.core.of_claim hok
      have heq : c'.transaction = c.transaction := by simpa using hmem
      rw [← hid', heq, hid]
  refine h.act_kept (h.core.hand hc) ?_ (fun j hj => hrely (v j) ?_) (fun _ h => h) ?_
  · have hbase := ((h.views i).withClaim none (by simp)).rely (hrely { v i with claim := none } (by simp))
    refine hbase.withClaim (some (c, true)) ?_
    rintro c' sent ⟨⟩
    refine ⟨r, hr, hstatus, htransaction, fun hrecovery => ?_⟩
    obtain ⟨_, _, _, _, hfirst⟩ := hc
    have hbefore := hfirst hrecovery
    rw [if_neg (by decide)] at hbefore
    rw [if_pos rfl]
    by_cases hhanded : .handed c.transaction ∈ log
    · exact .inl ((hbefore hhanded).append _)
    · exact .inr ⟨log, [], rfl, hhanded, List.not_mem_nil⟩
  · exact fun c' sent' hc' => ⟨(h.views j).claim c' sent' hc', h.free_of_claim hheld j hj c' sent' hc'⟩
  · rintro c' sent ⟨⟩
    exact ⟨false, hheld⟩

/-! ## Records that go -/

section Shrink

variable {gone : TransactionId → Record → Prop} {events : List Trace}

/-- Some records go. No sender becomes active, and no floor falls. -/
structure Shrinks (s : State) (gone : TransactionId → Record → Prop) (s' : State) : Prop where
  next : s'.nextOperation = s.nextOperation
  records : ∀ id r, s'.records[id]? = some r ↔ s.records[id]? = some r ∧ ¬ gone id r
  index : ∀ a id, id ∈ (s'.sender a).records ↔
    id ∈ (s.sender a).records ∧ ∀ r, s.records[id]? = some r → r.source = a → ¬ gone id r
  active : ∀ a operation, (s'.sender a).active = some operation → (s.sender a).active = some operation
  floor : ∀ a f, (s.sender a).floor = some f → ∃ f', (s'.sender a).floor = some f' ∧ f.toNat ≤ f'.toNat

/-- Neither a hand-over, nor a nonce, nor a registration. -/
def Quiet (events : List Trace) : Prop :=
  (∀ t, .handed t ∉ events) ∧ (∀ op a n, .assigned op a n ∉ events) ∧ ∀ op t, .registered op t ∉ events

theorem Core.shrink (h : Core crypto s log) (hs : Shrinks s gone s') (hevents : Quiet events)
    (hgone : ∀ id r, s.records[id]? = some r → gone id r → .handed r.transaction ∈ log →
      Resolved crypto s' (log ++ events) r.transaction) : Core crypto s' (log ++ events) := by
  obtain ⟨hquiet, hnonces, hregistered⟩ := hevents
  have hlog : ∀ t, .handed t ∈ log ++ events → .handed t ∈ log := by
    intro t ht
    rcases List.mem_append.mp ht with ht | ht
    · exact ht
    · exact absurd ht (hquiet t)
  refine ⟨?_, ?_, ?_, ?_, ?_, ?_, ?_, ?_, safe_of_not_handed h.safe hquiet⟩
  · intro a id
    rw [hs.index, h.index]
    constructor
    · rintro ⟨⟨r, hr, hsource⟩, hkept⟩
      exact ⟨r, (hs.records id r).mpr ⟨hr, hkept r hr hsource⟩, hsource⟩
    · rintro ⟨r, hr, hsource⟩
      obtain ⟨hr, hkept⟩ := (hs.records id r).mp hr
      refine ⟨⟨r, hr, hsource⟩, fun r' hr' _ => ?_⟩
      rw [hr] at hr'
      cases hr'
      exact hkept
  · exact fun id r hr => h.genuine id r ((hs.records id r).mp hr).1
  · intro id r id' r' hr hr'
    exact h.distinct id r id' r' ((hs.records id r).mp hr).1 ((hs.records id' r').mp hr').1
  · intro a op hactive
    rw [hs.next]
    exact h.active a op (hs.active a op hactive)
  · intro op a n hmem
    rw [hs.next]
    rcases List.mem_append.mp hmem with hmem | hmem
    · exact h.assigned op a n hmem
    · exact absurd hmem (hnonces op a n)
  · intro id r hr hstatus hmem
    exact (h.prepared id r ((hs.records id r).mp hr).1 hstatus (hlog _ hmem)).append _
  · intro t ht
    obtain ⟨hg, hresolved⟩ := h.handed t (hlog t ht)
    refine ⟨hg, ?_⟩
    rcases hresolved with ⟨r, hr, rfl⟩ | ⟨a, f, hsender, hf, hlt⟩ | hrejected
    · by_cases hr' : gone r.transaction.id r
      · exact hgone _ r hr hr' (hlog _ ht)
      · exact .inl ⟨r, (hs.records _ r).mpr ⟨hr, hr'⟩, rfl⟩
    · obtain ⟨f', hf', hle⟩ := hs.floor a f hf
      exact .inr (.inl ⟨a, f', hsender, hf', by omega⟩)
    · exact .inr (.inr (hrejected.append _))
  · intro id r hr
    refine (h.justified id r ((hs.records id r).mp hr).1).append (fun op => hregistered op _) ?_
    exact fun u hu => absurd hu (hquiet u)

theorem rely_shrinks (hs : Shrinks s gone s') (hevents : Quiet events) {u : View}
    (hactive : ∀ operation a, u.operation = some operation → (s.sender a).active = some operation →
      (s'.sender a).active = some operation)
    (hkept : ∀ c sent, u.claim = some (c, sent) → ∀ r, r.status = .reconciling → ¬ gone c.id r) :
    Rely crypto s log s' events u := by
  refine ⟨Nat.le_of_eq (congrArg UInt64.toNat hs.next.symm), hactive, ?_, ?_, ?_, ?_⟩
  · intro op a _ _ id r hr hsource
    exact ⟨r, ((hs.records id r).mp hr).1, hsource⟩
  · exact fun a _ t ht => absurd ht (hevents.1 t)
  · exact fun op a n _ => hevents.2.1 op a n
  · intro c sent hc
    refine ⟨hevents.1 _, fun r hr hstatus => ?_⟩
    exact (hs.records c.id r).mpr ⟨hr, hkept c sent hc r hstatus⟩

theorem Inv.settle {c : SubmissionClaim} {sent : Bool} (h : Inv crypto s log v)
    (hheld : (v i).claim = some (c, sent)) (hs : Shrinks s (fun id _ => id = c.id) s')
    (hactive : ∀ a, (s'.sender a).active = (s.sender a).active) (hevents : Quiet events)
    (hresolved : Resolved crypto s' (log ++ events) c.transaction) :
    Inv crypto s' (log ++ events) (Function.update v i { v i with claim := none }) := by
  obtain ⟨r, hr, _, htransaction, _⟩ := h.core.of_claim ((h.views i).claim c sent hheld)
  have hactive' : ∀ (u : View) operation a, u.operation = some operation →
      (s.sender a).active = some operation → (s'.sender a).active = some operation := by
    intro u op a _ h
    rw [hactive]
    exact h
  refine h.act_kept (h.core.shrink hs hevents ?_) ?_ ?_ (fun _ h => h) (by simp)
  · rintro id r' hr' rfl _
    rw [hr] at hr'
    cases hr'
    rw [htransaction]
    exact hresolved
  · refine ((h.views i).withClaim none (by simp)).rely ?_
    exact rely_shrinks hs hevents (hactive' _) (by simp)
  · intro j hj
    refine rely_shrinks hs hevents (hactive' _) ?_
    exact fun c' sent' hc' _ _ => h.free_of_claim hheld j hj c' sent' hc'

end Shrink

theorem shrinks_accept {r : Record} (ha : s.Accepts id r s') : Shrinks s (fun id' _ => id' = id) s' where
  next := ha.next
  records := ha.records
  index a id' := by
    rw [ha.index]
    refine and_congr_right fun _ => ?_
    constructor
    · rintro hnot r' hr' hsource rfl
      rw [ha.before] at hr'
      cases hr'
      exact hnot ⟨rfl, hsource⟩
    · rintro hall ⟨rfl, hsource⟩
      exact hall r ha.before hsource rfl
  active a op h := by
    rw [← ha.active]
    exact h
  floor a f hf := by
    by_cases hsource : a = r.source
    · subst hsource
      obtain ⟨f', hf', _, hle⟩ := ha.raised
      exact ⟨f', hf', hle f hf⟩
    · exact ⟨f, by rw [ha.floor a hsource]; exact hf, Nat.le_refl _⟩

theorem Inv.accept {c : SubmissionClaim} {sent : Bool} (h : Inv crypto s log v)
    (hheld : (v i).claim = some (c, sent)) :
    Inv crypto (s.accept c.id).2 (log ++ [.accepted c.transaction])
      (Function.update v i { v i with claim := none }) := by
  obtain ⟨r, hr, _, htransaction, _, hg⟩ := h.core.of_claim ((h.views i).claim c sent hheld)
  obtain ⟨_, ha⟩ := State.accepts_of_accept hr (h.core.genuine c.id r hr).2.2
  refine h.settle hheld (shrinks_accept ha) ha.active (by simp [Quiet]) (.inr (.inl ?_))
  obtain ⟨f, hf, hlt, _⟩ := ha.raised
  exact ⟨r.source, f, hg.sender, hf, by rw [hg.nonce]; exact hlt⟩

theorem shrinks_reject {r : Record} (hr : s.records[id]? = some r) :
    Shrinks s (fun id' _ => id' = id) (s.reject id) := by
  obtain ⟨hremoves, hactive⟩ := State.removes_removeRecord hr
  refine ⟨hremoves.next, hremoves.records, hremoves.index, ?_, ?_⟩
  · intro a op h
    rw [← hactive]
    exact h
  · exact fun a f hf => ⟨f, (hremoves.floor a).trans hf, Nat.le_refl _⟩

theorem Inv.reject {c : SubmissionClaim} (h : Inv crypto s log v) (hheld : (v i).claim = some (c, true))
    (hrecovery : c.recovery = false) :
    Inv crypto (s.reject c.id) (log ++ [.rejected c.transaction])
      (Function.update v i { v i with claim := none }) := by
  obtain ⟨r, hr, _, htransaction, hfirst⟩ := (h.views i).claim c true hheld
  refine h.settle hheld (shrinks_reject hr) (State.removes_removeRecord hr).2 (by simp [Quiet]) (.inr (.inr ?_))
  have hbefore := hfirst hrecovery
  rw [if_pos rfl] at hbefore
  rcases hbefore with hrejected | hpending
  · exact hrejected.append _
  · exact hpending.reject

theorem shrinks_finish (s : State) (operation : UInt64) :
    Shrinks s (fun _ r => State.Cancelled operation r) (s.finishOperation operation) := by
  have hremoves := State.removes_finishOperation s operation
  refine ⟨hremoves.next, hremoves.records, hremoves.index, ?_, ?_⟩
  · intro a op h
    rw [State.active_finishOperation] at h
    split at h
    · cases h
    · exact h
  · exact fun a f hf => ⟨f, (hremoves.floor a).trans hf, Nat.le_refl _⟩

theorem Inv.finish (h : Inv crypto s log v) (hop : (v i).operation = some operation) :
    Inv crypto (s.finishOperation operation) log (Function.update v i {}) := by
  have hactive := State.active_finishOperation s operation
  have hs := shrinks_finish s operation
  have hquiet : Quiet [] := by simp [Quiet]
  have hcore : Core crypto (s.finishOperation operation) (log ++ []) := by
    refine h.core.shrink hs hquiet fun id r hr hcancelled hmem => .inr (.inr ?_)
    exact (h.core.prepared id r hr hcancelled.2 hmem).append _
  have hact := h.act_kept (i := i) hcore viewOk_empty ?_ (by simp) (by simp)
  · rwa [List.append_nil] at hact
  · intro j hj
    refine rely_shrinks hs hquiet ?_ ?_
    · intro op a hopj h'
      rw [hactive, if_neg]
      · exact h'
      · rw [h']
        rintro ⟨⟩
        exact hj (h.operations j i operation hopj hop)
    · rintro c sent hc r hstatus ⟨_, hprepared⟩
      rw [hstatus] at hprepared
      cases hprepared

end PaymentSdk.Ethereum
