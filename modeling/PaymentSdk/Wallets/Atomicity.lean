import PaymentSdk.Lib.Run
import PaymentSdk.Wallets.Spec

/-!
# Registration is atomic unless it is abandoned

What each call has put into the map and into its registry, by where the call is. A call that
fails leaves neither, with two exceptions: a future dropped while it awaits `register`, and a
completion without a revision left. The theorem says that these are the only ones.
-/

open Std Interaction

namespace PaymentSdk.Wallets

variable {I F : Type}

/-! ## What a call has made -/

def Origin.call : Origin → Option Nat
  | restored => none
  | generated n => some n
  | adopted n => some n

@[simp]
theorem Call.origin_call (call : Call I F) (n : Nat) : (call.origin n).call = some n := by
  unfold Call.origin
  split <;> rfl

/-- Whether the call's entry is in the map. A call that ended without `Ok` says nothing. -/
def Call.inMap (call : Call I F) : Option Bool :=
  match call.phase with
  | .creating | .reading _ | .publishing _ _ | .storing _ _ | .releasing _ => some false
  | .registering _ _ _ | .forgetting _ | .completing _ | .ended (.ok _) => some true
  | .ended (.error _) | .ended .dropped => none

def Call.inRegistry (call : Call I F) : Option Bool :=
  match call.phase with
  | .creating | .reading _ | .publishing _ _ | .storing _ _ | .forgetting _ | .releasing _ => some false
  | .registering _ _ stored => some stored
  | .completing _ | .ended (.ok _) => some (call.configured.any call.registry)
  | .ended (.error _) | .ended .dropped => none

def Phase.ended? : Phase I F → Bool
  | .ended _ => true
  | _ => false

/-- The call is over and did not return `Ok`. -/
def Phase.failed : Phase I F → Bool
  | .ended (.error _) | .ended .dropped => true
  | _ => false

namespace Collection

/-- The call's wallet is in memory. -/
def Made (c : Collection I F) (n : Nat) : Prop := ∃ e ∈ c.values, e.origin.call = some n

/-- The call's wallet is in the registry. -/
def Recorded (c : Collection I F) (n : Nat) : Prop := ∃ r ∈ c.registered, r.origin.call = some n

/-- An address that was adopted, now or before a restart, is in memory. -/
def Adopted (c : Collection I F) (family : F) (address : CanonicalAddress) : Prop :=
  ∃ e ∈ c.values, e.info.family = family ∧ (∀ n, e.origin ≠ .generated n) ∧ e.filter.address = address

/-- The family has adopted the address. -/
def Held (c : Collection I F) (family : F) (address : CanonicalAddress) : Prop :=
  ∃ r ∈ c.registered, r.family = family ∧ r.entry.filter.address = address

/-- A call that failed has left nothing, neither in the map nor in the registry. -/
def Clean (c : Collection I F) : Prop :=
  ∀ n call, c.calls[n]? = some call → call.phase.failed = true → ¬ c.Made n ∧ ¬ c.Recorded n

/-- While no call is running, memory and the registries agree. -/
def Agree (config : F → Option Family) (c : Collection I F) : Prop :=
  (∀ call ∈ c.calls, call.phase.ended? = true) →
    ∀ family configured, config family = some configured → configured.registry = true →
      ∀ address, c.Adopted family address ↔ c.Held family address

/-! ## The invariant -/

/-- An entry of call `n` in the map carries what the call asked for. -/
structure Fits (n : Nat) (call : Call I F) (e : Entry I F) : Prop where
  origin : e.origin = call.origin n
  id : e.info.id = call.id
  family : e.info.family = call.family
  filter : ∀ info filter stored, call.phase = .registering info filter stored →
    e.filter = filter ∧ call.configured.any call.registry = true

/-- The map and the registry have what the calls have put in, and nothing else. -/
structure Consistent (config : F → Option Family) (c : Collection I F) : Prop where
  configured : ∀ call ∈ c.calls, call.configured = config call.family
  inMap : ∀ n call b, c.calls[n]? = some call → call.inMap = some b → (c.Made n ↔ b = true)
  inRegistry : ∀ n call b, c.calls[n]? = some call → call.inRegistry = some b → (c.Recorded n ↔ b = true)
  made : ∀ e ∈ c.values, ∀ n, e.origin.call = some n →
    ∃ call, c.calls[n]? = some call ∧ Fits n call e
  recorded : ∀ r ∈ c.registered, ∀ n, r.origin.call = some n →
    ∃ call, c.calls[n]? = some call ∧ r.family = call.family ∧ call.secret.isSome
  same : ∀ e ∈ c.values, ∀ r ∈ c.registered, ∀ n, e.origin.call = some n → r.origin.call = some n →
    e.filter = r.entry.filter
  unique : ∀ e ∈ c.values, ∀ e' ∈ c.values, ∀ n, e.origin.call = some n → e'.info.id = e.info.id → e' = e
  restored : ∀ family configured, config family = some configured → configured.registry = true →
    ∀ filter, (∃ e ∈ c.values, e.origin = .restored ∧ e.info.family = family ∧ e.filter = filter) ↔
      ∃ r ∈ c.registered, r.origin = .restored ∧ r.family = family ∧ r.entry.filter = filter

variable {config : F → Option Family} {c : Collection I F}

theorem Consistent.of_eq {c' : Collection I F} (h : c.Consistent config) (hcalls : c'.calls = c.calls)
    (hvalues : c'.values = c.values) (hregistered : c'.registered = c.registered) :
    c'.Consistent config := by
  obtain ⟨_, _, _, calls⟩ := c
  obtain ⟨_, _, _, calls'⟩ := c'
  subst hcalls hvalues hregistered
  exact ⟨h.1, h.2, h.3, h.4, h.5, h.6, h.7, h.8⟩

theorem getElem?_set_call {n m : Nat} {calls : List (Call I F)} {old new call : Call I F}
    (hold : calls[n]? = some old) (h : (calls.set n new)[m]? = some call) :
    (m = n ∧ call = new) ∨ (m ≠ n ∧ calls[m]? = some call) := by
  by_cases hm : m = n
  · subst hm
    obtain ⟨hlt, _⟩ := List.getElem?_eq_some_iff.mp hold
    rw [List.getElem?_set_self hlt] at h
    exact .inl ⟨rfl, (Option.some.inj h).symm⟩
  · rw [List.getElem?_set_ne (Ne.symm hm)] at h
    exact .inr ⟨hm, h⟩

/-- Call `n` moves on and may change what it has made itself. Nothing else changes. -/
structure Moves (c : Collection I F) (n : Nat) (call : Call I F) (c' : Collection I F) : Prop where
  calls : c'.calls = c.calls.set n call
  values : ∀ e, e.origin.call ≠ some n → (e ∈ c'.values ↔ e ∈ c.values)
  registered : ∀ r, r.origin.call ≠ some n → (r ∈ c'.registered ↔ r ∈ c.registered)
  made : ∀ e ∈ c'.values, e.origin.call = some n →
    Fits n call e ∧ ∀ e' ∈ c'.values, e'.info.id = e.info.id → e' = e
  recorded : ∀ r ∈ c'.registered, r.origin.call = some n → r.family = call.family ∧ call.secret.isSome ∧
    ∀ e ∈ c'.values, e.origin.call = some n → e.filter = r.entry.filter
  inMap : ∀ b, call.inMap = some b → (c'.Made n ↔ b = true)
  inRegistry : ∀ b, call.inRegistry = some b → (c'.Recorded n ↔ b = true)

theorem Moves.made_iff {n m : Nat} {call : Call I F} {c' : Collection I F} (h : Moves c n call c')
    (hm : m ≠ n) : c'.Made m ↔ c.Made m := by
  have htag : ∀ e : Entry I F, e.origin.call = some m → e.origin.call ≠ some n := fun e he hn =>
    hm (Option.some.inj (he.symm.trans hn))
  constructor
  · rintro ⟨e, he, htagged⟩
    exact ⟨e, (h.values e (htag e htagged)).mp he, htagged⟩
  · rintro ⟨e, he, htagged⟩
    exact ⟨e, (h.values e (htag e htagged)).mpr he, htagged⟩

theorem Moves.recorded_iff {n m : Nat} {call : Call I F} {c' : Collection I F} (h : Moves c n call c')
    (hm : m ≠ n) : c'.Recorded m ↔ c.Recorded m := by
  have htag : ∀ r : Registered F, r.origin.call = some m → r.origin.call ≠ some n := fun r hr hn =>
    hm (Option.some.inj (hr.symm.trans hn))
  constructor
  · rintro ⟨r, hr, htagged⟩
    exact ⟨r, (h.registered r (htag r htagged)).mp hr, htagged⟩
  · rintro ⟨r, hr, htagged⟩
    exact ⟨r, (h.registered r (htag r htagged)).mpr hr, htagged⟩

theorem Consistent.moves {n : Nat} {old call : Call I F} {c' : Collection I F}
    (h : c.Consistent config) (hold : c.calls[n]? = some old) (hfamily : call.family = old.family)
    (hconfigured : call.configured = old.configured) (hm : Moves c n call c') :
    c'.Consistent config where
  configured call' h' := by
    rw [hm.calls] at h'
    rcases List.mem_or_eq_of_mem_set h' with h' | rfl
    · exact h.configured call' h'
    · rw [hconfigured, hfamily]
      exact h.configured old (List.mem_of_getElem? hold)
  inMap m call' b hcall hb := by
    rw [hm.calls] at hcall
    rcases getElem?_set_call hold hcall with ⟨rfl, rfl⟩ | ⟨hne, hcall⟩
    · exact hm.inMap b hb
    · rw [hm.made_iff hne]
      exact h.inMap m call' b hcall hb
  inRegistry m call' b hcall hb := by
    rw [hm.calls] at hcall
    rcases getElem?_set_call hold hcall with ⟨rfl, rfl⟩ | ⟨hne, hcall⟩
    · exact hm.inRegistry b hb
    · rw [hm.recorded_iff hne]
      exact h.inRegistry m call' b hcall hb
  made e he m htag := by
    rw [hm.calls]
    by_cases hmn : m = n
    · subst hmn
      obtain ⟨hlt, _⟩ := List.getElem?_eq_some_iff.mp hold
      exact ⟨call, List.getElem?_set_self hlt, (hm.made e he htag).1⟩
    · have hother : e.origin.call ≠ some n := fun hn => hmn (Option.some.inj (htag.symm.trans hn))
      obtain ⟨call', hcall', hfits⟩ := h.made e ((hm.values e hother).mp he) m htag
      exact ⟨call', (List.getElem?_set_ne (Ne.symm hmn)).trans hcall', hfits⟩
  recorded r hr m htag := by
    rw [hm.calls]
    by_cases hmn : m = n
    · subst hmn
      obtain ⟨hlt, _⟩ := List.getElem?_eq_some_iff.mp hold
      obtain ⟨hfam, hsecret, _⟩ := hm.recorded r hr htag
      exact ⟨call, List.getElem?_set_self hlt, hfam, hsecret⟩
    · have hother : r.origin.call ≠ some n := fun hn => hmn (Option.some.inj (htag.symm.trans hn))
      obtain ⟨call', hcall', hrest⟩ := h.recorded r ((hm.registered r hother).mp hr) m htag
      exact ⟨call', (List.getElem?_set_ne (Ne.symm hmn)).trans hcall', hrest⟩
  same e he r hr m htag htag' := by
    by_cases hmn : m = n
    · subst hmn
      exact (hm.recorded r hr htag').2.2 e he htag
    · have hother : e.origin.call ≠ some n := fun hn => hmn (Option.some.inj (htag.symm.trans hn))
      have hother' : r.origin.call ≠ some n := fun hn => hmn (Option.some.inj (htag'.symm.trans hn))
      exact h.same e ((hm.values e hother).mp he) r ((hm.registered r hother').mp hr) m htag htag'
  unique e he e' he' m htag hid := by
    by_cases hn : e.origin.call = some n
    · exact (hm.made e he hn).2 e' he' hid
    · by_cases hn' : e'.origin.call = some n
      · exact ((hm.made e' he' hn').2 e he hid.symm).symm
      · exact h.unique e ((hm.values e hn).mp he) e' ((hm.values e' hn').mp he') m htag hid
  restored family configured hconfig hregistry filter := by
    have hvalues : ∀ e : Entry I F, e.origin = .restored → (e ∈ c'.values ↔ e ∈ c.values) := fun e he =>
      hm.values e (by simp [he, Origin.call])
    have hregistered : ∀ r : Registered F, r.origin = .restored →
        (r ∈ c'.registered ↔ r ∈ c.registered) := fun r hr =>
      hm.registered r (by simp [hr, Origin.call])
    have hbefore := h.restored family configured hconfig hregistry filter
    constructor
    · rintro ⟨e, he, horigin, hrest⟩
      obtain ⟨r, hr, hr', hrest'⟩ := hbefore.mp ⟨e, (hvalues e horigin).mp he, horigin, hrest⟩
      exact ⟨r, (hregistered r hr').mpr hr, hr', hrest'⟩
    · rintro ⟨r, hr, horigin, hrest⟩
      obtain ⟨e, he, he', hrest'⟩ := hbefore.mpr ⟨r, (hregistered r horigin).mp hr, horigin, hrest⟩
      exact ⟨e, (hvalues e he').mpr he, he', hrest'⟩

/-! ## The moves of a call -/

section Moves

variable {n : Nat} {call : Call I F}

theorem moves_setPhase {c' : Collection I F} (h : c.Consistent config)
    (hcall : c.calls[n]? = some call) {phase : Phase I F}
    (hcalls : c'.calls = c.calls.set n { call with phase }) (hvalues : c'.values = c.values)
    (hregistered : c'.registered = c.registered)
    (hmap : ∀ b, ({ call with phase } : Call I F).inMap = some b → call.inMap = some b)
    (hregistry : ∀ b, ({ call with phase } : Call I F).inRegistry = some b → call.inRegistry = some b)
    (hfilter : ∀ info filter stored, phase ≠ .registering info filter stored) :
    Moves c n { call with phase } c' where
  calls := hcalls
  values _ _ := by rw [hvalues]
  registered _ _ := by rw [hregistered]
  made e he htag := by
    rw [hvalues] at he ⊢
    obtain ⟨call', hcall', hfits⟩ := h.made e he n htag
    obtain rfl : call = call' := Option.some.inj (hcall.symm.trans hcall')
    refine ⟨⟨hfits.origin, hfits.id, hfits.family, ?_⟩, fun e' he' hid => h.unique e he e' he' n htag hid⟩
    exact fun info filter stored hphase => absurd hphase (hfilter info filter stored)
  recorded r hr htag := by
    rw [hregistered] at hr
    rw [hvalues]
    obtain ⟨call', hcall', hfamily, hsecret⟩ := h.recorded r hr n htag
    obtain rfl : call = call' := Option.some.inj (hcall.symm.trans hcall')
    exact ⟨hfamily, hsecret, fun e he he' => h.same e he r hr n he' htag⟩
  inMap b hb := by
    rw [Made, hvalues]
    exact h.inMap n call b hcall (hmap b hb)
  inRegistry b hb := by
    rw [Recorded, hregistered]
    exact h.inRegistry n call b hcall (hregistry b hb)

/-- `store` has put the wallet into the map. -/
theorem moves_insert (h : c.Consistent config) (hcall : c.calls[n]? = some call)
    {address : Except Error Text} {checkpoint : Option BlockRef}
    (hphase : call.phase = .storing address checkpoint)
    (hid : call.id ∉ c.values.map (·.info.id)) (info : WalletInfo I F) (hinfo : info.id = call.id)
    (hfam : info.family = call.family) (filter : AddressFilter) (phase : Phase I F)
    (hnext : phase = .registering info filter false ∧ call.configured.any call.registry = true ∨
      phase = .completing info ∧ call.configured.any call.registry = false) :
    Moves c n { call with phase } { c.setPhase n call phase with
      values := c.values ++ [⟨info, filter, call.origin n⟩] } := by
  have hmade : ¬ c.Made n := by
    have := h.inMap n call false hcall (by simp [Call.inMap, hphase])
    simpa using this
  have hrecorded : ¬ c.Recorded n := by
    have := h.inRegistry n call false hcall (by simp [Call.inRegistry, hphase])
    simpa using this
  have hnew : ∀ e, e ∈ c.values ++ [⟨info, filter, call.origin n⟩] → e.origin.call = some n →
      e = ⟨info, filter, call.origin n⟩ := by
    intro e he htag
    rcases List.mem_append.mp he with he | he
    · exact absurd ⟨e, he, htag⟩ hmade
    · exact List.mem_singleton.mp he
  refine ⟨rfl, ?_, fun _ _ => Iff.rfl, ?_, ?_, ?_, ?_⟩
  · intro e htag
    simp only [List.mem_append, List.mem_singleton, or_iff_left_iff_imp]
    rintro rfl
    exact absurd (Call.origin_call call n) htag
  · intro e he htag
    obtain rfl := hnew e he htag
    refine ⟨⟨rfl, hinfo, hfam, ?_⟩, ?_⟩
    · intro info' filter' stored hregistering
      rcases hnext with ⟨hnext, hregistry⟩ | ⟨hnext, _⟩
      · rw [hnext] at hregistering
        cases hregistering
        exact ⟨rfl, hregistry⟩
      · rw [hnext] at hregistering
        cases hregistering
    · intro e' he' hid'
      rcases List.mem_append.mp he' with he' | he'
      · exact absurd (List.mem_map.mpr ⟨e', he', hid'.trans hinfo⟩) hid
      · exact List.mem_singleton.mp he'
  · exact fun r hr htag => absurd ⟨r, hr, htag⟩ hrecorded
  · intro b hb
    have hthere : b = true := by
      rcases hnext with ⟨hnext, _⟩ | ⟨hnext, _⟩ <;> simpa [Call.inMap, hnext, eq_comm] using hb
    refine iff_of_true ⟨_, List.mem_append_right _ List.mem_cons_self, Call.origin_call call n⟩ hthere
  · intro b hb
    have hnone : b = false := by
      rcases hnext with ⟨hnext, _⟩ | ⟨hnext, hregistry⟩
      · simpa [Call.inRegistry, hnext, eq_comm] using hb
      · simp only [Call.inRegistry, hnext, Option.some.injEq] at hb
        rw [← hb]
        exact hregistry
    refine iff_of_false hrecorded ?_
    simp [hnone]

/-- The registry has stored the entry of the call. -/
theorem moves_stores (h : c.Consistent config) (hcall : c.calls[n]? = some call)
    {info : WalletInfo I F} {filter : AddressFilter}
    (hphase : call.phase = .registering info filter false) {material : List UInt8}
    (hsecret : call.secret = some material) (id : String) :
    Moves c n { call with phase := .registering info filter true }
      { c.setPhase n call (.registering info filter true) with
        registered := c.registered ++ [⟨call.family, ⟨id, filter, material⟩, call.origin n⟩] } := by
  have hfits : ∀ e ∈ c.values, e.origin.call = some n → Fits n call e := by
    intro e he htag
    obtain ⟨call', hcall', hfits⟩ := h.made e he n htag
    obtain rfl : call = call' := Option.some.inj (hcall.symm.trans hcall')
    exact hfits
  have hrecorded : ¬ c.Recorded n := by
    have := h.inRegistry n call false hcall (by simp [Call.inRegistry, hphase])
    simpa using this
  refine ⟨rfl, fun _ _ => Iff.rfl, ?_, ?_, ?_, ?_, ?_⟩
  · intro r htag
    simp only [List.mem_append, List.mem_singleton, or_iff_left_iff_imp]
    rintro rfl
    exact absurd (Call.origin_call call n) htag
  · intro e he htag
    have hf := hfits e he htag
    refine ⟨⟨hf.origin, hf.id, hf.family, ?_⟩, fun e' he' hid => h.unique e he e' he' n htag hid⟩
    intro info' filter' stored hregistering
    cases hregistering
    exact hf.filter info filter false hphase
  · intro r hr htag
    rcases List.mem_append.mp hr with hr | hr
    · exact absurd ⟨r, hr, htag⟩ hrecorded
    · obtain rfl := List.mem_singleton.mp hr
      refine ⟨rfl, by simp [hsecret], ?_⟩
      exact fun e he he' => ((hfits e he he').filter info filter false hphase).1
  · intro b hb
    have hmap : call.inMap = some b := by simpa [Call.inMap, hphase] using hb
    exact h.inMap n call b hcall hmap
  · intro b hb
    refine iff_of_true ⟨_, List.mem_append_right _ List.mem_cons_self, Call.origin_call call n⟩ ?_
    simpa [Call.inRegistry, eq_comm] using hb

/-- The wallet that `forget` takes out is the call's own. -/
theorem moves_forget [DecidableEq I] (h : c.Consistent config) (hcall : c.calls[n]? = some call) {error : Error}
    (hphase : call.phase = .forgetting error) (error' : Error) :
    Moves c n { call with phase := .releasing error' }
      ((c.forget call.id).setPhase n call (.releasing error')) := by
  have hown : ∀ e ∈ c.values, e.info.id = call.id → e.origin.call = some n := by
    intro e he hid
    have hmade : c.Made n := by
      have := h.inMap n call true hcall (by simp [Call.inMap, hphase])
      simpa using this
    obtain ⟨e', he', htag'⟩ := hmade
    obtain ⟨call', hcall', hfits⟩ := h.made e' he' n htag'
    obtain rfl : call = call' := Option.some.inj (hcall.symm.trans hcall')
    rw [h.unique e' he' e he n htag' (hid.trans hfits.id.symm)]
    exact htag'
  have hgone : ∀ e ∈ (c.forget call.id).values, e.origin.call ≠ some n := by
    intro e he htag
    obtain ⟨he, hid⟩ := List.mem_filter.mp he
    obtain ⟨call', hcall', hfits⟩ := h.made e he n htag
    obtain rfl : call = call' := Option.some.inj (hcall.symm.trans hcall')
    simp [hfits.id] at hid
  have hrecorded : ¬ c.Recorded n := by
    have := h.inRegistry n call false hcall (by simp [Call.inRegistry, hphase])
    simpa using this
  refine ⟨rfl, ?_, fun _ _ => Iff.rfl, ?_, ?_, ?_, ?_⟩
  · intro e htag
    constructor
    · exact fun he => (List.mem_filter.mp he).1
    · intro he
      refine List.mem_filter.mpr ⟨he, ?_⟩
      simpa using fun hid => htag (hown e he hid)
  · exact fun e he htag => absurd htag (hgone e he)
  · exact fun r hr htag => absurd ⟨r, hr, htag⟩ hrecorded
  · intro b hb
    refine iff_of_false ?_ (by simpa [Call.inMap, eq_comm] using hb)
    rintro ⟨e, he, htag⟩
    exact hgone e he htag
  · intro b hb
    exact iff_of_false hrecorded (by simpa [Call.inRegistry, eq_comm] using hb)

end Moves

/-! ## Steps -/

theorem Consistent.begin (h : c.Consistent config) (id : I) (family : F) (secret : Option (List UInt8)) :
    (c.begin config id family secret).Consistent config := by
  have hnew : ∀ n call, (c.begin config id family secret).calls[n]? = some call →
      c.calls[n]? = some call ∨ n = c.calls.length ∧
        call = { id, family, configured := config family, secret, phase := .creating } := by
    intro n call hcall
    simp only [Collection.begin, List.getElem?_append] at hcall
    split at hcall
    · exact .inl hcall
    · rw [List.getElem?_singleton] at hcall
      split at hcall
      · cases hcall
        exact .inr ⟨by omega, rfl⟩
      · cases hcall
  have hkept : ∀ n call, c.calls[n]? = some call →
      (c.begin config id family secret).calls[n]? = some call := fun n call hcall =>
    (List.getElem?_append_left (List.getElem?_eq_some_iff.mp hcall).1).trans hcall
  have hunused : ∀ o : Origin, o.call = some c.calls.length →
      (∀ e ∈ c.values, e.origin ≠ o) ∧ ∀ r ∈ c.registered, r.origin ≠ o := by
    rintro o ho
    constructor
    · rintro e he rfl
      obtain ⟨call, hcall, _⟩ := h.made e he _ ho
      simp at hcall
    · rintro r hr rfl
      obtain ⟨call, hcall, _⟩ := h.recorded r hr _ ho
      simp at hcall
  refine ⟨?_, ?_, ?_, ?_, ?_, h.same, h.unique, h.restored⟩
  · intro call hcall
    rcases List.mem_append.mp hcall with hcall | hcall
    · exact h.configured call hcall
    · obtain rfl := List.mem_singleton.mp hcall
      rfl
  · intro n call b hcall hb
    rcases hnew n call hcall with hcall | ⟨rfl, rfl⟩
    · exact h.inMap n call b hcall hb
    · refine iff_of_false ?_ (by simpa [Call.inMap, eq_comm] using hb)
      rintro ⟨e, he, htag⟩
      exact (hunused _ htag).1 e he rfl
  · intro n call b hcall hb
    rcases hnew n call hcall with hcall | ⟨rfl, rfl⟩
    · exact h.inRegistry n call b hcall hb
    · refine iff_of_false ?_ (by simpa [Call.inRegistry, eq_comm] using hb)
      rintro ⟨r, hr, htag⟩
      exact (hunused _ htag).2 r hr rfl
  · intro e he n htag
    obtain ⟨call, hcall, hfits⟩ := h.made e he n htag
    exact ⟨call, hkept n call hcall, hfits⟩
  · intro r hr n htag
    obtain ⟨call, hcall, hrest⟩ := h.recorded r hr n htag
    exact ⟨call, hkept n call hcall, hrest⟩

/-- The condition on a step: no future is dropped while it awaits `register`, and a completion
has a revision left. -/
def Spared (c : Collection I F) : Event I F → Prop
  | .drop n => ∀ call ∈ c.calls[n]?, ∀ info filter stored, call.phase ≠ .registering info filter stored
  | .resume n _ => ∀ call ∈ c.calls[n]?, ∀ info, call.phase = .completing info →
    ∀ configured ∈ call.configured, (c.admissions configured.scope).revision.toNat + 1 < 2 ^ 64
  | _ => True

/-- What one event does: nothing that matters here, a new call, or a move of one call. A call
that fails by it leaves nothing if and only if the step is spared. -/
inductive Effect (config : F → Option Family) (c c' : Collection I F) (spared : Prop) : Prop where
  | same (hcalls : c'.calls = c.calls) (hvalues : c'.values = c.values)
      (hregistered : c'.registered = c.registered) (h : spared)
  | began (id : I) (family : F) (secret : Option (List UInt8)) (heq : c' = c.begin config id family secret)
      (h : spared)
  | moved (n : Nat) (old call : Call I F) (hold : c.calls[n]? = some old)
      (hfamily : call.family = old.family) (hconfigured : call.configured = old.configured)
      (hmoves : Moves c n call c')
      (h : if call.phase.failed then (spared ↔ ¬ c'.Made n ∧ ¬ c'.Recorded n) else spared)

theorem Effect.consistent {c' : Collection I F} {spared : Prop} (he : Effect config c c' spared)
    (h : c.Consistent config) : c'.Consistent config := by
  cases he with
  | same hcalls hvalues hregistered _ => exact h.of_eq hcalls hvalues hregistered
  | began id family secret heq _ =>
    subst heq
    exact h.begin id family secret
  | moved n old call hold hfamily hconfigured hmoves _ => exact h.moves hold hfamily hconfigured hmoves

theorem Effect.clean_iff {c' : Collection I F} {spared : Prop} (he : Effect config c c' spared)
    (hc : c.Clean) : spared ↔ c'.Clean := by
  cases he with
  | same hcalls hvalues hregistered h =>
    refine iff_of_true h ?_
    intro n call hcall hfailed
    rw [Made, Recorded, hvalues, hregistered]
    exact hc n call (by rwa [hcalls] at hcall) hfailed
  | began id family secret heq h =>
    subst heq
    refine iff_of_true h ?_
    intro n call hcall hfailed
    simp only [Collection.begin, List.getElem?_append] at hcall
    split at hcall
    · exact hc n call hcall hfailed
    · rw [List.getElem?_singleton] at hcall
      split at hcall <;> cases hcall
      cases hfailed
  | moved n old call hold hfamily hconfigured hmoves h =>
    have hothers : c'.Clean ↔ (call.phase.failed = true → ¬ c'.Made n ∧ ¬ c'.Recorded n) := by
      constructor
      · intro hc' hfailed
        obtain ⟨hlt, _⟩ := List.getElem?_eq_some_iff.mp hold
        exact hc' n call (by rw [hmoves.calls]; exact List.getElem?_set_self hlt) hfailed
      · intro hown m call' hcall' hfailed
        rw [hmoves.calls] at hcall'
        rcases getElem?_set_call hold hcall' with ⟨rfl, rfl⟩ | ⟨hne, hcall'⟩
        · exact hown hfailed
        · rw [hmoves.made_iff hne, hmoves.recorded_iff hne]
          exact hc m call' hcall' hfailed
    rw [hothers]
    split at h
    · rename_i hfailed
      simp [hfailed, h]
    · rename_i hok
      simp [hok, h]

section Effects

variable {n : Nat} {call : Call I F} {c' : Collection I F} {spared : Prop}

theorem effect_advance (h : c.Consistent config) (hcall : c.calls[n]? = some call) {phase : Phase I F}
    (hcalls : c'.calls = c.calls.set n { call with phase }) (hvalues : c'.values = c.values)
    (hregistered : c'.registered = c.registered)
    (hmap : ({ call with phase } : Call I F).inMap = call.inMap)
    (hregistry : ({ call with phase } : Call I F).inRegistry = call.inRegistry)
    (hfilter : ∀ info filter stored, phase ≠ .registering info filter stored)
    (hgoes : phase.failed = false) (hspared : spared) : Effect config c c' spared := by
  refine .moved n call { call with phase } hcall rfl rfl ?_ (by simpa [hgoes] using hspared)
  exact moves_setPhase h hcall hcalls hvalues hregistered (fun b hb => by rwa [hmap] at hb)
    (fun b hb => by rwa [hregistry] at hb) hfilter

theorem effect_fail (h : c.Consistent config) (hcall : c.calls[n]? = some call) {phase : Phase I F}
    (hcalls : c'.calls = c.calls.set n { call with phase }) (hvalues : c'.values = c.values)
    (hregistered : c'.registered = c.registered) (hfailed : phase.failed = true)
    (hspared : spared ↔ ¬ c.Made n ∧ ¬ c.Recorded n) : Effect config c c' spared := by
  have hnone : ({ call with phase } : Call I F).inMap = none ∧
      ({ call with phase } : Call I F).inRegistry = none := by
    unfold Phase.failed at hfailed
    split at hfailed <;> simp_all [Call.inMap, Call.inRegistry]
  refine .moved n call { call with phase } hcall rfl rfl ?_ ?_
  · refine moves_setPhase h hcall hcalls hvalues hregistered (by simp [hnone.1]) (by simp [hnone.2]) ?_
    intro info filter stored hphase
    subst hphase
    cases hfailed
  · rw [if_pos hfailed, hspared, Made, Recorded, Made, Recorded, hvalues, hregistered]

theorem not_made (h : c.Consistent config) (hcall : c.calls[n]? = some call)
    (hmap : call.inMap = some false) (hregistry : call.inRegistry = some false) :
    ¬ c.Made n ∧ ¬ c.Recorded n := by
  have hm := h.inMap n call false hcall hmap
  have hr := h.inRegistry n call false hcall hregistry
  simpa using And.intro hm hr

theorem made_of_inMap (h : c.Consistent config) (hcall : c.calls[n]? = some call)
    (hmap : call.inMap = some true) : c.Made n := by
  have hm := h.inMap n call true hcall hmap
  simpa using hm

theorem effect_publish (h : c.Consistent config) (hcall : c.calls[n]? = some call) {scope : IndexScope}
    {address : Except Error Text} {reload : Option (Option BlockRef)}
    (hmap : call.inMap = some false) (hregistry : call.inRegistry = some false) (hspared : spared) :
    Effect config c (c.publish n call scope address reload) spared := by
  unfold publish
  split
  · exact .same rfl rfl rfl hspared
  · split
    · exact effect_advance h hcall rfl rfl rfl (by rw [hmap]; rfl) (by rw [hregistry]; rfl) (by simp) rfl hspared
    · exact effect_advance h hcall rfl rfl rfl (by rw [hmap]; rfl) (by rw [hregistry]; rfl) (by simp) rfl hspared

theorem effect_complete (h : c.Consistent config) (hcall : c.calls[n]? = some call)
    {info : WalletInfo I F} (hphase : call.phase = .completing info) {scope : IndexScope}
    (hspared : spared ↔ (c.admissions scope).revision.toNat + 1 < 2 ^ 64) :
    Effect config c (c.complete n call scope info) spared := by
  unfold complete Admission.State.completePublication PaymentSdk.checkedSuccessor
  by_cases hrevision : (c.admissions scope).revision.toNat + 1 < 2 ^ 64
  · rw [if_pos hrevision]
    refine effect_advance h hcall rfl rfl rfl ?_ ?_ (by simp) rfl (hspared.mpr hrevision)
    · simp [Call.inMap, hphase]
    · simp only [Call.inRegistry, hphase]
      rfl
  · rw [if_neg hrevision]
    refine effect_fail h hcall rfl rfl rfl rfl ?_
    refine iff_of_false (fun hs => hrevision (hspared.mp hs)) fun hnot => ?_
    exact hnot.1 (made_of_inMap h hcall (by simp [Call.inMap, hphase]))

theorem effect_store [DecidableEq I] (h : c.Consistent config) (hcall : c.calls[n]? = some call)
    {configured : Family} (hconfigured : call.configured = some configured)
    {address : Except Error Text} {checkpoint : Option BlockRef}
    (hphase : call.phase = .storing address checkpoint) (hspared : spared) :
    Effect config c (c.store n call configured address checkpoint) spared := by
  have hleaves : ∀ error, Effect config c (c.setPhase n call (.releasing error)) spared := fun error => by
    refine effect_advance h hcall rfl rfl rfl ?_ ?_ (by simp) rfl hspared
    · simp [Call.inMap, hphase]
    · simp [Call.inRegistry, hphase]
  unfold store
  split
  · exact hleaves _
  · split
    · exact hleaves _
    · split
      · exact hleaves _
      · rename_i hid
        have hmoves : ∀ info filter phase, info.id = call.id → info.family = call.family →
            phase = (if call.registry configured then .registering info filter false else .completing info) →
            Effect config c { c.setPhase n call phase with
              values := c.values ++ [⟨info, filter, call.origin n⟩] } spared := by
          intro info filter phase hinfo hfam hnext
          refine .moved n call { call with phase } hcall rfl rfl
            (moves_insert h hcall hphase hid info hinfo hfam filter phase ?_) ?_
          · split at hnext
            · rename_i hregistry
              exact .inl ⟨hnext, by simpa [hconfigured] using hregistry⟩
            · rename_i hregistry
              exact .inr ⟨hnext, by simpa [hconfigured] using hregistry⟩
          · have hgoes : phase.failed = false := by
              rw [hnext]
              split <;> rfl
            simpa [hgoes] using hspared
        exact hmoves _ _ _ rfl rfl rfl

theorem spared_resume {reply : Reply} (hcall : c.calls[n]? = some call)
    (hphase : ∀ info, call.phase ≠ .completing info) : c.Spared (.resume n reply) := by
  intro call' hcall' info hinfo
  obtain rfl : call = call' := Option.some.inj (hcall.symm.trans hcall')
  exact absurd hinfo (hphase info)

theorem spared_completing {reply : Reply} (hcall : c.calls[n]? = some call) {info : WalletInfo I F}
    (hphase : call.phase = .completing info) {configured : Family} (hconfigured : call.configured = some configured) :
    c.Spared (.resume n reply) ↔ (c.admissions configured.scope).revision.toNat + 1 < 2 ^ 64 := by
  constructor
  · exact fun hs => hs call hcall info hphase configured hconfigured
  · intro hrevision call' hcall' info' _ configured' hconfigured'
    obtain rfl : call = call' := Option.some.inj (hcall.symm.trans hcall')
    obtain rfl : configured = configured' := Option.some.inj (hconfigured.symm.trans hconfigured')
    exact hrevision

theorem effect_refuse (h : c.Consistent config) {reply : Reply} (hcall : c.calls[n]? = some call)
    (hmap : call.inMap = some false) (hregistry : call.inRegistry = some false)
    (hphase : ∀ info, call.phase ≠ .completing info) {error : Error}
    (hcalls : c'.calls = c.calls.set n { call with phase := .ended (.error error) })
    (hvalues : c'.values = c.values) (hregistered : c'.registered = c.registered) :
    Effect config c c' (c.Spared (.resume n reply)) :=
  effect_fail h hcall hcalls hvalues hregistered rfl
    (iff_of_true (spared_resume hcall hphase) (not_made h hcall hmap hregistry))

theorem effect_registered (h : c.Consistent config) (hcall : c.calls[n]? = some call) {info : WalletInfo I F}
    {filter : AddressFilter} {stored : Bool} (hphase : call.phase = .registering info filter stored)
    (error : Error) (hspared : spared) :
    Effect config c (if stored then c.setPhase n call (.completing info) else c.setPhase n call (.forgetting error))
      spared := by
  cases stored with
  | true =>
    refine effect_advance h hcall rfl rfl rfl (by simp [Call.inMap, hphase]) ?_ (by simp) rfl hspared
    obtain ⟨e, he, htag⟩ := made_of_inMap h hcall (by simp [Call.inMap, hphase])
    obtain ⟨call', hcall', hfits⟩ := h.made e he n htag
    obtain rfl : call = call' := Option.some.inj (hcall.symm.trans hcall')
    have hregistry := (hfits.filter info filter true hphase).2
    simp only [Call.inRegistry, hphase]
    exact congrArg some hregistry
  | false =>
    refine effect_advance h hcall rfl rfl rfl (by simp [Call.inMap, hphase]) ?_ (by simp) rfl hspared
    simp [Call.inRegistry, hphase]

theorem effect_resume [DecidableEq I] (h : c.Consistent config) (n : Nat) (reply : Reply) :
    Effect config c (c.resume n reply) (c.Spared (.resume n reply)) := by
  unfold resume
  split
  · rename_i hnone
    exact .same rfl rfl rfl (by simp [Spared, hnone])
  rename_i call hcall
  cases hconfigured : call.configured with
  | none =>
    dsimp only
    split
    · rename_i hphase
      exact effect_refuse h hcall (by simp [Call.inMap, hphase]) (by simp [Call.inRegistry, hphase])
        (by simp [hphase]) rfl rfl rfl
    · refine .same rfl rfl rfl ?_
      intro call' hcall' info _ configured hsome
      obtain rfl : call = call' := Option.some.inj (hcall.symm.trans hcall')
      rw [hconfigured] at hsome
      cases hsome
  | some configured =>
    cases hphase : call.phase with
    | creating =>
      dsimp only
      split
      · exact effect_refuse h hcall (by simp [Call.inMap, hphase]) (by simp [Call.inRegistry, hphase])
          (by simp [hphase]) rfl rfl rfl
      · exact effect_advance h hcall rfl rfl rfl (by simp [Call.inMap, hphase])
          (by simp [Call.inRegistry, hphase]) (by simp) rfl (spared_resume hcall (by simp [hphase]))
    | reading address =>
      dsimp only
      split
      · exact effect_refuse h hcall (by simp [Call.inMap, hphase]) (by simp [Call.inRegistry, hphase])
          (by simp [hphase]) rfl rfl rfl
      · exact effect_publish h hcall (by simp [Call.inMap, hphase]) (by simp [Call.inRegistry, hphase])
          (spared_resume hcall (by simp [hphase]))
    | publishing address reload =>
      exact effect_publish h hcall (by simp [Call.inMap, hphase]) (by simp [Call.inRegistry, hphase])
        (spared_resume hcall (by simp [hphase]))
    | storing address checkpoint =>
      exact effect_store h hcall hconfigured hphase (spared_resume hcall (by simp [hphase]))
    | registering info filter stored =>
      exact effect_registered h hcall hphase _ (spared_resume hcall (by simp [hphase]))
    | forgetting error =>
      have hspared : c.Spared (.resume n reply) := spared_resume hcall (by simp [hphase])
      exact .moved n call { call with phase := .releasing error } hcall rfl rfl
        (moves_forget h hcall hphase error) hspared
    | releasing error =>
      exact effect_refuse h hcall (by simp [Call.inMap, hphase]) (by simp [Call.inRegistry, hphase])
        (by simp [hphase]) rfl rfl rfl
    | completing info => exact effect_complete h hcall hphase (spared_completing hcall hphase hconfigured)
    | ended outcome => exact .same rfl rfl rfl (spared_resume hcall (by simp [hphase]))

theorem effect_stores {display : I → String} (h : c.Consistent config) (n : Nat) :
    Effect config c (c.registryStores display n) (c.Spared (.stores n)) := by
  unfold registryStores
  split
  · exact .same rfl rfl rfl trivial
  · rename_i call hcall
    split
    · rename_i info filter material hphase hsecret
      exact .moved n call { call with phase := .registering info filter true } hcall rfl rfl
        (moves_stores h hcall hphase hsecret _) trivial
    · exact .same rfl rfl rfl trivial

theorem effect_drop (h : c.Consistent config) (n : Nat) :
    Effect config c (c.drop n) (c.Spared (.drop n)) := by
  unfold drop
  split
  · rename_i hnone
    exact .same rfl rfl rfl (by simp [Spared, hnone])
  rename_i call hcall
  have hfree : (∀ info filter stored, call.phase ≠ .registering info filter stored) →
      c.Spared (.drop n) := by
    intro hphase call' hcall'
    obtain rfl : call = call' := Option.some.inj (hcall.symm.trans hcall')
    exact hphase
  have hfails : call.inMap = some false → call.inRegistry = some false →
      (∀ info filter stored, call.phase ≠ .registering info filter stored) →
      Effect config c (c.setPhase n call (.ended .dropped)) (c.Spared (.drop n)) :=
    fun hmap hregistry hphase => effect_fail h hcall rfl rfl rfl rfl
      (iff_of_true (hfree hphase) (not_made h hcall hmap hregistry))
  cases hphase : call.phase with
  | creating | reading _ | publishing _ _ =>
    exact hfails (by simp [Call.inMap, hphase]) (by simp [Call.inRegistry, hphase]) (by simp [hphase])
  | registering info filter stored =>
    -- The entry stays in the map, whatever the registry did.
    have hmade := made_of_inMap h hcall (by simp [Call.inMap, hphase])
    obtain ⟨e, he, htag⟩ := hmade
    obtain ⟨call', hcall', hfits⟩ := h.made e he n htag
    obtain rfl : call = call' := Option.some.inj (hcall.symm.trans hcall')
    have hregistry := (hfits.filter info filter stored hphase).2
    cases hconfigured : call.configured with
    | none => simp [hconfigured] at hregistry
    | some configured =>
      refine effect_fail h hcall rfl rfl rfl rfl (iff_of_false ?_ fun hnot => hnot.1 ⟨e, he, htag⟩)
      exact fun hs => hs call hcall info filter stored hphase
  | storing _ _ | forgetting _ | releasing _ | completing _ | ended _ =>
    exact .same rfl rfl rfl (hfree (by simp [hphase]))

theorem effect_step [DecidableEq I] (display : I → String) (h : c.Consistent config) (e : Event I F) :
    Effect config c (c.step config display e) (c.Spared e) := by
  cases e with
  | generate id family => exact .began id family none rfl trivial
  | adopt id family secret => exact .began id family (some secret) rfl trivial
  | resume n reply => exact effect_resume h n reply
  | stores n => exact effect_stores h n
  | drop n => exact effect_drop h n
  | synchronize scope action => exact .same rfl rfl rfl trivial

end Effects

/-! ## Memory and registry -/

theorem ended_ok (hc : c.Clean) (hended : ∀ call ∈ c.calls, call.phase.ended? = true) {n : Nat}
    {call : Call I F} (hcall : c.calls[n]? = some call) (hmade : c.Made n ∨ c.Recorded n) :
    ∃ info, call.phase = .ended (.ok info) := by
  have hover := hended call (List.mem_of_getElem? hcall)
  have hclean := hc n call hcall
  cases hphase : call.phase with
  | ended outcome =>
    cases outcome with
    | ok info => exact ⟨info, rfl⟩
    | _ =>
      rw [hphase] at hclean
      obtain ⟨hm, hr⟩ := hclean rfl
      exact absurd hmade (by simp [hm, hr])
  | _ =>
    rw [hphase] at hover
    cases hover

theorem Consistent.agree (h : c.Consistent config) (hc : c.Clean) : c.Agree config := by
  intro hended family configured hconfig hregistry address
  constructor
  · rintro ⟨e, he, hfamily, horigin, rfl⟩
    cases ho : e.origin with
    | restored =>
      obtain ⟨r, hr, _, hrfamily, hfilter⟩ :=
        (h.restored family configured hconfig hregistry e.filter).mp ⟨e, he, ho, hfamily, rfl⟩
      exact ⟨r, hr, hrfamily, by rw [hfilter]⟩
    | generated n => exact absurd ho (horigin n)
    | adopted n =>
      have htag : e.origin.call = some n := by rw [ho]; rfl
      obtain ⟨call, hcall, hfits⟩ := h.made e he n htag
      obtain ⟨info, hphase⟩ := ended_ok hc hended hcall (.inl ⟨e, he, htag⟩)
      have hsecret : call.secret.isSome := by
        have horiginal := hfits.origin
        rw [ho] at horiginal
        unfold Call.origin at horiginal
        split at horiginal
        · cases horiginal
        · rename_i hs
          simp [hs]
      have hcalled : call.configured = some configured := by
        rw [h.configured call (List.mem_of_getElem? hcall), ← hfits.family, hfamily, hconfig]
      have hrecorded : c.Recorded n := by
        rw [h.inRegistry n call true hcall ?_]
        simp [Call.inRegistry, hphase, hcalled, Call.registry, hsecret, hregistry]
      obtain ⟨r, hr, hrtag⟩ := hrecorded
      obtain ⟨call', hcall', hrfamily, _⟩ := h.recorded r hr n hrtag
      obtain rfl : call = call' := Option.some.inj (hcall.symm.trans hcall')
      refine ⟨r, hr, ?_, ?_⟩
      · rw [hrfamily, ← hfits.family, hfamily]
      · rw [h.same e he r hr n htag hrtag]
  · rintro ⟨r, hr, hfamily, rfl⟩
    cases htag : r.origin.call with
    | none =>
      have ho : r.origin = .restored := by
        cases ho : r.origin with
        | restored => rfl
        | _ => simp [ho, Origin.call] at htag
      obtain ⟨e, he, heorigin, hefamily, hfilter⟩ :=
        (h.restored family configured hconfig hregistry r.entry.filter).mpr ⟨r, hr, ho, hfamily, rfl⟩
      exact ⟨e, he, hefamily, by simp [heorigin], by rw [hfilter]⟩
    | some n =>
      obtain ⟨call, hcall, hrfamily, hsecret⟩ := h.recorded r hr n htag
      obtain ⟨info, hphase⟩ := ended_ok hc hended hcall (.inr ⟨r, hr, htag⟩)
      have hmade : c.Made n := by
        rw [h.inMap n call true hcall (by simp [Call.inMap, hphase])]
      obtain ⟨e, he, hetag⟩ := hmade
      obtain ⟨call', hcall', hfits⟩ := h.made e he n hetag
      obtain rfl : call = call' := Option.some.inj (hcall.symm.trans hcall')
      refine ⟨e, he, hfits.family.trans (hrfamily.symm.trans hfamily), ?_, ?_⟩
      · intro m hm
        obtain ⟨secret, hs⟩ := Option.isSome_iff_exists.mp hsecret
        simp [hfits.origin, Call.origin, hs] at hm
      · rw [h.same e he r hr n hetag htag]

/-! ## Runs -/

theorem consistent_restored (ofString : String → I) (entries : List (F × RegisteredAddress)) :
    (restored ofString config entries).Consistent config := by
  have hvalues : ∀ e ∈ (restored ofString config entries).values, e.origin = .restored := by
    intro e he
    obtain ⟨⟨family, x⟩, _, hx⟩ := List.mem_filterMap.mp he
    obtain ⟨configured, _, rfl⟩ := Option.map_eq_some_iff.mp hx
    rfl
  have hregistered : ∀ r ∈ (restored ofString config entries).registered, r.origin = .restored := by
    intro r hr
    obtain ⟨x, _, rfl⟩ := List.mem_map.mp hr
    rfl
  refine ⟨by simp [restored], by simp [restored], by simp [restored], ?_, ?_, ?_, ?_, ?_⟩
  · intro e he n htag
    simp [hvalues e he, Origin.call] at htag
  · intro r hr n htag
    simp [hregistered r hr, Origin.call] at htag
  · intro e he r hr n htag
    simp [hvalues e he, Origin.call] at htag
  · intro e he e' he' n htag
    simp [hvalues e he, Origin.call] at htag
  · intro family configured hconfig hregistry filter
    constructor
    · rintro ⟨e, he, _, hfamily, hfilter⟩
      obtain ⟨⟨family', x⟩, hmem, hx⟩ := List.mem_filterMap.mp he
      obtain ⟨configured', _, rfl⟩ := Option.map_eq_some_iff.mp hx
      exact ⟨_, List.mem_map_of_mem hmem, rfl, hfamily, hfilter⟩
    · rintro ⟨r, hr, _, hfamily, hfilter⟩
      obtain ⟨⟨family', x⟩, hmem, rfl⟩ := List.mem_map.mp hr
      obtain rfl : family' = family := hfamily
      refine ⟨⟨⟨ofString x.id, family', configured.scope, x.filter.address.value⟩, x.filter, .restored⟩,
        List.mem_filterMap.mpr ⟨_, hmem, ?_⟩, rfl, rfl, hfilter⟩
      simp [hconfig, hregistry]

/-- Registration is atomic in every state of a run, if and only if every step of the run is
spared: no future is dropped while it awaits `register`, and completions find a revision. -/
theorem registration_atomic_iff [DecidableEq I] (config : F → Option Family) (display : I → String)
    (ofString : String → I) (entries : List (F × RegisteredAddress)) (events : List (Event I F)) :
    Along (step config display) Spared (restored ofString config entries) events ↔
      ∀ n, let c := (events.take n).foldl (step config display) (restored ofString config entries)
        c.Clean ∧ c.Agree config := by
  have hclean : (restored ofString config entries).Clean := by
    intro n call hcall
    simp [restored] at hcall
  apply along_iff (I := Consistent config) (P := fun c => c.Clean ∧ c.Agree config) events
  · exact fun c e h => (effect_step display h e).consistent h
  · intro c e h hP
    rw [(effect_step display h e).clean_iff hP.1]
    exact ⟨fun hc => ⟨hc, ((effect_step display h e).consistent h).agree hc⟩, And.left⟩
  · exact consistent_restored ofString entries
  · exact ⟨hclean, (consistent_restored ofString entries).agree hclean⟩

/-- One family with a registry. -/
def sampleConfig : Unit → Option Family :=
  fun _ => some ⟨⟨⟨.lit "solana" (Eq.refl true)⟩, .lit "mainnet" (Eq.refl true)⟩, true⟩

/-- An `adopt` call gets to its `register`, and is dropped there. -/
def sampleDrop : List (Event String Unit) :=
  [.adopt "deposit" () [1], .resume 0 { wallet := .ok (.ok (.lit "address" (Eq.refl true))) }, .resume 0 {}, .resume 0 {},
    .drop 0]

/-- The dropped call has left its wallet in the map, and the registry does not have it. -/
theorem dropped_adopt_not_atomic :
    let c := sampleDrop.foldl (step sampleConfig id) (restored id sampleConfig [])
    ¬ c.Clean ∧ ¬ c.Agree sampleConfig := by
  constructor
  · intro hc
    exact (hc 0 _ rfl rfl).1 ⟨_, List.mem_cons_self, rfl⟩
  · intro hagree
    obtain ⟨r, hr, _⟩ := (hagree (by decide) () _ rfl rfl _).mp
      ⟨_, List.mem_cons_self, rfl, (by rintro n ⟨⟩), rfl⟩
    exact absurd hr List.not_mem_nil

end Collection

end PaymentSdk.Wallets
