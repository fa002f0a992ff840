import Mathlib.Data.List.Nodup
import PaymentSdk.Lib.Run
import PaymentSdk.Wallets.Restore

/-!
# A restart restores what was adopted

The rows of the registries are those of the adopted wallets, after every sequence of calls.
So each family finds its own wallets again, unless it shares its registry: then it also finds
those of the others.
-/

open Interaction

namespace PaymentSdk.Wallets

variable {I F : Type} [DecidableEq I] [DecidableEq F]

/-! ## What an adoption leaves -/

variable {families : Families F} {display : I → String} {ofString : String → I} {c : Custody I F}
  {a : Adoption I F}

def step (families : Families F) (display : I → String) (c : Custody I F) (a : Adoption I F) : Custody I F :=
  (c.adopt families display a).2

/-- The call's scope has a filter revision left. -/
def Spare (families : Families F) (c : Custody I F) (a : Adoption I F) : Prop :=
  ∀ configured, families.get a.family = some configured →
    checkedSuccessor (c.revisions configured.scope) ≠ none

/-- The row that stands for a wallet. -/
structure Records (display : I → String) (configured : Configured) (r : Repository) (h : Held I F)
    (row : WalletRow) : Prop where
  id : row.id = display h.info.id
  scope : row.scope = r.scope
  start : row.startHeight = h.filter.startPosition.toNat
  address : configured.provider row.secret = .ok (.ok h.info.address)
  shape : h = .new h.info.id h.info.family configured.scope h.info.address h.filter.startPosition

theorem register_ok {r : Repository} {databases databases' : Databases} {entry : RegisteredAddress}
    {createdAt : Nat} {fault : Option IndexError}
    (h : r.register databases entry createdAt fault = .ok databases') :
    ∃ row : WalletRow, row = ⟨entry.id, r.scope, entry.filter.address.value,
        entry.filter.startPosition.toNat, entry.material, createdAt⟩ ∧
      (∀ other ∈ databases r.database, other.id ≠ row.id) ∧
      databases' = Function.update databases r.database (databases r.database ++ [row]) := by
  simp only [Repository.register, Repository.checkScope, Postgres.asI64] at h
  by_cases hscope : entry.filter.address.scope = r.scope
  · by_cases hfits : entry.filter.startPosition.val.toNat < 2 ^ 63
    · rw [if_pos hscope, if_pos hfits] at h
      cases fault with
      | some e => cases h
      | none =>
        refine ⟨_, rfl, ?_⟩
        simp only [Bind.bind, Except.bind] at h
        split at h
        · cases h
        next hfree =>
          simp only [Bool.not_eq_true, List.any_eq_false] at hfree
          cases h
          refine ⟨fun other hother heq => ?_, rfl⟩
          have := hfree other hother
          simp [WalletRow.conflicts, heq] at this
    · rw [if_pos hscope, if_neg hfits] at h
      cases h
  · rw [if_neg hscope] at h
    cases h

omit [DecidableEq I] [DecidableEq F] in
theorem held_ok {configured : Configured} {held : Held I F} (h : a.held configured = .ok held) :
    configured.provider a.secret = .ok (.ok held.info.address) ∧
      held = .new a.id a.family configured.scope held.info.address held.filter.startPosition := by
  simp only [Adoption.held, Bind.bind, Except.bind] at h
  split at h
  · cases h
  next address haddress =>
    split at h
    · cases h
    · split at h
      · cases h
      · split at h
        · cases h
        next text => cases h; exact ⟨haddress, rfl⟩

/-- A call changes nothing, or it adopts a wallet under a new id, with a row in the family's
registry if it has one. -/
theorem step_cases (display : I → String) (hspare : Spare families c a) :
    (step families display c a).values = c.values ∧ (step families display c a).databases = c.databases ∧
        (step families display c a).adopted = c.adopted ∨
      ∃ configured held, families.get a.family = some configured ∧ a.held configured = .ok held ∧
        a.id ∉ c.values.map (·.info.id) ∧
        (step families display c a).values = c.values ++ [held] ∧
        (step families display c a).adopted = c.adopted ++ [held] ∧
        (configured.registry = none ∧ (step families display c a).databases = c.databases ∨
          ∃ r, configured.registry = some r ∧
            r.register c.databases ⟨display a.id, held.filter, a.secret⟩ a.createdAt a.fault =
              .ok (step families display c a).databases) := by
  unfold step Custody.adopt
  cases hget : families.get a.family with
  | none => exact .inl ⟨rfl, rfl, rfl⟩
  | some configured =>
    cases hheld : a.held configured with
    | error e => exact .inl ⟨by simp [hheld], by simp [hheld], by simp [hheld]⟩
    | ok held =>
      obtain ⟨haddress, hshape⟩ := held_ok hheld
      have hid : held.info.id = a.id := by rw [hshape]; rfl
      have hscope : held.info.scope = configured.scope := by rw [hshape]; rfl
      by_cases hnew : a.id ∈ c.values.map (·.info.id)
      · exact .inl ⟨by simp [hheld, insertHeld, hid, hnew], by simp [hheld, insertHeld, hid, hnew],
          by simp [hheld, insertHeld, hid, hnew]⟩
      · obtain ⟨revision, hrevision⟩ := Option.ne_none_iff_exists'.mp (hspare configured hget)
        have hinsert : insertHeld c.values held = .ok (c.values ++ [held]) := by
          rw [insertHeld, hid, if_neg hnew]
        simp only [hheld, hinsert]
        cases hregistry : configured.registry with
        | none =>
          refine .inr ⟨configured, held, rfl, hheld, hnew, ?_⟩
          simp [Custody.persist, Custody.complete, hscope, hrevision, hregistry]
        | some r =>
          cases hregister :
              r.register c.databases ⟨display a.id, held.filter, a.secret⟩ a.createdAt a.fault with
          | error e =>
            left
            have hrest : c.values.filter (fun h => decide (h.info.id ≠ a.id)) = c.values := by
              rw [List.filter_eq_self]
              intro h hh
              have : h.info.id ≠ a.id := fun heq => hnew (heq ▸ List.mem_map_of_mem hh)
              simpa using this
            simp only [Custody.persist, hregister]
            refine ⟨?_, trivial, trivial⟩
            rw [List.filter_append, hrest, List.filter_cons]
            simp [hid]
          | ok databases =>
            refine .inr ⟨configured, held, rfl, hheld, hnew, ?_⟩
            simp [Custody.persist, Custody.complete, hscope, hrevision, hregistry, hregister]

/-! ## Registries and adoptions agree -/

/-- Ids are unique, and the rows of the registries are those of the adopted wallets. -/
structure Faithful (families : Families F) (display : I → String) (c : Custody I F) : Prop where
  listed : ∀ h ∈ c.adopted, h ∈ c.values
  unique : (c.adopted.map (·.info.id)).Nodup
  rows : ∀ d, ((c.databases d).map (·.id)).Nodup
  written : ∀ d, ∀ row ∈ c.databases d, ∃ h ∈ c.adopted, ∃ configured r,
    families.get h.info.family = some configured ∧ configured.registry = some r ∧ r.database = d ∧
      Records display configured r h row
  stored : ∀ h ∈ c.adopted, ∀ configured r, families.get h.info.family = some configured →
    configured.registry = some r → ∃ row ∈ c.databases r.database, Records display configured r h row

omit [DecidableEq I] in
theorem faithful_empty : Faithful families display ({} : Custody I F) where
  listed := by simp
  unique := by simp
  rows := by simp
  written := by simp
  stored := by simp

theorem mem_update_append {databases : Databases} {d d' : Nat} {row other : WalletRow} :
    other ∈ Function.update databases d (databases d ++ [row]) d' ↔
      other ∈ databases d' ∨ d' = d ∧ other = row := by
  by_cases hd : d' = d
  · subst hd
    simp
  · simp [hd]

omit [DecidableEq I] in
/-- A family without a registry writes nothing. -/
theorem Faithful.unregistered (hc : Faithful families display c) {c' : Custody I F} {held : Held I F}
    {configured : Configured} (hget : families.get held.info.family = some configured) (hnone : configured.registry = none)
    (hlisted : ∀ h ∈ c'.adopted, h ∈ c'.values) (hunique : (c'.adopted.map (·.info.id)).Nodup)
    (hadopted : c'.adopted = c.adopted ++ [held]) (hdatabases : c'.databases = c.databases) :
    Faithful families display c' := by
  refine ⟨hlisted, hunique, by rw [hdatabases]; exact hc.rows, ?_, ?_⟩
  · rw [hdatabases, hadopted]
    intro d row hrow
    obtain ⟨h, hh, hrest⟩ := hc.written d row hrow
    exact ⟨h, List.mem_append_left _ hh, hrest⟩
  · rw [hdatabases, hadopted]
    intro h hh other r hother hr
    rcases List.mem_append.mp hh with hold | hlast
    · exact hc.stored h hold other r hother hr
    · obtain rfl := List.mem_singleton.mp hlast
      rw [hget] at hother
      cases hother
      rw [hnone] at hr
      cases hr

omit [DecidableEq I] in
/-- The row of a new wallet is the only change of its database. -/
theorem Faithful.recorded (hc : Faithful families display c) {c' : Custody I F} {held : Held I F}
    {configured : Configured} {r : Repository} {row : WalletRow}
    (hget : families.get held.info.family = some configured) (hsome : configured.registry = some r)
    (hlisted : ∀ h ∈ c'.adopted, h ∈ c'.values) (hunique : (c'.adopted.map (·.info.id)).Nodup)
    (hadopted : c'.adopted = c.adopted ++ [held])
    (hdatabases : c'.databases = Function.update c.databases r.database (c.databases r.database ++ [row]))
    (hfresh : ∀ other ∈ c.databases r.database, other.id ≠ row.id) (hrecords : Records display configured r held row) :
    Faithful families display c' := by
  refine ⟨hlisted, hunique, ?_, ?_, ?_⟩
  · intro d
    rw [hdatabases]
    by_cases hd : d = r.database
    · subst hd
      rw [Function.update_self, List.map_append, List.nodup_append]
      refine ⟨hc.rows _, by simp, ?_⟩
      intro id hmem id' hid' heq
      obtain ⟨other, hother, rfl⟩ := List.mem_map.mp hmem
      simp only [List.map_cons, List.map_nil, List.mem_singleton] at hid'
      exact hfresh other hother (by rw [heq, hid'])
    · rw [Function.update_of_ne hd]
      exact hc.rows d
  · intro d other hother
    rw [hdatabases] at hother
    rw [hadopted]
    rcases mem_update_append.mp hother with hold | ⟨rfl, rfl⟩
    · obtain ⟨h, hh, hrest⟩ := hc.written d other hold
      exact ⟨h, List.mem_append_left _ hh, hrest⟩
    · exact ⟨held, by simp, configured, r, hget, hsome, rfl, hrecords⟩
  · rw [hadopted, hdatabases]
    intro h hh other r' hother hr'
    rcases List.mem_append.mp hh with hold | hlast
    · obtain ⟨x, hx, hrec⟩ := hc.stored h hold other r' hother hr'
      exact ⟨x, mem_update_append.mpr (.inl hx), hrec⟩
    · obtain rfl := List.mem_singleton.mp hlast
      rw [hget] at hother
      cases hother
      rw [hsome] at hr'
      cases hr'
      exact ⟨row, mem_update_append.mpr (.inr ⟨rfl, rfl⟩), hrecords⟩

theorem step_faithful (hspare : Spare families c a) (hc : Faithful families display c) :
    Faithful families display (step families display c a) := by
  obtain ⟨hvalues, hdatabases, hadopted⟩ | ⟨configured, held, hget, hheld, hnew, hvalues, hadopted, hregistry⟩ :=
    step_cases display hspare
  · obtain ⟨hlisted, hunique, hrows, hwritten, hstored⟩ := hc
    exact ⟨by rwa [hvalues, hadopted], by rwa [hadopted], by rwa [hdatabases], by rwa [hdatabases, hadopted],
      by rwa [hdatabases, hadopted]⟩
  obtain ⟨haddress, hshape⟩ := held_ok hheld
  have hid : held.info.id = a.id := by rw [hshape]; rfl
  have hfamily : held.info.family = a.family := by rw [hshape]; rfl
  have hget' : families.get held.info.family = some configured := by rw [hfamily, hget]
  -- The wallet is in the map before its row is written.
  have hlisted : ∀ h ∈ (step families display c a).adopted, h ∈ (step families display c a).values := by
    rw [hadopted, hvalues]
    intro h hh
    rcases List.mem_append.mp hh with hold | hlast
    · exact List.mem_append_left _ (hc.listed h hold)
    · exact List.mem_append_right _ hlast
  have hunique : ((step families display c a).adopted.map (·.info.id)).Nodup := by
    rw [hadopted, List.map_append, List.nodup_append]
    refine ⟨hc.unique, by simp, ?_⟩
    intro id hmem id' hid' heq
    obtain ⟨h, hh, rfl⟩ := List.mem_map.mp hmem
    simp only [List.map_cons, List.map_nil, List.mem_singleton] at hid'
    exact hnew (List.mem_map.mpr ⟨h, hc.listed h hh, by rw [heq, hid', hid]⟩)
  rcases hregistry with ⟨hnone, hdatabases⟩ | ⟨r, hsome, hregister⟩
  · exact hc.unregistered hget' hnone hlisted hunique hadopted hdatabases
  · obtain ⟨row, hrow, hfresh, hdatabases⟩ := register_ok hregister
    have hrecords : Records display configured r held row := by
      subst hrow
      exact ⟨by rw [hid], rfl, rfl, haddress, by rw [hid, hfamily]; exact hshape⟩
    exact hc.recorded hget' hsome hlisted hunique hadopted hdatabases hfresh hrecords

theorem run_faithful {es : List (Adoption I F)} (h : Along (step families display) (Spare families) c es)
    (hc : Faithful families display c) : Faithful families display (es.foldl (step families display) c) :=
  along_invariant h (fun _ _ _ hspare hc => step_faithful hspare hc) hc

/-! ## What a restore leaves -/

/-- The entry that a row is read as. -/
def WalletRow.entry (row : WalletRow) : RegisteredAddress :=
  ⟨row.id, ⟨⟨row.scope, row.address⟩, ⟨UInt64.ofNat row.startHeight.toNat⟩⟩, row.secret⟩

/-- The wallet that an entry is restored as, where the provider accepts its material. -/
def RegisteredAddress.held (ofString : String → I) (family : F) (configured : Configured)
    (entry : RegisteredAddress) : Held I F :=
  let address := match configured.provider entry.material with
    | .ok (.ok address) => address
    | _ => entry.filter.address.value
  .new (ofString entry.id) family configured.scope address entry.filter.startPosition

/-- What a registry holds for its scope. -/
def Repository.entries (r : Repository) (databases : Databases) : List RegisteredAddress :=
  ((r.rows databases).mergeSort WalletRow.before).map WalletRow.entry

omit [DecidableEq F] in
theorem insertHeld_ok {values values' : List (Held I F)} {held : Held I F} :
    insertHeld values held = .ok values' ↔
      held.info.id ∉ values.map (·.info.id) ∧ values' = values ++ [held] := by
  by_cases h : held.info.id ∈ values.map (·.info.id)
  · simp only [insertHeld, if_pos h, reduceCtorEq, false_iff]
    exact fun hn => hn.1 h
  · simp only [insertHeld, if_neg h, Except.ok.injEq]
    exact ⟨fun heq => ⟨h, heq.symm⟩, fun heq => heq.2.symm⟩

omit [DecidableEq F] in
theorem restoreEntry_ok {family : F} {configured : Configured} {values values' : List (Held I F)}
    {entry : RegisteredAddress} : restoreEntry ofString family configured values entry = .ok values' ↔
      (∃ address, configured.provider entry.material = .ok (.ok address)) ∧
        ofString entry.id ∉ values.map (·.info.id) ∧
        values' = values ++ [entry.held ofString family configured] := by
  simp only [restoreEntry, RegisteredAddress.held, Bind.bind, Except.bind]
  cases configured.provider entry.material with
  | error e => simp
  | ok address =>
    cases address with
    | error e => simp
    | ok address => simp [insertHeld_ok, Held.new]

omit [DecidableEq F] in
theorem restoreEntries_ok {family : F} {configured : Configured} {n m : Nat}
    {values values' : List (Held I F)} {entries : List RegisteredAddress}
    (h : restoreEntries ofString family configured n values entries = (.ok m, values')) :
    (∀ x ∈ values, x ∈ values') ∧ ∀ e ∈ entries,
      ofString e.id ∉ values.map (·.info.id) ∧ ofString e.id ∈ values'.map (·.info.id) := by
  induction entries generalizing n values with
  | nil =>
    cases h
    simp
  | cons entry rest ih =>
    rw [restoreEntries] at h
    split at h
    · cases h
    next next hentry =>
      obtain ⟨-, hnew, rfl⟩ := restoreEntry_ok.mp hentry
      obtain ⟨hkeep, hrest⟩ := ih h
      refine ⟨fun x hx => hkeep x (List.mem_append_left _ hx), ?_⟩
      intro e he
      rcases List.mem_cons.mp he with rfl | he
      · exact ⟨hnew, List.mem_map.mpr ⟨_, hkeep _ (List.mem_append_right _ List.mem_cons_self), rfl⟩⟩
      · obtain ⟨hout, hin⟩ := hrest e he
        refine ⟨fun hmem => hout ?_, hin⟩
        rw [List.map_append]
        exact List.mem_append_left _ hmem

omit [DecidableEq F] in
theorem restoreEntries_eq {family : F} {configured : Configured} {n : Nat}
    {values : List (Held I F)} {entries : List RegisteredAddress}
    (haccepted : ∀ e ∈ entries, ∃ address, configured.provider e.material = .ok (.ok address))
    (hids : ((values ++ entries.map (·.held ofString family configured)).map (·.info.id)).Nodup) :
    restoreEntries ofString family configured n values entries =
      (.ok (n + entries.length), values ++ entries.map (·.held ofString family configured)) := by
  induction entries generalizing n values with
  | nil => simp [restoreEntries]
  | cons entry rest ih =>
    have hnew : ofString entry.id ∉ values.map (·.info.id) := by
      rw [List.map_append, List.nodup_append] at hids
      exact fun hmem => hids.2.2 _ hmem _ List.mem_cons_self rfl
    have hentry : restoreEntry ofString family configured values entry =
        .ok (values ++ [entry.held ofString family configured]) :=
      restoreEntry_ok.mpr ⟨haccepted entry List.mem_cons_self, hnew, rfl⟩
    rw [restoreEntries, hentry]
    simp only
    rw [ih (fun e he => haccepted e (List.mem_cons_of_mem _ he)) (by simpa using hids)]
    simp only [List.length_cons, List.map_cons, List.append_assoc, List.singleton_append]
    congr 2
    omega

/-! ## Registries that one family uses -/

/-- The families that have a registry. -/
def Families.durable (families : Families F) : List F :=
  (families.entries.filter (·.2.registry.isSome)).map (·.1)

omit [DecidableEq I] in
theorem get_of_mem {e : F × Configured} (h : e ∈ families.entries) : families.get e.1 = some e.2 := by
  rw [Families.get]
  cases hfind : families.entries.find? fun x => decide (x.1 = e.1) with
  | none => simpa using List.find?_eq_none.mp hfind e h
  | some x =>
    have hkey : x.1 = e.1 := by simpa using List.find?_some hfind
    have heq : x = e := List.inj_on_of_nodup_map families.unique (List.mem_of_find?_eq_some hfind) h hkey
    rw [heq, Option.map_some]

omit [DecidableEq I] in
theorem mem_durable {family : F} : family ∈ families.durable ↔
    ∃ configured r, families.get family = some configured ∧ configured.registry = some r := by
  constructor
  · intro h
    obtain ⟨e, he, rfl⟩ := List.mem_map.mp h
    obtain ⟨hmem, hsome⟩ := List.mem_filter.mp he
    obtain ⟨r, hr⟩ := Option.isSome_iff_exists.mp hsome
    exact ⟨e.2, r, get_of_mem hmem, hr⟩
  · rintro ⟨configured, r, hget, hr⟩
    obtain ⟨e, hfind, rfl⟩ := Option.map_eq_some_iff.mp hget
    have hkey : e.1 = family := by simpa using List.find?_some hfind
    refine List.mem_map.mpr ⟨e, List.mem_filter.mpr ⟨List.mem_of_find?_eq_some hfind, ?_⟩, hkey⟩
    simp [hr]

/-- No two families share a registry that holds something. -/
def Unshared (families : Families F) (databases : Databases) : Prop :=
  ∀ family other configured configured' r, families.get family = some configured →
    families.get other = some configured' → configured.registry = some r →
    configured'.registry = some r → family ≠ other → r.rows databases = []

/-- What the registry of a family restores. -/
def Families.helds (families : Families F) (ofString : String → I) (databases : Databases) (family : F) :
    List (Held I F) :=
  match families.get family with
  | none => []
  | some configured => match configured.registry with
    | none => []
    | some r => (r.entries databases).map (·.held ofString family configured)

section Restored

variable (hofString : ∀ id, ofString (display id) = id) {configured : Configured} {r : Repository}
  {h : Held I F} {row : WalletRow}

omit [DecidableEq I] [DecidableEq F] in
theorem Records.read (hrow : Records display configured r h row) : row.read = .ok row.entry := by
  have hstart : ¬ row.startHeight < 0 := by
    rw [hrow.start]
    omega
  rw [WalletRow.read, if_neg hstart, WalletRow.entry]

include hofString in
omit [DecidableEq I] [DecidableEq F] in
theorem Records.held (hrow : Records display configured r h row) :
    row.entry.held ofString h.info.family configured = h := by
  rw [hrow.shape]
  have hstart : UInt64.ofNat row.startHeight.toNat = h.filter.startPosition.val := by
    rw [hrow.start, Int.toNat_natCast]
    exact UInt64.ofNat_toNat
  simp [RegisteredAddress.held, WalletRow.entry, Held.new, hrow.address, hrow.id, hofString, hstart]

theorem mem_rows {databases : Databases} :
    row ∈ r.rows databases ↔ row ∈ databases r.database ∧ row.scope = r.scope := by
  simp [Repository.rows]

theorem mem_entries {databases : Databases} {e : RegisteredAddress} :
    e ∈ r.entries databases ↔ ∃ row ∈ r.rows databases, row.entry = e := by
  simp [Repository.entries]

omit [DecidableEq I] in
theorem Faithful.owner (hc : Faithful families display c) (hshare : Unshared families c.databases)
    {family : F} (hget : families.get family = some configured) (hr : configured.registry = some r)
    (hrow : row ∈ r.rows c.databases) :
    ∃ h ∈ c.adopted, h.info.family = family ∧ Records display configured r h row := by
  obtain ⟨hmem, hscope⟩ := mem_rows.mp hrow
  obtain ⟨h, hh, configured', r', hget', hr', hdatabase, hrecords⟩ := hc.written _ row hmem
  obtain rfl : r' = r := by
    have hs : r'.scope = r.scope := by rw [← hrecords.scope, hscope]
    cases r'; cases r
    simp_all
  by_cases hfamily : h.info.family = family
  · rw [hfamily, hget] at hget'
    cases hget'
    exact ⟨h, hh, hfamily, hrecords⟩
  · have hempty := hshare _ _ _ _ _ hget' hget hr' hr hfamily
    rw [hempty] at hrow
    cases hrow

include hofString in
omit [DecidableEq I] in
theorem Faithful.mem_helds (hc : Faithful families display c) (hshare : Unshared families c.databases)
    {family : F} (hdurable : family ∈ families.durable) :
    h ∈ families.helds ofString c.databases family ↔ h ∈ c.adopted ∧ h.info.family = family := by
  obtain ⟨configured, r, hget, hr⟩ := mem_durable.mp hdurable
  simp only [Families.helds, hget, hr, List.mem_map, mem_entries]
  constructor
  · rintro ⟨_, ⟨row, hrow, rfl⟩, rfl⟩
    obtain ⟨h, hh, rfl, hrecords⟩ := hc.owner hshare hget hr hrow
    rw [hrecords.held hofString]
    exact ⟨hh, rfl⟩
  · rintro ⟨hh, rfl⟩
    obtain ⟨row, hrow, hrecords⟩ := hc.stored h hh configured r hget hr
    exact ⟨row.entry, ⟨row, mem_rows.mpr ⟨hrow, hrecords.scope⟩, rfl⟩, hrecords.held hofString⟩

include hofString in
omit [DecidableEq I] in
theorem Faithful.helds_nodup (hc : Faithful families display c) (hshare : Unshared families c.databases)
    {family : F} (hdurable : family ∈ families.durable) :
    ((families.helds ofString c.databases family).map (·.info.id)).Nodup := by
  obtain ⟨configured, r, hget, hr⟩ := mem_durable.mp hdurable
  have hids : (((r.rows c.databases).mergeSort WalletRow.before).map (·.id)).Nodup :=
    ((List.mergeSort_perm _ _).map _).nodup_iff.mpr ((hc.rows r.database).sublist (List.filter_sublist.map _))
  simp only [Families.helds, hget, hr, Repository.entries, List.map_map]
  refine (List.Nodup.of_map _ hids).map_on ?_
  intro row hrow other hother heq
  obtain ⟨h, -, -, hrecords⟩ := hc.owner hshare hget hr (List.mem_mergeSort.mp hrow)
  obtain ⟨h', -, -, hrecords'⟩ := hc.owner hshare hget hr (List.mem_mergeSort.mp hother)
  refine List.inj_on_of_nodup_map hids hrow hother ?_
  have heq : ofString row.id = ofString other.id := heq
  rw [hrecords.id, hrecords'.id, hofString, hofString] at heq
  rw [hrecords.id, hrecords'.id, heq]

omit [DecidableEq I] in
theorem Faithful.registered (hc : Faithful families display c) (hr : configured.registry = some r) :
    r.registered c.databases configured.scope = .ok (r.entries c.databases) := by
  have hread : ∀ row ∈ (r.rows c.databases).mergeSort WalletRow.before, row.read = .ok row.entry := by
    intro row hrow
    obtain ⟨hmem, -⟩ := mem_rows.mp (List.mem_mergeSort.mp hrow)
    obtain ⟨h, -, configured', r', -, -, -, hrecords⟩ := hc.written _ row hmem
    exact hrecords.read
  have hall : ∀ rows : List WalletRow, (∀ row ∈ rows, row.read = .ok row.entry) →
      rows.mapM WalletRow.read = Except.ok (rows.map WalletRow.entry) := by
    intro rows hrows
    induction rows with
    | nil => rfl
    | cons row rest ih =>
      rw [List.mapM_cons, hrows row List.mem_cons_self, ih fun x hx => hrows x (List.mem_cons_of_mem _ hx)]
      rfl
  rw [Repository.registered, Repository.checkScope, if_pos (configured.bound r hr).symm, Repository.entries]
  exact hall _ hread

theorem Faithful.restore_eq (hc : Faithful families display c) (hshare : Unshared families c.databases)
    {family : F} (hdurable : family ∈ families.durable) {values : List (Held I F)}
    (hids : ((values ++ families.helds ofString c.databases family).map (·.info.id)).Nodup) :
    ∃ n, restore families ofString c.databases values family =
      (.ok n, values ++ families.helds ofString c.databases family) := by
  obtain ⟨configured, r, hget, hr⟩ := mem_durable.mp hdurable
  have hhelds : families.helds ofString c.databases family =
      (r.entries c.databases).map (·.held ofString family configured) := by
    simp only [Families.helds, hget, hr]
  rw [hhelds] at hids ⊢
  simp only [restore, hget, hr, hc.registered hr]
  refine ⟨_, restoreEntries_eq ?_ hids⟩
  intro e he
  obtain ⟨row, hrow, rfl⟩ := mem_entries.mp he
  obtain ⟨h, -, -, hrecords⟩ := hc.owner hshare hget hr hrow
  exact ⟨_, hrecords.address⟩

theorem Faithful.restoreAll_eq (hc : Faithful families display c) (hshare : Unshared families c.databases)
    {order : List F} (horder : ∀ family ∈ order, family ∈ families.durable) {values : List (Held I F)}
    (hids : ((values ++ order.flatMap (families.helds ofString c.databases)).map (·.info.id)).Nodup) :
    (∀ result ∈ (restoreAll families ofString c.databases values order).1, ∃ n, result = .ok n) ∧
      (restoreAll families ofString c.databases values order).2 =
        values ++ order.flatMap (families.helds ofString c.databases) := by
  induction order generalizing values with
  | nil => simp [restoreAll]
  | cons family rest ih =>
    rw [List.flatMap_cons, ← List.append_assoc] at hids
    have hfirst : ((values ++ families.helds ofString c.databases family).map (·.info.id)).Nodup := by
      rw [List.map_append] at hids
      exact (List.nodup_append.mp hids).1
    obtain ⟨n, hrestore⟩ := hc.restore_eq hshare (horder family List.mem_cons_self) hfirst
    obtain ⟨hok, hvalues⟩ := ih (fun f hf => horder f (List.mem_cons_of_mem _ hf)) hids
    simp only [restoreAll, hrestore]
    refine ⟨?_, ?_⟩
    · intro result hresult
      rcases List.mem_cons.mp hresult with rfl | hresult
      · exact ⟨n, rfl⟩
      · exact hok result hresult
    · rw [hvalues, List.flatMap_cons, List.append_assoc]

include hofString in
omit [DecidableEq I] in
theorem Faithful.flatMap_nodup (hc : Faithful families display c) (hshare : Unshared families c.databases)
    {order : List F} (hnodup : order.Nodup) (horder : ∀ family ∈ order, family ∈ families.durable) :
    ((order.flatMap (families.helds ofString c.databases)).map (·.info.id)).Nodup := by
  rw [List.map_flatMap, List.nodup_flatMap]
  refine ⟨fun family hf => hc.helds_nodup hofString hshare (horder family hf), ?_⟩
  refine hnodup.imp_of_mem ?_
  intro family other hf hg hne id hid hid'
  obtain ⟨h, hh, rfl⟩ := List.mem_map.mp hid
  obtain ⟨h', hh', heq⟩ := List.mem_map.mp hid'
  obtain ⟨hmem, rfl⟩ := (hc.mem_helds hofString hshare (horder family hf)).mp hh
  obtain ⟨hmem', rfl⟩ := (hc.mem_helds hofString hshare (horder other hg)).mp hh'
  exact hne (by rw [List.inj_on_of_nodup_map hc.unique hmem' hmem heq])

end Restored

/-! ## Registries that two families share -/

/-- A restore that ends well has every row of the registry in the collection, and had none of
them before. -/
theorem Faithful.restore_ok (hc : Faithful families display c) {family : F} {configured : Configured}
    {r : Repository} (hget : families.get family = some configured) (hr : configured.registry = some r)
    {values values' : List (Held I F)} {n : Nat}
    (h : restore families ofString c.databases values family = (.ok n, values')) :
    ∀ row ∈ r.rows c.databases,
      ofString row.id ∉ values.map (·.info.id) ∧ ofString row.id ∈ values'.map (·.info.id) := by
  simp only [restore, hget, hr, hc.registered hr] at h
  intro row hrow
  exact (restoreEntries_ok h).2 row.entry (mem_entries.mpr ⟨row, hrow, rfl⟩)

theorem restore_keeps {family : F} {values values' : List (Held I F)} {n : Nat} {databases : Databases}
    (h : restore families ofString databases values family = (.ok n, values')) : ∀ x ∈ values, x ∈ values' := by
  rw [restore] at h
  split at h
  · cases h
  · split at h
    · cases h
      exact fun x hx => hx
    · split at h
      · cases h
      · exact (restoreEntries_ok h).1

variable {family other : F} {configured configured' : Configured} {r : Repository} {row : WalletRow}
  {order : List F} {values : List (Held I F)}

theorem Faithful.not_all_ok_of_known (hc : Faithful families display c)
    (hget : families.get family = some configured) (hr : configured.registry = some r)
    (hrow : row ∈ r.rows c.databases) (hknown : ofString row.id ∈ values.map (·.info.id))
    (hmem : family ∈ order) :
    ¬ ∀ result ∈ (restoreAll families ofString c.databases values order).1, ∃ n, result = .ok n := by
  induction order generalizing values with
  | nil => cases hmem
  | cons first rest ih =>
    intro hall
    rw [restoreAll] at hall
    obtain ⟨n, hn⟩ := hall _ List.mem_cons_self
    have hrestore : restore families ofString c.databases values first =
        (.ok n, (restore families ofString c.databases values first).2) := by
      rw [← hn]
    by_cases hfirst : first = family
    · subst hfirst
      exact ((hc.restore_ok hget hr hrestore) row hrow).1 hknown
    · obtain ⟨x, hx, hid⟩ := List.mem_map.mp hknown
      refine ih (List.mem_map.mpr ⟨x, restore_keeps hrestore x hx, hid⟩) ?_
        fun result hresult => hall result (List.mem_cons_of_mem _ hresult)
      rcases List.mem_cons.mp hmem with rfl | hmem
      · exact absurd rfl hfirst
      · exact hmem

theorem Faithful.not_all_ok_of_shared (hc : Faithful families display c)
    (hget : families.get family = some configured) (hget' : families.get other = some configured')
    (hr : configured.registry = some r) (hr' : configured'.registry = some r) (hne : family ≠ other)
    (hrow : row ∈ r.rows c.databases) (hmem : family ∈ order) (hmem' : other ∈ order) :
    ¬ ∀ result ∈ (restoreAll families ofString c.databases values order).1, ∃ n, result = .ok n := by
  induction order generalizing values with
  | nil => cases hmem
  | cons first rest ih =>
    intro hall
    rw [restoreAll] at hall
    obtain ⟨n, hn⟩ := hall _ List.mem_cons_self
    have hrestore : restore families ofString c.databases values first =
        (.ok n, (restore families ofString c.databases values first).2) := by
      rw [← hn]
    have hlater : ∀ result ∈ (restoreAll families ofString c.databases
        (restore families ofString c.databases values first).2 rest).1, ∃ n, result = .ok n :=
      fun result hresult => hall result (List.mem_cons_of_mem _ hresult)
    rcases List.mem_cons.mp hmem with rfl | hin
    · have hin' : other ∈ rest := (List.mem_cons.mp hmem').resolve_left (Ne.symm hne)
      have hknown := ((hc.restore_ok hget hr hrestore) row hrow).2
      exact hc.not_all_ok_of_known hget' hr' hrow hknown hin' hlater
    · rcases List.mem_cons.mp hmem' with rfl | hin'
      · have hknown := ((hc.restore_ok hget' hr' hrestore) row hrow).2
        exact hc.not_all_ok_of_known hget hr hrow hknown hin hlater
      · exact ih hin hin' hlater

/-! ## A restart -/

def lookup (values : List (Held I F)) (id : I) : Option (Held I F) :=
  values.find? fun h => decide (h.info.id = id)

omit [DecidableEq F] in
theorem lookup_eq_some {h : Held I F} {id : I} (hids : (values.map (·.info.id)).Nodup) :
    lookup values id = some h ↔ h ∈ values ∧ h.info.id = id := by
  constructor
  · intro hfind
    exact ⟨List.mem_of_find?_eq_some hfind, by simpa using List.find?_some hfind⟩
  · rintro ⟨hmem, rfl⟩
    cases hfind : lookup values h.info.id with
    | none => simpa using List.find?_eq_none.mp hfind h hmem
    | some x =>
      have hid : x.info.id = h.info.id := by simpa using List.find?_some hfind
      rw [List.inj_on_of_nodup_map hids (List.mem_of_find?_eq_some hfind) hmem hid]

omit [DecidableEq F] in
theorem lookup_congr {values' : List (Held I F)} (hids : (values.map (·.info.id)).Nodup)
    (hids' : (values'.map (·.info.id)).Nodup) (hmem : ∀ h, h ∈ values ↔ h ∈ values') (id : I) :
    lookup values id = lookup values' id := by
  refine Option.ext fun h => ?_
  rw [lookup_eq_some hids, lookup_eq_some hids', hmem]

/-- Whatever the order of the restore calls, all of them succeed, and the new collection maps
exactly the ids that were adopted under a family with a registry, to the same wallets. -/
def RestoresExactly (families : Families F) (ofString : String → I) (c : Custody I F) : Prop :=
  ∀ order : List F, order.Perm families.durable →
    (∀ result ∈ (restoreAll families ofString c.databases [] order).1, ∃ n, result = .ok n) ∧
    ∀ id, lookup (restoreAll families ofString c.databases [] order).2 id =
      lookup (c.adopted.filter fun h => decide (h.info.family ∈ families.durable)) id

/-- After every sequence of adoptions, a restart restores exactly what was adopted, if and
only if no two families share a registry that holds something. -/
theorem restores_exactly_iff (families : Families F) (display : I → String) (ofString : String → I)
    (hofString : ∀ id, ofString (display id) = id) (es : List (Adoption I F))
    (hspare : Along (step families display) (Spare families) {} es) :
    RestoresExactly families ofString (es.foldl (step families display) {}) ↔
      Unshared families (es.foldl (step families display) {}).databases := by
  have hc := run_faithful hspare faithful_empty
  generalize es.foldl (step families display) {} = c at hc ⊢
  have hkeys : families.durable.Nodup := families.unique.sublist (List.filter_sublist.map _)
  constructor
  · intro hexact family other configured configured' r hget hget' hr hr' hne
    by_contra hrows
    obtain ⟨row, hrow⟩ := List.exists_mem_of_ne_nil _ hrows
    have hmem : family ∈ families.durable := mem_durable.mpr ⟨configured, r, hget, hr⟩
    have hmem' : other ∈ families.durable := mem_durable.mpr ⟨configured', r, hget', hr'⟩
    exact hc.not_all_ok_of_shared hget hget' hr hr' hne hrow hmem hmem' (hexact _ (List.Perm.refl _)).1
  · intro hshare order hperm
    have horder : ∀ family ∈ order, family ∈ families.durable := fun family hf => hperm.subset hf
    have hids := hc.flatMap_nodup hofString hshare (hperm.nodup_iff.mpr hkeys) horder
    have hfresh : ((([] : List (Held I F)) ++ order.flatMap (families.helds ofString c.databases)).map
        (·.info.id)).Nodup := by simpa using hids
    obtain ⟨hok, hvalues⟩ := hc.restoreAll_eq hshare horder hfresh
    rw [List.nil_append] at hvalues
    refine ⟨hok, fun id => ?_⟩
    rw [hvalues]
    refine lookup_congr hids (hc.unique.sublist (List.filter_sublist.map _)) (fun h => ?_) id
    simp only [List.mem_flatMap, List.mem_filter, decide_eq_true_eq]
    constructor
    · rintro ⟨family, hf, hh⟩
      obtain ⟨hadopted, rfl⟩ := (hc.mem_helds hofString hshare (horder family hf)).mp hh
      exact ⟨hadopted, horder _ hf⟩
    · rintro ⟨hadopted, hdurable⟩
      exact ⟨h.info.family, hperm.mem_iff.mpr hdurable, (hc.mem_helds hofString hshare hdurable).mpr ⟨hadopted, rfl⟩⟩

/-! ## Two families of one scope -/

def sampleScope : IndexScope := ⟨⟨.lit "ethereum" (Eq.refl true)⟩, .lit "main" (Eq.refl true)⟩

def sampleProvider (secret : List UInt8) : Except Error (Except Error Text) :=
  if secret = [1] then .ok (.ok (.lit "0x01" (Eq.refl true)))
  else .error { kind := .invalidSecret, message := "invalid secret" }

def sampleFamily (database : Nat) : Configured where
  scope := sampleScope
  provider := sampleProvider
  registry := some ⟨database, sampleScope⟩
  bound := by
    rintro r hr
    cases hr
    rfl

/-- The first family uses database 0, the second one the given database. -/
def sampleFamilies (database : Nat) : Families Bool where
  entries := [(true, sampleFamily 0), (false, sampleFamily database)]
  unique := by simp

def sampleAdoption : Adoption String Bool := { id := "deposit", family := true, secret := [1] }

def sampleCustody (database : Nat) : Custody String Bool :=
  [sampleAdoption].foldl (step (sampleFamilies database) id) {}

theorem sampleFamilies_spare (database : Nat) :
    Along (step (sampleFamilies database) id) (Spare (sampleFamilies database)) {} [sampleAdoption] := by
  refine ⟨?_, trivial⟩
  intro configured _
  exact Option.ne_none_iff_exists'.mpr ⟨1, rfl⟩

/-- With a database each, the wallet is restored. -/
theorem sampleFamilies_separate : RestoresExactly (sampleFamilies 1) id (sampleCustody 1) := by
  refine (restores_exactly_iff (sampleFamilies 1) id id (fun _ => rfl) [sampleAdoption]
    (sampleFamilies_spare 1)).mpr ?_
  intro family other configured configured' r hget hget' hr hr' hne
  cases family <;> cases other <;> cases hget <;> cases hget' <;> cases hr <;> cases hr' <;> exact absurd rfl hne

/-- With one registry for both, one order of the restore calls fails, and so does the other,
where the wallet has moved to the second family meanwhile. -/
theorem sampleFamilies_shared :
    ¬ RestoresExactly (sampleFamilies 0) id (sampleCustody 0) ∧
      (restoreAll (sampleFamilies 0) id (sampleCustody 0).databases ([] : List (Held String Bool)) [true, false]).1 =
        [.ok 1, .error { kind := .duplicate, message := "a wallet is already registered for this key" }] ∧
      ((restoreAll (sampleFamilies 0) id (sampleCustody 0).databases ([] : List (Held String Bool)) [false, true]).2.map
        (·.info.family)) = [false] := by
  have hresults : (restoreAll (sampleFamilies 0) id (sampleCustody 0).databases
      ([] : List (Held String Bool)) [true, false]).1 =
        [.ok 1, .error { kind := .duplicate, message := "a wallet is already registered for this key" }] := by
    decide +kernel
  refine ⟨fun h => ?_, hresults, by decide +kernel⟩
  obtain ⟨n, hn⟩ := (h [true, false] (List.Perm.refl _)).1 _ (by rw [hresults]; exact List.mem_cons_of_mem _ List.mem_cons_self)
  cases hn

end PaymentSdk.Wallets
