import PaymentSdk.Lib.ByteOrder
import PaymentSdk.Lib.Scan
import PaymentSdk.Storage.Refinement

/-!
# Scans page exactly

The physical keys of a namespace are those under its header, in the order of their logical keys.
So a scan of the backend is a scan of the store that it represents, and following its cursor
reads every matching key once.
-/

open Std Framing KvStore Checked

namespace PaymentSdk.Storage

/-! ## Order under a header -/

theorem isPrefixOf_append (header a b : Key) : (header ++ a).isPrefixOf (header ++ b) = a.isPrefixOf b := by
  induction header with
  | nil => rfl
  | cons x header ih => simpa [List.isPrefixOf] using ih

theorem exists_logical {header pre k : Key} (h : (header ++ pre).isPrefixOf k = true) :
    ∃ key, k = header ++ key ∧ pre.isPrefixOf key = true := by
  obtain ⟨tail, rfl⟩ := List.isPrefixOf_iff_prefix.mp h
  exact ⟨pre ++ tail, by simp, by simp⟩

/-- An entry under its logical key. -/
def logical (header : Key) (e : Key × Stored Bytes) : Key × Stored Bytes := (e.1.drop header.length, e.2)

/-! ## The loop -/

/-- The loop takes the next entries under the prefix, decoded. -/
theorem collect_eq {request : ScanRequest} {header : Bytes}
    (hheader : namespacePrefix request.ns = .ok header) {readLimit : Nat}
    {l : List (Key × Stored Bytes)} (hl : ∀ e ∈ l, Writable e.1 e.2)
    {entries : List (Key × Stored Bytes)} (hentries : entries.length < readLimit) :
    collect request (header ++ request.pre) readLimit (l.map fun e => (e.1, frameOf e.2)) entries =
      .ok (entries ++ (((l.takeWhile fun e => (header ++ request.pre).isPrefixOf e.1).filter fun e =>
        !(request.after.map (header ++ ·)).any fun key => (compare e.1 key).isLE).take
          (readLimit - entries.length)).map (logical header)) := by
  induction l generalizing entries with
  | nil => simp [collect]
  | cons e rest ih =>
    obtain ⟨k, stored⟩ := e
    have hrest : ∀ e ∈ rest, Writable e.1 e.2 := fun e he => hl e (List.mem_cons_of_mem _ he)
    rw [List.map_cons, collect]
    by_cases hp : (header ++ request.pre).isPrefixOf k = true
    · obtain ⟨key, rfl, -⟩ := exists_logical hp
      obtain ⟨record, hrecord, hstored⟩ := tryFrom_frameOf (hl _ List.mem_cons_self)
      rw [List.takeWhile_cons_of_pos (by exact hp)]
      simp only [hp, Bool.not_true, Bool.false_eq_true, if_false, bind, Except.bind,
        decodePhysicalKey_append hheader]
      have hafter : (request.after.any fun after => (compare key after).isLE) =
          ((request.after.map (header ++ ·)).any fun k => (compare (header ++ key) k).isLE) := by
        cases request.after with
        | none => rfl
        | some a => simp [compare_append]
      rw [hafter]
      by_cases hc : ((request.after.map (header ++ ·)).any fun k =>
          (compare (header ++ key) k).isLE) = true
      · -- At or before the cursor: skipped.
        rw [if_pos hc, List.filter_cons_of_neg (by simpa using hc)]
        exact ih hrest hentries
      · rw [if_neg hc, List.filter_cons_of_pos (by simpa using hc), hrecord]
        simp only [hstored]
        have htake : readLimit - entries.length = readLimit - (entries.length + 1) + 1 := by omega
        rw [htake, List.take_succ_cons, List.map_cons]
        have hlogical : logical header (header ++ key, stored) = (key, stored) := by
          simp [logical]
        rw [hlogical]
        split
        · rename_i hfull
          rw [List.length_append, List.length_singleton] at hfull
          rw [hfull, Nat.sub_self]
          simp
        · rename_i hfull
          rw [List.length_append, List.length_singleton] at hfull
          rw [ih hrest (by rw [List.length_append, List.length_singleton]; omega), List.length_append,
            List.length_singleton, List.append_assoc]
          rfl
    · rw [List.takeWhile_cons_of_neg (by exact hp)]
      simp [hp]

/-! ## One scan -/

theorem toList_data {b : Backend} {s : Store Bytes} (h : Represents b s) :
    b.data.toList = s.table.toList.map fun e => (e.1, frameOf e.2) := by
  rw [h.data, ExtTreeMap.toList_map]

theorem writable_of_mem {b : Backend} {s : Store Bytes} (h : Represents b s) {e : Key × Stored Bytes}
    (he : e ∈ s.table.toList) : Writable e.1 e.2 := by
  obtain ⟨k, v⟩ := e
  exact h.writable k v (ExtTreeMap.mem_toList_iff_getElem?_eq_some.mp he)

theorem range_data {b : Backend} {s : Store Bytes} (h : Represents b s) (start : Key) :
    (b.data.toList.filter fun e => (compare start e.1).isLE) =
      (s.table.toList.filter fun e => (compare start e.1).isLE).map fun e => (e.1, frameOf e.2) := by
  rw [toList_data h, List.filter_map]
  rfl

/-- The page of a logical scan. -/
def logicalPage (header : Key) (page : KvStore.ScanPage Bytes) : ScanPage :=
  ⟨page.entries.map (logical header), page.next.map (·.drop header.length)⟩

/-- **Scan.** A scan of the backend is the scan of its store under the namespace's header. -/
theorem scan_eq {b : Backend} {s : Store Bytes} (h : Represents b s) {request : ScanRequest}
    {header : Bytes} (hheader : namespacePrefix request.ns = .ok header) (hpos : 0 < request.limit)
    (hlimit : request.limit + 1 < 2 ^ 64)
    (hafter : ∀ key ∈ request.after, request.pre.isPrefixOf key = true ∧
      header.length + key.length < 2 ^ 64) :
    ∃ page, s.scan (header ++ request.pre) (request.after.map (header ++ ·)) request.limit = .ok page ∧
      b.scan request = .ok (logicalPage header page) := by
  have hstart : request.start (header ++ request.pre) =
      .ok ((request.after.map (header ++ ·)).getD (header ++ request.pre)) := by
    unfold ScanRequest.start
    cases ha : request.after with
    | none => rfl
    | some key => exact encodePhysicalKey_ok_iff.mpr ⟨header, hheader, (hafter key ha).2, rfl⟩
  have hforeign : (request.after.any fun after => !request.pre.isPrefixOf after) = false := by
    cases ha : request.after with
    | none => rfl
    | some key => simp [(hafter key ha).1]
  have hforeign' : ((request.after.map (header ++ ·)).any fun k =>
      !(header ++ request.pre).isPrefixOf k) = false := by
    cases ha : request.after with
    | none => rfl
    | some key =>
      have := (hafter key ha).1
      simp only [Option.map_some, Option.any_some, isPrefixOf_append, this, Bool.not_true]
  have hwritable : ∀ e ∈ s.table.toList.filter fun e =>
      (compare ((request.after.map (header ++ ·)).getD (header ++ request.pre)) e.1).isLE,
      Writable e.1 e.2 := fun e he => writable_of_mem h (List.mem_filter.mp he).1
  have hzero : ¬ request.limit = 0 := by omega
  have hlarge : ¬ 2 ^ 64 ≤ request.limit + 1 := by omega
  unfold Store.scan Backend.scan
  simp only [hzero, hlarge, hforeign, hforeign', Bool.false_eq_true, if_false, hheader, bind,
    Except.bind, hstart]
  rw [Backend.scanOnce, range_data h, collect_eq hheader hwritable (by simp)]
  simp only [bind, Except.bind, pure, Except.pure, List.nil_append, List.length_nil, Nat.sub_zero,
    List.length_map]
  split
  · refine ⟨_, rfl, ?_⟩
    rw [logicalPage, ← List.map_dropLast, List.getLast?_map, Option.map_map, Option.map_map]
    rfl
  · exact ⟨_, rfl, rfl⟩

/-! ## Following the cursor -/

/-- The pages that a caller reads by asking again after each `next`, up to the last one. -/
inductive Follows (b : Backend) : ScanRequest → List ScanPage → Prop
  | last {request : ScanRequest} {page : ScanPage} (hscan : b.scan request = .ok page)
      (hnext : page.next = none) : Follows b request [page]
  | more {request : ScanRequest} {page : ScanPage} {next : Key} {rest : List ScanPage}
      (hscan : b.scan request = .ok page) (hnext : page.next = some next)
      (hrest : Follows b { request with after := some next } rest) : Follows b request (page :: rest)

/-- Each page is no longer than the limit, and has a cursor exactly if something is left. -/
def Paged (limit : Nat) (pages : List ScanPage) : Prop :=
  (∀ page ∈ pages, page.entries.length ≤ limit) ∧
    ∀ front page back, pages = front ++ page :: back →
      (page.next = none ↔ back.flatMap (·.entries) = [])

theorem paged_cons {limit : Nat} {page : ScanPage} {pages : List ScanPage}
    (hlen : page.entries.length ≤ limit) (hnext : page.next = none ↔ pages.flatMap (·.entries) = [])
    (h : Paged limit pages) : Paged limit (page :: pages) := by
  refine ⟨?_, ?_⟩
  · intro p hp
    rcases List.mem_cons.mp hp with rfl | hp
    · exact hlen
    · exact h.1 p hp
  · intro front p back heq
    rcases List.cons_eq_append_iff.mp heq with ⟨rfl, heq⟩ | ⟨front', rfl, heq⟩
    · cases heq
      exact hnext
    · exact h.2 front' p back (List.cons.inj heq).2

theorem mem_of_readTo {s : Store Bytes} {pre : Key} {after : Option Key}
    {front rest : List (Key × Stored Bytes)} (h : ReadTo s pre after front rest) {k : Key}
    (hk : k ∈ after) : ∃ e, s.get k = some e ∧ pre.isPrefixOf k = true := by
  rw [h.cursor] at hk
  obtain ⟨e, he, rfl⟩ := Option.map_eq_some_iff.mp hk
  have hmem : e ∈ s.under pre := by
    rw [h.listing]
    exact List.mem_append_left _ (List.mem_of_getLast? he)
  exact ⟨e.2, (mem_under.mp hmem).1, (mem_under.mp hmem).2⟩

/-- **Pages.** From any cursor, the pages are what the listing still has. -/
theorem follows_rest {b : Backend} {s : Store Bytes} (hrep : Represents b s) {ns : Namespace}
    {header pre : Bytes} {limit : Nat} (hheader : namespacePrefix ns = .ok header) (hpos : 0 < limit)
    (hlimit : limit + 1 < 2 ^ 64) {after : Option Key} {front rest : List (Key × Stored Bytes)}
    (h : ReadTo s (header ++ pre) (after.map (header ++ ·)) front rest) :
    ∃ pages, Follows b ⟨ns, pre, after, limit⟩ pages ∧
      pages.flatMap (·.entries) = rest.map (logical header) ∧ Paged limit pages := by
  induction hn : rest.length using Nat.strong_induction_on generalizing after front rest with
  | _ n ih =>
    have hafter : ∀ key ∈ after, pre.isPrefixOf key = true ∧ header.length + key.length < 2 ^ 64 := by
      intro key hkey
      obtain ⟨e, he, hp⟩ := mem_of_readTo h (Option.mem_map_of_mem _ hkey)
      have hlen := (hrep.writable _ _ he).key_length
      rw [List.length_append] at hlen
      rw [isPrefixOf_append] at hp
      exact ⟨hp, hlen⟩
    have hstep := @scan_eq b s hrep ⟨ns, pre, after, limit⟩ header hheader hpos hlimit hafter
    obtain ⟨page, hscan, hpage⟩ := hstep
    obtain ⟨hentries, -, hnone, hsome⟩ := scan_next h hscan
    have hlen : (logicalPage header page).entries.length ≤ limit := by
      rw [logicalPage, hentries, List.length_map, List.length_take]
      exact Nat.min_le_left _ _
    cases hnext : page.next with
    | none =>
      have hall : page.entries = rest := by rw [hentries, List.take_of_length_le (hnone hnext)]
      have hlast : (logicalPage header page).next = none := by rw [logicalPage, hnext]; rfl
      refine ⟨[logicalPage header page], .last hpage hlast, ?_, ?_⟩
      · simp [logicalPage, hall]
      · exact paged_cons hlen (by simp [hlast]) ⟨by simp, by simp⟩
    | some next =>
      have hmore : limit < rest.length := hsome (by rw [hnext]; rfl)
      obtain ⟨last, hlast, rfl⟩ := last_of_scan hscan hnext
      rw [hentries] at hlast
      have hread := readTo_next h hlast
      obtain ⟨e, -, hp⟩ := mem_of_readTo hread rfl
      obtain ⟨key, hkey, -⟩ := exists_logical hp
      have hcursor : (logicalPage header page).next = some key := by
        rw [logicalPage, hnext, hkey]
        simp
      rw [hkey] at hread
      have hnextRead : ReadTo s (header ++ pre) ((some key).map (header ++ ·))
          (front ++ rest.take limit) (rest.drop limit) := hread
      obtain ⟨pages, hfollows, hflat, hpaged⟩ :=
        ih (rest.drop limit).length (by rw [List.length_drop]; omega) hnextRead rfl
      refine ⟨logicalPage header page :: pages, .more hpage hcursor hfollows, ?_, ?_⟩
      · rw [List.flatMap_cons, hflat, logicalPage, hentries, ← List.map_append, List.take_append_drop]
      · refine paged_cons hlen ?_ hpaged
        rw [hcursor, hflat]
        simp
        omega

/-! ## The listing of a namespace -/

theorem get_eq {b : Backend} {s : Store Bytes} (hrep : Represents b s) {ns : Namespace} {header : Bytes}
    (hheader : namespacePrefix ns = .ok header) {key : Key} {v : Stored Bytes} :
    b.get ns key = .ok (some v) ↔ s.get (header ++ key) = some v := by
  have hdata : b.data[header ++ key]? = (s.get (header ++ key)).map frameOf := by
    rw [hrep.data, ExtTreeMap.getElem?_map]
    rfl
  constructor
  · intro h
    unfold Backend.get at h
    obtain ⟨k, hk, h⟩ := bind_ok.mp h
    obtain ⟨header', hheader', -, rfl⟩ := encodePhysicalKey_ok_iff.mp hk
    rw [hheader] at hheader'
    cases hheader'
    rw [hdata] at h
    cases hs : s.get (header ++ key) with
    | none =>
      rw [hs] at h
      cases h
    | some e =>
      obtain ⟨r, hr, hstored⟩ := tryFrom_frameOf (hrep.writable _ _ hs)
      rw [hs] at h
      simp only [Option.map_some, hr, bind, Except.bind, pure, Except.pure, hstored] at h
      cases h
      rfl
  · intro hs
    have hwritable := hrep.writable _ _ hs
    have hlen := hwritable.key_length
    rw [List.length_append] at hlen
    have hk := encodePhysicalKey_ok_iff.mpr ⟨header, hheader, hlen, rfl⟩
    obtain ⟨r, hr, hstored⟩ := tryFrom_frameOf hwritable
    rw [hs] at hdata
    unfold Backend.get
    simp only [hk, hdata, Option.map_some, hr, bind, Except.bind, pure, Except.pure, hstored]

theorem mem_listing {b : Backend} {s : Store Bytes} (hrep : Represents b s) {ns : Namespace}
    {header pre : Bytes} (hheader : namespacePrefix ns = .ok header) {key : Key} {v : Stored Bytes} :
    (key, v) ∈ (s.under (header ++ pre)).map (logical header) ↔
      pre.isPrefixOf key = true ∧ b.get ns key = .ok (some v) := by
  rw [get_eq hrep hheader, List.mem_map]
  constructor
  · rintro ⟨e, he, heq⟩
    obtain ⟨hget, hp⟩ := mem_under.mp he
    obtain ⟨key', hkey, hpre⟩ := exists_logical hp
    rw [logical, hkey, List.drop_left, Prod.mk.injEq] at heq
    obtain ⟨rfl, rfl⟩ := heq
    rw [hkey] at hget
    exact ⟨hpre, hget⟩
  · rintro ⟨hp, hget⟩
    refine ⟨(header ++ key, v), mem_under.mpr ⟨hget, ?_⟩, by simp [logical]⟩
    rw [isPrefixOf_append]
    exact hp

theorem listing_ascending (s : Store Bytes) (header pre : Bytes) :
    ((s.under (header ++ pre)).map (logical header)).Pairwise fun x y => compare x.1 y.1 = .lt := by
  rw [List.pairwise_map]
  refine (under_ascending s (header ++ pre)).imp_of_mem ?_
  intro x y hx hy hlt
  obtain ⟨a, ha, -⟩ := exists_logical (mem_under.mp hx).2
  obtain ⟨b, hb, -⟩ := exists_logical (mem_under.mp hy).2
  rw [ha, hb, compare_append] at hlt
  simpa [logical, ha, hb] using hlt

/-- A scan finds nothing corrupt in what commits have written. -/
theorem scan_not_corrupt {b : Backend} {s : Store Bytes} (hrep : Represents b s) (request : ScanRequest)
    (message : String) : b.scan request ≠ .error ⟨.corruptData, message⟩ := by
  have hinvalid : ∀ m : String, (Except.error (Error.invalid m) : Except Error ScanPage) ≠
      .error ⟨.corruptData, message⟩ := by
    intro m h
    cases h
  have hheaderError : ∀ e, namespacePrefix request.ns = .error e → e.kind = .invalidRequest := by
    intro e he
    unfold namespacePrefix at he
    split_ifs at he <;> cases he <;> rfl
  unfold Backend.scan
  split_ifs with hzero hlarge hforeign
  · exact hinvalid _
  · exact hinvalid _
  · exact hinvalid _
  · cases hheader : namespacePrefix request.ns with
    | error e =>
      intro h
      cases h
      cases hheaderError _ hheader
    | ok header =>
      simp only [bind, Except.bind]
      cases hstart : request.start (header ++ request.pre) with
      | error e =>
        intro h
        cases h
        unfold ScanRequest.start at hstart
        split at hstart
        · simp only [encodePhysicalKey, hheader, bind, Except.bind, throw, throwThe,
            MonadExceptOf.throw, pure, Except.pure] at hstart
          split_ifs at hstart
          cases hstart
        · cases hstart
      | ok start =>
        have hwritable : ∀ e ∈ s.table.toList.filter fun e => (compare start e.1).isLE,
            Writable e.1 e.2 := fun e he => writable_of_mem hrep (List.mem_filter.mp he).1
        simp only [Backend.scanOnce, range_data hrep]
        rw [collect_eq hheader hwritable (by simp)]
        simp only [bind, Except.bind, pure, Except.pure]
        split_ifs <;> exact fun h => nomatch h

/-- **Exact pages.** In every database that commits have written, following `next` ends, and reads
the keys of the namespace under the prefix once each, in order, as `get` returns them. -/
theorem scan_pages :
    (∀ (batches : List WriteBatch) (ns : Namespace) (pre : Bytes) (limit : Nat),
      ns.asBytes.length < 2 ^ 32 → 1 ≤ limit → limit < 2 ^ 64 - 1 →
      ∃ pages, Follows (Backend.fresh.run batches) ⟨ns, pre, none, limit⟩ pages ∧
        (pages.flatMap (·.entries)).Pairwise (fun x y => compare x.1 y.1 = .lt) ∧
        (∀ key v, (key, v) ∈ pages.flatMap (·.entries) ↔
          pre.isPrefixOf key = true ∧ (Backend.fresh.run batches).get ns key = .ok (some v)) ∧
        (∀ page ∈ pages, page.entries.length ≤ limit) ∧
        ∀ front page back, pages = front ++ page :: back →
          (page.next = none ↔ back.flatMap (·.entries) = [])) ∧
      ∀ (batches : List WriteBatch) (request : ScanRequest) (message : String),
        (Backend.fresh.run batches).scan request ≠ .error ⟨.corruptData, message⟩ := by
  refine ⟨?_, ?_⟩
  · intro batches ns pre limit hns hpos hlimit
    obtain ⟨s, hrep⟩ := represents_run batches
    have hheader := namespacePrefix_ok hns
    have hstart : ReadTo s (bigEndian 4 ns.asBytes.length ++ ns.asBytes ++ pre)
        ((none : Option Key).map (bigEndian 4 ns.asBytes.length ++ ns.asBytes ++ ·)) []
        (s.under (bigEndian 4 ns.asBytes.length ++ ns.asBytes ++ pre)) := readTo_start s _
    have hlarge : limit + 1 < 2 ^ 64 := by omega
    obtain ⟨pages, hfollows, hflat, hlen, hnext⟩ := follows_rest hrep hheader hpos hlarge hstart
    refine ⟨pages, hfollows, ?_, ?_, hlen, hnext⟩
    · rw [hflat]
      exact listing_ascending s _ pre
    · intro key v
      rw [hflat]
      exact mem_listing hrep hheader
  · intro batches request message
    obtain ⟨s, hrep⟩ := represents_run batches
    exact scan_not_corrupt hrep request message

/-- A key in each of two namespaces, one of which starts like the other. -/
def twoNamespaces : List WriteBatch :=
  [{ operations := [.put ⟨"a"⟩ [0xFF] [1], .put ⟨"ab"⟩ [] [2], .put ⟨"a"⟩ [] [3]] }]

theorem scan_pages_sample :
    ∃ pages, Follows (Backend.fresh.run twoNamespaces) ⟨⟨"a"⟩, [], none, 1⟩ pages ∧
      ∀ page ∈ pages, page.entries.length ≤ 1 := by
  obtain ⟨pages, hfollows, -, -, hlen, -⟩ :=
    scan_pages.1 twoNamespaces ⟨"a"⟩ [] 1 (by decide) (by decide) (by decide)
  exact ⟨pages, hfollows, hlen⟩

/-! ## Names that do not fit -/

theorem not_follows_long_name {ns : Namespace} (h : 2 ^ 32 ≤ ns.asBytes.length) (b : Backend)
    (pre : Bytes) (limit : Nat) (pages : List ScanPage) : ¬ Follows b ⟨ns, pre, none, limit⟩ pages := by
  have hheader : namespacePrefix ns =
      .error (.invalid "namespace length exceeds the storage key format limit") := by
    rw [namespacePrefix, if_pos h]
  have hscan : ∀ page, b.scan ⟨ns, pre, none, limit⟩ ≠ .ok page := by
    intro page
    unfold Backend.scan
    rw [hheader]
    split_ifs <;> rintro ⟨⟩
  rintro (⟨hpage, -⟩ | ⟨hpage, -, -⟩)
  · exact hscan _ hpage
  · exact hscan _ hpage

theorem length_le_utf8ByteSize (cs : List Char) : cs.length ≤ (String.ofList cs).utf8ByteSize := by
  induction cs with
  | nil => simp
  | cons c cs ih =>
    rw [String.ofList_cons, String.utf8ByteSize_append, String.utf8ByteSize_singleton, List.length_cons]
    have := c.utf8Size_pos
    omega

theorem length_asBytes (ns : Namespace) : ns.asBytes.length = ns.name.utf8ByteSize := rfl

theorem long_name (n : Nat) : n ≤ (Namespace.mk (String.ofList (List.replicate n 'a'))).asBytes.length := by
  have := length_le_utf8ByteSize (List.replicate n 'a')
  rw [List.length_replicate] at this
  rw [length_asBytes]
  exact this

/-- A namespace whose name has 2 ^ 32 letters cannot be scanned. -/
theorem scan_pages_fails :
    ¬ ∀ (batches : List WriteBatch) (ns : Namespace) (pre : Bytes) (limit : Nat),
      1 ≤ limit → limit < 2 ^ 64 - 1 →
      ∃ pages, Follows (Backend.fresh.run batches) ⟨ns, pre, none, limit⟩ pages := by
  intro h
  obtain ⟨pages, hfollows⟩ :=
    h [] ⟨String.ofList (List.replicate (2 ^ 32) 'a')⟩ [] 1 (by decide) (by decide)
  exact not_follows_long_name (long_name (2 ^ 32)) _ _ _ _ hfollows

end PaymentSdk.Storage
