import PaymentSdk.Lib.Store

/-!
# Scans that follow their cursor

The keys under a prefix are one stretch of the key order. So a scan from a cursor takes the
next entries of one sorted list, and the pages of an unchanged store make up that list.
-/

open Std Interaction

namespace KvStore

variable {V : Type}

/-! ## Byte order -/

theorem isLE_of_isPrefixOf {pre k : Key} (h : pre.isPrefixOf k = true) : (compare pre k).isLE = true := by
  induction pre generalizing k with
  | nil => cases k <;> simp
  | cons x pre ih =>
    cases k with
    | nil => simp at h
    | cons y k =>
      simp only [List.isPrefixOf, Bool.and_eq_true, beq_iff_eq] at h
      obtain ⟨rfl, h⟩ := h
      simpa using ih h

theorem isPrefixOf_of_between {pre k k' : Key} (hk : (compare pre k).isLE = true)
    (hle : (compare k k').isLE = true) (h : pre.isPrefixOf k' = true) : pre.isPrefixOf k = true := by
  induction pre generalizing k k' with
  | nil => simp
  | cons x pre ih =>
    cases k' with
    | nil => simp at h
    | cons z k' =>
      simp only [List.isPrefixOf, Bool.and_eq_true, beq_iff_eq] at h
      obtain ⟨rfl, h⟩ := h
      cases k with
      | nil => simp at hk
      | cons y k =>
        simp only [List.compare_cons_cons] at hk hle
        have hxy : compare x y = .eq := by
          cases hc : compare x y with
          | eq => rfl
          | gt =>
            rw [hc] at hk
            simp at hk
          | lt =>
            rw [OrientedCmp.gt_of_lt hc] at hle
            simp at hle
        obtain rfl : x = y := LawfulEqCmp.eq_of_compare hxy
        simp only [ReflCmp.compare_self, Ordering.eq_then] at hk hle
        simpa [List.isPrefixOf] using ih hk hle h

/-! ## Listings -/

/-- Everything under a prefix, in key order. -/
def Store.under (s : Store V) (pre : Key) : List (Key × Stored V) :=
  s.table.toList.filter fun e => pre.isPrefixOf e.1

theorem mem_under {s : Store V} {pre : Key} {e : Key × Stored V} :
    e ∈ s.under pre ↔ s.get e.1 = some e.2 ∧ pre.isPrefixOf e.1 = true := by
  obtain ⟨k, v⟩ := e
  rw [Store.under, List.mem_filter, ExtTreeMap.mem_toList_iff_getElem?_eq_some]
  rfl

theorem under_ascending (s : Store V) (pre : Key) :
    (s.under pre).Pairwise fun a b => compare a.1 b.1 = .lt :=
  ExtTreeMap.ordered_keys_toList.filter _

theorem filter_after {front rest : List (Key × Stored V)} {e : Key × Stored V}
    (h : (front ++ rest).Pairwise fun a b => compare a.1 b.1 = .lt) (he : front.getLast? = some e) :
    (front ++ rest).filter (fun x => !(compare x.1 e.1).isLE) = rest := by
  obtain ⟨ys, rfl⟩ := List.getLast?_eq_some_iff.mp he
  rw [List.append_assoc, List.pairwise_append] at h
  obtain ⟨-, htail, hfront⟩ := h
  rw [List.filter_append, List.filter_eq_nil_iff.mpr, List.nil_append, List.filter_eq_self]
  · intro x hx
    have : compare e.1 x.1 = .lt := (List.pairwise_cons.mp htail).1 x hx
    rw [OrientedCmp.gt_of_lt this]
    rfl
  · intro x hx
    rcases List.mem_append.mp hx with hx | hx
    · have : compare x.1 e.1 = .lt := hfront x hx e (by simp)
      simp [this]
    · obtain rfl := List.mem_singleton.mp hx
      simp

theorem takeWhile_eq_filter {α : Type} {p : α → Bool} {l : List α}
    (h : l.Pairwise fun a b => p b = true → p a = true) : l.takeWhile p = l.filter p := by
  induction l with
  | nil => rfl
  | cons x xs ih =>
    obtain ⟨hx, hxs⟩ := List.pairwise_cons.mp h
    by_cases hp : p x = true
    · rw [List.takeWhile_cons_of_pos hp, List.filter_cons_of_pos hp, ih hxs]
    · rw [List.takeWhile_cons_of_neg hp, List.filter_cons_of_neg hp, eq_comm, List.filter_eq_nil_iff]
      exact fun y hy hpy => hp (hx y hy hpy)

/-- The entries that a scan has to choose from. -/
theorem scan_range (s : Store V) {pre : Key} {after : Option Key}
    (hafter : ∀ k ∈ after, pre.isPrefixOf k = true) :
    (((s.table.toList.filter fun e => (compare (after.getD pre) e.1).isLE).takeWhile
        fun e => pre.isPrefixOf e.1).filter fun e => !after.any fun key => (compare e.1 key).isLE) =
      (s.under pre).filter fun e => !after.any fun key => (compare e.1 key).isLE := by
  have hstart : ∀ k : Key, (compare (after.getD pre) k).isLE = true → (compare pre k).isLE = true := by
    intro k hk
    cases after with
    | none => exact hk
    | some a => exact TransCmp.isLE_trans (isLE_of_isPrefixOf (hafter a rfl)) hk
  have hsorted := (ExtTreeMap.ordered_keys_toList (t := s.table)).filter
    fun e => (compare (after.getD pre) e.1).isLE
  rw [takeWhile_eq_filter, List.filter_filter, List.filter_filter, Store.under, List.filter_filter]
  · apply List.filter_congr
    intro e _
    cases after with
    | none =>
      by_cases hp : pre.isPrefixOf e.1 = true
      · simp [hp, isLE_of_isPrefixOf hp]
      · simp [hp]
    | some a =>
      by_cases hle : (compare e.1 a).isLE = true
      · simp [hle]
      · have hgt : (compare a e.1).isLE = true := by
          cases hc : compare e.1 a with
          | gt => simp [OrientedCmp.gt_iff_lt.mp hc]
          | lt | eq =>
            rw [hc] at hle
            simp at hle
        simp [hgt]
  · refine hsorted.imp_of_mem ?_
    intro x y hx _ hlt hy
    have hge := hstart _ (List.mem_filter.mp hx).2
    exact isPrefixOf_of_between hge (by rw [hlt]; rfl) hy

/-- The part of a listing that has been read, and the cursor after it. -/
structure ReadTo (s : Store V) (pre : Key) (after : Option Key) (front rest : List (Key × Stored V)) :
    Prop where
  listing : s.under pre = front ++ rest
  cursor : after = front.getLast?.map (·.1)

theorem readTo_start (s : Store V) (pre : Key) : ReadTo s pre none [] (s.under pre) := ⟨rfl, rfl⟩

/-- A scan takes the next entries, and has a cursor if and only if more are left. -/
theorem scan_next {s : Store V} {pre : Key} {after : Option Key} {front rest : List (Key × Stored V)}
    {limit : Nat} {page : ScanPage V} (h : ReadTo s pre after front rest)
    (hscan : s.scan pre after limit = .ok page) :
    page.entries = rest.take limit ∧ 0 < limit ∧
      (page.next = none → rest.length ≤ limit) ∧
      (page.next.isSome = true → limit < rest.length) := by
  have hafter : ∀ k ∈ after, pre.isPrefixOf k = true := by
    intro k hk
    rw [h.cursor] at hk
    obtain ⟨e, he, rfl⟩ := Option.map_eq_some_iff.mp hk
    have hmem : e ∈ s.under pre := by
      rw [h.listing]
      exact List.mem_append_left _ (List.mem_of_getLast? he)
    exact (mem_under.mp hmem).2
  have hfresh : ((s.under pre).filter fun e => !after.any fun key => (compare e.1 key).isLE) = rest := by
    rw [h.listing, h.cursor]
    cases hlast : front.getLast? with
    | none =>
      rw [List.getLast?_eq_none_iff] at hlast
      subst hlast
      simp
    | some e =>
      have hsorted := under_ascending s pre
      rw [h.listing] at hsorted
      simpa using filter_after hsorted hlast
  unfold Store.scan at hscan
  split_ifs at hscan with hzero hlarge hforeign
  dsimp only at hscan
  rw [scan_range s hafter, hfresh] at hscan
  split_ifs at hscan with hmore
  · cases hscan
    rw [List.length_take] at hmore
    have hlen : limit < rest.length := by omega
    have hdrop : (rest.take (limit + 1)).dropLast = rest.take limit := by
      rw [List.dropLast_eq_take, List.length_take, Nat.min_eq_left (by omega), Nat.add_sub_cancel,
        List.take_take, Nat.min_eq_left (by omega)]
    refine ⟨hdrop, by omega, ?_, fun _ => hlen⟩
    intro hnext
    dsimp only at hnext
    rw [hdrop, Option.map_eq_none_iff, List.getLast?_eq_none_iff, List.take_eq_nil_iff] at hnext
    rcases hnext with hnext | hnext
    · omega
    · rw [hnext] at hlen
      simp at hlen
  · cases hscan
    rw [List.length_take] at hmore
    refine ⟨?_, by omega, fun _ => by omega, by rintro ⟨⟩⟩
    rw [List.take_of_length_le (by omega), List.take_of_length_le (by omega)]

theorem readTo_next {s : Store V} {pre : Key} {after : Option Key} {front rest : List (Key × Stored V)}
    {limit : Nat} (h : ReadTo s pre after front rest)
    {last : Key × Stored V} (hlast : (rest.take limit).getLast? = some last) :
    ReadTo s pre (some last.1) (front ++ rest.take limit) (rest.drop limit) := by
  refine ⟨?_, ?_⟩
  · rw [List.append_assoc, List.take_append_drop, h.listing]
  · rw [List.getLast?_append, hlast]
    rfl

theorem last_of_scan {s : Store V} {pre : Key} {after : Option Key} {limit : Nat} {page : ScanPage V}
    {next : Key} (h : s.scan pre after limit = .ok page) (hnext : page.next = some next) :
    ∃ e, page.entries.getLast? = some e ∧ e.1 = next := by
  unfold Store.scan at h
  split_ifs at h with hzero hlarge hforeign
  dsimp only at h
  split_ifs at h
  · cases h
    exact Option.map_eq_some_iff.mp hnext
  · cases h
    cases hnext

theorem mem_of_scan {s : Store V} {pre : Key} {after : Option Key} {limit : Nat} {page : ScanPage V}
    (h : s.scan pre after limit = .ok page) {e : Key × Stored V} (he : e ∈ page.entries) :
    e ∈ s.under pre := by
  unfold Store.scan at h
  split_ifs at h with hzero hlarge hforeign
  have hafter : ∀ k ∈ after, pre.isPrefixOf k = true := by
    rintro k rfl
    simpa using hforeign
  dsimp only at h
  rw [scan_range s hafter] at h
  split_ifs at h
  · cases h
    exact (List.mem_filter.mp (List.mem_of_mem_take (List.dropLast_subset _ he))).1
  · cases h
    exact (List.mem_filter.mp (List.mem_of_mem_take he)).1

theorem exists_scan (s : Store V) {pre : Key} {after : Option Key} {limit : Nat} (hpos : 0 < limit)
    (hlimit : limit + 1 < 2 ^ 64) (hafter : ∀ k ∈ after, pre.isPrefixOf k = true) :
    ∃ page, s.scan pre after limit = .ok page := by
  have hforeign : ¬ (after.any fun key => !pre.isPrefixOf key) = true := by
    cases after with
    | none => simp
    | some k => simpa using hafter k rfl
  unfold Store.scan
  rw [if_neg (by omega), if_neg (by omega), if_neg hforeign]
  dsimp only
  split_ifs <;> exact ⟨_, rfl⟩

end KvStore
