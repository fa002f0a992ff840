import Mathlib.Data.List.Nodup

/-!
# Tables

A table is a list of rows. Its primary key and its checks refuse a row, and then the
whole statement. The order of the rows means nothing.
-/

namespace Relational

/-- Why a statement fails. -/
inductive Refused where
  | undefinedTable (name : String)
  | unique
  | check
  | foreignKey
  deriving DecidableEq

/-- What a row is identified by, and the checks that it has to pass. -/
structure Schema (ρ κ : Type) where
  key : ρ → κ
  check : ρ → Bool := fun _ => true

/-- The tables that a statement brings into scope, and those that its columns are qualified by. -/
structure Names where
  entries : List String
  qualifiers : List String

def Names.prepare (names : Names) : Except Refused Unit :=
  match names.qualifiers.find? (· ∉ names.entries) with
  | some name => .error (.undefinedTable name)
  | none => .ok ()

variable {ρ κ : Type} [DecidableEq κ]

/-- The check constraint comes before the key. -/
def insertRow (schema : Schema ρ κ) (t : List ρ) (r : ρ) : Except Refused (List ρ) :=
  if !schema.check r then .error .check
  else if t.any (schema.key · = schema.key r) then .error .unique
  else .ok (t ++ [r])

/-- Stops at the first row that is refused. -/
def insertRows (schema : Schema ρ κ) (t rows : List ρ) : Except Refused (List ρ) :=
  rows.foldlM (insertRow schema) t

/-- The row takes the place of the one with its key. -/
def replaceRow (schema : Schema ρ κ) (t : List ρ) (r : ρ) : List ρ :=
  if t.any (schema.key · = schema.key r) then t.map fun r' => if schema.key r' = schema.key r then r else r'
  else t ++ [r]

/-- `ON CONFLICT DO UPDATE` of every other column. -/
def upsert (schema : Schema ρ κ) (t : List ρ) (r : ρ) : Except Refused (List ρ) :=
  if !schema.check r then .error .check else .ok (replaceRow schema t r)

def deleteWhere (p : ρ → Bool) (t : List ρ) : List ρ := t.filter (!p ·)

def orderBy (cmp : ρ → ρ → Ordering) (t : List ρ) : List ρ := t.mergeSort fun a b => (cmp a b).isLE

/-! ## What the statements establish -/

section

variable {schema : Schema ρ κ} {t t' rows : List ρ} {r : ρ} {p : ρ → Bool}

theorem insertRow_ok : insertRow schema t r = .ok t' ↔
    schema.check r = true ∧ schema.key r ∉ t.map schema.key ∧ t' = t ++ [r] := by
  unfold insertRow
  split
  · simp_all
  · split
    · rename_i hany
      simp only [reduceCtorEq, false_iff, not_and]
      intro _ hnot
      obtain ⟨x, hx, hkey⟩ := List.any_eq_true.mp hany
      exact absurd (List.mem_map.mpr ⟨x, hx, of_decide_eq_true hkey⟩) hnot
    · rename_i hcheck hany
      simp only [Bool.not_eq_true', Bool.not_eq_false] at hcheck
      have hnot : schema.key r ∉ t.map schema.key := by
        intro hmem
        obtain ⟨x, hx, hkey⟩ := List.mem_map.mp hmem
        exact hany (List.any_eq_true.mpr ⟨x, hx, decide_eq_true hkey⟩)
      simp [hcheck, hnot, eq_comm]

/-- Rows are inserted together or not at all. -/
theorem insertRows_ok : insertRows schema t rows = .ok t' ↔
    (∀ r ∈ rows, schema.check r = true) ∧ (rows.map schema.key).Nodup ∧
      (∀ r ∈ rows, schema.key r ∉ t.map schema.key) ∧ t' = t ++ rows := by
  unfold insertRows
  induction rows generalizing t with
  | nil =>
    have hnil : [].foldlM (insertRow schema) t = .ok t' ↔ t' = t := by
      rw [List.foldlM_nil]
      exact ⟨fun h => by cases h; rfl, fun h => by rw [h]; rfl⟩
    rw [hnil]
    simp
  | cons r rest ih =>
    rw [List.foldlM_cons]
    cases hr : insertRow schema t r with
    | error e =>
      have hno : ¬ (schema.check r = true ∧ schema.key r ∉ t.map schema.key ∧ t ++ [r] = t ++ [r]) := fun h =>
        absurd (insertRow_ok.mpr h) (by rw [hr]; simp)
      simp only [bind, Except.bind, reduceCtorEq, false_iff]
      rintro ⟨hcheck, -, hnew, -⟩
      exact hno ⟨hcheck r List.mem_cons_self, hnew r List.mem_cons_self, rfl⟩
    | ok t₁ =>
      obtain ⟨hcheck, hnew, rfl⟩ := insertRow_ok.mp hr
      have hstep : (Except.ok (t ++ [r]) >>= fun t => rest.foldlM (insertRow schema) t) =
          rest.foldlM (insertRow schema) (t ++ [r]) := rfl
      rw [hstep, ih]
      simp only [List.map_cons, List.nodup_cons, List.mem_cons, forall_eq_or_imp, List.map_append, List.map_nil,
        List.mem_append, List.append_assoc, List.singleton_append, List.not_mem_nil, or_false,
        List.mem_map]
      constructor
      · rintro ⟨hchecks, hnodup, hfresh, ht⟩
        refine ⟨⟨hcheck, hchecks⟩, ⟨?_, hnodup⟩, ⟨by simpa using hnew, fun x hx h => hfresh x hx (.inl h)⟩, ht⟩
        rintro ⟨x, hx, hkey⟩
        exact hfresh x hx (.inr hkey)
      · rintro ⟨⟨-, hchecks⟩, ⟨hout, hnodup⟩, ⟨-, hfresh⟩, ht⟩
        refine ⟨hchecks, hnodup, fun x hx h => ?_, ht⟩
        rcases h with h | h
        · exact hfresh x hx h
        · exact hout ⟨x, hx, h⟩

theorem deleteWhere_append (hold : ∀ r ∈ t, p r = false) (hnew : ∀ r ∈ rows, p r = true) :
    deleteWhere p (t ++ rows) = t := by
  rw [deleteWhere, List.filter_append]
  have hkeep : t.filter (!p ·) = t := List.filter_eq_self.mpr fun r hr => by simp [hold r hr]
  have hdrop : rows.filter (!p ·) = [] := List.filter_eq_nil_iff.mpr fun r hr => by simp [hnew r hr]
  rw [hkeep, hdrop, List.append_nil]

theorem mem_deleteWhere : r ∈ deleteWhere p t ↔ r ∈ t ∧ p r = false := by
  rw [deleteWhere, List.mem_filter, Bool.not_eq_true']

theorem filter_key (h : (t.map schema.key).Nodup) (hr : r ∈ t) :
    t.filter (fun x => decide (schema.key x = schema.key r)) = [r] := by
  induction t with
  | nil => simp at hr
  | cons x rest ih =>
    rw [List.map_cons, List.nodup_cons] at h
    rcases List.mem_cons.mp hr with rfl | hr
    · have hrest : rest.filter (fun x => decide (schema.key x = schema.key r)) = [] :=
        List.filter_eq_nil_iff.mpr fun y hy hk =>
          h.1 (List.mem_map.mpr ⟨y, hy, of_decide_eq_true hk⟩)
      rw [List.filter_cons_of_pos (by simp), hrest]
    · have hne : schema.key x ≠ schema.key r := fun hk => h.1 (List.mem_map.mpr ⟨r, hr, hk.symm⟩)
      rw [List.filter_cons_of_neg (by simpa using hne), ih h.2 hr]

theorem upsert_ok : upsert schema t r = .ok t' ↔ schema.check r = true ∧ t' = replaceRow schema t r := by
  by_cases hcheck : schema.check r = true
  · simp [upsert, hcheck, eq_comm]
  · simp [upsert, hcheck]

theorem mem_replaceRow {r' : ρ} : r' ∈ replaceRow schema t r ↔ r' = r ∨ r' ∈ t ∧ schema.key r' ≠ schema.key r := by
  unfold replaceRow
  split
  · rename_i hany
    obtain ⟨x, hx, hkey⟩ := List.any_eq_true.mp hany
    rw [List.mem_map]
    constructor
    · rintro ⟨y, hy, rfl⟩
      by_cases hk : schema.key y = schema.key r
      · exact .inl (by simp [hk])
      · exact .inr (by simpa [hk] using hy)
    · rintro (rfl | ⟨hr', hk⟩)
      · exact ⟨x, hx, by simp [of_decide_eq_true hkey]⟩
      · exact ⟨r', hr', by simp [hk]⟩
  · rename_i hany
    have hout : ∀ y ∈ t, schema.key y ≠ schema.key r := fun y hy hk =>
      hany (List.any_eq_true.mpr ⟨y, hy, decide_eq_true hk⟩)
    rw [List.mem_append, List.mem_singleton]
    constructor
    · rintro (hr' | rfl)
      · exact .inr ⟨hr', hout r' hr'⟩
      · exact .inl rfl
    · rintro (rfl | ⟨hr', -⟩)
      · exact .inr rfl
      · exact .inl hr'

theorem keys_replaceRow (h : (t.map schema.key).Nodup) : ((replaceRow schema t r).map schema.key).Nodup := by
  unfold replaceRow
  split
  · have hsame : (t.map fun r' => if schema.key r' = schema.key r then r else r').map schema.key =
        t.map schema.key := by
      rw [List.map_map]
      refine List.map_congr_left fun x _ => ?_
      by_cases hk : schema.key x = schema.key r <;> simp [hk]
    rwa [hsame]
  · rename_i hany
    rw [List.map_append, List.map_singleton, List.nodup_append]
    refine ⟨h, List.nodup_singleton _, ?_⟩
    rintro k hk _ hr rfl
    obtain rfl := List.mem_singleton.mp hr
    obtain ⟨x, hx, hkey⟩ := List.mem_map.mp hk
    exact hany (List.any_eq_true.mpr ⟨x, hx, decide_eq_true hkey⟩)

theorem replaceRow_back {old : ρ} (h : (t.map schema.key).Nodup) (hold : old ∈ t)
    (hkey : schema.key r = schema.key old) : replaceRow schema (replaceRow schema t r) old = t := by
  have hany : t.any (schema.key · = schema.key r) = true :=
    List.any_eq_true.mpr ⟨old, hold, decide_eq_true hkey.symm⟩
  have hany' : (replaceRow schema t r).any (schema.key · = schema.key old) = true :=
    List.any_eq_true.mpr ⟨r, mem_replaceRow.mpr (.inl rfl), decide_eq_true hkey⟩
  have hinner : replaceRow schema t r = t.map fun r' => if schema.key r' = schema.key r then r else r' := by
    rw [replaceRow, if_pos hany]
  rw [replaceRow, if_pos hany', hinner, List.map_map]
  refine (List.map_congr_left fun x hx => ?_).trans (List.map_id t)
  by_cases hk : schema.key x = schema.key old
  · have heq : x = old := List.inj_on_of_nodup_map h hx hold hk
    simp [hkey, heq]
  · simp [hkey, hk]

end

/-! ## Rows in order -/

section Order

variable {σ : Type} {cmp : ρ → ρ → Ordering} {t : List ρ} {p : ρ → Bool}

theorem orderBy_perm (cmp : ρ → ρ → Ordering) (t : List ρ) : (orderBy cmp t).Perm t := List.mergeSort_perm ..

theorem map_orderBy (f : σ → ρ) (t : List σ) :
    (orderBy (fun a b => cmp (f a) (f b)) t).map f = orderBy cmp (t.map f) :=
  List.map_mergeSort fun _ _ _ _ => rfl

theorem transCmp_comap (cmp : ρ → ρ → Ordering) [Std.TransCmp cmp] (f : σ → ρ) : Std.TransCmp fun a b => cmp (f a) (f b) where
  eq_swap := Std.OrientedCmp.eq_swap
  isLE_trans := Std.TransCmp.isLE_trans

theorem isLE_total [Std.TransCmp cmp] (a b : ρ) : ((cmp a b).isLE || (cmp b a).isLE) = true := by
  have hswap : cmp b a = (cmp a b).swap := Std.OrientedCmp.eq_swap
  rw [hswap]
  cases cmp a b <;> rfl

theorem orderBy_pairwise [Std.TransCmp cmp] (t : List ρ) :
    (orderBy cmp t).Pairwise fun a b => (cmp a b).isLE = true :=
  List.pairwise_mergeSort (fun _ _ _ => Std.TransCmp.isLE_trans) isLE_total t

theorem between_of_pairwise [Std.TransCmp cmp] (h : t.Pairwise fun a b => (cmp a b).isLE = true) {x y z : ρ}
    (hx : t.head? = some x) (hy : t.getLast? = some y) (hz : z ∈ t) :
    (cmp x z).isLE = true ∧ (cmp z y).isLE = true := by
  have hself : ∀ r : ρ, (cmp r r).isLE = true := fun r => by
    rw [@Std.ReflCmp.compare_self _ cmp]
    rfl
  constructor
  · obtain ⟨rest, rfl⟩ := List.head?_eq_some_iff.mp hx
    rcases List.mem_cons.mp hz with rfl | hz
    · exact hself z
    · exact (List.pairwise_cons.mp h).1 z hz
  · obtain ⟨front, rfl⟩ := List.getLast?_eq_some_iff.mp hy
    rcases List.mem_append.mp hz with hz | hz
    · exact (List.pairwise_append.mp h).2.2 z hz y List.mem_cons_self
    · obtain rfl := List.mem_singleton.mp hz
      exact hself z

theorem filter_orderBy [Std.TransCmp cmp] (h : (t.filter p).Pairwise fun a b => (cmp a b).isLE = true) :
    (orderBy cmp t).filter p = t.filter p := by
  have hsub : (t.filter p).Sublist (orderBy cmp t) :=
    List.sublist_mergeSort (fun _ _ _ => Std.TransCmp.isLE_trans) isLE_total h List.filter_sublist
  have hfilter : (t.filter p).Sublist ((orderBy cmp t).filter p) := by
    simpa using hsub.filter p
  exact (hfilter.eq_of_length ((orderBy_perm cmp t).filter p).length_eq.symm).symm

end Order

end Relational
