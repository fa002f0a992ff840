import Mathlib.Algebra.GroupWithZero.Nat
import Mathlib.Data.List.Dedup
import PaymentSdk.Bitcoin.Delivered

/-!
# Previous outputs of a Bitcoin block

The source plans which previous transactions to ask for, and writes what they answer into the
inputs. Ids are hashes, so an answer with the right id is the right transaction, and the order the
answers arrive in does not matter.
-/

open Checked

namespace PaymentSdk.Bitcoin.Indexer

open Json (Map)

variable {lib : Library}

/-! ## What an outpoint names -/

/-- No two transactions have one id. -/
def CollisionFree (lib : Library) : Prop :=
  ∀ raw raw' t t', lib.deserialize raw = some t → lib.deserialize raw' = some t' → t.txid = t'.txid → t = t'

/-- The output at the outpoint's position in the transaction with its id. -/
def Creates (lib : Library) (o : Outpoint) (output : NativeOutput) : Prop :=
  ∃ raw t, lib.deserialize raw = some t ∧ t.txid = o.transactionId ∧ t.output[o.outputIndex.toNat]? = some output

theorem creates_unique (hfree : CollisionFree lib) {o : Outpoint} {a b : NativeOutput} (ha : Creates lib o a)
    (hb : Creates lib o b) : a = b := by
  obtain ⟨raw, t, hraw, hid, ha⟩ := ha
  obtain ⟨raw', t', hraw', hid', hb⟩ := hb
  obtain rfl := hfree raw raw' t t' hraw hraw' (hid.trans hid'.symm)
  exact Option.some.inj (ha.symm.trans hb)

/-- A previous output with the value and the address of the output that is spent. -/
def Spends (lib : Library) (o : Outpoint) (p : PreviousOutput) : Prop :=
  p.outpoint = o ∧ ∃ output, Creates lib o output ∧ p.value = output.value ∧ p.address = lib.fromScript output.scriptPubkey

theorem nativeOf_deserialize {value : Json} {native : NativeTransaction} (h : nativeOf lib value = some native) :
    ∃ raw, lib.deserialize raw = some native := by
  obtain ⟨object, -, h⟩ := Option.bind_eq_some_iff.mp h
  obtain ⟨hex, -, h⟩ := Option.bind_eq_some_iff.mp h
  obtain ⟨raw, -, h⟩ := Option.bind_eq_some_iff.mp h
  exact ⟨raw, h⟩

/-! ## The plan -/

/-- Every input of the transactions spends an output before it or a required one. -/
def Covered (required : List Outpoint) : List Outpoint → List NativeTransaction → Prop
  | _, [] => True
  | earlier, t :: rest =>
    (∀ o ∈ t.input, o.isNull = false → o ∈ earlier ∨ o ∈ required) ∧ Covered required (t.outpoints ++ earlier) rest

theorem observe_covers {earlier : List Outpoint} {ids : List TransactionId} {required out : List Outpoint}
    {input : Outpoint} (h : observe earlier ids required input = .ok out) :
    required ⊆ out ∧ (input.isNull = false → input ∈ earlier ∨ input ∈ out) := by
  unfold observe recordPrevout at h
  split_ifs at h with hnull hearlier
  · cases h
    exact ⟨List.Subset.refl _, fun hfalse => absurd hnull (by simp [hfalse])⟩
  · cases h
    exact ⟨List.Subset.refl _, fun _ => .inl hearlier⟩
  · cases h
    exact ⟨List.subset_append_left _ _, fun _ => .inr (by simp)⟩

theorem observeAll_covers {earlier : List Outpoint} {ids : List TransactionId} {inputs required out : List Outpoint}
    (h : inputs.foldlM (observe earlier ids) required = .ok out) :
    required ⊆ out ∧ ∀ o ∈ inputs, o.isNull = false → o ∈ earlier ∨ o ∈ out := by
  induction inputs generalizing required with
  | nil =>
    cases h
    exact ⟨List.Subset.refl _, by simp⟩
  | cons input inputs ih =>
    rw [List.foldlM_cons] at h
    obtain ⟨middle, hmiddle, h⟩ := bind_ok.mp h
    obtain ⟨hfirst, hinput⟩ := observe_covers hmiddle
    obtain ⟨hrest, hinputs⟩ := ih h
    refine ⟨List.Subset.trans hfirst hrest, List.forall_mem_cons.mpr ⟨?_, hinputs⟩⟩
    exact fun hnull => (hinput hnull).imp_right fun hmem => hrest hmem

theorem requiredPrevouts_covers {ids : List TransactionId} {earlier required out : List Outpoint}
    {natives : List NativeTransaction} (h : requiredPrevouts ids earlier required natives = .ok out) :
    required ⊆ out ∧ Covered out earlier natives := by
  induction natives generalizing earlier required with
  | nil =>
    cases h
    exact ⟨List.Subset.refl _, trivial⟩
  | cons t rest ih =>
    obtain ⟨middle, hmiddle, h⟩ := bind_ok.mp h
    split_ifs at h
    obtain ⟨hfirst, hinputs⟩ := observeAll_covers hmiddle
    obtain ⟨hrest, hcovered⟩ := ih h
    refine ⟨List.Subset.trans hfirst hrest, ?_, hcovered⟩
    exact fun o ho hnull => (hinputs o ho hnull).imp_right fun hmem => hrest hmem

/-! ## Bounds -/

def boundError : SourceError :=
  ⟨"Bitcoin block exceeds the " ++ toString maxExternalPrevoutsPerBlock ++ " external-prevout safety bound", false⟩

theorem boundError_message : boundError.message =
    "Bitcoin block exceeds the " ++ toString maxExternalPrevoutsPerBlock ++ " external-prevout safety bound" := rfl

theorem duplicate_ne_bound (a b : String) : "Bitcoin block spends the same external outpoint more than once" ≠
    "Bitcoin block exceeds the " ++ a ++ b := by
  intro h
  have hlist := congrArg (fun s => s.toList[14]?) h
  simp only [String.toList_append, List.append_assoc] at hlist
  rw [List.getElem?_append_left (by decide)] at hlist
  exact absurd hlist (by decide)

theorem observe_bound {earlier : List Outpoint} {ids : List TransactionId} {required : List Outpoint} {input : Outpoint}
    (h : required.length < maxExternalPrevoutsPerBlock) :
    observe earlier ids required input ≠ .error boundError ∧
      ∀ out, observe earlier ids required input = .ok out → out.length ≤ required.length + 1 := by
  unfold observe recordPrevout
  split_ifs with hnull hearlier hid hdup hbound
  · exact ⟨by simp, fun out hout => by cases hout; omega⟩
  · exact ⟨by simp, fun out hout => by cases hout; omega⟩
  · refine ⟨fun heq => ?_, by simp⟩
    exact Bool.noConfusion (congrArg SourceError.retryable (Except.error.inj heq))
  · constructor
    · intro heq
      have hmessage := congrArg SourceError.message (Except.error.inj heq)
      rw [boundError_message] at hmessage
      exact duplicate_ne_bound _ _ hmessage
    · intro out hout
      cases hout
  · omega
  · exact ⟨by simp, fun out hout => by cases hout; simp⟩

theorem observeAll_bound {earlier : List Outpoint} {ids : List TransactionId} {inputs required : List Outpoint}
    (h : required.length + inputs.length ≤ maxExternalPrevoutsPerBlock) :
    inputs.foldlM (observe earlier ids) required ≠ .error boundError ∧
      ∀ out, inputs.foldlM (observe earlier ids) required = .ok out → out.length ≤ required.length + inputs.length := by
  induction inputs generalizing required with
  | nil => exact ⟨nofun, fun out hout => by cases hout; simp⟩
  | cons input inputs ih =>
    rw [List.length_cons] at h ⊢
    obtain ⟨hbound, hlength⟩ := @observe_bound earlier ids required input (by omega)
    rw [List.foldlM_cons]
    constructor
    · intro heq
      obtain heq | ⟨middle, hmiddle, heq⟩ := bind_error.mp heq
      · exact hbound heq
      · exact (ih (by have := hlength middle hmiddle; omega)).1 heq
    · intro out hout
      obtain ⟨middle, hmiddle, hout⟩ := bind_ok.mp hout
      have hfirst := hlength middle hmiddle
      have hrest := (ih (by omega)).2 out hout
      omega

/-- **Run.** No plan with at most as many inputs exceeds the bound. -/
theorem requiredPrevouts_bound {ids : List TransactionId} {earlier required : List Outpoint}
    {natives : List NativeTransaction}
    (h : required.length + (natives.map (·.input.length)).sum ≤ maxExternalPrevoutsPerBlock) :
    requiredPrevouts ids earlier required natives ≠ .error boundError ∧
      ∀ out, requiredPrevouts ids earlier required natives = .ok out →
        out.length ≤ required.length + (natives.map (·.input.length)).sum := by
  induction natives generalizing earlier required with
  | nil => exact ⟨nofun, fun out hout => by cases hout; simp⟩
  | cons t rest ih =>
    rw [List.map_cons, List.sum_cons] at h ⊢
    obtain ⟨hbound, hlength⟩ := @observeAll_bound earlier ids t.input required (by omega)
    constructor
    · intro heq
      obtain heq | ⟨middle, hmiddle, heq⟩ := bind_error.mp heq
      · exact hbound heq
      · split_ifs at heq
        · exact Bool.noConfusion (congrArg SourceError.retryable (Except.error.inj heq))
        · exact (ih (by have := hlength middle hmiddle; omega)).1 heq
    · intro out hout
      obtain ⟨middle, hmiddle, hout⟩ := bind_ok.mp hout
      split_ifs at hout
      have hfirst := hlength middle hmiddle
      have hrest := (ih (by omega)).2 out hout
      omega

def maxBlockWeight : Nat := 4000000

/-- An outpoint of 36 bytes, the length of a script and a sequence of 4, four units a byte. -/
def inputWeight : Nat := 4 * (36 + 1 + 4)

theorem inputs_of_weight {weight : NativeTransaction → Nat} (hweight : ∀ t, inputWeight * t.input.length ≤ weight t)
    (natives : List NativeTransaction) :
    inputWeight * (natives.map (·.input.length)).sum ≤ (natives.map weight).sum := by
  induction natives with
  | nil => simp
  | cons t rest ih =>
    rw [List.map_cons, List.map_cons, List.sum_cons, List.sum_cons, Nat.mul_add]
    exact Nat.add_le_add (hweight t) ih

/-! ## Answers -/

/-- A resolved output is that of its outpoint, with an address that is short. -/
def Resolves (lib : Library) (o : Outpoint) (r : ResolvedOutput) : Prop :=
  (∃ output, Creates lib o output ∧ r = ⟨output.value, lib.fromScript output.scriptPubkey⟩) ∧
    r.address.toList.forM validateCompactPrevout = .ok ()

theorem resolves_unique (hfree : CollisionFree lib) {o : Outpoint} {a b : ResolvedOutput} (ha : Resolves lib o a)
    (hb : Resolves lib o b) : a = b := by
  obtain ⟨⟨output, hcreates, rfl⟩, -⟩ := ha
  obtain ⟨⟨output', hcreates', rfl⟩, -⟩ := hb
  rw [creates_unique hfree hcreates hcreates']

theorem previousTransaction_ok {node : Node} {id : TransactionId} {native : NativeTransaction}
    (h : previousTransaction lib node id = .ok native) : native.txid = id ∧ ∃ raw, lib.deserialize raw = some native := by
  obtain ⟨answer, -, h⟩ := bind_ok.mp h
  obtain ⟨value, -, h⟩ := bind_ok.mp h
  obtain ⟨object, hobject, h⟩ := bind_ok.mp h
  obtain ⟨text, -, h⟩ := bind_ok.mp h
  obtain ⟨returned, -, h⟩ := bind_ok.mp h
  split at h
  · cases h
  obtain ⟨native, hnative, h⟩ := bind_ok.mp h
  obtain ⟨confirmed, -, h⟩ := bind_ok.mp h
  obtain ⟨hash, -, h⟩ := bind_ok.mp h
  cases h
  obtain ⟨hdecoded, hid⟩ := decodeConsensusTransaction_ok (orSource_ok.mp hobject) hnative
  exact ⟨hid, nativeOf_deserialize hdecoded⟩

theorem resolveOutput_ok {native : NativeTransaction} {raw : List UInt8} (hraw : lib.deserialize raw = some native)
    {o : Outpoint} (hid : native.txid = o.transactionId) {r : ResolvedOutput}
    (h : resolveOutput lib native o.outputIndex = .ok r) : Resolves lib o r := by
  obtain ⟨output, houtput, h⟩ := bind_ok.mp h
  obtain ⟨⟨⟩, hshort, h⟩ := bind_ok.mp h
  cases h
  exact ⟨⟨output, ⟨raw, native, hraw, hid, orSource_ok.mp houtput⟩, rfl⟩, hshort⟩

theorem resolveOutputs_ok {node : Node} {required : List Outpoint} {id : TransactionId} {group : Resolved}
    (h : resolveOutputs lib node required id = .ok group) :
    group.map (·.1) = required.filter (·.transactionId = id) ∧ ∀ e ∈ group, Resolves lib e.1 e.2 := by
  obtain ⟨native, hnative, hgroup⟩ := bind_ok.mp h
  obtain ⟨hid, raw, hraw⟩ := previousTransaction_ok hnative
  have hall := mapM_ok.mp hgroup
  have hfilter : ∀ o ∈ required.filter (·.transactionId = id), o.transactionId = id := by simp
  clear h hgroup
  generalize required.filter (·.transactionId = id) = asked at hall hfilter ⊢
  induction hall with
  | nil => exact ⟨rfl, by simp⟩
  | @cons o e _ _ hfirst _ ih =>
    obtain ⟨ho, hrest⟩ := List.forall_mem_cons.mp hfilter
    obtain ⟨r, hr, hfirst⟩ := bind_ok.mp hfirst
    cases hfirst
    obtain ⟨hmap, hresolves⟩ := ih hrest
    refine ⟨by rw [List.map_cons, hmap], List.forall_mem_cons.mpr ⟨?_, hresolves⟩⟩
    exact resolveOutput_ok hraw (hid.trans ho.symm) hr

theorem resolveIn_ok {node : Node} {required : List Outpoint} {order : List TransactionId} {resolved : Resolved}
    (horder : ∀ o ∈ required, o.transactionId ∈ order) (h : resolveIn lib node required order = .ok resolved) :
    (∀ o ∈ required, ∃ r, resolved.lookup o = some r) ∧
      ∀ o r, resolved.lookup o = some r → o ∈ required ∧ Resolves lib o r := by
  obtain ⟨groups, hgroups, h⟩ := bind_ok.mp h
  cases h
  have hmem : ∀ e ∈ groups.flatten, e.1 ∈ required ∧ Resolves lib e.1 e.2 := by
    intro e he
    obtain ⟨group, hgroup, he⟩ := List.mem_flatten.mp he
    obtain ⟨id, -, hid⟩ := mem_mapM hgroups hgroup
    obtain ⟨hmap, hresolves⟩ := resolveOutputs_ok hid
    have hkey : e.1 ∈ required.filter (·.transactionId = id) := hmap ▸ List.mem_map_of_mem he
    exact ⟨List.mem_of_mem_filter hkey, hresolves e he⟩
  constructor
  · intro o ho
    obtain ⟨group, hgroup, hid⟩ := mem_of_mapM hgroups (horder o ho)
    have hkey : o ∈ group.map (·.1) := by
      rw [(resolveOutputs_ok hid).1, List.mem_filter]
      exact ⟨ho, by simp⟩
    obtain ⟨e, he, rfl⟩ := List.mem_map.mp hkey
    exact Option.isSome_iff_exists.mp (List.lookup_isSome_iff.mpr ⟨e, List.mem_flatten.mpr ⟨group, hgroup, he⟩, by simp⟩)
  · intro o r hr
    exact hmem _ (lookup_mem hr)

/-! ## Inputs -/

/-- The inputs of a transaction, each an object. -/
def Shaped (value : Json) (native : NativeTransaction) : Prop :=
  ∃ object inputs, value.asObject = some object ∧ (object.get "vin").bind Json.asArray = some inputs ∧
    inputs.length = native.input.length ∧ ∀ x ∈ inputs.zip native.input, ∃ fields, x.1.asObject = some fields

theorem validateInputClaims_ok {value : Json} {object : Map} {native : NativeTransaction} {u : Unit}
    (hobject : value.asObject = some object) (h : validateInputClaims lib object native = .ok u) : Shaped value native := by
  obtain ⟨inputs, hinputs, h⟩ := bind_ok.mp h
  split_ifs at h with hlen
  refine ⟨object, inputs, hobject, orSource_ok.mp hinputs, not_not.mp hlen, ?_⟩
  intro x hx
  have hmem : ∃ i, (x, i) ∈ (inputs.zip native.input).zipIdx := by
    obtain ⟨i, hi, rfl⟩ := List.mem_iff_getElem.mp hx
    exact ⟨i, List.mem_zipIdx_iff_getElem?.mpr (List.getElem?_eq_getElem hi)⟩
  obtain ⟨i, hi⟩ := hmem
  have hclaim := forM_ok.mp h _ hi
  obtain ⟨fields, hfields, -⟩ := bind_ok.mp hclaim
  exact ⟨fields, orSource_ok.mp hfields⟩

theorem decodeAll_shaped {ids : List TransactionId} {values : List Json} {natives : List NativeTransaction}
    (h : decodeAll lib ids values = .ok natives) : List.Forall₂ Shaped values natives := by
  induction values generalizing ids natives with
  | nil =>
    cases h
    exact .nil
  | cons value rest ih =>
    obtain ⟨object, hobject, h⟩ := bind_ok.mp h
    obtain ⟨text, -, h⟩ := bind_ok.mp h
    obtain ⟨id, -, h⟩ := bind_ok.mp h
    obtain ⟨native, -, h⟩ := bind_ok.mp h
    obtain ⟨⟨⟩, hclaims, h⟩ := bind_ok.mp h
    split_ifs at h
    obtain ⟨natives, hnatives, h⟩ := bind_ok.mp h
    cases h
    exact .cons (validateInputClaims_ok (orSource_ok.mp hobject) hclaims) (ih hnatives)

/-- What is written into an input. -/
def compact (r : ResolvedOutput) : Map :=
  [("value_satoshis", .number (toString r.valueSatoshis.toNat) (some r.valueSatoshis)),
    ("address", match r.address with
      | none => .null
      | some address => .string address.encoded.str)]

theorem compactJson_ok {o : Outpoint} {r : ResolvedOutput} (h : Resolves lib o r) : r.compactJson = .ok (.object (compact r)) := by
  unfold ResolvedOutput.compactJson
  rw [h.2]
  rfl

theorem enrichInput_eq {resolved : Resolved} {earlier : List Outpoint} {input : Json} {fields : Map} {native : Outpoint}
    (hfields : input.asObject = some fields)
    (hresolved : ∀ o r, resolved.lookup o = some r → Resolves lib o r)
    (hcovered : native.isNull = false → native ∈ earlier ∨ ∃ r, resolved.lookup native = some r) :
    enrichInput resolved earlier input native = .ok (
      if native.isNull then input
      else if native ∈ earlier then .object (fields.remove "prevout")
      else match resolved.lookup native with
        | none => input
        | some r => .object ((fields.remove "prevout").insert "prevout" (.object (compact r)))) := by
  unfold enrichInput
  cases hnull : native.isNull with
  | true => simp
  | false =>
    by_cases hearlier : native ∈ earlier
    · simp [hearlier, hfields, orSource, bind, Except.bind]
    · obtain ⟨r, hr⟩ := (hcovered hnull).resolve_left hearlier
      simp [hearlier, hfields, hr, orSource, bind, Except.bind, compactJson_ok (hresolved _ _ hr), pure, Except.pure]

/-- **Nothing stays unresolved.** Once every request is answered, each input is enriched. -/
theorem enrichAll_total {resolved : Resolved} {required earlier : List Outpoint} {values : List Json}
    {natives : List NativeTransaction} (hshaped : List.Forall₂ Shaped values natives)
    (hcovered : Covered required earlier natives) (hsome : ∀ o ∈ required, ∃ r, resolved.lookup o = some r)
    (hresolved : ∀ o r, resolved.lookup o = some r → Resolves lib o r) :
    ∃ enriched, enrichAll resolved earlier (natives.zip values) = .ok enriched := by
  induction hshaped generalizing earlier with
  | nil => exact ⟨[], rfl⟩
  | @cons value native values natives hfirst _ ih =>
    obtain ⟨object, inputs, hobject, hvin, -, hobjects⟩ := hfirst
    have hinputs : ∀ x ∈ inputs.zip native.input, ∃ y, enrichInput resolved earlier x.1 x.2 = .ok y := by
      intro x hx
      obtain ⟨fields, hfields⟩ := hobjects x hx
      refine ⟨_, enrichInput_eq hfields hresolved ?_⟩
      intro hnull
      exact (hcovered.1 x.2 (List.of_mem_zip hx).2 hnull).imp_right (hsome x.2)
    obtain ⟨enriched, henriched⟩ := exists_mapM hinputs
    obtain ⟨rest, hrest⟩ := ih hcovered.2
    exact ⟨_, bind_ok.mpr ⟨object, orSource_ok.mpr hobject, bind_ok.mpr ⟨inputs, orSource_ok.mpr hvin,
      bind_ok.mpr ⟨enriched, henriched, bind_ok.mpr ⟨rest, hrest, rfl⟩⟩⟩⟩⟩

theorem enrichAll_mono {resolved resolved' : Resolved} {earlier : List Outpoint} {pairs : List (NativeTransaction × Json)}
    {out : List Json} (hlookup : ∀ o r, resolved.lookup o = some r → resolved'.lookup o = some r)
    (h : enrichAll resolved earlier pairs = .ok out) : enrichAll resolved' earlier pairs = .ok out := by
  have hinput : ∀ (earlier : List Outpoint) (input : Json) (native : Outpoint) (out : Json),
      enrichInput resolved earlier input native = .ok out → enrichInput resolved' earlier input native = .ok out := by
    intro earlier input native out h
    unfold enrichInput at h ⊢
    by_cases hnull : native.isNull = true
    · rw [if_pos hnull] at h ⊢
      exact h
    · rw [if_neg hnull] at h ⊢
      obtain ⟨object, hobject, h⟩ := bind_ok.mp h
      refine bind_ok.mpr ⟨object, hobject, ?_⟩
      by_cases hearlier : native ∈ earlier
      · simpa only [hearlier, if_true] using h
      · simp only [hearlier, if_false] at h ⊢
        obtain ⟨output, houtput, h⟩ := bind_ok.mp h
        exact bind_ok.mpr ⟨output, orSource_ok.mpr (hlookup _ _ (orSource_ok.mp houtput)), h⟩
  induction pairs generalizing earlier out with
  | nil => exact h
  | cons x rest ih =>
    obtain ⟨object, hobject, h⟩ := bind_ok.mp h
    obtain ⟨inputs, hinputs, h⟩ := bind_ok.mp h
    obtain ⟨enriched, henriched, h⟩ := bind_ok.mp h
    obtain ⟨values, hvalues, h⟩ := bind_ok.mp h
    refine bind_ok.mpr ⟨object, hobject, bind_ok.mpr ⟨inputs, hinputs, bind_ok.mpr ⟨enriched, ?_,
      bind_ok.mpr ⟨values, ih hvalues, h⟩⟩⟩⟩
    exact mapM_ok.mpr ((mapM_ok.mp henriched).imp fun _ _ hx => hinput _ _ _ _ hx)

/-! ## Parsed inputs -/

theorem get_remove_self (m : Map) (field : String) : (m.remove field).get field = none := by
  unfold Map.get Map.remove
  induction m with
  | nil => rfl
  | cons entry m ih =>
    obtain ⟨key, value⟩ := entry
    by_cases hkey : key = field
    · rw [List.filter_cons_of_neg (by simpa using hkey), ih]
    · rw [List.filter_cons_of_pos (by simpa using hkey), List.lookup_cons, beq_false_of_ne (Ne.symm hkey), ih]

theorem parse_compact {r : ResolvedOutput} {o : Outpoint} {height : BlockHeight} {p : PreviousOutput}
    (h : PreviousOutput.parse lib (compact r) o height = .ok p) : p = ⟨o, r.valueSatoshis, r.address⟩ := by
  have hvalue : Map.get (compact r) "value_satoshis" =
      some (.number (toString r.valueSatoshis.toNat) (some r.valueSatoshis)) := rfl
  have haddress : Map.get (compact r) "address" = some (match r.address with
      | none => .null
      | some address => .string address.encoded.str) := rfl
  unfold PreviousOutput.parse at h
  rw [hvalue] at h
  simp only [haddress, bind_ok, orElse_ok, Json.asU64] at h
  obtain ⟨value, hv, fact, hfact, address, hparsed, h⟩ := h
  cases h
  obtain rfl := Option.some.inj hv
  obtain rfl := Option.some.inj hfact
  congr 1
  cases hr : r.address with
  | none =>
    rw [hr] at hparsed
    cases hparsed
    rfl
  | some a =>
    rw [hr] at hparsed
    simp only [PreviousOutput.parseAddress] at hparsed
    split at hparsed
    · cases hparsed
    · rename_i canonical _
      split_ifs at hparsed with htext
      cases hparsed
      rw [not_not] at htext
      exact congrArg some (congrArg Address.mk (Text.ext htext))

/-- A coinbase input has no previous output, and any other has the one it spends. -/
def InputExact (lib : Library) (o : Outpoint) (i : Input) : Prop :=
  (o.isNull = true ∧ i.previousOutput = none) ∨
    o.isNull = false ∧ ∃ p, i.previousOutput = some p ∧ Spends lib o p

theorem input_exact {resolved : Resolved} {earlier : List Outpoint} {input enriched : Json} {native : Outpoint}
    {index : Nat} {coinbase : Bool} {height : BlockHeight} {locals : Locals} {i : Input}
    (hresolved : ∀ o r, resolved.lookup o = some r → Resolves lib o r)
    (hlocals : ∀ e ∈ locals, Spends lib e.1 e.2)
    (henrich : enrichInput resolved earlier input native = .ok enriched)
    (hparse : Input.parse lib enriched native index coinbase height locals = .ok i) : InputExact lib native i := by
  obtain ⟨hnull, rfl⟩ | ⟨hnull, -, object, p, hobject, hresolve, rfl⟩ := input_parse_ok hparse
  · exact .inl ⟨hnull, rfl⟩
  refine .inr ⟨hnull, p, rfl, ?_⟩
  unfold enrichInput at henrich
  rw [if_neg (by simp [hnull])] at henrich
  obtain ⟨fields, -, henrich⟩ := bind_ok.mp henrich
  by_cases hearlier : native ∈ earlier
  · simp only [hearlier, if_true] at henrich
    cases henrich
    cases hobject
    unfold Input.resolve at hresolve
    rw [get_remove_self] at hresolve
    exact hlocals _ (lookup_mem (orElse_ok.mp hresolve))
  · simp only [hearlier, if_false] at henrich
    obtain ⟨r, hr, henrich⟩ := bind_ok.mp henrich
    obtain ⟨prevout, hprevout, henrich⟩ := bind_ok.mp henrich
    cases henrich
    cases hobject
    have hreal := hresolved _ _ (orSource_ok.mp hr)
    rw [compactJson_ok hreal] at hprevout
    cases hprevout
    unfold Input.resolve at hresolve
    rw [Json.get_insert_self] at hresolve
    obtain ⟨resolved, hparsed, hresolve⟩ := bind_ok.mp hresolve
    split_ifs at hresolve
    cases hresolve
    obtain rfl := parse_compact hparsed
    obtain ⟨⟨output, hcreates, rfl⟩, -⟩ := hreal
    exact ⟨rfl, output, hcreates, rfl, rfl⟩

/-! ## Parsed blocks -/

/-- A parsed transaction has the id, the kind and the inputs of the native one. -/
structure TransactionExact (lib : Library) (native : NativeTransaction) (t : Transaction) : Prop where
  id_eq : t.id = native.txid
  coinbase_eq : t.coinbase = native.isCoinbase
  inputs : List.Forall₂ (InputExact lib) native.input t.inputs

theorem forall₂_compose {α β γ δ : Type} {P : α → β → γ → Prop} {Q : γ → β → δ → Prop} {R : β → δ → Prop}
    (hPQ : ∀ a b c d, P a b c → Q c b d → R b d) {as : List α} {bs : List β} {cs : List γ} {ds : List δ}
    (hlen : as.length = bs.length) (hP : List.Forall₂ (fun x c => P x.1 x.2 c) (as.zip bs) cs)
    (hQ : List.Forall₂ (fun x d => Q x.1 x.2 d) (cs.zip bs) ds) : List.Forall₂ R bs ds := by
  induction bs generalizing as cs ds with
  | nil =>
    rw [List.zip_nil_right] at hQ
    cases hQ
    exact .nil
  | cons b bs ih =>
    cases as with
    | nil => simp at hlen
    | cons a as =>
      rw [List.zip_cons_cons] at hP
      cases hP with
      | @cons _ c _ cs hfirst hrest =>
        rw [List.zip_cons_cons] at hQ
        cases hQ with
        | cons hfirst' hrest' => exact .cons (hPQ _ _ _ _ hfirst hfirst') (ih (by simpa using hlen) hrest hrest')

theorem locals_spends {raw : List UInt8} {native : NativeTransaction} {t : Transaction}
    (hraw : lib.deserialize raw = some native) (hid : t.id = native.txid)
    (houtputs : t.outputs = native.output.map fun o => ⟨o.value, o.scriptPubkey⟩) (hsize : t.outputs.length ≤ 2 ^ 32)
    {o : Outpoint} {p : PreviousOutput} (h : (o, p) ∈ t.locals lib) : Spends lib o p := by
  obtain ⟨⟨output, index⟩, hmem, heq⟩ := List.mem_map.mp h
  cases heq
  have hget := List.mem_zipIdx_iff_getElem?.mp hmem
  have hlt : index < t.outputs.length := (List.getElem?_eq_some_iff.mp hget).1
  rw [houtputs, List.getElem?_map] at hget
  obtain ⟨native', hnative, rfl⟩ := Option.map_eq_some_iff.mp hget
  refine ⟨rfl, native', ⟨raw, native, hraw, hid.symm, ?_⟩, rfl, rfl⟩
  simp only [UInt32.toNat_ofNat_of_lt' (Nat.lt_of_lt_of_le hlt hsize)]
  exact hnative

theorem enriched_exact {resolved : Resolved} {earlier : List Outpoint} {height : BlockHeight} {ids : List TransactionId}
    {locals : Locals} {natives : List NativeTransaction} {values enriched : List Json} {ts : List Transaction}
    (hresolved : ∀ o r, resolved.lookup o = some r → Resolves lib o r)
    (hlocals : ∀ e ∈ locals, Spends lib e.1 e.2)
    (hshaped : List.Forall₂ Shaped values natives) (hnatives : values.map (nativeOf lib) = natives.map some)
    (henrich : enrichAll resolved earlier (natives.zip values) = .ok enriched)
    (hparse : parseAll lib height ids locals enriched = .ok ts) : List.Forall₂ (TransactionExact lib) natives ts := by
  induction hshaped generalizing earlier ids locals enriched ts with
  | nil =>
    cases henrich
    cases hparse
    exact .nil
  | @cons value native values natives hfirst _ ih =>
    rw [List.map_cons, List.map_cons, List.cons.injEq] at hnatives
    obtain ⟨object, hobject, henrich⟩ := bind_ok.mp henrich
    obtain ⟨inputs, hinputs, henrich⟩ := bind_ok.mp henrich
    obtain ⟨changed, hchanged, henrich⟩ := bind_ok.mp henrich
    obtain ⟨rest, hrest, henrich⟩ := bind_ok.mp henrich
    cases henrich
    obtain ⟨t, ht, hparse⟩ := bind_ok.mp hparse
    split_ifs at hparse with hseen hsize
    obtain ⟨later, hlater, hparse⟩ := bind_ok.mp hparse
    cases hparse
    have hvalue := orSource_ok.mp hobject
    obtain ⟨native', hparsed⟩ := transaction_parse_ok ht
    obtain rfl : native' = native := by
      have hdecoded := hparsed.decoded
      rw [nativeOf_insert_vin lib hvalue, hnatives.1] at hdecoded
      exact (Option.some.inj hdecoded).symm
    obtain ⟨raw, hraw⟩ := nativeOf_deserialize hnatives.1
    refine .cons ⟨hparsed.id_eq, hparsed.coinbase_eq, ?_⟩ (ih ?_ hnatives.2 hrest hlater)
    · obtain ⟨object', inputs', hobject', hinputs', hlen, -⟩ := hfirst
      obtain rfl := Option.some.inj (hvalue.symm.trans hobject')
      obtain rfl := Option.some.inj ((orSource_ok.mp hinputs).symm.trans hinputs')
      obtain ⟨object'', values', hobject'', hvalues', -, hall⟩ := hparsed.inputs
      cases hobject''
      rw [Json.get_insert_self, Option.bind_some, List.drop_of_length_le (Nat.le_of_eq hlen), List.append_nil] at hvalues'
      cases hvalues'
      refine @forall₂_compose _ _ _ _ (fun input o enriched => enrichInput resolved earlier input o = .ok enriched)
        (fun input o i => ∃ index, Input.parse lib input o index native'.isCoinbase height locals = .ok i)
        _ ?_ _ _ _ _ hlen
        (mapM_ok.mp hchanged) hall
      rintro input o enriched i henrich ⟨index, hparse⟩
      exact input_exact hresolved hlocals henrich hparse
    · refine List.forall_mem_append.mpr ⟨?_, hlocals⟩
      exact fun e he => locals_spends hraw hparsed.id_eq hparsed.outputs_eq (Nat.le_of_not_lt hsize) he

/-! ## Orders -/

theorem Permutes.mem {order : List TransactionId → List TransactionId} (h : Permutes order) (required : List Outpoint) :
    ∀ o ∈ required, o.transactionId ∈ order (required.map (·.transactionId)).dedup := by
  intro o ho
  rw [(h _).mem_iff, List.mem_dedup]
  exact List.mem_map_of_mem ho

theorem lookup_agrees (hfree : CollisionFree lib) {node node' : Node} {required : List Outpoint}
    {order order' : List TransactionId} {resolved resolved' : Resolved}
    (horder : ∀ o ∈ required, o.transactionId ∈ order) (horder' : ∀ o ∈ required, o.transactionId ∈ order')
    (h : resolveIn lib node required order = .ok resolved) (h' : resolveIn lib node' required order' = .ok resolved')
    (o : Outpoint) (r : ResolvedOutput) (hr : resolved.lookup o = some r) : resolved'.lookup o = some r := by
  obtain ⟨hmem, hresolves⟩ := (resolveIn_ok horder h).2 o r hr
  obtain ⟨hsome, hresolves'⟩ := resolveIn_ok horder' h'
  obtain ⟨r', hr'⟩ := hsome o hmem
  rw [hr', resolves_unique hfree (hresolves' o r' hr').2 hresolves]

theorem enrichIn_unique (hfree : CollisionFree lib) {node node' : Node}
    {order order' : List TransactionId → List TransactionId} (horder : Permutes order) (horder' : Permutes order')
    {raw out out' : Json} (h : enrichIn lib node order raw = .ok out) (h' : enrichIn lib node' order' raw = .ok out') :
    out' = out := by
  obtain ⟨object, hobject, values, hvalues, natives, hdecoded, required, hplanned, -, resolved, hresolved, enriched,
    henriched, rfl⟩ := enrichIn_ok.mp h
  obtain ⟨object', hobject', values', hvalues', natives', hdecoded', required', hplanned', -, resolved', hresolved',
    enriched', henriched', rfl⟩ := enrichIn_ok.mp h'
  obtain rfl := Option.some.inj (hobject.symm.trans hobject')
  obtain rfl := Option.some.inj (hvalues.symm.trans hvalues')
  obtain rfl := Except.ok.inj (hdecoded.symm.trans hdecoded')
  obtain rfl := Except.ok.inj (hplanned.symm.trans hplanned')
  have hagrees := lookup_agrees hfree (horder.mem _) (horder'.mem _) hresolved hresolved'
  rw [Except.ok.inj (henriched'.symm.trans (enrichAll_mono hagrees henriched))]

theorem enrichIn_reorder (hfree : CollisionFree lib) {node : Node}
    {order order' : List TransactionId → List TransactionId} (horder : Permutes order) (horder' : Permutes order')
    {raw out : Json} (h : enrichIn lib node order raw = .ok out) : enrichIn lib node order' raw = .ok out := by
  obtain ⟨object, hobject, values, hvalues, natives, hdecoded, required, hplanned, hbound, resolved, hresolved, enriched,
    henriched, rfl⟩ := enrichIn_ok.mp h
  have hother : ∃ resolved', resolveIn lib node required (order' (required.map (·.transactionId)).dedup) =
      .ok resolved' := by
    obtain ⟨groups, hgroups, -⟩ := bind_ok.mp hresolved
    have hall : ∀ id ∈ order' (required.map (·.transactionId)).dedup, ∃ group, resolveOutputs lib node required id =
        .ok group := by
      intro id hid
      rw [(horder' _).mem_iff, ← (horder _).mem_iff] at hid
      obtain ⟨group, -, hgroup⟩ := mem_of_mapM hgroups hid
      exact ⟨group, hgroup⟩
    obtain ⟨groups', hgroups'⟩ := exists_mapM hall
    exact ⟨groups'.flatten, bind_ok.mpr ⟨groups', hgroups', rfl⟩⟩
  obtain ⟨resolved', hresolved'⟩ := hother
  have hagrees := lookup_agrees hfree (horder.mem _) (horder'.mem _) hresolved hresolved'
  exact enrichIn_ok.mpr ⟨object, hobject, values, hvalues, natives, hdecoded, required, hplanned, hbound, resolved',
    hresolved', enriched, enrichAll_mono hagrees henriched, rfl⟩

/-- **Exactness.** Every input of a delivered block carries what it spends. -/
theorem delivered_exact {node : Node} {order : List TransactionId → List TransactionId} (horder : Permutes order)
    {raw out : Json} {expectedHeight : Option BlockHeight} {expectedHash : Option BlockHash} {block : Block}
    (henrich : enrichIn lib node order raw = .ok out)
    (hparse : Block.parse lib out expectedHeight expectedHash = .ok block) :
    ∃ object values natives, raw.asObject = some object ∧ (object.get "tx").bind Json.asArray = some values ∧
      values.map (nativeOf lib) = natives.map some ∧ List.Forall₂ (TransactionExact lib) natives block.transactions := by
  obtain ⟨object, hobject, values, hvalues, natives, hdecoded, required, hplanned, -, resolved, hresolved, enriched,
    henriched, rfl⟩ := enrichIn_ok.mp henrich
  obtain ⟨hnatives, -, -⟩ := decodeAll_ok hdecoded
  refine ⟨object, values, natives, hobject, hvalues, hnatives, ?_⟩
  exact enriched_exact (fun o r hr => ((resolveIn_ok (horder.mem _) hresolved).2 o r hr).2) (by simp)
    (decodeAll_shaped hdecoded) hnatives henriched (block_parse_enriched hparse)

end PaymentSdk.Bitcoin.Indexer
