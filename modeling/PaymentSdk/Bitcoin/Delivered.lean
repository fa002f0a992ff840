import PaymentSdk.Bitcoin.Changes
import PaymentSdk.Bitcoin.Source

/-!
# Blocks that the source delivers

A delivered block has distinct transactions, and they spend outputs of earlier ones only.
-/

open Checked

namespace PaymentSdk.Bitcoin.Indexer

open Json (Map)

variable {lib : Library}

/-! ## Results -/

theorem orSource_ok {α : Type} {message : String} {retryable : Bool} {o : Option α} {a : α} :
    orSource message retryable o = .ok a ↔ o = some a := by
  cases o <;> simp [orSource]

theorem sourced_ok {α : Type} {x : Except String α} {a : α} : sourced x = .ok a ↔ x = .ok a := by
  cases x <;> simp [sourced]

theorem requiredString_ok {object : Map} {field context text : String}
    (h : requiredString object field context = .ok text) : (object.get field).bind Json.asStr = some text := by
  unfold requiredString at h
  cases hget : (object.get field).bind Json.asStr with
  | none =>
    rw [hget] at h
    cases h
  | some text' =>
    rw [hget] at h
    simp only at h
    split_ifs at h
    cases h
    rfl

/-! ## Consensus bytes -/

/-- The consensus transaction that a transaction object carries. -/
def nativeOf (lib : Library) (value : Json) : Option NativeTransaction :=
  value.asObject.bind fun object => ((object.get "hex").bind Json.asStr).bind fun hex =>
    (lib.fromHex hex).bind lib.deserialize

theorem nativeOf_some {value : Json} {object : Map} {hex : String} {raw : List UInt8}
    {native : NativeTransaction} (hobject : value.asObject = some object)
    (hhex : (object.get "hex").bind Json.asStr = some hex) (hraw : lib.fromHex hex = some raw)
    (hnative : lib.deserialize raw = some native) : nativeOf lib value = some native := by
  rw [nativeOf, hobject, Option.bind_some, hhex, Option.bind_some, hraw, Option.bind_some, hnative]

theorem nativeOf_insert_vin (lib : Library) {value : Json} {object : Map} (h : value.asObject = some object)
    (vin : Json) : nativeOf lib (.object (object.insert "vin" vin)) = nativeOf lib value := by
  rw [nativeOf, nativeOf, h, Json.asObject, Option.bind_some, Option.bind_some,
    Json.get_insert object (by decide)]

/-! ## Decoding -/

theorem decodeConsensusTransaction_ok {value : Json} {object : Map} {id : TransactionId}
    {native : NativeTransaction} (hobject : value.asObject = some object)
    (h : decodeConsensusTransaction lib object id = .ok native) :
    nativeOf lib value = some native ∧ native.txid = id := by
  obtain ⟨hex, hhex, h⟩ := bind_ok.mp h
  obtain ⟨raw, hraw, h⟩ := bind_ok.mp h
  obtain ⟨transaction, htransaction, h⟩ := bind_ok.mp h
  split_ifs at h with hid
  cases h
  exact ⟨nativeOf_some hobject (requiredString_ok (sourced_ok.mp hhex)) (orSource_ok.mp hraw)
    (orSource_ok.mp htransaction), not_not.mp hid⟩

theorem decodeAll_ok {ids : List TransactionId} {values : List Json} {natives : List NativeTransaction}
    (h : decodeAll lib ids values = .ok natives) :
    values.map (nativeOf lib) = natives.map some ∧ (natives.map (·.txid)).Nodup ∧
      ∀ t ∈ natives, t.txid ∉ ids := by
  induction values generalizing ids natives with
  | nil =>
    cases h
    simp
  | cons value rest ih =>
    obtain ⟨object, hobject, h⟩ := bind_ok.mp h
    obtain ⟨text, -, h⟩ := bind_ok.mp h
    obtain ⟨id, -, h⟩ := bind_ok.mp h
    obtain ⟨native, hnative, h⟩ := bind_ok.mp h
    obtain ⟨⟨⟩, -, h⟩ := bind_ok.mp h
    split_ifs at h with hid
    obtain ⟨natives, hnatives, h⟩ := bind_ok.mp h
    cases h
    obtain ⟨hdecoded, rfl⟩ := decodeConsensusTransaction_ok (orSource_ok.mp hobject) hnative
    obtain ⟨hmap, hnodup, hfresh⟩ := ih hnatives
    refine ⟨by rw [List.map_cons, List.map_cons, hmap, hdecoded], ?_, ?_⟩
    · rw [List.map_cons, List.nodup_cons]
      refine ⟨?_, hnodup⟩
      intro hmem
      obtain ⟨t, ht, heq⟩ := List.mem_map.mp hmem
      exact hfresh t ht (heq ▸ List.mem_cons_self)
    · refine List.forall_mem_cons.mpr ⟨hid, ?_⟩
      intro t ht hmem
      exact hfresh t ht (List.mem_cons_of_mem _ hmem)

/-! ## Order of spends -/

/-- The outpoints that the inputs of a consensus transaction name. -/
def NativeTransaction.spent (t : NativeTransaction) : List Outpoint := t.input.filter (!·.isNull)

theorem observe_ok {earlier : List Outpoint} {ids : List TransactionId} {required out : List Outpoint}
    {input : Outpoint} (h : observe earlier ids required input = .ok out) (hnull : input.isNull = false) :
    input ∈ earlier ∨ input.transactionId ∉ ids := by
  unfold observe at h
  rw [if_neg (by simp [hnull])] at h
  split_ifs at h with hearlier hid
  · exact Or.inl hearlier
  · exact Or.inr hid

theorem observeAll_ok {earlier : List Outpoint} {ids : List TransactionId} {inputs required out : List Outpoint}
    (h : inputs.foldlM (observe earlier ids) required = .ok out) :
    ∀ o ∈ inputs.filter (!·.isNull), o ∈ earlier ∨ o.transactionId ∉ ids := by
  induction inputs generalizing required with
  | nil => simp
  | cons input inputs ih =>
    rw [List.foldlM_cons] at h
    obtain ⟨middle, hmiddle, h⟩ := bind_ok.mp h
    intro o ho
    obtain ⟨ho, hnull⟩ := List.mem_filter.mp ho
    rcases List.mem_cons.mp ho with rfl | ho
    · exact observe_ok hmiddle (by simpa using hnull)
    · exact ih h o (List.mem_filter.mpr ⟨ho, hnull⟩)

theorem requiredPrevouts_ok {ids : List TransactionId} {earlier required out : List Outpoint}
    {natives : List NativeTransaction} (h : requiredPrevouts ids earlier required natives = .ok out)
    (hids : ∀ t ∈ natives, t.txid ∈ ids) (hnodup : (natives.map (·.txid)).Nodup)
    (hearlier : ∀ o ∈ earlier, o.transactionId ∉ natives.map (·.txid)) :
    natives.Pairwise fun a b => ∀ o ∈ a.spent, o.transactionId ≠ b.txid := by
  induction natives generalizing earlier required with
  | nil => exact .nil
  | cons t rest ih =>
    obtain ⟨middle, hmiddle, h⟩ := bind_ok.mp h
    split_ifs at h
    rw [List.map_cons, List.nodup_cons] at hnodup
    obtain ⟨ht, hrest⟩ := List.forall_mem_cons.mp hids
    rw [List.pairwise_cons]
    constructor
    · intro b hb o ho heq
      rcases observeAll_ok hmiddle o ho with hmem | hnot
      · exact hearlier o hmem (heq ▸ List.mem_map_of_mem (List.mem_cons_of_mem _ hb))
      · exact hnot (heq ▸ hrest b hb)
    · refine ih h hrest hnodup.2 ?_
      intro o ho hmem
      rcases List.mem_append.mp ho with ho | ho
      · obtain ⟨index, -, rfl⟩ := List.mem_map.mp ho
        exact hnodup.1 hmem
      · exact hearlier o ho (List.mem_cons_of_mem _ hmem)

/-! ## Enrichment -/

theorem enrichAll_ok {resolved : Resolved} {earlier : List Outpoint}
    {pairs : List (NativeTransaction × Json)} {out : List Json} (h : enrichAll resolved earlier pairs = .ok out) :
    out.map (nativeOf lib) = pairs.map fun x => nativeOf lib x.2 := by
  induction pairs generalizing earlier out with
  | nil =>
    cases h
    rfl
  | cons x rest ih =>
    obtain ⟨object, hobject, h⟩ := bind_ok.mp h
    obtain ⟨inputs, -, h⟩ := bind_ok.mp h
    obtain ⟨enriched, -, h⟩ := bind_ok.mp h
    obtain ⟨values, hvalues, h⟩ := bind_ok.mp h
    cases h
    rw [List.map_cons, List.map_cons, ih hvalues, nativeOf_insert_vin lib (orSource_ok.mp hobject)]

/-! ## Parsing -/

/-- An output under its outpoint. -/
def Locals.Named (locals : Locals) : Prop := ∀ e ∈ locals, e.2.outpoint = e.1

theorem lookup_mem {α β : Type} [BEq α] [LawfulBEq α] {l : List (α × β)} {a : α} {b : β} (h : l.lookup a = some b) :
    (a, b) ∈ l := by
  obtain ⟨front, back, rfl, -⟩ := List.lookup_eq_some_iff.mp h
  simp

theorem previousOutput_parse_ok {prevout : Map} {outpoint : Outpoint} {height : BlockHeight} {p : PreviousOutput}
    (h : PreviousOutput.parse lib prevout outpoint height = .ok p) : p.outpoint = outpoint := by
  unfold PreviousOutput.parse at h
  split at h
  · simp only [PreviousOutput.parseVerbose, bind_ok] at h
    obtain ⟨_, -, _, -, _, -, _, -, _, -, _, -, h⟩ := h
    split_ifs at h
    obtain ⟨_, -, h⟩ := bind_ok.mp h
    cases h
    rfl
  · simp only [bind_ok] at h
    obtain ⟨_, -, _, -, _, -, h⟩ := h
    cases h
    rfl

theorem resolve_ok {object : Map} {outpoint : Outpoint} {index : Nat} {height : BlockHeight} {locals : Locals}
    {p : PreviousOutput} (hlocals : locals.Named)
    (h : Input.resolve lib object outpoint index height locals = .ok p) : p.outpoint = outpoint := by
  unfold Input.resolve at h
  split at h
  · obtain ⟨resolved, hresolved, h⟩ := bind_ok.mp h
    split_ifs at h
    cases h
    exact previousOutput_parse_ok hresolved
  · exact hlocals _ (lookup_mem (orElse_ok.mp h))

theorem input_parse_ok {input : Json} {native : Outpoint} {index : Nat} {coinbase : Bool} {height : BlockHeight}
    {locals : Locals} {i : Input} (h : Input.parse lib input native index coinbase height locals = .ok i) :
    (native.isNull = true ∧ i = ⟨none⟩) ∨
      native.isNull = false ∧ coinbase = false ∧ ∃ object p, input.asObject = some object ∧
        Input.resolve lib object native index height locals = .ok p ∧ i = ⟨some p⟩ := by
  obtain ⟨object, hobject, h⟩ := bind_ok.mp h
  split_ifs at h with hnull hcoinbase hcoinbase
  · cases h
    exact .inl ⟨hnull, rfl⟩
  · obtain ⟨text, -, h⟩ := bind_ok.mp h
    obtain ⟨id, -, h⟩ := bind_ok.mp h
    obtain ⟨outputIndex, -, h⟩ := bind_ok.mp h
    split_ifs at h with hnative
    obtain ⟨p, hp, h⟩ := bind_ok.mp h
    cases h
    rw [not_not] at hnative
    exact .inr ⟨by simpa using hnull, by simpa using hcoinbase, object, p, orElse_ok.mp hobject, hnative ▸ hp, rfl⟩

theorem output_parse_ok {output : Json} {native : NativeOutput} {position : Nat} {o : Output}
    (h : Output.parse lib output native position = .ok o) : o = ⟨native.value, native.scriptPubkey⟩ := by
  obtain ⟨_, -, h⟩ := bind_ok.mp h
  obtain ⟨_, -, h⟩ := bind_ok.mp h
  split_ifs at h
  obtain ⟨_, -, h⟩ := bind_ok.mp h
  obtain ⟨_, -, h⟩ := bind_ok.mp h
  split_ifs at h with hvalue
  obtain ⟨_, -, h⟩ := bind_ok.mp h
  obtain ⟨_, -, h⟩ := bind_ok.mp h
  obtain ⟨_, -, h⟩ := bind_ok.mp h
  split_ifs at h with hscript
  cases h
  rw [not_not.mp hvalue, not_not.mp hscript]

theorem mapM_zipIdx_ok {ε α β : Type} {f : α × Nat → Except ε β} {l : List α} {r : List β}
    (h : l.zipIdx.mapM f = .ok r) : List.Forall₂ (fun a b => ∃ i, f (a, i) = .ok b) l r := by
  have hmap : l.zipIdx.map (·.1) = l := by simp
  rw [← hmap, List.forall₂_map_left_iff]
  exact (mapM_ok.mp h).imp fun x _ hx => ⟨x.2, hx⟩

/-- A transaction as its consensus bytes have it, with its inputs resolved. -/
structure ParsedFrom (lib : Library) (height : BlockHeight) (locals : Locals) (value : Json)
    (native : NativeTransaction) (t : Transaction) : Prop where
  decoded : nativeOf lib value = some native
  id_eq : t.id = native.txid
  coinbase_eq : t.coinbase = native.isCoinbase
  outputs_eq : t.outputs = native.output.map fun o => ⟨o.value, o.scriptPubkey⟩
  inputs : ∃ object values, value.asObject = some object ∧ (object.get "vin").bind Json.asArray = some values ∧
    values.length = native.input.length ∧
    List.Forall₂ (fun x i => ∃ index, Input.parse lib x.1 x.2 index native.isCoinbase height locals = .ok i)
      (values.zip native.input) t.inputs

theorem transaction_parse_ok {value : Json} {height : BlockHeight} {locals : Locals} {t : Transaction}
    (h : Transaction.parse lib value height locals = .ok t) : ∃ native, ParsedFrom lib height locals value native t := by
  obtain ⟨object, hobject, h⟩ := bind_ok.mp h
  obtain ⟨text, -, h⟩ := bind_ok.mp h
  obtain ⟨txid, -, h⟩ := bind_ok.mp h
  obtain ⟨hex, hhex, h⟩ := bind_ok.mp h
  obtain ⟨raw, hraw, h⟩ := bind_ok.mp h
  obtain ⟨native, hnative, h⟩ := bind_ok.mp h
  split_ifs at h with hid
  obtain ⟨inputValues, hvin, h⟩ := bind_ok.mp h
  split_ifs at h with hinputs
  obtain ⟨inputs, hparsed, h⟩ := bind_ok.mp h
  obtain ⟨outputValues, -, h⟩ := bind_ok.mp h
  split_ifs at h with houtputs
  obtain ⟨outputs, houtput, h⟩ := bind_ok.mp h
  cases h
  rw [not_not] at hid hinputs houtputs
  refine ⟨native, ?_, hid.symm, rfl, ?_, object, inputValues, orElse_ok.mp hobject, orElse_ok.mp hvin, hinputs,
    mapM_zipIdx_ok hparsed⟩
  · exact nativeOf_some (orElse_ok.mp hobject) (requiredString_ok hhex) (orElse_ok.mp hraw) (orElse_ok.mp hnative)
  · have hall := (mapM_zipIdx_ok houtput).imp fun _ _ ⟨_, ho⟩ => output_parse_ok ho
    have heq : outputs = (outputValues.zip native.output).map fun x => ⟨x.2.value, x.2.scriptPubkey⟩ := by
      rw [← List.forall₂_eq_eq_eq, List.forall₂_map_right_iff]
      exact hall.flip
    rw [heq]
    conv_rhs => rw [← List.map_snd_zip (Nat.le_of_eq houtputs.symm), List.map_map]
    rfl

theorem locals_named (t : Transaction) : (t.locals lib).Named := by
  intro e he
  obtain ⟨x, -, rfl⟩ := List.mem_map.mp he
  rfl

theorem Locals.Named.append {a b : Locals} (ha : a.Named) (hb : b.Named) : Locals.Named (a ++ b) :=
  List.forall_mem_append.mpr ⟨ha, hb⟩

theorem ParsedFrom.spent_eq {height : BlockHeight} {locals : Locals} {value : Json} {native : NativeTransaction}
    {t : Transaction} (h : ParsedFrom lib height locals value native t) (hlocals : locals.Named) :
    t.spent = native.spent := by
  obtain ⟨object, values, -, -, hlen, hall⟩ := h.inputs
  have hinputs : List.Forall₂ (fun (o : Outpoint) (i : Input) =>
      i.previousOutput.toList.map (·.outpoint) = [o].filter (!·.isNull)) native.input t.inputs := by
    rw [← List.map_snd_zip (Nat.le_of_eq hlen.symm), List.forall₂_map_left_iff]
    refine hall.imp ?_
    rintro x i ⟨index, hparse⟩
    obtain ⟨hnull, rfl⟩ | ⟨hnull, -, object, p, -, hresolve, rfl⟩ := input_parse_ok hparse
    · simp [hnull]
    · simp [hnull, resolve_ok hlocals hresolve]
  rw [Transaction.spent, Transaction.previous, NativeTransaction.spent]
  clear hall hlen h
  obtain ⟨txid, input, output⟩ := native
  obtain ⟨id, inputs, outputs, coinbase⟩ := t
  simp only at hinputs ⊢
  induction hinputs with
  | nil => rfl
  | @cons o i os is hfirst _ ih =>
    have hcons : (i :: is).filterMap (·.previousOutput) = i.previousOutput.toList ++ is.filterMap (·.previousOutput) := by
      rw [List.filterMap_cons]
      cases i.previousOutput <;> rfl
    rw [hcons, List.map_append, hfirst, ih, ← List.filter_append]
    rfl

theorem parseAll_ok {height : BlockHeight} {ids : List TransactionId} {locals : Locals} {values : List Json}
    {ts : List Transaction} (hlocals : locals.Named) (h : parseAll lib height ids locals values = .ok ts) :
    List.Forall₂ (fun value t => ∃ native, nativeOf lib value = some native ∧ t.id = native.txid ∧
      t.spent = native.spent) values ts := by
  induction values generalizing ids locals ts with
  | nil =>
    cases h
    exact .nil
  | cons value rest ih =>
    obtain ⟨t, ht, h⟩ := bind_ok.mp h
    split_ifs at h
    obtain ⟨later, hlater, h⟩ := bind_ok.mp h
    cases h
    obtain ⟨native, hparsed⟩ := transaction_parse_ok ht
    exact .cons ⟨native, hparsed.decoded, hparsed.id_eq, hparsed.spent_eq hlocals⟩
      (ih ((locals_named t).append hlocals) hlater)

theorem parsed_eq {values : List Json} {ts : List Transaction} {natives : List NativeTransaction}
    (h : List.Forall₂ (fun value t => ∃ native, nativeOf lib value = some native ∧ t.id = native.txid ∧
      t.spent = native.spent) values ts) (hnatives : values.map (nativeOf lib) = natives.map some) :
    ts.map (fun t => (t.id, t.spent)) = natives.map fun n => (n.txid, n.spent) := by
  induction h generalizing natives with
  | nil =>
    rw [List.map_nil] at hnatives
    rw [List.map_eq_nil_iff.mp hnatives.symm]
    rfl
  | cons hfirst _ ih =>
    obtain ⟨native, hnative, hid, hspent⟩ := hfirst
    cases natives with
    | nil => simp at hnatives
    | cons n ns =>
      rw [List.map_cons, List.map_cons, List.cons.injEq, hnative, Option.some.injEq] at hnatives
      obtain ⟨rfl, hrest⟩ := hnatives
      rw [List.map_cons, List.map_cons, hid, hspent, ih hrest]

/-! ## Delivered blocks -/

theorem else_ok {ε α : Type} {c : Prop} [Decidable c] {e : ε} {x : Except ε α} {a : α} :
    (if c then .error e else x) = .ok a ↔ ¬ c ∧ x = .ok a := by
  split_ifs with hc <;> simp [hc]

theorem enrichIn_ok {node : Node} {order : List TransactionId → List TransactionId} {value out : Json} :
    enrichIn lib node order value = .ok out ↔ ∃ object, value.asObject = some object ∧
      ∃ values, (object.get "tx").bind Json.asArray = some values ∧ ∃ natives, decodeAll lib [] values = .ok natives ∧
      ∃ required, requiredPrevouts (natives.map (·.txid)) [] [] natives = .ok required ∧
      ¬ maxCompactPrevoutTotalBytes < required.length * maxCompactPrevoutJsonBytes ∧
      ∃ resolved, resolveIn lib node required (order (required.map (·.transactionId)).dedup) = .ok resolved ∧
      ∃ enriched, enrichAll resolved [] (natives.zip values) = .ok enriched ∧
        out = .object (object.insert "tx" (.array enriched)) := by
  simp only [enrichIn, bind_ok, orSource_ok, else_ok, pure_ok]

theorem block_parse_ok {value : Json} {expectedHeight : Option BlockHeight} {expectedHash : Option BlockHash}
    {block : Block} (h : Block.parse lib value expectedHeight expectedHash = .ok block) :
    ∃ object values, value.asObject = some object ∧ (object.get "tx").bind Json.asArray = some values ∧
      parseAll lib block.reference.height [] [] values = .ok block.transactions := by
  obtain ⟨object, hobject, h⟩ := bind_ok.mp h
  obtain ⟨height, -, h⟩ := bind_ok.mp h
  split at h
  · cases h
  obtain ⟨text, -, h⟩ := bind_ok.mp h
  obtain ⟨hash, -, h⟩ := bind_ok.mp h
  split at h
  · cases h
  split at h
  · cases h
  obtain ⟨parent, -, h⟩ := bind_ok.mp h
  obtain ⟨timestamp, -, h⟩ := bind_ok.mp h
  obtain ⟨values, hvalues, h⟩ := bind_ok.mp h
  obtain ⟨count, -, h⟩ := bind_ok.mp h
  split at h
  · cases h
  obtain ⟨transactions, htransactions, h⟩ := bind_ok.mp h
  cases h
  exact ⟨object, values, orElse_ok.mp hobject, orElse_ok.mp hvalues, htransactions⟩

theorem block_parse_enriched {object : Map} {enriched : List Json} {expectedHeight : Option BlockHeight}
    {expectedHash : Option BlockHash} {block : Block}
    (h : Block.parse lib (.object (object.insert "tx" (.array enriched))) expectedHeight expectedHash = .ok block) :
    parseAll lib block.reference.height [] [] enriched = .ok block.transactions := by
  obtain ⟨object', values, hobject, hvalues, hall⟩ := block_parse_ok h
  cases hobject
  rw [Json.get_insert_self] at hvalues
  cases hvalues
  exact hall

theorem fetchBlock_ok {node : Node} {height : BlockHeight} {block : Block} (h : fetchBlock lib node height = .ok block) :
    ∃ raw out hash, enrichPrevouts lib node raw = .ok out ∧ Block.parse lib out (some height) (some hash) = .ok block := by
  obtain ⟨hash, -, h⟩ := bind_ok.mp h
  obtain ⟨answer, -, h⟩ := bind_ok.mp h
  obtain ⟨raw, -, h⟩ := bind_ok.mp h
  obtain ⟨out, hout, h⟩ := bind_ok.mp h
  obtain ⟨parsed, hparsed, h⟩ := bind_ok.mp h
  obtain ⟨second, -, h⟩ := bind_ok.mp h
  split_ifs at h
  cases h
  exact ⟨raw, out, hash, hout, sourced_ok.mp hparsed⟩

/-- Requests complete in some order of the ids. -/
def Permutes (order : List TransactionId → List TransactionId) : Prop := ∀ ids, (order ids).Perm ids

/-- The source delivers the block, whatever order its requests complete in. -/
def Delivered (lib : Library) (block : Block) : Prop :=
  ∃ node order raw out height hash, Permutes order ∧ enrichIn lib node order raw = .ok out ∧
    Block.parse lib out (some height) (some hash) = .ok block

theorem fetchBlock_delivered {node : Node} {height : BlockHeight} {block : Block}
    (h : fetchBlock lib node height = .ok block) : Delivered lib block := by
  obtain ⟨raw, out, hash, hout, hparse⟩ := fetchBlock_ok h
  rw [enrichPrevouts_eq] at hout
  exact ⟨node, id, raw, out, height, hash, fun _ => .refl _, hout, hparse⟩

/-- **A delivered block.** Its transactions differ and spend outputs of earlier ones only. -/
theorem delivered_spendsEarlier {block : Block} (h : Delivered lib block) :
    (block.transactions.map (·.id)).Nodup ∧ SpendsEarlier block.transactions := by
  obtain ⟨node, order, raw, out, height, hash, -, henrich, hparse⟩ := h
  obtain ⟨object, -, values, -, natives, hdecoded, required, hplanned, -, resolved, -, enriched, henriched, rfl⟩ :=
    enrichIn_ok.mp henrich
  have hall := block_parse_enriched hparse
  obtain ⟨hnatives, hnodup, -⟩ := decodeAll_ok hdecoded
  have hlen : values.length = natives.length := by simpa using congrArg List.length hnatives
  have hearlier := requiredPrevouts_ok hplanned (fun t ht => List.mem_map_of_mem ht) hnodup (by simp)
  have hmap : enriched.map (nativeOf lib) = natives.map some := by
    rw [enrichAll_ok henriched, ← hnatives]
    conv_rhs => rw [← List.map_snd_zip (Nat.le_of_eq hlen), List.map_map]
    rfl
  have heq := parsed_eq (parseAll_ok (by simp [Locals.Named]) hall) hmap
  constructor
  · have hids := congrArg (List.map Prod.fst) heq
    rw [List.map_map, List.map_map] at hids
    exact hids ▸ hnodup
  · have hpairs : (natives.map fun n => (n.txid, n.spent)).Pairwise fun a b => ∀ o ∈ a.2, o.transactionId ≠ b.1 :=
      List.pairwise_map.mpr hearlier
    rw [← heq] at hpairs
    exact List.pairwise_map.mp hpairs

end PaymentSdk.Bitcoin.Indexer
