import Mathlib.Data.List.Nodup
import PaymentSdk.Bitcoin.Interpreter
import PaymentSdk.Lib.Checked

/-!
# What an inspected block changes

Closed forms of what `inspect` gathers. They hold of blocks whose transactions spend outputs of
earlier transactions only, as every block of the source does.
-/

open Checked

namespace PaymentSdk.Bitcoin.Indexer

/-! ## Closed forms of one transaction -/

def Transaction.previous (t : Transaction) : List PreviousOutput := t.inputs.filterMap (·.previousOutput)

def Transaction.spent (t : Transaction) : List Outpoint := t.previous.map (·.outpoint)

namespace Context

variable (ctx : Context)

def inputMovement (t : Transaction) (index : Nat) (previous : PreviousOutput) : ValueMovement :=
  .input ⟨vinId t.id index⟩ nativeAsset (satoshis previous.value)
    (previous.address.map (·.canonical ctx.scope))

/-- What a recipient gains. -/
def outputMovement (t : Transaction) (index : Nat) (output : Output) : ValueMovement :=
  .output ⟨voutId t.id index⟩ nativeAsset (satoshis output.value)
    ((ctx.lib.fromScript output.scriptPubkey).map (·.canonical ctx.scope))

/-- The required spend of a selected address. -/
def requiredKey (previous : PreviousOutput) : Option UtxoKey :=
  previous.address.bind fun a => if a ∈ ctx.addresses then some ⟨a, previous.outpoint⟩ else none

/-- The spend of an address that is not selected, and could have been. -/
def trackedKey (previous : PreviousOutput) : Option UtxoKey :=
  previous.address.bind fun a =>
    if a ∉ ctx.addresses ∧ (ctx.lib.scriptPubkey a).any isIndexed then some ⟨a, previous.outpoint⟩ else none

def createdOutput (t : Transaction) (index : Nat) (output : Output) : Option CreatedOutput :=
  (ctx.lib.fromScript output.scriptPubkey).bind fun a =>
    if a ∈ ctx.addresses then
      some { outpoint := ⟨t.id, UInt32.ofNat index⟩, value := output.value
             scriptPubkey := output.scriptPubkey, address := a
             createdHeight := ctx.height, coinbase := t.coinbase }
    else none

def required (t : Transaction) : List UtxoKey := t.previous.filterMap ctx.requiredKey

def tracked (t : Transaction) : List UtxoKey := t.previous.filterMap ctx.trackedKey

def created (t : Transaction) : List CreatedOutput :=
  t.outputs.zipIdx.filterMap fun x => ctx.createdOutput t x.2 x.1

def movements (t : Transaction) : List ValueMovement :=
  (t.inputs.zipIdx.filterMap fun x => x.1.previousOutput.map (ctx.inputMovement t x.2)) ++
    t.outputs.zipIdx.map fun x => ctx.outputMovement t x.2 x.1

end Context

variable {ctx : Context} {t : Transaction}

/-! ## Inputs -/

theorem recordPayer_eq (facts : TransactionFacts) (address : Option Address) :
    ∃ payer ambiguous, recordPayer facts address = { facts with payer, ambiguousPayer := ambiguous } := by
  unfold recordPayer
  split
  · split <;> exact ⟨_, _, rfl⟩
  · split <;> exact ⟨_, _, rfl⟩
  · exact ⟨_, _, rfl⟩

theorem recordSpend_ok {facts out : TransactionFacts} {previous : PreviousOutput}
    (h : recordSpend ctx facts previous = .ok out) :
    out.movements = facts.movements ∧ out.creates = facts.creates ∧
      out.relevant = (facts.relevant || (ctx.requiredKey previous).isSome) ∧
      out.spends = facts.spends ++ (ctx.requiredKey previous).toList ∧
      out.trackedSpends = facts.trackedSpends ++ (ctx.trackedKey previous).toList := by
  unfold recordSpend at h
  unfold Context.requiredKey Context.trackedKey
  cases haddress : previous.address with
  | none =>
    rw [haddress] at h
    cases h
    simp
  | some a =>
    simp only [haddress] at h
    by_cases hmem : a ∈ ctx.addresses
    · rw [if_pos hmem] at h
      cases h
      simp [hmem]
    · rw [if_neg hmem] at h
      cases hscript : ctx.lib.scriptPubkey a with
      | none =>
        rw [hscript] at h
        cases h
      | some script =>
        simp only [hscript] at h
        split_ifs at h with hindexed <;> cases h <;> simp [hmem, hscript, hindexed]

/-- What the inputs of a transaction add to its facts. -/
structure InputsAdd (ctx : Context) (t : Transaction) (inputs : List (Input × Nat))
    (before after : Spending) : Prop where
  creates : after.1.creates = before.1.creates
  relevant : after.1.relevant =
    (before.1.relevant || (inputs.filterMap (·.1.previousOutput)).any fun p => (ctx.requiredKey p).isSome)
  spends : after.1.spends = before.1.spends ++
    (inputs.filterMap (·.1.previousOutput)).filterMap ctx.requiredKey
  tracked : after.1.trackedSpends = before.1.trackedSpends ++
    (inputs.filterMap (·.1.previousOutput)).filterMap ctx.trackedKey
  movements : after.1.movements = before.1.movements ++
    inputs.filterMap fun x => x.1.previousOutput.map (ctx.inputMovement t x.2)
  spent : after.2 = ((inputs.filterMap (·.1.previousOutput)).map (·.outpoint)).reverse ++ before.2
  nodup : before.2.Nodup → after.2.Nodup

theorem factInput_ok {s out : Spending} {input : Input} {index : Nat}
    (h : factInput ctx t s input index = .ok out) : InputsAdd ctx t [(input, index)] s out := by
  unfold factInput at h
  cases hprevious : input.previousOutput with
  | none =>
    rw [hprevious] at h
    cases hcoinbase : t.coinbase <;> rw [hcoinbase] at h <;> cases h
    constructor <;> simp [hprevious]
  | some previous =>
    rw [hprevious] at h
    cases hcoinbase : t.coinbase <;> rw [hcoinbase] at h
    · simp only [factPreviousOutput] at h
      split_ifs at h with hspent htotal
      obtain ⟨facts, hfacts, h⟩ := bind_ok.mp h
      cases h
      obtain ⟨payer, ambiguous, hpayer⟩ := recordPayer_eq { s.1 with
        inputTotal := s.1.inputTotal + previous.value.toNat
        movements := s.1.movements ++ [ctx.inputMovement t index previous] } previous.address
      obtain ⟨hmovements, hcreates, hrelevant, hspends, htracked⟩ := recordSpend_ok (hpayer ▸ hfacts)
      constructor
      · exact hcreates
      · simpa [hprevious] using hrelevant
      · rw [hspends]
        cases hkey : ctx.requiredKey previous <;> simp [hprevious, hkey]
      · rw [htracked]
        cases hkey : ctx.trackedKey previous <;> simp [hprevious, hkey]
      · rw [hmovements]
        simp [hprevious]
      · simp [hprevious]
      · exact fun hnodup => List.nodup_cons.mpr ⟨hspent, hnodup⟩
    · cases h

theorem InputsAdd.trans {xs ys : List (Input × Nat)} {a b c : Spending}
    (hab : InputsAdd ctx t xs a b) (hbc : InputsAdd ctx t ys b c) : InputsAdd ctx t (xs ++ ys) a c where
  creates := hbc.creates.trans hab.creates
  relevant := by rw [hbc.relevant, hab.relevant, List.filterMap_append, List.any_append, Bool.or_assoc]
  spends := by rw [hbc.spends, hab.spends, List.filterMap_append, List.filterMap_append, List.append_assoc]
  tracked := by rw [hbc.tracked, hab.tracked, List.filterMap_append, List.filterMap_append, List.append_assoc]
  movements := by rw [hbc.movements, hab.movements, List.filterMap_append, List.append_assoc]
  spent := by
    rw [hbc.spent, hab.spent, List.filterMap_append, List.map_append, List.reverse_append, List.append_assoc]
  nodup := hbc.nodup ∘ hab.nodup

theorem factInputs_ok {inputs : List (Input × Nat)} {s out : Spending}
    (h : inputs.foldlM (fun s x => factInput ctx t s x.1 x.2) s = .ok out) : InputsAdd ctx t inputs s out := by
  induction inputs generalizing s with
  | nil =>
    cases h
    constructor <;> simp
  | cons x inputs ih =>
    rw [List.foldlM_cons] at h
    obtain ⟨middle, hmiddle, h⟩ := bind_ok.mp h
    exact (factInput_ok hmiddle).trans (ih h)

/-! ## Outputs -/

/-- What the outputs of a transaction add to its facts. -/
structure OutputsAdd (ctx : Context) (t : Transaction) (outputs : List (Output × Nat))
    (before after : TransactionFacts) : Prop where
  creates : after.creates = before.creates ++ outputs.filterMap fun x => ctx.createdOutput t x.2 x.1
  relevant : after.relevant = (before.relevant || outputs.any fun x => (ctx.createdOutput t x.2 x.1).isSome)
  spends : after.spends = before.spends
  tracked : after.trackedSpends = before.trackedSpends
  movements : after.movements = before.movements ++ outputs.map fun x => ctx.outputMovement t x.2 x.1
  bounded : ∀ x ∈ outputs, (ctx.createdOutput t x.2 x.1).isSome → x.2 < 2 ^ 32

theorem factOutput_ok {facts out : TransactionFacts} {output : Output} {index : Nat}
    (h : factOutput ctx t facts output index = .ok out) : OutputsAdd ctx t [(output, index)] facts out := by
  unfold factOutput at h
  split at h
  · cases h
  cases haddress : ctx.lib.fromScript output.scriptPubkey with
  | none =>
    simp only [haddress] at h
    cases h
    constructor <;> simp [Context.createdOutput, Context.outputMovement, haddress]
  | some a =>
    simp only [haddress] at h
    split_ifs at h with hmem hindex
    · cases h
      constructor <;> simp [Context.createdOutput, Context.outputMovement, haddress, hmem]
      omega
    · cases h
      constructor <;> simp [Context.createdOutput, Context.outputMovement, haddress, hmem]

theorem OutputsAdd.trans {xs ys : List (Output × Nat)} {a b c : TransactionFacts}
    (hab : OutputsAdd ctx t xs a b) (hbc : OutputsAdd ctx t ys b c) : OutputsAdd ctx t (xs ++ ys) a c where
  creates := by rw [hbc.creates, hab.creates, List.filterMap_append, List.append_assoc]
  relevant := by rw [hbc.relevant, hab.relevant, List.any_append, Bool.or_assoc]
  spends := hbc.spends.trans hab.spends
  tracked := hbc.tracked.trans hab.tracked
  movements := by rw [hbc.movements, hab.movements, List.map_append, List.append_assoc]
  bounded := List.forall_mem_append.mpr ⟨hab.bounded, hbc.bounded⟩

theorem factOutputs_ok {outputs : List (Output × Nat)} {facts out : TransactionFacts}
    (h : outputs.foldlM (fun facts x => factOutput ctx t facts x.1 x.2) facts = .ok out) :
    OutputsAdd ctx t outputs facts out := by
  induction outputs generalizing facts with
  | nil =>
    cases h
    constructor <;> simp
  | cons x outputs ih =>
    rw [List.foldlM_cons] at h
    obtain ⟨middle, hmiddle, h⟩ := bind_ok.mp h
    exact (factOutput_ok hmiddle).trans (ih h)

/-! ## Interpretation -/

theorem filterMap_fst_zipIdx {α β : Type} (l : List α) (f : α → Option β) :
    l.zipIdx.filterMap (fun x => f x.1) = l.filterMap f := by
  have hmap : l.zipIdx.map (·.1) = l := by simp
  conv_rhs => rw [← hmap, List.filterMap_map]
  rfl

/-- The transaction moves something of a selected address. -/
def Context.relevant (ctx : Context) (t : Transaction) : Bool :=
  ctx.required t ≠ [] ∨ ctx.created t ≠ []

structure Interpreted (ctx : Context) (t : Transaction) (before : List Outpoint)
    (out : InterpretedTransaction × List Outpoint) : Prop where
  creates : out.1.facts.creates = ctx.created t
  spends : out.1.facts.spends = ctx.required t
  tracked : out.1.facts.trackedSpends = ctx.tracked t
  movements : out.1.facts.movements = ctx.movements t
  relevant : out.1.facts.relevant = ctx.relevant t
  spent : out.2 = t.spent.reverse ++ before
  nodup : before.Nodup → out.2.Nodup
  bounded : ∀ x ∈ t.outputs.zipIdx, (ctx.createdOutput t x.2 x.1).isSome → x.2 < 2 ^ 32
  fee : finishFee ctx t out.1.facts = .ok out.1.fee

theorem any_isSome_filterMap {α β : Type} (l : List α) (f : α → Option β) :
    (l.any fun x => (f x).isSome) = decide (l.filterMap f ≠ []) := by
  rw [Bool.eq_iff_iff]
  simp [List.any_eq_true, Option.isSome_iff_ne_none]

theorem interpret_ok {before : List Outpoint} {out : InterpretedTransaction × List Outpoint}
    (h : interpret ctx t before = .ok out) : Interpreted ctx t before out := by
  obtain ⟨⟨middle, after⟩, hinputs, h⟩ := bind_ok.mp h
  obtain ⟨facts, houtputs, h⟩ := bind_ok.mp h
  obtain ⟨fee, hfee, h⟩ := bind_ok.mp h
  cases h
  have hin := factInputs_ok hinputs
  have hout := factOutputs_ok houtputs
  have hprevious : t.inputs.zipIdx.filterMap (·.1.previousOutput) = t.previous := filterMap_fst_zipIdx _ _
  constructor
  · rw [hout.creates, hin.creates]
    rfl
  · rw [hout.spends, hin.spends, hprevious]
    rfl
  · rw [hout.tracked, hin.tracked, hprevious]
    rfl
  · rw [hout.movements, hin.movements]
    rfl
  · rw [hout.relevant, hin.relevant, hprevious, any_isSome_filterMap, any_isSome_filterMap]
    exact (Bool.decide_or _ _).symm
  · rw [hin.spent, hprevious]
    rfl
  · exact hin.nodup
  · exact hout.bounded
  · exact hfee

/-! ## Outputs of a block -/

theorem create_all {cs : List CreatedOutput} {o out : Outputs} (h : cs.foldlM Outputs.create o = .ok out) :
    out = { o with creates := o.creates ++ cs } ∧
      ((o.creates.map (·.outpoint)).Nodup → (out.creates.map (·.outpoint)).Nodup) := by
  induction cs generalizing o with
  | nil =>
    cases h
    simp
  | cons c cs ih =>
    rw [List.foldlM_cons] at h
    obtain ⟨middle, hmiddle, h⟩ := bind_ok.mp h
    unfold Outputs.create at hmiddle
    split_ifs at hmiddle with hmem
    cases hmiddle
    obtain ⟨hout, hnodup⟩ := ih h
    refine ⟨by rw [hout, List.append_assoc]; rfl, fun hbefore => hnodup ?_⟩
    rw [List.map_append, List.nodup_append]
    refine ⟨hbefore, by simp, ?_⟩
    intro x hx y hy
    obtain rfl := List.mem_singleton.mp hy
    rintro rfl
    exact hmem hx

/-- What consuming keys with different outpoints leaves. -/
def consumed (creates : List CreatedOutput) (keys : List UtxoKey) : List CreatedOutput :=
  creates.filter fun c => c.outpoint ∉ keys.map (·.outpoint)

/-- Keys of outputs that the block does not create itself. -/
def external (creates : List CreatedOutput) (keys : List UtxoKey) : List UtxoKey :=
  keys.filter fun k => k.outpoint ∉ creates.map (·.outpoint)

theorem consume_all {message : String} {keys : List UtxoKey} {creates creates' : List CreatedOutput}
    {spends spends' : List UtxoKey} (hnodup : (keys.map (·.outpoint)).Nodup)
    (h : keys.foldlM (fun s k => Outputs.consume message s.1 s.2 k) (creates, spends) = .ok (creates', spends')) :
    creates' = consumed creates keys ∧ spends' = spends ++ external creates keys := by
  induction keys generalizing creates spends with
  | nil =>
    cases h
    simp [consumed, external]
  | cons k keys ih =>
    rw [List.map_cons, List.nodup_cons] at hnodup
    rw [List.foldlM_cons] at h
    obtain ⟨⟨c, s⟩, hmiddle, h⟩ := bind_ok.mp h
    obtain ⟨hcreates, hspends⟩ := ih hnodup.2 h
    unfold Outputs.consume at hmiddle
    split_ifs at hmiddle with hmem hdup <;> cases hmiddle
    · -- The outpoint was created: it is gone, and the later keys do not name it.
      constructor
      · rw [hcreates, consumed, consumed, List.filter_filter]
        apply List.filter_congr
        intro x _
        rw [List.map_cons]
        grind
      · rw [hspends, external, external, List.filter_cons_of_neg (by simpa using hmem)]
        congr 1
        apply List.filter_congr
        intro x hx
        have hne : x.outpoint ≠ k.outpoint := fun he => hnodup.1 (he ▸ List.mem_map_of_mem hx)
        congr 1
        simp only [List.mem_map, List.mem_filter, eq_iff_iff, not_iff_not]
        grind
    · constructor
      · rw [hcreates, consumed, consumed]
        apply List.filter_congr
        intro x hx
        have hne : x.outpoint ≠ k.outpoint := fun he => hmem (he ▸ List.mem_map_of_mem hx)
        rw [List.map_cons]
        grind
      · rw [hspends, external, external, List.filter_cons_of_pos (by simpa using hmem), List.append_assoc]
        rfl

theorem external_congr {A B : List CreatedOutput} {keys : List UtxoKey}
    (h : ∀ k ∈ keys, k.outpoint ∈ A.map (·.outpoint) ↔ k.outpoint ∈ B.map (·.outpoint)) :
    external A keys = external B keys := by
  apply List.filter_congr
  intro k hk
  rw [decide_eq_decide, not_iff_not]
  exact h k hk

theorem consumed_congr {creates : List CreatedOutput} {ks ls : List UtxoKey}
    (h : ∀ c ∈ creates, c.outpoint ∈ ks.map (·.outpoint) ↔ c.outpoint ∈ ls.map (·.outpoint)) :
    consumed creates ks = consumed creates ls := by
  apply List.filter_congr
  intro c hc
  rw [decide_eq_decide, not_iff_not]
  exact h c hc

theorem consumed_consumed (creates : List CreatedOutput) (ks ls : List UtxoKey) :
    consumed (consumed creates ks) ls = consumed creates (ks ++ ls) := by
  rw [consumed, consumed, consumed, List.filter_filter]
  apply List.filter_congr
  intro c _
  rw [List.map_append]
  grind

theorem mem_consumed {creates : List CreatedOutput} {keys : List UtxoKey} {o : Outpoint}
    (h : o ∉ keys.map (·.outpoint)) :
    o ∈ (consumed creates keys).map (·.outpoint) ↔ o ∈ creates.map (·.outpoint) := by
  simp only [consumed, List.mem_map, List.mem_filter]
  grind

theorem consume_into {message : String} (get : Outputs → List UtxoKey)
    (set : Outputs → List CreatedOutput → List UtxoKey → Outputs) {keys : List UtxoKey} {o out : Outputs}
    (hcreates : ∀ o c s, (set o c s).creates = c) (hget : ∀ o c s, get (set o c s) = s)
    (hset : ∀ o c s c' s', set (set o c s) c' s' = set o c' s') (hself : ∀ o, set o o.creates (get o) = o)
    (hnodup : (keys.map (·.outpoint)).Nodup)
    (h : keys.foldlM (fun o k => (fun x => set o x.1 x.2) <$> Outputs.consume message o.creates (get o) k) o =
      .ok out) :
    out = set o (consumed o.creates keys) (get o ++ external o.creates keys) := by
  have hlift : ∃ x, keys.foldlM (fun s k => Outputs.consume message s.1 s.2 k) (o.creates, get o) = .ok x ∧
      out = set o x.1 x.2 := by
    clear hnodup
    induction keys generalizing o with
    | nil =>
      cases h
      exact ⟨_, rfl, (hself _).symm⟩
    | cons k keys ih =>
      rw [List.foldlM_cons] at h
      obtain ⟨middle, hmiddle, h⟩ := bind_ok.mp h
      obtain ⟨x, hx, rfl⟩ := map_ok.mp hmiddle
      obtain ⟨y, hy, hout⟩ := ih h
      rw [hcreates, hget] at hy
      refine ⟨y, ?_, by rw [hout, hset]⟩
      rw [List.foldlM_cons]
      exact bind_ok.mpr ⟨x, hx, hy⟩
  obtain ⟨⟨c, s⟩, hfold, hout⟩ := hlift
  obtain ⟨rfl, rfl⟩ := consume_all hnodup hfold
  exact hout

theorem spend_all {keys : List UtxoKey} {o out : Outputs} (hnodup : (keys.map (·.outpoint)).Nodup)
    (h : keys.foldlM Outputs.spend o = .ok out) :
    out = { o with creates := consumed o.creates keys, spends := o.spends ++ external o.creates keys } :=
  consume_into Outputs.spends (fun o creates spends => { o with creates, spends })
    (fun _ _ _ => rfl) (fun _ _ _ => rfl) (fun _ _ _ _ _ => rfl) (fun _ => rfl) hnodup h

theorem track_all {keys : List UtxoKey} {o out : Outputs} (hnodup : (keys.map (·.outpoint)).Nodup)
    (h : keys.foldlM Outputs.track o = .ok out) :
    out = { o with creates := consumed o.creates keys
                   trackedSpends := o.trackedSpends ++ external o.creates keys } :=
  consume_into Outputs.trackedSpends (fun o creates trackedSpends => { o with creates, trackedSpends })
    (fun _ _ _ => rfl) (fun _ _ _ => rfl) (fun _ _ _ _ _ => rfl) (fun _ => rfl) hnodup h

theorem apply_ok {o out : Outputs} {facts : TransactionFacts}
    (hnodup : ((facts.spends ++ facts.trackedSpends).map (·.outpoint)).Nodup)
    (h : o.apply facts = .ok out) :
    out.creates = consumed (o.creates ++ facts.creates) (facts.spends ++ facts.trackedSpends) ∧
      out.spends = o.spends ++ external (o.creates ++ facts.creates) facts.spends ∧
      out.trackedSpends = o.trackedSpends ++ external (o.creates ++ facts.creates) facts.trackedSpends := by
  obtain ⟨a, ha, h⟩ := bind_ok.mp h
  obtain ⟨b, hb, h⟩ := bind_ok.mp h
  obtain ⟨rfl, -⟩ := create_all ha
  rw [List.map_append, List.nodup_append] at hnodup
  obtain ⟨hspends, htracked, hdisjoint⟩ := hnodup
  obtain rfl := spend_all hspends hb
  obtain rfl := track_all htracked h
  refine ⟨consumed_consumed _ _ _, rfl, congrArg _ (external_congr ?_)⟩
  intro k hk
  apply mem_consumed
  intro hmem
  exact hdisjoint _ hmem _ (List.mem_map_of_mem hk) rfl

/-! ## Keys and outpoints -/

theorem requiredKey_some {p : PreviousOutput} {k : UtxoKey} (h : ctx.requiredKey p = some k) :
    p.address = some k.address ∧ k.outpoint = p.outpoint ∧ k.address ∈ ctx.addresses := by
  obtain ⟨a, ha, h⟩ := Option.bind_eq_some_iff.mp h
  split_ifs at h with hmem
  cases h
  exact ⟨ha, rfl, hmem⟩

theorem trackedKey_some {p : PreviousOutput} {k : UtxoKey} (h : ctx.trackedKey p = some k) :
    p.address = some k.address ∧ k.outpoint = p.outpoint ∧ k.address ∉ ctx.addresses ∧
      (ctx.lib.scriptPubkey k.address).any isIndexed = true := by
  obtain ⟨a, ha, h⟩ := Option.bind_eq_some_iff.mp h
  split_ifs at h with hmem
  cases h
  exact ⟨ha, rfl, hmem⟩

theorem createdOutput_some {index : Nat} {output : Output} {c : CreatedOutput}
    (h : ctx.createdOutput t index output = some c) :
    ctx.lib.fromScript output.scriptPubkey = some c.address ∧ c.address ∈ ctx.addresses ∧
      c = { outpoint := ⟨t.id, UInt32.ofNat index⟩, value := output.value, scriptPubkey := output.scriptPubkey
            address := c.address, createdHeight := ctx.height, coinbase := t.coinbase } := by
  obtain ⟨a, ha, h⟩ := Option.bind_eq_some_iff.mp h
  split_ifs at h with hmem
  cases h
  exact ⟨ha, hmem, rfl⟩

theorem outpoint_of_created {c : CreatedOutput} (h : c ∈ ctx.created t) : c.outpoint.transactionId = t.id := by
  obtain ⟨x, -, hx⟩ := List.mem_filterMap.mp h
  rw [(createdOutput_some hx).2.2]

theorem mem_required {k : UtxoKey} (h : k ∈ ctx.required t) : k.outpoint ∈ t.spent := by
  obtain ⟨p, hp, hk⟩ := List.mem_filterMap.mp h
  rw [(requiredKey_some hk).2.1]
  exact List.mem_map_of_mem hp

theorem mem_tracked {k : UtxoKey} (h : k ∈ ctx.tracked t) : k.outpoint ∈ t.spent := by
  obtain ⟨p, hp, hk⟩ := List.mem_filterMap.mp h
  rw [(trackedKey_some hk).2.1]
  exact List.mem_map_of_mem hp

theorem filterMap_outpoint_sublist {f : PreviousOutput → Option UtxoKey} (ps : List PreviousOutput)
    (hf : ∀ p k, f p = some k → k.outpoint = p.outpoint) :
    ((ps.filterMap f).map (·.outpoint)).Sublist (ps.map (·.outpoint)) := by
  induction ps with
  | nil => exact .slnil
  | cons p ps ih =>
    cases hp : f p with
    | none =>
      rw [List.filterMap_cons_none hp]
      exact ih.cons _
    | some k =>
      rw [List.filterMap_cons_some hp, List.map_cons, List.map_cons, hf p k hp]
      exact ih.cons_cons _

theorem keys_nodup (h : t.spent.Nodup) :
    ((ctx.required t ++ ctx.tracked t).map (·.outpoint)).Nodup := by
  rw [List.map_append, List.nodup_append]
  refine ⟨?_, ?_, ?_⟩
  · exact h.sublist (filterMap_outpoint_sublist _ fun _ _ hk => (requiredKey_some hk).2.1)
  · exact h.sublist (filterMap_outpoint_sublist _ fun _ _ hk => (trackedKey_some hk).2.1)
  · rintro x hx y hy rfl
    obtain ⟨k, hk, rfl⟩ := List.mem_map.mp hx
    obtain ⟨l, hl, heq⟩ := List.mem_map.mp hy
    obtain ⟨p, hp, hpk⟩ := List.mem_filterMap.mp hk
    obtain ⟨q, hq, hql⟩ := List.mem_filterMap.mp hl
    obtain ⟨hpa, hpo, hmem⟩ := requiredKey_some hpk
    obtain ⟨hqa, hqo, hnot, -⟩ := trackedKey_some hql
    have hpq : p = q := List.inj_on_of_nodup_map h hp hq (by rw [← hpo, ← hqo, heq])
    rw [hpq, hqa] at hpa
    exact hnot (Option.some.inj hpa ▸ hmem)

/-! ## The block -/

/-- No transaction spends an output of a later one. -/
def SpendsEarlier (ts : List Transaction) : Prop :=
  ts.Pairwise fun a b => ∀ o ∈ a.spent, o.transactionId ≠ b.id

/-- The draft of a relevant transaction. -/
structure DraftOf (ctx : Context) (t : Transaction) (d : ObservationDraft) : Prop where
  eq : d = { scope := ctx.scope, transactionId := t.id.canonical ctx.scope, status := .included
             movements := ctx.movements t, fee := d.fee }
  fee : ∃ facts, finishFee ctx t facts = .ok d.fee

/-- What has been gathered is that of the transactions so far. -/
structure GatheredFrom (ctx : Context) (ts : List Transaction) (g : Gathered) : Prop where
  transactions : List.Forall₂ (DraftOf ctx) (ts.filter ctx.relevant) g.transactions
  creates : g.outputs.creates =
    consumed (ts.flatMap ctx.created) (ts.flatMap ctx.required ++ ts.flatMap ctx.tracked)
  spends : g.outputs.spends = external (ts.flatMap ctx.created) (ts.flatMap ctx.required)
  tracked : g.outputs.trackedSpends = external (ts.flatMap ctx.created) (ts.flatMap ctx.tracked)
  spent : g.spent = (ts.flatMap Transaction.spent).reverse
  nodup : g.spent.Nodup
  bounded : ∀ t ∈ ts, ∀ x ∈ t.outputs.zipIdx, (ctx.createdOutput t x.2 x.1).isSome → x.2 < 2 ^ 32

theorem consumed_step {C D : List CreatedOutput} {ks ls ms : List UtxoKey}
    (hms : ∀ o, o ∈ ms.map (·.outpoint) ↔ o ∈ ks.map (·.outpoint) ∨ o ∈ ls.map (·.outpoint))
    (hD : ∀ c ∈ D, c.outpoint ∉ ks.map (·.outpoint)) :
    consumed (consumed C ks ++ D) ls = consumed (C ++ D) ms := by
  have hsplit : ∀ (A B : List CreatedOutput) (keys : List UtxoKey),
      consumed (A ++ B) keys = consumed A keys ++ consumed B keys := fun _ _ _ => List.filter_append ..
  rw [hsplit, hsplit, consumed_consumed]
  congr 1
  · apply consumed_congr
    intro c _
    rw [hms, List.map_append, List.mem_append]
  · apply consumed_congr
    intro c hc
    rw [hms]
    exact ⟨Or.inr, fun h => h.resolve_left (hD c hc)⟩

theorem external_step {C D : List CreatedOutput} {ks ls consumedBy : List UtxoKey}
    (hD : ∀ c ∈ D, c.outpoint ∉ ks.map (·.outpoint))
    (hls : ∀ k ∈ ls, k.outpoint ∉ consumedBy.map (·.outpoint)) :
    external C ks ++ external (consumed C consumedBy ++ D) ls = external (C ++ D) (ks ++ ls) := by
  have hsplit : external (C ++ D) (ks ++ ls) = external (C ++ D) ks ++ external (C ++ D) ls :=
    List.filter_append ..
  rw [hsplit]
  congr 1
  · apply external_congr
    intro k hk
    rw [List.map_append, List.mem_append]
    refine ⟨Or.inl, fun h => h.resolve_right ?_⟩
    intro hmem
    obtain ⟨c, hc, heq⟩ := List.mem_map.mp hmem
    exact hD c hc (heq ▸ List.mem_map_of_mem hk)
  · apply external_congr
    intro k hk
    rw [List.map_append, List.map_append, List.mem_append, List.mem_append, mem_consumed (hls k hk)]

theorem gatheredFrom_nil : GatheredFrom ctx [] {} where
  transactions := .nil
  creates := rfl
  spends := rfl
  tracked := rfl
  spent := rfl
  nodup := List.nodup_nil
  bounded := by simp

theorem inspectTransaction_ok {front : List Transaction} {g out : Gathered}
    (hfront : GatheredFrom ctx front g)
    (hlater : ∀ a ∈ front, ∀ o ∈ a.spent, o.transactionId ≠ t.id)
    (h : inspectTransaction ctx g t = .ok out) : GatheredFrom ctx (front ++ [t]) out := by
  obtain ⟨⟨interpreted, spent⟩, hinterpret, h⟩ := bind_ok.mp h
  obtain ⟨outputs, happly, h⟩ := bind_ok.mp h
  cases h
  have hfacts := interpret_ok hinterpret
  have hspent : spent = t.spent.reverse ++ g.spent := hfacts.spent
  have hrelevant : interpreted.facts.relevant = ctx.relevant t := hfacts.relevant
  have hnodup : (t.spent.reverse ++ g.spent).Nodup := hspent ▸ hfacts.nodup hfront.nodup
  have hkeys : ((interpreted.facts.spends ++ interpreted.facts.trackedSpends).map (·.outpoint)).Nodup := by
    rw [hfacts.spends, hfacts.tracked]
    exact keys_nodup (List.nodup_reverse.mp (List.nodup_append.mp hnodup).1)
  obtain ⟨hcreates, hspends, htracked⟩ := apply_ok hkeys happly
  rw [hfacts.creates, hfacts.spends, hfacts.tracked, hfront.creates] at hcreates
  rw [hfacts.creates, hfacts.spends, hfront.creates, hfront.spends] at hspends
  rw [hfacts.creates, hfacts.tracked, hfront.creates, hfront.tracked] at htracked
  -- The keys of `t` are not those of an earlier transaction, whose keys are not outputs of `t`.
  have hearlier : ∀ o ∈ (front.flatMap ctx.required ++ front.flatMap ctx.tracked).map (·.outpoint),
      ∃ a ∈ front, o ∈ a.spent := by
    intro o ho
    obtain ⟨k, hk, rfl⟩ := List.mem_map.mp ho
    rcases List.mem_append.mp hk with hk | hk
    · obtain ⟨a, ha, hk⟩ := List.mem_flatMap.mp hk
      exact ⟨a, ha, mem_required hk⟩
    · obtain ⟨a, ha, hk⟩ := List.mem_flatMap.mp hk
      exact ⟨a, ha, mem_tracked hk⟩
  have hfresh : ∀ o ∈ t.spent,
      o ∉ (front.flatMap ctx.required ++ front.flatMap ctx.tracked).map (·.outpoint) := by
    intro o ho hmem
    obtain ⟨a, ha, hoa⟩ := hearlier o hmem
    refine (List.nodup_append.mp hnodup).2.2 o (List.mem_reverse.mpr ho) o ?_ rfl
    rw [hfront.spent, List.mem_reverse]
    exact List.mem_flatMap.mpr ⟨a, ha, hoa⟩
  have hcreated : ∀ c ∈ ctx.created t,
      c.outpoint ∉ (front.flatMap ctx.required ++ front.flatMap ctx.tracked).map (·.outpoint) := by
    intro c hc hmem
    obtain ⟨a, ha, hoa⟩ := hearlier _ hmem
    exact hlater a ha _ hoa (outpoint_of_created hc)
  constructor
  · rw [List.filter_append, hrelevant]
    cases ht : ctx.relevant t with
    | false => simpa [ht] using hfront.transactions
    | true =>
      have hdraft : DraftOf ctx t
          { scope := ctx.scope, transactionId := t.id.canonical ctx.scope, status := .included
            movements := interpreted.facts.movements, fee := interpreted.fee } :=
        ⟨by rw [hfacts.movements], _, hfacts.fee⟩
      simpa [ht] using List.rel_append hfront.transactions (.cons hdraft .nil)
  · -- Created: a later spend of the block takes the output out again.
    rw [hcreates]
    simp only [List.flatMap_append, List.flatMap_singleton]
    refine consumed_step ?_ hcreated
    intro o
    simp only [List.map_append, List.mem_append]
    tauto
  · -- Required: only of outputs from outside the block.
    rw [hspends]
    simp only [List.flatMap_append, List.flatMap_singleton]
    refine external_step ?_ fun k hk => hfresh _ (mem_required hk)
    intro c hc hmem
    exact hcreated c hc (by rw [List.map_append]; exact List.mem_append_left _ hmem)
  · rw [htracked]
    simp only [List.flatMap_append, List.flatMap_singleton]
    refine external_step ?_ fun k hk => hfresh _ (mem_tracked hk)
    intro c hc hmem
    exact hcreated c hc (by rw [List.map_append]; exact List.mem_append_right _ hmem)
  · rw [hspent, hfront.spent]
    simp
  · exact hfacts.nodup hfront.nodup
  · exact List.forall_mem_append.mpr ⟨hfront.bounded, by simpa using hfacts.bounded⟩

theorem gather_ok {ts : List Transaction} {g : Gathered} (hearlier : SpendsEarlier ts)
    (h : ts.foldlM (inspectTransaction ctx) {} = .ok g) : GatheredFrom ctx ts g := by
  refine foldlM_keeps gatheredFrom_nil ?_ h
  intro front t rest middle after hts hfront hstep
  subst hts
  refine inspectTransaction_ok hfront ?_ hstep
  intro a ha
  exact (List.pairwise_append.mp hearlier).2.2 a ha t List.mem_cons_self

end PaymentSdk.Bitcoin.Indexer
