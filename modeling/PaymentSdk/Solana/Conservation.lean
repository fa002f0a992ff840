import PaymentSdk.Lib.Checked
import PaymentSdk.Lib.Fields
import PaymentSdk.Solana.Interpreter

/-!
# What an inspected block conserves

A transaction of a block moves lamports by its System transfers and its fee. Where an
inspection succeeds, these explain every balance change of a selected address, and what is
recorded for fewer addresses is what was recorded for them among more.
-/

open Checked

namespace PaymentSdk.Solana.Interpretation

open Slots (Block)

/-! ## Transfers of a transaction -/

structure Transfer where
  source : Address
  destination : Address
  lamports : UInt64
  deriving DecidableEq

/-- The System transfer that an instruction is. -/
def Instruction.systemTransfer (codec : Codec) (t : Transaction) (i : Instruction t.keys.length) :
    Option Transfer :=
  if t.key i.program ≠ codec.systemId then none
  else match (Base58.decode i.data).bind codec.deserialize, i.accounts with
    | some (.transfer lamports), source :: destination :: _ =>
      some ⟨t.key source, t.key destination, lamports⟩
    | some (.transferWithSeed lamports _ _), source :: _ :: destination :: _ =>
      some ⟨t.key source, t.key destination, lamports⟩
    | _, _ => none

/-- A transfer of nothing is not one. -/
def Instruction.transfer (codec : Codec) (t : Transaction) (i : Instruction t.keys.length) :
    Option Transfer :=
  (Instruction.systemTransfer codec t i).filter (·.lamports ≠ 0)

/-- Every instruction of a transaction: each outer one, then those it called. -/
def Transaction.calls (t : Transaction) : List (Instruction t.keys.length) :=
  t.instructions.zipIdx.flatMap fun (i, outer) => i :: t.innerAt outer

def Transaction.transfers (codec : Codec) (t : Transaction) : List Transfer :=
  t.calls.filterMap (Instruction.transfer codec t)

def Movement.transfer (m : Movement) : Transfer := ⟨m.source, m.destination, m.lamports⟩

theorem systemInstruction_ok {codec : Codec} {text : String} {system : SystemInstruction}
    (h : systemInstruction codec text = .ok system) :
    (Base58.decode text).bind codec.deserialize = some system := by
  unfold systemInstruction at h
  cases hdata : Base58.decode text with
  | none =>
    rw [hdata] at h
    cases h
  | some data =>
    simp only [hdata] at h
    rw [Option.bind_some]
    cases hsystem : codec.deserialize data with
    | none =>
      rw [hsystem] at h
      split_ifs at h
    | some system' =>
      rw [hsystem] at h
      simp only at h
      split_ifs at h
      cases h
      rfl

theorem decode_movement {codec : Codec} {t : Transaction} {i : Instruction t.keys.length} {id : String}
    {o : Option Movement} (h : Movement.decode codec t i id = .ok o) :
    o.map Movement.transfer = Instruction.transfer codec t i ∧ ∀ m ∈ o, m.id = id := by
  unfold Movement.decode at h
  unfold Instruction.transfer Instruction.systemTransfer
  split_ifs at h with hprogram
  · cases h
    rw [if_pos hprogram]
    simp
  · rw [if_neg hprogram]
    obtain ⟨system, hsystem, h⟩ := bind_ok.mp h
    obtain ⟨transfer, htransfer, h⟩ := bind_ok.mp h
    rw [systemInstruction_ok hsystem]
    -- Only a transfer with enough accounts is left, and it is dropped when it is of zero.
    cases system with
    | transfer lamports =>
      rcases haccounts : i.accounts with _ | ⟨source, _ | ⟨destination, rest⟩⟩ <;>
        rw [haccounts] at htransfer <;> cases htransfer
      simp only at h ⊢
      split_ifs at h with hzero <;> cases h <;> simp [hzero, Movement.transfer, Option.filter]
    | transferWithSeed lamports seed owner =>
      rcases haccounts : i.accounts with _ | ⟨source, _ | ⟨base, _ | ⟨destination, rest⟩⟩⟩ <;>
        rw [haccounts] at htransfer <;> cases htransfer
      simp only at h ⊢
      split_ifs at h with hzero <;> cases h <;> simp [hzero, Movement.transfer, Option.filter]
    | other tag content =>
      cases htransfer
      cases h
      simp

/-! ## Labels -/

/-- The ids that the movements of one outer instruction and its group can have. -/
def groupLabels (t : Transaction) (outer : Nat) : List String :=
  outerId t.signature outer :: (t.innerAt outer).zipIdx.map fun x => innerId t.signature outer x.2

def labels (t : Transaction) : List String :=
  t.instructions.zipIdx.flatMap fun x => groupLabels t x.2

theorem decode_list {codec : Codec} {t : Transaction} {is : List (Instruction t.keys.length)}
    {label : Nat → String} {start : Nat} {os : List (Option Movement)}
    (h : (is.zipIdx start).mapM (fun x => Movement.decode codec t x.1 (label x.2)) = .ok os) :
    (os.flatMap Option.toList).map Movement.transfer = is.filterMap (Instruction.transfer codec t) ∧
      ((os.flatMap Option.toList).map (·.id)).Sublist ((is.zipIdx start).map fun x => label x.2) := by
  induction is generalizing start os with
  | nil =>
    cases h
    simp
  | cons i is ih =>
    rw [List.zipIdx_cons, List.mapM_cons] at h
    obtain ⟨o, ho, h⟩ := bind_ok.mp h
    obtain ⟨os, hos, h⟩ := bind_ok.mp h
    cases h
    obtain ⟨htransfers, hids⟩ := ih hos
    obtain ⟨htransfer, hid⟩ := decode_movement ho
    rw [List.filterMap_cons, ← htransfer, List.flatMap_cons, List.map_append, List.map_append,
      List.zipIdx_cons, List.map_cons, htransfers]
    cases o with
    | none => exact ⟨rfl, hids.cons _⟩
    | some m =>
      rw [← hid m rfl]
      exact ⟨rfl, hids.cons_cons _⟩

theorem decodeGroup_ok {codec : Codec} {t : Transaction} {outer : Nat} {i : Instruction t.keys.length}
    {ms : List Movement} (h : Movements.decodeGroup codec t outer i = .ok ms) :
    ms.map Movement.transfer = (i :: t.innerAt outer).filterMap (Instruction.transfer codec t) ∧
      (ms.map (·.id)).Sublist (groupLabels t outer) := by
  obtain ⟨first, hfirst, h⟩ := bind_ok.mp h
  obtain ⟨rest, hrest, h⟩ := bind_ok.mp h
  cases h
  obtain ⟨htransfer, hid⟩ := decode_movement hfirst
  obtain ⟨htransfers, hids⟩ := decode_list hrest
  rw [List.filterMap_cons, ← htransfer, List.map_append, List.map_append, htransfers, groupLabels]
  cases first with
  | none => exact ⟨rfl, hids.cons _⟩
  | some m =>
    rw [← hid m rfl]
    exact ⟨rfl, hids.cons_cons _⟩

theorem decode_ok {codec : Codec} {t : Transaction} {ms : List Movement}
    (h : Movements.decode codec t = .ok ms) :
    ms.map Movement.transfer = t.transfers codec ∧ (ms.map (·.id)).Sublist (labels t) := by
  obtain ⟨groups, hgroups, h⟩ := bind_ok.mp h
  cases h
  have hall := mapM_ok.mp hgroups
  unfold Transaction.transfers Transaction.calls labels
  clear h hgroups
  generalize t.instructions.zipIdx = indexed at hall
  induction hall with
  | nil => simp
  | cons hgroup _ ih =>
    obtain ⟨htransfers, hids⟩ := decodeGroup_ok hgroup
    simp only [List.flatten_cons, List.map_append, List.flatMap_cons, List.filterMap_append]
    exact ⟨congrArg₂ _ htransfers ih.1, hids.append ih.2⟩

/-! ## Labels are unique in a block -/

def label (signature : Text) (outer : Nat) : Option Nat → String
  | none => outerId signature outer
  | some ordinal => innerId signature outer ordinal

def labelFields (signature : Text) (outer : Nat) : Option Nat → List (List Char)
  | none => [signature.str.toList, "ix".toList, (toString outer).toList]
  | some ordinal =>
    [signature.str.toList, "ix".toList, (toString outer).toList, "inner".toList, (toString ordinal).toList]

theorem label_fields (signature : Text) (outer : Nat) (ordinal : Option Nat) :
    (label signature outer ordinal).toList = Fields.join ':' (labelFields signature outer ordinal) := by
  cases ordinal <;>
    simp [label, labelFields, outerId, innerId, Fields.join, List.intercalate, String.toList_append]

theorem label_inj {s s' : Text} {outer outer' : Nat} {ordinal ordinal' : Option Nat}
    (hs : ':' ∉ s.str.toList) (hs' : ':' ∉ s'.str.toList)
    (h : label s outer ordinal = label s' outer' ordinal') :
    s = s' ∧ outer = outer' ∧ ordinal = ordinal' := by
  have hfree : ∀ (s : Text) (outer : Nat) (ordinal : Option Nat), ':' ∉ s.str.toList →
      ∀ field ∈ labelFields s outer ordinal, ':' ∉ field := by
    intro s outer ordinal hs field hfield
    have hdigits : ∀ n : Nat, ':' ∉ (toString n).toList := Fields.not_mem_toString (by decide)
    cases ordinal <;> simp only [labelFields, List.mem_cons, List.not_mem_nil, or_false] at hfield
    · rcases hfield with rfl | rfl | rfl
      exacts [hs, by decide, hdigits _]
    · rcases hfield with rfl | rfl | rfl | rfl | rfl
      exacts [hs, by decide, hdigits _, by decide, hdigits _]
  have hne : ∀ (s : Text) (outer : Nat) (ordinal : Option Nat), labelFields s outer ordinal ≠ [] := by
    intro s outer ordinal
    cases ordinal <;> simp [labelFields]
  have hlists := congrArg String.toList h
  rw [label_fields, label_fields] at hlists
  have hfields := Fields.join_inj (hfree s outer ordinal hs) (hfree s' outer' ordinal' hs')
    (hne _ _ _) (hne _ _ _) hlists
  cases ordinal with
  | none =>
    cases ordinal' with
    | none =>
      simp only [labelFields, List.cons.injEq] at hfields
      exact ⟨Text.ext (String.toList_inj.mp hfields.1), Fields.toString_inj hfields.2.2.1, rfl⟩
    | some _ => simp [labelFields] at hfields
  | some n =>
    cases ordinal' with
    | none => simp [labelFields] at hfields
    | some n' =>
      simp only [labelFields, List.cons.injEq] at hfields
      exact ⟨Text.ext (String.toList_inj.mp hfields.1), Fields.toString_inj hfields.2.2.1,
        congrArg some (Fields.toString_inj hfields.2.2.2.2.1)⟩

theorem map_snd_zipIdx {α : Type} (l : List α) : l.zipIdx.map (·.2) = List.range l.length := by
  rw [List.zipIdx_map_snd, List.range_eq_range']

theorem groupLabels_nodup {t : Transaction} (h : ':' ∉ t.signature.str.toList) (outer : Nat) :
    (groupLabels t outer).Nodup := by
  have hinner : ((t.innerAt outer).zipIdx.map fun x => innerId t.signature outer x.2) =
      (List.range (t.innerAt outer).length).map (innerId t.signature outer) := by
    rw [← map_snd_zipIdx, List.map_map]
    rfl
  rw [groupLabels, hinner, List.nodup_cons]
  constructor
  · intro hmem
    obtain ⟨ordinal, -, heq⟩ := List.mem_map.mp hmem
    have hlabels : label t.signature outer (some ordinal) = label t.signature outer none := heq
    cases (label_inj h h hlabels).2.2
  · refine List.nodup_range.map ?_
    intro ordinal ordinal' heq
    have hlabels : label t.signature outer (some ordinal) = label t.signature outer (some ordinal') := heq
    exact Option.some.inj (label_inj h h hlabels).2.2

theorem mem_groupLabels {t : Transaction} {outer : Nat} {id : String} (h : id ∈ groupLabels t outer) :
    ∃ ordinal, id = label t.signature outer ordinal := by
  rcases List.mem_cons.mp h with rfl | h
  · exact ⟨none, rfl⟩
  · obtain ⟨y, -, rfl⟩ := List.mem_map.mp h
    exact ⟨some y.2, rfl⟩

theorem labels_nodup {t : Transaction} (h : ':' ∉ t.signature.str.toList) : (labels t).Nodup := by
  have hrange : labels t = (List.range t.instructions.length).flatMap (groupLabels t) := by
    rw [← map_snd_zipIdx, List.flatMap_map]
    rfl
  rw [hrange, List.nodup_flatMap]
  refine ⟨fun outer _ => groupLabels_nodup h outer, ?_⟩
  refine List.nodup_range.imp ?_
  intro outer outer' hne id hid hid'
  obtain ⟨ordinal, rfl⟩ := mem_groupLabels hid
  obtain ⟨ordinal', heq⟩ := mem_groupLabels hid'
  exact hne (label_inj h h heq).2.1

theorem mem_labels {t : Transaction} {id : String} (h : id ∈ labels t) :
    ∃ outer ordinal, id = label t.signature outer ordinal := by
  obtain ⟨x, -, h⟩ := List.mem_flatMap.mp h
  obtain ⟨ordinal, rfl⟩ := mem_groupLabels h
  exact ⟨x.2, ordinal, rfl⟩

/-! ## Parsed transactions -/

theorem parseSignature_ok {text s : Text} (h : parseSignature text = .ok s) : ':' ∉ s.str.toList := by
  unfold parseSignature at h
  cases hbytes : Base58.decode text.str with
  | none =>
    rw [hbytes] at h
    cases h
  | some bytes =>
    simp only [hbytes] at h
    split_ifs at h with hlength hencode
    cases h
    rw [← not_not.mp hencode]
    intro hmem
    exact absurd (Base58.encode_mem hmem) (by decide)

theorem assemble_ok {signature : Text} {message : MessageWire} {metadata : MetaWire}
    {keys : List AccountKey} {t : Transaction} (h : assemble signature message metadata keys = .ok t) :
    t.signature = signature := by
  unfold assemble at h
  iterate 3
    split at h
    · cases h
  obtain ⟨instructions, -, h⟩ := bind_ok.mp h
  obtain ⟨inner, -, h⟩ := bind_ok.mp h
  split_ifs at h
  cases h
  rfl

theorem parse_ok {wire : TransactionWire} {t : Transaction} (h : Transaction.parse wire = .ok t) :
    ':' ∉ t.signature.str.toList := by
  obtain ⟨version, -, h⟩ := bind_ok.mp h
  obtain ⟨⟨⟩, -, h⟩ := bind_ok.mp h
  obtain ⟨signatures, hsignatures, h⟩ := bind_ok.mp h
  obtain ⟨fixed, -, h⟩ := bind_ok.mp h
  cases hmetadata : wire.metadata with
  | none =>
    rw [hmetadata] at h
    cases h
  | some metadata =>
    rw [hmetadata] at h
    cases signatures with
    | nil => cases h
    | cons signature rest =>
      obtain ⟨loaded, -, h⟩ := bind_ok.mp h
      rw [assemble_ok h]
      obtain ⟨text, -, htext⟩ := mem_mapM hsignatures List.mem_cons_self
      exact parseSignature_ok htext

theorem parseAll_ok {seen : List Text} {wires : List TransactionWire} {ts : List Transaction}
    (h : parseAll seen wires = .ok ts) :
    (∀ t ∈ ts, ':' ∉ t.signature.str.toList) ∧ (ts.map (·.signature)).Nodup ∧
      ∀ t ∈ ts, t.signature ∉ seen := by
  induction wires generalizing seen ts with
  | nil =>
    cases h
    simp
  | cons wire rest ih =>
    obtain ⟨t, ht, h⟩ := bind_ok.mp h
    split_ifs at h with hseen
    obtain ⟨ts, hts, h⟩ := bind_ok.mp h
    cases h
    obtain ⟨hfree, hnodup, hfresh⟩ := ih hts
    refine ⟨?_, ?_, ?_⟩
    · exact List.forall_mem_cons.mpr ⟨parse_ok ht, hfree⟩
    · rw [List.map_cons, List.nodup_cons]
      refine ⟨?_, hnodup⟩
      intro hmem
      obtain ⟨t', ht', heq⟩ := List.mem_map.mp hmem
      exact hfresh t' ht' (heq ▸ List.mem_cons_self)
    · refine List.forall_mem_cons.mpr ⟨hseen, ?_⟩
      intro t' ht' hmem
      exact hfresh t' ht' (List.mem_cons_of_mem _ hmem)

theorem blockLabels_nodup {ts : List Transaction} (hfree : ∀ t ∈ ts, ':' ∉ t.signature.str.toList)
    (hnodup : (ts.map (·.signature)).Nodup) : (ts.flatMap labels).Nodup := by
  rw [List.nodup_flatMap]
  refine ⟨fun t ht => labels_nodup (hfree t ht), ?_⟩
  refine (List.pairwise_map.mp hnodup).imp_of_mem ?_
  intro t t' ht ht' hne id hid hid'
  obtain ⟨outer, ordinal, rfl⟩ := mem_labels hid
  obtain ⟨outer', ordinal', heq⟩ := mem_labels hid'
  exact hne (label_inj (hfree t ht) (hfree t' ht') heq).1

/-! ## Selections -/

theorem parseAddress_addressText (a : Address) : parseAddress (addressText a).str = some a := by
  have hdecode : Base58.decode (addressText a).str = some a.bytes := Base58.decode_encode a.bytes
  simp [parseAddress, hdecode, Address.ofBytes, a.size]

theorem parseAddress_some {text : String} {a : Address} (h : parseAddress text = some a) :
    (addressText a).str = text := by
  unfold parseAddress at h
  cases hparse : (Base58.decode text).bind Address.ofBytes with
  | none =>
    rw [hparse] at h
    cases h
  | some address =>
    simp only [hparse] at h
    split_ifs at h with hcanonical
    cases h
    exact not_not.mp hcanonical

theorem canonical_inj {scope : IndexScope} {a b : Address} (h : canonical scope a = canonical scope b) :
    a = b := by
  have htext : (addressText a).str = (addressText b).str := congrArg (·.value.str) h
  have ha := parseAddress_addressText a
  rw [htext, parseAddress_addressText b] at ha
  exact (Option.some.inj ha).symm

theorem selectedOne_ok {scope : IndexScope} {c : CanonicalAddress} {a : Address} :
    selectedOne scope c = .ok a ↔ c = canonical scope a := by
  unfold selectedOne
  constructor
  · intro h
    split_ifs at h with hscope
    cases hparse : parseAddress c.value.str with
    | none =>
      rw [hparse] at h
      cases h
    | some a' =>
      rw [hparse] at h
      cases h
      obtain ⟨cscope, value⟩ := c
      obtain rfl : cscope = scope := by simpa [CanonicalAddress.belongsTo] using hscope
      rw [canonical, Text.ext (parseAddress_some hparse)]
  · rintro rfl
    simp [CanonicalAddress.belongsTo, canonical, parseAddress_addressText]

theorem selected_ok {scope : IndexScope} {cs : List CanonicalAddress} {as : List Address} :
    selected scope cs = .ok as ↔ cs = as.map (canonical scope) := by
  rw [selected, mapM_ok]
  simp only [selectedOne_ok]
  rw [← List.forall₂_map_right_iff, List.forall₂_eq_eq_eq]

theorem exists_map_of_subset {α β : Type} {f : α → β} {l : List α} {m : List β} (h : m ⊆ l.map f) :
    ∃ as, m = as.map f ∧ as ⊆ l := by
  induction m with
  | nil => exact ⟨[], rfl, by simp⟩
  | cons b m ih =>
    obtain ⟨hb, hm⟩ := List.cons_subset.mp h
    obtain ⟨a, ha, rfl⟩ := List.mem_map.mp hb
    obtain ⟨as, rfl, has⟩ := ih hm
    exact ⟨a :: as, rfl, List.cons_subset.mpr ⟨ha, has⟩⟩

theorem mem_selected {scope : IndexScope} {as : List Address} {a : Address} :
    canonical scope a ∈ as.map (canonical scope) ↔ a ∈ as := by
  simp only [List.mem_map]
  constructor
  · rintro ⟨b, hb, heq⟩
    exact canonical_inj heq ▸ hb
  · intro ha
    exact ⟨a, ha, rfl⟩

/-! ## One transaction -/

/-- The movements of a transaction. One that failed has none. -/
def Transaction.movements (codec : Codec) (t : Transaction) : List Movement :=
  match t.succeeded, Movements.decode codec t with
  | true, .ok movements => movements
  | _, _ => []

/-- A successful transaction decodes, and its movements explain the selected balances. -/
def Accepted (codec : Codec) (selected : List Address) (t : Transaction) : Prop :=
  t.succeeded = true → Movements.decode codec t = .ok (t.movements codec) ∧
    reconcileSelected t selected (t.movements codec) = .ok ()

/-- The transaction concerns a selected address. -/
def recorded (codec : Codec) (selected : List Address) (t : Transaction) : Bool :=
  relevant t selected (t.movements codec)

theorem inspectTransaction_ok {codec : Codec} {scope : IndexScope} {selected : List Address}
    {t : Transaction} {o : Option ObservationDraft} :
    inspectTransaction codec scope selected t = .ok o ↔ Accepted codec selected t ∧
      o = if recorded codec selected t then some (draft scope t (t.movements codec)) else none := by
  cases hsucceeded : t.succeeded with
  | false =>
    have hmovements : t.movements codec = [] := by simp [Transaction.movements, hsucceeded]
    simp only [inspectTransaction, hsucceeded, Bool.false_eq_true, if_false, pure_bind, pure_ok, Accepted,
      false_implies, true_and, recorded, hmovements]
  | true =>
    simp only [inspectTransaction, hsucceeded, if_true, Accepted, true_implies]
    cases hdecode : Movements.decode codec t with
    | error e => simp [bind, Except.bind]
    | ok movements =>
      have hmovements : t.movements codec = movements := by
        simp [Transaction.movements, hsucceeded, hdecode]
      have hrecorded : recorded codec selected t = relevant t selected movements := by
        rw [recorded, hmovements]
      rw [hrecorded, hmovements, bind_ok]
      simp only [Except.ok.injEq, true_and, exists_eq_left', bind_ok, pure_ok]
      exact ⟨fun ⟨⟨⟩, hreconcile, ho⟩ => ⟨hreconcile, ho⟩, fun ⟨hreconcile, ho⟩ => ⟨(), hreconcile, ho⟩⟩

theorem inspectAll_ok {codec : Codec} {scope : IndexScope} {selected : List Address}
    {ts : List Transaction} {os : List (Option ObservationDraft)} :
    ts.mapM (inspectTransaction codec scope selected) = .ok os ↔
      (∀ t ∈ ts, Accepted codec selected t) ∧ os = ts.map fun t =>
        if recorded codec selected t then some (draft scope t (t.movements codec)) else none := by
  rw [mapM_ok]
  induction ts generalizing os with
  | nil => simp
  | cons t ts ih =>
    rw [List.forall₂_cons_left_iff, List.forall_mem_cons, List.map_cons]
    constructor
    · rintro ⟨o, os, ho, hos, rfl⟩
      obtain ⟨ht, rfl⟩ := inspectTransaction_ok.mp ho
      obtain ⟨hts, rfl⟩ := ih.mp hos
      exact ⟨⟨ht, hts⟩, rfl⟩
    · rintro ⟨⟨ht, hts⟩, rfl⟩
      exact ⟨_, _, inspectTransaction_ok.mpr ⟨ht, rfl⟩, ih.mpr ⟨hts, rfl⟩, rfl⟩

/-- The drafts of the recorded transactions of a block. -/
def drafts (codec : Codec) (scope : IndexScope) (selected : List Address) (ts : List Transaction) :
    List ObservationDraft :=
  (ts.filter (recorded codec selected)).map fun t => draft scope t (t.movements codec)

theorem inspect_ok {codec : Codec} {interpreter : Interpreter} {block : Block}
    {addresses : List CanonicalAddress} {out : InterpretedBlock} :
    interpreter.inspect codec block addresses = .ok out ↔ ∃ selected ts,
      addresses = selected.map (canonical interpreter.scope) ∧ Transactions.parse codec block.raw = .ok ts ∧
      (∀ t ∈ ts, Accepted codec selected t) ∧
      out = ⟨block.reference, drafts codec interpreter.scope selected ts, {}⟩ := by
  have hdrafts : ∀ (selected : List Address) (ts : List Transaction),
      (ts.map fun t => if recorded codec selected t then
        some (draft interpreter.scope t (t.movements codec)) else none).flatMap Option.toList =
        drafts codec interpreter.scope selected ts := by
    intro selected ts
    induction ts with
    | nil => rfl
    | cons t ts ih =>
      rw [List.map_cons, List.flatMap_cons, ih, drafts, drafts, List.filter_cons]
      split <;> rfl
  simp only [Interpreter.inspect, bind_ok, selected_ok, inspectAll_ok, pure_ok]
  constructor
  · rintro ⟨selected, haddresses, ts, hts, os, ⟨haccepted, rfl⟩, rfl⟩
    exact ⟨selected, ts, haddresses, hts, haccepted, by rw [hdrafts]⟩
  · rintro ⟨selected, ts, haddresses, hts, haccepted, rfl⟩
    exact ⟨selected, haddresses, ts, hts, _, ⟨haccepted, rfl⟩, by rw [hdrafts]⟩

/-! ## Balances -/

/-- What recorded movements bring to an address. -/
def received (a : CanonicalAddress) (ms : List ValueMovement) : Int :=
  ((ms.filter fun m => m.toAddress = some a).map (·.amount.coefficient)).sum

/-- What recorded movements take from an address. -/
def sent (a : CanonicalAddress) (ms : List ValueMovement) : Int :=
  ((ms.filter fun m => m.fromAddress = some a).map (·.amount.coefficient)).sum

theorem fromAtomic_coefficient (n : Nat) : (fromAtomic n).coefficient = n := by
  unfold fromAtomic Decimal.normalize
  split
  · rename_i h
    exact h.symm
  · rfl

theorem canonical_eq {scope : IndexScope} {a b : Address} :
    canonical scope a = canonical scope b ↔ a = b :=
  ⟨canonical_inj, fun h => h ▸ rfl⟩

theorem delta_eq (scope : IndexScope) (ms : List Movement) (a : Address) :
    delta ms a = received (canonical scope a) (ms.map (Movement.value scope)) -
      sent (canonical scope a) (ms.map (Movement.value scope)) := by
  have hfold : ∀ start : Int, ms.foldl (fun delta m =>
      let amount : Int := m.lamports.toNat
      delta + (if m.destination = a then amount else 0) - if m.source = a then amount else 0) start =
      start + (received (canonical scope a) (ms.map (Movement.value scope)) -
        sent (canonical scope a) (ms.map (Movement.value scope))) := by
    induction ms with
    | nil => simp [received, sent]
    | cons m ms ih =>
      intro start
      rw [List.foldl_cons, ih]
      have hvalue : (Movement.value scope m).amount.coefficient = m.lamports.toNat :=
        fromAtomic_coefficient _
      have hdest : ((Movement.value scope m).toAddress = some (canonical scope a)) ↔ m.destination = a := by
        simp [Movement.value, ValueMovement.toAddress, canonical_eq]
      have hsource : ((Movement.value scope m).fromAddress = some (canonical scope a)) ↔ m.source = a := by
        simp [Movement.value, ValueMovement.fromAddress, canonical_eq]
      simp only [received, sent, List.map_cons, List.filter_cons, hdest, hsource, decide_eq_true_eq]
      split_ifs <;> simp [hvalue] <;> omega
  simpa [delta] using hfold 0

theorem delta_untouched {ms : List Movement} {a : Address} (h : touches ms a = false) : delta ms a = 0 := by
  have hnone : ∀ m ∈ ms, m.source ≠ a ∧ m.destination ≠ a := by
    simpa [touches] using h
  unfold delta
  induction ms with
  | nil => rfl
  | cons m ms ih =>
    obtain ⟨hm, hms⟩ := List.forall_mem_cons.mp hnone
    simp only [touches, List.any_cons, Bool.or_eq_false_iff] at h
    rw [List.foldl_cons]
    simpa [hm.1, hm.2] using ih h.2 hms

theorem reconcile_ok {t : Transaction} {ms : List Movement} {i : Fin t.keys.length} :
    reconcile t ms i = .ok () ↔ ((t.post i).toNat : Int) - (t.pre i).toNat =
      delta ms (t.key i) - if t.key i = t.feePayer then (t.fee.toNat : Int) else 0 := by
  unfold reconcile
  split_ifs with hpayer <;> simp_all

theorem reconcileSelected_ok {t : Transaction} {selected : List Address} {ms : List Movement} :
    reconcileSelected t selected ms = .ok () ↔
      (selectedEffects t selected ms ≠ [] → t.inner.isSome) ∧
        ∀ i ∈ selectedEffects t selected ms, reconcile t ms i = .ok () := by
  unfold reconcileSelected
  simp only
  split_ifs with hincomplete
  · simp [hincomplete.1, hincomplete.2]
  · rw [forM_ok]
    refine ⟨fun h => ⟨fun hne => ?_, h⟩, fun h => h.2⟩
    by_contra hinner
    exact hincomplete ⟨hne, by simpa using hinner⟩

theorem mem_selectedEffects {t : Transaction} {selected : List Address} {ms : List Movement}
    {i : Fin t.keys.length} :
    i ∈ selectedEffects t selected ms ↔ t.key i ∈ selected ∧
      ((t.keys.get i).writable ∨ t.key i = t.feePayer ∨ touches ms (t.key i)) := by
  simp [selectedEffects, or_assoc]

theorem touches_iff {ms : List Movement} {a : Address} :
    touches ms a = true ↔ ∃ m ∈ ms, m.source = a ∨ m.destination = a := by
  simp [touches]

theorem touchesAny_iff {ms : List Movement} {selected : List Address} :
    touchesAny ms selected = true ↔ ∃ a ∈ selected, touches ms a = true := by
  simp only [touchesAny, touches, List.any_eq_true, Bool.or_eq_true, decide_eq_true_eq]
  constructor
  · rintro ⟨m, hm, h | h⟩
    · exact ⟨_, h, m, hm, Or.inl rfl⟩
    · exact ⟨_, h, m, hm, Or.inr rfl⟩
  · rintro ⟨a, ha, m, hm, rfl | rfl⟩
    · exact ⟨m, hm, Or.inl ha⟩
    · exact ⟨m, hm, Or.inr ha⟩

/-! ## Inspected blocks -/

/-- The transaction can change the balance: the address is a writable key, the fee payer or
an endpoint of a transfer. -/
def Affects (codec : Codec) (t : Transaction) (a : Address) : Prop :=
  (∃ i, t.key i = a ∧ (t.keys.get i).writable = true) ∨ a = t.feePayer ∨
    ∃ x ∈ t.transfers codec, x.source = a ∨ x.destination = a

/-- The drafts of a transaction in an inspected block. -/
def recordedFor (out : InterpretedBlock) (t : Transaction) : List ObservationDraft :=
  out.transactions.filter fun d => d.transactionId.value = t.signature

/-- What one recorded movement says of a transfer. -/
def Transfer.recorded (scope : IndexScope) (x : Transfer) :
    Option CanonicalAddress × Option CanonicalAddress × Decimal :=
  (some (canonical scope x.source), some (canonical scope x.destination), fromAtomic x.lamports.toNat)

/-- What is recorded of a block accounts for every balance that it changed. -/
structure Conserves (codec : Codec) (scope : IndexScope) (addresses : List CanonicalAddress)
    (ts : List Transaction) (out : InterpretedBlock) : Prop where
  balances : ∀ t ∈ ts, t.succeeded = true → ∀ a, canonical scope a ∈ addresses → Affects codec t a →
    ∃ i, t.key i = a ∧ ((t.post i).toNat : Int) - (t.pre i).toNat =
      received (canonical scope a) ((recordedFor out t).flatMap (·.movements)) -
        sent (canonical scope a) ((recordedFor out t).flatMap (·.movements)) -
        if a = t.feePayer then (t.fee.toNat : Int) else 0
  movements : ∀ t ∈ ts, ∀ d ∈ recordedFor out t,
    d.movements.map (fun m => (m.fromAddress, m.toAddress, m.amount)) =
      (if t.succeeded then t.transfers codec else []).map (Transfer.recorded scope)
  recorded : ∀ t ∈ ts, recordedFor out t ≠ [] ↔ canonical scope t.feePayer ∈ addresses ∨
    t.succeeded = true ∧ ∃ x ∈ t.transfers codec,
      canonical scope x.source ∈ addresses ∨ canonical scope x.destination ∈ addresses
  others : ∀ d ∈ out.transactions, ∃ t ∈ ts, d ∈ recordedFor out t
  -- A failed transaction charges its fee payer only.
  changed : ∀ t ∈ ts, ∀ i, (t.keys.get i).writable = true → canonical scope (t.key i) ∈ addresses →
    t.succeeded = true ∨ t.key i = t.feePayer → t.pre i ≠ t.post i → recordedFor out t ≠ []
  ids : (out.transactions.map (·.transactionId)).Nodup
  movementIds : ((out.transactions.flatMap (·.movements)).map (·.id)).Nodup

section Inspected

variable {codec : Codec} {scope : IndexScope} {selected : List Address} {ts : List Transaction}
variable {t : Transaction} {a : Address}

theorem movements_transfers (h : Accepted codec selected t) :
    (t.movements codec).map Movement.transfer = if t.succeeded then t.transfers codec else [] := by
  cases hsucceeded : t.succeeded with
  | false => simp [Transaction.movements, hsucceeded]
  | true =>
    rw [if_pos rfl]
    exact (decode_ok (h hsucceeded).1).1

theorem movements_labels (h : Accepted codec selected t) :
    ((t.movements codec).map (·.id)).Sublist (labels t) := by
  cases hsucceeded : t.succeeded with
  | false => simp [Transaction.movements, hsucceeded]
  | true => exact (decode_ok (h hsucceeded).1).2

theorem touches_transfers (h : Accepted codec selected t) (hsucceeded : t.succeeded = true) :
    touches (t.movements codec) a = true ↔ ∃ x ∈ t.transfers codec, x.source = a ∨ x.destination = a := by
  have htransfers := movements_transfers h
  rw [if_pos hsucceeded] at htransfers
  rw [touches_iff, ← htransfers]
  simp [Movement.transfer]

theorem recorded_iff : recorded codec selected t = true ↔ t.feePayer ∈ selected ∨
    t.succeeded = true ∧ ∃ a ∈ selected, touches (t.movements codec) a = true := by
  unfold recorded relevant
  cases hsucceeded : t.succeeded <;> simp [touchesAny_iff]

theorem filter_of_nodup {α β : Type} [DecidableEq β] {f : α → β} {l : List α} {x : α} (hx : x ∈ l)
    (hnodup : (l.map f).Nodup) : l.filter (fun y => f y = f x) = [x] := by
  induction l with
  | nil => simp at hx
  | cons y l ih =>
    rw [List.map_cons, List.nodup_cons] at hnodup
    rcases List.mem_cons.mp hx with rfl | hx
    · rw [List.filter_cons_of_pos (by simp), List.filter_eq_nil_iff.mpr]
      intro z hz hzx
      exact hnodup.1 (List.mem_map.mpr ⟨z, hz, by simpa using hzx⟩)
    · rw [List.filter_cons_of_neg, ih hx hnodup.2]
      intro hyx
      exact hnodup.1 (List.mem_map.mpr ⟨x, hx, by simpa using Eq.symm (of_decide_eq_true hyx)⟩)

theorem recordedFor_drafts {block : BlockRef} {outputs : OutputChanges} (ht : t ∈ ts)
    (hnodup : (ts.map (·.signature)).Nodup) :
    recordedFor ⟨block, drafts codec scope selected ts, outputs⟩ t =
      if recorded codec selected t then [draft scope t (t.movements codec)] else [] := by
  have hswap : recordedFor ⟨block, drafts codec scope selected ts, outputs⟩ t =
      ((ts.filter fun x => x.signature = t.signature).filter (recorded codec selected)).map
        fun x => draft scope x (x.movements codec) := by
    unfold recordedFor drafts
    rw [List.filter_map, List.filter_comm]
    rfl
  rw [hswap, filter_of_nodup ht hnodup, List.filter_singleton]
  cases recorded codec selected t <;> rfl

theorem exists_key_of_transfer {x : Transfer} (h : x ∈ t.transfers codec) :
    (∃ i, t.key i = x.source) ∧ ∃ i, t.key i = x.destination := by
  obtain ⟨i, -, hx⟩ := List.mem_filterMap.mp h
  unfold Instruction.transfer Instruction.systemTransfer at hx
  have hx := (Option.filter_eq_some_iff.mp hx).1
  split_ifs at hx
  split at hx
  · cases hx
    exact ⟨⟨_, rfl⟩, ⟨_, rfl⟩⟩
  · cases hx
    exact ⟨⟨_, rfl⟩, ⟨_, rfl⟩⟩
  · cases hx

theorem affects_mem (haccepted : Accepted codec selected t) (hsucceeded : t.succeeded = true)
    (ha : a ∈ selected) (h : Affects codec t a) :
    ∃ i, t.key i = a ∧ i ∈ selectedEffects t selected (t.movements codec) := by
  simp only [mem_selectedEffects, touches_transfers haccepted hsucceeded]
  rcases h with ⟨i, rfl, hwritable⟩ | rfl | ⟨x, hx, hend⟩
  · exact ⟨i, rfl, ha, Or.inl hwritable⟩
  · exact ⟨t.payer, rfl, ha, Or.inr (Or.inl rfl)⟩
  · obtain ⟨⟨i, hi⟩, ⟨j, hj⟩⟩ := exists_key_of_transfer hx
    rcases hend with rfl | rfl
    · exact ⟨i, hi, hi ▸ ha, Or.inr (Or.inr ⟨x, hx, Or.inl hi.symm⟩)⟩
    · exact ⟨j, hj, hj ▸ ha, Or.inr (Or.inr ⟨x, hx, Or.inr hj.symm⟩)⟩

theorem balance_eq (haccepted : Accepted codec selected t) (hsucceeded : t.succeeded = true)
    (ha : a ∈ selected) (h : Affects codec t a) :
    ∃ i, t.key i = a ∧ ((t.post i).toNat : Int) - (t.pre i).toNat =
      delta (t.movements codec) a - if a = t.feePayer then (t.fee.toNat : Int) else 0 := by
  obtain ⟨i, rfl, hi⟩ := affects_mem haccepted hsucceeded ha h
  exact ⟨i, rfl, reconcile_ok.mp ((reconcileSelected_ok.mp (haccepted hsucceeded).2).2 i hi)⟩

theorem key_inj {i j : Fin t.keys.length} (h : t.key i = t.key j) : i = j := by
  have hi : i.val < (t.keys.map (·.address)).length := by simp
  have hj : j.val < (t.keys.map (·.address)).length := by simp
  have hget : (t.keys.map (·.address))[i.val] = (t.keys.map (·.address))[j.val] := by
    simpa [Transaction.key] using h
  exact Fin.ext ((List.getElem_inj t.distinct).mp hget)

theorem Accepted.mono {fewer : List Address} (h : Accepted codec selected t) (hsub : fewer ⊆ selected) :
    Accepted codec fewer t := by
  intro hsucceeded
  obtain ⟨hdecode, hreconcile⟩ := h hsucceeded
  refine ⟨hdecode, reconcileSelected_ok.mpr ?_⟩
  obtain ⟨hinner, hall⟩ := reconcileSelected_ok.mp hreconcile
  have heffects : ∀ i ∈ selectedEffects t fewer (t.movements codec),
      i ∈ selectedEffects t selected (t.movements codec) := by
    intro i hi
    obtain ⟨hmem, heffect⟩ := mem_selectedEffects.mp hi
    exact mem_selectedEffects.mpr ⟨hsub hmem, heffect⟩
  refine ⟨fun hne => hinner ?_, fun i hi => hall i (heffects i hi)⟩
  obtain ⟨i, hi⟩ := List.exists_mem_of_ne_nil _ hne
  exact List.ne_nil_of_mem (heffects i hi)

theorem draft_touches : (draft scope t (t.movements codec)).touches (canonical scope a) = true ↔
    t.feePayer = a ∨ touches (t.movements codec) a = true := by
  simp only [ObservationDraft.touches, draft, touches_iff, Bool.or_eq_true, List.any_map, List.any_eq_true,
    Function.comp, Movement.value, ValueMovement.fromAddress, ValueMovement.toAddress, Option.any_some,
    decide_eq_true_eq, Option.some.injEq, canonical_eq]
  exact or_comm

theorem any_touches {fewer : List Address} :
    (fewer.map (canonical scope)).any (draft scope t (t.movements codec)).touches =
      recorded codec fewer t := by
  rw [Bool.eq_iff_iff, recorded_iff, List.any_map, List.any_eq_true]
  simp only [Function.comp, draft_touches]
  cases hsucceeded : t.succeeded with
  | false =>
    have hnone : t.movements codec = [] := by simp [Transaction.movements, hsucceeded]
    simp [hnone, touches]
  | true =>
    constructor
    · rintro ⟨a, ha, rfl | htouches⟩
      · exact Or.inl ha
      · exact Or.inr ⟨rfl, a, ha, htouches⟩
    · rintro (hpayer | ⟨-, a, ha, htouches⟩)
      · exact ⟨_, hpayer, Or.inl rfl⟩
      · exact ⟨a, ha, Or.inr htouches⟩

theorem drafts_filter {fewer : List Address} (hsub : fewer ⊆ selected) :
    (drafts codec scope selected ts).filter (fun d => (fewer.map (canonical scope)).any d.touches) =
      drafts codec scope fewer ts := by
  have hmono : ∀ t, recorded codec fewer t = true → recorded codec selected t = true := by
    intro t h
    rw [recorded_iff] at h ⊢
    rcases h with h | ⟨hsucceeded, a, ha, htouches⟩
    · exact Or.inl (hsub h)
    · exact Or.inr ⟨hsucceeded, a, hsub ha, htouches⟩
  unfold drafts
  rw [List.filter_map, List.filter_filter]
  congr 1
  apply List.filter_congr
  intro t _
  simp only [Function.comp, any_touches]
  cases hfewer : recorded codec fewer t with
  | false => rfl
  | true => rw [hmono t hfewer]; rfl

theorem drafts_ids (hnodup : (ts.map (·.signature)).Nodup) :
    ((drafts codec scope selected ts).map (·.transactionId)).Nodup := by
  have hids : (drafts codec scope selected ts).map (·.transactionId) =
      ((ts.filter (recorded codec selected)).map (·.signature)).map (TransactionRef.mk scope) := by
    rw [drafts, List.map_map, List.map_map]
    rfl
  rw [hids]
  refine List.Nodup.map (fun x y h => congrArg TransactionRef.value h) ?_
  exact hnodup.sublist ((List.filter_sublist).map _)

theorem drafts_movementIds (hfree : ∀ t ∈ ts, ':' ∉ t.signature.str.toList)
    (hnodup : (ts.map (·.signature)).Nodup) (haccepted : ∀ t ∈ ts, Accepted codec selected t) :
    (((drafts codec scope selected ts).flatMap (·.movements)).map (·.id)).Nodup := by
  have hids : ((drafts codec scope selected ts).flatMap (·.movements)).map (·.id) =
      ((ts.filter (recorded codec selected)).flatMap fun t => (t.movements codec).map (·.id)).map
        MovementId.mk := by
    rw [drafts, List.flatMap_map, List.map_flatMap, List.map_flatMap]
    simp only [draft, List.map_map]
    rfl
  have hlabels : ∀ l : List Transaction, (∀ t ∈ l, Accepted codec selected t) →
      (l.flatMap fun t => (t.movements codec).map (·.id)).Sublist (l.flatMap labels) := by
    intro l hl
    induction l with
    | nil => exact .slnil
    | cons t l ih =>
      obtain ⟨ht, hl⟩ := List.forall_mem_cons.mp hl
      exact (movements_labels ht).append (ih hl)
  rw [hids]
  refine List.Nodup.map (fun x y h => congrArg MovementId.name h) ?_
  refine (blockLabels_nodup hfree hnodup).sublist ?_
  refine (hlabels _ fun t ht => haccepted t (List.mem_filter.mp ht).1).trans ?_
  exact List.filter_sublist.flatMap _

theorem delta_recordedFor {block : BlockRef} {outputs : OutputChanges} (ht : t ∈ ts)
    (hnodup : (ts.map (·.signature)).Nodup) (hsucceeded : t.succeeded = true) (ha : a ∈ selected) :
    delta (t.movements codec) a =
      received (canonical scope a)
        ((recordedFor ⟨block, drafts codec scope selected ts, outputs⟩ t).flatMap (·.movements)) -
      sent (canonical scope a)
        ((recordedFor ⟨block, drafts codec scope selected ts, outputs⟩ t).flatMap (·.movements)) := by
  rw [recordedFor_drafts ht hnodup]
  cases hrecorded : recorded codec selected t with
  | true => simp [draft, delta_eq scope]
  | false =>
    have huntouched : touches (t.movements codec) a = false := by
      by_contra htouches
      have := recorded_iff.mpr (Or.inr ⟨hsucceeded, a, ha, by simpa using htouches⟩)
      rw [hrecorded] at this
      cases this
    simp [delta_untouched huntouched, received, sent]

theorem recordedFor_ne_nil {block : BlockRef} {outputs : OutputChanges} (ht : t ∈ ts)
    (hnodup : (ts.map (·.signature)).Nodup) :
    recordedFor ⟨block, drafts codec scope selected ts, outputs⟩ t ≠ [] ↔
      recorded codec selected t = true := by
  rw [recordedFor_drafts ht hnodup]
  split <;> simp_all

theorem recorded_of_changed (haccepted : Accepted codec selected t) {i : Fin t.keys.length}
    (hwritable : (t.keys.get i).writable = true) (hi : t.key i ∈ selected)
    (hcase : t.succeeded = true ∨ t.key i = t.feePayer) (hchanged : t.pre i ≠ t.post i) :
    recorded codec selected t = true := by
  rw [recorded_iff]
  by_cases hpayer : t.key i = t.feePayer
  · exact Or.inl (hpayer ▸ hi)
  · have hsucceeded : t.succeeded = true := hcase.resolve_right hpayer
    refine Or.inr ⟨hsucceeded, t.key i, hi, ?_⟩
    by_contra htouches
    obtain ⟨j, hj, hbalance⟩ := balance_eq haccepted hsucceeded hi (Or.inl ⟨i, rfl, hwritable⟩)
    obtain rfl := key_inj hj
    rw [delta_untouched (by simpa using htouches), if_neg hpayer] at hbalance
    apply hchanged
    apply UInt64.toNat_inj.mp
    omega

end Inspected

theorem conserves_drafts {codec : Codec} {scope : IndexScope} {selected : List Address}
    {ts : List Transaction} {block : BlockRef} {outputs : OutputChanges}
    (hfree : ∀ t ∈ ts, ':' ∉ t.signature.str.toList) (hnodup : (ts.map (·.signature)).Nodup)
    (haccepted : ∀ t ∈ ts, Accepted codec selected t) :
    Conserves codec scope (selected.map (canonical scope)) ts
      ⟨block, drafts codec scope selected ts, outputs⟩ where
  balances t ht hsucceeded a ha h := by
    obtain ⟨i, hi, hbalance⟩ := balance_eq (haccepted t ht) hsucceeded (mem_selected.mp ha) h
    exact ⟨i, hi, by rw [hbalance, delta_recordedFor ht hnodup hsucceeded (mem_selected.mp ha)]⟩
  movements t ht d hd := by
    rw [recordedFor_drafts ht hnodup] at hd
    split at hd
    · obtain rfl := List.mem_singleton.mp hd
      rw [← movements_transfers (haccepted t ht), draft, List.map_map, List.map_map]
      rfl
    · simp at hd
  recorded t ht := by
    rw [recordedFor_ne_nil ht hnodup, recorded_iff]
    simp only [mem_selected]
    refine or_congr_right (and_congr_right fun hsucceeded => ?_)
    simp only [touches_transfers (haccepted t ht) hsucceeded]
    constructor
    · rintro ⟨a, ha, x, hx, rfl | rfl⟩
      · exact ⟨x, hx, Or.inl ha⟩
      · exact ⟨x, hx, Or.inr ha⟩
    · rintro ⟨x, hx, h | h⟩
      · exact ⟨_, h, x, hx, Or.inl rfl⟩
      · exact ⟨_, h, x, hx, Or.inr rfl⟩
  others d hd := by
    obtain ⟨t, ht, rfl⟩ := List.mem_map.mp hd
    exact ⟨t, (List.mem_filter.mp ht).1, List.mem_filter.mpr ⟨hd, by simp [draft]⟩⟩
  changed t ht i hwritable hi hcase hchanged :=
    (recordedFor_ne_nil ht hnodup).mpr
      (recorded_of_changed (haccepted t ht) hwritable (mem_selected.mp hi) hcase hchanged)
  ids := drafts_ids hnodup
  movementIds := drafts_movementIds hfree hnodup haccepted

theorem inspect_conserves (codec : Codec) (interpreter : Interpreter) (block : Block)
    (addresses : List CanonicalAddress) (out : InterpretedBlock)
    (h : interpreter.inspect codec block addresses = .ok out) :
    (∃ ts, Transactions.parse codec block.raw = .ok ts ∧
      Conserves codec interpreter.scope addresses ts out) ∧
    ∀ fewer ⊆ addresses, interpreter.inspect codec block fewer =
      .ok ⟨out.block, out.transactions.filter (fun d => fewer.any d.touches), out.outputs⟩ := by
  obtain ⟨selected, ts, rfl, hts, haccepted, rfl⟩ := inspect_ok.mp h
  constructor
  · refine ⟨ts, hts, ?_⟩
    unfold Transactions.parse at hts
    split at hts
    · cases hts
    · obtain ⟨hfree, hnodup, -⟩ := parseAll_ok hts
      exact conserves_drafts hfree hnodup haccepted
  · intro fewer hfewer
    obtain ⟨as, rfl, hsub⟩ := exists_map_of_subset hfewer
    exact inspect_ok.mpr ⟨as, ts, rfl, hts, fun t ht => (haccepted t ht).mono hsub, by rw [drafts_filter hsub]⟩

/-! ## One block -/

def sampleAddress (byte : UInt8) : Address := ⟨List.replicate 32 byte, by simp⟩

def sampleInterpreter : Interpreter := ⟨⟨chainId, ⟨"localnet", by decide⟩⟩, rfl⟩

def samplePayer : String := "4vJ9JU1bJJE96FWSJKvHsmmFADCg4gpZQff4P3bkLKi"

def sampleReceiver : String := "8qbHbw2BbbTHBW1sbeqakYXVKRQM8Ne7pLK7m6CVfeR"

def sampleThird : String := "CktRuQ2mttgRGkXJtyksdKHjUdc2C4TgDzyB98oEzy8"

def sampleSignature : Text :=
  ⟨"5f5r5AjuFd8WwUagQSztAgufUCE6rdYhXmjU5rtnBPsxmfC5fFCUGiqQCcQZmAfFzuo6gyYYm616Roc1HEhREX5", by decide⟩

/-- The payer sends 5 lamports to the receiver, and an inner transfer of 2 goes on from there. -/
def sampleWire : TransactionWire where
  transaction :=
    { signatures := [sampleSignature]
      message :=
        { header := ⟨1, 0, 1⟩
          accountKeys := [samplePayer, sampleReceiver, sampleThird, "11111111111111111111111111111111"]
          instructions := [⟨3, [0, 1], "3Bxs41hAcYbghSB9"⟩] } }
  metadata := some
    { err := .null, fee := 7, preBalances := [100, 10, 0, 1], postBalances := [88, 13, 2, 1]
      innerInstructions := some [⟨0, [⟨3, [1, 2], "3Bxs41C4bWBEDcNb"⟩]⟩], loadedAddresses := none }
  version := .string "legacy"

def sampleRaw : List UInt8 :=
  ("\x7b\"blockhash\":\"11111111111111111111111111111111\"," ++
    "\"previousBlockhash\":\"11111111111111111111111111111111\",\"parentSlot\":4," ++
    "\"transactions\":[\x7b\"transaction\":\x7b\"signatures\":[\"" ++ sampleSignature.str ++
    "\"],\"message\":\x7b\"header\":\x7b\"numRequiredSignatures\":1," ++
    "\"numReadonlySignedAccounts\":0,\"numReadonlyUnsignedAccounts\":1\x7d,\"accountKeys\":[\"" ++
    samplePayer ++ "\",\"" ++ sampleReceiver ++ "\",\"" ++ sampleThird ++
    "\",\"11111111111111111111111111111111\"],\"instructions\":[\x7b\"programIdIndex\":3," ++
    "\"accounts\":[0,1],\"data\":\"3Bxs41hAcYbghSB9\"\x7d]\x7d\x7d,\"meta\":\x7b\"err\":null," ++
    "\"fee\":7,\"preBalances\":[100,10,0,1],\"postBalances\":[88,13,2,1]," ++
    "\"innerInstructions\":[\x7b\"index\":0,\"instructions\":[\x7b\"programIdIndex\":3," ++
    "\"accounts\":[1,2],\"data\":\"3Bxs41C4bWBEDcNb\"\x7d]\x7d],\"loadedAddresses\":null\x7d," ++
    "\"version\":\"legacy\"\x7d],\"blockTime\":123,\"blockHeight\":4\x7d").toUTF8.toList

/-- Bincode writes the variant in four bytes, then the lamports in eight, low bytes first. -/
def sampleCodec : Codec where
  decode raw := if raw = sampleRaw then some ⟨[sampleWire]⟩ else none
  deserialize
    | [2, 0, 0, 0, low, 0, 0, 0, 0, 0, 0, 0] => some (.transfer low.toUInt64)
    | _ => none
  serialize
    | .transfer lamports =>
      some (2 :: 0 :: 0 :: 0 :: (List.range 8).map fun i => (lamports >>> (8 * i).toUInt64).toUInt8)
    | _ => none
  systemId := sampleAddress 0

def sampleBlock : Block where
  reference := ⟨⟨5⟩, ⟨4⟩, ⟨List.replicate 32 0⟩, some ⟨⟨4⟩, ⟨List.replicate 32 0⟩⟩, some 123⟩
  raw := sampleRaw

def sampleSelection : List CanonicalAddress :=
  [canonical sampleInterpreter.scope (sampleAddress 1), canonical sampleInterpreter.scope (sampleAddress 2)]

def sampleMovements : List Movement :=
  [⟨sampleSignature.str ++ ":ix:0", sampleAddress 1, sampleAddress 2, 5⟩,
    ⟨sampleSignature.str ++ ":ix:0:inner:0", sampleAddress 2, sampleAddress 3, 2⟩]

def sampleOut : InterpretedBlock where
  block := sampleBlock.reference
  transactions :=
    [{ scope := sampleInterpreter.scope
       transactionId := ⟨sampleInterpreter.scope, sampleSignature⟩
       status := .included
       movements := sampleMovements.map (Movement.value sampleInterpreter.scope)
       fee := some ⟨nativeAsset, fromAtomic 7, some (canonical sampleInterpreter.scope (sampleAddress 1))⟩ }]
  outputs := {}

theorem sample_inspect : sampleInterpreter.inspect sampleCodec sampleBlock sampleSelection = .ok sampleOut := by
  have hraw : sampleCodec.decode sampleBlock.raw = some ⟨[sampleWire]⟩ := if_pos rfl
  rw [Interpreter.inspect, Transactions.parse, hraw]
  decide +kernel

theorem inspect_conserves_sample :
    sampleInterpreter.inspect sampleCodec sampleBlock sampleSelection = .ok sampleOut ∧
      (∃ ts, Transactions.parse sampleCodec sampleBlock.raw = .ok ts ∧
        Conserves sampleCodec sampleInterpreter.scope sampleSelection ts sampleOut) ∧
      ∀ fewer ⊆ sampleSelection, sampleInterpreter.inspect sampleCodec sampleBlock fewer =
        .ok ⟨sampleOut.block, sampleOut.transactions.filter (fun d => fewer.any d.touches), {}⟩ :=
  ⟨sample_inspect, inspect_conserves sampleCodec sampleInterpreter sampleBlock sampleSelection sampleOut sample_inspect⟩

end PaymentSdk.Solana.Interpretation
