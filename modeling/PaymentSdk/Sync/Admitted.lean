import PaymentSdk.Bitcoin.Admitted
import PaymentSdk.Bitcoin.Balance
import PaymentSdk.Ethereum.Retrieval
import PaymentSdk.Solana.Conservation

/-!
# Interpreted blocks are added

Each chain has its own interpreter, and all of them feed one admission check. No block that a chain's
source delivers fails it.
-/

open Checked

namespace PaymentSdk

/-- Every check passes, so the block is added wherever it connects. -/
def Admitted (scope : IndexScope) (out : InterpretedBlock) : Prop :=
  out.Admissible scope ∧ ∀ expected retention, retention ≠ 0 → checkConnection expected out.block = .ok () →
    ∃ a, BlockAddition.new scope expected retention out = .ok a

theorem admitted_of_admissible {scope : IndexScope} {out : InterpretedBlock} (h : out.Admissible scope) :
    Admitted scope out :=
  ⟨h, fun _ _ hretention hconnects => new_admits h hretention hconnects⟩

/-! ## Solana -/

namespace Solana.Interpretation

variable {codec : Codec} {scope : IndexScope} {selected : List Address} {t : Transaction}

theorem isNegative_fromAtomic (n : Nat) : isNegative (fromAtomic n) = false := isNegative_normalize n 0 _

theorem movement_ids (hfree : ':' ∉ t.signature.str.toList) (h : Accepted codec selected t) :
    (((t.movements codec).map (Movement.value scope)).map (·.id)).Nodup := by
  have hids : ((t.movements codec).map (Movement.value scope)).map (·.id) =
      ((t.movements codec).map (·.id)).map MovementId.mk := by
    rw [List.map_map, List.map_map]
    rfl
  rw [hids]
  exact ((labels_nodup hfree).sublist (movements_labels h)).map fun _ _ heq => congrArg MovementId.name heq

theorem movement_named (h : Accepted codec selected t) {m : Movement} (hm : m ∈ t.movements codec) :
    m.id.isEmpty = false := by
  have hlabel := (movements_labels h).subset (List.mem_map_of_mem hm)
  obtain ⟨outer, ordinal, hid⟩ := mem_labels hlabel
  rw [hid]
  cases ordinal <;> simp [label, outerId, innerId]

theorem draft_admissible (hchain : scope.chain = chainId) (hfree : ':' ∉ t.signature.str.toList)
    (h : Accepted codec selected t) : (draft scope t (t.movements codec)).Admissible scope where
  scope_eq := rfl
  id_scope := rfl
  failed hstatus := by
    cases hsucceeded : t.succeeded with
    | true => simp [draft, hsucceeded] at hstatus
    | false => simp [draft, Transaction.movements, hsucceeded]
  ids := movement_ids hfree h
  movements m hm := by
    obtain ⟨movement, hmovement, rfl⟩ := List.mem_map.mp hm
    refine ⟨movement_named h hmovement, hchain.symm, isNegative_fromAtomic _, ?_, ?_⟩
    all_goals
      intro a ha
      cases ha
      rfl
  fee f hf := by
    cases hf
    exact ⟨hchain.symm, isNegative_fromAtomic _, fun a ha => by cases ha; rfl⟩

theorem inspect_admissible {interpreter : Interpreter} {block : Slots.Block} {addresses : List CanonicalAddress}
    {out : InterpretedBlock} (h : interpreter.inspect codec block addresses = .ok out) :
    out.Admissible interpreter.scope := by
  obtain ⟨selected, ts, rfl, hts, haccepted, rfl⟩ := inspect_ok.mp h
  unfold Transactions.parse at hts
  split at hts
  · cases hts
  obtain ⟨hfree, hnodup, -⟩ := parseAll_ok hts
  constructor
  case ids => exact drafts_ids hnodup
  case transactions =>
    intro d hd
    obtain ⟨t, ht, rfl⟩ := List.mem_map.mp hd
    have hmem := List.mem_of_mem_filter ht
    exact draft_admissible interpreter.chain_eq (hfree t hmem) (haccepted t hmem)
  case outputs => exact empty_admissible _

end Solana.Interpretation

/-! ## All chains -/

/-- **Every block that is interpreted is added.** Its transactions are those of the scope, its
movements are named and its amounts are not negative, and no output is created or spent twice. -/
theorem interpreted_admitted :
    (∀ (interpreter : Bitcoin.Indexer.BlockInterpreter) block addresses out,
      Bitcoin.Indexer.Delivered interpreter.lib block → interpreter.inspect block addresses = .ok out →
      Admitted interpreter.scope out) ∧
    (∀ codec interpreter block addresses out, Ethereum.Indexer.inspect codec interpreter block addresses = .ok out →
      Admitted interpreter.scope out) ∧
    ∀ codec (interpreter : Solana.Interpretation.Interpreter) block addresses out,
      interpreter.inspect codec block addresses = .ok out → Admitted interpreter.scope out := by
  refine ⟨?_, ?_, ?_⟩
  · intro interpreter block addresses out hdelivered h
    obtain ⟨hids, hearlier⟩ := Bitcoin.Indexer.delivered_spendsEarlier hdelivered
    exact admitted_of_admissible (Bitcoin.Indexer.inspect_admissible hids hearlier h)
  · intro codec interpreter block addresses out h
    exact admitted_of_admissible (Ethereum.Indexer.inspect_admissible h)
  · intro codec interpreter block addresses out h
    exact admitted_of_admissible (Solana.Interpretation.inspect_admissible h)

theorem interpreted_admitted_sample :
    (∃ out, Bitcoin.Indexer.sampleInterpreter.inspect Bitcoin.Indexer.sampleBlock Bitcoin.Indexer.sampleAddresses =
        .ok out ∧ Admitted Bitcoin.Indexer.sampleInterpreter.scope out) ∧
      Admitted Ethereum.Indexer.sampleInterpreter.scope
        ⟨Ethereum.Indexer.sampleBlock.reference, [Ethereum.Indexer.sampleDraft], {}⟩ ∧
      Admitted Solana.Interpretation.sampleInterpreter.scope Solana.Interpretation.sampleOut := by
  obtain ⟨hbitcoin, hethereum, hsolana⟩ := interpreted_admitted
  have hdelivered : Bitcoin.Indexer.Delivered Bitcoin.Indexer.sampleLibrary Bitcoin.Indexer.sampleBlock :=
    ⟨_, id, _, _, _, _, fun _ => .refl _, Bitcoin.Indexer.sample_enrich, Bitcoin.Indexer.sample_parse⟩
  obtain ⟨out, hout⟩ := Bitcoin.Indexer.sample_inspect
  exact ⟨⟨out, hout, hbitcoin _ _ _ _ hdelivered hout⟩, hethereum _ _ _ _ _ Ethereum.Indexer.sample_inspect,
    hsolana _ _ _ _ _ Solana.Interpretation.sample_inspect⟩

end PaymentSdk
