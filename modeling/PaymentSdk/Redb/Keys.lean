import PaymentSdk.Lib.Framing
import PaymentSdk.Lib.Store
import PaymentSdk.Indexing.BlockAddition

/-!
# Index keys

Every key starts with the format, a tag for its kind, and the framed scope. The tag
keeps the kinds apart, and the frames keep the parts apart.
-/

open Framing KvStore

namespace PaymentSdk.Redb.Keys

def format : UInt8 := 1

inductive Tag where
  | checkpoint
  | journal
  | history
  | output
  deriving DecidableEq

def Tag.byte : Tag → UInt8
  | checkpoint => 1
  | journal => 2
  | history => 3
  | output => 4

def component (text : Text) : Key := frame text.asBytes

def keyPrefix (scope : IndexScope) (tag : Tag) : Key :=
  [format, tag.byte] ++ component scope.chain.name ++ component scope.network

def checkpoint (scope : IndexScope) : Key := keyPrefix scope .checkpoint

def journal (scope : IndexScope) (height : BlockHeight) : Key :=
  keyPrefix scope .journal ++ bigEndian 8 height.toNat

def historyPrefix (scope : IndexScope) (address : CanonicalAddress) : Key :=
  keyPrefix scope .history ++ component address.value

def isHistory (scope : IndexScope) (key : Key) : Bool := (keyPrefix scope .history).isPrefixOf key

def history (scope : IndexScope) (address : CanonicalAddress) (height : BlockHeight)
    (transaction : TransactionRef) : Key :=
  historyPrefix scope address ++ bigEndian 8 height.toNat ++ component transaction.value

def outputPrefix (scope : IndexScope) (address : CanonicalAddress) : Key :=
  keyPrefix scope .output ++ component address.value

def isOutput (scope : IndexScope) (key : Key) : Bool := (keyPrefix scope .output).isPrefixOf key

def output (scope : IndexScope) (o : OutputKey) : Key :=
  outputPrefix scope o.address ++ component o.output.transaction.value ++
    bigEndian 4 o.output.index.toNat

/-! ## Kinds -/

/-- The second byte of a key. -/
def tagByte (k : Key) : Option UInt8 := k[1]?

theorem tagByte_keyPrefix (scope : IndexScope) (tag : Tag) (rest : Key) :
    tagByte (keyPrefix scope tag ++ rest) = some tag.byte := rfl

@[simp]
theorem tagByte_checkpoint (scope : IndexScope) :
    tagByte (checkpoint scope) = some Tag.checkpoint.byte := rfl

@[simp]
theorem tagByte_journal (scope : IndexScope) (h : BlockHeight) :
    tagByte (journal scope h) = some Tag.journal.byte := rfl

theorem tagByte_isHistory {scope : IndexScope} {k : Key} (h : isHistory scope k = true) :
    tagByte k = some Tag.history.byte := by
  obtain ⟨rest, rfl⟩ := List.isPrefixOf_iff_prefix.mp h
  exact tagByte_keyPrefix scope .history rest

theorem tagByte_isOutput {scope : IndexScope} {k : Key} (h : isOutput scope k = true) :
    tagByte k = some Tag.output.byte := by
  obtain ⟨rest, rfl⟩ := List.isPrefixOf_iff_prefix.mp h
  exact tagByte_keyPrefix scope .output rest

@[simp]
theorem isHistory_history (scope : IndexScope) (a : CanonicalAddress) (h : BlockHeight)
    (t : TransactionRef) : isHistory scope (history scope a h t) = true := by
  simp [isHistory, history, historyPrefix, List.append_assoc, List.isPrefixOf_iff_prefix]

@[simp]
theorem isOutput_output (scope : IndexScope) (o : OutputKey) :
    isOutput scope (output scope o) = true := by
  simp [isOutput, output, outputPrefix, List.append_assoc, List.isPrefixOf_iff_prefix]

/-! ## Parts -/

theorem component_append_inj {a b : Text} {x y : Key} (h : component a ++ x = component b ++ y) :
    a = b ∧ x = y := by
  obtain ⟨hbytes, hrest⟩ := frame_append_inj a.asBytes_length b.asBytes_length h
  exact ⟨Text.asBytes_inj hbytes, hrest⟩

theorem height_inj {h h' : BlockHeight} (he : bigEndian 8 h.toNat = bigEndian 8 h'.toNat) :
    h = h' := by
  have hw : (256 : Nat) ^ 8 = 2 ^ 64 := by decide
  apply BlockHeight.toNat_inj
  exact bigEndian_inj (by rw [hw]; exact h.toNat_lt) (by rw [hw]; exact h'.toNat_lt) he

theorem journal_inj {scope : IndexScope} {h h' : BlockHeight}
    (he : journal scope h = journal scope h') : h = h' :=
  height_inj (List.append_cancel_left he)

theorem history_inj {scope : IndexScope} {a a' : CanonicalAddress} {h h' : BlockHeight}
    {t t' : TransactionRef} (he : history scope a h t = history scope a' h' t') :
    a.value = a'.value ∧ h = h' ∧ t.value = t'.value := by
  simp only [history, historyPrefix, List.append_assoc] at he
  obtain ⟨haddress, hrest⟩ := component_append_inj (List.append_cancel_left he)
  obtain ⟨hheight, hid⟩ := List.append_inj hrest (by simp)
  obtain ⟨hid, -⟩ := component_append_inj (x := []) (y := []) (by simpa using hid)
  exact ⟨haddress, height_inj hheight, hid⟩

end PaymentSdk.Redb.Keys
