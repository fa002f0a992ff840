import PaymentSdk.Lib.ByteOrder
import PaymentSdk.Redb.Keys

/-!
# The space of index keys

Two calls of the encoders give one key only if they name the same thing. What an address owns is
found under its prefix, and nothing else is. Byte order follows the heights and the output indices.
-/

open Framing KvStore

namespace PaymentSdk.Redb.Keys

/-- A call of one of the encoders. -/
inductive Call where
  | checkpoint (scope : IndexScope)
  | journal (scope : IndexScope) (height : BlockHeight)
  | history (scope : IndexScope) (address : CanonicalAddress) (height : BlockHeight)
      (transaction : TransactionRef)
  | output (scope : IndexScope) (o : OutputKey)

namespace Call

def key : Call → Key
  | checkpoint scope => Keys.checkpoint scope
  | journal scope height => Keys.journal scope height
  | history scope address height transaction => Keys.history scope address height transaction
  | output scope o => Keys.output scope o

def scope : Call → IndexScope
  | checkpoint scope | journal scope _ | history scope _ _ _ | output scope _ => scope

def tag : Call → Tag
  | checkpoint _ => .checkpoint
  | journal _ _ => .journal
  | history _ _ _ _ => .history
  | output _ _ => .output

/-- What follows the tag and the scope. -/
def rest : Call → Key
  | checkpoint _ => []
  | journal _ height => bigEndian 8 height.toNat
  | history _ address height transaction =>
    component address.value ++ (bigEndian 8 height.toNat ++ component transaction.value)
  | output _ o =>
    component o.address.value ++ (component o.output.transaction.value ++ bigEndian 4 o.output.index.toNat)

/-- The same kind, scope and arguments. Of an address and of a transaction id, the argument is the
text. -/
def Same : Call → Call → Prop
  | checkpoint scope, checkpoint scope' => scope = scope'
  | journal scope height, journal scope' height' => scope = scope' ∧ height = height'
  | history scope address height transaction, history scope' address' height' transaction' =>
    scope = scope' ∧ address.value = address'.value ∧ height = height' ∧
      transaction.value = transaction'.value
  | output scope o, output scope' o' =>
    scope = scope' ∧ o.address.value = o'.address.value ∧
      o.output.transaction.value = o'.output.transaction.value ∧ o.output.index = o'.output.index
  | _, _ => False

theorem key_eq (c : Call) : c.key = keyPrefix c.scope c.tag ++ c.rest := by
  cases c with
  | checkpoint scope => simp [key, Call.scope, tag, rest, Keys.checkpoint]
  | journal scope height => rfl
  | history scope address height transaction =>
    simp [key, Call.scope, tag, rest, Keys.history, historyPrefix]
  | output scope o => simp [key, Call.scope, tag, rest, Keys.output, outputPrefix]

end Call

/-! ## Injectivity -/

theorem Tag.byte_inj {t t' : Tag} (h : t.byte = t'.byte) : t = t' := by
  cases t <;> cases t' <;> first | rfl | exact absurd h (by decide)

theorem keyPrefix_append_inj {scope scope' : IndexScope} {tag tag' : Tag} {x y : Key}
    (h : keyPrefix scope tag ++ x = keyPrefix scope' tag' ++ y) : scope = scope' ∧ tag = tag' ∧ x = y := by
  simp only [keyPrefix, List.append_assoc, List.cons_append, List.nil_append, List.cons.injEq, true_and] at h
  obtain ⟨htag, h⟩ := h
  obtain ⟨hchain, h⟩ := component_append_inj h
  obtain ⟨hnetwork, h⟩ := component_append_inj h
  refine ⟨?_, Tag.byte_inj htag, h⟩
  obtain ⟨⟨name⟩, network⟩ := scope
  obtain ⟨⟨name'⟩, network'⟩ := scope'
  rw [show name = name' from hchain, show network = network' from hnetwork]

theorem component_inj {a b : Text} (h : component a = component b) : a = b := by
  have happend : component a ++ [] = component b ++ [] := by rw [h]
  exact (component_append_inj happend).1

theorem history_rest_inj {a a' t t' : Text} {h h' : BlockHeight}
    (he : component a ++ (bigEndian 8 h.toNat ++ component t) =
      component a' ++ (bigEndian 8 h'.toNat ++ component t')) : a = a' ∧ h = h' ∧ t = t' := by
  obtain ⟨haddress, hrest⟩ := component_append_inj he
  obtain ⟨hheight, hid⟩ := List.append_inj hrest (by simp)
  exact ⟨haddress, height_inj hheight, component_inj hid⟩

theorem output_rest_inj {a a' t t' : Text} {i i' : UInt32}
    (he : component a ++ (component t ++ bigEndian 4 i.toNat) =
      component a' ++ (component t' ++ bigEndian 4 i'.toNat)) : a = a' ∧ t = t' ∧ i = i' := by
  obtain ⟨haddress, hrest⟩ := component_append_inj he
  obtain ⟨hid, hindex⟩ := component_append_inj hrest
  have hnat := bigEndian_inj i.toNat_lt i'.toNat_lt hindex
  exact ⟨haddress, hid, UInt32.toNat_inj.mp hnat⟩

theorem Call.same_of_key {a b : Call} (h : a.key = b.key) : a.Same b := by
  rw [key_eq, key_eq] at h
  obtain ⟨hscope, htag, hrest⟩ := keyPrefix_append_inj h
  cases a with
  | checkpoint scope =>
    cases b with
    | checkpoint => exact hscope
    | journal | history | output => cases htag
  | journal scope height =>
    cases b with
    | journal => exact ⟨hscope, height_inj hrest⟩
    | checkpoint | history | output => cases htag
  | history scope address height transaction =>
    cases b with
    | history => exact ⟨hscope, history_rest_inj hrest⟩
    | checkpoint | journal | output => cases htag
  | output scope o =>
    cases b with
    | output => exact ⟨hscope, output_rest_inj hrest⟩
    | checkpoint | journal | history => cases htag

theorem Call.key_of_same {a b : Call} (h : a.Same b) : a.key = b.key := by
  cases a with
  | checkpoint scope =>
    cases b with
    | checkpoint => exact congrArg Keys.checkpoint h
    | journal | history | output => exact h.elim
  | journal scope height =>
    cases b with
    | journal =>
      obtain ⟨rfl, rfl⟩ := h
      rfl
    | checkpoint | history | output => exact h.elim
  | history scope address height transaction =>
    cases b with
    | history =>
      obtain ⟨rfl, haddress, rfl, hid⟩ := h
      rw [key, key, Keys.history, Keys.history, historyPrefix, historyPrefix, haddress, hid]
    | checkpoint | journal | output => exact h.elim
  | output scope o =>
    cases b with
    | output =>
      obtain ⟨rfl, haddress, hid, hindex⟩ := h
      rw [key, key, Keys.output, Keys.output, outputPrefix, outputPrefix, haddress, hid, hindex]
    | checkpoint | journal | history => exact h.elim

/-! ## Prefixes -/

theorem keyPrefix_isPrefix {scope : IndexScope} {tag : Tag} {c : Call} :
    keyPrefix scope tag <+: c.key ↔ c.scope = scope ∧ c.tag = tag := by
  rw [Call.key_eq]
  constructor
  · rintro ⟨rest, h⟩
    obtain ⟨hscope, htag, -⟩ := keyPrefix_append_inj h
    exact ⟨hscope.symm, htag.symm⟩
  · rintro ⟨rfl, rfl⟩
    exact List.prefix_append _ _

theorem isHistory_key {scope : IndexScope} {c : Call} :
    isHistory scope c.key = true ↔ ∃ address height transaction, c = .history scope address height transaction := by
  rw [isHistory, List.isPrefixOf_iff_prefix, keyPrefix_isPrefix]
  constructor
  · rintro ⟨rfl, htag⟩
    cases c with
    | history scope address height transaction => exact ⟨address, height, transaction, rfl⟩
    | checkpoint | journal | output => cases htag
  · rintro ⟨address, height, transaction, rfl⟩
    exact ⟨rfl, rfl⟩

theorem isOutput_key {scope : IndexScope} {c : Call} :
    isOutput scope c.key = true ↔ ∃ o, c = .output scope o := by
  rw [isOutput, List.isPrefixOf_iff_prefix, keyPrefix_isPrefix]
  constructor
  · rintro ⟨rfl, htag⟩
    cases c with
    | output scope o => exact ⟨o, rfl⟩
    | checkpoint | journal | history => cases htag
  · rintro ⟨o, rfl⟩
    exact ⟨rfl, rfl⟩

theorem historyPrefix_isPrefix {scope : IndexScope} {address : CanonicalAddress} {c : Call} :
    historyPrefix scope address <+: c.key ↔
      ∃ address' height transaction, c = .history scope address' height transaction ∧
        address'.value = address.value := by
  constructor
  · intro h
    have hkind : isHistory scope c.key = true := by
      rw [isHistory, List.isPrefixOf_iff_prefix]
      exact (List.prefix_append _ _).trans h
    obtain ⟨address', height, transaction, rfl⟩ := isHistory_key.mp hkind
    refine ⟨address', height, transaction, rfl, ?_⟩
    obtain ⟨rest, h⟩ := h
    rw [historyPrefix, Call.key_eq, List.append_assoc] at h
    obtain ⟨haddress, -⟩ := component_append_inj (List.append_cancel_left h)
    exact haddress.symm
  · rintro ⟨address', height, transaction, rfl, haddress⟩
    rw [Call.key, history, historyPrefix, historyPrefix, haddress, List.append_assoc]
    exact List.prefix_append _ _

theorem outputPrefix_isPrefix {scope : IndexScope} {address : CanonicalAddress} {c : Call} :
    outputPrefix scope address <+: c.key ↔ ∃ o, c = .output scope o ∧ o.address.value = address.value := by
  constructor
  · intro h
    have hkind : isOutput scope c.key = true := by
      rw [isOutput, List.isPrefixOf_iff_prefix]
      exact (List.prefix_append _ _).trans h
    obtain ⟨o, rfl⟩ := isOutput_key.mp hkind
    refine ⟨o, rfl, ?_⟩
    obtain ⟨rest, h⟩ := h
    rw [outputPrefix, Call.key_eq, List.append_assoc] at h
    obtain ⟨haddress, -⟩ := component_append_inj (List.append_cancel_left h)
    exact haddress.symm
  · rintro ⟨o, rfl, haddress⟩
    rw [Call.key, output, outputPrefix, outputPrefix, haddress, List.append_assoc]
    exact List.prefix_append _ _

/-! ## Order -/

theorem compare_history (scope : IndexScope) (address : CanonicalAddress) (h h' : BlockHeight)
    (t t' : TransactionRef) :
    compare (history scope address h t) (history scope address h' t') =
      (compare h.toNat h'.toNat).then (compare (component t.value) (component t'.value)) := by
  rw [history, history, List.append_assoc, List.append_assoc, compare_append,
    compare_append_append (by simp), compare_bigEndian h.toNat_lt h'.toNat_lt]

theorem compare_output (scope : IndexScope) (address : CanonicalAddress) (t : TransactionRef) (i j : UInt32) :
    compare (output scope ⟨address, ⟨t, i⟩⟩) (output scope ⟨address, ⟨t, j⟩⟩) = compare i.toNat j.toNat := by
  rw [output, output, compare_append, compare_bigEndian i.toNat_lt j.toNat_lt]

/-- **Keys.** They are injective, the prefix of an address has the keys of that address only, and
byte order is the order of the heights and of the output indices. -/
theorem keys_isolate_and_order :
    (∀ a b : Call, a.key = b.key ↔ a.Same b) ∧
      (∀ scope address (c : Call), historyPrefix scope address <+: c.key ↔
        ∃ address' height transaction, c = .history scope address' height transaction ∧
          address'.value = address.value) ∧
      (∀ scope address (c : Call), outputPrefix scope address <+: c.key ↔
        ∃ o, c = .output scope o ∧ o.address.value = address.value) ∧
      (∀ scope (c : Call), isHistory scope c.key = true ↔
        ∃ address height transaction, c = .history scope address height transaction) ∧
      (∀ scope (c : Call), isOutput scope c.key = true ↔ ∃ o, c = .output scope o) ∧
      (∀ scope address h h' t t', compare (history scope address h t) (history scope address h' t') =
        (compare h.toNat h'.toNat).then (compare (component t.value) (component t'.value))) ∧
      ∀ scope address t (i j : UInt32),
        compare (output scope ⟨address, ⟨t, i⟩⟩) (output scope ⟨address, ⟨t, j⟩⟩) = compare i.toNat j.toNat := by
  refine ⟨?_, ?_, ?_, ?_, ?_, compare_history, compare_output⟩
  · intro a b
    exact ⟨Call.same_of_key, Call.key_of_same⟩
  · intro scope address c
    exact historyPrefix_isPrefix
  · intro scope address c
    exact outputPrefix_isPrefix
  · intro scope c
    exact isHistory_key
  · intro scope c
    exact isOutput_key

end PaymentSdk.Redb.Keys
