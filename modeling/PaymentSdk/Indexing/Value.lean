import Std.Data.ExtTreeSet.Lemmas
import Mathlib.Algebra.Group.Nat.Defs
import Mathlib.Tactic.Common

/-! # Scopes, addresses and errors of the index -/

open Std

namespace PaymentSdk

/-- A Rust `String`: UTF-8 text that a 64-bit length can count. -/
structure Text where
  str : String
  fits : str.utf8ByteSize < 2 ^ 64
  deriving DecidableEq

/-- A text that is written out. -/
abbrev Text.lit (s : String) (h : decide (s.utf8ByteSize < 2 ^ 64) = true) : Text := ⟨s, of_decide_eq_true h⟩

def Text.asBytes (t : Text) : List UInt8 := t.str.toByteArray.data.toList

structure ChainId where
  name : Text
  deriving DecidableEq

/-- A chain and its network. Everything indexed belongs to one scope. -/
structure IndexScope where
  chain : ChainId
  network : Text
  deriving DecidableEq

/-- An asset of a chain. -/
structure AssetId where
  chain : ChainId
  asset : Text
  deriving DecidableEq

/-- An address of one scope, in its canonical text. -/
structure CanonicalAddress where
  scope : IndexScope
  value : Text
  deriving DecidableEq

/-- A transaction of one scope. -/
structure TransactionRef where
  scope : IndexScope
  value : Text
  deriving DecidableEq

def CanonicalAddress.belongsTo (a : CanonicalAddress) (scope : IndexScope) : Bool :=
  a.scope = scope

def TransactionRef.belongsTo (t : TransactionRef) (scope : IndexScope) : Bool :=
  t.scope = scope

theorem Text.ext {a b : Text} (h : a.str = b.str) : a = b := by
  cases a; cases b; congr

theorem Text.asBytes_inj {a b : Text} (h : a.asBytes = b.asBytes) : a = b := by
  apply Text.ext
  apply String.toByteArray_inj.mp
  exact ByteArray.ext (Array.toList_inj.mp h)

theorem Text.asBytes_length (t : Text) : t.asBytes.length < 2 ^ 64 := by
  have h : t.asBytes.length = t.str.utf8ByteSize := by simp [Text.asBytes]
  rw [h]
  exact t.fits

theorem utf8ByteSize_ofList_le (cs : List Char) : (String.ofList cs).utf8ByteSize ≤ 4 * cs.length := by
  induction cs with
  | nil => simp
  | cons c cs ih =>
    have hcons : String.ofList (c :: cs) = String.singleton c ++ String.ofList cs := by
      apply String.toList_inj.mp
      simp
    rw [hcons, String.utf8ByteSize_append, String.utf8ByteSize_singleton, List.length_cons]
    have := c.utf8Size_le_four
    omega

/-- Text of a known number of characters. -/
def Text.ofString (text : String) (h : 4 * text.toList.length < 2 ^ 64) : Text where
  str := text
  fits := by
    have hle := utf8ByteSize_ofList_le text.toList
    rw [String.ofList_toList] at hle
    omega

/-! ## The order of an ordered address set -/

/-- Addresses in the order a `BTreeSet` keeps them: by chain, network, then value. -/
def CanonicalAddress.cmp : CanonicalAddress → CanonicalAddress → Ordering :=
  compareLex (compareOn (·.scope.chain.name.str))
    (compareLex (compareOn (·.scope.network.str)) (compareOn (·.value.str)))

instance : TransCmp CanonicalAddress.cmp := by
  unfold CanonicalAddress.cmp
  infer_instance

instance : LawfulEqCmp CanonicalAddress.cmp where
  eq_of_compare {a b} h := by
    simp only [CanonicalAddress.cmp, compareLex, compareOn, Ordering.then_eq_eq,
      Std.LawfulEqCmp.compare_eq_iff_eq] at h
    obtain ⟨hchain, hnetwork, hvalue⟩ := h
    obtain ⟨⟨⟨chain⟩, network⟩, value⟩ := a
    obtain ⟨⟨⟨chain'⟩, network'⟩, value'⟩ := b
    obtain rfl : chain = chain' := Text.ext hchain
    obtain rfl : network = network' := Text.ext hnetwork
    obtain rfl : value = value' := Text.ext hvalue
    rfl

abbrev AddressSet := ExtTreeSet CanonicalAddress CanonicalAddress.cmp

/-! ## Errors -/

inductive IndexErrorKind where
  | source
  | store
  | conflict
  | scopeMismatch
  | invalidBlock
  | cannotConnect
  | reorgTooDeep
  | invalidRequest
  deriving DecidableEq

/-- An error of the index. A retryable one may go away by itself. -/
structure IndexError where
  kind : IndexErrorKind
  message : String
  retryable : Bool
  deriving DecidableEq

def IndexError.retryableCannotConnect (message : String) : IndexError :=
  ⟨.cannotConnect, message, true⟩

def IndexError.retryableConflict (message : String) : IndexError :=
  ⟨.conflict, message, true⟩

end PaymentSdk
