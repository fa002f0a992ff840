import PaymentSdk.Base.Json
import PaymentSdk.Wallets.Sender

/-!
# Snapshots of authored transactions

A builder authors transfers one after the other, and a snapshot of it restores them later. What
that has to mean is said here once, for the builders of every chain.
-/

namespace PaymentSdk.Wallets

/-- An address as opaque bytes. -/
abbrev BaseAddress := List UInt8

/-- A snapshot of a builder, in the form that is kept. -/
structure TransactionSnapshot where
  version : UInt16
  kind : String
  value : Json

namespace TransactionSnapshot

def currentVersion : UInt16 := 1

def new (kind : String) (value : Json) : TransactionSnapshot := ⟨currentVersion, kind, value⟩

end TransactionSnapshot

def invalidSnapshot (message : String) : TransactionError := { kind := .invalidSnapshot, message }

/-- A `u32` as a JSON number. -/
def jsonNumber (n : UInt32) : Json := .number (toString n.toNat) (some n.toUInt64)

/-! ## What a snapshot is for -/

/-- The wallets of a chain, their builders, and how a restoration can fail. -/
structure Authoring (W B E : Type) where
  builder : W → B
  transfer : B → BaseAddress → Decimal → Except TransactionError B
  snapshot : B → Except TransactionError TransactionSnapshot
  restore : W → TransactionSnapshot → Except E B
  transfers : B → List (BaseAddress × Decimal)

namespace Authoring

variable {W B E : Type}

def author (m : Authoring W B E) (b : B) (ts : List (BaseAddress × Decimal)) : Except TransactionError B :=
  ts.foldlM (fun b t => m.transfer b t.1 t.2) b

/-- A snapshot restores the transfers in the wallet that it was taken in, and in no foreign one. What
any snapshot restores could have been authored. -/
structure Restores (m : Authoring W B E) (Valid : W → Prop) (Foreign : W → W → Prop) : Prop where
  restored : ∀ w ts b, Valid w → ts ≠ [] → m.author (m.builder w) ts = .ok b →
    ∃ s b', m.snapshot b = .ok s ∧ m.restore w s = .ok b' ∧ m.transfers b' = m.transfers b ∧ m.snapshot b' = .ok s
  rejected : ∀ w w' ts b s, Valid w → Valid w' → Foreign w w' → m.author (m.builder w) ts = .ok b →
    m.snapshot b = .ok s → ∀ b', m.restore w' s ≠ .ok b'
  accepted : ∀ w s b, m.restore w s = .ok b → m.author (m.builder w) (m.transfers b) = .ok b

end Authoring

end PaymentSdk.Wallets
